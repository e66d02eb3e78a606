import LoomV4.Identity.Resolve
import LoomV4.Identity.Refine

namespace LoomV4.Identity

open Lib Lib.Reader Bytecode

def compilerAbiVersion : ℕ := 59

def containerVersion : ℕ := 76

/-- What stays the same while the components are hashed. -/
structure Env where
  hash256 : Bytes → Hash
  module : Module
  bundle : AbiBundle
  graph : Graph
  compOf : ℕ → Option ℕ
  interfaceHashes : List Hash

def noDigest : ℕ → Option Hash := fun _ => none

namespace Env

variable (E : Env)

def finalView (state : HashState) : Resolver where
  module := E.module
  bundle := E.bundle
  graph := E.graph
  state := state
  comp := none
  compOf := E.compOf
  typeIntra := noDigest
  appIntra := noDigest
  bodyIntra := noDigest
  interfaceHashes := E.interfaceHashes
  onPath := []
  closureList := []

def compView (state : HashState) (k : ℕ) (typeIntra appIntra : ℕ → Option Hash) : Resolver :=
  { E.finalView state with comp := some k, typeIntra, appIntra }

end Env

inductive Kind
  | cls | func | body
deriving DecidableEq

def Kind.byte : Kind → UInt8
  | .cls => 0
  | .func => 1
  | .body => 2

structure Parts where
  classes : List ℕ
  memberFuncs : List ℕ
  closureFuncs : List ℕ
  types : List ℕ
  apps : List ℕ

namespace Env

variable (E : Env)

def slice (base size : ℕ) (comp : List ℕ) : List ℕ :=
  sortNat ((comp.filter fun v => base ≤ v ∧ v < base + size).map (· - base))

def parts (comp : List ℕ) : Parts :=
  let s := E.graph.space
  let funcs := slice s.classes s.funcs comp
  { classes := slice 0 s.classes comp
    memberFuncs := funcs.filter fun f => !E.graph.closureBody f
    closureFuncs := funcs.filter fun f => E.graph.closureBody f
    types := slice (s.classes + s.funcs) s.types comp
    apps := slice (s.classes + s.funcs + s.types) s.apps comp }

def node (s : Space) : Kind × ℕ → ℕ
  | (.cls, c) => s.classNode c
  | (_, f) => s.funcNode f

def refineMembers (p : Parts) : List (Kind × ℕ) :=
  p.classes.map (.cls, ·) ++ p.memberFuncs.map (.func, ·) ++ p.closureFuncs.map (.body, ·)

def memberItems : Kind × ℕ → List Item
  | (.cls, c) => .raw [Kind.cls.byte] :: match E.module.classes[c]? with
    | none => [.absent]
    | some k => classItems E.module (E.graph.arms c) c k
  | (kind, f) => .raw [kind.byte] :: (if kind = .body then [.raw tagBody] else []) ++
    match E.module.funcs[f]? with
    | none => [.absent]
    | some func => funcItems E.module f func

def intraDigests (digest : (ℕ → Option Hash) → ℕ → Option Hash) (idx : List ℕ) : Option (ℕ → Option Hash) :=
  idx.foldlM (fun table t => (digest table t).map fun h => Function.update table t (some h)) noDigest

def memberOf (refine : List (Kind × ℕ)) (v : ℕ) : Option ℕ := (refine.map (node E.graph.space)).idxOf? v

def placeholder (refine : List (Kind × ℕ)) (v : ℕ) : Option Bytes := (E.memberOf refine v).map fun _ => [0x04]

def coloured (refine : List (Kind × ℕ)) (colours : List ℕ) (v : ℕ) : Option Bytes :=
  (E.memberOf refine v).bind fun pos => (colours[pos]?).map fun c => 0x01 :: leBytes 4 c

def componentHash (serials : List (List Piece)) (refine : List (Kind × ℕ)) (colours : List ℕ) : Option Hash := do
  let bytes ← serials.mapM (render (E.coloured refine colours))
  let order := (List.range refine.length).mergeSort fun a b => decide (colours.getD a 0 ≤ colours.getD b 0)
  let sorted ← order.mapM fun i => bytes[i]?
  some (E.hash256 (tagComponent ++ leBytes 4 compilerAbiVersion ++ E.bundle.digest.toList ++ leBytes 4 order.length
    ++ sorted.flatMap fun bs => leBytes 8 bs.length ++ bs))

def memberHash (comp : Hash) (colour : ℕ) : Hash := E.hash256 (tagMember ++ comp.toList ++ leBytes 4 colour)

def withMembers (state : HashState) (comp : List ℕ) (refine : List (Kind × ℕ)) (colours : List ℕ) (hash : Hash) :
    HashState :=
  let table := refine.zip colours
  { state with
    compHash := fun v => if v ∈ comp then hash else state.compHash v
    classHash := fun c => match table.lookup (.cls, c) with
      | some colour => some (E.memberHash hash colour)
      | none => state.classHash c
    funcHash := fun f => match table.lookup (.func, f) with
      | some colour => some (E.memberHash hash colour)
      | none => state.funcHash f }

def makes (f : ℕ) : Option (List ℕ) := (E.module.funcs[f]?).map fun func => (Func.instrs func).flatMap instrMakes

structure Bodies where
  done : ℕ → Option Hash
  visiting : List ℕ
  stack : List (ℕ × Bool)

def bodyDigestOf (state : HashState) (closures : List ℕ) (b : Bodies) (f : ℕ) : Option Hash := do
  let func ← E.module.funcs[f]?
  let view := { E.finalView state with bodyIntra := b.done, onPath := b.visiting, closureList := closures }
  let bytes ← view.plain (funcItems E.module f func)
  some (E.hash256 (tagBody ++ bytes))

def bodyStep (state : HashState) (closures : List ℕ) (b : Bodies) : Option Bodies :=
  match b.stack with
  | [] => some b
  | (f, expanded) :: stack =>
    if (b.done f).isSome then some { b with stack }
    else if expanded then
      (E.bodyDigestOf state closures b f).map fun h =>
        { done := Function.update b.done f (some h), visiting := b.visiting.filter (· ≠ f), stack }
    else
      (E.makes f).map fun targets =>
        let visiting := b.visiting ++ [f]
        let fresh := targets.filter fun t =>
          E.graph.closureBody t ∧ state.bodyFinal t = none ∧ t ∉ visiting ∧ b.done t = none
        { b with visiting, stack := (fresh.map (·, false)).reverse ++ (f, true) :: stack }

def bodyLoop (state : HashState) (closures : List ℕ) : ℕ → Bodies → Option Bodies
  | 0, b => if b.stack = [] then some b else none
  | fuel + 1, b => if b.stack = [] then some b else (E.bodyStep state closures b).bind (bodyLoop state closures fuel)

def bodyTurns : ℕ := (E.module.funcs.map fun f => ((Func.instrs f).flatMap instrMakes).length + 1).sum + 1

def closureBodyDigests (state : HashState) (closures : List ℕ) : Option (ℕ → Option Hash) :=
  (closures.foldlM (fun (b : Bodies) f =>
    if (b.done f).isSome then some b else E.bodyLoop state closures E.bodyTurns { b with stack := [(f, false)] })
    { done := noDigest, visiting := [], stack := [] }).map (·.done)

structure Progress where
  state : HashState
  budget : ℕ
  rounds : ℕ

def hashMembers (k : ℕ) (comp : List ℕ) (p : Progress) : Option (Except String Progress) := do
  let parts := E.parts comp
  let refine := refineMembers parts
  let typeIntra ← intraDigests
    (fun table t => (E.compView p.state k table noDigest).typeDigestOf E.hash256 t) parts.types
  let appIntra ← intraDigests
    (fun table a => (E.compView p.state k typeIntra table).appDigestOf E.hash256 a) parts.apps
  let serials ← refine.mapM fun r => (E.compView p.state k typeIntra appIntra).pieces (E.memberItems r)
  let base ← serials.mapM (render (E.placeholder refine))
  let refs ← serials.mapM fun s => (members s).mapM (E.memberOf refine)
  let refined ← refineColours base refs p.budget
  match refined with
  | .error e => some (.error e)
  | .ok (colours, rounds, work) =>
    (E.componentHash serials refine colours).map fun hash =>
      .ok {
        state := E.withMembers p.state comp refine colours hash
        budget := p.budget - min work p.budget
        rounds := max p.rounds rounds }

def finishMembers (comp : List ℕ) (p : Progress) : Option Progress := do
  let parts := E.parts comp
  let state ← parts.types.foldlM (fun state t => ((E.finalView state).typeDigestOf E.hash256 t).map fun h =>
    { state with typeFinal := Function.update state.typeFinal t (some h) }) p.state
  let state ← parts.apps.foldlM (fun state a => ((E.finalView state).appDigestOf E.hash256 a).map fun h =>
    { state with appFinal := Function.update state.appFinal a (some h) }) state
  let bodies ← E.closureBodyDigests state parts.closureFuncs
  some { p with state := { state with bodyFinal := fun f => (bodies f).or (state.bodyFinal f) } }

def skips (comp : List ℕ) : Bool :=
  let s := E.graph.space
  comp.all (fun v => s.classes + s.funcs ≤ v) ||
    match comp with
    | [v] => (v < s.classes && E.graph.externClass v)
      || (s.classes ≤ v && v < s.classes + s.funcs && E.graph.externFunc (v - s.classes))
    | _ => false

def component (p : Progress) (c : List ℕ × ℕ) : ExceptT String Option Progress :=
  if E.skips c.1 then pure p
  else do
    let p ← ExceptT.mk (E.hashMembers c.2 c.1 p)
    ExceptT.mk ((E.finishMembers c.1 p).map .ok)

def sites : List (ℕ × ℕ × ℕ) :=
  E.module.funcs.zipIdx.flatMap fun p =>
    ((Func.instrs p.1).flatMap instrMakes).zipIdx.map fun t => (t.1, p.2, t.2)

def firstRef (f : ℕ) : Option (ℕ × ℕ) :=
  ((E.sites.filter fun s => E.graph.closureBody s.1).find? fun s => s.1 = f).map (·.2)

def climb (hash : ℕ → Option Hash) : ℕ → List ℕ → ℕ → Option (List ℕ)
  | 0, path, f => if (hash f).isSome ∨ f ∈ path then some path else none
  | fuel + 1, path, f =>
    if (hash f).isSome ∨ f ∈ path then some path
    else match E.firstRef f with
      | some (parent, _) => climb hash fuel (path ++ [f]) parent
      | none => some (path ++ [f])

def closureHash (hash : ℕ → Option Hash) (f : ℕ) : ℕ → Option Hash :=
  match E.firstRef f with
  | none => hash
  | some (parent, occurrence) =>
    match hash parent with
    | none => hash
    | some h => Function.update hash f (some (E.hash256 (tagClosure ++ h.toList ++ leBytes 4 occurrence)))

def fillFrom (hash : ℕ → Option Hash) (f : ℕ) : Option (ℕ → Option Hash) :=
  if !E.graph.closureBody f ∨ (hash f).isSome then some hash
  else (E.climb hash (E.module.funcs.length + 1) [] f).map fun path => path.reverse.foldl E.closureHash hash

def fillClosureHashes (state : HashState) : Option HashState :=
  ((List.range E.module.funcs.length).foldlM E.fillFrom state.funcHash).map fun hash =>
    { state with
      funcHash := fun f => (hash f).or (if f < E.module.funcs.length then
        some (E.hash256 (tagClosureCyclic ++ (state.compHash (E.graph.space.funcNode f)).toList ++ leBytes 4 f))
        else none) }

end Env

structure ModuleIdentity where
  classHashes : List Hash
  funcHashes : List Hash
  interfaceHashes : List Hash
  typeHashes : List Hash
  semanticHash : Hash
  maxRefineRounds : ℕ

def zeroHash : Hash := Vector.replicate 32 0

section

variable (hash256 : Bytes → Hash) (bundle : AbiBundle) (m : Module)

def pinned (g : Graph) (state : HashState) : HashState :=
  m.imports.foldl (fun state i =>
    if i.kind = .constant then state
    else if i.kind.isFunc then
      { state with
        funcHash := Function.update state.funcHash i.defn.toNat (some i.hash)
        compHash := Function.update state.compHash (g.space.funcNode i.defn.toNat) i.hash }
    else
      { state with
        classHash := Function.update state.classHash i.defn.toNat (some i.hash)
        compHash := Function.update state.compHash (g.space.classNode i.defn.toNat) i.hash }) state

def sortByKey {α : Type} (key : α → List Bytes) (l : List α) : List α := l.mergeSort fun a b => keyLe (key a) (key b)

def sizedBytes (bs : Bytes) : Bytes := leBytes 4 bs.length ++ bs

def importBytes : Bytes :=
  let key (i : Import) : List Bytes := [i.module.bytes, i.name.bytes, [i.kind.tag], i.hash.toList]
  writeTable (fun i : Import => writeText i.module ++ writeText i.name ++ [i.kind.tag] ++ i.hash.toList)
    (sortByKey key m.imports)

def targetBytes (funcHash : ℕ → Option Hash) : Option SlotTarget → Option Bytes
  | none => some [0]
  | some (.function f) => (funcHash f.toNat).map fun h => 1 :: h.toList
  | some (.class c constructor) => do
    let k ← m.classes[c.toNat]?
    let h ← funcHash constructor.toNat
    some (2 :: writeText k.key ++ h.toList)

def slotBytes (R : Resolver) : Option Bytes := do
  let slots ← m.slots.zipIdx.mapM fun p => do
    let contract ← R.plain (slotItems m true p.2)
    let target ← targetBytes m R.state.funcHash p.1.initial
    some (contract ++ target)
  some (writeTable sizedBytes (sortByKey ([·]) slots))

def reflectionBytes : Bytes :=
  writeTable sizedBytes (sortByKey ([·]) (m.reflections.map fun r => writeText r.name ++ r.semanticHash.toList))

def markerBytes : Bytes :=
  let key (e : Export) : List Bytes := [[e.kind.tag], e.name.bytes, writeFlag e.source]
  writeTable (fun e : Export => [e.kind.tag] ++ writeText e.name ++ writeFlag e.source)
    (sortByKey key m.exports)

def exportBytes (rows : List (UInt8 × Text × Hash)) : Bytes :=
  writeTable (fun e => [e.1] ++ writeText e.2.1 ++ e.2.2.toList)
    (sortByKey (fun e => [e.2.1.bytes, [e.1], e.2.2.toList]) rows)

def bindingBytes (rows : List (Text × Hash)) : Bytes :=
  writeTable (fun b => writeText b.1 ++ b.2.toList) (sortByKey (fun b => [b.1.bytes, b.2.toList]) rows)

def semanticHash (R : Resolver) (classHashes funcHashes interfaceHashes : List Hash) : Option Hash := do
  let slots ← slotBytes m R
  let funcs := ((m.funcs.zip funcHashes).zipIdx.filter fun p => !R.graph.closureBody p.2).map (·.1)
  let bindings ← m.bindings.mapM fun b => (funcHashes[b.func.toNat]?).map fun h => (b.key, h)
  let entry ← funcHashes[m.entry.toNat]?
  let exports := (m.classes.zip classHashes).map (fun p => ((0 : UInt8), p.1.name, p.2))
    ++ funcs.map (fun p => ((1 : UInt8), p.1.name, p.2))
    ++ (m.interfaces.zip interfaceHashes).map fun p => ((2 : UInt8), p.1.name, p.2)
  some (hash256 (tagModule ++ leBytes 2 containerVersion ++ leBytes 4 compilerAbiVersion ++ bundle.digest.toList
    ++ importBytes m ++ slots ++ reflectionBytes m ++ markerBytes m ++ exportBytes exports ++ bindingBytes bindings
    ++ entry.toList))

def HashState.start : HashState where
  classHash := noDigest
  funcHash := noDigest
  typeFinal := noDigest
  appFinal := noDigest
  bodyFinal := noDigest
  compHash := fun _ => zeroHash

def tableDigests (E : Env) : Option HashState := do
  let state ← (List.range m.types.length).foldlM (fun state t => ((E.finalView state).typeDigestOf hash256 t).map fun h =>
    { state with typeFinal := Function.update state.typeFinal t (some h) }) .start
  (List.range m.apps.length).foldlM (fun state a => ((E.finalView state).appDigestOf hash256 a).map fun h =>
    { state with appFinal := Function.update state.appFinal a (some h) }) state

/-- What `module_identity_with_bundle` has at the start of the component loop. -/
structure Schedule where
  env : Env
  comps : List (List ℕ)
  progress : Env.Progress

/-- The graph, its components and the digests of the types and applications. -/
def tabled : Option (Env × List (List ℕ) × HashState) := do
  let g ← Graph.build m
  let (comps, compOf) ← Scc.components g.space.total g.succ
  let E : Env := { hash256, module := m, bundle, graph := g, compOf, interfaceHashes := [] }
  let state ← tableDigests hash256 m E
  some (E, comps, state)

def schedule : Option Schedule := do
  let (E, comps, state) ← tabled hash256 bundle m
  let interfaceHashes ← (List.range m.interfaces.length).mapM ((E.finalView state).interfaceDigest hash256)
  some {
    env := { E with interfaceHashes }
    comps
    progress := { state := pinned m E.graph state, budget := moduleRefineWorkBudget, rounds := 0 } }

def Schedule.run (s : Schedule) (k : ℕ) : ExceptT String Option Env.Progress :=
  (s.comps.zipIdx.take k).foldlM s.env.component s.progress

def finishIdentity (E : Env) (p : Env.Progress) : Option ModuleIdentity := do
  let state ← E.fillClosureHashes p.state
  let classHashes ← (List.range m.classes.length).mapM state.classHash
  let funcHashes ← (List.range m.funcs.length).mapM state.funcHash
  let typeHashes ← (List.range m.types.length).mapM state.typeFinal
  let semanticHash ← semanticHash hash256 bundle m (E.finalView state) classHashes funcHashes E.interfaceHashes
  some { classHashes, funcHashes, interfaceHashes := E.interfaceHashes, typeHashes, semanticHash,
         maxRefineRounds := p.rounds }

/-- `module_identity_with_bundle`; `none` is a panic. -/
def moduleIdentity : ExceptT String Option ModuleIdentity := do
  ExceptT.mk (preflight bundle m)
  let s ← ExceptT.mk ((schedule hash256 bundle m).map .ok)
  let p ← s.run s.comps.length
  ExceptT.mk ((finishIdentity hash256 bundle m s.env p).map .ok)

end

end LoomV4.Identity
