import LoomV4.Identity.Graph

namespace LoomV4.Identity

open Lib Lib.Reader Bytecode

structure HashState where
  classHash : ℕ → Option Hash
  funcHash : ℕ → Option Hash
  typeFinal : ℕ → Option Hash
  appFinal : ℕ → Option Hash
  bodyFinal : ℕ → Option Hash
  compHash : ℕ → Hash

inductive Piece
  | raw (bytes : Bytes)
  | member (node : ℕ)
deriving DecidableEq

/-- What one serialization sees: the component, or none for the final view, and the digests. -/
structure Resolver where
  module : Module
  bundle : AbiBundle
  graph : Graph
  state : HashState
  comp : Option ℕ
  compOf : ℕ → Option ℕ
  typeIntra : ℕ → Option Hash
  appIntra : ℕ → Option Hash
  bodyIntra : ℕ → Option Hash
  interfaceHashes : List Hash
  onPath : List ℕ
  closureList : List ℕ

namespace Resolver

variable (R : Resolver)

def inComp (node : ℕ) : Bool :=
  match R.comp with
  | some c => R.compOf node = some c
  | none => false

def funcIdent (f : ℕ) : Option (List Piece) :=
  if R.inComp (R.graph.space.funcNode f) then some [.member (R.graph.space.funcNode f)]
  else (R.state.funcHash f).map fun h => [.raw (0x00 :: h.toList)]

def typeDigest (t : ℕ) : Option Hash :=
  if R.inComp (R.graph.space.typeNode t) then R.typeIntra t else R.state.typeFinal t

def appDigest (a : ℕ) : Option Hash :=
  if R.inComp (R.graph.space.appNode a) then R.appIntra a else R.state.appFinal a

def bodyDigest (f : ℕ) : Option Hash := (R.bodyIntra f).or (R.state.bodyFinal f)

/-- `closure_instr_bytes`, without the captures. -/
def closureIdent (f : ℕ) : Option (List Piece) :=
  if R.graph.closureBody f ∧ !R.inComp (R.graph.space.funcNode f) then
    if f ∈ R.onPath then some [.raw (0x03 :: leBytes 4 ((R.closureList.idxOf? f).getD 0xffffffff))]
    else (R.bodyDigest f).map fun h => [.raw (0x02 :: h.toList)]
  else R.funcIdent f

end Resolver

def sortNat (l : List ℕ) : List ℕ := l.mergeSort fun a b => decide (a ≤ b)

section

variable (bundle : AbiBundle)

def rowOperations : BcRow → Option (List ℕ)
  | .op i => some [i.toNat]
  | .group i =>
    bundle.groupOperations i.toNat
  | .var _ => some []

def rowVariables : BcRow → List ℕ
  | .var v => [v.toNat]
  | _ => []

/-- `row_bytes`: the exact operations by name, then the variables. -/
def rowBytes (row : List BcRow) : Option Bytes := do
  let operations ← row.mapM (rowOperations bundle)
  let operations := sortNat operations.flatten.dedup
  let vars := sortNat (row.flatMap rowVariables).dedup
  let names ← operations.mapM fun i => bundle.operations[i]?
  some (leBytes 4 (operations.length + vars.length) ++ names.flatMap (fun n => 0x00 :: writeBytes n.toUTF8.data.toList)
    ++ vars.flatMap fun v => 0x01 :: leBytes 4 v)

end

namespace Resolver

variable (R : Resolver)

/-- What stands for one item; `none` is a digest that is not there or an index out of range. -/
def resolve : Item → Option (List Piece)
  | .raw bs => some [.raw bs]
  | .type t => (R.typeDigest t).map fun h => [.raw h.toList]
  | .app a => (R.appDigest a).map fun h => [.raw h.toList]
  | .func f => R.funcIdent f
  | .closure f => R.closureIdent f
  | .classKey c => (R.module.classes[c]?).map fun k => [.raw (writeText k.key)]
  | .interfaceKey i => (R.module.interfaces[i]?).map fun i => [.raw (writeText i.key)]
  | .interfaceHash i => (R.interfaceHashes[i]?).map fun h => [.raw h.toList]
  | .selector s => (R.module.selectors[s]?).map fun t => [.raw (writeText t)]
  | .string s => (R.module.strings[s]?).map fun t => [.raw (writeText t)]
  | .blob b => (R.module.bytes[b]?).map fun bs => [.raw (writeBytes bs)]
  | .reflection r => (R.module.reflections[r]?).map fun r => [.raw (writeText r.name ++ r.semanticHash.toList)]
  | .row row => (rowBytes R.bundle row).map fun bs => [.raw bs]
  | .absent => none

def pieces (items : List Item) : Option (List Piece) := (items.mapM R.resolve).map List.flatten

end Resolver

def Piece.render (place : ℕ → Option Bytes) : Piece → Option Bytes
  | .raw bs => some bs
  | .member node => place node

def render (place : ℕ → Option Bytes) (ps : List Piece) : Option Bytes :=
  (ps.mapM (Piece.render place)).map List.flatten

def Piece.node? : Piece → Option ℕ
  | .raw _ => none
  | .member node => some node

def members (ps : List Piece) : List ℕ := ps.filterMap Piece.node?

namespace Resolver

variable (R : Resolver)

def plain (items : List Item) : Option Bytes := (R.pieces items).bind (render fun _ => none)

variable (hash256 : Bytes → Hash)

def interfaceLocalDigest (i : ℕ) : Option Hash :=
  (R.module.interfaces[i]?).bind fun contract => (R.plain (interfaceLocalItems contract)).map hash256

inductive Step
  | enter (u : BcInterfaceUse)
  | leave

def interfaceWalk : ℕ → List Step → Option Bytes
  | _, [] => some []
  | 0, _ :: _ => none
  | fuel + 1, .leave :: stack => (interfaceWalk fuel stack).map (0 :: ·)
  | fuel + 1, .enter u :: stack => do
    let use ← R.plain (useItems false u)
    let digest ← R.interfaceLocalDigest hash256 u.interface.toNat
    let contract ← R.module.interfaces[u.interface.toNat]?
    let rest ← interfaceWalk fuel (contract.parents.map .enter ++ .leave :: stack)
    some (1 :: use ++ digest.toList ++ rest)

end Resolver

def span (m : Module) : ℕ → ℕ → ℕ
  | 0, _ => 0
  | depth + 1, i =>
    2 + ((((m.interfaces[i]?).map (·.parents)).getD []).map fun u => span m depth u.interface.toNat).sum

namespace Resolver

variable (R : Resolver) (hash256 : Bytes → Hash)

/-- The buffer of `interface_digest`. The walk goes over the inheritance as a tree, so an ancestor stands in it once
for each path. -/
def interfaceBytes (i : ℕ) : Option Bytes := do
  let contract ← R.module.interfaces[i]?
  let own ← R.interfaceLocalDigest hash256 i
  let turns := (contract.parents.map fun u => span R.module R.module.interfaces.length u.interface.toNat).sum
  let parents ← R.interfaceWalk hash256 turns (contract.parents.map .enter)
  some (tagInterface ++ own.toList ++ parents)

/-- No buffer is longer; the code stops with a capacity overflow. -/
def isizeMax : ℕ := 2 ^ 63 - 1

def interfaceDigest (i : ℕ) : Option Hash := do
  let out ← R.interfaceBytes hash256 i
  if out.length ≤ isizeMax then some (hash256 out) else none

def typeDigestOf (t : ℕ) : Option Hash :=
  (R.module.types[t]?).bind fun ty => (R.plain (.raw tagType :: typeItems ty)).map hash256

def appDigestOf (a : ℕ) : Option Hash :=
  (R.module.apps[a]?).bind fun app => (R.plain (appItems app)).map hash256

end Resolver

end LoomV4.Identity
