import LoomV4.Abi.Fault
import LoomV4.Bytecode.Module
import LoomV4.Lib.Exec
import Mathlib.Data.List.Dedup

namespace LoomV4.Closed

open Abi Bytecode Lib

inductive Head
  | unit | bool | int | float | str | fault | request | policyTable | vm | digest | vmSnapshot
  | bytes | fileHandle | resourceHandle | hostResource
  | class (c : Index)
  | inst (c : Index)
  | list | map | tuple
  | fn (muts : List Bool) (row : List Index)
  | callback (muts : List Bool) (row : List Index)
  | run | wait | pendingCall | handle
  | op (slot : Index)
  | runSnapshot
deriving DecidableEq

/-- A closed type with the types it is built from; a function has its result behind its
parameters. A type is entered once, so that its index stands for it. -/
inductive Ty
  | mk (head : Head) (children : List Ty)

namespace Ty

mutual

def decEq : (a b : Ty) → Decidable (a = b)
  | .mk h cs, .mk h' cs' =>
    match instDecidableEqHead h h', decEqList cs cs' with
    | isTrue hh, isTrue hc => isTrue (by rw [hh, hc])
    | isFalse hh, _ => isFalse (by rintro ⟨⟩; exact hh rfl)
    | _, isFalse hc => isFalse (by rintro ⟨⟩; exact hc rfl)

def decEqList : (xs ys : List Ty) → Decidable (xs = ys)
  | [], [] => isTrue rfl
  | [], _ :: _ => isFalse nofun
  | _ :: _, [] => isFalse nofun
  | x :: xs, y :: ys =>
    match decEq x y, decEqList xs ys with
    | isTrue hx, isTrue hxs => isTrue (by rw [hx, hxs])
    | isFalse hx, _ => isFalse (by rintro ⟨⟩; exact hx rfl)
    | _, isFalse hxs => isFalse (by rintro ⟨⟩; exact hxs rfl)

end

instance : DecidableEq Ty := decEq

mutual

def depth : Ty → ℕ
  | .mk _ cs => depthList cs + 1

def depthList : List Ty → ℕ
  | [] => 0
  | c :: cs => max (depth c) (depthList cs)

end

def unit : Ty := .mk .unit []

end Ty

structure TypeEnv where
  types : List Ty
  rows : List (List Index)
deriving DecidableEq

structure TypeEnvs where
  types : List Ty
  envs : List TypeEnv
  maxTypes : ℕ
  maxEnvs : ℕ

/-- The tables of a namespace that closing a type and the boundary check read. -/
structure NamespaceRuntime where
  types : List BcType
  classes : List BcClass
  funcs : List Func
  conformances : List BcConformance
  coreRoles : ℕ → Index
  groupOperations : Index → List Index

abbrev EnvM (α : Type) : Type := Exec FaultCode TypeEnvs α

def maxClosedDepth : ℕ := 128

def intern (node : Ty) : EnvM Ty := fun E =>
  if node ∈ E.types then some (.ok node, E)
  else if maxClosedDepth < node.depth ∨ E.maxTypes ≤ E.types.length then some (.error .boundaryLimit, E)
  else some (.ok node, { E with types := E.types ++ [node] })

def internEnv (env : TypeEnv) : EnvM TypeEnv := fun E =>
  if env = ⟨[], []⟩ ∨ env ∈ E.envs then some (.ok env, E)
  else if E.maxEnvs ≤ E.envs.length then some (.error .boundaryLimit, E)
  else some (.ok env, { E with envs := E.envs ++ [env] })

def envOf (types : List Ty) (rows : List (List Index)) : EnvM TypeEnv := internEnv ⟨types, rows⟩

namespace NamespaceRuntime

variable (M : NamespaceRuntime)

def coreRole (index : ℕ) : Option Index :=
  if M.coreRoles index = noIndex then none else some (M.coreRoles index)

def closeRow (row : List BcRow) (env : TypeEnv) : List Index :=
  let out := row.flatMap fun
    | .op slot => [slot]
    | .group slot => M.groupOperations slot
    | .var i => env.rows[i.toNat]?.getD []
  (out.mergeSort (· ≤ ·)).dedup

def tupleRole (arity : ℕ) : Option ℕ :=
  if arity = 2 then some 62 else if 3 ≤ arity ∧ arity ≤ 16 then some (150 + arity - 3) else none

def closedInstance : Ty → Option (Index × List Ty)
  | .mk (.class c) _ => some (c, [])
  | .mk (.inst c) args => some (c, args)
  | .mk .unit _ => (M.coreRole 164).map fun c => (c, [])
  | .mk .int _ => (M.coreRole 53).map fun c => (c, [])
  | .mk .float _ => (M.coreRole 165).map fun c => (c, [])
  | .mk .bool _ => (M.coreRole 54).map fun c => (c, [])
  | .mk .str _ => (M.coreRole 55).map fun c => (c, [])
  | .mk .bytes _ => (M.coreRole 56).map fun c => (c, [])
  | .mk .list elem => (M.coreRole 100).map fun c => (c, elem)
  | .mk .map keyValue => (M.coreRole 101).map fun c => (c, keyValue)
  | .mk .tuple items => (tupleRole items.length).bind fun role => (M.coreRole role).map fun c => (c, items)
  | _ => none

inductive Flat
  | var (param : Index)
  | projection (base interface assoc : Index)
  | node (head : Head) (children : List Index)

def flat (env : TypeEnv) : BcType → Flat
  | .unit => .node .unit []
  | .never => .node .unit []
  | .bool => .node .bool []
  | .int => .node .int []
  | .float => .node .float []
  | .str => .node .str []
  | .fault => .node .fault []
  | .request => .node .request []
  | .policyTable => .node .policyTable []
  | .vm => .node .vm []
  | .digest => .node .digest []
  | .vmSnapshot => .node .vmSnapshot []
  | .bytes => .node .bytes []
  | .fileHandle => .node .fileHandle []
  | .resourceHandle => .node .resourceHandle []
  | .hostResource => .node .hostResource []
  | .class c => .node (.class c) []
  | .var i => .var i
  | .projection base interface assoc => .projection base interface assoc
  | .inst c args => .node (.inst c) args
  | .list e => .node .list [e]
  | .map k v => .node .map [k, v]
  | .tuple elems => .node .tuple elems
  | .fn params muts ret row => .node (.fn muts (M.closeRow row env)) (params ++ [ret])
  | .callback params muts ret row => .node (.callback muts (M.closeRow row env)) (params ++ [ret])
  | .run t => .node .run [t]
  | .wait t => .node .wait [t]
  | .runSnapshot t => .node .runSnapshot [t]
  | .pendingCall a r => .node .pendingCall [a, r]
  | .handle m r => .node .handle [m, r]
  | .op slot f => .node (.op slot) [f]

section Parents

variable (close : TypeEnv → Index → EnvM Ty)

def parentArgs (entry : BcClass) (args : List Ty) : EnvM (List Ty) :=
  if entry.parentArgs ≠ [] then do
    let owner ← envOf args []
    entry.parentArgs.mapM (close owner)
  else if (M.classes[entry.parent.toNat]?).any fun parent => parent.typeParams = 0 then pure []
  else pure args

def associated (conformance : BcConformance) (assoc : Index) (args : List Ty) : EnvM Ty :=
  match conformance.associated[assoc.toNat]? with
  | none => intern .unit
  | some template => do
    let owner ← envOf args []
    close owner template

def project (interface assoc : Index) : ℕ → Index → List Ty → EnvM Ty
  | steps, c, args =>
    match M.conformances.find? fun item => item.class' = c ∧ item.application.interface = interface with
    | some conformance => associated close conformance assoc args
    | none =>
      match steps with
      | 0 => intern .unit
      | steps + 1 =>
        match M.classes[c.toNat]? with
        | none => intern .unit
        | some entry =>
          if entry.parent = noIndex then intern .unit
          else do
            let args ← M.parentArgs close entry args
            project interface assoc steps entry.parent args

end Parents

/-- The fuel bounds how deeply types nest and how often a projection leads to another type. -/
def closeFrom : ℕ → TypeEnv → Index → EnvM Ty
  | 0, _, _ => Exec.stuck
  | fuel + 1, env, ty =>
    match M.types[ty.toNat]? with
    | none => intern .unit
    | some node =>
      match M.flat env node with
      | .var i =>
        match env.types[i.toNat]? with
        | some t => pure t
        | none => intern .unit
      | .node head children => do
        let children ← children.mapM (closeFrom fuel env)
        intern (.mk head children)
      | .projection base interface assoc => do
        let base ← closeFrom fuel env base
        match M.closedInstance base with
        | none => intern .unit
        | some (c, args) => M.project (closeFrom fuel) interface assoc M.classes.length c args

def ancestorFrom (fuel : ℕ) : ℕ → Index → List Ty → Index → EnvM (Option (List Ty))
  | steps, c, args, ancestor =>
    if c = ancestor then pure (some args)
    else match steps with
      | 0 => pure none
      | steps + 1 =>
        match M.classes[c.toNat]? with
        | none => pure none
        | some entry =>
          if entry.parent = noIndex then pure none
          else if entry.parentArgs = [] ∧ M.classes[entry.parent.toNat]? = none then pure none
          else do
            let args ← M.parentArgs (M.closeFrom fuel) entry args
            ancestorFrom fuel steps entry.parent args ancestor

/-- A full table answers as a class that is no ancestor. -/
def ancestorArgs (fuel : ℕ) (c : Index) (args : List Ty) (ancestor : Index) : EnvM (Option (List Ty)) := fun E =>
  match M.ancestorFrom fuel M.classes.length c args ancestor E with
  | some (.error _, E') => some (.ok none, E')
  | other => other

end NamespaceRuntime

end LoomV4.Closed
