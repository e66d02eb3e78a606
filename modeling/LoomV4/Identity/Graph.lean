import LoomV4.Identity.Preflight
import LoomV4.Lib.Scc

namespace LoomV4.Identity

open Lib Bytecode

structure Graph where
  space : Space
  succ : List (List ℕ)
  closureBody : ℕ → Bool
  arms : ℕ → List ℕ
  externClass : ℕ → Bool
  externFunc : ℕ → Bool

section

variable (m : Module)

def externClasses (c : ℕ) : Bool := m.imports.any fun i => i.kind = .class ∧ i.defn.toNat = c

def externFuncs (f : ℕ) : Bool := m.imports.any fun i => i.kind.isFunc ∧ i.defn.toNat = f

def flat (l : List (Option (List ℕ))) : Option (List ℕ) := (l.mapM id).map List.flatten

def typeEdge (t : Index) : ℕ := (Space.of m).typeNode t.toNat

def useTypes (bounds : List BcInterfaceUse) : List Index := bounds.flatMap (·.types)

def interfaceTypeEdges (i : ℕ) : Option (List ℕ) :=
  (m.interfaces[i]?).map fun contract =>
    (contract.typeBounds.flatMap useTypes ++ contract.associated.flatMap (fun a => useTypes a.bounds)
      ++ contract.methods.flatMap fun method =>
        method.params ++ [method.ret] ++ method.premises.flatMap fun p => p.subject :: useTypes p.bounds).map (typeEdge m)

def useEdges (u : BcInterfaceUse) : Option (List ℕ) :=
  (interfaceTypeEdges m u.interface.toNat).map (u.types.map (typeEdge m) ++ ·)

def boundEdges (bounds : List BcInterfaceUse) : Option (List ℕ) := flat (bounds.map (useEdges m))

def boundsEdges (bounds : TypeBounds) : Option (List ℕ) := flat (bounds.map (boundEdges m))

def callableEdges (c : BcCallableContract) : Option (List ℕ) :=
  (boundsEdges m c.typeBounds).map ((c.params ++ [c.ret]).map (typeEdge m) ++ ·)

def slotEdges (slot : ℕ) : Option (List ℕ) :=
  (m.slots[slot]?).bind fun spec =>
    match spec.contract with
    | .function c | .method c => callableEdges m c
    | .class _ _ ty constructor => (callableEdges m constructor).map (typeEdge m ty :: ·)
    | .value ty => some [typeEdge m ty]
    | .process message result => some [typeEdge m message, typeEdge m result]

def skipsType (op : Op) : Bool :=
  op ∈ [.digest, .dynPack, .regexCaptures, .regexMatchGroup, .regexMatchNamed]

def operandEdges (op : Op) : Operand → ℕ → Option (List ℕ)
  | .index .funcs, v | .pattern, v => some [(Space.of m).funcNode v]
  | .index .types, v => some (if skipsType op then [] else [(Space.of m).typeNode v])
  | .index .apps, v => some [(Space.of m).appNode v]
  | .optApp, v => some (if v = noApp then [] else [(Space.of m).appNode v])
  | .index .slots, v => slotEdges m v
  | _, _ => some []

def instrEdges (i : Instr) : Option (List ℕ) := flat ((fields i).map fun p => operandEdges m i.op p.1 p.2)

def funcEdges (f : ℕ) (func : Func) : Option (List ℕ) :=
  if externFuncs m f then some []
  else do
    let bounds ← (m.funcBounds[f]?).bind (boundsEdges m)
    let body ← flat (func.blocks.flatten.map (instrEdges m))
    some ((func.params ++ [func.ret] ++ func.captures ++ func.localTypes).map (typeEdge m) ++ bounds ++ body)

def conformanceEdges (c : BcConformance) : Option (List ℕ) := do
  let application ← useEdges m c.application
  let premises ← flat (c.premises.map fun p => boundEdges m p.bounds)
  some (application ++ premises ++ c.associated.map (typeEdge m))

def classEdges (c : ℕ) (k : BcClass) : Option (List ℕ) :=
  if externClasses m c then some []
  else do
    let bounds ← (m.classBounds[c]?).bind (boundsEdges m)
    let conformances ← flat ((m.conformances.filter fun x => x.class'.toNat = c).map (conformanceEdges m))
    some ((k.parentArgs ++ k.fields.map (·.2)).map (typeEdge m) ++ bounds ++ conformances
      ++ k.methods.map fun p => (Space.of m).funcNode p.2.toNat)

def typeChildren : BcType → List Index
  | .inst _ args => args
  | .list t | .run t | .wait t | .runSnapshot t | .op _ t => [t]
  | .map a b | .pendingCall a b | .handle a b => [a, b]
  | .tuple elems => elems
  | .fn params _ ret _ | .callback params _ ret _ => params ++ [ret]
  | _ => []

def instrCalls (i : Instr) : List ℕ :=
  if i.op = .call ∨ i.op = .callG ∨ i.op = .functionCode then
    ((fields i).filter fun p => p.1 = .index .funcs).map (·.2)
  else []

def instrMakes (i : Instr) : List ℕ :=
  if makesClosure i.op then ((fields i).filter fun p => p.1 = .index .funcs).map (·.2) else []

def Func.instrs (f : Func) : List Instr := f.blocks.flatten

def ownFuncs : List Func := (m.funcs.zipIdx.filter fun p => !externFuncs m p.2).map (·.1)

def ownClasses : List BcClass := (m.classes.zipIdx.filter fun p => !externClasses m p.2).map (·.1)

def slotTargets (spec : SlotSpec) : List ℕ :=
  match spec.initial with
  | some (.function f) => [f.toNat]
  | some (.class _ constructor) => [constructor.toNat]
  | none => []

def called : List ℕ :=
  (ownClasses m).flatMap (fun k => k.methods.map fun p => p.2.toNat)
    ++ (ownFuncs m).flatMap (fun f => (Func.instrs f).flatMap instrCalls)
    ++ m.bindings.map (fun b => b.func.toNat) ++ m.slots.flatMap slotTargets ++ [m.entry.toNat]

def madeClosure : List ℕ := (ownFuncs m).flatMap fun f => (Func.instrs f).flatMap instrMakes

def isClosureBody (f : ℕ) : Bool := f ∈ madeClosure m ∧ f ∉ called m ∧ !externFuncs m f

def isArm (p : BcClass × ℕ) : Bool :=
  !externClasses m p.2 ∧ p.1.parent ≠ noIndex ∧ p.1.kind = .case ∧ !externClasses m p.1.parent.toNat

def armsOf (c : ℕ) : List ℕ := (m.classes.zipIdx.filter fun p => isArm m p ∧ p.1.parent.toNat = c).map (·.2)

/-- `Graph::build`; `none` is an index out of range. -/
def Graph.build : Option Graph := do
  let classes ← (m.classes.zipIdx).mapM fun p => classEdges m p.2 p.1
  let funcs ← (m.funcs.zipIdx).mapM fun p => funcEdges m p.2 p.1
  guard (∀ f ∈ called m ++ madeClosure m, f < m.funcs.length)
  guard (∀ p ∈ m.classes.zipIdx, isArm m p → p.1.parent.toNat < m.classes.length)
  some {
    space := .of m
    succ := classes ++ funcs ++ m.types.map (fun t => (typeChildren t).map (typeEdge m))
      ++ m.apps.map fun a => a.types.map (typeEdge m)
    closureBody := isClosureBody m
    arms := armsOf m
    externClass := externClasses m
    externFunc := externFuncs m }

end

end LoomV4.Identity
