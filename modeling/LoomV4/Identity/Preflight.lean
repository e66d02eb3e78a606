import LoomV4.Abi.Bundle
import LoomV4.Identity.Items
import LoomV4.Lib.Kahn

namespace LoomV4.Identity

open Lib Lib.Reader Bytecode

/-- Identity reads the tables of a bundle and not its group names. -/
abbrev AbiBundle := Abi.BundleTables

/-- The node space of the reference graph: classes, then functions, then types, then applications. -/
structure Space where
  classes : ℕ
  funcs : ℕ
  types : ℕ
  apps : ℕ

def Space.of (m : Module) : Space where
  classes := m.classes.length
  funcs := m.funcs.length
  types := m.types.length
  apps := m.apps.length

def Space.total (s : Space) : ℕ := s.classes + s.funcs + s.types + s.apps

def Space.classNode (_ : Space) (c : ℕ) : ℕ := c
def Space.funcNode (s : Space) (f : ℕ) : ℕ := s.classes + f
def Space.typeNode (s : Space) (t : ℕ) : ℕ := s.classes + s.funcs + t
def Space.appNode (s : Space) (a : ℕ) : ℕ := s.classes + s.funcs + s.types + a

abbrev Check := Except String Unit

def need (p : Prop) [Decidable p] (message : String) : Check := if p then .ok () else .error message

def each {α : Type} (l : List α) (f : α → Check) : Check := l.forM f

def eachIdx {α : Type} (l : List α) (f : ℕ → α → Check) : Check := l.zipIdx.forM fun p => f p.2 p.1

section

variable (bundle : AbiBundle)

def checkRow (what : String) (row : List BcRow) : Check :=
  each row fun
    | .op i => need (i.toNat < bundle.operations.length) s!"{what}: row operation slot out of range"
    | .group i => need (i.toNat < bundle.groupBits.length) s!"{what}: row group slot out of range"
    | .var _ => .ok ()

variable (m : Module)

def checkType (idx : ℕ) (ty : BcType) : Check :=
  let earlier (child : Index) : Check :=
    need (child.toNat < idx) s!"type {idx} references type {child}, which is not an earlier entry"
  let classOk (c : Index) : Check := need (c.toNat < m.classes.length) s!"type {idx} names class {c} out of range"
  let signature (params : List Index) (muts : List Bool) (ret : Index) (row : List BcRow) : Check := do
    need (muts.length = params.length) s!"type {idx}: mut markers do not align"
    each params earlier
    earlier ret
    checkRow bundle s!"type {idx}" row
  match ty with
  | .projection base interface assoc => do
    earlier base
    match m.interfaces[interface.toNat]? with
    | none => .error s!"type {idx} names an interface out of range"
    | some contract =>
      need (assoc.toNat < contract.associated.length) s!"type {idx} names an associated type out of range"
  | .class c => classOk c
  | .inst c args => do
    classOk c
    each args earlier
  | .list t | .run t | .wait t | .runSnapshot t | .op _ t => earlier t
  | .map a b | .pendingCall a b | .handle a b => do
    earlier a
    earlier b
  | .tuple elems => each elems earlier
  | .fn params muts ret row | .callback params muts ret row => signature params muts ret row
  | _ => .ok ()

def checkUse (what : String) (u : BcInterfaceUse) : Check := do
  need (u.interface.toNat < m.interfaces.length) s!"{what}: interface index out of range"
  each u.types fun t => need (t.toNat < m.types.length) s!"{what}: type index out of range"
  each u.rows (checkRow bundle what)

def checkBounds (what : String) (bounds : TypeBounds) : Check :=
  each bounds fun parameter => each parameter (checkUse bundle m what)

def checkInterface (idx : ℕ) (interface : BcInterface) : Check := do
  let what := s!"interface {idx}"
  each interface.parents (checkUse bundle m what)
  checkBounds bundle m what interface.typeBounds
  each interface.associated fun a => each a.bounds (checkUse bundle m what)
  each interface.methods fun method => do
    need (method.selector.toNat < m.selectors.length) s!"interface {idx}: selector index out of range"
    each (method.params ++ [method.ret]) fun t =>
      need (t.toNat < m.types.length) s!"interface {idx}: method type index out of range"
    checkBounds bundle m what method.typeBounds
    each method.premises fun premise => do
      need (premise.subject.toNat < m.types.length) s!"interface {idx}: premise type index out of range"
      each premise.bounds (checkUse bundle m what)
    checkRow bundle what method.row
    need (method.default = noIndex ∨ method.default.toNat < m.funcs.length)
      s!"interface {idx}: default function index out of range"

def interfaceParents : List (List ℕ) := m.interfaces.map fun i => i.parents.map fun u => u.interface.toNat

def checkInheritance : Option Check :=
  (Kahn.check 128 (interfaceParents m)).map fun
    | .ok () => .ok ()
    | .error .deep => .error "interface inheritance exceeds 128 levels"
    | .error .cycle => .error "interface inheritance contains a cycle"

def checkConformance (idx : ℕ) (c : BcConformance) : Check :=
  match m.classes[c.class'.toNat]? with
  | none => .error s!"conformance {idx}: class index out of range"
  | some k => do
    checkUse bundle m s!"conformance {idx}" c.application
    each c.premises fun premise => do
      need (premise.param < k.typeParams) s!"conformance {idx}: premise parameter out of range"
      each premise.bounds (checkUse bundle m s!"conformance {idx} premise")
    each c.associated fun t =>
      need (t.toNat < m.types.length) s!"conformance {idx}: associated type index out of range"

def checkClass (idx : ℕ) (k : BcClass) : Check := do
  need (k.parent = noIndex ∨ k.parent.toNat < m.classes.length) s!"class {idx}: parent out of range"
  each k.parentArgs fun t => need (t.toNat < m.types.length) s!"class {idx}: parent type argument out of range"
  each k.fields fun f =>
    let name := (String.fromUTF8? ⟨f.1.bytes.toArray⟩).getD ""
    need (f.2.toNat < m.types.length) (s!"class {idx}: field " ++ "`" ++ name ++ "` type out of range")
  each k.methods fun p => do
    need (p.1.toNat < m.selectors.length) s!"class {idx}: selector out of range"
    need (p.2.toNat < m.funcs.length) s!"class {idx}: method function out of range"

def checkCallable (slot : ℕ) (part : String) (c : BcCallableContract) : Check := do
  need (c.paramMuts.length = c.params.length) s!"slot {slot}: {part}mut markers do not align"
  need (c.typeBounds.length = c.typeParams.toNat) s!"slot {slot}: {part}type-bound count mismatch"
  checkBounds bundle m s!"slot {slot}" c.typeBounds
  each (c.params ++ [c.ret]) fun t => need (t.toNat < m.types.length) s!"slot {slot}: type index out of range"
  checkRow bundle s!"slot {slot}" c.row

def checkContract (slot : ℕ) (contract : SlotContract) : Check :=
  let checkTy (t : Index) : Check := need (t.toNat < m.types.length) s!"slot {slot}: type index out of range"
  match contract with
  | .function c | .method c => checkCallable bundle m slot "" c
  | .class _ _ ty constructor => do
    checkTy ty
    checkCallable bundle m slot "constructor " constructor
  | .value ty => checkTy ty
  | .process message result => do
    checkTy message
    checkTy result

def checkTarget (slot : ℕ) : Option SlotTarget → Check
  | none => .ok ()
  | some (.function f) => need (f.toNat < m.funcs.length) s!"slot {slot}: function target out of range"
  | some (.class c constructor) => do
    need (c.toNat < m.classes.length) s!"slot {slot}: class target out of range"
    need (constructor.toNat < m.funcs.length) s!"slot {slot}: class constructor target out of range"

def checkSlot (slot : ℕ) (spec : SlotSpec) : Check := do
  need (spec.key ∉ (m.slots.take slot).map (·.key)) s!"slot {slot}: duplicate slot key"
  checkContract bundle m slot spec.contract
  checkTarget m slot spec.initial

def operandName : Op → Operand → String
  | .constRegex, .index .strings => "regular-expression source index"
  | _, .index .strings => "string index"
  | _, .index .bytes => "byte literal index"
  | .makeClosure, .index .funcs | .makeCallback, .index .funcs => "closure function"
  | .functionCode, .index .funcs => "function code target"
  | .reflectionEnd, .index .funcs | _, .pattern => "reflection pattern"
  | _, .index .funcs => "call target"
  | .callSlot, .optApp | .newSlot, .optApp => "slot type application"
  | _, .index .apps | _, .optApp => "type application"
  | _, .index .selectors => "selector"
  | .classCode, .index .classes => "class code target"
  | _, .index .classes => "class"
  | .callInterface, .index .types => "receiver type"
  | _, .index .types => "type index"
  | _, .index .slots => "slot index"
  | _, .index .reflections => "reflection module"
  | _, _ => "reflection failure block"

def tableSize : Table → ℕ
  | .strings => m.strings.length
  | .bytes => m.bytes.length
  | .types => m.types.length
  | .selectors => m.selectors.length
  | .apps => m.apps.length
  | .classes => m.classes.length
  | .funcs => m.funcs.length
  | .slots => m.slots.length
  | .reflections => m.reflections.length

def checkOperand (idx : ℕ) (func : Func) (op : Op) (o : Operand) (v : ℕ) : Check :=
  let what := operandName op o
  let bad := s!"function {idx}: {what} out of range"
  match o with
  | .index table => need (v < tableSize m table) bad
  | .pattern => need (v < m.funcs.length) bad
  | .optApp => need (v = noApp ∨ v < m.apps.length) bad
  | .site =>
    match m.interfaces[v / 2 ^ 16]? with
    | none => .error s!"function {idx}: interface out of range"
    | some contract =>
      need (v % 2 ^ 16 < contract.methods.length) s!"function {idx}: interface method out of range"
  | .number =>
    if op = .constChar then need v.isValidChar s!"function {idx}: a character constant is not one Unicode scalar"
    else if op = .reflectionRefine then need (v < func.blocks.length) bad
    else .ok ()
  | _ => .ok ()

def checkInstr (idx : ℕ) (func : Func) (i : Instr) : Check :=
  each (fields i) fun p => checkOperand m idx func i.op p.1 p.2

def checkFunc (idx : ℕ) (func : Func) : Check := do
  need (func.paramMuts.length = func.params.length) s!"function {idx}: mut markers do not align"
  each (func.params ++ func.captures ++ func.localTypes ++ [func.ret]) fun t =>
    need (t.toNat < m.types.length) s!"function {idx}: signature type index out of range"
  checkRow bundle s!"function {idx}" func.row
  each func.blocks fun block => each block (checkInstr m idx func)

def checkImport (idx : ℕ) (i : Import) : Check :=
  if i.kind = .constant then need (i.defn = noIndex) s!"import {idx}: a constant pin has a runtime definition"
  else do
    need (i.defn.toNat < if i.kind.isFunc then m.funcs.length else m.classes.length)
      s!"import {idx}: definition index out of range"
    need (∀ j ∈ m.imports.take idx, j.kind = .constant ∨ j.kind.isFunc ≠ i.kind.isFunc ∨ j.defn ≠ i.defn)
      s!"import {idx}: the definition already has an import slot"

def checkBinding (idx : ℕ) (b : FuncBinding) : Check := do
  need (b.func.toNat < m.funcs.length) s!"binding {idx} names a function index out of range"
  need (b.class' = noIndex ∨ b.class'.toNat < m.classes.length) s!"binding {idx} names a class index out of range"

def checkApp (idx : ℕ) (a : TypeApp) : Check := do
  each a.types fun t => need (t.toNat < m.types.length) s!"application {idx}: type index out of range"
  each a.rows (checkRow bundle s!"application {idx}")

def preflightTypes : Check := do
  eachIdx m.types (checkType bundle m)
  eachIdx m.apps (checkApp bundle m)
  eachIdx m.interfaces (checkInterface bundle m)

def preflightDefinitions : Check := do
  need (m.classBounds.length = m.classes.length ∧ m.funcBounds.length = m.funcs.length)
    "interface-bound table length mismatch"
  eachIdx m.classBounds fun idx bounds => checkBounds bundle m s!"class {idx}" bounds
  eachIdx m.funcBounds fun idx bounds => checkBounds bundle m s!"function {idx}" bounds
  eachIdx m.conformances (checkConformance bundle m)
  eachIdx m.classes (checkClass m)
  eachIdx m.slots (checkSlot bundle m)
  eachIdx m.funcs (checkFunc bundle m)
  need (m.entry.toNat < m.funcs.length) "the entry index is out of range"
  eachIdx m.imports (checkImport m)
  eachIdx m.bindings (checkBinding m)

/-- `preflight`: every index that the encoding follows is in range. -/
def preflight : Option Check :=
  match preflightTypes bundle m with
  | .error e => some (.error e)
  | .ok () =>
    (checkInheritance m).map fun r => do
      r
      preflightDefinitions bundle m

end

end LoomV4.Identity
