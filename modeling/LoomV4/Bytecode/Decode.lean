import LoomV4.Bytecode.Encode

namespace LoomV4.Bytecode

open Lib Lib.Reader

inductive DecodeError (δ : Type)
  | truncated
  | badMagic
  | badVersion (found : ℕ)
  | badBundle (expected found : Hash)
  | badOpcode (byte : UInt8)
  | badTypeTag (byte : UInt8)
  | badRowTag (byte : UInt8)
  | badClassKind (byte : UInt8)
  | badSlot
  | badFlag (byte : UInt8)
  | badUtf8
  | badCharacter
  | badLength
  | trailingBytes
  | badSectionTable
  | exportCountMismatch
  | badExport
  | badBinding
  | badImport
  | mutMarkerCount
  | badCoreRole
  | badDebug (error : δ)

inductive Elem
  | string | blob | type | index | row | rows | app | flag | interface | interfaceUse | bounds | typeBounds
  | associated | method | typePremise | conformance | conformancePremise | import | slot
  | class : Elem
  | field | methodEntry
  | reflection | func | block | instr | binding | export | constValue

/-- What surrounds the decoder: the digest of the bundle, the sizes of the element types, and the codec of the debug
section. -/
structure Host (δ ι : Type) where
  digest : Hash
  size : Elem → ℕ
  decodeDebug : Bytes → Except δ ι
  validateDebug : ι → Module → Except δ Unit
  encodeDebug : ι → Bytes
  nonCanonical : δ

def maxDecodeVectorBytes : ℕ := 64 * 1024 * 1024

section

variable {δ ι : Type} (host : Host δ ι)

abbrev Cursor (δ α : Type) := Reader (DecodeError δ) α

/-- `decode_vec`: why a vector of so many elements is refused. -/
def Host.vec (e : Elem) (count : ℕ) : Option (DecodeError δ) :=
  if count * max (host.size e) 1 ≤ maxDecodeVectorBytes then none else some .badLength

def Host.vecOf (e : Elem) (n : ℕ) (mismatch : DecodeError δ) (count : ℕ) : Option (DecodeError δ) :=
  if count = n then host.vec e count else some mismatch

def u8 : Cursor δ UInt8 := byte .truncated

def tag : Cursor δ ℕ := uint .truncated 1

def index : Cursor δ Index := u32 .truncated

def len : Cursor δ ℕ := length .truncated .badLength

def hash : Cursor δ Hash := takeVector .truncated 32

def flag : Cursor δ Bool := do
  let b ← u8
  match b with
  | 0 => pure false
  | 1 => pure true
  | other => fail (.badFlag other)

def blob : Cursor δ Bytes := do
  let count ← uint .truncated 4
  take .truncated count

def string : Cursor δ Text := do
  let bs ← blob
  if h : validUtf8 bs = true then pure ⟨bs, h⟩ else fail .badUtf8

def tableOf {α : Type} (e : Elem) (least : ℕ) (p : Cursor δ α) : Cursor δ (List α) :=
  table .truncated .badLength least (host.vec e) p

def indices (least : ℕ) : Cursor δ (List Index) := tableOf host .index least index

def markers (n : ℕ) : Cursor δ (List Bool) :=
  table .truncated .badLength 1 (host.vecOf .flag n .mutMarkerCount) flag

def flags : Cursor δ (List Bool) := tableOf host .flag 1 flag

def decodeRowElemBody : ℕ → Cursor δ BcRow
  | 0 => do
    let i ← index
    pure (.op i)
  | 2 => do
    let i ← index
    pure (.group i)
  | 1 => do
    let i ← index
    pure (.var i)
  | other => fail (.badRowTag (.ofNat other))

def decodeRowElem : Cursor δ BcRow := do
  let t ← tag
  decodeRowElemBody t

def decodeRow : Cursor δ (List BcRow) := tableOf host .row 1 decodeRowElem

def decodeRows : Cursor δ (List (List BcRow)) := tableOf host .rows 1 (decodeRow host)

def decodeTypeApp : Cursor δ TypeApp := do
  let types ← indices host 1
  let rows ← decodeRows host
  pure { types, rows }

def decodeInterfaceUse : Cursor δ BcInterfaceUse := do
  let interface ← index
  let types ← indices host 4
  let rows ← decodeRows host
  pure { interface, types, rows }

def decodeBounds (least : ℕ) : Cursor δ (List BcInterfaceUse) :=
  tableOf host .interfaceUse least (decodeInterfaceUse host)

def decodeTypeBounds : Cursor δ TypeBounds := tableOf host .bounds 1 (decodeBounds host 1)

def decodeSignature : Cursor δ (List Index × List Bool × Index × List BcRow) := do
  let params ← indices host 1
  let muts ← markers host params.length
  let ret ← index
  let row ← decodeRow host
  pure (params, muts, ret, row)

def decodeTypeBody : ℕ → Cursor δ BcType
  | 0 => pure .unit
  | 32 => pure .never
  | 1 => pure .bool
  | 2 => pure .int
  | 31 => pure .float
  | 3 => pure .str
  | 4 => do
    let c ← index
    pure (.class c)
  | 10 => do
    let c ← index
    let args ← indices host 1
    pure (.inst c args)
  | 5 => do
    let e ← index
    pure (.list e)
  | 6 => do
    let k ← index
    let v ← index
    pure (.map k v)
  | 11 => do
    let elems ← indices host 1
    pure (.tuple elems)
  | 7 => do
    let s ← decodeSignature host
    pure (.fn s.1 s.2.1 s.2.2.1 s.2.2.2)
  | 29 => do
    let s ← decodeSignature host
    pure (.callback s.1 s.2.1 s.2.2.1 s.2.2.2)
  | 12 => do
    let i ← index
    pure (.var i)
  | 28 => do
    let base ← index
    let interface ← index
    let assoc ← index
    pure (.projection base interface assoc)
  | 20 => pure .digest
  | 13 => pure .fault
  | 14 => pure .request
  | 15 => pure .policyTable
  | 16 => pure .vm
  | 17 => do
    let t ← index
    pure (.run t)
  | 27 => do
    let t ← index
    pure (.wait t)
  | 18 => do
    let a ← index
    let r ← index
    pure (.pendingCall a r)
  | 21 => do
    let m ← index
    let r ← index
    pure (.handle m r)
  | 22 => pure .vmSnapshot
  | 23 => do
    let t ← index
    pure (.runSnapshot t)
  | 24 => pure .bytes
  | 25 => pure .fileHandle
  | 26 => pure .resourceHandle
  | 30 => pure .hostResource
  | 19 => do
    let slot ← index
    let f ← index
    pure (.op slot f)
  | other => fail (.badTypeTag (.ofNat other))

def decodeType : Cursor δ BcType := do
  let t ← tag
  decodeTypeBody host t

/-- The reading of the source is the lenient one. The strict one refuses the two spellings that the encoder never
writes: a truth byte above 1, and an optional index that is present and holds the sentinel. -/
def decodeOptionalIndex (lenient : Bool) : Cursor δ ℕ := do
  let present ← flag
  if present then do
    let v ← uint .truncated 4
    ensure (lenient || v ≠ noApp) .badLength
    pure v
  else pure noApp

def Operand.read (lenient : Bool) : Operand → Cursor δ ℕ
  | .truth => do
    let b ← u8
    ensure (lenient || b ≤ 1) (.badFlag b)
    pure (if b = 0 then 0 else 1)
  | .flag => do
    let b ← Bytecode.flag
    pure b.toNat
  | .numeric => do
    let t ← tag
    ensure (t < 80) (.badOpcode opNumeric)
    pure t
  | .reflectionKind => do
    let t ← tag
    ensure (t < 6) (.badOpcode opExtension)
    pure t
  | .word => uint .truncated 8
  | .pattern => do
    let v ← uint .truncated 4
    ensure (v < 2 ^ 29) .badLength
    pure v
  | .optApp => decodeOptionalIndex lenient
  | _ => uint .truncated 4

def Op.pack : Op → List ℕ → Option (List ℕ)
  | .prepareWait, [op, argc, ty] => if op < 2 ^ 16 ∧ argc < 2 ^ 16 then some [op + argc * 2 ^ 16, ty] else none
  | .reflectionRefine, [kind, function, target] => some [kind * 2 ^ 29 + function, target]
  | .reflectionEnd, [pattern, types, effects] =>
    if types < 2 ^ 16 ∧ effects < 2 ^ 16 then some [pattern, types + effects * 2 ^ 16] else none
  | .prepareWait, _ | .reflectionRefine, _ | .reflectionEnd, _ => none
  | _, wire => some wire

def decodeOp : Cursor δ Op := do
  let b ← u8
  if b = opExtension then do
    let sub ← u8
    match (Code.extension sub).op with
    | some op => pure op
    | none => fail (.badOpcode opExtension)
  else match (Code.main b).op with
    | some op => pure op
    | none => fail (.badOpcode b)

def decodeInstr (lenient : Bool) : Cursor δ Instr := do
  let op ← decodeOp
  let wire ← each (Operand.read lenient) op.operands
  match op.pack wire with
  | some args => pure { op, args }
  | none => fail .badLength

def decodeAssociated : Cursor δ BcAssociated := do
  let name ← string
  let bounds ← decodeBounds host 12
  pure { name, bounds }

def decodeTypePremise : Cursor δ BcTypePremise := do
  let subject ← index
  let bounds ← decodeBounds host 1
  pure { subject, bounds }

def decodeMethod : Cursor δ BcInterfaceMethod := do
  let selector ← index
  let mutSelf ← flag
  let typeParams ← index
  let typeBounds ← decodeTypeBounds host
  let effectParams ← index
  let premises ← tableOf host .typePremise 1 (decodeTypePremise host)
  let params ← indices host 4
  let paramMuts ← markers host params.length
  let ret ← index
  let row ← decodeRow host
  let default ← index
  pure { selector, mutSelf, typeParams, typeBounds, effectParams, premises, params, paramMuts, paramNames := [], ret,
         row, default }

def decodeInterface : Cursor δ BcInterface := do
  let typeParams ← index
  let effectParams ← index
  let genericIsEffect ← flags host
  let parents ← decodeBounds host 1
  let typeBounds ← decodeTypeBounds host
  let associated ← tableOf host .associated 1 (decodeAssociated host)
  let methods ← tableOf host .method 1 (decodeMethod host)
  pure { name := .empty, key := .empty, typeParams, effectParams, genericIsEffect, parents, typeBounds, associated,
         methods }

def decodeConformancePremise : Cursor δ BcConformancePremise := do
  let param ← index
  let bounds ← decodeBounds host 12
  pure { param, bounds }

def decodeConformance : Cursor δ BcConformance := do
  let class' ← index
  let application ← decodeInterfaceUse host
  let premises ← tableOf host .conformancePremise 8 (decodeConformancePremise host)
  let associated ← indices host 4
  let methodOverrides ← flags host
  pure { class', application, premises, associated, methodOverrides }

def ImportKind.ofTag : UInt8 → Option ImportKind
  | 0 => some .class
  | 1 => some .ctor
  | 2 => some .method
  | 3 => some .func
  | 4 => some .constant
  | _ => none

def tagged {α : Type} (ofTag : UInt8 → Option α) (bad : UInt8 → DecodeError δ) : Cursor δ α := do
  let tag ← u8
  match ofTag tag with
  | some a => pure a
  | none => fail (bad tag)

def decodeImport : Cursor δ Import := do
  let module ← string
  let name ← string
  let kind ← tagged ImportKind.ofTag fun _ => .badImport
  let defn ← index
  let hash ← hash
  pure { module, name, kind, defn, hash }

def decodeCallableContract : Cursor δ BcCallableContract := do
  let typeParams ← index
  let effectParams ← index
  let typeBounds ← decodeTypeBounds host
  let params ← indices host 4
  let paramMuts ← markers host params.length
  let ret ← index
  let row ← decodeRow host
  pure { typeParams, effectParams, typeBounds, params, paramMuts, ret, row }

def decodeSlotContractBody : ℕ → Cursor δ SlotContract
  | 0 => do
    let callable ← decodeCallableContract host
    pure (.function callable)
  | 1 => do
    let callable ← decodeCallableContract host
    pure (.method callable)
  | 2 => do
    let typeParams ← index
    let abi ← hash
    let ty ← index
    let constructor ← decodeCallableContract host
    pure (.class typeParams abi ty constructor)
  | 3 => do
    let ty ← index
    pure (.value ty)
  | 4 => do
    let message ← index
    let result ← index
    pure (.process message result)
  | _ => fail .badSlot

def decodeSlotContract : Cursor δ SlotContract := do
  let t ← tag
  decodeSlotContractBody host t

def decodeInitialBody : ℕ → Cursor δ (Option SlotTarget)
  | 0 => pure none
  | 1 => do
    let func ← index
    pure (some (.function func))
  | 2 => do
    let c ← index
    let constructor ← index
    pure (some (.class c constructor))
  | _ => fail .badSlot

def decodeInitial : Cursor δ (Option SlotTarget) := do
  let t ← tag
  decodeInitialBody t

def decodeSlot : Cursor δ SlotSpec := do
  let key ← hash
  let contractHash ← hash
  let contract ← decodeSlotContract host
  let initial ← decodeInitial
  pure { binding := .empty, late := false, key, contractHash, contract, initial }

def BcClassKind.ofTag : UInt8 → Option BcClassKind
  | 0 => some .normal
  | 1 => some .abstract
  | 2 => some .case
  | _ => none

def decodeField : Cursor δ (Text × Index) := do
  let name ← string
  let ty ← index
  pure (name, ty)

def decodeMethodEntry : Cursor δ (Index × Index) := do
  let selector ← index
  let func ← index
  pure (selector, func)

def decodeClass : Cursor δ BcClass := do
  let parent ← index
  let parentArgs ← indices host 1
  let typeParams ← index
  let kind ← tagged BcClassKind.ofTag .badClassKind
  let isFinal ← flag
  let isFrozen ← flag
  let fields ← tableOf host .field 1 decodeField
  let methods ← tableOf host .methodEntry 1 decodeMethodEntry
  pure { name := .empty, key := .empty, isFinal, isFrozen, parent, parentArgs, typeParams, kind, fields, methods,
         fieldDefaults := [], ownStart := 0, hasInit := false }

def decodeReflection : Cursor δ ReflectionModule := do
  let name ← string
  let semanticHash ← hash
  pure { name, semanticHash }

def decodeBlock (lenient : Bool) : Cursor δ (List Instr) := tableOf host .instr 1 (decodeInstr lenient)

def decodeFunc (lenient : Bool) : Cursor δ Func := do
  let typeParams ← index
  let effectParams ← index
  let params ← indices host 1
  let paramMuts ← markers host params.length
  let ret ← index
  let row ← decodeRow host
  let captures ← indices host 1
  let localTypes ← indices host 4
  let blocks ← tableOf host .block 1 (decodeBlock host lenient)
  pure { name := .empty, typeParams, effectParams, params, paramMuts, ret, row, captures, localTypes, blocks,
         paramNames := [] }

def claimImports : List Import → List Bool → List Bool → Bool
  | [], _, _ => true
  | i :: rest, classes, funcs =>
    if i.kind = .constant then i.defn == noIndex && claimImports rest classes funcs
    else if i.kind.isFunc then
      funcs[i.defn.toNat]? == some false && claimImports rest classes (funcs.set i.defn.toNat true)
    else classes[i.defn.toNat]? == some false && claimImports rest (classes.set i.defn.toNat true) funcs

def claimRoles (classes : ℕ) : List Index → List Index → Bool
  | [], _ => true
  | slot :: rest, taken =>
    if slot = noIndex then claimRoles classes rest taken
    else decide (slot.toNat < classes) && !taken.contains slot && claimRoles classes rest (taken ++ [slot])

def semanticReader (lenient : Bool) : Cursor δ Module := do
  let strings ← tableOf host .string 1 string
  let bytes ← tableOf host .blob 4 blob
  let types ← tableOf host .type 1 (decodeType host)
  let selectors ← tableOf host .string 1 string
  let apps ← tableOf host .app 1 (decodeTypeApp host)
  let interfaces ← tableOf host .interface 1 (decodeInterface host)
  let conformances ← tableOf host .conformance 1 (decodeConformance host)
  let classBounds ← tableOf host .typeBounds 1 (decodeTypeBounds host)
  let funcBounds ← tableOf host .typeBounds 1 (decodeTypeBounds host)
  let imports ← tableOf host .import 1 decodeImport
  let slots ← tableOf host .slot 66 (decodeSlot host)
  let coreRoles ← vector index coreRoleCount
  let classes ← tableOf host .class 1 (decodeClass host)
  let reflections ← tableOf host .reflection 1 decodeReflection
  let funcs ← tableOf host .func 1 (decodeFunc host lenient)
  ensure (classBounds.length = classes.length ∧ funcBounds.length = funcs.length) .badLength
  let entry ← index
  pure { strings, bytes, types, selectors, apps, interfaces, conformances, classBounds, funcBounds, imports, slots,
         coreRoles, reflections, classes, funcs, entry, exports := [], bindings := [], debug := [] }

def claims (m : Module) : Except (DecodeError δ) Unit :=
  if claimImports m.imports (m.classes.map fun _ => false) (m.funcs.map fun _ => false) = false then
    .error .badImport
  else if claimRoles m.classes.length m.coreRoles.toList [] = false then .error .badCoreRole
  else .ok ()

def decodeSemantic (lenient : Bool) (bs : Bytes) : Except (DecodeError δ) Module := do
  let m ← whole .trailingBytes (semanticReader host lenient) bs
  claims m
  pure m

/-- A constant after its tag. Its items are read by `item`, and `allocation` is what the tuples have reserved so far. -/
def decodeConstBody (item : ℕ → Cursor δ (ConstValue × ℕ)) (allocation : ℕ) : ℕ → Cursor δ (ConstValue × ℕ)
  | 0 => pure (.unit, allocation)
  | 1 => do
    let b ← flag
    pure (.bool b, allocation)
  | 2 => do
    let v ← uint .truncated 8
    pure (.int (.ofNat v), allocation)
  | 3 => do
    let v ← uint .truncated 8
    pure (.float (.ofNat v), allocation)
  | 7 => do
    let v ← uint .truncated 4
    if h : v.isValidChar then pure (.char (.ofNatAux v h), allocation) else fail .badCharacter
  | 4 => do
    let t ← string
    pure (.string t, allocation)
  | 5 => do
    let count ← len
    let bs ← take .truncated count
    pure (.bytes bs, allocation)
  | 6 => do
    let count ← len
    let reserved := allocation + count * max (host.size .constValue) 1
    ensure (reserved ≤ maxDecodeVectorBytes) .badLength
    permit (host.vec .constValue count)
    let items ← timesFrom item count reserved
    pure (.tuple items.1, items.2)
  | other => fail (.badTypeTag (.ofNat other))

def decodeConstValue : ℕ → ℕ → Cursor δ (ConstValue × ℕ)
  | 0, _ => fail .badLength
  | depth + 1, allocation => do
    let t ← tag
    decodeConstBody host (decodeConstValue depth) allocation t

def maxTypeDepth : ℕ := 32

def nameMethod (m : BcInterfaceMethod) : Cursor δ BcInterfaceMethod := do
  let paramNames ← table .truncated .badLength 1 (host.vecOf .string m.params.length .exportCountMismatch) string
  pure { m with paramNames }

def nameInterface (i : BcInterface) : Cursor δ BcInterface := do
  let name ← string
  let key ← string
  let methods ← each (nameMethod host) i.methods
  pure { i with name, key, methods }

def nameClass (c : BcClass) : Cursor δ BcClass := do
  let name ← string
  let key ← string
  let fieldDefaults ← table .truncated .badLength 1 (host.vecOf .flag c.fields.length .exportCountMismatch) flag
  let ownStart ← index
  let hasInit ← flag
  pure { c with name, key, fieldDefaults, ownStart, hasInit }

def Host.paramNames (n count : ℕ) : Option (DecodeError δ) :=
  if count ≠ 0 ∧ count ≠ n then some .exportCountMismatch else host.vec .string count

def nameFunc (f : Func) : Cursor δ Func := do
  let name ← string
  let paramNames ← table .truncated .badLength 1 (host.paramNames f.params.length) string
  pure { f with name, paramNames }

def nameSlot (s : SlotSpec) : Cursor δ SlotSpec := do
  let binding ← string
  let late ← flag
  pure { s with binding, late }

def names {α : Type} (name : α → Cursor δ α) (l : List α) : Cursor δ (List α) := do
  let count ← len
  ensure (count = l.length) .exportCountMismatch
  each name l

def decodeBinding (m : Module) : Cursor δ FuncBinding := do
  let key ← string
  let func ← index
  let class' ← index
  ensure (func.toNat < m.funcs.length) .badBinding
  ensure (class' = noIndex ∨ class'.toNat < m.classes.length) .badBinding
  pure { key, func, class' }

def ExportKind.ofTag : UInt8 → Option ExportKind
  | 0 => some .function
  | 1 => some .class
  | 2 => some .enum
  | 3 => some .enumCase
  | 4 => some .interface
  | 5 => some .constant
  | _ => none

def ExportKind.limit (m : Module) (k : ExportKind) : ℕ :=
  if k.isClass then m.classes.length else if k = .interface then m.interfaces.length else m.funcs.length

def exportOk (m : Module) (e : Export) : Bool :=
  if e.kind = .constant then e.constant.isSome && e.defn == noIndex && e.ctor == noIndex
  else e.constant.isNone && decide (e.defn.toNat < e.kind.limit m) &&
    (e.ctor == noIndex || decide (e.ctor.toNat < m.funcs.length)) && (e.kind.isClass || e.ctor == noIndex)

def decodeConstantBody (m : Module) (allocation : ℕ) : ℕ → Cursor δ (Option Constant × ℕ)
  | 0 => pure (none, allocation)
  | 1 => do
    let ty ← index
    ensure (ty.toNat < m.types.length) .badExport
    let value ← decodeConstValue host maxTypeDepth allocation
    pure (some { ty, value := value.1 }, value.2)
  | _ => fail .badExport

def decodeConstant (m : Module) (allocation : ℕ) : Cursor δ (Option Constant × ℕ) := do
  let t ← tag
  decodeConstantBody host m allocation t

def decodeExport (m : Module) (allocation : ℕ) : Cursor δ (Export × ℕ) := do
  let kind ← tagged ExportKind.ofTag fun _ => .badExport
  let name ← string
  let source ← flag
  let defn ← index
  let ctor ← index
  let constant ← decodeConstant host m allocation
  let e : Export := { kind, name, source, defn, ctor, constant := constant.1 }
  ensure (exportOk m e) .badExport
  pure (e, constant.2)

def exportsReader (m : Module) : Cursor δ Module := do
  let interfaces ← names (nameInterface host) m.interfaces
  let classes ← names (nameClass host) m.classes
  let funcs ← names (nameFunc host) m.funcs
  let slots ← names nameSlot m.slots
  let bindings ← tableOf host .binding 12 (decodeBinding m)
  let count ← len
  permit (host.vec .export count)
  let exports ← timesFrom (decodeExport host m) count 0
  pure { m with interfaces, classes, funcs, slots, bindings, exports := exports.1 }

def decodeExports (m : Module) (bs : Bytes) : Except (DecodeError δ) Module :=
  whole .trailingBytes (exportsReader host m) bs

def checkDebug (m : Module) (bs : Bytes) : Except (DecodeError δ) Unit :=
  match host.decodeDebug bs with
  | .error e => .error (.badDebug e)
  | .ok info =>
    match host.validateDebug info m with
    | .error e => .error (.badDebug e)
    | .ok _ => if host.encodeDebug info = bs then .ok () else .error (.badDebug host.nonCanonical)

def header (total : ℕ) : Cursor δ (ℕ × ℕ × ℕ) := do
  let found ← take .truncated 4
  ensure (found = magic) .badMagic
  let found ← uint .truncated 2
  ensure (found = version) (.badVersion found)
  let found ← hash
  ensure (found = host.digest) (.badBundle host.digest found)
  let semantic ← sectionLen headerLen
  let exports ← sectionLen (headerLen + semantic)
  let debug ← sectionLen (headerLen + semantic + exports)
  ensure (headerLen + semantic + exports + debug = total) .badSectionTable
  pure (semantic, exports, debug)
where
  sectionLen (expected : ℕ) : Cursor δ ℕ := do
    let offset ← uint .truncated 4
    let count ← uint .truncated 4
    ensure (offset = expected) .badSectionTable
    ensure (expected + count ≤ total) .badSectionTable
    pure count

def decodeWith (lenient : Bool) (bs : Bytes) : Except (DecodeError δ) Module :=
  match (header host bs.length).run bs with
  | .error e => .error e
  | .ok ((semantic, exports, _), rest) => do
    let m ← decodeSemantic host lenient (rest.take semantic)
    let m ← decodeExports host m ((rest.drop semantic).take exports)
    let debug := (rest.drop semantic).drop exports
    checkDebug host m debug
    pure { m with debug }

def decode (bs : Bytes) : Except (DecodeError δ) Module := decodeWith host true bs

def decodeStrict (bs : Bytes) : Except (DecodeError δ) Module := decodeWith host false bs

end

end LoomV4.Bytecode
