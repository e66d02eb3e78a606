import LoomV4.Bytecode.Module

namespace LoomV4.Bytecode

open Lib Lib.Reader

def noApp : ℕ := 0xffffffff

def pushTag (n : ℕ) : Bytes := [.ofNat n]

def writeFlag (b : Bool) : Bytes := [if b then 1 else 0]

def writeBytes (bs : Bytes) : Bytes := leBytes 4 bs.length ++ bs

def writeText (t : Text) : Bytes := writeBytes t.bytes

def writeIndices (l : List Index) : Bytes := writeTable writeU32 l

def writeMarkers (l : List Bool) : Bytes := writeTable writeFlag l

def encodeOptionalIndex (v : ℕ) : Bytes := if v = noApp then [0] else 1 :: leBytes 4 v

def Operand.write : Operand → ℕ → Bytes
  | .truth, v | .flag, v => writeFlag (v ≠ 0)
  | .numeric, v | .reflectionKind, v => leBytes 1 v
  | .word, v => leBytes 8 v
  | .optApp, v => encodeOptionalIndex v
  | _, v => leBytes 4 v

def Op.unpack : Op → List ℕ → List ℕ
  | .prepareWait, [opArgc, ty] => [opArgc % 2 ^ 16, opArgc / 2 ^ 16, ty]
  | .reflectionRefine, [pattern, target] => [min (pattern / 2 ^ 29) 5, pattern % 2 ^ 29, target]
  | .reflectionEnd, [pattern, bases] => [pattern, bases % 2 ^ 16, bases / 2 ^ 16]
  | _, args => args

def encodeInstr (i : Instr) : Bytes :=
  i.op.code.bytes ++ (List.zipWith Operand.write i.op.operands (i.op.unpack i.args)).flatten

def encodeRowElem : BcRow → Bytes
  | .op i => pushTag 0 ++ writeU32 i
  | .var i => pushTag 1 ++ writeU32 i
  | .group i => pushTag 2 ++ writeU32 i

def encodeRow (row : List BcRow) : Bytes := writeTable encodeRowElem row

def encodeTypeApp (a : TypeApp) : Bytes := writeIndices a.types ++ writeTable encodeRow a.rows

def encodeInterfaceUse (u : BcInterfaceUse) : Bytes :=
  writeU32 u.interface ++ writeIndices u.types ++ writeTable encodeRow u.rows

def encodeBounds (l : List BcInterfaceUse) : Bytes := writeTable encodeInterfaceUse l

def encodeTypeBounds (l : TypeBounds) : Bytes := writeTable encodeBounds l

def encodeSignature (s : List Index × List Bool × Index × List BcRow) : Bytes :=
  writeIndices s.1 ++ writeMarkers s.2.1 ++ writeU32 s.2.2.1 ++ encodeRow s.2.2.2

def encodeType : BcType → Bytes
  | .unit => pushTag 0
  | .bool => pushTag 1
  | .int => pushTag 2
  | .str => pushTag 3
  | .class c => pushTag 4 ++ writeU32 c
  | .list e => pushTag 5 ++ writeU32 e
  | .map k v => pushTag 6 ++ writeU32 k ++ writeU32 v
  | .fn params muts ret row => pushTag 7 ++ encodeSignature (params, muts, ret, row)
  | .inst c args => pushTag 10 ++ writeU32 c ++ writeIndices args
  | .tuple elems => pushTag 11 ++ writeIndices elems
  | .var i => pushTag 12 ++ writeU32 i
  | .fault => pushTag 13
  | .request => pushTag 14
  | .policyTable => pushTag 15
  | .vm => pushTag 16
  | .run t => pushTag 17 ++ writeU32 t
  | .pendingCall a r => pushTag 18 ++ writeU32 a ++ writeU32 r
  | .op slot f => pushTag 19 ++ writeU32 slot ++ writeU32 f
  | .digest => pushTag 20
  | .handle m r => pushTag 21 ++ writeU32 m ++ writeU32 r
  | .vmSnapshot => pushTag 22
  | .runSnapshot t => pushTag 23 ++ writeU32 t
  | .bytes => pushTag 24
  | .fileHandle => pushTag 25
  | .resourceHandle => pushTag 26
  | .wait t => pushTag 27 ++ writeU32 t
  | .projection base interface assoc => pushTag 28 ++ writeU32 base ++ writeU32 interface ++ writeU32 assoc
  | .callback params muts ret row => pushTag 29 ++ encodeSignature (params, muts, ret, row)
  | .hostResource => pushTag 30
  | .float => pushTag 31
  | .never => pushTag 32

def encodeAssociated (a : BcAssociated) : Bytes := writeText a.name ++ encodeBounds a.bounds

def encodeTypePremise (p : BcTypePremise) : Bytes := writeU32 p.subject ++ encodeBounds p.bounds

def encodeMethod (m : BcInterfaceMethod) : Bytes :=
  writeU32 m.selector ++ writeFlag m.mutSelf ++ writeU32 m.typeParams ++ encodeTypeBounds m.typeBounds
    ++ writeU32 m.effectParams ++ writeTable encodeTypePremise m.premises ++ writeIndices m.params
    ++ writeMarkers m.paramMuts ++ writeU32 m.ret ++ encodeRow m.row ++ writeU32 m.default

def encodeInterface (i : BcInterface) : Bytes :=
  writeU32 i.typeParams ++ writeU32 i.effectParams ++ writeMarkers i.genericIsEffect ++ encodeBounds i.parents
    ++ encodeTypeBounds i.typeBounds ++ writeTable encodeAssociated i.associated ++ writeTable encodeMethod i.methods

def encodeConformancePremise (p : BcConformancePremise) : Bytes := writeU32 p.param ++ encodeBounds p.bounds

def encodeConformance (c : BcConformance) : Bytes :=
  writeU32 c.class' ++ encodeInterfaceUse c.application ++ writeTable encodeConformancePremise c.premises
    ++ writeIndices c.associated ++ writeMarkers c.methodOverrides

def ImportKind.tag : ImportKind → UInt8
  | .class => 0
  | .ctor => 1
  | .method => 2
  | .func => 3
  | .constant => 4

def encodeImport (i : Import) : Bytes :=
  writeText i.module ++ writeText i.name ++ [i.kind.tag] ++ writeU32 i.defn ++ i.hash.toList

def encodeCallableContract (c : BcCallableContract) : Bytes :=
  writeU32 c.typeParams ++ writeU32 c.effectParams ++ encodeTypeBounds c.typeBounds ++ writeIndices c.params
    ++ writeMarkers c.paramMuts ++ writeU32 c.ret ++ encodeRow c.row

def encodeSlotContract : SlotContract → Bytes
  | .function callable => pushTag 0 ++ encodeCallableContract callable
  | .method callable => pushTag 1 ++ encodeCallableContract callable
  | .class typeParams abi ty constructor =>
    pushTag 2 ++ writeU32 typeParams ++ abi.toList ++ writeU32 ty ++ encodeCallableContract constructor
  | .value ty => pushTag 3 ++ writeU32 ty
  | .process message result => pushTag 4 ++ writeU32 message ++ writeU32 result

def encodeInitial : Option SlotTarget → Bytes
  | none => pushTag 0
  | some (.function func) => pushTag 1 ++ writeU32 func
  | some (.class c constructor) => pushTag 2 ++ writeU32 c ++ writeU32 constructor

def encodeSlot (s : SlotSpec) : Bytes :=
  s.key.toList ++ s.contractHash.toList ++ encodeSlotContract s.contract ++ encodeInitial s.initial

def BcClassKind.tag : BcClassKind → UInt8
  | .normal => 0
  | .abstract => 1
  | .case => 2

def encodeField (f : Text × Index) : Bytes := writeText f.1 ++ writeU32 f.2

def encodeMethodEntry (m : Index × Index) : Bytes := writeU32 m.1 ++ writeU32 m.2

def encodeClass (c : BcClass) : Bytes :=
  writeU32 c.parent ++ writeIndices c.parentArgs ++ writeU32 c.typeParams ++ [c.kind.tag] ++ writeFlag c.isFinal
    ++ writeFlag c.isFrozen ++ writeTable encodeField c.fields ++ writeTable encodeMethodEntry c.methods

def encodeReflection (r : ReflectionModule) : Bytes := writeText r.name ++ r.semanticHash.toList

def encodeBlock (b : List Instr) : Bytes := writeTable encodeInstr b

def encodeFunc (f : Func) : Bytes :=
  writeU32 f.typeParams ++ writeU32 f.effectParams ++ writeIndices f.params ++ writeMarkers f.paramMuts
    ++ writeU32 f.ret ++ encodeRow f.row ++ writeIndices f.captures ++ writeIndices f.localTypes
    ++ writeTable encodeBlock f.blocks

def encodeSemantic (m : Module) : Bytes :=
  writeTable writeText m.strings ++ writeTable writeBytes m.bytes ++ writeTable encodeType m.types
    ++ writeTable writeText m.selectors ++ writeTable encodeTypeApp m.apps ++ writeTable encodeInterface m.interfaces
    ++ writeTable encodeConformance m.conformances ++ writeTable encodeTypeBounds m.classBounds
    ++ writeTable encodeTypeBounds m.funcBounds ++ writeTable encodeImport m.imports ++ writeTable encodeSlot m.slots
    ++ m.coreRoles.toList.flatMap writeU32 ++ writeTable encodeClass m.classes
    ++ writeTable encodeReflection m.reflections ++ writeTable encodeFunc m.funcs ++ writeU32 m.entry

mutual

def encodeConstValue : ConstValue → Bytes
  | .unit => pushTag 0
  | .bool b => pushTag 1 ++ writeFlag b
  | .int v => pushTag 2 ++ leBytes 8 v.toNat
  | .float v => pushTag 3 ++ leBytes 8 v.toNat
  | .string t => pushTag 4 ++ writeText t
  | .bytes bs => pushTag 5 ++ writeBytes bs
  | .tuple items => pushTag 6 ++ leBytes 4 items.length ++ encodeConstValues items
  | .char c => pushTag 7 ++ leBytes 4 c.toNat

def encodeConstValues : List ConstValue → Bytes
  | [] => []
  | v :: vs => encodeConstValue v ++ encodeConstValues vs

end

def encodeMethodNames (m : BcInterfaceMethod) : Bytes := writeTable writeText m.paramNames

def encodeInterfaceNames (i : BcInterface) : Bytes :=
  writeText i.name ++ writeText i.key ++ i.methods.flatMap encodeMethodNames

def encodeClassNames (c : BcClass) : Bytes :=
  writeText c.name ++ writeText c.key ++ writeMarkers c.fieldDefaults ++ writeU32 c.ownStart ++ writeFlag c.hasInit

def encodeFuncNames (f : Func) : Bytes := writeText f.name ++ writeTable writeText f.paramNames

def encodeSlotNames (s : SlotSpec) : Bytes := writeText s.binding ++ writeFlag s.late

def encodeBinding (b : FuncBinding) : Bytes := writeText b.key ++ writeU32 b.func ++ writeU32 b.class'

def ExportKind.tag : ExportKind → UInt8
  | .function => 0
  | .class => 1
  | .enum => 2
  | .enumCase => 3
  | .interface => 4
  | .constant => 5

def encodeConstant : Option Constant → Bytes
  | none => pushTag 0
  | some c => pushTag 1 ++ writeU32 c.ty ++ encodeConstValue c.value

def encodeExport (e : Export) : Bytes :=
  [e.kind.tag] ++ writeText e.name ++ writeFlag e.source ++ writeU32 e.defn ++ writeU32 e.ctor
    ++ encodeConstant e.constant

def encodeExports (m : Module) : Bytes :=
  writeTable encodeInterfaceNames m.interfaces ++ writeTable encodeClassNames m.classes
    ++ writeTable encodeFuncNames m.funcs ++ writeTable encodeSlotNames m.slots ++ writeTable encodeBinding m.bindings
    ++ writeTable encodeExport m.exports

def magic : Bytes := [0x4c, 0x4d, 0x42, 0x43]

def version : ℕ := 76

def headerLen : ℕ := 4 + 2 + 32 + 3 * 8

def sectionEntry (offset count : ℕ) : Bytes := leBytes 4 offset ++ leBytes 4 count

def encodeHeader (digest : Hash) (semantic exports debug : ℕ) : Bytes :=
  magic ++ leBytes 2 version ++ digest.toList ++ sectionEntry headerLen semantic
    ++ sectionEntry (headerLen + semantic) exports ++ sectionEntry (headerLen + semantic + exports) debug

def encodeContainer (digest : Hash) (semantic exports debug : Bytes) : Bytes :=
  encodeHeader digest semantic.length exports.length debug.length ++ semantic ++ exports ++ debug

def encode (digest : Hash) (m : Module) : Bytes :=
  encodeContainer digest (encodeSemantic m) (encodeExports m) m.debug

end LoomV4.Bytecode
