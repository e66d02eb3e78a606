import LoomV4.Bytecode.Encode
import LoomV4.Lib.Lex

namespace LoomV4.Identity

open Lib Lib.Reader Bytecode

/-- One piece of a canonical encoding: plain bytes, or an operand that the resolver replaces. -/
inductive Item
  | raw (bytes : Bytes)
  | type (t : ℕ)
  | app (a : ℕ)
  | func (f : ℕ)
  | closure (f : ℕ)
  | classKey (c : ℕ)
  | interfaceKey (i : ℕ)
  | interfaceHash (i : ℕ)
  | selector (s : ℕ)
  | string (s : ℕ)
  | blob (b : ℕ)
  | reflection (r : ℕ)
  | row (row : List BcRow)
  | absent
deriving DecidableEq

def domain (tag : String) : Bytes := tag.toList.map (fun c => UInt8.ofNat c.toNat) ++ [0]

def tagType : Bytes := domain "lm-type-v1"
def tagApp : Bytes := domain "lm-app-v1"
def tagBody : Bytes := domain "lm-closure-body-v1"
def tagComponent : Bytes := domain "lm-def-component-v1"
def tagMember : Bytes := domain "lm-def-member-v1"
def tagClosure : Bytes := domain "lm-def-closure-v1"
def tagClosureCyclic : Bytes := domain "lm-def-closure-cyclic-v1"
def tagModule : Bytes := domain "lm-module-sem-v1"
def tagInterfaceLocal : Bytes := domain "lm-interface-local-v1"
def tagInterface : Bytes := domain "lm-interface-v3"

def word (n : ℕ) : Item := .raw (leBytes 4 n)

def count {α : Type} (l : List α) : Item := word l.length

def text (t : Text) : Item := .raw (writeText t)

def mark (b : Bool) : Item := .raw (writeFlag b)

def typeRef (t : Index) : Item := .type t.toNat

def useItems (contract : Bool) (u : BcInterfaceUse) : List Item :=
  [.interfaceKey u.interface.toNat] ++ (if contract then [.interfaceHash u.interface.toNat] else [])
    ++ count u.types :: u.types.map typeRef ++ count u.rows :: u.rows.map .row

def boundItems (contract : Bool) (bounds : List BcInterfaceUse) : List Item :=
  count bounds :: bounds.flatMap (useItems contract)

def boundsItems (contract : Bool) (bounds : TypeBounds) : List Item :=
  count bounds :: bounds.flatMap (boundItems contract)

def premiseItems (p : BcTypePremise) : List Item := typeRef p.subject :: boundItems false p.bounds

def methodItems (m : BcInterfaceMethod) : List Item :=
  [.selector m.selector.toNat, mark m.mutSelf, word m.typeParams.toNat] ++ boundsItems false m.typeBounds
    ++ [word m.effectParams.toNat, count m.premises] ++ m.premises.flatMap premiseItems
    ++ count m.params :: m.params.map typeRef ++ m.paramMuts.map mark
    ++ [typeRef m.ret, .row m.row, mark (m.default ≠ noIndex)]

def interfaceLocalItems (i : BcInterface) : List Item :=
  [.raw tagInterfaceLocal, word i.typeParams.toNat, word i.effectParams.toNat, count i.genericIsEffect]
    ++ i.genericIsEffect.map mark ++ boundsItems false i.typeBounds
    ++ count i.associated :: i.associated.flatMap (fun a => text a.name :: boundItems false a.bounds)
    ++ count i.methods :: i.methods.flatMap methodItems

def signatureItems (params : List Index) (muts : List Bool) (ret : Index) (row : List BcRow) : List Item :=
  count params :: params.map typeRef ++ muts.map mark ++ [typeRef ret, .row row]

def typeItems : BcType → List Item
  | .unit => [.raw [0]]
  | .never => [.raw [32]]
  | .bool => [.raw [1]]
  | .int => [.raw [2]]
  | .float => [.raw [31]]
  | .str => [.raw [3]]
  | .class c => [.raw [4], .classKey c.toNat]
  | .inst c args => [.raw [5], .classKey c.toNat, count args] ++ args.map typeRef
  | .list e => [.raw [6], typeRef e]
  | .map k v => [.raw [7], typeRef k, typeRef v]
  | .tuple elems => [.raw [8], count elems] ++ elems.map typeRef
  | .fn params muts ret row => .raw [9] :: signatureItems params muts ret row
  | .callback params muts ret row => .raw [29] :: signatureItems params muts ret row
  | .var i => [.raw [10], word i.toNat]
  | .projection base interface assoc =>
    [.raw [28], typeRef base, .interfaceKey interface.toNat, word assoc.toNat]
  | .fault => [.raw [13]]
  | .request => [.raw [14]]
  | .policyTable => [.raw [15]]
  | .vm => [.raw [16]]
  | .digest => [.raw [20]]
  | .run t => [.raw [17], typeRef t]
  | .wait t => [.raw [27], typeRef t]
  | .pendingCall a r => [.raw [18], typeRef a, typeRef r]
  | .handle m r => [.raw [21], typeRef m, typeRef r]
  | .vmSnapshot => [.raw [22]]
  | .runSnapshot t => [.raw [23], typeRef t]
  | .bytes => [.raw [24]]
  | .fileHandle => [.raw [25]]
  | .resourceHandle => [.raw [26]]
  | .hostResource => [.raw [30]]
  | .op slot f => [.raw [19], word slot.toNat, typeRef f]

def appItems (a : TypeApp) : List Item :=
  .raw tagApp :: count a.types :: a.types.map typeRef ++ count a.rows :: a.rows.map .row

def callableItems (c : BcCallableContract) : List Item :=
  [word c.typeParams.toNat, word c.effectParams.toNat] ++ boundsItems true c.typeBounds
    ++ count c.params :: (c.params.zip c.paramMuts).flatMap (fun p => [mark p.2, typeRef p.1])
    ++ [typeRef c.ret, .row c.row]

def contractItems (abi : Bool) : SlotContract → List Item
  | .function c => .raw [0] :: callableItems c
  | .method c => .raw [1] :: callableItems c
  | .class typeParams abiHash ty constructor =>
    [.raw [2], word typeParams.toNat] ++ (if abi then [.raw abiHash.toList] else [])
      ++ typeRef ty :: callableItems constructor
  | .value ty => [.raw [3], typeRef ty]
  | .process message result => [.raw [4], typeRef message, typeRef result]

section

variable (m : Module)

def slotItems (abi : Bool) (slot : ℕ) : List Item :=
  match m.slots[slot]? with
  | none => [.absent]
  | some spec => [.raw spec.key.toList, .raw spec.contractHash.toList] ++ contractItems abi spec.contract

/-- `instr_tag`: the opcode, three forms apart. -/
def instrTag : Op → ℕ
  | .textPadStart => 0xfe
  | .textPadEnd => 0xff
  | .prepareWait => 0x100
  | op => match op.code with
    | .main b => b.toNat
    | .extension b => 0x100 + b.toNat

def makesClosure (op : Op) : Bool := op = .makeClosure ∨ op = .makeCallback

def operandItems (op : Op) : Operand → ℕ → List Item
  | .truth, v | .flag, v => [mark (v ≠ 0)]
  | .numeric, v | .reflectionKind, v => [.raw (leBytes 1 v)]
  | .word, v => [.raw (leBytes 8 v)]
  | .number, v | .half, v => [word v]
  | .pattern, v => [.func v]
  | .optApp, v => if v = noApp then [.raw [0]] else [.raw [1], .app v]
  | .site, v => [.interfaceKey (v / 2 ^ 16), word (v % 2 ^ 16)]
  | .index .strings, v => [.string v]
  | .index .bytes, v => [.blob v]
  | .index .types, v => [.type v]
  | .index .selectors, v => [.selector v]
  | .index .apps, v => [.app v]
  | .index .classes, v => [.classKey v]
  | .index .funcs, v => [if makesClosure op then .closure v else .func v]
  | .index .slots, v => slotItems m false v
  | .index .reflections, v => [.reflection v]

def fields (i : Instr) : List (Operand × ℕ) := i.op.operands.zip (i.op.unpack i.args)

def instrItems (i : Instr) : List Item :=
  .raw (leBytes 2 (instrTag i.op)) :: (fields i).flatMap fun p => operandItems m i.op p.1 p.2

def boundsAt (table : List TypeBounds) (idx : ℕ) : List Item :=
  match table[idx]? with
  | none => [.absent]
  | some bounds => boundsItems true bounds

def funcItems (f : ℕ) (func : Func) : List Item :=
  [word func.typeParams.toNat, word func.effectParams.toNat] ++ boundsAt m.funcBounds f
    ++ signatureItems func.params func.paramMuts func.ret func.row
    ++ count func.captures :: func.captures.map typeRef ++ count func.localTypes :: func.localTypes.map typeRef
    ++ count func.blocks :: func.blocks.flatMap fun b => count b :: b.flatMap (instrItems m)

def BcClassKind.byte : BcClassKind → UInt8
  | .normal => 0
  | .abstract => 1
  | .case => 2

def interfaceKeyOf (i : ℕ) : Bytes := ((m.interfaces[i]?).map fun i => i.key.bytes).getD []

def conformanceItems (c : BcConformance) : List Item :=
  useItems true c.application
    ++ count c.premises :: c.premises.flatMap (fun p => word p.param.toNat :: boundItems true p.bounds)
    ++ count c.associated :: c.associated.map typeRef ++ count c.methodOverrides :: c.methodOverrides.map mark

def conformancesOf (c : ℕ) : List BcConformance :=
  (m.conformances.filter fun x => x.class'.toNat = c).mergeSort fun a b =>
    bytesLe (interfaceKeyOf m a.application.interface.toNat) (interfaceKeyOf m b.application.interface.toNat)

def classItems (arms : List ℕ) (c : ℕ) (k : BcClass) : List Item :=
  [.raw [BcClassKind.byte k.kind], mark k.isFinal, mark k.isFrozen, word k.typeParams.toNat]
    ++ boundsAt m.classBounds c
    ++ (if k.parent = noIndex then [.raw [0xff]]
      else [.raw [0xfe], .classKey k.parent.toNat, count k.parentArgs] ++ k.parentArgs.map typeRef)
    ++ count k.fields :: k.fields.flatMap (fun f => [text f.1, typeRef f.2])
    ++ count k.methods :: k.methods.flatMap (fun p => [.selector p.1.toNat, .func p.2.toNat])
    ++ count (conformancesOf m c) :: (conformancesOf m c).flatMap conformanceItems
    ++ (if k.kind = .abstract then count arms :: arms.map .classKey else [])

end

end LoomV4.Identity
