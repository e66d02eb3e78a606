import LoomV4.Lib.Memo
import LoomV4.Types.Covariance

namespace LoomV4.Types

open Lib (Ask)

inductive ClassKind
  | normal | enumParent | enumCase
deriving DecidableEq

structure ClassEntry extends ClassMeta where
  name : String
  isFinal : Bool
  kind : ClassKind
deriving DecidableEq

structure TypeFacts where
  typeVar : Bool
  effectVar : Bool
  callback : Bool
  projection : Bool
deriving DecidableEq

namespace TypeFacts

def empty : TypeFacts := ⟨false, false, false, false⟩

def union (a b : TypeFacts) : TypeFacts :=
  ⟨a.typeVar || b.typeVar, a.effectVar || b.effectVar, a.callback || b.callback,
    a.projection || b.projection⟩

def ofRow (row : List RowElem) : TypeFacts :=
  { empty with effectVar := row.any fun | .var _ => true | .op _ => false }

def children (known : List TypeFacts) : List ℕ → Option TypeFacts
  | [] => some empty
  | item :: items => do
    let first ← known[item]?
    let rest ← children known items
    some (first.union rest)

end TypeFacts

def typeFacts (known : List TypeFacts) : Shape RowElem → Option TypeFacts
  | .var _ => some { TypeFacts.empty with typeVar := true }
  | .projection base _ _ => known[base]?.map fun facts => { facts with projection := true }
  | .list item | .run item | .wait item | .runSnapshot item => known[item]?
  | .op _ item => known[item]?.map fun facts => { facts with typeVar := false, effectVar := false }
  | .inst _ args | .tuple args => TypeFacts.children known args
  | .map left right | .pendingCall left right | .handle left right =>
    TypeFacts.children known [left, right]
  | .fn params _ ret row => do
    let parameters ← TypeFacts.children known params
    let result ← known[ret]?
    some (({ parameters with callback := false }.union result).union (.ofRow row))
  | .callback params _ ret row => do
    let parameters ← TypeFacts.children known params
    let result ← known[ret]?
    some { (parameters.union result).union (.ofRow row) with callback := true }
  | _ => some .empty

/-- The interned types with their facts, the classes, and the answers of subtype queries. Where
an index is out of range the code panics, which is `none` below. -/
structure Store where
  bundle : AbiBundle
  types : List (Shape RowElem)
  facts : List TypeFacts
  classes : List ClassEntry
  rowNames : List String
  nativeClasses : List (ℕ × ℕ)
  nativeList : Option ℕ
  nativeMap : Option ℕ
  nativeTuples : List (Option ℕ)
  conformances : List ((ℕ × ℕ) × List ℕ)
  subtypeCache : List ((ℕ × ℕ) × Bool)

namespace Store

def new (bundle : AbiBundle) : Store where
  bundle := bundle
  types := TypeStore.builtins
  facts := TypeStore.builtins.map fun _ => .empty
  classes := []
  rowNames := []
  nativeClasses := []
  nativeList := none
  nativeMap := none
  nativeTuples := List.replicate 17 none
  conformances := []
  subtypeCache := []

variable (S : Store)

def intern (ty : Shape RowElem) : Option (ℕ × Store) :=
  match S.types.idxOf? ty with
  | some id => some (id, S)
  | none => do
    let facts ← typeFacts S.facts ty
    some (S.types.length, { S with types := S.types ++ [ty], facts := S.facts ++ [facts] })

def internRowName (name : String) : ℕ × Store :=
  match S.rowNames.idxOf? name with
  | some id => (id, S)
  | none => (S.rowNames.length, { S with rowNames := S.rowNames ++ [name] })

def registerClass (name : String) (typeParams : ℕ) (kind : ClassKind) : ℕ × Store :=
  (S.classes.length, { S with classes := S.classes ++ [⟨⟨none, [], typeParams⟩, name, false, kind⟩] })

def setClassFinal (c : ℕ) : Option Store := do
  let cls ← S.classes[c]?
  some { S with classes := S.classes.set c { cls with isFinal := true } }

def setClassParentArgs (c parent : ℕ) (args : List ℕ) : Option Store := do
  let cls ← S.classes[c]?
  some { S with
    classes := S.classes.set c { cls with parent := some parent, parentArgs := args },
    subtypeCache := [] }

def setClassParent (c parent : ℕ) : Option Store :=
  S.setClassParentArgs c parent []

def setNativeClass (ty c : ℕ) : Store :=
  { S with nativeClasses := (ty, c) :: S.nativeClasses, subtypeCache := [] }

def setNativeListClass (c : ℕ) : Store :=
  { S with nativeList := some c, subtypeCache := [] }

def setNativeMapClass (c : ℕ) : Store :=
  { S with nativeMap := some c, subtypeCache := [] }

def setNativeTupleClass (arity c : ℕ) : Store :=
  if arity < S.nativeTuples.length then
    { S with nativeTuples := S.nativeTuples.set arity (some c), subtypeCache := [] }
  else S

def setConformance (c interface : ℕ) (associated : List ℕ) : Store :=
  { S with conformances := ((c, interface), associated) :: S.conformances }

def nominalClass (ty : ℕ) : Option (Option (ℕ × List ℕ)) :=
  S.types[ty]?.map fun
    | .class c => some (c, [])
    | .inst c args => some (c, args)
    | .list element => S.nativeList.map fun c => (c, [element])
    | .map key value => S.nativeMap.map fun c => (c, [key, value])
    | .tuple elements => S.nativeTuples[elements.length]?.join.map fun c => (c, elements)
    | _ => (S.nativeClasses.lookup ty).map fun c => (c, [])

/-- The loop over the parents. It is not left for a parent that was passed before, and there are
only as many classes: when the steps are used up, it runs forever. -/
def ancestorArgsFrom (classes : List ClassEntry) : ℕ → ℕ → List ℕ → ℕ → Option (Option (List ℕ))
  | 0, _, _, _ => none
  | steps + 1, cur, args, ancestor =>
    if cur = ancestor then some (some args)
    else do
      let cls ← classes[cur]?
      match cls.parent with
      | none => some none
      | some parent =>
        if !cls.parentArgs.isEmpty then ancestorArgsFrom classes steps parent cls.parentArgs ancestor
        else do
          let above ← classes[parent]?
          let args := if above.typeParams = 0 then [] else args
          ancestorArgsFrom classes steps parent args ancestor

def ancestorArgs (child : ℕ) (args : List ℕ) (ancestor : ℕ) : Option (Option (List ℕ)) :=
  ancestorArgsFrom S.classes (S.classes.length + 1) child args ancestor

def classExtendsFrom (classes : List ClassEntry) : ℕ → ℕ → ℕ → Option Bool
  | 0, _, _ => none
  | steps + 1, cur, ancestor =>
    if cur = ancestor then some true
    else do
      let cls ← classes[cur]?
      match cls.parent with
      | none => some false
      | some parent => classExtendsFrom classes steps parent ancestor

def classExtends (child ancestor : ℕ) : Option Bool :=
  classExtendsFrom S.classes (S.classes.length + 1) child ancestor

def rowElemIncluded (elem : RowElem) (sup : List RowElem) : Option Bool :=
  match elem with
  | .var v => some (sup.contains (.var v))
  | .op n => do
    let name ← S.rowNames[n]?
    sup.anyM fun
      | .op m => S.rowNames[m]?.map (S.bundle.rowNameIncluded name)
      | .var _ => some false

def rowIncluded (sub sup : List RowElem) : Option Bool :=
  sub.allM fun elem => S.rowElemIncluded elem sup

def allCompatible : List (ℕ × ℕ) → Ask (ℕ × ℕ) Bool Bool
  | [] => pure true
  | pair :: pairs => .call pair fun answer => if answer then allCompatible pairs else pure false

def arrowCompatible (fp ep : List ℕ) (fm em : List Bool) (fr er : ℕ) (frow erow : List RowElem) :
    Ask (ℕ × ℕ) Bool Bool :=
  if fp.length = ep.length then do
    if ← allCompatible (fp.zip ep) then
      if Context.mutsFit fm em then
        .call (er, fr) fun answer => if answer then .ofOption (S.rowIncluded frow erow) else pure false
      else pure false
    else pure false
  else pure false

def compare : ℕ × ℕ → Ask (ℕ × ℕ) Bool Bool := fun (expected, found) => do
  if found = expected ∨ found = NEVER then pure true
  else
    match ← .ofOption (S.nominalClass found), ← .ofOption (S.nominalClass expected) with
    | some (a, xs), some (b, ys) => return (← .ofOption (S.ancestorArgs a xs b)) = some ys
    | _, _ =>
      match ← .ofOption S.types[found]?, ← .ofOption S.types[expected]? with
      | .class a, .class b => .ofOption (S.classExtends a b)
      | .class a, .inst b ys => return (← .ofOption (S.ancestorArgs a [] b)) = some ys
      | .inst a xs, .class b => return (← .ofOption (S.ancestorArgs a xs b)) = some []
      | .inst a xs, .inst b ys => return (← .ofOption (S.ancestorArgs a xs b)) = some ys
      | .tuple xs, .tuple ys =>
        if xs.length = ys.length then allCompatible (ys.zip xs) else pure false
      | .fn fp fm fr frow, .fn ep em er erow => S.arrowCompatible fp ep fm em fr er frow erow
      | .callback fp fm fr frow, .callback ep em er erow =>
        S.arrowCompatible fp ep fm em fr er frow erow
      | _, _ => pure false

/-- Equal types and `Never` are answered before the cache is read. -/
def isCached (pair : ℕ × ℕ) : Bool :=
  !(pair.2 = pair.1 || pair.2 = NEVER)

def compatible (depth expected found : ℕ) : Option (Bool × Store) :=
  (Lib.memoised S.compare isCached depth (expected, found) S.subtypeCache).map fun r =>
    (r.1, { S with subtypeCache := r.2 })

def related (depth expected found : ℕ) : Option Bool :=
  Lib.plain S.compare depth (expected, found)

end Store

end LoomV4.Types
