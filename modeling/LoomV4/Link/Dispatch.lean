import LoomV4.Bytecode.Module
import LoomV4.Lib.KeyedList
import LoomV4.Lib.Nearest

/-!
What linking reads of a module, and the dispatch rows of the classes it merges.
-/

namespace LoomV4.Link

open Bytecode (Text Import ImportKind noIndex)

def NO_METHOD : ℕ := 4294967295

structure BcClass where
  parent : Option ℕ
  methods : List (ℕ × ℕ)
deriving DecidableEq

def BcClass.of (c : Bytecode.BcClass) : BcClass where
  parent := if c.parent = noIndex then none else some c.parent.toNat
  methods := c.methods.map fun m => (m.1.toNat, m.2.toNat)

structure BcInterface where
  key : Text
  methods : List (Option ℕ)
deriving DecidableEq

def BcInterface.of (i : Bytecode.BcInterface) : BcInterface where
  key := i.key
  methods := i.methods.map fun m => if m.default = noIndex then none else some m.default.toNat

def BcInterface.hasDefault (interface : BcInterface) : Bool :=
  interface.methods.any Option.isSome

structure BcConformance where
  «class» : ℕ
  interface : ℕ
  methodOverrides : List Bool
deriving DecidableEq

def BcConformance.of (c : Bytecode.BcConformance) : BcConformance where
  «class» := c.class'.toNat
  interface := c.application.interface.toNat
  methodOverrides := c.methodOverrides

structure Module where
  imports : List Import
  selectors : List Text
  classes : List BcClass
  interfaces : List BcInterface
  conformances : List BcConformance
  funcs : ℕ
  earlier : ∀ (i : ℕ) cls p, classes[i]? = some cls → cls.parent = some p → p < i

/-- A verified module has its parents before the classes. -/
def Module.of (m : Bytecode.Module) (h : ∀ c ∈ m.classes.zipIdx, c.1.parent = noIndex ∨ c.1.parent.toNat < c.2) :
    Module where
  imports := m.imports
  selectors := m.selectors
  classes := m.classes.map .of
  interfaces := m.interfaces.map .of
  conformances := m.conformances.map .of
  funcs := m.funcs.length
  earlier := by
    intro i cls p hi hp
    rw [List.getElem?_map] at hi
    obtain ⟨c, hc, rfl⟩ := Option.map_eq_some_iff.mp hi
    have hlt := h (c, i) (List.mk_mem_zipIdx_iff_getElem?.mpr hc)
    unfold BcClass.of at hp
    grind

/-- What the providers before a module offer. A check that fails is an import that is missing. -/
structure View where
  classExport : Import → Option ℕ
  funcExport : Import → Option ℕ
  interfaceByKey : Text → Option ℕ

structure InterfaceWitness where
  interface : ℕ
  conformance : ℕ
  methodOverrides : List Bool
deriving DecidableEq

/-- The witnesses a row holds, in order of the interface. -/
abbrev InterfaceWitnesses := Lib.KeyedList InterfaceWitness.interface

structure DispatchRow where
  base : ℕ
  table : List ℕ
  interfaceWitnesses : Option InterfaceWitnesses
deriving DecidableEq

structure Merged where
  selectors : List Text
  classes : List BcClass
  interfaces : List BcInterface
  conformances : List BcConformance
  funcs : ℕ
  dispatch : List DispatchRow

def Merged.empty : Merged := ⟨[], [], [], [], 0, []⟩

namespace DispatchRow

variable (row : DispatchRow)

def method (selector : ℕ) : Option ℕ :=
  if selector < row.base then none
  else match row.table[selector - row.base]? with
    | none => none
    | some function => if function = NO_METHOD then none else some function

def findWitness (witnesses : InterfaceWitnesses) (interface : ℕ) : Option InterfaceWitness :=
  match Lib.searchBy InterfaceWitness.interface interface witnesses.items with
  | .ok index => witnesses.items[index]?
  | .error _ => none

def interfaceWitness (interface method : ℕ) : Option (Bool × ℕ) := do
  let witnesses ← row.interfaceWitnesses
  let witness ← findWitness witnesses interface
  let overrides ← witness.methodOverrides[method]?
  some (overrides, witness.conformance)

def entries : List (ℕ × ℕ) :=
  (row.table.zipIdx.filter fun cell => cell.1 ≠ NO_METHOD).map fun cell =>
    (row.base + cell.2, cell.1)

def putWitness (witness : InterfaceWitness) (witnesses : InterfaceWitnesses) : InterfaceWitnesses :=
  match h : Lib.searchBy InterfaceWitness.interface witness.interface witnesses.items with
  | .ok index => witnesses.modifyAt index (fun _ => witness) fun _ ha => (Lib.searchBy_key h ha).symm
  | .error index => witnesses.insertAt witness index h

def putMethod (methods : List (ℕ × ℕ)) (method : ℕ × ℕ) : List (ℕ × ℕ) :=
  match methods with
  | [] => [method]
  | other :: methods =>
    if other.1 = method.1 then (other.1, method.2) :: methods
    else other :: putMethod methods method

def ofMethods (methods : List (ℕ × ℕ)) (witnesses : Option InterfaceWitnesses) : DispatchRow :=
  match (methods.map Prod.fst).min?, (methods.map Prod.fst).max? with
  | some base, some top =>
    { base := base
      table := methods.foldl (fun table method => table.set (method.1 - base) method.2)
        (List.replicate (top - base + 1) NO_METHOD)
      interfaceWitnesses := witnesses }
  | _, _ => ⟨0, [], witnesses⟩

end DispatchRow

namespace Merged

variable (M : Merged)

def addWitness (inherited changed : Option InterfaceWitnesses)
    (conformance : BcConformance × ℕ) : Option (Option InterfaceWitnesses) := do
  let interface ← M.interfaces[conformance.1.interface]?
  if interface.hasDefault then
    let witness := ⟨conformance.1.interface, conformance.2, conformance.1.methodOverrides⟩
    some (some (DispatchRow.putWitness witness (changed.getD (inherited.getD .empty))))
  else some changed

def conformancesOf (c : ℕ) : List (BcConformance × ℕ) :=
  M.conformances.zipIdx.filter fun conformance => conformance.1.class = c

def inheritedRow (dispatch : List DispatchRow) (cls : BcClass) : Option (Option DispatchRow) :=
  match cls.parent with
  | none => some none
  | some parent => dispatch[parent]?.map some

def dispatchRow (dispatch : List DispatchRow) (c : ℕ) (cls : BcClass) : Option DispatchRow := do
  let inherited ← inheritedRow dispatch cls
  let methods := inherited.elim [] DispatchRow.entries
  let inheritedWitnesses := inherited.bind DispatchRow.interfaceWitnesses
  let changed ← (M.conformancesOf c).foldlM (M.addWitness inheritedWitnesses) none
  some (DispatchRow.ofMethods (cls.methods.foldl DispatchRow.putMethod methods)
    (changed.or inheritedWitnesses))

def extendDispatch : Option Merged := do
  let dispatch ← ((M.classes.zipIdx).drop M.dispatch.length).foldlM (fun dispatch cls => do
    let row ← M.dispatchRow dispatch cls.2 cls.1
    some (dispatch ++ [row])) M.dispatch
  some { M with dispatch := dispatch }

def selector (selectors : List Text) (name : Text) : ℕ × List Text :=
  match selectors.idxOf? name with
  | some at' => (at', selectors)
  | none => (selectors.length, selectors ++ [name])

def internSelectors : List Text → List Text → List ℕ × List Text
  | selectors, [] => ([], selectors)
  | selectors, name :: names =>
    let first := selector selectors name
    let rest := internSelectors first.2 names
    (first.1 :: rest.1, rest.2)

end Merged

def assign : ℕ → List (Option ℕ) → List ℕ
  | _, [] => []
  | next, some target :: rest => target :: assign next rest
  | next, none :: rest => next :: assign (next + 1) rest

def created {α : Type} : List α → List (Option ℕ) → List α
  | x :: xs, none :: rest => x :: created xs rest
  | _ :: xs, some _ :: rest => created xs rest
  | _, _ => []

/-- Entry `index` of a table is in the chunk that the publication itself has pushed, which nothing shares. -/
def replaceRecent {α : Type} (table : List α) (index : ℕ) (value : α) : Option (List α) :=
  if index < table.length then some (table.set index value) else none

/-- The definitions that were created take the places of their placeholders. -/
def fillCreated {α β : Type} (fill : α → Option β) (table : List β) (definitions : List (α × ℕ)) : Option (List β) :=
  definitions.foldlM (fun table definition => do replaceRecent table definition.2 (← fill definition.1)) table

structure Reloc where
  selectors : List ℕ
  classes : List ℕ
  interfaces : List ℕ
  funcs : List ℕ

namespace Reloc

variable (reloc : Reloc)

def relocParent (source : BcClass) : Option (Option ℕ) :=
  match source.parent with
  | none => some none
  | some parent => reloc.classes[parent]?.map some

def relocClass (source : BcClass) : Option BcClass := do
  let parent ← reloc.relocParent source
  let methods ← source.methods.mapM fun (selector, function) => do
    let selector ← reloc.selectors[selector]?
    let function ← reloc.funcs[function]?
    some (selector, function)
  some ⟨parent, methods.filter fun m => m.1 ≠ NO_METHOD && m.2 ≠ NO_METHOD⟩

def relocInterface (source : BcInterface) : Option BcInterface := do
  let methods ← source.methods.mapM fun
    | none => some none
    | some default => reloc.funcs[default]?.map some
  some ⟨source.key, methods⟩

def relocConformance (source : BcConformance) : Option BcConformance := do
  let c ← reloc.classes[source.class]?
  let interface ← reloc.interfaces[source.interface]?
  some ⟨c, interface, source.methodOverrides⟩

end Reloc

def resolveImports (wanted : ImportKind → Bool) (limit : ℕ) (target : Import → Option ℕ) (count : ℕ)
    (imports : List Import) : Option (List (Option ℕ)) :=
  (imports.filter fun import' => wanted import'.kind).foldlM (fun resolved import' => do
    let found ← target import'
    if found < limit ∧ import'.defn.toNat < count then some (resolved.set import'.defn.toNat (some found)) else none)
    (List.replicate count none)

namespace Merged

variable (M : Merged)

def mergeConformances (resolved : List (Option ℕ)) (reloc : Reloc)
    (conformances : List BcConformance) (source : BcConformance) : Option (List BcConformance) := do
  let target ← resolved[source.class]?
  if target.isSome then some conformances
  else do
    let filled ← reloc.relocConformance source
    some (if filled ∈ conformances then conformances else conformances ++ [filled])

def sharedAgree (table : List BcInterface) (resolved : List (Option ℕ)) (filled : List BcInterface) : Bool :=
  (resolved.zip filled).all fun
    | (none, _) => true
    | (some shared, interface) => table[shared]? = some interface

def relocate (view : View) (source : Module) : Option Merged := do
  let selectors := internSelectors M.selectors source.selectors
  let classes ← resolveImports (· = .class) M.classes.length view.classExport source.classes.length
    source.imports
  let interfaces := source.interfaces.map fun interface => view.interfaceByKey interface.key
  let funcs ← resolveImports ImportKind.isFunc M.funcs view.funcExport source.funcs source.imports
  let reloc : Reloc := ⟨selectors.1, assign M.classes.length classes,
    assign M.interfaces.length interfaces, assign M.funcs funcs⟩
  let mergedClasses ← fillCreated reloc.relocClass
    (M.classes ++ (created source.classes classes).map fun _ => ⟨none, []⟩)
    (created (source.classes.zip reloc.classes) classes)
  let filled ← source.interfaces.mapM reloc.relocInterface
  let mergedInterfaces ← fillCreated some
    (M.interfaces ++ (created filled interfaces).map fun interface => ⟨interface.key, []⟩)
    (created (filled.zip reloc.interfaces) interfaces)
  if sharedAgree mergedInterfaces interfaces filled then
    let conformances ← source.conformances.foldlM (mergeConformances classes reloc) M.conformances
    some { M with
      selectors := selectors.2
      classes := mergedClasses
      interfaces := mergedInterfaces
      conformances := conformances
      funcs := M.funcs + funcs.count none }
  else none

def publish (units : List (View × Module)) : Option Merged := do
  let merged ← units.foldlM (fun merged unit => merged.relocate unit.1 unit.2) M
  merged.extendDispatch

end Merged

def arena (publications : List (List (View × Module))) : Option Merged :=
  publications.foldlM Merged.publish .empty

end LoomV4.Link
