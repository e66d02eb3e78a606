import LoomV4.Heap.Shape
import LoomV4.Lib.SlotSweep

namespace LoomV4

open Lib

def pageSlots : ℕ := 1024

def generationLimit : ℕ := 2 ^ 31

def textViewGenerationTag : ℕ := 2 ^ 31

structure TextView where
  start : ℕ
  len : ℕ
deriving DecidableEq

structure TextViewItem where
  root : ℕ
  view : TextView
deriving DecidableEq

structure TextViewRoot where
  owner : Backing
  references : ℕ
deriving DecidableEq

inductive TextViewBatchOwner
  | new (owner : Backing)
  | existing (r : ObjRef)
deriving DecidableEq

structure TextViewBatch where
  owner : TextViewBatchOwner
  allocation : ℕ × ℕ
  views : List TextView
deriving DecidableEq

namespace TextViewBatch

def sharedAllocation (b : TextViewBatch) : Option (ℕ × ℕ) := if b.views = [] then none else some b.allocation

def needsNewOwner (b : TextViewBatch) : Bool :=
  match b.owner with
  | .new _ => true
  | .existing _ => false

end TextViewBatch

structure TextViewTable where
  table : SlotTable TextViewItem := {}
  live : ℕ := 0
  roots : List (Option TextViewRoot) := []
  freeRoots : List ℕ := []
deriving DecidableEq

namespace TextViewTable

def isReference (r : ObjRef) : Bool := decide (textViewGenerationTag ≤ r.generation)

def root (t : TextViewTable) (i : ℕ) : Option TextViewRoot := (t.roots[i]?).join

def item (t : TextViewTable) (r : ObjRef) : Option TextViewItem :=
  if isReference r then t.table.find r.slot (r.generation - textViewGenerationTag) else none

def get (t : TextViewTable) (r : ObjRef) : Option Span :=
  match t.item r with
  | some e => (t.root e.root).map fun root => ⟨root.owner, e.view.start, e.view.len⟩
  | none => none

def existingRoot (t : TextViewTable) (r : ObjRef) : Option ℕ :=
  match t.item r with
  | some e => (t.root e.root).map fun _ => e.root
  | none => none

def canInstallBatch (t : TextViewTable) (b : TextViewBatch) : Bool :=
  match b.owner with
  | .new _ => true
  | .existing r => (t.existingRoot r).isSome

def tryReserveBatch (count : ℕ) (needsRoot hostRoots : Bool) (hostPages : ℕ) (t : TextViewTable) :
    Bool × TextViewTable :=
  if count = 0 then (true, t)
  else if needsRoot ∧ (2 ^ 32 - 1 ≤ t.roots.length ∧ t.freeRoots = [] ∨ hostRoots = false) then (false, t)
  else
    let (ok, table) := t.table.reserve pageSlots (2 ^ 32 - 1) count hostPages
    (ok, { t with table })

def installRoot (owner : Backing) (references : ℕ) (t : TextViewTable) : ℕ × TextViewTable :=
  match t.freeRoots with
  | i :: freeRoots => (i, { t with roots := t.roots.set i (some ⟨owner, references⟩), freeRoots })
  | [] => (t.roots.length, { t with roots := t.roots ++ [some ⟨owner, references⟩] })

def batchRoot (b : TextViewBatch) (t : TextViewTable) : Option (ℕ × TextViewTable) :=
  match b.owner with
  | .new owner => some (t.installRoot owner b.views.length)
  | .existing r =>
    match t.existingRoot r with
    | none => none
    | some root =>
      match t.root root with
      | none => none
      | some held =>
        some (root, { t with
          roots := t.roots.set root (some { held with references := held.references + b.views.length }) })

def installView (root : ℕ) (view : TextView) (t : TextViewTable) : Option (Value × TextViewTable) :=
  match (t.table.tryRoom pageSlots (2 ^ 32 - 1)).bind (SlotTable.install ⟨root, view⟩) with
  | some ((slot, generation), table) =>
    some (.obj ⟨slot, generation + textViewGenerationTag⟩, { t with table })
  | none => none

def installViews (root : ℕ) : List TextView → TextViewTable → Option (List Value × TextViewTable)
  | [], t => some ([], t)
  | view :: views, t =>
    match t.installView root view with
    | none => none
    | some (value, t) =>
      match installViews root views t with
      | none => none
      | some (values, t) => some (value :: values, t)

def installBatch (b : TextViewBatch) (t : TextViewTable) : Option (List Value × TextViewTable) :=
  if b.views = [] then some ([], t)
  else match t.batchRoot b with
    | none => none
    | some (root, t) =>
      match installViews root b.views t with
      | none => none
      | some (values, t) => some (values, { t with live := t.live + b.views.length })

def releaseRoot (i count : ℕ) (t : TextViewTable) : Option (ℕ × TextViewTable) :=
  match t.root i with
  | none => none
  | some held =>
    if held.references < count then none
    else if held.references - count = 0 then
      some (held.owner.key, { t with roots := t.roots.set i none, freeRoots := i :: t.freeRoots })
    else
      some (held.owner.key, { t with
        roots := t.roots.set i (some { held with references := held.references - count }) })

def free (r : ObjRef) (t : TextViewTable) : Option (ℕ × TextViewTable) :=
  match t.item r with
  | none => none
  | some _ =>
    match t.table.kill generationLimit r.slot with
    | none => none
    | some (e, table) =>
      if t.live = 0 then none else releaseRoot e.root 1 { t with table, live := t.live - 1 }

section Sweep

variable {σ : Type}

/-- The sweep of one slot. `release` is the caller's ledger; the pair counts objects and bytes. -/
def sweepSlot (keep : ObjRef → Bool) (release : ℕ → σ → Option (ℕ × σ))
    (s : TextViewTable × (ℕ × ℕ) × σ) (slot : ℕ) : Option (TextViewTable × (ℕ × ℕ) × σ) :=
  let (t, (objects, bytes), ledger) := s
  match t.table.cells[slot]? with
  | some ⟨g, some _⟩ =>
    if keep ⟨slot, g + textViewGenerationTag⟩ then some s
    else match t.table.kill generationLimit slot with
      | none => none
      | some (e, table) =>
        match releaseRoot e.root 1 { t with table } with
        | none => none
        | some (key, t) =>
          match release key ledger with
          | none => none
          | some (freed, ledger) => some (t, (objects + 1, bytes + freed), ledger)
  | _ => some s

def sweep (keep : ObjRef → Bool) (release : ℕ → σ → Option (ℕ × σ)) (ledger : σ) (t : TextViewTable) :
    Option (TextViewTable × (ℕ × ℕ) × σ) :=
  match (List.range t.table.cells.length).foldlM (sweepSlot keep release) (t, (0, 0), ledger) with
  | none => none
  | some (t, (objects, bytes), ledger) =>
    if t.live < objects then none else some ({ t with live := t.live - objects }, (objects, bytes), ledger)

end Sweep

def trimFreePages (t : TextViewTable) : TextViewTable :=
  let table := t.table.dropPages pageSlots
  { t with table := table.setSlots (min t.table.slots table.cells.length) }

def forEachLive (t : TextViewTable) : List (ObjRef × Span) :=
  (List.range t.table.cells.length).filterMap fun (slot : ℕ) =>
    match t.table.cells[slot]? with
    | some ⟨g, some e⟩ => (t.root e.root).map fun root =>
        (⟨slot, g + textViewGenerationTag⟩, ⟨root.owner, e.view.start, e.view.len⟩)
    | _ => none

end TextViewTable

end LoomV4
