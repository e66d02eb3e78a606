import LoomV4.Heap.Nodes
import LoomV4.Lib.Walk

namespace LoomV4

open Lib Abi List Option Heap TextViewTable

def u64Max : ℕ := 2 ^ 64 - 1

structure GraphLimits where
  maxObjects : ℕ
  maxEdges : ℕ
  maxBytes : ℕ
  maxWork : ℕ
deriving DecidableEq

def GraphLimits.unbounded : GraphLimits := ⟨u64Max, u64Max, u64Max, u64Max⟩

structure GraphCost where
  objects : ℕ := 0
  edges : ℕ := 0
  bytes : ℕ := 0
  work : ℕ := 0
deriving DecidableEq

/-- The work tables of one walk. The entries of earlier walks never read as reached. -/
structure GraphScratch where
  normalSlots : ℕ
  tables : ℕ
  order : List ObjRef := []
deriving DecidableEq

namespace GraphScratch

/-- `held` is the length that the tables have from earlier walks. -/
def begin (held normalSlots textViewSlots : ℕ) : GraphScratch :=
  { normalSlots, tables := max held (normalSlots + textViewSlots) }

def index (s : GraphScratch) (r : ObjRef) : ℕ :=
  if isReference r then s.normalSlots + r.slot else r.slot

/-- The read is out of range for a reference past the tables. -/
def seen (s : GraphScratch) (r : ObjRef) : Option Bool :=
  if s.index r < s.tables then some (decide (s.index r ∈ s.order.map s.index)) else none

def record (s : GraphScratch) (r : ObjRef) : GraphScratch := { s with order := s.order ++ [r] }

def ordinal (s : GraphScratch) (r : ObjRef) : ℕ := s.order.findIdx (fun x => s.index x = s.index r) % 2 ^ 32

end GraphScratch

abbrev Visitor := ObjRef → ℕ → Object → Except FaultCode Unit

/-- The loop of `walk`. The work that is left bounds it; the head of the list is the top of the stack. -/
def walkFrom (heap : Heap) (limits : GraphLimits) (visitor : Visitor) :
    ℕ → List ObjRef → GraphCost → GraphScratch → Option (Except FaultCode (GraphCost × GraphScratch))
  | _, [], cost, scratch => some (.ok (cost, scratch))
  | 0, _ :: _, _, _ => some (.error .boundaryLimit)
  | left + 1, r :: stack, cost, scratch =>
    let cost := { cost with work := cost.work + 1 }
    match scratch.seen r with
    | none => none
    | some true => walkFrom heap limits visitor left stack cost scratch
    | some false =>
      match (heap.tryGet r).or ((heap.text r).map .substring) with
      | none => some (.error .boundaryViolation)
      | some object =>
        let cost := { cost with objects := cost.objects + 1, bytes := cost.bytes + object.cost }
        if limits.maxObjects < cost.objects ∨ limits.maxBytes < cost.bytes then some (.error .boundaryLimit)
        else match visitor r (scratch.order.length % 2 ^ 32) object with
          | .error e => some (.error e)
          | .ok () =>
            let cost := { cost with edges := cost.edges + object.children.length }
            if limits.maxEdges < cost.edges then some (.error .boundaryLimit)
            else walkFrom heap limits visitor left (object.children ++ stack) cost (scratch.record r)

def walk (heap : Heap) (held : ℕ) (roots : List ObjRef) (limits : GraphLimits) (visitor : Visitor) :
    Option (Except FaultCode (GraphCost × GraphScratch)) :=
  walkFrom heap limits visitor limits.maxWork roots {}
    (.begin held heap.objects.slots heap.textViews.table.slots)

namespace Heap

variable {h : Heap}

def succ (h : Heap) (r : ObjRef) : Option (List ObjRef) := (h.node r).map fun n => n.2.children

theorem reached_eq (h : Heap) (r : ObjRef) :
    (h.tryGet r).or ((h.text r).map .substring) = (h.node r).map Prod.snd := by
  rw [tryGet_eq, text_eq, node]
  cases isReference r with
  | true => cases h.textViews.get r <;> rfl
  | false =>
    cases h.entry r <;> simp

theorem succ_ne_none {r : ObjRef} : h.succ r ≠ none ↔ h.node r ≠ none := by
  simp [succ]

end Heap

section Walk

variable {heap : Heap} {limits : GraphLimits} {visitor : Visitor} {cost cost' : GraphCost}
  {scratch scratch' : GraphScratch} {roots : List ObjRef}

theorem walkFrom_walked {left : ℕ} {stack : List ObjRef}
    (hw : walkFrom heap limits visitor left stack cost scratch = some (.ok (cost', scratch'))) :
    Walked scratch.index heap.succ stack scratch.order scratch'.order ∧
      scratch'.normalSlots = scratch.normalSlots ∧ scratch'.tables = scratch.tables ∧
      (∀ r ∈ scratch'.order, r ∉ scratch.order → ∃ n k, heap.node r = some n ∧ visitor r k n.2 = .ok ()) ∧
      cost'.objects + scratch.order.length = cost.objects + scratch'.order.length := by
  induction left generalizing stack cost scratch with
  | zero =>
    cases stack with
    | nil =>
      cases hw
      exact ⟨.done, rfl, rfl, fun r hr hn => absurd hr hn, rfl⟩
    | cons r stack => cases hw
  | succ left ih =>
    cases stack with
    | nil =>
      cases hw
      exact ⟨.done, rfl, rfl, fun r hr hn => absurd hr hn, rfl⟩
    | cons r stack =>
      unfold walkFrom at hw
      dsimp only at hw
      split at hw
      · cases hw
      · next hs =>
        unfold GraphScratch.seen at hs
        split at hs
        · obtain ⟨ha, he⟩ := ih hw
          exact ⟨.skip (of_decide_eq_true (some.inj hs)) ha, he⟩
        · cases hs
      · next hs =>
        unfold GraphScratch.seen at hs
        split at hs
        · rw [reached_eq] at hw
          cases hn : heap.node r with
          | none => simp [hn] at hw
          | some n =>
            simp only [hn, map_some] at hw
            split at hw
            · cases hw
            · split at hw
              · cases hw
              · next hv =>
                split at hw
                · cases hw
                · obtain ⟨ha, h1, h2, h3, h4⟩ := ih hw
                  refine ⟨.enter (of_decide_eq_false (some.inj hs)) (by rw [Heap.succ, hn]; rfl) ha, h1, h2, ?_, ?_⟩
                  · intro x hx ho
                    by_cases hxr : x = r
                    · subst hxr
                      exact ⟨n, _, hn, hv⟩
                    · apply h3 x hx
                      simp [GraphScratch.record, ho, hxr]
                  · simp only [GraphScratch.record, length_append, length_singleton] at h4
                    omega
        · cases hs

structure Toured (heap : Heap) (roots : List ObjRef) (visitor : Visitor) (cost : GraphCost)
    (scratch : GraphScratch) : Prop where
  walked : Walked scratch.index heap.succ roots [] scratch.order
  normalSlots : scratch.normalSlots = heap.objects.slots
  tables : heap.objects.slots + heap.textViews.table.slots ≤ scratch.tables
  admitted : ∀ r ∈ scratch.order, ∃ n k, heap.node r = some n ∧ visitor r k n.2 = .ok ()
  objects : cost.objects = scratch.order.length

theorem walk_toured {held : ℕ} {roots : List ObjRef}
    (hw : walk heap held roots limits visitor = some (.ok (cost, scratch))) :
    Toured heap roots visitor cost scratch := by
  obtain ⟨ha, h1, h2, h3, h4⟩ := walkFrom_walked hw
  have hi : (GraphScratch.begin held heap.objects.slots heap.textViews.table.slots).index = scratch.index := by
    funext r
    simp only [GraphScratch.index, h1]
  refine ⟨hi ▸ ha, h1, ?_, fun r hr => h3 r hr (not_mem_nil), ?_⟩
  · rw [h2]
    exact le_max_right _ _
  · exact h4.trans (Nat.zero_add _)

variable {r : ObjRef}

theorem Heap.object_cell (hs : heap.Slotted) (hr : isReference r = false) (hl : heap.node r ≠ none) :
    r.slot < heap.objects.slots ∧ ∃ e, heap.objects.cells[r.slot]? = some ⟨r.generation, some e⟩ := by
  obtain ⟨n, hn⟩ := ne_none_iff_exists'.mp hl
  obtain ⟨e, he, -⟩ := entry_of_node hr hn
  have hc := entry_eq_some.mp he
  exact ⟨hs.tabled.objects.live_lt _ _ hc (some_ne_none e), e, hc⟩

theorem Heap.view_cell (hs : heap.Slotted) (hr : isReference r = true)
    (hl : heap.node r ≠ none) : r.slot < heap.textViews.table.slots ∧
      ∃ e, heap.textViews.table.cells[r.slot]? = some ⟨r.generation - textViewGenerationTag, some e⟩ := by
  cases hi : heap.textViews.item r with
  | none => simp [Heap.node, hr, TextViewTable.get, hi] at hl
  | some e =>
    have hc := (item_eq_some.mp hi).2
    exact ⟨hs.tabled.views.formed.live_lt _ _ hc (some_ne_none e), e, hc⟩

theorem index_injective (hs : heap.Slotted) (hn : scratch.normalSlots = heap.objects.slots) {a b : ObjRef}
    (ha : heap.node a ≠ none) (hb : heap.node b ≠ none) (hab : scratch.index a = scratch.index b) : a = b := by
  unfold GraphScratch.index at hab
  rw [hn] at hab
  cases hxa : isReference a with
  | false =>
    obtain ⟨hlt, e, hc⟩ := object_cell hs hxa ha
    cases hxb : isReference b with
    | false =>
      obtain ⟨-, e', hc'⟩ := object_cell hs hxb hb
      simp only [hxa, hxb, Bool.false_eq_true, if_false] at hab
      rw [hab, hc'] at hc
      exact eq_iff_slot.mpr ⟨hab, (Cell.mk.inj (some.inj hc)).1.symm⟩
    | true =>
      simp only [hxa, hxb, Bool.false_eq_true, if_false, if_true] at hab
      omega
  | true =>
    obtain ⟨-, e, hc⟩ := view_cell hs hxa ha
    have hla : textViewGenerationTag ≤ a.generation := of_decide_eq_true hxa
    cases hxb : isReference b with
    | false =>
      obtain ⟨hlt, -⟩ := object_cell hs hxb hb
      simp only [hxa, hxb, Bool.false_eq_true, if_false, if_true] at hab
      omega
    | true =>
      obtain ⟨-, e', hc'⟩ := view_cell hs hxb hb
      have hlb : textViewGenerationTag ≤ b.generation := of_decide_eq_true hxb
      simp only [hxa, hxb, if_true, Nat.add_left_cancel_iff] at hab
      rw [hab, hc'] at hc
      have hg := (Cell.mk.inj (some.inj hc)).1
      exact eq_iff_slot.mpr ⟨hab, by omega⟩

theorem index_lt (hs : heap.Slotted) (hn : scratch.normalSlots = heap.objects.slots)
    (hl : heap.node r ≠ none) : scratch.index r < heap.objects.slots + heap.textViews.table.slots := by
  unfold GraphScratch.index
  cases hr : isReference r with
  | false =>
    have hlt := (object_cell hs hr hl).1
    rw [if_neg Bool.false_ne_true]
    omega
  | true =>
    have hlt := (view_cell hs hr hl).1
    rw [if_pos rfl]
    omega

def Heap.Under (h : Heap) (roots : List ObjRef) (r : ObjRef) : Prop := Reachable h.succ roots r ∧ h.node r ≠ none

section

variable (ht : Toured heap roots visitor cost scratch)

include ht

theorem Toured.mem_order (hs : heap.Slotted) {r : ObjRef} : r ∈ scratch.order ↔ heap.Under roots r := by
  constructor
  · intro hr
    obtain ⟨n, k, hn, -⟩ := ht.admitted r hr
    refine ⟨?_, by rw [hn]; exact some_ne_none n⟩
    exact (ht.walked.reachable hr).resolve_left (not_mem_nil)
  · rintro ⟨hr, hl⟩
    apply ht.walked.complete (fun a b ha hb => ?_) hr (succ_ne_none.mpr hl)
    exact index_injective hs ht.normalSlots (succ_ne_none.mp ha) (succ_ne_none.mp hb)

theorem Toured.nodup : (scratch.order.map scratch.index).Nodup :=
  ht.walked.nodup nodup_nil

theorem Toured.seen_eq (hs : heap.Slotted) {r : ObjRef}
    (hl : heap.node r ≠ none) : scratch.seen r = some (decide (r ∈ scratch.order)) := by
  have hlt := lt_of_lt_of_le (index_lt hs ht.normalSlots hl) ht.tables
  rw [GraphScratch.seen, if_pos hlt]
  congr 2
  apply propext
  constructor
  · intro hm
    obtain ⟨x, hx, he⟩ := List.mem_map.mp hm
    obtain ⟨n, k, hn, -⟩ := ht.admitted x hx
    have hxl : heap.node x ≠ none := by
      rw [hn]
      exact some_ne_none n
    exact index_injective hs ht.normalSlots hxl hl he ▸ hx
  · intro hm
    exact List.mem_map_of_mem hm

end

end Walk

end LoomV4
