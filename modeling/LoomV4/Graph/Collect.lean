import LoomV4.Graph.Walk
import LoomV4.Heap.Accounting

namespace LoomV4

open Lib Abi

def visitAll : Visitor := fun _ _ _ => .ok ()

/-- Mark and sweep; `none` is the panic on a root or a child that names no live object. -/
def collect (roots : List ObjRef) (h : Heap) : Option Heap :=
  match walk h 0 (roots ++ h.hostRoots) .unbounded visitAll with
  | some (.ok (_, scratch)) =>
    (h.sweep fun r => (scratch.seen r).getD false).map Heap.trimFreePages
  | _ => none

section

variable {h h' : Heap} {roots : List ObjRef}

structure Collected (roots : List ObjRef) (h h' : Heap) : Prop where
  slotted : h'.Slotted
  kept : ∀ r, h.Under (roots ++ h.hostRoots) r → h'.node r = h.node r
  dropped : ∀ r, ¬h.Under (roots ++ h.hostRoots) r → h'.node r = none
  hostRoots : h'.hostRoots = h.hostRoots
  capBytes : h'.capBytes = h.capBytes
  within : ∀ n, h.Within n → h'.Within n
  objects : h'.objects.cells.length ≤ h.objects.cells.length
  views : h'.textViews.table.cells.length ≤ h.textViews.table.cells.length

theorem sweep_rest {keep : ObjRef → Bool} (hs : h.sweep keep = some h') (ht : h.Tabled) :
    h'.hostRoots = h.hostRoots ∧ h'.capBytes = h.capBytes := by
  unfold Heap.sweep at hs
  dsimp only at hs
  split at hs
  · cases hs
  · next s ho =>
    split at hs
    · cases hs
    · next s' hf =>
      have hr := ((Heap.sweep_objects ht ho).ledger (ObjectSweep.flush_heap hf)).rest
      split at hs
      · cases hs
      · split at hs
        · cases hs
        · cases hs
          rw [hr]
          exact ⟨rfl, rfl⟩

theorem sweep_lengths {keep : ObjRef → Bool} (ht : h.Tabled) (hs : h.sweep keep = some h') :
    h'.objects.slots = h.objects.slots ∧ h'.objects.cells.length = h.objects.cells.length ∧
      h'.textViews.table.cells.length = h.textViews.table.cells.length := by
  obtain ⟨ho, hv⟩ := Heap.sweep_tables ht hs
  exact ⟨ho.slots, ho.length, hv.swept.length⟩

theorem trim_within {n : ℕ} (ht : h.Tabled) (hw : h.Within n) : h.trimFreePages.Within n := by
  obtain ⟨h1, h2⟩ := hw
  have hl := SlotTable.length_dropPages ht.objects
  have hle : (h.objects.dropPages pageSlots).cells.length ≤ h.objects.cells.length := List.length_take_le' _ _
  refine ⟨?_, hle.trans_lt h2⟩
  change (if _ then _ else _) ≤ n
  split
  · next hne =>
    have hp : (h.objects.dropPages pageSlots).pages pageSlots =
        SlotTable.trimmed pageSlots h.objects.cells (h.objects.pages pageSlots) := by
      rw [SlotTable.pages, hl, Nat.mul_div_cancel _ TextViewTable.pageSlots_pos]
    have hd : h.objects.pages pageSlots * pageSlots = h.objects.cells.length := Nat.div_mul_cancel ht.objects.paged
    rw [hp] at hne ⊢
    have hlt := lt_of_le_of_ne (SlotTable.trimmed_le pageSlots h.objects.cells _) hne
    have hm := Nat.mul_le_mul_right pageSlots (Nat.succ_le_of_lt hlt)
    rw [Nat.succ_mul, hd] at hm
    exact (Nat.lt_of_add_lt_add_right (hm.trans_lt h2)).le
  · exact h1

theorem collect_collected (hs : h.Slotted) (hc : collect roots h = some h') : Collected roots h h' := by
  unfold collect at hc
  split at hc
  · next cost scratch hw =>
    have ht := walk_toured hw
    obtain ⟨h1, he, rfl⟩ := Option.map_eq_some_iff.mp hc
    have he1 : Heap.Effect _ True h h1 := Heap.effect_sweep hs.tabled he
    have hs1 := he1.slotted hs
    have ho : ∀ r, h1.trimFreePages.node r = if (scratch.seen r).getD false then h.node r else none := by
      intro r
      rw [Heap.node_trimFreePages hs1.tabled, Heap.node_sweep hs.tabled he]
    obtain ⟨hl1, hl2, hl3⟩ := sweep_lengths hs.tabled he
    refine ⟨(Heap.effect_trim hs1.tabled).slotted hs1, ?_, ?_, ?_, ?_, ?_, ?_, ?_⟩
    · intro r hr
      rw [ho, ht.seen_eq hs hr.2, decide_eq_true ((ht.mem_order hs).mpr hr)]
      rfl
    · intro r hr
      rw [ho]
      cases hn : h.node r with
      | none => split <;> rfl
      | some n =>
        have hl : h.node r ≠ none := by
          rw [hn]
          exact Option.some_ne_none n
        rw [ht.seen_eq hs hl, decide_eq_false fun hm => hr ((ht.mem_order hs).mp hm)]
        rfl
    · exact (sweep_rest he hs.tabled).1
    · exact (sweep_rest he hs.tabled).2
    · intro n hn
      apply trim_within hs1.tabled
      rwa [Heap.Within, hl1, hl2]
    · exact hl2 ▸ List.length_take_le' _ _
    · exact hl3 ▸ List.length_take_le' _ _
  · cases hc

theorem sweep_kept (keep : ObjRef → Bool)
    (hk : ∀ i g e, h.objects.cells[i]? = some ⟨g, some e⟩ → keep ⟨i, g⟩ = true)
    (hv : h.textViews.table.cells = []) :
    h.sweep keep = some (Heap.setNextCollectionThreshold { h with collections := h.collections + 1 }) := by
  have hf : (List.range h.objects.cells.length).foldlM (ObjectSweep.slot keep)
      { heap := { h with collections := h.collections + 1 } } =
      some { heap := { h with collections := h.collections + 1 } } := by
    apply foldlM_fixed
    intro i _
    unfold ObjectSweep.slot
    split
    · next g e he => rw [if_pos (hk i g e he)]
    · rfl
  simp only [Heap.sweep, hf, ObjectSweep.flush, TextViewTable.sweep, hv]
  simp

/-- A heap whose objects are all reached loses nothing. -/
theorem collect_kept
    (hw : (walk h 0 (roots ++ h.hostRoots) .unbounded visitAll).map (fun r =>
      match r with
      | .ok x => h.objects.cells.zipIdx.all fun c => c.1.item.isNone || x.2.seen ⟨c.2, c.1.generation⟩ == some true
      | .error _ => false) = some true)
    (hv : h.textViews.table.cells = []) :
    collect roots h =
      some (Heap.setNextCollectionThreshold { h with collections := h.collections + 1 }).trimFreePages := by
  obtain ⟨walked, hw, hs⟩ := Option.map_eq_some_iff.mp hw
  cases walked with
  | error code => cases hs
  | ok x =>
    have hk : ∀ i g e, h.objects.cells[i]? = some ⟨g, some e⟩ → (x.2.seen ⟨i, g⟩).getD false = true := by
      intro i g e he
      have hc := List.all_eq_true.mp hs _ (List.mk_mem_zipIdx_iff_getElem?.mpr he)
      simp only [Option.isNone_some, Bool.false_or, beq_iff_eq] at hc
      rw [hc]
      rfl
    simp only [collect, hw, sweep_kept (fun r => (x.2.seen r).getD false) hk hv, Option.map_some]

theorem exists_collect {capacity : ℕ → ℕ} {x : GraphCost × GraphScratch} (hb : h.Balanced capacity)
    (hw : walk h 0 (roots ++ h.hostRoots) .unbounded visitAll = some (.ok x)) :
    ∃ h', collect roots h = some h' ∧ h'.Balanced capacity := by
  obtain ⟨h1, hs, hb1⟩ := hb.sweep fun r => (x.2.seen r).getD false
  exact ⟨h1.trimFreePages, by rw [collect, hw]; simp only [hs, Option.map_some], hb1.trimFreePages⟩

end

end LoomV4
