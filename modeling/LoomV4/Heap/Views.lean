import LoomV4.Heap.TextViews

/-!
The roots of the text views. A root counts the views that read it; between two steps
of an operation the count may run ahead of the table by a debt.
-/

namespace LoomV4

open Lib List Option SlotTable

namespace TextViewTable

def ownerOf (t : TextViewTable) (i : ℕ) : Option Backing := (t.root i).map TextViewRoot.owner

def keyOf (t : TextViewTable) (i : ℕ) : ℕ := ((t.ownerOf i).map Backing.key).getD 0

def used (t : TextViewTable) : Multiset ℕ := t.table.live.map TextViewItem.root

def keys (t : TextViewTable) : Multiset ℕ := t.used.map t.keyOf

structure Rooted (debt : Multiset ℕ) (t : TextViewTable) : Prop where
  formed : t.table.Formed pageSlots
  bound : t.table.cells.length < slotNumbers
  counts : ∀ i, (t.used + debt).count i = ((t.root i).map TextViewRoot.references).getD 0
  held : ∀ i held, t.root i = some held → 0 < held.references
  freeRoots : ∀ i ∈ t.freeRoots, i < t.roots.length ∧ t.root i = none
  nodup : t.freeRoots.Nodup

theorem rooted_empty : Rooted 0 ({} : TextViewTable) := by
  refine ⟨formed_empty _, by decide, fun _ => rfl, ?_, ?_, nodup_nil⟩
  · intro i held h
    cases h
  · intro i h
    cases h

section Roots

variable {t t' : TextViewTable} {debt : Multiset ℕ} {i : ℕ}

theorem root_set (t : TextViewTable) {i : ℕ} (hi : i < t.roots.length) (x : Option TextViewRoot) (j : ℕ) :
    ({ t with roots := t.roots.set i x } : TextViewTable).root j = if i = j then x else t.root j := by
  simp only [root, getElem?_set, if_pos hi]
  split <;> rfl

theorem root_lt {held : TextViewRoot} (h : t.root i = some held) : i < t.roots.length := by
  by_contra hn
  simp [root, getElem?_eq_none (not_lt.mp hn)] at h

theorem Rooted.exists_root (h : Rooted debt t) (hi : i ∈ t.used + debt) : ∃ held, t.root i = some held := by
  have hc := h.counts i
  have hp := Multiset.count_pos.mpr hi
  cases hr : t.root i with
  | none =>
    rw [hr] at hc
    simp only [map_none, getD_none] at hc
    omega
  | some held => exact ⟨held, rfl⟩

theorem not_mem_of_root_none (h : Rooted debt t) (hi : t.root i = none) : i ∉ t.used + debt := by
  intro hm
  obtain ⟨held, hr⟩ := h.exists_root hm
  rw [hi] at hr
  cases hr

/-- One root changes, and with it how often it is used. -/
theorem Rooted.of_root {debt' : Multiset ℕ} {x : Option TextViewRoot} (h : Rooted debt t) (ht : t'.table = t.table)
    (hr : ∀ j, t'.root j = if i = j then x else t.root j) (hx : ∀ held, x = some held → 0 < held.references)
    (hi : (t.used + debt').count i = (x.map TextViewRoot.references).getD 0)
    (hd : ∀ j ≠ i, debt'.count j = debt.count j)
    (hf : ∀ j ∈ t'.freeRoots, j < t'.roots.length ∧ (i = j ∧ x = none ∨ i ≠ j ∧ j ∈ t.freeRoots))
    (hn : t'.freeRoots.Nodup) : Rooted debt' t' := by
  have hu : t'.used = t.used := by rw [used, ht, used]
  refine ⟨ht ▸ h.formed, ht ▸ h.bound, fun j => ?_, fun j held hj => ?_, fun j hj => ?_, hn⟩
  · rw [hu, hr]
    split
    · next he => exact he ▸ hi
    · next hne =>
      rw [Multiset.count_add, hd j (Ne.symm hne), ← Multiset.count_add]
      exact h.counts j
  · rw [hr] at hj
    split at hj
    · exact hx held hj
    · exact h.held j held hj
  · rw [hr]
    obtain ⟨hl, ⟨he, hx⟩ | ⟨hne, hm⟩⟩ := hf j hj
    · exact ⟨hl, by rw [if_pos he, hx]⟩
    · exact ⟨hl, by rw [if_neg hne, (h.freeRoots j hm).2]⟩

theorem Rooted.ne_of_free {held : TextViewRoot} (h : Rooted debt t) (hr : t.root i = some held) {j : ℕ}
    (hj : j ∈ t.freeRoots) : i ≠ j := by
  rintro rfl
  rw [(h.freeRoots i hj).2] at hr
  cases hr

theorem ownerOf_set {held : TextViewRoot} (hr : t.root i = some held) (references j : ℕ) :
    ({ t with roots := t.roots.set i (some { held with references }) } : TextViewTable).ownerOf j = t.ownerOf j := by
  rw [ownerOf, root_set t (root_lt hr)]
  split
  · next he => rw [← he, ownerOf, hr, map_some, map_some]
  · rfl

theorem releaseRoot_spec (h : Rooted (i ::ₘ debt) t) :
    ∃ t', t.releaseRoot i 1 = some (t.keyOf i, t') ∧ Rooted debt t' ∧ t'.table = t.table ∧ t'.live = t.live ∧
      ∀ j ∈ t.used + debt, t'.ownerOf j = t.ownerOf j := by
  obtain ⟨held, hr⟩ := h.exists_root (by simp : i ∈ t.used + (i ::ₘ debt))
  have hlt := root_lt hr
  have hk : t.keyOf i = held.owner.key := by simp [keyOf, ownerOf, hr]
  have hci := h.counts i
  rw [hr, Multiset.count_add, Multiset.count_cons_self] at hci
  simp only [map_some, getD_some] at hci
  have hd : ∀ j ≠ i, debt.count j = (i ::ₘ debt).count j := fun j hj => (Multiset.count_cons_of_ne hj _).symm
  have hf : ∀ j ∈ t.freeRoots, ∀ x, j < (t.roots.set i x).length ∧ i ≠ j ∧ j ∈ t.freeRoots := by
    intro j hj x
    rw [length_set]
    exact ⟨(h.freeRoots j hj).1, h.ne_of_free hr hj, hj⟩
  unfold releaseRoot
  simp only [hr, hk]
  rw [if_neg (by omega)]
  split
  · next hz =>
    refine ⟨_, rfl, h.of_root rfl (root_set t hlt none) nofun ?_ hd ?_ ?_, rfl, rfl, ?_⟩
    · rw [Multiset.count_add, map_none, getD_none]
      omega
    · intro j hj
      rcases mem_cons.mp hj with rfl | hm
      · exact ⟨by rwa [length_set], .inl ⟨rfl, rfl⟩⟩
      · exact ⟨(hf j hm none).1, .inr (hf j hm none).2⟩
    · exact nodup_cons.mpr ⟨fun hm => h.ne_of_free hr hm rfl, h.nodup⟩
    · intro j hj
      have hne : i ≠ j := by
        rintro rfl
        have := Multiset.count_pos.mpr hj
        rw [Multiset.count_add] at this
        omega
      change (({ t with roots := t.roots.set i none } : TextViewTable).root j).map _ = _
      rw [root_set t hlt, if_neg hne, ownerOf]
  · next hz =>
    refine ⟨_, rfl, h.of_root rfl (root_set t hlt _) ?_ ?_ hd ?_ h.nodup, rfl, rfl, fun j _ => ownerOf_set hr _ j⟩
    · rintro _ ⟨⟩
      exact Nat.pos_of_ne_zero hz
    · rw [Multiset.count_add, map_some, getD_some]
      dsimp only
      omega
    · exact fun j hj => ⟨(hf j hj _).1, .inr (hf j hj none).2⟩

theorem root_append (t : TextViewTable) (x : TextViewRoot) (j : ℕ) :
    ({ t with roots := t.roots ++ [some x] } : TextViewTable).root j =
      if j = t.roots.length then some x else t.root j := by
  simp only [root, getElem?_append]
  split
  · next hlt => rw [if_neg (by omega)]
  · next hge =>
    split
    · next he => simp [he]
    · next hne =>
      have hk : [some x][j - t.roots.length]? = none := getElem?_eq_none (by simp; omega)
      rw [hk, getElem?_eq_none (not_lt.mp hge)]

theorem installRoot_spec (h : Rooted debt t) (owner : Backing) {n : ℕ} (hn : 0 < n) :
    ∃ i t', t.installRoot owner n = (i, t') ∧ Rooted (Multiset.replicate n i + debt) t' ∧
      t'.table = t.table ∧ t'.live = t.live ∧ t'.ownerOf i = some owner ∧
      ∀ j ∈ t.used + debt, t'.ownerOf j = t.ownerOf j := by
  -- Both ways to get a place leave every other root as it is.
  have key : ∀ (i : ℕ) (t' : TextViewTable), t.root i = none → t'.table = t.table → t'.live = t.live →
      (∀ j, t'.root j = if i = j then some ⟨owner, n⟩ else t.root j) →
      (∀ j ∈ t'.freeRoots, j < t'.roots.length ∧ (i = j ∧ some (⟨owner, n⟩ : TextViewRoot) = none ∨
        i ≠ j ∧ j ∈ t.freeRoots)) → t'.freeRoots.Nodup →
      Rooted (Multiset.replicate n i + debt) t' ∧ t'.table = t.table ∧ t'.live = t.live ∧
        t'.ownerOf i = some owner ∧ ∀ j ∈ t.used + debt, t'.ownerOf j = t.ownerOf j := by
    intro i t' hi ht hl hr hf hnd
    have ho := not_mem_of_root_none h hi
    refine ⟨h.of_root ht hr ?_ ?_ ?_ hf hnd, ht, hl, ?_, ?_⟩
    · rintro _ ⟨⟩
      exact hn
    · have hc := Multiset.count_eq_zero_of_notMem ho
      rw [← Multiset.add_assoc, Multiset.add_comm t.used, Multiset.add_assoc, Multiset.count_add, hc]
      simp
    · intro j hj
      rw [Multiset.count_add, Multiset.count_replicate, if_neg (Ne.symm hj), zero_add]
    · rw [ownerOf, hr, if_pos rfl, map_some]
    · intro j hj
      rw [ownerOf, hr, if_neg, ownerOf]
      rintro rfl
      exact ho hj
  unfold installRoot
  cases hf : t.freeRoots with
  | cons i freeRoots =>
    obtain ⟨hlt, hi⟩ := h.freeRoots i (hf ▸ mem_cons_self)
    have hnd := nodup_cons.mp (hf ▸ h.nodup)
    refine ⟨i, _, rfl, key i _ hi rfl rfl (root_set t hlt _) ?_ hnd.2⟩
    intro j hj
    have hm : j ∈ t.freeRoots := hf ▸ mem_cons_of_mem i hj
    exact ⟨by simpa using (h.freeRoots j hm).1, .inr ⟨fun he => hnd.1 (he ▸ hj), hm⟩⟩
  | nil =>
    have hi : t.root t.roots.length = none := by simp [root]
    refine ⟨t.roots.length, _, rfl, key _ _ hi rfl rfl ?_ ?_ ?_⟩
    · intro j
      refine (root_append t ⟨owner, n⟩ j).trans ?_
      simp only [eq_comm]
    · intro j hj
      cases hj
    · exact nodup_nil

theorem item_eq_some {r : ObjRef} {e : TextViewItem} : t.item r = some e ↔ isReference r = true ∧
    t.table.cells[r.slot]? = some ⟨r.generation - textViewGenerationTag, some e⟩ := by
  unfold item
  split
  · next h => simp [h, find_eq_some]
  · next h => simp [h]

theorem existingRoot_some {r : ObjRef} {i : ℕ} (h : t.existingRoot r = some i) :
    ∃ e held, t.item r = some e ∧ e.root = i ∧ t.root i = some held := by
  unfold existingRoot at h
  split at h
  · next e he =>
    obtain ⟨held, hr, rfl⟩ := map_eq_some_iff.mp h
    exact ⟨e, held, he, rfl, hr⟩
  · cases h

theorem batchRoot_spec (h : Rooted 0 t) {b : TextViewBatch} (hb : b.views ≠ []) (hc : t.canInstallBatch b = true) :
    ∃ i t', t.batchRoot b = some (i, t') ∧ Rooted (Multiset.replicate b.views.length i) t' ∧
      t'.table = t.table ∧ t'.live = t.live ∧ (∀ j ∈ t.used, t'.ownerOf j = t.ownerOf j) ∧ match b.owner with
      | .new owner => t'.ownerOf i = some owner
      | .existing r => t.existingRoot r = some i ∧ t'.ownerOf i = t.ownerOf i := by
  have hn : 0 < b.views.length := length_pos_iff.mpr hb
  unfold batchRoot
  unfold canInstallBatch at hc
  cases ho : b.owner with
  | new owner =>
    obtain ⟨i, t', hi, hR, ht, hl, hw, hh⟩ := installRoot_spec h owner hn
    rw [add_zero] at hR
    exact ⟨i, t', by simp only [hi], hR, ht, hl, by simpa using hh, hw⟩
  | existing r =>
    simp only [ho] at hc
    obtain ⟨i, hi⟩ := isSome_iff_exists.mp hc
    obtain ⟨e, held, -, -, hr⟩ := existingRoot_some hi
    have hlt := root_lt hr
    refine ⟨i, { t with roots := t.roots.set i (some { held with references := held.references + b.views.length }) },
      by simp only [hi, hr], h.of_root rfl (root_set t hlt _) ?_ ?_ ?_ ?_ h.nodup, rfl, rfl,
      fun j _ => ownerOf_set hr _ j, hi, ownerOf_set hr _ i⟩
    · rintro _ ⟨⟩
      exact Nat.add_pos_right _ hn
    · have hc := h.counts i
      rw [add_zero, hr] at hc
      rw [Multiset.count_add, hc, Multiset.count_replicate_self]
      rfl
    · intro j hj
      rw [Multiset.count_replicate, if_neg (Ne.symm hj), Multiset.count_zero]
    · exact fun j hj => ⟨by simpa using (h.freeRoots j hj).1, .inr ⟨h.ne_of_free hr hj, hj⟩⟩

end Roots

section Install

variable {t t' : TextViewTable} {debt : Multiset ℕ} {i : ℕ}

theorem pageSlots_pos : 0 < pageSlots := by decide

theorem Rooted.of_table {debt' : Multiset ℕ} (h : Rooted debt t) (hf : t'.table.Formed pageSlots)
    (hb : t'.table.cells.length < slotNumbers) (hu : t'.used + debt' = t.used + debt)
    (hr : t'.roots = t.roots) (hfr : t'.freeRoots = t.freeRoots) :
    Rooted debt' t' := by
  have ho : ∀ j, t'.root j = t.root j := fun j => by rw [root, hr, root]
  refine ⟨hf, hb, ?_, ?_, ?_, hfr ▸ h.nodup⟩
  · intro j
    rw [hu, ho]
    exact h.counts j
  · intro j held hj
    exact h.held j held (ho j ▸ hj)
  · intro j hj
    rw [hr, ho]
    exact h.freeRoots j (hfr ▸ hj)

structure Viewed (i : ℕ) (views : List TextView) (t t' : TextViewTable) : Prop where
  roots : t'.roots = t.roots
  freeRoots : t'.freeRoots = t.freeRoots
  live : t'.live = t.live
  items : t'.table.live = ((views.map (TextViewItem.mk i) : List TextViewItem) : Multiset TextViewItem) + t.table.live
  available : t'.table.available + views.length = t.table.available
  kept : SlotTable.Kept pageSlots t.table t'.table
  full : t.table.Full → t'.table.Full

theorem installView_spec (h : Rooted (i ::ₘ debt) t) (ha : 0 < t.table.available) (view : TextView) :
    ∃ value t', t.installView i view = some (value, t') ∧ Rooted debt t' ∧ Viewed i [view] t t' := by
  have hn := h.formed.numbered h.bound
  obtain ⟨slot, g, table, hi, hI⟩ := install_spec h.formed (spare_of_available ha) ⟨i, view⟩
  have hl := hI.live hn
  refine ⟨.obj ⟨slot, g + textViewGenerationTag⟩, { t with table }, ?_, h.of_table hI.formed ?_ ?_ rfl rfl, ?_⟩
  · simp only [installView, tryRoom_of_available ha, bind_some, hi]
  · rw [hI.cells, length_set]
    exact h.bound
  · simp only [used, hl, Multiset.map_cons, Multiset.cons_add, Multiset.add_cons]
  · refine ⟨rfl, rfl, rfl, ?_, hI.available, hI.kept hn, hI.full hn⟩
    simp only [hl, map_cons, map_nil, Multiset.coe_singleton, Multiset.singleton_add]

theorem installViews_spec (views : List TextView) (h : Rooted (Multiset.replicate views.length i + debt) t)
    (ha : views.length ≤ t.table.available) :
    ∃ values t', installViews i views t = some (values, t') ∧ Rooted debt t' ∧ Viewed i views t t' := by
  induction views generalizing t with
  | nil =>
    rw [length_nil, Multiset.replicate_zero, zero_add] at h
    exact ⟨[], t, rfl, h, rfl, rfl, rfl, by simp, rfl, SlotTable.Kept.refl _ _, id⟩
  | cons view views ih =>
    rw [length_cons, Multiset.replicate_succ, Multiset.cons_add] at h
    rw [length_cons] at ha
    obtain ⟨value, t1, h1, hR1, hV1⟩ := installView_spec h (by omega) view
    have h1a := hV1.available
    rw [length_singleton] at h1a
    obtain ⟨values, t2, h2, hR2, hV2⟩ := ih hR1 (by omega)
    have h2a := hV2.available
    refine ⟨value :: values, t2, ?_, hR2, ?_⟩
    · simp only [installViews, h1, h2]
    · refine ⟨hV2.roots.trans hV1.roots, hV2.freeRoots.trans hV1.freeRoots, hV2.live.trans hV1.live, ?_,
        by rw [length_cons]; omega, hV1.kept.trans hV2.kept, hV2.full ∘ hV1.full⟩
      simp only [hV2.items, hV1.items, map_cons, map_nil, ← Multiset.cons_coe, Multiset.coe_nil,
        Multiset.cons_add, Multiset.add_cons, zero_add]

/-- The allocation that a batch names is the one of its owner. -/
def OwnKey (t : TextViewTable) (b : TextViewBatch) : Prop :=
  match b.owner with
  | .new owner => b.allocation.1 = owner.key
  | .existing r => ∀ i, t.existingRoot r = some i → b.allocation.1 = t.keyOf i

structure Batched (b : TextViewBatch) (t t' : TextViewTable) : Prop where
  rooted : Rooted 0 t'
  live : t'.live = t.live + b.views.length
  card : t'.table.live.card = b.views.length + t.table.live.card
  owners : ∀ j ∈ t.used, t'.ownerOf j = t.ownerOf j
  newOwner : ∀ j ∈ t'.used, j ∈ t.used ∨ ∃ owner, b.owner = .new owner ∧ t'.ownerOf j = some owner
  keys : t.OwnKey b → t'.keys = Multiset.replicate b.views.length b.allocation.1 + t.keys
  kept : SlotTable.Kept pageSlots t.table t'.table
  full : t.table.Full → t'.table.Full

theorem keys_congr (h : ∀ j ∈ t.used, t'.ownerOf j = t.ownerOf j) : t.used.map t'.keyOf = t.keys := by
  refine Multiset.map_congr rfl fun j hj => ?_
  rw [keyOf, h j hj, keyOf]

theorem installBatch_spec (h : Rooted 0 t) {b : TextViewBatch} (hc : t.canInstallBatch b = true)
    (ha : b.views.length ≤ t.table.available) :
    ∃ values t', t.installBatch b = some (values, t') ∧ Batched b t t' := by
  unfold installBatch
  by_cases hb : b.views = []
  · rw [if_pos hb]
    refine ⟨[], t, rfl, h, by simp [hb], by simp [hb], fun _ _ => rfl, fun _ => .inl, fun _ => by simp [hb],
      SlotTable.Kept.refl _ _, id⟩
  · rw [if_neg hb]
    obtain ⟨i, t1, h1, hR1, ht1, hl1, ht, hw⟩ := batchRoot_spec h hb hc
    obtain ⟨values, t2, h2, hR2, hV⟩ := installViews_spec b.views (by rwa [add_zero]) (ht1 ▸ ha)
    have hr : ∀ j, t2.ownerOf j = t1.ownerOf j := fun j => by simp only [ownerOf, root, hV.roots]
    have hu : t2.used = Multiset.replicate b.views.length i + t.used := by
      simp only [used, hV.items, ht1, Multiset.map_add, Multiset.map_coe, List.map_map]
      congr 1
      rw [show (TextViewItem.root ∘ TextViewItem.mk i) = fun _ => i from rfl, map_const']
      exact Multiset.coe_replicate _ _
    refine ⟨values, { t2 with live := t2.live + b.views.length }, by simp only [h1, h2],
      hR2.of_table hR2.formed hR2.bound rfl rfl rfl, ?_, ?_, ?_, ?_, ?_, ?_, ?_⟩
    · change t2.live + _ = _
      rw [hV.live, hl1]
    · change t2.table.live.card = _
      rw [hV.items, ht1]
      simp
    · exact fun j hj => (hr j).trans (ht j hj)
    · intro j hj
      change j ∈ t2.used at hj
      rw [hu, Multiset.mem_add] at hj
      rcases hj with hj | hj
      · obtain rfl := Multiset.eq_of_mem_replicate hj
        cases ho : b.owner with
        | new owner =>
          simp only [ho] at hw
          exact .inr ⟨owner, rfl, (hr j).trans hw⟩
        | existing r =>
          simp only [ho] at hw
          obtain ⟨e, held, he, rfl, -⟩ := existingRoot_some hw.1
          exact .inl (Multiset.mem_map_of_mem _ (mem_live.mpr ⟨_, _, (item_eq_some.mp he).2⟩))
      · exact .inl hj
    · intro hk
      have hi : t2.keyOf i = b.allocation.1 := by
        rw [keyOf, hr i]
        unfold OwnKey at hk
        cases ho : b.owner with
        | new owner =>
          simp only [ho] at hw hk
          rw [hw, hk]
          rfl
        | existing r =>
          simp only [ho] at hw hk
          rw [hw.2, hk i hw.1, keyOf]
      change t2.used.map t2.keyOf = _
      rw [hu, Multiset.map_add, Multiset.map_replicate, hi, keys_congr fun j hj => (hr j).trans (ht j hj)]
    · exact ht1 ▸ hV.kept
    · exact ht1 ▸ hV.full

end Install

section Drop

variable {t t' : TextViewTable}

structure Dropped (slot g : ℕ) (e : TextViewItem) (t t' : TextViewTable) : Prop where
  killed : SlotTable.Killed pageSlots generationLimit t.table t'.table e slot g
  rooted : Rooted 0 t'
  keys : t.keys = t.keyOf e.root ::ₘ t'.keys
  owners : ∀ j ∈ t'.used, t'.ownerOf j = t.ownerOf j

variable {e : TextViewItem}

theorem drop_spec (h : Rooted 0 t) {slot g : ℕ} (hc : t.table.cells[slot]? = some ⟨g, some e⟩) :
    ∃ table, t.table.kill generationLimit slot = some (e, table) ∧
      ∀ n, ∃ t', releaseRoot e.root 1 { t with table, live := n } = some (t.keyOf e.root, t') ∧
        Dropped slot g e t t' ∧ t'.live = n := by
  obtain ⟨table, hk, hK⟩ := kill_spec (M := generationLimit) h.formed hc
  refine ⟨table, hk, fun n => ?_⟩
  have hi := hK.live
  have hu : t.used = e.root ::ₘ ({ t with table, live := n } : TextViewTable).used := by
    simp only [used, hi, Multiset.map_cons]
  have hR : Rooted (e.root ::ₘ 0) ({ t with table, live := n } : TextViewTable) := by
    refine h.of_table hK.formed (by rw [hK.cells, length_set]; exact h.bound) ?_ rfl rfl
    rw [hu, add_zero, Multiset.add_cons, add_zero]
  obtain ⟨t', hr, hR', ht, hl, ho⟩ := releaseRoot_spec hR
  rw [add_zero] at ho
  have hu' : t'.used = ({ t with table, live := n } : TextViewTable).used := by simp only [used, ht]
  refine ⟨t', hr, ⟨ht ▸ hK, hR', ?_, fun j hj => ho j (hu' ▸ hj)⟩, hl⟩
  rw [keys, hu, Multiset.map_cons, keys, hu']
  congr 1
  exact Multiset.map_congr rfl fun j hj => by rw [keyOf, keyOf, ho j hj]; rfl

theorem free_dropped (h : Rooted 0 t) {r : ObjRef} {x : ℕ × TextViewTable} (hf : t.free r = some x) :
    ∃ e, t.item r = some e ∧ Dropped r.slot (r.generation - textViewGenerationTag) e t x.2 := by
  unfold free at hf
  split at hf
  · cases hf
  · next e he =>
    obtain ⟨table, hk, hl⟩ := drop_spec h (item_eq_some.mp he).2
    obtain ⟨t', hr, hD, -⟩ := hl (t.live - 1)
    simp only [hk, hr] at hf
    split at hf
    · cases hf
    · cases hf
      exact ⟨e, he, hD⟩

theorem free_spec (h : Rooted 0 t) (hl : t.live = t.table.live.card) {r : ObjRef}
    (hr : t.item r = some e) : ∃ t', t.free r = some (t.keyOf e.root, t') ∧
      Dropped r.slot (r.generation - textViewGenerationTag) e t t' ∧ t'.live = t'.table.live.card := by
  have hc := (item_eq_some.mp hr).2
  obtain ⟨table, hk, he⟩ := drop_spec h hc
  obtain ⟨t', hr', hD, hl'⟩ := he (t.live - 1)
  have ha : t.table.live.card = t'.table.live.card + 1 := by rw [hD.killed.live, Multiset.card_cons]
  refine ⟨t', ?_, hD, by omega⟩
  have hne : t.live ≠ 0 := by omega
  simp only [free, hr, hk, if_neg hne, hr']

variable {σ : Type} {R : ℕ → σ → Option (ℕ × σ)} {I : Multiset ℕ → ℕ → σ → Prop}

structure ViewSwept (keep : ObjRef → Bool) (n : ℕ) (t t' : TextViewTable) : Prop where
  rooted : Rooted 0 t'
  swept : SlotTable.Swept pageSlots generationLimit
    (fun slot g => keep ⟨slot, g + textViewGenerationTag⟩) n t.table t'.table
  live : t'.live = t.live
  used : t'.used ≤ t.used
  owners : ∀ j ∈ t'.used, t'.ownerOf j = t.ownerOf j

theorem sweepSlot_cases (h : Rooted 0 t) (keep : ObjRef → Bool) (n objects bytes : ℕ) (s : σ) :
    sweepSlot keep R (t, (objects, bytes), s) n = some (t, (objects, bytes), s) ∧
        (∀ g e, t.table.cells[n]? = some ⟨g, some e⟩ → keep ⟨n, g + textViewGenerationTag⟩ = true) ∨
      ∃ g e t', Dropped n g e t t' ∧ t'.live = t.live ∧ keep ⟨n, g + textViewGenerationTag⟩ = false ∧
        sweepSlot keep R (t, (objects, bytes), s) n =
          (R (t.keyOf e.root) s).map (fun x => (t', (objects + 1, bytes + x.1), x.2)) := by
  unfold sweepSlot
  dsimp only
  split
  · next g e hc =>
    split
    · next hk =>
      refine .inl ⟨rfl, ?_⟩
      intro g' a ha
      rw [hc] at ha
      cases ha
      exact hk
    · next hk =>
      obtain ⟨table, hi, he⟩ := drop_spec h hc
      obtain ⟨t', hr, hD, hl⟩ := he t.live
      refine .inr ⟨g, e, t', hD, hl, Bool.eq_false_iff.mpr hk, ?_⟩
      simp only [hi, hr]
      cases R (t.keyOf e.root) s <;> rfl
  · next hc => exact .inl ⟨rfl, fun g a ha => absurd ha (hc g a)⟩

theorem ViewSwept.refl (keep : ObjRef → Bool) (h : Rooted 0 t) : ViewSwept keep 0 t t :=
  ⟨h, SlotTable.Swept.refl h.formed, rfl, le_rfl, fun _ _ => rfl⟩

variable {keep : ObjRef → Bool}

theorem ViewSwept.drop {n g : ℕ} (h : ViewSwept keep n t t')
    (hD : Dropped n g e t' t'') (hl : t''.live = t'.live) (hk : keep ⟨n, g + textViewGenerationTag⟩ = false) :
    ViewSwept keep (n + 1) t t'' := by
  have hle : t''.used ≤ t'.used := by
    simp only [TextViewTable.used, hD.killed.live, Multiset.map_cons]
    exact Multiset.le_cons_self _ _
  refine ⟨hD.rooted, h.swept.kill hD.killed hk, hl.trans h.live, hle.trans h.used, fun j hj => ?_⟩
  rw [hD.owners j hj, h.owners j (Multiset.mem_of_le hle hj)]

theorem ViewSwept.skip {n : ℕ} (h : ViewSwept keep n t t')
    (hk : ∀ g e, t'.table.cells[n]? = some ⟨g, some e⟩ → keep ⟨n, g + textViewGenerationTag⟩ = true) :
    ViewSwept keep (n + 1) t t' :=
  ⟨h.rooted, h.swept.skip hk, h.live, h.used, h.owners⟩

theorem sweepSlot_spec (hI : ∀ key keys bytes s, I (key ::ₘ keys) bytes s →
      ∃ freed s', R key s = some (freed, s') ∧ I keys (bytes + freed) s')
    {n objects bytes : ℕ} {s : σ} (h : ViewSwept keep n t t')
    (hs : I t'.keys bytes s) (hc : t'.table.live.card + objects = t.table.live.card) :
    ∃ t'' objects' bytes' s', sweepSlot keep R (t', (objects, bytes), s) n = some (t'', (objects', bytes'), s') ∧
      ViewSwept keep (n + 1) t t'' ∧ I t''.keys bytes' s' ∧ t''.table.live.card + objects' = t.table.live.card := by
  obtain ⟨he, hk⟩ | ⟨g, e, t'', hD, hl, hk, he⟩ :=
    sweepSlot_cases (R := R) h.rooted keep n objects bytes s
  · exact ⟨t', objects, bytes, s, he, h.skip hk, hs, hc⟩
  · rw [hD.keys] at hs
    obtain ⟨freed, s', hf, hs'⟩ := hI _ _ _ _ hs
    have ho : t'.table.live.card = t''.table.live.card + 1 := by rw [hD.killed.live, Multiset.card_cons]
    rw [hf] at he
    exact ⟨t'', objects + 1, bytes + freed, s', he, h.drop hD hl hk, hs', by omega⟩

theorem sweep_swept {s : σ} {x : TextViewTable × (ℕ × ℕ) × σ} (h : Rooted 0 t)
    (hs : t.sweep keep R s = some x) : ViewSwept keep t.table.cells.length { t with live := x.1.live } x.1 := by
  unfold sweep at hs
  split at hs
  · cases hs
  · next t' objects bytes s' hf =>
    have hV := foldlM_range_some (I := fun n (x : TextViewTable × (ℕ × ℕ) × σ) => ViewSwept keep n t x.1)
      t.table.cells.length (by
        rintro n ⟨t1, ⟨objects, bytes⟩, s1⟩ y hV hy
        obtain ⟨he, hk⟩ | ⟨g, e, t2, hD, hl, hk, he⟩ :=
          sweepSlot_cases (R := R) hV.rooted keep n objects bytes s1
        · rw [he] at hy
          cases hy
          exact hV.skip hk
        · rw [he] at hy
          obtain ⟨y', -, rfl⟩ := map_eq_some_iff.mp hy
          exact hV.drop hD hl hk) (ViewSwept.refl keep h) hf
    split at hs
    · cases hs
    · cases hs
      exact ⟨hV.rooted.of_table hV.rooted.formed hV.rooted.bound rfl rfl rfl, hV.swept, rfl, hV.used, hV.owners⟩

theorem sweep_spec (hI : ∀ key keys bytes s, I (key ::ₘ keys) bytes s →
      ∃ freed s', R key s = some (freed, s') ∧ I keys (bytes + freed) s')
    (keep : ObjRef → Bool) {s : σ} (h : Rooted 0 t) (hl : t.live = t.table.live.card) (hs : I t.keys 0 s) :
    ∃ t' objects bytes s', t.sweep keep R s = some (t', (objects, bytes), s') ∧
      ViewSwept keep t.table.cells.length { t with live := t'.live } t' ∧ t'.live = t'.table.live.card ∧
      I t'.keys bytes s' ∧ t'.table.live.card + objects = t.table.live.card := by
  obtain ⟨⟨t', ⟨objects, bytes⟩, s'⟩, hf, hV, hs', hc⟩ := foldlM_range_keeps
    (I := fun n (x : TextViewTable × (ℕ × ℕ) × σ) => ViewSwept keep n t x.1 ∧ I x.1.keys x.2.1.2 x.2.2 ∧
      x.1.table.live.card + x.2.1.1 = t.table.live.card) (f := sweepSlot keep R)
    t.table.cells.length (t, (0, 0), s)
    (by
      rintro n ⟨t', ⟨objects, bytes⟩, s⟩ - ⟨hV, hs, hc⟩
      obtain ⟨t'', objects', bytes', s', h1, h2, h3, h4⟩ := sweepSlot_spec hI hV hs hc
      exact ⟨_, h1, h2, h3, h4⟩)
    ⟨ViewSwept.refl keep h, hs, rfl⟩
  dsimp only at hV hs' hc
  have hi := hV.live
  refine ⟨{ t' with live := t'.live - objects }, objects, bytes, s', ?_, ?_, ?_, hs', hc⟩
  · unfold sweep
    rw [hf]
    dsimp only
    rw [if_neg (by omega)]
  · exact ⟨hV.rooted.of_table hV.rooted.formed hV.rooted.bound rfl rfl rfl, hV.swept, rfl, hV.used, hV.owners⟩
  · change t'.live - objects = t'.table.live.card
    omega

theorem Rooted.trimFreePages (h : Rooted 0 t) : Rooted 0 t.trimFreePages := by
  refine h.of_table (h.formed.trim (min_le_right _ _) ?_) ?_ ?_ rfl rfl
  · rcases le_total t.table.slots (t.table.dropPages pageSlots).cells.length with hle | hle
    · exact .inl (le_min le_rfl hle)
    · exact .inr (min_eq_right hle)
  · exact (length_take_le' _ _).trans_lt h.bound
  · have : t.trimFreePages.table.live = t.table.live := live_dropPages h.formed
    simp only [used, this]

theorem tryReserveBatch_spec (h : Rooted 0 t) (count : ℕ) (needsRoot hostRoots : Bool) (hostPages : ℕ) :
    ∃ ok table, t.tryReserveBatch count needsRoot hostRoots hostPages = (ok, { t with table }) ∧
      table.Formed pageSlots ∧ table.cells.length < slotNumbers ∧ (ok = true → count ≤ table.available) ∧
      table.live = t.table.live ∧ SlotTable.Kept pageSlots t.table table ∧ (t.table.Full → table.Full) := by
  have hk := SlotTable.Kept.refl pageSlots t.table
  unfold tryReserveBatch
  split_ifs with hz hn
  · exact ⟨true, t.table, rfl, h.formed, h.bound, fun _ => by omega, rfl, hk, id⟩
  · exact ⟨false, t.table, rfl, h.formed, h.bound, nofun, rfl, hk, id⟩
  · have hr := reserve_keeps (I := fun table => table.Formed pageSlots ∧ table.live = t.table.live ∧
      SlotTable.Kept pageSlots t.table table ∧ (t.table.Full → table.Full)) (P := pageSlots) (t := t.table) (by
        rintro table ⟨hf, hl, hk, hu⟩
        exact ⟨hf.addPage, (live_addPage _ _).trans hl, hk.trans (kept_addPage pageSlots_pos _),
          fun h0 => (hu h0).addPage hf.slots_le⟩) (2 ^ 32 - 1) count hostPages ⟨h.formed, rfl, hk, id⟩
    have hb := reserve_length (P := pageSlots) (2 ^ 32 - 1) count hostPages (Nat.le_pred_of_lt h.bound)
    exact ⟨_, _, rfl, hr.1, Nat.lt_of_le_pred (by decide) hb, reserve_available _ _ _, hr.2⟩

theorem tryReserveBatch_available (h : Rooted 0 t) (count : ℕ) (needsRoot hostRoots : Bool) (hostPages : ℕ)
    (hok : (t.tryReserveBatch count needsRoot hostRoots hostPages).1 = true) :
    count ≤ (t.tryReserveBatch count needsRoot hostRoots hostPages).2.table.available := by
  obtain ⟨ok, table, hr, -, -, ha, -⟩ := tryReserveBatch_spec h count needsRoot hostRoots hostPages
  rw [hr] at hok ⊢
  exact ha hok

end Drop

end TextViewTable

end LoomV4
