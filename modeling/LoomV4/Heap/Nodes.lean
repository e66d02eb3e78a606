import LoomV4.Heap.Slots

/-!
A heap as a graph of nodes: what each reference resolves to, and how the operations change that.
-/

namespace LoomV4

open Lib SlotTable TextViewTable

namespace Heap

def node (h : Heap) (r : ObjRef) : Option (Bool × Object) :=
  if isReference r then (h.textViews.get r).map fun text => (true, .substring text)
  else (h.entry r).map fun e => (e.header.frozen, e.object)

variable {h h' : Heap} {r : ObjRef}

theorem get_eq_none (hr : isReference r = false) : h.textViews.get r = none := by
  simp [TextViewTable.get, TextViewTable.item, hr]

theorem eq_iff_slot {x : ObjRef} : x = r ↔ x.slot = r.slot ∧ x.generation = r.generation := by
  obtain ⟨s, g⟩ := x
  obtain ⟨s', g'⟩ := r
  exact ObjRef.mk.injEq .. ▸ Iff.rfl

/-- There are no more live references than slots. -/
theorem length_le_of_node {l : List ObjRef} (hl : l.Nodup) (hn : ∀ x ∈ l, h.node x ≠ none) :
    l.length ≤ h.objects.cells.length + h.textViews.table.cells.length := by
  have hv : (l.filter isReference).length ≤ h.textViews.table.cells.length := by
    have hi : ((l.filter isReference).map fun x => (x.slot, x.generation - textViewGenerationTag)).Nodup := by
      refine (hl.filter _).map_on fun x hx y hy he => ?_
      have hx' := of_decide_eq_true (List.mem_filter.mp hx).2
      have hy' := of_decide_eq_true (List.mem_filter.mp hy).2
      obtain ⟨hs, hg⟩ := Prod.mk.inj he
      exact eq_iff_slot.mpr ⟨hs, by omega⟩
    have hle := length_le_of_find (t := h.textViews.table) hi fun p hp => ?_
    · simpa using hle
    · obtain ⟨x, hx, rfl⟩ := List.mem_map.mp hp
      obtain ⟨hin, hr⟩ := List.mem_filter.mp hx
      intro hf
      apply hn x hin
      simp only [node, hr, if_true, TextViewTable.get, TextViewTable.item, hf, Option.map_none]
  have ho : (l.filter fun x => !isReference x).length ≤ h.objects.cells.length := by
    have hi : ((l.filter fun x => !isReference x).map fun x => (x.slot, x.generation)).Nodup := by
      refine (hl.filter _).map_on fun x _ y _ he => ?_
      obtain ⟨hs, hg⟩ := Prod.mk.inj he
      exact eq_iff_slot.mpr ⟨hs, hg⟩
    have hle := length_le_of_find (t := h.objects) hi fun p hp => ?_
    · simpa using hle
    · obtain ⟨x, hx, rfl⟩ := List.mem_map.mp hp
      obtain ⟨hin, hr⟩ := List.mem_filter.mp hx
      rw [Bool.not_eq_true'] at hr
      intro hf
      apply hn x hin
      simp only [node, hr, Bool.false_eq_true, if_false, entry, hf, Option.map_none]
  rw [List.length_eq_length_filter_add isReference]
  omega

theorem tryCloneObject_eq (h : Heap) (r : ObjRef) : h.tryCloneObject r = (h.node r).map Prod.snd := by
  unfold tryCloneObject node tryGet
  cases hr : isReference r with
  | true => cases h.textViews.get r <;> rfl
  | false =>
    rw [get_eq_none hr]
    simp [Option.map_map, Function.comp_def]

theorem isFrozen_eq (h : Heap) (r : ObjRef) : h.isFrozen r = ((h.node r).map Prod.fst).getD false := by
  unfold isFrozen node
  cases isReference r with
  | true => cases h.textViews.get r <;> rfl
  | false => cases h.entry r <;> rfl

theorem tryGet_eq (h : Heap) (r : ObjRef) :
    h.tryGet r = if isReference r then none else (h.node r).map Prod.snd := by
  unfold tryGet node
  cases isReference r with
  | true => rfl
  | false => cases h.entry r <;> rfl

def textOf : Object → Option SharedText
  | .str text | .substring text => some text
  | _ => none

theorem text_eq (h : Heap) (r : ObjRef) : h.text r = (h.node r).bind (fun n => textOf n.2) := by
  unfold text node tryGet
  cases isReference r with
  | true => cases h.textViews.get r <;> rfl
  | false =>
    cases h.entry r with
    | none => rfl
    | some e =>
      obtain ⟨header, object⟩ := e
      cases object <;> rfl

theorem isReference_of_entry {e : LiveEntry} (hs : h.Slotted) (he : h.entry r = some e) :
    isReference r = false := by
  have hlt := hs.bounded r.slot
  rw [hs.tabled.objects.generation_eq (entry_eq_some.mp he)] at hlt
  exact decide_eq_false (not_le.mpr hlt)

theorem node_of_entry {e : LiveEntry} (hs : h.Slotted) (he : h.entry r = some e) :
    h.node r = some (e.header.frozen, e.object) := by
  simp [node, isReference_of_entry hs he, he]

theorem entry_of_node {n : Bool × Object} (hr : isReference r = false) (hn : h.node r = some n) :
    ∃ e, h.entry r = some e ∧ n = (e.header.frozen, e.object) := by
  simp only [node, hr, Bool.false_eq_true, if_false] at hn
  obtain ⟨e, he, rfl⟩ := Option.map_eq_some_iff.mp hn
  exact ⟨e, he, rfl⟩

section Alloc

variable {o : Object}

theorem alloc_room (ht : h.Tabled) (ha : h.alloc o = some (r, h')) :
    SlotTable.Installed pageSlots (h.objects.room pageSlots) h'.objects ⟨headerOf o, o⟩ r.slot r.generation ∧
      h'.textViews = h.textViews ∧ h'.hostRoots = h.hostRoots ∧ h'.capBytes = h.capBytes := by
  obtain ⟨slot, g, objects, ha', hI⟩ := alloc_spec ht o
  rw [ha'] at ha
  cases ha
  exact ⟨hI, rfl, rfl, rfl⟩

/-- No slot from `n` on was taken, and at most one page reaches there. -/
def Within (n : ℕ) (h : Heap) : Prop := h.objects.slots ≤ n ∧ h.objects.cells.length < n + pageSlots

theorem within_length (ht : h.Tabled) : h.Within h.objects.cells.length :=
  ⟨ht.objects.slots_le, Nat.lt_add_of_pos_right pageSlots_pos⟩

theorem Within.numbered {n : ℕ} (hw : h.Within n) (hn : n < slotNumbers) : h.objects.Numbered :=
  fun _ => hw.1.trans_lt hn

theorem Within.alloc {n : ℕ} (hw : h.Within n) (ht : h.Tabled) (ha : h.alloc o = some (r, h')) : h'.Within (n + 1) := by
  obtain ⟨hI, -⟩ := alloc_room ht ha
  have hs := hI.slots_le
  obtain ⟨h1, h2⟩ := hw
  rw [(room_slots _ _).1] at hs
  refine ⟨by omega, ?_⟩
  rw [hI.cells, List.length_set, SlotTable.room]
  split
  · next hr =>
    rw [length_addPage, ← hr.2]
    omega
  · omega

theorem Within.mono {n n' : ℕ} (hw : h.Within n) (hle : n ≤ n') : h.Within n' :=
  ⟨hw.1.trans hle, hw.2.trans_le (Nat.add_le_add_right hle _)⟩

/-- The next `k` slots have numbers. -/
def Slack (k : ℕ) (h : Heap) : Prop := ∃ n, h.Within n ∧ n + k ≤ slotNumbers

theorem Slack.numbered {k : ℕ} (hk : h.Slack (k + 1)) : h.objects.Numbered := by
  obtain ⟨n, hw, hn⟩ := hk
  exact hw.numbered (by omega)

theorem Slack.mono {k k' : ℕ} (hk : h.Slack k) (hle : k' ≤ k) : h.Slack k' := by
  obtain ⟨n, hw, hn⟩ := hk
  exact ⟨n, hw, by omega⟩

theorem Slack.alloc {k : ℕ} (hk : h.Slack (k + 1)) (ht : h.Tabled) (ha : h.alloc o = some (r, h')) : h'.Slack k := by
  obtain ⟨n, hw, hn⟩ := hk
  exact ⟨n + 1, hw.alloc ht ha, by omega⟩

theorem Slotted.alloc (hs : h.Slotted) (ha : h.alloc o = some (r, h')) : h'.Slotted :=
  (taken_alloc hs.tabled ha).slotted hs

theorem isReference_alloc (hs : h.Slotted) (ha : h.alloc o = some (r, h')) :
    isReference r = false := by
  have he := alloc_entry hs.tabled ha
  have hlt := (hs.alloc ha).bounded r.slot
  rw [(hs.alloc ha).tabled.objects.generation_eq (entry_eq_some.mp he)] at hlt
  exact decide_eq_false (not_le.mpr hlt)

theorem node_alloc_fresh (hs : h.Slotted) (hn : h.objects.Numbered) (ha : h.alloc o = some (r, h')) :
    h.node r = none := by
  obtain ⟨hI, -⟩ := alloc_room hs.tabled ha
  have hf : h.objects.find r.slot r.generation = none := by
    rw [← find_room pageSlots, SlotTable.find, hI.dead hn.room]
    simp
  simp [node, isReference_alloc hs ha, entry, hf]

theorem node_alloc (hs : h.Slotted) (ha : h.alloc o = some (r, h')) (x : ObjRef) :
    h'.node x = if x = r then some (o.shape.bornFrozen, o) else h.node x := by
  obtain ⟨hI, hv, -⟩ := alloc_room hs.tabled ha
  by_cases hx : x = r
  · subst hx
    rw [if_pos rfl]
    exact node_of_entry (hs.alloc ha) (alloc_entry hs.tabled ha)
  · have hne : ¬(x.slot = r.slot ∧ x.generation = r.generation) := by
      rintro ⟨h1, h2⟩
      exact hx (by cases x; cases r; simp_all)
    rw [if_neg hx]
    simp only [node, entry, hv, hI.find_eq, if_neg hne, find_room]

end Alloc

section Write

theorem within_withEntry {n : ℕ} {e : LiveEntry} (hw : h.Within n) : (h.withEntry r e).Within n := by
  refine ⟨hw.1, ?_⟩
  rw [withEntry, List.length_set]
  exact hw.2

theorem node_withEntry {e : LiveEntry} (hs : h.Slotted) (hr : h.entry r = some e) (e' : LiveEntry) (x : ObjRef) :
    (h.withEntry r e').node x = if x = r then some (e'.header.frozen, e'.object) else h.node x := by
  have hf := find_replace (entry_eq_some.mp hr) e' x.slot x.generation
  have hn := node_of_entry hs hr
  by_cases hx : x = r
  · subst hx
    have hv : isReference x = false := by
      have hlt := hs.bounded x.slot
      rw [hs.tabled.objects.generation_eq (entry_eq_some.mp hr)] at hlt
      exact decide_eq_false (not_le.mpr hlt)
    simp [node, hv, entry_withEntry hr]
  · rw [if_neg fun he => hx (eq_iff_slot.mpr he)] at hf
    rw [if_neg hx]
    simp only [node, entry, withEntry, hf]

theorem node_write {o : Object} (hs : h.Slotted) (hw : (h.setObject r o).bind (recharge r) = some h') :
    ∃ frozen before, h.node r = some (frozen, before) ∧
      ∀ x, h'.node x = if x = r then some (frozen, o) else h.node x := by
  obtain ⟨e, header, l, n, he, hf, rfl⟩ := write_cases (fun _ _ _ => recharge_cases) hw
  refine ⟨e.header.frozen, e.object, node_of_entry hs he, fun x => ?_⟩
  rw [← hf]
  exact node_withEntry hs he ⟨header, o⟩ x

theorem node_setFrozen (hs : h.Slotted) (ht : h.setFrozen r = some h') (x : ObjRef) :
    h'.node x = if x = r then (h.node x).map (fun n => (true, n.2)) else h.node x := by
  by_cases hx : x = r
  · subst hx
    rw [if_pos rfl]
    unfold setFrozen at ht
    split at ht
    · next hv =>
      split at ht
      · cases ht
        simp only [node, hv, if_true]
        cases h.textViews.get x <;> rfl
      · cases ht
    · split at ht
      · cases ht
      · next e he =>
        rw [setHeader_eq he] at ht
        cases ht
        rw [node_withEntry hs he, if_pos rfl, node_of_entry hs he]
        rfl
  · rw [if_neg hx]
    obtain rfl | ⟨e, he, rfl⟩ := setFrozen_cases ht
    · rfl
    · rw [node_withEntry hs he, if_neg hx]

end Write

section Drop

theorem get_eq (t : TextViewTable) (x : ObjRef) : t.get x =
    (t.item x).bind (fun e => (t.ownerOf e.root).map fun owner => ⟨owner, e.view.start, e.view.len⟩) := by
  unfold TextViewTable.get ownerOf
  cases t.item x with
  | none => rfl
  | some e => simp [Function.comp_def]

theorem get_congr {t t' : TextViewTable} (ho : ∀ j ∈ t'.used, t'.ownerOf j = t.ownerOf j) {x : ObjRef}
    (hi : t'.item x = t.item x) : t'.get x = t.get x := by
  rw [get_eq, get_eq, ← hi]
  cases he : t'.item x with
  | none => rfl
  | some e =>
    have hm : e.root ∈ t'.used :=
      Multiset.mem_map_of_mem _ (mem_live.mpr ⟨_, _, (item_eq_some.mp he).2⟩)
    simp only [Option.bind_some, ho e.root hm]

theorem node_sweep {keep : ObjRef → Bool} (ht : h.Tabled) (hs : h.sweep keep = some h') (x : ObjRef) :
    h'.node x = if keep x then h.node x else none := by
  obtain ⟨hO, hV⟩ := sweep_tables ht hs
  unfold node
  cases hx : isReference x with
  | false =>
    simp only [Bool.false_eq_true, if_false, entry, hO.find_eq le_rfl]
    split <;> rfl
  | true =>
    have hle : textViewGenerationTag ≤ x.generation := of_decide_eq_true hx
    have hi : h'.textViews.item x = if keep x then h.textViews.item x else none := by
      have hf := hV.swept.find_eq le_rfl x.slot (x.generation - textViewGenerationTag)
      rw [Nat.sub_add_cancel hle] at hf
      simp only [TextViewTable.item, hx, if_true, hf]
    simp only [if_true]
    cases hk : keep x with
    | false => simp [TextViewTable.get, hi, hk]
    | true =>
      rw [hk, if_pos rfl] at hi
      rw [if_pos rfl]
      exact congrArg _ (get_congr (t := { h.textViews with live := h'.textViews.live }) hV.owners hi)

theorem node_trimFreePages (ht : h.Tabled) (x : ObjRef) : h.trimFreePages.node x = h.node x := by
  have ho : h.trimFreePages.entry x = h.entry x := find_dropPages ht.objects _ _
  have hv : h.trimFreePages.textViews.get x = h.textViews.get x := by
    have hf := find_dropPages ht.views.formed x.slot (x.generation - textViewGenerationTag)
    have hi : h.trimFreePages.textViews.item x = h.textViews.item x := by
      simp only [TextViewTable.item]
      split
      · exact hf
      · rfl
    simp only [TextViewTable.get, hi]
    rfl
  simp only [node, ho, hv]

theorem node_freeTextView (ht : h.Tabled) (hr : isReference r = true)
    (hfr : h.freeTextView r = some h') (x : ObjRef) : h'.node x = if x = r then none else h.node x := by
  unfold freeTextView at hfr
  split at hfr
  · cases hfr
  · next key textViews hf =>
    obtain ⟨e, he, hD⟩ := free_dropped ht.views hf
    have hle : textViewGenerationTag ≤ r.generation := of_decide_eq_true hr
    have hi : textViews.item x = if x = r then none else h.textViews.item x := by
      simp only [TextViewTable.item, hD.killed.find_eq]
      by_cases hx : x = r
      · simp [hx]
      · cases hxr : isReference x with
        | false => simp
        | true =>
          have hl : textViewGenerationTag ≤ x.generation := of_decide_eq_true hxr
          have hne : ¬(x.slot = r.slot ∧
              x.generation - textViewGenerationTag = r.generation - textViewGenerationTag) := by
            rintro ⟨h1, h2⟩
            exact hx (eq_iff_slot.mpr ⟨h1, by omega⟩)
          rw [if_neg hne, if_neg hx]
    split at hfr
    · cases hfr
    · split at hfr
      · cases hfr
      · cases hfr
        unfold node
        by_cases hx : x = r
        · subst hx
          rw [if_pos rfl] at hi
          simp [hr, dropDigest, TextViewTable.get, hi]
        · rw [if_neg hx] at hi ⊢
          have hg : textViews.get x = h.textViews.get x := get_congr hD.owners hi
          simp only [dropDigest, hg]
          rfl

theorem free_within {n : ℕ} (hfr : h.free r = some h') (hw : h.Within n) : h'.Within n := by
  unfold free at hfr
  split at hfr
  · unfold freeTextView at hfr
    repeat' split at hfr
    all_goals first | cases hfr; exact hw | cases hfr
  · split at hfr
    · cases hfr
    · split at hfr
      · cases hfr
      · next e objects hk =>
        obtain ⟨hs, hl⟩ := kill_lengths hk
        repeat' split at hfr
        all_goals first | cases hfr; exact ⟨hs ▸ hw.1, hl ▸ hw.2⟩ | cases hfr

theorem node_free (ht : h.Tabled) (hfr : h.free r = some h') (x : ObjRef) :
    h'.node x = if x = r then none else h.node x := by
  unfold free at hfr
  split at hfr
  · next hr => exact node_freeTextView ht hr hfr x
  · next hr =>
    have hr : isReference r = false := by simpa using hr
    split at hfr
    · cases hfr
    · next e he =>
      obtain ⟨objects, hk, hK⟩ := kill_spec (M := generationLimit) ht.objects (entry_eq_some.mp he)
      simp only [hk] at hfr
      split at hfr
      · cases hfr
      · split at hfr
        · cases hfr
        · cases hfr
          unfold node
          have hf := hK.find_eq x.slot x.generation
          by_cases hx : x = r
          · subst hx
            simp [hr, entry, dropDigest, hf]
          · rw [if_neg fun he => hx (eq_iff_slot.mpr he)] at hf
            rw [if_neg hx]
            simp only [entry, dropDigest, hf]

end Drop

end Heap

end LoomV4
