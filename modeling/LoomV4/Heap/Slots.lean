import LoomV4.Heap.Effects

namespace LoomV4

open Lib List Option SlotTable TextViewTable

def HeapOp.kills : HeapOp → ObjRef → Bool
  | .free r, x => x = r
  | .sweep keep, x => !keep x
  | _, _ => false

namespace Heap

variable {h h' : Heap}

def Bounded (h : Heap) : Prop := ∀ slot, h.objects.generation slot < generationLimit

/-- When a page is dropped, the pages that stay hold no slot that was never handed out. -/
def TrimFits (h : Heap) : Prop :=
  (h.objects.dropPages pageSlots).pages pageSlots ≠ h.objects.pages pageSlots →
    (h.objects.dropPages pageSlots).pages pageSlots * pageSlots ≤ h.objects.slots

instance : Decidable h.TrimFits := inferInstanceAs (Decidable (_ → _))

def Fits (h : Heap) : HeapOp → Prop
  | .trimFreePages => h.TrimFits
  | _ => True

instance (op : HeapOp) : Decidable (h.Fits op) := by
  unfold Fits
  split <;> infer_instance

structure Effect (kills : ObjRef → Bool) (fits : Prop) (h h' : Heap) : Prop where
  tabled : h'.Tabled
  objects : SlotTable.Stepped pageSlots generationLimit (fun slot g => kills ⟨slot, g⟩) fits h.objects h'.objects
  views : SlotTable.Stepped pageSlots generationLimit (fun slot g => kills ⟨slot, g + textViewGenerationTag⟩) True
    h.textViews.table h'.textViews.table

structure Taken (h h' : Heap) : Prop where
  tabled : h'.Tabled
  objects : SlotTable.Aged pageSlots h.objects h'.objects
  objectsFull : h.objects.Numbered → h.objects.Full → h'.objects.Full
  views : SlotTable.Kept pageSlots h.textViews.table h'.textViews.table
  viewsFull : h.textViews.table.Full → h'.textViews.table.Full

theorem generationLimit_pos : 0 < generationLimit := by decide

section Effects

variable {kills : ObjRef → Bool} {fits : Prop}

theorem Taken.effect (ht : Taken h h') (hn : fits → h.objects.Numbered) : Effect (fun _ => false) fits h h' :=
  ⟨ht.tabled, ht.objects.stepped (fun _ _ _ _ => rfl) fun hf => ht.objectsFull (hn hf),
    ht.views.stepped (fun _ _ _ _ => rfl) fun _ => ht.viewsFull⟩

theorem Taken.trans {h1 h2 h3 : Heap} (h12 : Taken h1 h2) (h23 : Taken h2 h3)
    (hn : h1.objects.Numbered → h2.objects.Numbered) : Taken h1 h3 :=
  ⟨h23.tabled, h12.objects.trans h23.objects, fun hm => h23.objectsFull (hn hm) ∘ h12.objectsFull hm,
    h12.views.trans h23.views, h23.viewsFull ∘ h12.viewsFull⟩

section

variable (ht : h.Tabled)

include ht

theorem Reserved.taken (hr : Reserved h h') : Taken h h' :=
  ⟨hr.tabled ht, hr.objectsKept.toAged, fun _ => hr.objectsFull, hr.tableKept, hr.tableFull⟩

theorem Reserved.effect (hr : Reserved h h') : Effect (fun _ => false) fits h h' :=
  ⟨hr.tabled ht, hr.objectsKept.toAged.stepped (fun _ _ _ _ => rfl) fun _ => hr.objectsFull,
    hr.tableKept.toAged.stepped (fun _ _ _ _ => rfl) fun _ => hr.tableFull⟩

variable {r : ObjRef} {o : Object}

theorem taken_alloc (ha : h.alloc o = some (r, h')) : Taken h h' := by
  obtain ⟨slot, g, objects, ha', hI⟩ := alloc_spec ht o
  rw [ha'] at ha
  cases ha
  have hk := (kept_room pageSlots_pos h.objects).toAged.trans hI.aged
  exact ⟨⟨hI.formed, ht.views⟩, hk, fun hn hf => hI.full hn.room (hf.room ht.objects.slots_le),
    SlotTable.Kept.refl _ _, id⟩

theorem taken_tryAlloc {unique host : Bool} {r : Option ObjRef}
    (ha : h.tryAlloc o unique host = some (r, h')) : Taken h h' := by
  obtain hn | ⟨objects, r1, h1, ho, ht1, ha1⟩ := tryAlloc_cases ht o unique host
  · rw [hn] at ha
    cases ha
    exact (Reserved.refl ht).taken ht
  · rw [ht1] at ha
    cases ha
    have hr : Reserved h { h with objects } := by
      cases ho with
      | inl he => exact he ▸ Reserved.refl ht
      | inr he => exact he ▸ reserved_addPage ht
    exact (hr.taken ht).trans (taken_alloc (hr.tabled ht) ha1) hr.numbered

theorem taken_batch {b : TextViewBatch} {host : BatchHost} {r : Option ObjRef}
    (ha : h.tryAllocTextViewList b host = some (r, h')) : Taken h h' := by
  obtain ⟨h1, hr, he⟩ | ⟨h1, values, textViews, r1, h2, hr, -, hB, he, ha1⟩ := tryAllocTextViewList_cases ht b host
  · rw [he] at ha
    cases ha
    exact hr.taken ht
  · rw [he] at ha
    cases ha
    have hw : Taken h1 (h1.withBatch b textViews) :=
      ⟨⟨hr.objects, hB.rooted⟩, Aged.refl _ _, fun _ => id, hB.kept, hB.full⟩
    exact ((hr.taken ht).trans hw hr.numbered).trans (taken_alloc hw.tabled ha1) hr.numbered

theorem taken_materialize (hn : h.objects.Numbered) {cls env : UInt32} {fields : List Value} {frozen : Bool}
    (hs : h.materializePrechargedInstance cls fields env frozen = some (r, h')) : Taken h h' := by
  unfold materializePrechargedInstance at hs
  dsimp only at hs
  split at hs
  · next slot g objects hi =>
    obtain ⟨slot', g', objects', hi', hI⟩ :=
      install_spec ht.objects (spare_of_install hn hi)
        ⟨⟨frozen, (Object.inst cls fields env).heapBaseCost, none⟩, .inst cls fields env⟩
    rw [hi] at hi'
    cases hi'
    cases hs
    exact ⟨⟨hI.formed, ht.views⟩, hI.aged, hI.full, SlotTable.Kept.refl _ _, id⟩
  · cases hs

theorem effect_freeTextView (hb : h.Bounded) (hs : h.freeTextView r = some h') :
    Effect (fun x => x = r) fits h h' := by
  unfold freeTextView at hs
  split at hs
  · cases hs
  · next key textViews hf =>
    obtain ⟨e, he, hD⟩ := free_dropped ht.views hf
    obtain ⟨hr, hl⟩ := item_eq_some.mp he
    have hr : textViewGenerationTag ≤ r.generation := of_decide_eq_true hr
    split at hs
    · cases hs
    · split at hs
      · cases hs
      · cases hs
        refine ⟨⟨ht.objects, hD.rooted⟩, (Aged.refl _ _).stepped ?_ fun _ => id,
          hD.killed.stepped ht.views.formed generationLimit_pos ?_⟩
        · -- No object has a generation above the tag.
          intro slot g e hc
          have hlt := hb slot
          rw [ht.objects.generation_eq hc] at hlt
          refine decide_eq_false ?_
          rintro rfl
          exact absurd hlt (not_lt.mpr hr)
        · intro slot g b hc
          rw [decide_eq_true_iff]
          constructor
          · rintro rfl
            rfl
          · rintro rfl
            rw [hl] at hc
            have hg := (Cell.mk.inj (some.inj hc)).1
            exact congrArg (ObjRef.mk r.slot) (by omega)

theorem effect_free (hb : h.Bounded) (hs : h.free r = some h') :
    Effect (fun x => x = r) fits h h' := by
  unfold Heap.free at hs
  split at hs
  · exact effect_freeTextView ht hb hs
  · next hr =>
    have hr : r.generation < textViewGenerationTag := by
      simpa [TextViewTable.isReference] using hr
    split at hs
    · cases hs
    · next e he =>
      have hl := entry_eq_some.mp he
      obtain ⟨objects, hk, hK⟩ := kill_spec (M := generationLimit) ht.objects hl
      simp only [hk] at hs
      split at hs
      · cases hs
      · split at hs
        · cases hs
        · cases hs
          refine ⟨⟨hK.formed, ht.views⟩, hK.stepped ht.objects generationLimit_pos ?_,
            (Aged.refl _ _).stepped ?_ fun _ => id⟩
          · intro slot g b hc
            rw [decide_eq_true_iff]
            constructor
            · rintro rfl
              rfl
            · rintro rfl
              rw [hl] at hc
              cases hc
              rfl
          · intro slot g b hc
            refine decide_eq_false ?_
            rintro rfl
            exact absurd hr (not_lt.mpr (Nat.le_add_left _ _))

theorem effect_sweep {keep : ObjRef → Bool} (hs : h.sweep keep = some h') :
    Effect (fun x => !keep x) fits h h' := by
  obtain ⟨hO, hV⟩ := sweep_tables ht hs
  exact ⟨⟨hO.formed, hV.rooted⟩, hO.stepped ht.objects generationLimit_pos,
    hV.swept.stepped ht.views.formed generationLimit_pos⟩

end

theorem effect_quiet (ht : h'.Tabled) (ho : h'.objects.generations = h.objects.generations)
    (hof : fits → h.objects.Full → h'.objects.Full)
    (hv : h'.textViews.table.generations = h.textViews.table.generations)
    (hvf : h.textViews.table.Full → h'.textViews.table.Full) : Effect (fun _ => false) fits h h' := by
  refine ⟨ht, stepped_of_generation generationLimit_pos hof ?_,
    stepped_of_generation generationLimit_pos (fun _ => hvf) ?_⟩
  · intro slot
    rw [not_raised fun _ _ _ => rfl, if_neg Bool.false_ne_true, SlotTable.generation, ho, SlotTable.generation]
  · intro slot
    rw [not_raised fun _ _ _ => rfl, if_neg Bool.false_ne_true, SlotTable.generation, hv, SlotTable.generation]

theorem effect_trim (ht : h.Tabled) : Effect (fun _ => false) h.TrimFits h h.trimFreePages := by
  refine effect_quiet ht.trimFreePages rfl (fun hi hf => hf.trim ?_) rfl
    (fun hf => hf.trim (min_le_left _ _))
  split
  · next hne => exact hi hne
  · exact le_rfl

theorem effect_recharged (ht : h.Tabled) {r : ObjRef} {e : LiveEntry} (hr : h.entry r = some e) (e' : LiveEntry)
    (l : Ledger ℕ) (n : ℕ) : Effect (fun _ => false) fits h (h.recharged r e' l n) :=
  effect_quiet ⟨(ht.withEntry hr e').objects, ht.views⟩ rfl
    (fun _ hf => hf.replace (entry_eq_some.mp hr) e') rfl id

theorem effect_setFrozen (ht : h.Tabled) {r : ObjRef} (hs : h.setFrozen r = some h') :
    Effect (fun _ => false) fits h h' := by
  obtain rfl | ⟨e, he, rfl⟩ := setFrozen_cases hs
  · exact effect_quiet ht rfl (fun _ => id) rfl id
  · exact effect_recharged ht he _ h.sharedAllocations h.usedBytes

theorem step_effect (ht : h.Tabled) (hb : h.Bounded) {op : HeapOp} (hn : h.Numbered op)
    (hop : ∀ roots host, op ≠ .compactLive roots host) (hs : h.step op = some h') :
    Effect op.kills (h.Fits op) h h' := by
  cases op with
  | alloc o =>
    obtain ⟨x, ha, rfl⟩ := map_eq_some_iff.mp hs
    exact (taken_alloc ht ha).effect fun _ => hn
  | tryAlloc o unique host =>
    obtain ⟨x, ha, rfl⟩ := map_eq_some_iff.mp hs
    exact (taken_tryAlloc ht ha).effect fun _ => hn
  | tryAllocTextViewList b host =>
    obtain ⟨x, ha, rfl⟩ := map_eq_some_iff.mp hs
    exact (taken_batch ht ha).effect fun _ => hn
  | free r => exact effect_free ht hb hs
  | sweep keep => exact effect_sweep ht hs
  | trimFreePages =>
    cases hs
    exact effect_trim ht
  | compactLive roots host => exact absurd rfl (hop roots host)
  | mutate r o =>
    obtain ⟨e, header, l, n, he, -, rfl⟩ := write_cases (fun _ _ _ => recharge_cases) hs
    exact effect_recharged ht he _ l n
  | mutateLocal r o =>
    obtain ⟨e, header, l, n, he, -, rfl⟩ := write_cases (fun _ _ _ => rechargeLocal_cases) hs
    exact effect_recharged ht he _ l n
  | setFrozen r => exact effect_setFrozen ht hs
  | pushHostRoot r =>
    cases hs
    exact effect_quiet ⟨ht.objects, ht.views⟩ rfl (fun _ => id) rfl id
  | popHostRoot r =>
    change h.popHostRoot r = some h' at hs
    unfold popHostRoot at hs
    split at hs
    · split at hs
      · cases hs
        exact effect_quiet ⟨ht.objects, ht.views⟩ rfl (fun _ => id) rfl id
      · cases hs
    · cases hs
  | reservePrechargedSlots count host =>
    cases hs
    exact (reserved_objects ht count host).effect ht
  | materializePrechargedInstance cls fields env frozen =>
    obtain ⟨x, ha, rfl⟩ := map_eq_some_iff.mp hs
    exact (taken_materialize ht hn ha).effect fun _ => hn

end Effects

section Compact

variable {c c' : Heap} {mapping : List (ObjRef × ObjRef)} {x : ObjRef × Bool × Object}

/-- What holds in every state: no view slot is lost. -/
structure Slotted (h : Heap) : Prop where
  tabled : h.Tabled
  bounded : h.Bounded
  views : h.textViews.table.Full

theorem slotted_new (capBytes : ℕ) : (new capBytes).Slotted := by
  refine ⟨tabled_new capBytes, fun slot => ?_, full_empty⟩
  change ([] : List ℕ).getD slot 0 < _
  exact generationLimit_pos

theorem Effect.slotted {kills : ObjRef → Bool} {fits : Prop} (he : Effect kills fits h h')
    (hs : h.Slotted) : h'.Slotted :=
  ⟨he.tabled, he.objects.bounded hs.bounded, he.views.full trivial hs.views⟩

theorem Taken.slotted (ht : Taken h h') (hs : h.Slotted) : h'.Slotted :=
  ⟨ht.tabled, fun slot => (ht.objects.le slot).trans_lt (hs.bounded slot), ht.viewsFull hs.views⟩

theorem mapped_bounded {r expected : ObjRef} (hm : mapped h.compactMapping r = some expected) :
    expected.generation < generationLimit := by
  obtain ⟨e, he, rfl⟩ := map_eq_some_iff.mp hm
  obtain ⟨y, -, rfl⟩ := List.mem_map.mp (mem_of_find?_eq_some he)
  dsimp only
  split
  · exact Nat.mod_lt _ generationLimit_pos
  · exact generationLimit_pos

theorem Slotted.setGeneration (hc : c.Slotted) {slot : ℕ} {cell : Cell LiveEntry} {g : ℕ}
    (he : c.objects.cells[slot]? = some cell) (hg : g < generationLimit) :
    ({ c with objects := c.objects.setGeneration slot g } : Heap).Slotted := by
  refine ⟨⟨hc.tabled.objects.setGeneration he _, hc.tabled.views⟩, fun i => ?_, hc.views⟩
  change (c.objects.setGeneration _ _).generation i < _
  rw [generation_setGeneration hc.tabled.objects he]
  split
  · exact hg
  · exact hc.bounded i

theorem Slotted.compactOne (hc : c.Slotted) (hf : c.objects.Full) (hn : c.objects.Numbered)
    (hok : h.compactOne h.compactMapping c x = .ok c') : c'.Slotted ∧ c'.objects.Full := by
  obtain ⟨object, expected, g, c1, -, hm, ha, hs⟩ := compactOne_ok hok
  have hT := taken_tryAlloc hc.tabled ha
  have hc1 := hT.slotted hc
  have hl := entry_eq_some.mp (tryAlloc_entry hc.tabled ha)
  have hu := (hT.objectsFull hn hf).setGeneration hl expected.generation
  have hc2 := hc1.setGeneration hl (mapped_bounded hm)
  cases hs with
  | inl he => exact he ▸ ⟨hc2, hu⟩
  | inr hr =>
    have he : Effect _ True _ c' := effect_setFrozen hc2.tabled hr
    exact ⟨he.slotted hc2, he.objects.full trivial hu⟩

theorem Slotted.compactLive (hs : h.Slotted) (roots : List ObjRef) (host : Bool) :
    (h.compactLive roots host).2.Slotted ∧ (h.objects.Full → (h.compactLive roots host).2.objects.Full) := by
  obtain ⟨_, he⟩ | ⟨_, c, hostRoots, hn, hf, -, -, -, he⟩ := compactLive_cases h roots host
  · rw [he]
    exact ⟨hs, id⟩
  · have hc := compacted_keeps (I := fun c => Slotted c ∧ c.objects.Full) (fun _ hc => hc.1.tabled)
      (fun _ _ _ hn hc hok => hc.1.compactOne hc.2 hn hok) ⟨slotted_new h.capBytes, full_empty⟩ hn hf
    rw [he]
    exact ⟨⟨⟨hc.1.tabled.objects, hc.1.tabled.views⟩, hc.1.bounded, hc.1.views⟩, fun _ => hc.2⟩

end Compact

theorem Slotted.step (hs : h.Slotted) {op : HeapOp} (hp : h.step op = some h') (hn : h.Numbered op) :
    h'.Slotted ∧ (h.Fits op → h.objects.Full → h'.objects.Full) := by
  by_cases hop : ∃ roots host, op = .compactLive roots host
  · obtain ⟨roots, host, rfl⟩ := hop
    cases hp
    exact ⟨(hs.compactLive roots host).1, fun _ => (hs.compactLive roots host).2⟩
  · push Not at hop
    have he := step_effect hs.tabled hs.bounded hn hop hp
    exact ⟨he.slotted hs, he.objects.full⟩

end Heap

/-- Each slot below the bump pointer is live or once on the free list, and no other slot is either. -/
structure Lib.SlotTable.Accounted {α : Type} (P : ℕ) (t : SlotTable α) : Prop where
  below : ∀ slot < t.slots, (∃ g a, t.cells[slot]? = some ⟨g, some a⟩) ∧ t.free.count slot = 0 ∨
    (¬∃ g a, t.cells[slot]? = some ⟨g, some a⟩) ∧ t.free.count slot = 1
  above : ∀ slot, t.slots ≤ slot → (¬∃ g a, t.cells[slot]? = some ⟨g, some a⟩) ∧ slot ∉ t.free
  bound : t.slots ≤ t.pages P * P

namespace Lib.SlotTable

variable {α : Type} {P : ℕ} {t : SlotTable α}

theorem Formed.accounted (h : Formed P t) (hf : t.Full) : t.Accounted P := by
  refine ⟨fun slot hlt => ?_, fun slot hge => ⟨?_, ?_⟩, ?_⟩
  · have he : slot < t.cells.length := lt_of_lt_of_le hlt h.slots_le
    cases hc : t.cells[slot]? with
    | none => exact absurd he (not_lt.mpr (List.getElem?_eq_none_iff.mp hc))
    | some c =>
      obtain ⟨g, item⟩ := c
      cases item with
      | none =>
        refine .inr ⟨?_, count_eq_one_of_mem h.nodup (hf slot hlt ⟨g, hc⟩)⟩
        rintro ⟨g', a, ha⟩
        cases ha
      | some a =>
        refine .inl ⟨⟨g, a, rfl⟩, count_eq_zero_of_not_mem fun hm => ?_⟩
        obtain ⟨-, g', hd⟩ := h.free_dead slot hm
        rw [hc] at hd
        cases hd
  · rintro ⟨g, a, hc⟩
    exact absurd (h.live_lt slot _ hc (by simp)) (not_lt.mpr hge)
  · intro hm
    exact absurd (h.free_dead slot hm).1 (not_lt.mpr hge)
  · rw [pages, Nat.div_mul_cancel h.paged]
    exact h.slots_le

end Lib.SlotTable

namespace Heap

variable {h h' : Heap}

theorem Slotted.run {capBytes : ℕ} {ops : List HeapOp} (hr : run capBytes ops = some h)
    (hn : AlongM Numbered Heap.step ops (new capBytes)) : h.Slotted :=
  foldlM_some (I := Slotted) (fun _ _ _ hs hm he => (hs.step he hm).1) ops (slotted_new capBytes) hn hr

theorem Slotted.trim_accounted_iff (hs : h.Slotted) (hf : h.objects.Full) :
    h.trimFreePages.objects.Accounted pageSlots ↔ h.TrimFits := by
  constructor
  · intro ha hne
    by_contra hlt
    have hl : h.trimFreePages.objects.slots = (h.objects.dropPages pageSlots).pages pageSlots * pageSlots :=
      if_pos hne
    have hb : h.objects.slots < h.trimFreePages.objects.slots := by omega
    rcases ha.below h.objects.slots hb with ⟨⟨g, e, hc⟩, -⟩ | ⟨-, ho⟩
    · change (h.objects.dropPages pageSlots).cells[h.objects.slots]? = _ at hc
      rw [SlotTable.getElem?_dropPages] at hc
      split at hc
      · exact absurd (hs.tabled.objects.live_lt _ _ hc (by simp)) (lt_irrefl _)
      · cases hc
    · have hm : h.objects.slots ∈ h.trimFreePages.objects.free := count_pos_iff.mp (by omega)
      exact absurd (hs.tabled.objects.free_dead _ (mem_filter.mp hm).1).1 (lt_irrefl _)
  · intro hi
    have he := effect_trim hs.tabled
    exact he.tabled.objects.accounted (he.objects.full hi hf)

/-- While no slot is taken past the last number, the view table loses no slot and no live slot is
handed out again; the object table loses no slot when every trim of the run fits. -/
theorem run_slots_accounted {capBytes : ℕ} {ops : List HeapOp} (hrun : run capBytes ops = some h)
    (hn : AlongM Numbered Heap.step ops (new capBytes)) :
    h.textViews.table.Accounted pageSlots ∧
      (∀ o r h', h.objects.Numbered → h.alloc o = some (r, h') →
        ¬∃ g e, h.objects.cells[r.slot]? = some ⟨g, some e⟩) ∧
      (AlongM Fits Heap.step ops (new capBytes) → h.objects.Accounted pageSlots) := by
  have hs := Slotted.run hrun hn
  refine ⟨hs.tabled.views.formed.accounted hs.views, ?_, fun hfits => ?_⟩
  · rintro o r h' hm ha ⟨g, e, hc⟩
    obtain ⟨slot, g', objects, ha', hI⟩ := alloc_spec hs.tabled o
    rw [ha'] at ha
    cases ha
    have hlive := (kept_room pageSlots_pos h.objects).live _ _ _ hc
    rw [hI.dead hm.room] at hlive
    cases hlive
  · have hfull := foldlM_some (I := fun h => Slotted h ∧ h.objects.Full)
      (fun _ _ _ hI hf hstep => ⟨(hI.1.step hstep hf.2).1, (hI.1.step hstep hf.2).2 hf.1 hI.2⟩) ops
      ⟨slotted_new capBytes, full_empty⟩ (hfits.and hn) hrun
    exact hs.tabled.objects.accounted hfull.2

theorem run_slots_accounted_trim : ∃ h, run 4096 [.alloc (.list [] 0), .free ⟨0, 0⟩, .trimFreePages] = some h ∧
      h.textViews.table.Accounted pageSlots ∧ h.objects.Accounted pageSlots := by
  obtain ⟨h, hrun⟩ := isSome_iff_exists.mp (show (run 4096
    [.alloc (.list [] 0), .free ⟨0, 0⟩, .trimFreePages]).isSome = true by decide +kernel)
  obtain ⟨hviews, -, hobjects⟩ := run_slots_accounted hrun (by decide +kernel)
  exact ⟨h, hrun, hviews, hobjects (by decide +kernel)⟩

/-- Pages reserved ahead of the bump pointer, then trimmed: the slots between are lost. -/
theorem trim_after_reserve_loses_slots :
    ∃ h, run 4096 [.alloc (.list [] 0), .reservePrechargedSlots 2000 2, .trimFreePages] = some h ∧
      ¬h.objects.Accounted pageSlots := by
  have heval : (run 4096 [.alloc (.list [] 0), .reservePrechargedSlots 2000 2, .trimFreePages]).map (fun h =>
      (h.objects.slots, h.objects.free, (h.objects.cells[1]?).map fun c => c.item.isNone)) =
      some (1024, [], some true) := by
    decide +kernel
  obtain ⟨h, hrun, hx⟩ := map_eq_some_iff.mp heval
  simp only [Prod.mk.injEq] at hx
  obtain ⟨hslots, hfree, hdead⟩ := hx
  refine ⟨h, hrun, fun ha => ?_⟩
  rcases ha.below 1 (by omega) with ⟨⟨g, e, hc⟩, -⟩ | ⟨-, hcount⟩
  · simp [hc] at hdead
  · simp [hfree] at hcount

end Heap

end LoomV4
