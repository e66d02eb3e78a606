import LoomV4.Heap.Slots

/-!
References that outlive their object.
-/

namespace LoomV4

open Lib List Option Nat SlotTable TextViewTable

namespace Heap

variable {h h' : Heap}

def retires (h : Heap) (op : HeapOp) (r : ObjRef) : Bool :=
  match op with
  | .compactLive roots host =>
    match (h.compactLive roots host).1 with
    | .ok _ => true
    | .error _ => false
  | op => op.kills r

def generationOf (h : Heap) (view : Bool) (slot : ℕ) : ℕ :=
  match view with
  | true => h.textViews.table.generation slot
  | false => h.objects.generation slot

def freesSlot (h : Heap) (op : HeapOp) (view : Bool) (slot : ℕ) : Bool :=
  match view with
  | true => h.textViews.table.raised (fun slot g => h.retires op ⟨slot, g + textViewGenerationTag⟩) slot
  | false => h.objects.raised (fun slot g => h.retires op ⟨slot, g⟩) slot

theorem freesSlot_view (h : Heap) (op : HeapOp) (slot : ℕ) : h.freesSlot op true slot =
    h.textViews.table.raised (fun slot g => h.retires op ⟨slot, g + textViewGenerationTag⟩) slot := rfl

theorem freesSlot_object (h : Heap) (op : HeapOp) (slot : ℕ) : h.freesSlot op false slot =
    h.objects.raised (fun slot g => h.retires op ⟨slot, g⟩) slot := rfl

def freeCount (view : Bool) (slot : ℕ) : List HeapOp → Heap → ℕ
  | [], _ => 0
  | op :: ops, h =>
    (h.freesSlot op view slot).toNat +
      match h.step op with
      | some h' => freeCount view slot ops h'
      | none => 0

/-- The objects fill the first slots, no other slot was ever used, and no text view ever was. -/
def Dense (h : Heap) : Prop :=
  (∀ slot, h.forEachLive.length ≤ slot →
    h.objects.generation slot = 0 ∧ ¬∃ g e, h.objects.cells[slot]? = some ⟨g, some e⟩) ∧
  ∀ slot, h.textViews.table.generation slot = 0 ∧ ¬∃ g e, h.textViews.table.cells[slot]? = some ⟨g, some e⟩

/-- The operation forgets no generation: a page is added only where the side table does not reach
beyond it, and only a dense heap is compacted. -/
def Remembers (h : Heap) (op : HeapOp) : Prop :=
  match op with
  | .compactLive roots host => (∃ e, (h.compactLive roots host).1 = .error e) ∨ h.Dense
  | op => ∀ h', h.step op = some h' →
    (h.objects.cells.length < h'.objects.cells.length → h.objects.Remembered pageSlots) ∧
    (h.textViews.table.cells.length < h'.textViews.table.cells.length →
      h.textViews.table.Remembered pageSlots)

section Compact

variable {c c' : Heap} {x : ObjRef × Bool × Object}

def compactedGeneration (h : Heap) (slot : ℕ) : ℕ :=
  match h.objects.generations[slot]? with
  | some held => (held + 1) % generationLimit
  | none => 0

theorem mapped_generation {r expected : ObjRef} (hm : mapped h.compactMapping r = some expected) :
    expected.generation = h.compactedGeneration expected.slot := by
  obtain ⟨e, he, rfl⟩ := map_eq_some_iff.mp hm
  obtain ⟨y, -, rfl⟩ := mem_map.mp (mem_of_find?_eq_some he)
  rfl

structure Packed (h : Heap) (n : ℕ) (c : Heap) : Prop where
  slotted : c.Slotted
  slots : c.objects.slots = n
  free : c.objects.free = []
  views : c.textViews = {}
  generation : ∀ slot, c.objects.generation slot = if slot < n then h.compactedGeneration slot else 0

theorem packed_new (h : Heap) (capBytes : ℕ) : Packed h 0 (new capBytes) :=
  ⟨slotted_new capBytes, rfl, rfl, rfl, fun _ => rfl⟩

theorem Packed.compactOne {n : ℕ} (hp : Packed h n c) (hlt : n < slotNumbers)
    (hok : h.compactOne h.compactMapping c x = .ok c') :
    Packed h (n + 1) c' := by
  obtain ⟨object, expected, g, c1, -, hm, ha, ht⟩ := compactOne_ok hok
  obtain ⟨ho, hr, hl, hv⟩ := tryAlloc_bump hp.slotted.tabled hp.free ha
  have hT := taken_tryAlloc hp.slotted.tabled ha
  have hc1 := hT.slotted hp.slotted
  have hc := entry_eq_some.mp (tryAlloc_entry hp.slotted.tabled ha)
  have hn : expected.slot = n := by rw [show expected.slot = _ from ho, hp.slots, mod_eq_of_lt hlt]
  -- Nothing beyond the first slots has a generation yet, so a new page forgets none.
  have hg : ∀ slot, c1.objects.generation slot = c.objects.generation slot := by
    refine hT.objects.generation fun _ slot hle => ?_
    have hle' := hp.slotted.tabled.objects.slots_le
    have hs := hp.slots
    rw [hp.generation slot, if_neg (by omega)]
  have hc2 : Packed h (n + 1) { c1 with
      objects := c1.objects.setGeneration expected.slot expected.generation } := by
    refine ⟨hc1.setGeneration hc (mapped_bounded hm), hl.trans (congrArg (· + 1) hp.slots), hr,
      hv.trans hp.views, fun slot => ?_⟩
    change (c1.objects.setGeneration _ _).generation slot = _
    rw [generation_setGeneration hc1.tabled.objects hc, mapped_generation hm, hn, hg, hp.generation]
    by_cases he : n = slot
    · subst he
      rw [if_pos rfl, if_pos (lt_succ_self n)]
    · have hi : slot < n + 1 ↔ slot < n := by omega
      rw [if_neg he]
      simp only [hi]
  cases ht with
  | inl he => exact he ▸ hc2
  | inr hf =>
    have hs := (effect_setFrozen hc2.slotted.tabled hf : Effect _ True _ c').slotted hc2.slotted
    obtain he | ⟨e, -, he⟩ := setFrozen_cases hf
    · exact he ▸ hc2
    · subst he
      exact ⟨hs, hc2.slots, hc2.free, hc2.views, hc2.generation⟩

theorem packed_compactLive (hn : h.forEachLive.length ≤ slotNumbers)
    (hf : h.forEachLive.foldlM (h.compactOne h.compactMapping) (new h.capBytes) = .ok c) :
    Packed h h.forEachLive.length c := by
  have hp := foldlM_ok (I := fun rest c => ∃ n, n + rest.length = h.forEachLive.length ∧ Packed h n c)
    (fun x rest c c' hI hok => by
      obtain ⟨n, hi, hp⟩ := hI
      rw [length_cons] at hi
      exact ⟨n + 1, by omega, hp.compactOne (by omega) hok⟩)
    h.forEachLive ⟨0, Nat.zero_add _, packed_new h h.capBytes⟩ hf
  obtain ⟨n, hn, hp⟩ := hp
  exact hn ▸ hp

end Compact

section References

theorem mem_liveEntries {r : ObjRef} {e : LiveEntry} :
    (r, e) ∈ h.liveEntries ↔ h.objects.cells[r.slot]? = some ⟨r.generation, some e⟩ := by
  unfold liveEntries
  rw [mem_filterMap]
  constructor
  · rintro ⟨slot, -, hs⟩
    split at hs
    · next g e' hc =>
      cases hs
      exact hc
    · cases hs
  · intro hc
    refine ⟨r.slot, mem_range.mpr (lt_of_getElem? hc), ?_⟩
    rw [hc]

theorem nodup_liveEntries (h : Heap) : (h.liveEntries.map fun x => x.1.slot).Nodup := by
  rw [liveEntries, map_filterMap]
  refine Nodup.sublist (filterMap_self_sublist ?_ _) nodup_range
  intro slot slot' hs
  obtain ⟨x, hx, rfl⟩ := map_eq_some_iff.mp hs
  split at hx
  · cases hx
    rfl
  · cases hx

theorem nodup_forEachView (t : TextViewTable) : (t.forEachLive.map fun x => x.1.slot).Nodup := by
  rw [TextViewTable.forEachLive, map_filterMap]
  refine Nodup.sublist (filterMap_self_sublist ?_ _) nodup_range
  intro slot slot' hs
  obtain ⟨x, hx, rfl⟩ := map_eq_some_iff.mp hs
  split at hx
  · obtain ⟨held, -, rfl⟩ := map_eq_some_iff.mp hx
    rfl
  · cases hx

theorem forEachView_tagged {t : TextViewTable} {x : ObjRef × Span} (hx : x ∈ t.forEachLive) :
    textViewGenerationTag ≤ x.1.generation := by
  obtain ⟨slot, -, hs⟩ := mem_filterMap.mp hx
  split at hs
  · obtain ⟨held, -, rfl⟩ := map_eq_some_iff.mp hs
    exact le_add_left _ _
  · cases hs

theorem Slotted.nodup_references (hs : h.Slotted) : (h.forEachLive.map Prod.fst).Nodup := by
  rw [forEachLive, map_append, List.map_map, List.map_map]
  refine Nodup.append ?_ ?_ ?_
  · refine Nodup.of_map ObjRef.slot ?_
    rw [List.map_map]
    exact nodup_liveEntries h
  · refine Nodup.of_map ObjRef.slot ?_
    rw [List.map_map]
    exact nodup_forEachView h.textViews
  · intro r ho hv
    obtain ⟨x, hx, rfl⟩ := mem_map.mp ho
    obtain ⟨y, hy, he⟩ := mem_map.mp hv
    have hlt := hs.bounded x.1.slot
    rw [hs.tabled.objects.generation_eq (mem_liveEntries.mp hx)] at hlt
    have hle := forEachView_tagged hy
    have hg : y.1.generation = x.1.generation := congrArg ObjRef.generation he
    rw [hg] at hle
    exact absurd hlt (not_lt.mpr hle)

theorem Dense.live_of_lt (hd : h.Dense) {slot : ℕ} (hlt : slot < h.forEachLive.length) :
    ∃ g e, h.objects.cells[slot]? = some ⟨g, some e⟩ := by
  have hv : h.textViews.forEachLive = [] := by
    refine filterMap_eq_nil_iff.mpr fun i _ => ?_
    split
    · next g e hc => exact absurd ⟨g, e, hc⟩ (hd.2 i).2
    · rfl
  have hl : h.forEachLive.length = h.liveEntries.length := by
    rw [forEachLive, hv, map_nil, append_nil, length_map]
  have hs : (h.liveEntries.map fun x => x.1.slot).toFinset ⊆ Finset.range h.forEachLive.length := by
    intro i hi
    obtain ⟨x, hx, rfl⟩ := mem_map.mp (mem_toFinset.mp hi)
    rw [Finset.mem_range]
    by_contra hge
    exact (hd.1 _ (not_lt.mp hge)).2 ⟨_, _, mem_liveEntries.mp hx⟩
  have ha : (Finset.range h.forEachLive.length).card ≤ (h.liveEntries.map fun x => x.1.slot).toFinset.card := by
    rw [toFinset_card_of_nodup (nodup_liveEntries h), length_map, Finset.card_range, hl]
  have hm : slot ∈ (h.liveEntries.map fun x => x.1.slot).toFinset := by
    rw [Finset.eq_of_subset_of_card_le hs ha]
    exact Finset.mem_range.mpr hlt
  obtain ⟨x, hx, rfl⟩ := mem_map.mp (mem_toFinset.mp hm)
  exact ⟨_, _, mem_liveEntries.mp hx⟩

end References

section Run

def Counted (h : Heap) (op : HeapOp) (h' : Heap) : Prop :=
  ∀ view slot, h'.generationOf view slot =
    if h.freesSlot op view slot then (h.generationOf view slot + 1) % generationLimit else h.generationOf view slot

theorem counted_compactLive (hs : h.Slotted) {roots : List ObjRef} {host : Bool}
    (hr : h.Remembers (.compactLive roots host)) :
    Counted h (.compactLive roots host) (h.compactLive roots host).2 := by
  obtain ⟨e, he⟩ | ⟨mappedRoots, c, hostRoots, hn, ho, -, -, -, he⟩ :=
    compactLive_cases h roots host
  · have hn : ∀ r, h.retires (.compactLive roots host) r = false := fun r => by simp only [retires, he]
    intro view slot
    have hf : h.freesSlot (.compactLive roots host) view slot = false := by
      unfold freesSlot
      split
      · exact not_raised fun _ _ _ => hn _
      · exact not_raised fun _ _ _ => hn _
    rw [hf, if_neg Bool.false_ne_true, he]
  · have hl : ∀ r, h.retires (.compactLive roots host) r = true := fun r => by simp only [retires, he]
    have hd : h.Dense := by
      obtain ⟨e, her⟩ | hd := hr
      · rw [he] at her
        cases her
      · exact hd
    have hp := packed_compactLive hn ho
    rw [he]
    intro view slot
    cases view with
    | true =>
      have hf : h.freesSlot (.compactLive roots host) true slot = false := by
        rw [freesSlot_view]
        exact not_raised fun g e hc => absurd ⟨g, e, hc⟩ (hd.2 slot).2
      rw [hf, if_neg Bool.false_ne_true]
      change c.textViews.table.generation slot = h.textViews.table.generation slot
      rw [hp.views, (hd.2 slot).1]
      rfl
    | false =>
      rw [freesSlot_object]
      change c.objects.generation slot = if _ then (h.objects.generation slot + 1) % generationLimit
        else h.objects.generation slot
      rw [hp.generation slot]
      by_cases hlt : slot < h.forEachLive.length
      · obtain ⟨g, e, hc⟩ := hd.live_of_lt hlt
        have ha : h.objects.raised (fun slot g => h.retires (.compactLive roots host) ⟨slot, g⟩) slot = true := by
          simp only [SlotTable.raised, hc, hl]
        rw [if_pos hlt, if_pos ha, hs.tabled.objects.generation_eq hc, compactedGeneration,
          hs.tabled.objects.mirror slot _ hc]
      · have hb := hd.1 slot (not_lt.mp hlt)
        have ha : h.objects.raised (fun slot g => h.retires (.compactLive roots host) ⟨slot, g⟩) slot = false :=
          not_raised fun g e hc => absurd ⟨g, e, hc⟩ hb.2
        rw [if_neg hlt, ha, if_neg Bool.false_ne_true, hb.1]

theorem counted_step (hs : h.Slotted) {op : HeapOp} (hn : h.Numbered op) (hr : h.Remembers op)
    (ht : h.step op = some h') :
    Counted h op h' := by
  by_cases hop : ∃ roots host, op = .compactLive roots host
  · obtain ⟨roots, host, rfl⟩ := hop
    cases ht
    exact counted_compactLive hs hr
  · push Not at hop
    have he := step_effect hs.tabled hs.bounded hn hop ht
    have hre : h.retires op = op.kills := by
      cases op with
      | compactLive roots host => exact absurd rfl (hop roots host)
      | _ => rfl
    have hm : (h.objects.cells.length < h'.objects.cells.length → h.objects.Remembered pageSlots) ∧
        (h.textViews.table.cells.length < h'.textViews.table.cells.length →
          h.textViews.table.Remembered pageSlots) := by
      cases op with
      | compactLive roots host => exact absurd rfl (hop roots host)
      | _ => exact hr h' ht
    intro view slot
    unfold freesSlot
    rw [hre]
    cases view with
    | true => exact he.views.generation hm.2 slot
    | false => exact he.objects.generation hm.1 slot

theorem generation_run (hs : h.Slotted) (hb : ∀ view slot, h.generationOf view slot < generationLimit)
    {ops : List HeapOp} (hn : AlongM Numbered Heap.step ops h) (hr : AlongM Remembers Heap.step ops h)
    (hu : ops.foldlM Heap.step h = some h')
    (view : Bool) (slot : ℕ) :
    h'.generationOf view slot = (h.generationOf view slot + freeCount view slot ops h) % generationLimit := by
  induction ops generalizing h with
  | nil =>
    cases hu
    exact (mod_eq_of_lt (hb view slot)).symm
  | cons op ops ih =>
    rw [foldlM_cons] at hu
    obtain ⟨h1, ht, he⟩ := bind_eq_some_iff.mp hu
    have hc := counted_step hs hn.1 hr.1 ht
    have hb1 : ∀ view slot, h1.generationOf view slot < generationLimit := by
      intro view slot
      rw [hc view slot]
      split
      · exact mod_lt _ generationLimit_pos
      · exact hb view slot
    rw [ih (hs.step ht hn.1).1 hb1 (hn.2 h1 ht) (hr.2 h1 ht) he, hc view slot]
    simp only [freeCount, ht]
    cases h.freesSlot op view slot with
    | true =>
      rw [if_pos rfl, Bool.toNat_true, mod_add_mod]
      congr 1
      omega
    | false => rw [if_neg Bool.false_ne_true, Bool.toNat_false, Nat.zero_add]

theorem freeCount_append (post : List HeapOp) {pre : List HeapOp} {h0 : Heap} (hr : pre.foldlM Heap.step h = some h0)
    (view : Bool) (slot : ℕ) :
    freeCount view slot (pre ++ post) h = freeCount view slot pre h + freeCount view slot post h0 := by
  induction pre generalizing h with
  | nil =>
    cases hr
    exact (Nat.zero_add _).symm
  | cons op pre ih =>
    rw [foldlM_cons] at hr
    obtain ⟨h1, hs, he⟩ := bind_eq_some_iff.mp hr
    simp only [cons_append, freeCount, hs, ih he, add_assoc]

def slotGeneration (r : ObjRef) : ℕ :=
  if isReference r then r.generation - textViewGenerationTag else r.generation

variable {r : ObjRef}

theorem Slotted.generation_of_live (hs : h.Slotted) (hr : h.isLiveReference r = true) :
    h.generationOf (isReference r) r.slot = slotGeneration r := by
  obtain ⟨e, he⟩ | ⟨hf, e, he⟩ := (isLiveReference_iff hs.tabled).mp hr
  · obtain ⟨hf, hc⟩ := item_eq_some.mp he
    have hg := hs.tabled.views.formed.generation_eq hc
    rw [slotGeneration, hf, if_pos rfl]
    exact hg
  · rw [slotGeneration, hf, if_neg Bool.false_ne_true]
    exact hs.tabled.objects.generation_eq (entry_eq_some.mp he)

theorem Slotted.freesSlot_of_retires (hs : h.Slotted) {op : HeapOp} (hr : h.isLiveReference r = true)
    (ht : h.retires op r = true) : h.freesSlot op (isReference r) r.slot = true := by
  obtain ⟨e, he⟩ | ⟨hf, e, he⟩ := (isLiveReference_iff hs.tabled).mp hr
  · obtain ⟨hf, hc⟩ := item_eq_some.mp he
    have hle : textViewGenerationTag ≤ r.generation := of_decide_eq_true hf
    have ha : (⟨r.slot, r.generation - textViewGenerationTag + textViewGenerationTag⟩ : ObjRef) = r :=
      congrArg (ObjRef.mk r.slot) (by omega)
    rw [hf, freesSlot_view]
    simp only [SlotTable.raised, hc]
    exact (congrArg (h.retires op) ha).trans ht
  · rw [hf, freesSlot_object]
    simp only [SlotTable.raised, entry_eq_some.mp he]
    exact ht

theorem unresolved_of_dead (hr : h.isLiveReference r = false) : h.tryGet r = none ∧ h.text r = none := by
  unfold isLiveReference at hr
  split at hr
  · next he => exact ⟨by rw [tryGet, if_pos he], by rw [text, if_pos he]; simpa using hr⟩
  · next he =>
    have hn : h.tryGet r = none := by simpa using hr
    exact ⟨hn, by rw [text, if_neg he, hn]⟩

theorem Slotted.alloc_unused (hs : h.Slotted) (hn : h.objects.Numbered) {o : Object}
    (ha : h.alloc o = some (r, h')) : h.isLiveReference r = false := by
  obtain ⟨slot, g, objects, ha', hI⟩ := alloc_spec hs.tabled o
  have hg : (room pageSlots h.objects).generation slot = g := hs.tabled.objects.room.generation_eq (hI.dead hn.room)
  rw [ha'] at ha
  cases ha
  rw [Bool.eq_false_iff, ne_eq, isLiveReference_iff hs.tabled]
  rintro (⟨e, he⟩ | ⟨-, e, he⟩)
  · have hle : textViewGenerationTag ≤ g := of_decide_eq_true (item_eq_some.mp he).1
    have hk := ((kept_room pageSlots_pos h.objects).le slot).trans_lt (hs.bounded slot)
    rw [hg] at hk
    exact absurd hk (not_lt.mpr hle)
  · have hc := (kept_room pageSlots_pos h.objects).live _ _ _ (entry_eq_some.mp he)
    rw [hI.dead hn.room] at hc
    cases hc

theorem Slotted.tryAlloc_unused (hs : h.Slotted) (hn : h.objects.Numbered) {o : Object} {unique host : Bool}
    (ha : h.tryAlloc o unique host = some (some r, h')) : h.isLiveReference r = false := by
  obtain hr | ⟨objects, r1, h1, ho, ht, ha1⟩ := tryAlloc_cases hs.tabled o unique host
  · rw [hr] at ha
    cases ha
  · rw [ht] at ha
    cases ha
    cases ho with
    | inl he => exact hs.alloc_unused hn (he ▸ ha1)
    | inr he =>
      have hp := reserved_addPage hs.tabled
      have hu := ((hp.taken hs.tabled).slotted hs).alloc_unused (hp.numbered hn) (he ▸ ha1)
      rw [Bool.eq_false_iff, ne_eq, isLiveReference_iff (hp.tabled hs.tabled)] at hu
      rw [Bool.eq_false_iff, ne_eq, isLiveReference_iff hs.tabled]
      rintro (hv | ⟨hf, e, he⟩)
      · exact hu (.inl hv)
      · exact hu (.inr ⟨hf, e, entry_eq_some.mpr (hp.objectsKept.live _ _ _ (entry_eq_some.mp he))⟩)

/-- While no slot is taken past the last number, two live objects have two references, and a new object
gets none that is in use. A reference that was taken back never resolves again when the run forgets no
generation and frees no slot 2^31 times. -/
theorem run_references_fresh {capBytes : ℕ} {ops : List HeapOp} (hrun : run capBytes ops = some h)
    (hn : AlongM Numbered Heap.step ops (new capBytes)) :
    (h.forEachLive.map Prod.fst).Nodup ∧
      (∀ o unique host r h', h.objects.Numbered →
        h.alloc o = some (r, h') ∨ h.tryAlloc o unique host = some (some r, h') → h.isLiveReference r = false) ∧
      (AlongM Remembers Heap.step ops (new capBytes) →
        (∀ view slot, freeCount view slot ops (new capBytes) < 2 ^ 31) →
        ∀ pre op post h₀ r, ops = pre ++ op :: post → run capBytes pre = some h₀ →
          h₀.isLiveReference r = true → h₀.retires op r = true → h.tryGet r = none ∧ h.text r = none) := by
  have hs := Slotted.run hrun hn
  refine ⟨hs.nodup_references, ?_, fun hrem hcount pre op post h₀ r hops hpre hlive hret => ?_⟩
  · intro o unique host r h' hm ha
    exact ha.elim (hs.alloc_unused hm) (hs.tryAlloc_unused hm)
  refine unresolved_of_dead ?_
  by_contra hdead
  have hb : ∀ view slot, (new capBytes).generationOf view slot < generationLimit := by
    intro view slot
    cases view <;> exact generationLimit_pos
  have hn₀ := (hops ▸ hn).left
  have hs₀ := Slotted.run hpre hn₀
  have htotal : freeCount (isReference r) r.slot ops (new capBytes) < generationLimit := hcount _ _
  have hsplit := freeCount_append (op :: post) hpre (isReference r) r.slot
  rw [← hops] at hsplit
  -- The step that takes the reference back frees its slot.
  have hone : 1 ≤ freeCount (isReference r) r.slot (op :: post) h₀ := by
    rw [freeCount, hs₀.freesSlot_of_retires hlive hret]
    exact le_add_right 1 _
  have hzero : ∀ view slot, (new capBytes).generationOf view slot = 0 := by
    intro view slot
    cases view <;> rfl
  have hg := generation_run (slotted_new capBytes) hb hn hrem hrun (isReference r) r.slot
  have hg₀ := generation_run (slotted_new capBytes) hb hn₀ (hops ▸ hrem).left hpre (isReference r) r.slot
  rw [hs.generation_of_live (by simpa using hdead), hzero, Nat.zero_add, mod_eq_of_lt htotal] at hg
  rw [hs₀.generation_of_live hlive, hzero, Nat.zero_add, mod_eq_of_lt (by omega)] at hg₀
  omega

theorem freeCount_le_length (view : Bool) (slot : ℕ) (ops : List HeapOp) (h : Heap) :
    freeCount view slot ops h ≤ ops.length := by
  induction ops generalizing h with
  | nil => exact le_rfl
  | cons op ops ih =>
    have ho := Bool.toNat_le (h.freesSlot op view slot)
    unfold freeCount
    rw [length_cons]
    split
    · next h' _ =>
      have hr := ih h'
      omega
    · omega

theorem run_references_fresh_free :
    ∃ h, run 4096 [.alloc (.list [] 0), .free ⟨0, 0⟩, .alloc (.list [] 1)] = some h ∧
      (h.forEachLive.map Prod.fst).Nodup ∧ h.tryGet ⟨0, 0⟩ = none ∧ h.text ⟨0, 0⟩ = none := by
  -- The side tables of all three states are no longer than the pages.
  have hlen : AlongM (fun h op => (op matches .alloc _ | .free _) ∧
      h.objects.generations.length ≤ h.objects.cells.length ∧
      h.textViews.table.generations.length ≤ h.textViews.table.cells.length) Heap.step
      [.alloc (.list [] 0), .free ⟨0, 0⟩, .alloc (.list [] 1)] (new 4096) := by
    decide +kernel
  have hsteps : AlongM Remembers Heap.step [.alloc (.list [] 0), .free ⟨0, 0⟩, .alloc (.list [] 1)] (new 4096) := by
    refine hlen.mono fun h op hle => ?_
    obtain ⟨hop, ho, hv⟩ := hle
    cases op with
    | alloc | free => exact fun _ _ => ⟨fun _ => remembered_of_length ho, fun _ => remembered_of_length hv⟩
    | _ => cases hop
  have hlive : (run 4096 [.alloc (.list [] 0)]).map (fun h => h.isLiveReference ⟨0, 0⟩) = some true := by
    decide +kernel
  obtain ⟨h, hrun⟩ := isSome_iff_exists.mp (show (run 4096
    [.alloc (.list [] 0), .free ⟨0, 0⟩, .alloc (.list [] 1)]).isSome = true by decide +kernel)
  obtain ⟨h₀, hrun₀, hlive⟩ := map_eq_some_iff.mp hlive
  obtain ⟨hnodup, -, hfresh⟩ := run_references_fresh hrun (by decide +kernel)
  refine ⟨h, hrun, hnodup, hfresh hsteps (fun view slot => ?_) [.alloc (.list [] 0)] (.free ⟨0, 0⟩) _ h₀ ⟨0, 0⟩ rfl
    hrun₀ hlive (by simp [retires, HeapOp.kills])⟩
  exact lt_of_le_of_lt (freeCount_le_length view slot _ _) (by decide)

theorem compactLive_empty (hn : h.forEachLive = []) (hr : h.hostRoots = []) (hl : h.live = 0) (hu : h.usedBytes = 0) :
    (h.compactLive [] true).2 = setNextCollectionThreshold { h with
      objects := {}, hostRoots := [], digests := [], sharedAllocations := [], textViews := {} } := by
  have hf : h.forEachLive.foldlM (h.compactOne h.compactMapping) (new h.capBytes) = .ok (new h.capBytes) := by
    rw [hn]
    rfl
  have he : ¬((true = false) ∨ slotNumbers < h.forEachLive.length) := by simp [hn]
  unfold compactLive
  rw [if_neg he]
  dsimp only
  rw [hr, hf, hl, hu]
  rfl

theorem alloc_first (ho : h.objects = {}) (hv : h.textViews = {}) (o : Object) :
    ∃ h', h.alloc o = some (⟨0, 0⟩, h') ∧ h'.entry ⟨0, 0⟩ = some ⟨headerOf o, o⟩ := by
  have ht : h.Tabled := ⟨ho ▸ formed_empty _, hv ▸ rooted_empty⟩
  obtain ⟨slot, g, objects, ha, hI⟩ := alloc_spec ht o
  have hs : slot = h.objects.slots % slotNumbers := (alloc_bump (by rw [ho]) ha).1
  have hd := hI.dead (Numbered.room fun _ => by rw [ho]; decide)
  have hr : h.objects.room pageSlots = ({} : SlotTable LiveEntry).addPage pageSlots := by
    rw [ho]
    exact if_pos ⟨rfl, rfl⟩
  obtain rfl : slot = 0 := by
    rw [hs, ho]
    rfl
  rw [hr, SlotTable.getElem?_addPage] at hd
  obtain rfl : 0 = g := (Cell.mk.inj (some.inj hd)).1
  exact ⟨_, ha, alloc_entry ht ha⟩

theorem forEachLive_nil (ho : h.objects.cells.all (fun c => c.item.isNone) = true) (hv : h.textViews.table.cells = []) :
    h.forEachLive = [] := by
  have he : h.liveEntries = [] := by
    refine filterMap_eq_nil_iff.mpr fun i _ => ?_
    split
    · next g e hc => exact absurd (all_eq_true.mp ho _ (mem_of_getElem? hc)) (by simp)
    · rfl
  rw [forEachLive, he, TextViewTable.forEachLive, hv]
  rfl

/-- The next object after such a compaction gets the reference of the first object ever. -/
theorem compaction_revives_reference :
    ∃ h₀ h, run 4096 [.alloc (.list [] 0)] = some h₀ ∧ h₀.isLiveReference ⟨0, 0⟩ = true ∧
      h₀.retires (.free ⟨0, 0⟩) ⟨0, 0⟩ = true ∧
      run 4096 ([.alloc (.list [] 0)] ++ .free ⟨0, 0⟩ :: [.compactLive [] true, .alloc (.list [] 1)]) = some h ∧
      h.tryGet ⟨0, 0⟩ = some (.list [] 1) ∧ ∀ view slot, freeCount view slot
        ([.alloc (.list [] 0)] ++ .free ⟨0, 0⟩ :: [.compactLive [] true, .alloc (.list [] 1)]) (new 4096) < 2 ^ 31 := by
  have hlive : (run 4096 [.alloc (.list [] 0)]).map (fun h => h.isLiveReference ⟨0, 0⟩) = some true := by
    decide +kernel
  have hempty : (run 4096 [.alloc (.list [] 0), .free ⟨0, 0⟩]).map (fun h =>
      (h.objects.cells.all fun c => c.item.isNone, h.textViews.table.cells, h.hostRoots, h.live, h.usedBytes)) =
      some (true, [], [], 0, 0) := by
    decide +kernel
  obtain ⟨h₀, hrun₀, hlive⟩ := map_eq_some_iff.mp hlive
  obtain ⟨h₁, hrun₁, hx⟩ := map_eq_some_iff.mp hempty
  simp only [Prod.mk.injEq] at hx
  obtain ⟨ho, hv, hr, hl, hu⟩ := hx
  have hc := compactLive_empty (forEachLive_nil ho hv) hr hl hu
  obtain ⟨h₂, hstep, hget⟩ : ∃ h₂, (h₁.compactLive [] true).2.step (.alloc (.list [] 1)) = some h₂ ∧
      h₂.tryGet ⟨0, 0⟩ = some (.list [] 1) := by
    obtain ⟨h₂, ha, he⟩ := alloc_first (h := (h₁.compactLive [] true).2) (by rw [hc]; rfl) (by rw [hc]; rfl) (.list [] 1)
    refine ⟨h₂, by rw [Heap.step, ha]; rfl, ?_⟩
    rw [tryGet, if_neg (by decide), he]
    rfl
  refine ⟨h₀, h₂, hrun₀, hlive, by simp [retires, HeapOp.kills], ?_, hget, fun view slot => ?_⟩
  · have hops : ([.alloc (.list [] 0)] ++ .free ⟨0, 0⟩ :: [.compactLive [] true, .alloc (.list [] 1)] : List HeapOp) =
        [.alloc (.list [] 0), .free ⟨0, 0⟩] ++ [.compactLive [] true, .alloc (.list [] 1)] := rfl
    have hlast : [HeapOp.compactLive [] true, .alloc (.list [] 1)].foldlM Heap.step h₁ = some h₂ := by
      rw [foldlM_cons]
      change (some (h₁.compactLive [] true).2).bind _ = _
      rw [bind_some, foldlM_cons, hstep]
      rfl
    rw [hops, run_append, hrun₁, bind_some, hlast]
  · exact lt_of_le_of_lt (freeCount_le_length view slot _ _) (by decide)

end Run

end Heap

end LoomV4
