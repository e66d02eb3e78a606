import LoomV4.Heap.Ops
import LoomV4.Heap.Views

/-!
What one operation does to the two tables, whatever it charges.
-/

namespace LoomV4

open Lib List Option SlotTable TextViewTable

namespace Heap

structure Tabled (h : Heap) : Prop where
  objects : h.objects.Formed pageSlots
  views : h.textViews.Rooted 0

theorem tabled_new (capBytes : ℕ) : (new capBytes).Tabled :=
  ⟨formed_empty _, rooted_empty⟩

section Alloc

variable {h h' : Heap}

theorem alloc_spec (ht : h.Tabled) (o : Object) : ∃ slot g objects, h.alloc o = some (⟨slot, g⟩, { h with
        objects
        sharedAllocations := (addSharedReferences o.sharedAllocation 1 h.sharedAllocations).2
        usedBytes := h.usedBytes + (o.heapBaseCost + (addSharedReferences o.sharedAllocation 1 h.sharedAllocations).1)
        live := h.live + 1 }) ∧
      SlotTable.Installed pageSlots (h.objects.room pageSlots) objects ⟨headerOf o, o⟩ slot g := by
  obtain ⟨slot, g, objects, hi, hI⟩ := install_spec ht.objects.room
    (spare_room pageSlots_pos ht.objects) ⟨headerOf o, o⟩
  refine ⟨slot, g, objects, ?_, hI⟩
  simp only [alloc, installEntry, hi]

theorem tryAlloc_cases (ht : h.Tabled) (o : Object) (unique host : Bool) :
    h.tryAlloc o unique host = some (none, h) ∨
      ∃ objects r h', (objects = h.objects ∨ objects = h.objects.addPage pageSlots) ∧
        h.tryAlloc o unique host = some (some r, h') ∧ alloc o { h with objects } = some (r, h') := by
  unfold tryAlloc
  split
  · exact .inl rfl
  · split
    · split
      · exact .inl rfl
      · next objects hp =>
        have ho : objects = h.objects.addPage pageSlots := by
          split at hp
          · unfold SlotTable.tryAddPage at hp
            split at hp
            · cases hp
            · exact (some.inj hp).symm
          · cases hp
        subst ho
        obtain ⟨slot, g, objects, ha, -⟩ := alloc_spec (h := { h with
          objects := h.objects.addPage pageSlots }) ⟨ht.objects.addPage, ht.views⟩ o
        exact .inr ⟨_, _, _, .inr rfl, by rw [ha, map_some], ha⟩
    · obtain ⟨slot, g, objects, ha, -⟩ := alloc_spec ht o
      exact .inr ⟨_, _, _, .inl rfl, by rw [ha, map_some], ha⟩

theorem alloc_entry {r : ObjRef} (ht : h.Tabled) {o : Object} (ha : h.alloc o = some (r, h')) :
    h'.entry r = some ⟨headerOf o, o⟩ := by
  obtain ⟨slot, g, objects, ha', hI⟩ := alloc_spec ht o
  rw [ha'] at ha
  cases ha
  exact find_eq_some.mpr hI.item

theorem tryAlloc_entry {r : ObjRef} (ht : h.Tabled) {o : Object} {unique host : Bool}
    (ha : h.tryAlloc o unique host = some (some r, h')) : h'.entry r = some ⟨headerOf o, o⟩ := by
  obtain hn | ⟨objects, r1, h1, ho, ht1, ha1⟩ := tryAlloc_cases ht o unique host
  · rw [hn] at ha
    cases ha
  · rw [ht1] at ha
    cases ha
    have hf : objects.Formed pageSlots := by
      cases ho with
      | inl he => exact he ▸ ht.objects
      | inr he => exact he ▸ ht.objects.addPage
    exact alloc_entry (h := { h with objects }) ⟨hf, ht.views⟩ ha1

theorem alloc_bump {o : Object} {r : ObjRef} (hf : h.objects.free = []) (ha : h.alloc o = some (r, h')) :
    r.slot = h.objects.slots % slotNumbers ∧ h'.objects.free = [] ∧ h'.objects.slots = h.objects.slots + 1 ∧
      h'.textViews = h.textViews := by
  obtain ⟨hs, hr⟩ := room_slots pageSlots h.objects
  unfold alloc installEntry at ha
  dsimp only at ha
  split at ha
  · next slot g objects hi =>
    cases ha
    obtain ⟨h1, h2, h3⟩ := install_bump (hr.trans hf) hi
    exact ⟨h1.trans (congrArg (· % slotNumbers) hs), h2, h3.trans (congrArg (· + 1) hs), rfl⟩
  · cases ha

theorem tryAlloc_bump (ht : h.Tabled) (hf : h.objects.free = []) {o : Object} {r : ObjRef} {unique host : Bool}
    (ha : h.tryAlloc o unique host = some (some r, h')) :
    r.slot = h.objects.slots % slotNumbers ∧ h'.objects.free = [] ∧ h'.objects.slots = h.objects.slots + 1 ∧
      h'.textViews = h.textViews := by
  obtain hn | ⟨objects, r1, h1, ho, ht1, ha1⟩ := tryAlloc_cases ht o unique host
  · rw [hn] at ha
    cases ha
  · rw [ht1] at ha
    cases ha
    cases ho with
    | inl he =>
      subst he
      exact alloc_bump hf ha1
    | inr he =>
      subst he
      exact alloc_bump (h := { h with objects := h.objects.addPage pageSlots }) hf ha1

structure Reserved (h h' : Heap) : Prop where
  objects : h'.objects.Formed pageSlots
  objectsLive : h'.objects.live = h.objects.live
  objectsKept : SlotTable.Kept pageSlots h.objects h'.objects
  objectsFull : h.objects.Full → h'.objects.Full
  numbered : h.objects.Numbered → h'.objects.Numbered
  table : h'.textViews.table.Formed pageSlots
  tableBound : h'.textViews.table.cells.length < slotNumbers
  tableLive : h'.textViews.table.live = h.textViews.table.live
  tableKept : SlotTable.Kept pageSlots h.textViews.table h'.textViews.table
  tableFull : h.textViews.table.Full → h'.textViews.table.Full
  rest : h' = { h with
    objects := h'.objects, textViews := { h.textViews with table := h'.textViews.table } }

theorem Reserved.refl (ht : h.Tabled) : Reserved h h :=
  ⟨ht.objects, rfl, SlotTable.Kept.refl _ _, id, id, ht.views.formed, ht.views.bound, rfl, SlotTable.Kept.refl _ _, id, rfl⟩

theorem reserved_addPage (ht : h.Tabled) : Reserved h { h with objects := h.objects.addPage pageSlots } :=
  ⟨ht.objects.addPage, live_addPage _ _, kept_addPage pageSlots_pos _,
    fun hf => hf.addPage ht.objects.slots_le, id, ht.views.formed, ht.views.bound, rfl, SlotTable.Kept.refl _ _, id,
    rfl⟩

theorem reserved_objects (ht : h.Tabled) (count host : ℕ) : Reserved h (h.reservePrechargedSlots count host).2 := by
  have hr := reserve_keeps (I := fun objects => objects.Formed pageSlots ∧
    objects.live = h.objects.live ∧ SlotTable.Kept pageSlots h.objects objects ∧ (h.objects.Full → objects.Full) ∧
      (h.objects.Numbered → objects.Numbered))
    (P := pageSlots) (t := h.objects) (by
      rintro t ⟨hf, hl, hk, hu, hn⟩
      exact ⟨hf.addPage, (live_addPage _ _).trans hl, hk.trans (kept_addPage pageSlots_pos _),
        fun h0 => (hu h0).addPage hf.slots_le, hn⟩)
    usizeMax count host ⟨ht.objects, rfl, SlotTable.Kept.refl _ _, id, id⟩
  exact ⟨hr.1, hr.2.1, hr.2.2.1, hr.2.2.2.1, hr.2.2.2.2, ht.views.formed, ht.views.bound, rfl,
    SlotTable.Kept.refl _ _, id, rfl⟩

theorem Reserved.tabled (hr : Reserved h h') (ht : h.Tabled) : h'.Tabled := by
  refine ⟨hr.objects, ht.views.of_table hr.table hr.tableBound ?_ ?_ ?_⟩
  · simp only [TextViewTable.used, hr.tableLive]
  · rw [hr.rest]
  · rw [hr.rest]

theorem Reserved.existingRoot (hr : Reserved h h') {r : ObjRef} {i : ℕ}
    (hi : h.textViews.existingRoot r = some i) : h'.textViews.existingRoot r = some i := by
  obtain ⟨e, held, he, rfl, ho⟩ := existingRoot_some hi
  obtain ⟨hf, hc⟩ := item_eq_some.mp he
  have he' : h'.textViews.item r = some e :=
    item_eq_some.mpr ⟨hf, hr.tableKept.live _ _ _ hc⟩
  have ho' : h'.textViews.root e.root = some held := by
    rw [hr.rest]
    exact ho
  simp only [TextViewTable.existingRoot, he', ho', map_some]

theorem Reserved.canInstallBatch (hr : Reserved h h') {b : TextViewBatch}
    (hc : h.textViews.canInstallBatch b = true) : h'.textViews.canInstallBatch b = true := by
  unfold TextViewTable.canInstallBatch at hc ⊢
  cases ho : b.owner with
  | new owner => rfl
  | existing r =>
    simp only [ho] at hc ⊢
    obtain ⟨i, hi⟩ := isSome_iff_exists.mp hc
    rw [hr.existingRoot hi]
    rfl

theorem Reserved.ownKey (hr : Reserved h h') {b : TextViewBatch} (hof : b.Of h)
    (hc : h.textViews.canInstallBatch b = true) : h'.textViews.OwnKey b := by
  unfold TextViewBatch.Of at hof
  unfold TextViewTable.canInstallBatch at hc
  unfold TextViewTable.OwnKey
  cases ho : b.owner with
  | new owner =>
    simp only [ho] at hof ⊢
    rw [hof]
  | existing r =>
    simp only [ho] at hof hc ⊢
    intro i hi
    obtain ⟨i0, hi0⟩ := isSome_iff_exists.mp hc
    obtain rfl : i0 = i := by
      rw [hr.existingRoot hi0] at hi
      exact some.inj hi
    obtain ⟨e, held, -, -, ht⟩ := existingRoot_some hi0
    rw [hof i0 held hi0 ht, keyOf, ownerOf, hr.rest]
    change _ = ((Option.map _ (h.textViews.root i0)).map _).getD 0
    rw [ht]
    rfl

theorem reserved_batch (ht : h.Tabled) (count : ℕ) (needsRoot hostRoots : Bool) (hostPages : ℕ) :
    Reserved h { h with
      textViews := (h.textViews.tryReserveBatch count needsRoot hostRoots hostPages).2 } := by
  obtain ⟨ok, table, hr, hf, hb, -, hl, hk, hu⟩ :=
    tryReserveBatch_spec ht.views count needsRoot hostRoots hostPages
  rw [hr]
  exact ⟨ht.objects, rfl, SlotTable.Kept.refl _ _, id, id, hf, hb, hl, hk, hu, rfl⟩

theorem Reserved.trans {h₁ h₂ h3 : Heap} (h12 : Reserved h₁ h₂) (h23 : Reserved h₂ h3) : Reserved h₁ h3 := by
  refine ⟨h23.objects, h23.objectsLive.trans h12.objectsLive, h12.objectsKept.trans h23.objectsKept,
    h23.objectsFull ∘ h12.objectsFull, h23.numbered ∘ h12.numbered, h23.table, h23.tableBound,
    h23.tableLive.trans h12.tableLive,
    h12.tableKept.trans h23.tableKept, h23.tableFull ∘ h12.tableFull, ?_⟩
  have h1 := h12.rest
  have h2 := h23.rest
  rw [h1] at h2
  exact h2

def withBatch (b : TextViewBatch) (textViews : TextViewTable) (h : Heap) : Heap :=
  let shared := addSharedReferences b.sharedAllocation b.views.length h.sharedAllocations
  { h with
    sharedAllocations := shared.2
    textViews
    usedBytes := h.usedBytes + (b.views.length * minObjectCost + shared.1)
    live := h.live + b.views.length }

theorem tryAllocTextViewList_cases (ht : h.Tabled) (b : TextViewBatch) (host : BatchHost) :
    (∃ h1, Reserved h h1 ∧ h.tryAllocTextViewList b host = some (none, h1)) ∨
      ∃ h1 values textViews r h', Reserved h h1 ∧ h.textViews.canInstallBatch b = true ∧
        TextViewTable.Batched b h1.textViews textViews ∧ h.tryAllocTextViewList b host = some (some r, h') ∧
        alloc (.list values 0) (h1.withBatch b textViews) = some (r, h') := by
  have hs := Reserved.refl ht
  unfold tryAllocTextViewList
  dsimp only
  split
  · exact .inl ⟨h, hs, rfl⟩
  · split
    · exact .inl ⟨h, hs, rfl⟩
    · next hc =>
      have hc : h.textViews.canInstallBatch b = true := by simpa using hc
      split
      · exact .inl ⟨h, hs, rfl⟩
      · have hr1 := reserved_objects ht 1 host.objectPages
        generalize h.reservePrechargedSlots 1 host.objectPages = p at hr1
        obtain ⟨ok, h1⟩ := p
        dsimp only at hr1 ⊢
        split
        · exact .inl ⟨h1, hr1, rfl⟩
        · have hr2 := hr1.trans (reserved_batch (hr1.tabled ht) b.views.length b.needsNewOwner host.roots
            host.viewPages)
          have ha := tryReserveBatch_available (hr1.tabled ht).views b.views.length b.needsNewOwner host.roots
            host.viewPages
          generalize h1.textViews.tryReserveBatch b.views.length b.needsNewOwner host.roots
            host.viewPages = q at hr2 ha
          obtain ⟨ok, textViews⟩ := q
          dsimp only at hr2 ha ⊢
          split
          · exact .inl ⟨_, hr2, rfl⟩
          · next hok =>
            obtain ⟨values, textViews', hi, hB⟩ := installBatch_spec (hr2.tabled ht).views (hr2.canInstallBatch hc)
              (ha (by simpa using hok))
            dsimp only at hi hB
            obtain ⟨slot, g, objects, ha, -⟩ := alloc_spec (h := withBatch b textViews'
              { h1 with textViews }) ⟨hr2.objects, hB.rooted⟩ (.list values 0)
            refine .inr ⟨{ h1 with textViews }, values, textViews', _, _, hr2, hc, hB, ?_, ha⟩
            simp only [hi]
            exact congrArg (Option.map _) ha

end Alloc

end Heap

namespace ObjectSweep

variable {s s' : ObjectSweep} {keep : ObjRef → Bool} {n : ℕ}

def without (s : ObjectSweep) (r : ObjRef) (e : LiveEntry) (objects : SlotTable LiveEntry) : ObjectSweep :=
  { s with
    heap := Heap.dropDigest r { s.heap with objects }
    freedBytes := s.freedBytes + e.header.bytes
    freed := s.freed + 1 }

theorem flush_heap (h : s.flush = some s') : ∃ l, s'.heap = { s.heap with sharedAllocations := l } := by
  unfold flush at h
  split at h
  · cases h
    exact ⟨_, rfl⟩
  · split at h
    · cases h
    · cases h
      exact ⟨_, rfl⟩

theorem note_heap {shared : Option ℕ} (h : s.note shared = some s') :
    ∃ l, s'.heap = { s.heap with sharedAllocations := l } := by
  unfold note at h
  split at h
  · cases h
    exact ⟨_, rfl⟩
  · split at h
    · cases h
      exact ⟨_, rfl⟩
    · split at h
      · cases h
        exact ⟨_, rfl⟩
      · obtain ⟨s1, hs1, rfl⟩ := map_eq_some_iff.mp h
        obtain ⟨l, hl⟩ := flush_heap hs1
        exact ⟨l, hl⟩

theorem slot_cases (h : s.heap.objects.Formed pageSlots) (keep : ObjRef → Bool) (n : ℕ) : s.slot keep n = some s ∧
        (∀ g e, s.heap.objects.cells[n]? = some ⟨g, some e⟩ → keep ⟨n, g⟩ = true) ∨
      ∃ g e objects, SlotTable.Killed pageSlots generationLimit s.heap.objects objects e n g ∧
        keep ⟨n, g⟩ = false ∧ s.slot keep n = note e.header.shared (s.without ⟨n, g⟩ e objects) := by
  unfold slot
  split
  · next g e hc =>
    split
    · next hk =>
      refine .inl ⟨rfl, ?_⟩
      intro g' a ha
      rw [hc] at ha
      cases ha
      exact hk
    · next hk =>
      obtain ⟨objects, hi, hK⟩ := kill_spec (M := generationLimit) h hc
      refine .inr ⟨g, e, objects, hK, Bool.eq_false_iff.mpr hk, ?_⟩
      simp only [hi, without]
  · next hc => exact .inl ⟨rfl, fun g a ha => absurd ha (hc g a)⟩

structure Swept (keep : ObjRef → Bool) (n : ℕ) (h : Heap) (s : ObjectSweep) : Prop where
  objects : SlotTable.Swept pageSlots generationLimit (fun slot g => keep ⟨slot, g⟩) n h.objects s.heap.objects
  rest : s.heap = { h with
    objects := s.heap.objects
    collections := s.heap.collections
    digests := s.heap.digests
    sharedAllocations := s.heap.sharedAllocations }

variable {h : Heap}

theorem Swept.ledger (hs : Swept keep n h s) (hl : ∃ l, s'.heap = { s.heap with sharedAllocations := l }) :
    Swept keep n h s' := by
  obtain ⟨l, hl⟩ := hl
  refine ⟨by rw [hl]; exact hs.objects, ?_⟩
  rw [hl, hs.rest]

theorem Swept.slot (hs : Swept keep n h s) (hl : s.slot keep n = some s') : Swept keep (n + 1) h s' := by
  obtain ⟨he, hk⟩ | ⟨g, e, objects, hK, hk, he⟩ := slot_cases hs.objects.formed keep n
  · rw [he] at hl
    cases hl
    exact ⟨hs.objects.skip hk, hs.rest⟩
  · rw [he] at hl
    refine Swept.ledger ⟨hs.objects.kill hK hk, ?_⟩ (note_heap hl)
    have hr := hs.rest
    simp only [without, Heap.dropDigest]
    rw [hr]

end ObjectSweep

namespace Heap

variable {h h' : Heap} {keep : ObjRef → Bool}

theorem sweep_objects {s : ObjectSweep} (ht : h.Tabled)
    (hs : (List.range h.objects.cells.length).foldlM (ObjectSweep.slot keep)
      { heap := { h with collections := h.collections + 1 } } = some s) :
    s.Swept keep h.objects.cells.length h :=
  foldlM_range_some (I := fun n s => ObjectSweep.Swept keep n h s) h.objects.cells.length
    (fun _ _ _ hI he => hI.slot he) ⟨SlotTable.Swept.refl ht.objects, rfl⟩ hs

theorem sweep_tables (ht : h.Tabled) (hs : h.sweep keep = some h') :
    SlotTable.Swept pageSlots generationLimit (fun slot g => keep ⟨slot, g⟩) h.objects.cells.length
        h.objects h'.objects ∧ TextViewTable.ViewSwept keep h.textViews.table.cells.length
        { h.textViews with live := h'.textViews.live } h'.textViews := by
  unfold sweep at hs
  dsimp only at hs
  split at hs
  · cases hs
  · next s ho =>
    have hO := sweep_objects ht ho
    split at hs
    · cases hs
    · next s' hf =>
      have hO' := hO.ledger (ObjectSweep.flush_heap hf)
      have hi : s'.heap.textViews = h.textViews := by rw [hO'.rest]
      split at hs
      · cases hs
      · next textViews objects bytes l hv =>
        rw [hi] at hv
        split at hs
        · cases hs
        · cases hs
          exact ⟨hO'.objects, sweep_swept ht.views hv⟩

section Trim

theorem trim_slots (ht : h.Tabled) : h.trimFreePages.objects.slots ≤ (h.objects.dropPages pageSlots).cells.length ∧
      (h.objects.slots ≤ h.trimFreePages.objects.slots ∨
        h.trimFreePages.objects.slots = (h.objects.dropPages pageSlots).cells.length) := by
  have hl := length_dropPages ht.objects
  have hp : (h.objects.dropPages pageSlots).pages pageSlots * pageSlots =
      (h.objects.dropPages pageSlots).cells.length := by
    rw [SlotTable.pages, hl, Nat.mul_div_cancel _ pageSlots_pos]
  simp only [trimFreePages, SlotTable.setSlots]
  split
  · rw [hp]
    exact ⟨le_rfl, .inr rfl⟩
  · next he =>
    have he := not_not.mp he
    refine ⟨?_, .inl le_rfl⟩
    rw [← hp, he, SlotTable.pages, Nat.div_mul_cancel ht.objects.paged]
    exact ht.objects.slots_le

theorem Tabled.trimFreePages (ht : h.Tabled) : h.trimFreePages.Tabled :=
  ⟨ht.objects.trim (trim_slots ht).1 (trim_slots ht).2, ht.views.trimFreePages⟩

end Trim

section Compact

variable {mapping : List (ObjRef × ObjRef)} {c c' : Heap}
  {x : ObjRef × Bool × Object}

theorem compactLive_cases (h : Heap) (roots : List ObjRef) (host : Bool) :
    (∃ e, h.compactLive roots host = (.error e, h)) ∨ ∃ mappedRoots compacted hostRoots,
      h.forEachLive.length ≤ slotNumbers ∧
        h.forEachLive.foldlM (h.compactOne h.compactMapping) (new h.capBytes) = .ok compacted ∧
        compacted.live = h.live ∧ compacted.usedBytes = h.usedBytes ∧
        mapRoots h.compactMapping roots = some mappedRoots ∧
        h.compactLive roots host = (.ok mappedRoots, setNextCollectionThreshold { h with
          objects := compacted.objects
          hostRoots
          digests := compacted.digests
          sharedAllocations := compacted.sharedAllocations
          textViews := compacted.textViews }) := by
  unfold compactLive
  split
  · exact .inl ⟨_, rfl⟩
  · next hn =>
    have hn : h.forEachLive.length ≤ slotNumbers := by
      push Not at hn
      exact hn.2
    dsimp only
    split
    · next hr _ =>
      split
      · exact .inl ⟨_, rfl⟩
      · next compacted hf =>
        split
        · exact .inl ⟨_, rfl⟩
        · next hs =>
          push Not at hs
          exact .inr ⟨_, compacted, _, hn, hf, hs.1, hs.2, hr, rfl⟩
    · exact .inl ⟨_, rfl⟩

theorem compactOne_ok (hok : h.compactOne mapping c x = .ok c') :
    ∃ object expected g c1, h.tryCloneObject x.1 = some object ∧ mapped mapping x.1 = some expected ∧
      c.tryAlloc (object.cloneRemapped fun child => (mapped mapping child).getD child) false true =
        some (some ⟨expected.slot, g⟩, c1) ∧
      (c' = { c1 with objects := c1.objects.setGeneration expected.slot expected.generation } ∨
        setFrozen expected { c1 with
          objects := c1.objects.setGeneration expected.slot expected.generation } = some c') := by
  unfold compactOne at hok
  split at hok
  · next object expected ho hm =>
    split at hok
    · cases hok
    · split at hok
      · next r c1 ha =>
        split at hok
        · cases hok
        · next hs =>
          have hs := not_not.mp hs
          refine ⟨object, expected, r.generation, c1, ho, hm, by rw [ha, ← hs], ?_⟩
          rw [hs] at hok
          dsimp only at hok
          split at hok
          · split at hok
            · next c2 hf =>
              cases hok
              exact .inr hf
            · cases hok
          · cases hok
            exact .inl rfl
      · cases hok
  · cases hok

end Compact

section Write

variable {r : ObjRef}

variable {e : LiveEntry}

theorem entry_eq_some {r : ObjRef} : h.entry r = some e ↔ h.objects.cells[r.slot]? = some ⟨r.generation, some e⟩ :=
  find_eq_some

theorem isLiveReference_iff {r : ObjRef} (ht : h.Tabled) : h.isLiveReference r = true ↔
    (∃ e, h.textViews.item r = some e) ∨ isReference r = false ∧ ∃ e, h.entry r = some e := by
  unfold isLiveReference
  split
  · next hr =>
    constructor
    · intro hs
      obtain ⟨span, hg⟩ := isSome_iff_exists.mp hs
      unfold TextViewTable.get at hg
      split at hg
      · next e he => exact .inl ⟨e, he⟩
      · cases hg
    · rintro (⟨e, he⟩ | ⟨hn, -⟩)
      · have hm : e.root ∈ h.textViews.used + 0 := by
          rw [add_zero]
          exact Multiset.mem_map_of_mem _ (mem_live.mpr ⟨_, _, (item_eq_some.mp he).2⟩)
        obtain ⟨held, ho⟩ := ht.views.exists_root hm
        simp [TextViewTable.get, he, ho]
      · rw [hr] at hn
        cases hn
  · next hr =>
    have hr : isReference r = false := by simpa using hr
    constructor
    · intro hs
      refine .inr ⟨hr, ?_⟩
      simp only [tryGet, hr, Bool.false_eq_true, if_false, isSome_map] at hs
      exact isSome_iff_exists.mp hs
    · rintro (⟨e, he⟩ | ⟨-, e, he⟩)
      · rw [(item_eq_some.mp he).1] at hr
        cases hr
      · simp [tryGet, hr, he]

def withEntry (h : Heap) (r : ObjRef) (e : LiveEntry) : Heap :=
  { h with objects := { h.objects with cells := h.objects.cells.set r.slot ⟨r.generation, some e⟩ } }

theorem setObject_eq (hr : h.entry r = some e) (o : Object) :
    h.setObject r o = some (h.withEntry r { e with object := o }) := by
  simp only [setObject, hr, put_eq (entry_eq_some.mp hr), withEntry]

theorem setHeader_eq (hr : h.entry r = some e) (header : Header) :
    h.setHeader r header = some (h.withEntry r { e with header }) := by
  simp only [setHeader, hr, put_eq (entry_eq_some.mp hr), withEntry]

theorem entry_withEntry (hr : h.entry r = some e) (e' : LiveEntry) : (h.withEntry r e').entry r = some e' := by
  rw [entry_eq_some, withEntry, SlotTable.getElem?_set_cell (entry_eq_some.mp hr), if_pos rfl]

def recharged (h : Heap) (r : ObjRef) (e : LiveEntry) (l : Ledger ℕ) (usedBytes : ℕ) : Heap :=
  { h.withEntry r e with sharedAllocations := l, usedBytes }

theorem recharged_withEntry (e e' : LiveEntry) (l : Ledger ℕ) (n : ℕ) :
    (h.withEntry r e).recharged r e' l n = h.recharged r e' l n := by
  simp only [recharged, withEntry, set_set]

theorem recharge_eq {l : Ledger ℕ} {released added : ℕ} (hr : h.entry r = some e)
    (hl : rechargeShared e.header.shared e.object.sharedAllocation h.sharedAllocations = some (released, added, l))
    (hle : e.header.bytes + released ≤ h.usedBytes) :
    h.recharge r = some (h.recharged r ⟨⟨e.header.frozen, e.object.heapBaseCost,
      e.object.sharedAllocation.map Prod.fst⟩, e.object⟩ l
      (h.usedBytes - e.header.bytes - released + e.object.heapBaseCost + added)) := by
  unfold recharge
  simp only [hr, hl]
  rw [if_neg (by omega)]
  refine setHeader_eq ?_ _
  exact hr

theorem rechargeLocal_eq (hr : h.entry r = some e) (hle : e.header.bytes ≤ h.usedBytes) :
    h.rechargeLocal r = some (h.recharged r ⟨{ e.header with bytes := e.object.heapBaseCost }, e.object⟩
      h.sharedAllocations (h.usedBytes - e.header.bytes + e.object.heapBaseCost)) := by
  unfold rechargeLocal
  simp only [hr]
  rw [if_neg (by omega)]
  refine setHeader_eq ?_ _
  exact hr

theorem Tabled.withEntry (ht : h.Tabled) (hr : h.entry r = some e) (e' : LiveEntry) : (h.withEntry r e').Tabled :=
  ⟨ht.objects.replace (entry_eq_some.mp hr) e', ht.views⟩

theorem setFrozen_cases {h' : Heap} (hs : h.setFrozen r = some h') : h' = h ∨ ∃ e, h.entry r = some e ∧
      h' = h.withEntry r { e with header := { e.header with frozen := true } } := by
  unfold Heap.setFrozen at hs
  split at hs
  · split at hs
    · exact .inl (some.inj hs).symm
    · cases hs
  · split at hs
    · cases hs
    · next e he =>
      rw [setHeader_eq he] at hs
      exact .inr ⟨e, he, (some.inj hs).symm⟩

/-- The compacted heap takes its slots from the bump pointer only, and they all have a number. -/
theorem compacted_keeps {I : Heap → Prop} {c : Heap} (hT : ∀ c, I c → c.Tabled)
    (step : ∀ c c' x, c.objects.Numbered → I c → h.compactOne h.compactMapping c x = .ok c' → I c')
    (h0 : I (new h.capBytes)) (hl : h.forEachLive.length ≤ slotNumbers)
    (hf : h.forEachLive.foldlM (h.compactOne h.compactMapping) (new h.capBytes) = .ok c) : I c := by
  refine (foldlM_ok (I := fun rest c => c.objects.slots + rest.length = h.forEachLive.length ∧
    c.objects.free = [] ∧ I c) ?_ h.forEachLive ⟨Nat.zero_add _, rfl, h0⟩ hf).2.2
  rintro x rest c c' ⟨hs, he, hi⟩ hok
  rw [length_cons] at hs
  refine ⟨?_, ?_, step c c' x (fun _ => by omega) hi hok⟩
  all_goals
    obtain ⟨object, expected, g, c1, -, -, ha, hc⟩ := compactOne_ok hok
    obtain ⟨-, hr, hb, -⟩ := tryAlloc_bump (hT c hi) he ha
    obtain ⟨h1, h2⟩ : c'.objects.slots = c1.objects.slots ∧ c'.objects.free = c1.objects.free := by
      cases hc with
      | inl hc => exact hc ▸ ⟨rfl, rfl⟩
      | inr hc =>
        obtain hc | ⟨e, -, hc⟩ := setFrozen_cases hc <;> exact hc ▸ ⟨rfl, rfl⟩
  · omega
  · rw [h2, hr]

theorem recharge_cases (hr : h.entry r = some e) (hs : h.recharge r = some h') :
    ∃ header l n, header.frozen = e.header.frozen ∧ h' = h.recharged r ⟨header, e.object⟩ l n := by
  cases hl : rechargeShared e.header.shared e.object.sharedAllocation h.sharedAllocations with
  | none => simp [recharge, hr, hl] at hs
  | some p =>
    obtain ⟨released, added, l⟩ := p
    by_cases hle : e.header.bytes + released ≤ h.usedBytes
    · rw [recharge_eq hr hl hle] at hs
      refine ⟨_, _, _, ?_, (some.inj hs).symm⟩
      rfl
    · simp [recharge, hr, hl, if_pos (not_le.mp hle)] at hs

theorem rechargeLocal_cases (hr : h.entry r = some e) (hs : h.rechargeLocal r = some h') :
    ∃ header l n, header.frozen = e.header.frozen ∧ h' = h.recharged r ⟨header, e.object⟩ l n := by
  by_cases hle : e.header.bytes ≤ h.usedBytes
  · rw [rechargeLocal_eq hr hle] at hs
    refine ⟨_, _, _, ?_, (some.inj hs).symm⟩
    rfl
  · simp [rechargeLocal, hr, if_pos (not_le.mp hle)] at hs

theorem write_cases {o : Object} {charge : Heap → Option Heap}
    (hc : ∀ (h h' : Heap) (e : LiveEntry), h.entry r = some e → charge h = some h' →
      ∃ header l n, header.frozen = e.header.frozen ∧ h' = h.recharged r ⟨header, e.object⟩ l n)
    (hs : (h.setObject r o).bind charge = some h') :
    ∃ e header l n, h.entry r = some e ∧ header.frozen = e.header.frozen ∧ h' = h.recharged r ⟨header, o⟩ l n := by
  obtain ⟨h1, ht, hr⟩ := bind_eq_some_iff.mp hs
  cases he : h.entry r with
  | none => simp [setObject, he] at ht
  | some e =>
    rw [setObject_eq he] at ht
    cases ht
    obtain ⟨header, l, n, hf, rfl⟩ := hc _ _ _ (entry_withEntry he _) hr
    exact ⟨e, header, l, n, rfl, hf, recharged_withEntry _ _ _ _⟩

end Write

end Heap

end LoomV4
