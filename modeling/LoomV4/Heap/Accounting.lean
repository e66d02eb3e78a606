import LoomV4.Heap.Charges

/-!
The byte ledger over whole runs, in terms of what `for_each_live` visits.
-/

namespace LoomV4

open Lib List Option TextViewTable

theorem filterMap_range_getElem? {α β : Type} (l : List α) (f : α → Option β) :
    (List.range l.length).filterMap (fun i => l[i]?.bind f) = l.filterMap f := by
  have hl : (List.range l.length).map (fun i => l[i]?) = l.map some := by
    refine ext_getElem (by simp) ?_
    intro i h1 h2
    simp at h1
    simp [h1]
  have hr : (List.range l.length).filterMap (fun i => l[i]?.bind f) =
      ((List.range l.length).map fun i => l[i]?).filterMap (fun x => x.bind f) := by
    rw [filterMap_map]
    rfl
  rw [hr, hl, filterMap_map]
  rfl

namespace TextViewTable

variable {t : TextViewTable}

def spanOf (t : TextViewTable) (e : TextViewItem) : Span :=
  ⟨(t.ownerOf e.root).getD ⟨0, 0, []⟩, e.view.start, e.view.len⟩

theorem forEachLive_spans (h : Rooted 0 t) :
    ((t.forEachLive.map Prod.snd : List Span) : Multiset Span) = t.table.live.map t.spanOf := by
  have ho : ∀ c ∈ t.table.cells, (c.item.bind fun e => (t.root e.root).map fun root =>
      (⟨root.owner, e.view.start, e.view.len⟩ : Span)) = c.item.map t.spanOf := by
    intro c hc
    cases hi : c.item with
    | none => rfl
    | some e =>
      have hm : e.root ∈ t.used + 0 := by
        rw [add_zero]
        exact Multiset.mem_map_of_mem _ (mem_filterMap.mpr ⟨c, hc, hi⟩)
      obtain ⟨held, hr⟩ := h.exists_root hm
      simp [spanOf, ownerOf, hr]
  have hl : t.forEachLive.map Prod.snd = t.table.cells.filterMap (fun c => c.item.map t.spanOf) := by
    rw [← filterMap_congr ho, ← filterMap_range_getElem?, forEachLive, map_filterMap]
    refine filterMap_congr fun i _ => ?_
    cases t.table.cells[i]? with
    | none => rfl
    | some c =>
      obtain ⟨g, item⟩ := c
      cases item with
      | none => rfl
      | some e => simp [Function.comp_def]
  rw [hl, SlotTable.live, Multiset.map_coe, map_filterMap]

end TextViewTable

namespace Heap

variable {capacity : ℕ → ℕ} {h : Heap}

def liveObjects (h : Heap) : Multiset Object := ((h.forEachLive.map (fun x => x.2.2) : List Object) : Multiset Object)

theorem liveEntries_eq (h : Heap) :
    ((h.liveEntries.map Prod.snd : List LiveEntry) : Multiset LiveEntry) = h.objects.live := by
  rw [SlotTable.live, ← filterMap_range_getElem?, liveEntries, map_filterMap]
  refine congrArg _ (filterMap_congr fun i _ => ?_)
  cases h.objects.cells[i]? with
  | none => rfl
  | some c =>
    obtain ⟨g, item⟩ := c
    cases item <;> rfl

theorem liveObjects_eq (ht : h.Tabled) : h.liveObjects = h.objects.live.map LiveEntry.object +
    h.textViews.table.live.map (fun e => Object.substring (h.textViews.spanOf e)) := by
  have ho := congrArg (Multiset.map LiveEntry.object) (liveEntries_eq h)
  have hv := congrArg (Multiset.map Object.substring) (forEachLive_spans ht.views)
  rw [Multiset.map_coe, List.map_map] at ho
  rw [Multiset.map_coe, Multiset.map_map, List.map_map] at hv
  rw [liveObjects, forEachLive, map_append, List.map_map, List.map_map, ← Multiset.coe_add]
  exact congrArg₂ (· + ·) ho hv

def shared (h : Heap) : Multiset (ℕ × ℕ) := h.liveObjects.filterMap Object.sharedAllocation

theorem Charged.sharedAllocation {e : LiveEntry} (hc : e.Charged capacity) :
    e.object.sharedAllocation = e.header.shared.map (fun key => (key, capacity key)) := by
  rw [hc.shared]
  cases hs : e.object.sharedAllocation with
  | none => rfl
  | some p => rw [map_some, map_some, ← hc.agrees p.1 p.2 hs]

theorem Balanced.shared_eq (hb : h.Balanced capacity) :
    h.shared = (objectKeys h.objects.live + h.textViews.keys).map (fun key => (key, capacity key)) := by
  rw [shared, liveObjects_eq hb.tabled, Multiset.filterMap_add, Multiset.map_add]
  congr 1
  · rw [objectKeys, Multiset.map_filterMap, Multiset.filterMap_map]
    have hc := hb.charged
    generalize h.objects.live = m at hc
    induction m using Quotient.inductionOn with
    | h l => exact congrArg _ (filterMap_congr fun e he => Charged.sharedAllocation (hc e he))
  · rw [TextViewTable.keys, TextViewTable.used, Multiset.map_map, Multiset.map_map, Multiset.filterMap_map,
      ← Multiset.filterMap_eq_map]
    have ho := hb.owners
    have hr : ∀ e ∈ h.textViews.table.live, ∃ o, h.textViews.ownerOf e.root = some o := by
      intro e he
      have hm : e.root ∈ h.textViews.used + 0 := by
        rw [add_zero]
        exact Multiset.mem_map_of_mem _ he
      obtain ⟨held, ht⟩ := hb.tabled.views.exists_root hm
      exact ⟨held.owner, by rw [ownerOf, ht]; rfl⟩
    rw [TextViewTable.used] at ho
    generalize h.textViews.table.live = m at ho hr
    induction m using Quotient.inductionOn with
    | h l =>
      refine congrArg _ (filterMap_congr fun e he => ?_)
      obtain ⟨o, hw⟩ := hr e he
      have ha := ho e.root (Multiset.mem_map_of_mem _ he) o hw
      simp [spanOf, keyOf, hw, Object.sharedAllocation, Span.allocationKey, Span.retainedCapacity, ha]

/-- One allocation has one capacity: what a new holder says is what the live holders say. -/
def OneCapacity (h : Heap) (shared : Option (ℕ × ℕ)) : Prop :=
  ∀ key size size', shared = some (key, size) → (key, size') ∈ h.shared → size' = size

theorem Balanced.recapacity (hb : h.Balanced capacity) {key : ℕ} (size : ℕ)
    (hn : key ∉ objectKeys h.objects.live + h.textViews.keys) : h.Balanced (Function.update capacity key size) := by
  have ha : ∀ k ∈ objectKeys h.objects.live + h.textViews.keys, Function.update capacity key size k = capacity k := by
    intro k hk
    refine Function.update_of_ne ?_ _ _
    rintro rfl
    exact hn hk
  refine ⟨hb.tabled, ?_, ?_, hb.viewsLive, hb.ledger, ?_, hb.used, hb.live⟩
  · intro e he
    have hc := hb.charged e he
    refine ⟨hc.bytes, hc.shared, fun k s hs => ?_⟩
    rw [ha k, hc.agrees k s hs]
    refine Multiset.mem_add.mpr (.inl ((Multiset.mem_filterMap _ _).mpr ⟨e, he, ?_⟩))
    rw [hc.shared, hs]
    rfl
  · intro i hi o ho
    rw [ha o.key, hb.owners i hi o ho]
    refine Multiset.mem_add.mpr (.inr (Multiset.mem_map.mpr ⟨i, hi, ?_⟩))
    rw [keyOf, ho]
    rfl
  · intro k c hc
    rw [ha k, hb.sized k c hc]
    have hu := hb.ledger.count k
    rw [hc, map_some, getD_some] at hu
    exact Multiset.count_pos.mp (hu ▸ hb.ledger.held k c hc)

theorem Balanced.agree (hb : h.Balanced capacity) {shared : Option (ℕ × ℕ)} (ho : h.OneCapacity shared) :
    ∃ capacity', h.Balanced capacity' ∧ ∀ key size, shared = some (key, size) → size = capacity' key := by
  cases shared with
  | none =>
    refine ⟨capacity, hb, ?_⟩
    intro _ _ hn
    cases hn
  | some p =>
    obtain ⟨key, size⟩ := p
    by_cases hk : key ∈ objectKeys h.objects.live + h.textViews.keys
    · refine ⟨capacity, hb, ?_⟩
      rintro _ _ ⟨⟩
      refine (ho key size (capacity key) rfl ?_).symm
      rw [hb.shared_eq]
      exact Multiset.mem_map_of_mem _ hk
    · refine ⟨_, hb.recapacity size hk, ?_⟩
      rintro _ _ ⟨⟩
      exact (Function.update_self key size capacity).symm

/-- A caller keeps the contract of the operation and reports one capacity for each allocation. An
instance that holds its charge already is not part of this ledger. -/
def Chargeable (h : Heap) (op : HeapOp) : Prop :=
  h.Allowed op ∧
    match op with
    | .alloc o => h.OneCapacity o.sharedAllocation
    | .tryAlloc o _ _ => h.OneCapacity o.sharedAllocation
    | .mutate _ o => h.OneCapacity o.sharedAllocation
    | .tryAllocTextViewList b _ => h.OneCapacity (some b.allocation)
    | .materializePrechargedInstance .. => False
    | _ => True

section

variable (hb : h.Balanced capacity)

include hb

theorem Balanced.hostRoots (hostRoots : List ObjRef) : ({ h with hostRoots } : Heap).Balanced capacity :=
  ⟨⟨hb.tabled.objects, hb.tabled.views⟩, hb.charged, hb.owners, hb.viewsLive, hb.ledger, hb.sized, hb.used, hb.live⟩

theorem Balanced.tryAllocTextViewList (hm : h.objects.Numbered) {b : TextViewBatch} (hof : b.Of h)
    (hi : b.allocation.2 = capacity b.allocation.1) (host : BatchHost) :
    ∃ r h', h.tryAllocTextViewList b host = some (r, h') ∧ h'.Balanced capacity := by
  obtain ⟨h1, hr, he⟩ | ⟨h1, values, textViews, r, h', hr, hc, hB, he, ha⟩ :=
    tryAllocTextViewList_cases hb.tabled b host
  · exact ⟨none, h1, he, hr.balanced hb⟩
  · have hn : ∀ owner, b.owner = .new owner → owner.capacity = capacity owner.key := by
      intro owner ho
      simp only [TextViewBatch.Of, ho] at hof
      rw [hof] at hi
      exact hi
    have hl : (Object.list values 0).Agrees capacity := by
      intro _ _ hs
      cases hs
    obtain ⟨r', h'', ha', hb'⟩ :=
      ((hr.balanced hb).withBatch hB (hr.ownKey hof hc) hi hn).alloc (hr.numbered hm) hl
    rw [ha] at ha'
    cases ha'
    exact ⟨some r, h', he, hb'⟩

theorem Balanced.step {op : HeapOp} (hop : h.Chargeable op) (hm : h.Numbered op) :
    ∃ h', h.step op = some h' ∧ ∃ capacity', h'.Balanced capacity' := by
  obtain ⟨hl, hn⟩ := hop
  cases op with
  | alloc o =>
    obtain ⟨cap, hb, ho⟩ := hb.agree hn
    obtain ⟨r, h', ha, hb'⟩ := hb.alloc hm ho
    exact ⟨h', by rw [Heap.step, ha]; rfl, cap, hb'⟩
  | tryAlloc o unique host =>
    obtain ⟨cap, hb, ho⟩ := hb.agree hn
    obtain ⟨r, h', ha, hb'⟩ := hb.tryAlloc hm ho unique host
    exact ⟨h', by rw [Heap.step, ha]; rfl, cap, hb'⟩
  | tryAllocTextViewList b host =>
    obtain ⟨cap, hb, ho⟩ := hb.agree hn
    obtain ⟨r, h', ha, hb'⟩ := hb.tryAllocTextViewList hm hl (ho _ _ rfl) host
    exact ⟨h', by rw [Heap.step, ha]; rfl, cap, hb'⟩
  | free r =>
    obtain ⟨h', hf, hb'⟩ := hb.free hl
    exact ⟨h', hf, capacity, hb'⟩
  | sweep keep =>
    obtain ⟨h', hs, hb'⟩ := hb.sweep keep
    exact ⟨h', hs, capacity, hb'⟩
  | trimFreePages => exact ⟨_, rfl, capacity, hb.trimFreePages⟩
  | compactLive roots host => exact ⟨_, rfl, capacity, hb.compactLive roots host⟩
  | mutate r o =>
    obtain ⟨cap, hb, ho⟩ := hb.agree hn
    obtain ⟨h', hm, hb'⟩ := hb.mutate hl ho
    exact ⟨h', hm, cap, hb'⟩
  | mutateLocal r o =>
    obtain ⟨⟨e, he, hs⟩, ho⟩ := hl
    obtain ⟨h', hm, hb'⟩ := hb.mutateLocal he hs ho
    exact ⟨h', hm, capacity, hb'⟩
  | setFrozen r =>
    obtain ⟨h', hf⟩ := exists_setFrozen hl
    exact ⟨h', hf, capacity, hb.setFrozen hf⟩
  | pushHostRoot r => exact ⟨_, rfl, capacity, hb.hostRoots _⟩
  | popHostRoot r =>
    obtain ⟨hostRoots, hr⟩ := head?_eq_some_iff.mp hl
    exact ⟨{ h with hostRoots }, by simp [Heap.step, Heap.popHostRoot, hr], capacity, hb.hostRoots _⟩
  | reservePrechargedSlots count host =>
    exact ⟨_, rfl, capacity, (reserved_objects hb.tabled count host).balanced hb⟩
  | materializePrechargedInstance cls fields env frozen => exact absurd hn id

theorem Balanced.total_shared : h.sharedAllocations.total = ∑ p ∈ h.shared.toFinset, p.2 := by
  rw [hb.ledger.total_eq hb.sized, hb.shared_eq, Multiset.toFinset_map,
    Finset.sum_image fun k _ k' _ he => congrArg Prod.fst he]

end

/-- The counters of the heap say what its two tables hold. -/
structure ExactLedger (h : Heap) : Prop where
  used : h.usedBytes = (h.liveEntries.map fun x => x.2.header.bytes).sum +
    h.textViews.forEachLive.length * minObjectCost + ∑ p ∈ h.shared.toFinset, p.2
  charged : ∀ x ∈ h.liveEntries, x.2.header.bytes = x.2.object.heapBaseCost
  references : ∀ key, ((h.sharedAllocations.lookup key).map Charge.references).getD 0 =
    (h.shared.map Prod.fst).count key
  live : h.live = h.liveEntries.length + h.textViews.forEachLive.length

theorem Balanced.exactLedger (hb : h.Balanced capacity) : h.ExactLedger := by
  have ho := liveEntries_eq h
  have hv : h.textViews.forEachLive.length = h.textViews.live := by
    have hc := congrArg Multiset.card (forEachLive_spans hb.tabled.views)
    rw [Multiset.coe_card, length_map, Multiset.card_map] at hc
    rw [hc, hb.viewsLive]
  refine ⟨?_, ?_, ?_, ?_⟩
  · rw [hv, ← hb.total_shared, hb.used, baseBytes, ← ho, Multiset.map_coe, Multiset.sum_coe, List.map_map]
    rfl
  · intro x hx
    refine (hb.charged x.2 ?_).bytes
    rw [← ho]
    exact List.mem_map_of_mem hx
  · intro key
    rw [← hb.ledger.count key, hb.shared_eq, Multiset.map_map]
    exact congrArg (Multiset.count key) (Multiset.map_id _).symm
  · rw [hv, hb.live, ← ho, Multiset.coe_card, length_map]

theorem run_balanced (capBytes : ℕ) (ops : List HeapOp) (hops : AlongM Chargeable Heap.step ops (new capBytes))
    (hn : AlongM Numbered Heap.step ops (new capBytes)) :
    ∃ h, run capBytes ops = some h ∧ ∃ capacity, h.Balanced capacity :=
  foldlM_keeps (I := fun h => ∃ capacity, Balanced capacity h) (fun _ _ ⟨_, hb⟩ hop => hb.step hop.1 hop.2) ops
    (new capBytes) ⟨fun _ => 0, balanced_new _ capBytes⟩ (hops.and hn)

/-- The ledger is exact along every run that takes no slot past the last number, and no subtraction
underflows. -/
theorem run_ledger_exact (capBytes : ℕ) (ops : List HeapOp) (hops : AlongM Chargeable Heap.step ops (new capBytes))
    (hn : AlongM Numbered Heap.step ops (new capBytes)) : ∃ h, run capBytes ops = some h ∧ h.ExactLedger := by
  obtain ⟨h, hrun, capacity, hb⟩ := run_balanced capBytes ops hops hn
  exact ⟨h, hrun, hb.exactLedger⟩

theorem run_ledger_exact_text :
    ∃ h, run 4096 [.alloc (.str ⟨⟨7, 100, [104, 105]⟩, 0, 2⟩), .compactLive [] true, .sweep fun r => r.slot = 0] =
      some h ∧ h.ExactLedger := by
  refine run_ledger_exact _ _ ⟨⟨trivial, ?_⟩, fun _ _ => ⟨⟨trivial, trivial⟩, fun _ _ => ⟨⟨trivial, trivial⟩, ?_⟩⟩⟩
    ⟨fun _ => by decide, fun _ _ => ⟨trivial, fun _ _ => ⟨trivial, fun _ _ => trivial⟩⟩⟩
  · intro key size size' _ hmem
    exact absurd hmem (Multiset.notMem_zero _)
  · exact fun _ _ => trivial

section Overflow

open SlotTable

theorem exists_filled (capBytes : ℕ) {n : ℕ} (hn : n ≤ slotNumbers) :
    ∃ h, run capBytes (replicate n (.alloc (.list [] 0))) = some h ∧ (∃ capacity, h.Balanced capacity) ∧
      h.objects.Full ∧ h.objects.slots = n ∧ h.objects.free = [] := by
  induction n with
  | zero => exact ⟨new capBytes, rfl, ⟨fun _ => 0, balanced_new _ _⟩, full_empty, rfl, rfl⟩
  | succ n ih =>
    obtain ⟨h, hr, ⟨capacity, hb⟩, hf, hs, he⟩ := ih (by omega)
    have hm : h.objects.Numbered := fun _ => by omega
    obtain ⟨slot, g, objects, ha, hI⟩ := alloc_spec hb.tabled (.list [] 0)
    obtain ⟨r, h', ha', hb'⟩ := hb.alloc hm (o := .list [] 0) (fun _ _ hx => by cases hx)
    obtain ⟨-, h1, h2, -⟩ := alloc_bump he ha'
    refine ⟨h', ?_, ⟨capacity, hb'⟩, ?_, by omega, h1⟩
    · rw [replicate_succ', run_append, hr]
      change ((h.alloc _).map Prod.snd).bind _ = _
      rw [ha']
      rfl
    · rw [ha] at ha'
      cases ha'
      exact hI.full hm.room (hf.room hb.tabled.objects.slots_le)

/-- The object that takes the slot of another one is counted beside it. -/
theorem alloc_over_inexact {r : ObjRef} {h' : Heap} {o : Object} (hb : h.Balanced capacity) (hf : h.objects.Full)
    (he : h.objects.free = []) (hs : h.objects.slots = slotNumbers) (ha : h.alloc o = some (r, h')) :
    ¬h'.ExactLedger := by
  intro hx
  obtain ⟨slot, g, objects, ha', hI⟩ := alloc_spec hb.tabled o
  obtain ⟨h0, -, -, -⟩ := alloc_bump he ha
  rw [ha'] at ha
  cases ha
  obtain rfl : slot = 0 := by
    rw [hs] at h0
    exact h0
  obtain ⟨item, hc⟩ := hI.cell
  have hl : ∃ e, item = some e := by
    rw [← Option.ne_none_iff_exists']
    rintro rfl
    have hd := hf.room (P := pageSlots) hb.tabled.objects.slots_le 0
      (by rw [(room_slots _ _).1, hs]; decide) ⟨g, hc⟩
    rw [(room_slots _ _).2, he] at hd
    cases hd
  obtain ⟨e, rfl⟩ := hl
  obtain ⟨rest, h1, h2⟩ := live_replace hc
  have hlive : objects.live.card = h.objects.live.card := by
    rw [SlotTable.live, hI.cells]
    change (SlotTable.live { h.objects.room pageSlots with
      cells := (h.objects.room pageSlots).cells.set 0 ⟨g, some ⟨headerOf o, o⟩⟩ }).card = _
    rw [h2, ← live_room pageSlots h.objects, h1, Multiset.card_cons, Multiset.card_cons]
  have hn := hx.live
  have hb0 := hb.live
  have hv : h.textViews.forEachLive.length = h.textViews.live := by
    have hc := congrArg Multiset.card (forEachLive_spans hb.tabled.views)
    rw [Multiset.coe_card, length_map, Multiset.card_map] at hc
    rw [hc, hb.viewsLive]
  have ho := congrArg Multiset.card (liveEntries_eq { h with objects })
  rw [Multiset.coe_card, length_map] at ho
  change h.live + 1 = (liveEntries { h with objects }).length + h.textViews.forEachLive.length at hn
  rw [ho] at hn
  change h.live + 1 = objects.live.card + _ at hn
  omega

/-- The bump pointer passes the last number, and the first object is written over while it is live. -/
theorem alloc_past_last_number : ∃ h, run 4096 (replicate (2 ^ 32 + 1) (.alloc (.list [] 0))) = some h ∧
    AlongM Chargeable Heap.step (replicate (2 ^ 32 + 1) (.alloc (.list [] 0))) (new 4096) ∧ ¬h.ExactLedger := by
  obtain ⟨h, hr, ⟨capacity, hb⟩, hf, hs, he⟩ := exists_filled 4096 (le_refl slotNumbers)
  obtain ⟨slot, g, objects, ha, -⟩ := alloc_spec hb.tabled (.list [] 0)
  refine ⟨_, ?_, alongM_replicate (fun _ => ⟨trivial, fun _ _ _ hx => by cases hx⟩) _ _, alloc_over_inexact hb hf he hs ha⟩
  rw [replicate_succ', run_append]
  change (run 4096 (replicate slotNumbers _)).bind _ = _
  rw [hr]
  change ((h.alloc _).map Prod.snd).bind _ = _
  rw [ha]
  rfl

end Overflow

end Heap

end LoomV4
