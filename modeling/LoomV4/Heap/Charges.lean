import LoomV4.Heap.Effects

/-!
The byte ledger of a heap. `capacity` is the capacity of each shared allocation.
-/

namespace LoomV4

open Lib Option Multiset Nat SlotTable TextViewTable

def Object.Agrees (capacity : ℕ → ℕ) (o : Object) : Prop :=
  ∀ key size, o.sharedAllocation = some (key, size) → size = capacity key

structure LiveEntry.Charged (capacity : ℕ → ℕ) (e : LiveEntry) : Prop where
  bytes : e.header.bytes = e.object.heapBaseCost
  shared : e.header.shared = e.object.sharedAllocation.map Prod.fst
  agrees : e.object.Agrees capacity

namespace Heap

def baseBytes (m : Multiset LiveEntry) : ℕ := (m.map fun e => e.header.bytes).sum

def objectKeys (m : Multiset LiveEntry) : Multiset ℕ := m.filterMap fun e => e.header.shared

structure Balanced (capacity : ℕ → ℕ) (h : Heap) : Prop where
  tabled : h.Tabled
  charged : ∀ e ∈ h.objects.live, e.Charged capacity
  owners : ∀ i ∈ h.textViews.used, ∀ o, h.textViews.ownerOf i = some o → o.capacity = capacity o.key
  viewsLive : h.textViews.live = h.textViews.table.live.card
  ledger : h.sharedAllocations.Exact (objectKeys h.objects.live + h.textViews.keys)
  sized : h.sharedAllocations.Sized capacity
  used : h.usedBytes = baseBytes h.objects.live + h.textViews.live * minObjectCost + h.sharedAllocations.total
  live : h.live = h.objects.live.card + h.textViews.live

section Shared

variable {capacity : ℕ → ℕ} {l : Ledger ℕ} {m : Multiset ℕ}

def sharedKeysOf (shared : Option (ℕ × ℕ)) (n : ℕ) : Multiset ℕ :=
  match shared with
  | none => 0
  | some (key, _) => Multiset.replicate n key

theorem addSharedReferences_exact (h : l.Exact m) (shared : Option (ℕ × ℕ)) (n : ℕ) :
    (addSharedReferences shared n l).2.Exact (sharedKeysOf shared n + m) ∧
      (addSharedReferences shared n l).2.total = l.total + (addSharedReferences shared n l).1 := by
  unfold addSharedReferences
  split
  · next hn =>
    subst hn
    refine ⟨?_, rfl⟩
    cases shared <;> simpa [sharedKeysOf] using h
  · next hn =>
    cases shared with
    | none => exact ⟨by simpa [sharedKeysOf] using h, rfl⟩
    | some p => exact ⟨h.add p.1 p.2 (Nat.pos_of_ne_zero hn), Ledger.total_add p.1 p.2 n l⟩

theorem addSharedReferences_sized (h : l.Sized capacity) {shared : Option (ℕ × ℕ)} (n : ℕ)
    (hs : ∀ key size, shared = some (key, size) → size = capacity key) :
    (addSharedReferences shared n l).2.Sized capacity := by
  unfold addSharedReferences
  split
  · exact h
  · cases shared with
    | none => exact h
    | some p =>
      obtain ⟨key, size⟩ := p
      obtain rfl := hs key size rfl
      exact h.add key n

theorem removeShared_spec {key : Option ℕ} (h : l.Exact (key.toList + m)) (hs : l.Sized capacity) :
    ∃ released l', removeShared key l = some (released, l') ∧ l'.Exact m ∧ l'.Sized capacity ∧
      l'.total + released = l.total := by
  cases key with
  | none => exact ⟨0, l, rfl, by simpa using h, hs, rfl⟩
  | some key =>
    have ho : ((some key).toList : Multiset ℕ) = Multiset.replicate 1 key := by simp
    rw [ho] at h
    obtain ⟨released, l', hr, hE, ht⟩ := h.release one_pos
    exact ⟨released, l', hr, hE, hs.release hr, ht⟩

end Shared

theorem objectKeys_cons (e : LiveEntry) (m : Multiset LiveEntry) :
    objectKeys (e ::ₘ m) = (e.header.shared.toList : Multiset ℕ) + objectKeys m := by
  cases hs : e.header.shared with
  | none =>
    rw [objectKeys, filterMap_cons_none (f := fun e : LiveEntry => e.header.shared) e m hs, objectKeys]
    simp
  | some key =>
    rw [objectKeys, filterMap_cons_some (fun e : LiveEntry => e.header.shared) e m hs, objectKeys]
    simp

theorem baseBytes_cons (e : LiveEntry) (m : Multiset LiveEntry) :
    baseBytes (e ::ₘ m) = e.header.bytes + baseBytes m := by
  rw [baseBytes, map_cons, sum_cons, baseBytes]

theorem sharedKeysOf_one (shared : Option (ℕ × ℕ)) :
    sharedKeysOf shared 1 = ((shared.map Prod.fst).toList : Multiset ℕ) := by
  cases shared <;> simp [sharedKeysOf]

section Fresh

variable {capacity : ℕ → ℕ} {h h' : Heap}

theorem balanced_new (capacity : ℕ → ℕ) (capBytes : ℕ) : (new capBytes).Balanced capacity := by
  refine ⟨tabled_new capBytes, ?_, ?_, rfl, Ledger.exact_nil, ?_, rfl, rfl⟩
  · intro e he
    exact absurd he (notMem_zero e)
  · intro i hi
    exact absurd hi (notMem_zero i)
  · intro k c hc
    cases hc

/-- A heap with the same items and the same charges is balanced as well. -/
theorem Balanced.congr (hb : h.Balanced capacity) (ht : h'.Tabled) (ho : h'.objects.live = h.objects.live)
    (hv : h'.textViews.table.live = h.textViews.table.live)
    (hw : ∀ i, h'.textViews.ownerOf i = h.textViews.ownerOf i) (hl : h'.textViews.live = h.textViews.live)
    (hs : h'.sharedAllocations = h.sharedAllocations) (hu : h'.usedBytes = h.usedBytes) (hn : h'.live = h.live) :
    h'.Balanced capacity := by
  have he : h'.textViews.used = h.textViews.used := by simp only [TextViewTable.used, hv]
  have hk : h'.textViews.keys = h.textViews.keys := by
    simp only [TextViewTable.keys, he]
    exact map_congr rfl fun i _ => by simp only [TextViewTable.keyOf, hw]
  refine ⟨ht, ho ▸ hb.charged, ?_, ?_, ?_, hs ▸ hb.sized, ?_, ?_⟩
  · intro i hi o hwo
    exact hb.owners i (he ▸ hi) o (hw i ▸ hwo)
  · rw [hl, hv, hb.viewsLive]
  · rw [hs, ho, hk]
    exact hb.ledger
  · rw [hu, hs, hl, ho]
    exact hb.used
  · rw [hn, hl, ho]
    exact hb.live

theorem Reserved.balanced (hr : Reserved h h') (hb : h.Balanced capacity) : h'.Balanced capacity := by
  apply hb.congr (hr.tabled hb.tabled) hr.objectsLive hr.tableLive
  · intro i
    rw [hr.rest]
    rfl
  all_goals rw [hr.rest]

theorem Balanced.alloc (hb : h.Balanced capacity) (hn : h.objects.Numbered) {o : Object} (ho : o.Agrees capacity) :
    ∃ r h', h.alloc o = some (r, h') ∧ h'.Balanced capacity := by
  obtain ⟨slot, g, objects, ha, hI⟩ := alloc_spec hb.tabled o
  have hl : objects.live = ⟨headerOf o, o⟩ ::ₘ h.objects.live := by
    rw [hI.live hn.room, live_room]
  obtain ⟨hE, hT⟩ := addSharedReferences_exact hb.ledger o.sharedAllocation 1
  refine ⟨_, _, ha, ⟨hI.formed, hb.tabled.views⟩, ?_, hb.owners, hb.viewsLive, ?_,
    addSharedReferences_sized hb.sized 1 ho, ?_, ?_⟩
  · intro e he
    rw [hl, mem_cons] at he
    cases he with
    | inl he =>
      subst he
      exact ⟨rfl, rfl, ho⟩
    | inr he => exact hb.charged e he
  · change (addSharedReferences _ _ _).2.Exact (objectKeys objects.live + _)
    rw [hl, objectKeys_cons, add_assoc]
    rw [sharedKeysOf_one] at hE
    exact hE
  · have hu := hb.used
    change _ = baseBytes objects.live + h.textViews.live * minObjectCost + (addSharedReferences _ _ _).2.total
    rw [hl, baseBytes_cons, hT]
    dsimp only [headerOf]
    omega
  · have hn := hb.live
    change h.live + 1 = objects.live.card + h.textViews.live
    rw [hl, card_cons]
    omega

theorem Balanced.tryAlloc (hb : h.Balanced capacity) (hn : h.objects.Numbered) {o : Object}
    (ho : o.Agrees capacity) (unique host : Bool) :
    ∃ r h', h.tryAlloc o unique host = some (r, h') ∧ h'.Balanced capacity := by
  obtain hr | ⟨objects, r, h', hj, ht, ha⟩ := tryAlloc_cases hb.tabled o unique host
  · exact ⟨none, h, hr, hb⟩
  · have hb' : ({ h with objects } : Heap).Balanced capacity ∧ objects.Numbered := by
      cases hj with
      | inl he => exact he ▸ ⟨hb, hn⟩
      | inr he => exact he ▸ ⟨(reserved_addPage hb.tabled).balanced hb, hn⟩
    obtain ⟨r1, h1, ha1, hb1⟩ := hb'.1.alloc hb'.2 ho
    rw [ha] at ha1
    cases ha1
    exact ⟨some r, h', ht, hb1⟩

theorem sharedKeysOf_batch (b : TextViewBatch) :
    sharedKeysOf b.sharedAllocation b.views.length = Multiset.replicate b.views.length b.allocation.1 := by
  unfold TextViewBatch.sharedAllocation
  split
  · next hb => simp [hb, sharedKeysOf]
  · rfl

theorem Balanced.withBatch (hb : h.Balanced capacity) {b : TextViewBatch} {textViews : TextViewTable}
    (hB : TextViewTable.Batched b h.textViews textViews) (hk : h.textViews.OwnKey b)
    (hz : b.allocation.2 = capacity b.allocation.1)
    (he : ∀ owner, b.owner = .new owner → owner.capacity = capacity owner.key) :
    (h.withBatch b textViews).Balanced capacity := by
  obtain ⟨hE, hT⟩ := addSharedReferences_exact hb.ledger b.sharedAllocation b.views.length
  have hvl := hb.viewsLive
  refine ⟨⟨hb.tabled.objects, hB.rooted⟩, hb.charged, ?_, ?_, ?_, ?_, ?_, ?_⟩
  · intro i hi o ho
    change i ∈ textViews.used at hi
    change textViews.ownerOf i = some o at ho
    obtain hold | ⟨owner, hnewOwner, hw⟩ := hB.newOwner i hi
    · exact hb.owners i hold o ((hB.owners i hold).symm.trans ho)
    · rw [ho] at hw
      cases hw
      exact he o hnewOwner
  · change textViews.live = textViews.table.live.card
    rw [hB.live, hB.card]
    omega
  · change (addSharedReferences _ _ _).2.Exact (objectKeys h.objects.live + textViews.keys)
    rw [hB.keys hk, ← sharedKeysOf_batch, add_left_comm]
    exact hE
  · refine addSharedReferences_sized hb.sized _ ?_
    intro key size hs
    unfold TextViewBatch.sharedAllocation at hs
    split at hs
    · cases hs
    · rw [some.inj hs] at hz
      exact hz
  · have hu := hb.used
    change _ = baseBytes h.objects.live + textViews.live * minObjectCost + (addSharedReferences _ _ _).2.total
    rw [hT, hB.live, Nat.add_mul]
    dsimp only [Heap.withBatch]
    omega
  · have hn := hb.live
    change h.live + b.views.length = h.objects.live.card + textViews.live
    rw [hB.live]
    omega

end Fresh

section Free

variable {capacity : ℕ → ℕ} {h : Heap}

theorem Balanced.freeTextView (hb : h.Balanced capacity) {r : ObjRef} {e : TextViewItem}
    (hr : h.textViews.item r = some e) : ∃ h', h.freeTextView r = some h' ∧ h'.Balanced capacity := by
  obtain ⟨textViews, hf, hD, hl⟩ := free_spec hb.tabled.views hb.viewsLive hr
  have hc : h.textViews.table.live.card = textViews.table.live.card + 1 := by
    rw [hD.killed.live, card_cons]
  have hE := hb.ledger
  rw [hD.keys, add_cons, ← singleton_add, ← replicate_one] at hE
  obtain ⟨shared, l, hre, hE', hT⟩ := hE.release one_pos
  have hu := hb.used
  have hn := hb.live
  have hv := hb.viewsLive
  have he : h.textViews.live = textViews.live + 1 := by omega
  rw [he, Nat.add_mul, Nat.one_mul] at hu
  refine ⟨_, by simp only [Heap.freeTextView, hf, hre]; rw [if_neg (by omega)], ?_⟩
  refine ⟨⟨hb.tabled.objects, hD.rooted⟩, hb.charged, ?_, hl, hE', hb.sized.release hre, ?_, ?_⟩
  · intro i hi o ho
    change i ∈ textViews.used at hi
    refine hb.owners i ?_ o ((hD.owners i hi).symm.trans ho)
    simp only [TextViewTable.used, hD.killed.live, map_cons]
    exact mem_cons_of_mem hi
  · change h.usedBytes - _ = baseBytes h.objects.live + textViews.live * minObjectCost + l.total
    omega
  · change h.live - 1 = h.objects.live.card + textViews.live
    omega

theorem Balanced.freeObject (hb : h.Balanced capacity) {r : ObjRef} {e : LiveEntry}
    (he : TextViewTable.isReference r = false) (hr : h.entry r = some e) :
    ∃ h', h.free r = some h' ∧ h'.Balanced capacity := by
  obtain ⟨objects, hk, hK⟩ :=
    kill_spec (M := generationLimit) hb.tabled.objects (entry_eq_some.mp hr)
  have hl := hK.live
  have hE := hb.ledger
  rw [hl, objectKeys_cons, add_assoc] at hE
  obtain ⟨shared, l, hre, hE', hS, hT⟩ := removeShared_spec hE hb.sized
  have hu := hb.used
  have hn := hb.live
  rw [hl, baseBytes_cons] at hu
  rw [hl, card_cons] at hn
  refine ⟨_, by simp only [Heap.free, he, hr, hk, hre]; rw [if_neg (by simp), if_neg (by omega)], ?_⟩
  refine ⟨⟨hK.formed, hb.tabled.views⟩, ?_, hb.owners, hb.viewsLive, hE', hS, ?_, ?_⟩
  · intro e' he'
    exact hb.charged e' (hl ▸ mem_cons_of_mem he')
  · change h.usedBytes - _ = baseBytes objects.live + h.textViews.live * minObjectCost + l.total
    omega
  · change h.live - 1 = objects.live.card + h.textViews.live
    omega

theorem Balanced.free (hb : h.Balanced capacity) {r : ObjRef} (hr : h.isLiveReference r = true) :
    ∃ h', h.free r = some h' ∧ h'.Balanced capacity := by
  obtain ⟨e, he⟩ | ⟨hre, e, he⟩ := (isLiveReference_iff hb.tabled).mp hr
  · obtain ⟨h', hf, hb'⟩ := hb.freeTextView he
    refine ⟨h', ?_, hb'⟩
    rw [Heap.free, if_pos (item_eq_some.mp he).1, hf]
  · exact hb.freeObject hre he

end Free

section Mutate

variable {capacity : ℕ → ℕ} {h : Heap} {r : ObjRef}

theorem Balanced.split (hb : h.Balanced capacity) {e : LiveEntry} (hr : h.entry r = some e) :
    ∃ m n, h.sharedAllocations.Exact ((e.header.shared.toList : Multiset ℕ) + m) ∧
      h.usedBytes = e.header.bytes + n + h.sharedAllocations.total ∧
      ∀ (e' : LiveEntry) (l : Ledger ℕ), e'.Charged capacity →
        l.Exact ((e'.header.shared.toList : Multiset ℕ) + m) → l.Sized capacity →
        (h.recharged r e' l (e'.header.bytes + n + l.total)).Balanced capacity := by
  obtain ⟨rest, he, hs⟩ := live_replace (entry_eq_some.mp hr)
  have hE := hb.ledger
  have hu := hb.used
  have hn := hb.live
  rw [he, objectKeys_cons, add_assoc] at hE
  rw [he, baseBytes_cons] at hu
  rw [he, card_cons] at hn
  refine ⟨objectKeys rest + h.textViews.keys, baseBytes rest + h.textViews.live * minObjectCost, hE, by omega, ?_⟩
  intro e' l hc hE' hS
  have hl : (h.withEntry r e').objects.live = e' ::ₘ rest := hs e'
  refine ⟨⟨(hb.tabled.withEntry hr e').objects, hb.tabled.views⟩, ?_, hb.owners, hb.viewsLive, ?_, hS, ?_, ?_⟩
  · intro x hx
    change x ∈ (h.withEntry r e').objects.live at hx
    rw [hl, mem_cons] at hx
    cases hx with
    | inl hx => exact hx ▸ hc
    | inr hx => exact hb.charged x (he ▸ mem_cons_of_mem hx)
  · change l.Exact (objectKeys (h.withEntry r e').objects.live + _)
    rw [hl, objectKeys_cons, add_assoc]
    exact hE'
  · change _ = baseBytes (h.withEntry r e').objects.live + h.textViews.live * minObjectCost + l.total
    rw [hl, baseBytes_cons]
    change e'.header.bytes + _ + l.total = _
    omega
  · change h.live = (h.withEntry r e').objects.live.card + h.textViews.live
    rw [hl, card_cons]
    exact hn

theorem rechargeShared_spec {l : Ledger ℕ} {m : Multiset ℕ} {oldKey : Option ℕ} {shared : Option (ℕ × ℕ)}
    (hE : l.Exact ((oldKey.toList : Multiset ℕ) + m)) (hS : l.Sized capacity)
    (hs : ∀ key size, shared = some (key, size) → size = capacity key) :
    ∃ released added l', rechargeShared oldKey shared l = some (released, added, l') ∧
      l'.Exact (((shared.map Prod.fst).toList : Multiset ℕ) + m) ∧ l'.Sized capacity ∧
      l'.total + released = l.total + added ∧ released ≤ l.total := by
  unfold rechargeShared
  split
  · next hk => exact ⟨0, 0, l, rfl, hk ▸ hE, hS, rfl, zero_le _⟩
  · obtain ⟨released, l1, hr, hE1, hS1, hT1⟩ := removeShared_spec hE hS
    obtain ⟨hE2, hT2⟩ := addSharedReferences_exact hE1 shared 1
    rw [sharedKeysOf_one] at hE2
    simp only [hr]
    exact ⟨_, _, _, rfl, hE2, addSharedReferences_sized hS1 1 hs, by omega, by omega⟩

section

variable (hb : h.Balanced capacity)

include hb

theorem Balanced.mutate {o : Object} (hr : h.entry r ≠ none)
    (ho : o.Agrees capacity) : ∃ h', (h.setObject r o).bind (recharge r) = some h' ∧ h'.Balanced capacity := by
  obtain ⟨e, he⟩ := ne_none_iff_exists'.mp hr
  obtain ⟨m, n, hE, hu, hp⟩ := hb.split he
  obtain ⟨released, added, l, hl, hE', hS, hT, hle⟩ := rechargeShared_spec hE hb.sized ho
  have hs : (h.withEntry r { e with object := o }).usedBytes = h.usedBytes := rfl
  rw [setObject_eq he, bind_some, recharge_eq (entry_withEntry he _) hl (by dsimp only; omega), recharged_withEntry]
  refine ⟨_, rfl, ?_⟩
  have hm : h.usedBytes - e.header.bytes - released + o.heapBaseCost + added = o.heapBaseCost + n + l.total := by
    omega
  dsimp only
  rw [hs, hm]
  exact hp ⟨⟨_, _, _⟩, o⟩ l ⟨rfl, rfl, ho⟩ hE' hS

theorem Balanced.mutateLocal {o : Object} {e : LiveEntry} (he : h.entry r = some e)
    (hs : e.header.shared = none) (ho : o.sharedAllocation = none) :
    ∃ h', (h.setObject r o).bind (rechargeLocal r) = some h' ∧ h'.Balanced capacity := by
  obtain ⟨m, n, hE, hu, hp⟩ := hb.split he
  have hd : (h.withEntry r { e with object := o }).usedBytes = h.usedBytes := rfl
  rw [setObject_eq he, bind_some, rechargeLocal_eq (entry_withEntry he _) (by dsimp only; omega), recharged_withEntry]
  refine ⟨_, rfl, ?_⟩
  have hm : h.usedBytes - e.header.bytes + o.heapBaseCost
      = o.heapBaseCost + n + h.sharedAllocations.total := by
    omega
  dsimp only
  rw [hd, hm]
  refine hp ⟨⟨_, _, _⟩, o⟩ _ ⟨rfl, ?_, ?_⟩ hE hb.sized
  · simp [hs, ho]
  · intro key size hk
    rw [ho] at hk
    cases hk

theorem Balanced.setHeaderFrozen {e : LiveEntry} (he : h.entry r = some e) :
    (h.withEntry r { e with header := { e.header with frozen := true } }).Balanced capacity := by
  obtain ⟨m, n, hE, hu, hp⟩ := hb.split he
  have hc := hb.charged e (mem_live.mpr ⟨_, _, entry_eq_some.mp he⟩)
  have hb' := hp { e with header := { e.header with frozen := true } } h.sharedAllocations
    ⟨hc.bytes, hc.shared, hc.agrees⟩ hE hb.sized
  dsimp only at hb'
  rw [← hu] at hb'
  exact hb'

theorem Balanced.setFrozen {h' : Heap} (hs : h.setFrozen r = some h') : h'.Balanced capacity := by
  obtain rfl | ⟨e, he, rfl⟩ := setFrozen_cases hs
  · exact hb
  · exact hb.setHeaderFrozen he

end

theorem exists_setFrozen (hr : h.isLiveReference r = true) : ∃ h', h.setFrozen r = some h' := by
  unfold isLiveReference at hr
  unfold Heap.setFrozen
  split at hr
  · next hf => exact ⟨h, by rw [if_pos hf, if_pos hr]⟩
  · next hf =>
    simp only [tryGet, if_neg hf, isSome_map] at hr
    obtain ⟨e, he⟩ := isSome_iff_exists.mp hr
    rw [if_neg hf, he]
    exact ⟨_, setHeader_eq he _⟩

end Mutate

end Heap

namespace ObjectSweep

open Heap

variable {capacity : ℕ → ℕ} {h : Heap} {s s' : ObjectSweep} {extra : Multiset ℕ}

def pendingKeys (s : ObjectSweep) : Multiset ℕ :=
  match s.pending with
  | none => 0
  | some (key, references) => Multiset.replicate references key

/-- The charges in the middle of a sweep of `h`: what was freed is not subtracted yet, and the
references in `extra` are not noted yet. -/
structure Owed (capacity : ℕ → ℕ) (h : Heap) (extra : Multiset ℕ) (s : ObjectSweep) : Prop where
  charged : ∀ e ∈ s.heap.objects.live, e.Charged capacity
  pending : ∀ key n, s.pending = some (key, n) → 0 < n
  ledger : s.heap.sharedAllocations.Exact
    (s.pendingKeys + (extra + (objectKeys s.heap.objects.live + h.textViews.keys)))
  sized : s.heap.sharedAllocations.Sized capacity
  used : h.usedBytes = baseBytes s.heap.objects.live + h.textViews.live * minObjectCost +
    s.heap.sharedAllocations.total + s.freedBytes
  live : h.live = s.heap.objects.live.card + h.textViews.live + s.freed

theorem Owed.flush (ho : s.Owed capacity h extra) :
    ∃ s', s.flush = some s' ∧ s'.pending = none ∧ s'.Owed capacity h extra := by
  unfold ObjectSweep.flush
  cases hp : s.pending with
  | none => exact ⟨s, rfl, hp, ho⟩
  | some p =>
    obtain ⟨key, references⟩ := p
    have hE := ho.ledger
    rw [pendingKeys, hp] at hE
    obtain ⟨released, l, hr, hE', hT⟩ := hE.release (ho.pending _ _ hp)
    simp only [hr]
    refine ⟨_, rfl, rfl, ho.charged, ?_, ?_, ho.sized.release hr, ?_, ho.live⟩
    · intro _ _ hn
      cases hn
    · rw [pendingKeys, zero_add]
      exact hE'
    · have hu := ho.used
      dsimp only
      omega

theorem Owed.note {shared : Option ℕ} (ho : s.Owed capacity h shared.toList) :
    ∃ s', s.note shared = some s' ∧ s'.Owed capacity h 0 := by
  unfold ObjectSweep.note
  cases shared with
  | none => exact ⟨s, rfl, ho⟩
  | some key =>
    have hn : (((some key).toList : List ℕ) : Multiset ℕ) = Multiset.replicate 1 key := by simp
    -- Without pending references the key is the first one of its kind.
    have hf : ∀ s : ObjectSweep, s.pending = none → s.Owed capacity h (some key).toList →
        ({ s with pending := some (key, 1) } : ObjectSweep).Owed capacity h 0 := by
      intro s hp ho
      refine ⟨ho.charged, ?_, ?_, ho.sized, ho.used, ho.live⟩
      · rintro _ _ ⟨⟩
        exact one_pos
      · have hE := ho.ledger
        rw [pendingKeys, hp, zero_add, hn] at hE
        rw [pendingKeys, zero_add]
        exact hE
    cases hp : s.pending with
    | none => exact ⟨_, rfl, hf s hp ho⟩
    | some p =>
      obtain ⟨pending, references⟩ := p
      dsimp only
      split
      · next hk =>
        subst hk
        refine ⟨_, rfl, ho.charged, ?_, ?_, ho.sized, ho.used, ho.live⟩
        · rintro _ _ ⟨⟩
          exact succ_pos _
        · have hE := ho.ledger
          rw [pendingKeys, hp, hn, ← add_assoc, ← replicate_add] at hE
          rw [pendingKeys, zero_add]
          exact hE
      · obtain ⟨s', hs', hp', ho'⟩ := ho.flush
        rw [hs']
        exact ⟨_, rfl, hf s' hp' ho'⟩

theorem Owed.without (ho : s.Owed capacity h 0) {r : ObjRef} {e : LiveEntry} {objects : SlotTable LiveEntry}
    (hK : SlotTable.Killed pageSlots generationLimit s.heap.objects objects e r.slot r.generation) :
    (s.without r e objects).Owed capacity h e.header.shared.toList := by
  have hl := hK.live
  have hE := ho.ledger
  have hu := ho.used
  have hn := ho.live
  rw [hl, objectKeys_cons, zero_add, add_assoc] at hE
  rw [hl, baseBytes_cons] at hu
  rw [hl, card_cons] at hn
  refine ⟨?_, ho.pending, hE, ho.sized, ?_, ?_⟩
  · intro e' he'
    exact ho.charged e' (hl ▸ mem_cons_of_mem he')
  · change _ = baseBytes objects.live + _ + s.heap.sharedAllocations.total + (s.freedBytes + e.header.bytes)
    omega
  · change _ = objects.live.card + _ + (s.freed + 1)
    omega

theorem Owed.slot (ho : s.Owed capacity h 0) (hf : s.heap.objects.Formed pageSlots) (keep : ObjRef → Bool)
    (n : ℕ) : ∃ s', s.slot keep n = some s' ∧ s'.Owed capacity h 0 := by
  obtain ⟨he, -⟩ | ⟨g, e, objects, hK, -, he⟩ := slot_cases hf keep n
  · exact ⟨s, he, ho⟩
  · rw [he]
    exact (ho.without (r := ⟨n, g⟩) hK).note

end ObjectSweep

namespace Heap

section Sweep

variable {capacity : ℕ → ℕ} {h : Heap}

theorem Balanced.owed (hb : h.Balanced capacity) :
    ({ heap := { h with collections := h.collections + 1 } } : ObjectSweep).Owed capacity h 0 := by
  refine ⟨hb.charged, ?_, ?_, hb.sized, hb.used, hb.live⟩
  · intro _ _ hn
    cases hn
  · rw [ObjectSweep.pendingKeys, zero_add, zero_add]
    exact hb.ledger

theorem Balanced.sweep (hb : h.Balanced capacity) (keep : ObjRef → Bool) :
    ∃ h', h.sweep keep = some h' ∧ h'.Balanced capacity := by
  obtain ⟨s1, hl, hS1, ho1⟩ := foldlM_range_keeps
    (I := fun n s => ObjectSweep.Swept keep n h s ∧ s.Owed capacity h 0) (f := ObjectSweep.slot keep)
    h.objects.cells.length { heap := { h with collections := h.collections + 1 } }
    (by
      rintro n s - ⟨hS, ho⟩
      obtain ⟨s', hs', ho'⟩ := ho.slot hS.objects.formed keep n
      exact ⟨s', hs', hS.slot hs', ho'⟩)
    ⟨⟨SlotTable.Swept.refl hb.tabled.objects, rfl⟩, hb.owed⟩
  obtain ⟨s, hf, hp, ho⟩ := ho1.flush
  have hS := hS1.ledger (ObjectSweep.flush_heap hf)
  have he : s.heap.textViews = h.textViews := by rw [hS.rest]
  have hd : s.heap.usedBytes = h.usedBytes := by rw [hS.rest]
  have hli : s.heap.live = h.live := by rw [hS.rest]
  have hE := ho.ledger
  rw [ObjectSweep.pendingKeys, hp, zero_add, zero_add] at hE
  obtain ⟨textViews, objects, bytes, l, hv, hV, hvl, ⟨hE', hS', hT⟩, hc⟩ := sweep_spec
    (R := fun key l => Ledger.release key 1 l)
    (I := fun keys bytes l => Ledger.Exact l (objectKeys s.heap.objects.live + keys) ∧ l.Sized capacity ∧
      l.total + bytes = s.heap.sharedAllocations.total)
    (by
      rintro key keys bytes l ⟨hE, hS, hT⟩
      rw [add_cons, ← singleton_add, ← replicate_one] at hE
      obtain ⟨freed, l', hr, hE', hT'⟩ := hE.release one_pos
      exact ⟨freed, l', hr, hE', hS.release hr, by omega⟩)
    keep hb.tabled.views hb.viewsLive ⟨hE, ho.sized, rfl⟩
  have hu := ho.used
  have hn := ho.live
  have hvl0 := hb.viewsLive
  have hs : h.textViews.live = textViews.live + objects := by omega
  rw [hs, Nat.add_mul] at hu
  refine ⟨_, by
    unfold Heap.sweep
    simp only [hl, hf, he, hv]
    rw [if_neg (by omega)], ?_⟩
  refine ⟨⟨hS.objects.formed, hV.rooted⟩, ho.charged, ?_, hvl, hE', hS', ?_, ?_⟩
  · intro i hi o hw
    exact hb.owners i (mem_of_le hV.used hi) o ((hV.owners i hi).symm.trans hw)
  · change s.heap.usedBytes - (s.freedBytes + (objects * minObjectCost + bytes)) =
      baseBytes s.heap.objects.live + textViews.live * minObjectCost + l.total
    omega
  · change s.heap.live - (s.freed + objects) = s.heap.objects.live.card + textViews.live
    omega

end Sweep

section Compact

variable {capacity : ℕ → ℕ} {h c c' : Heap} {r : ObjRef}

section

variable (hb : h.Balanced capacity)

include hb

theorem Balanced.trimFreePages : h.trimFreePages.Balanced capacity :=
  hb.congr hb.tabled.trimFreePages (live_dropPages hb.tabled.objects) (live_dropPages hb.tabled.views.formed)
    (fun _ => rfl) rfl rfl rfl rfl

theorem Balanced.tryCloneObject {o : Object} (ho : h.tryCloneObject r = some o) : o.Agrees capacity := by
  unfold Heap.tryCloneObject at ho
  split at ho
  · next text ht =>
    cases ho
    unfold TextViewTable.get at ht
    split at ht
    · next e he =>
      obtain ⟨held, hr, rfl⟩ := map_eq_some_iff.mp ht
      have hm : e.root ∈ h.textViews.used :=
        mem_map_of_mem _ (mem_live.mpr ⟨_, _, (item_eq_some.mp he).2⟩)
      have hc := hb.owners e.root hm held.owner (by rw [TextViewTable.ownerOf, hr]; rfl)
      rintro key size ⟨⟩
      exact hc
    · cases ht
  · unfold tryGet at ho
    split at ho
    · cases ho
    · obtain ⟨e, he, rfl⟩ := map_eq_some_iff.mp ho
      exact (hb.charged e (mem_live.mpr ⟨_, _, entry_eq_some.mp he⟩)).agrees

theorem Balanced.setGeneration {e : LiveEntry} (hr : h.entry r = some e) (g : ℕ) :
    ({ h with objects := h.objects.setGeneration r.slot g } : Heap).Balanced capacity := by
  have hc := entry_eq_some.mp hr
  exact hb.congr ⟨hb.tabled.objects.setGeneration hc g, hb.tabled.views⟩ (live_setGeneration hc g) rfl
    (fun _ => rfl) rfl rfl rfl rfl

theorem Balanced.compactOne {mapping : List (ObjRef × ObjRef)} {x : ObjRef × Bool × Object}
    (hc : c.Balanced capacity) (hn : c.objects.Numbered) (hok : h.compactOne mapping c x = .ok c') :
    c'.Balanced capacity := by
  obtain ⟨object, expected, g, c1, ho, -, ha, hl⟩ := compactOne_ok hok
  have hg : (object.cloneRemapped fun child => (mapped mapping child).getD child).Agrees capacity := by
    unfold Object.Agrees
    rw [Object.sharedAllocation_cloneRemapped]
    exact hb.tryCloneObject ho
  obtain ⟨r, c2, ha', hc2⟩ := hc.tryAlloc hn hg false true
  rw [ha] at ha'
  cases ha'
  have hb2 := hc2.setGeneration (tryAlloc_entry hc.tabled ha) expected.generation
  cases hl with
  | inl he => exact he ▸ hb2
  | inr hf => exact hb2.setFrozen hf

theorem Balanced.compactLive (roots : List ObjRef) (host : Bool) :
    (h.compactLive roots host).2.Balanced capacity := by
  obtain ⟨_, he⟩ | ⟨_, c, hostRoots, hn, hf, hl, hu, -, he⟩ := compactLive_cases h roots host
  · rw [he]
    exact hb
  · have hc := compacted_keeps (fun _ hc => Balanced.tabled hc)
      (fun _ _ _ hn hc hok => hb.compactOne hc hn hok) (balanced_new capacity h.capBytes) hn hf
    rw [he]
    exact hc.congr ⟨hc.tabled.objects, hc.tabled.views⟩ rfl rfl (fun _ => rfl) rfl rfl hu.symm hl.symm

end

end Compact

end Heap

end LoomV4
