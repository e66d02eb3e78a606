import LoomV4.Graph.Shown
import LoomV4.World.Images
import LoomV4.World.Reclaimed

namespace LoomV4.Vm

open Abi Proc Lib List

def Arenas.roots (a : Arenas) : List ObjRef :=
  Machine.rootsOf (a.locals ++ a.operands) ++ a.frames.filterMap fun frame =>
    match frame.closure with
    | some (.closure r) => some r
    | _ => none

theorem Arenas.mem_roots_push {a : Arenas} {v : Value} {r : ObjRef} :
    r ∈ ({ a with operands := a.operands ++ [v] } : Arenas).roots ↔ r ∈ a.roots ∨ r ∈ v.asObj.toList := by
  simp only [Arenas.roots, Machine.rootsOf, filterMap_append, mem_append, filterMap_cons, filterMap_nil]
  cases v.asObj with
  | none => simp
  | some x =>
    simp only [mem_singleton, Option.toList_some]
    tauto

namespace Machine

variable {m m' : Machine} {s : ℕ} {r : ObjRef}

/-- Between operations no reference is host-rooted, and native frames root what their arenas will hold. -/
structure Formed (m : Machine) : Prop where
  slotted : m.vm.heap.Slotted
  hostRoots : m.vm.heap.hostRoots = []
  native : ∀ native, m.native = some native → ∀ arenas, native.arenas = .ok arenas ∨ native.arenas = .error arenas →
    ∀ r ∈ arenas.roots, r ∈ native.roots

def Shows (m : Machine) (s : ℕ) : Prop := m.vm.heap.Shows (m.gcRoots []) s

/-- A collection keeps an object of this kind. -/
def Retains (m : Machine) (P : Object → Prop) : Prop :=
  ∃ r n, m.vm.heap.Under (m.gcRoots []) r ∧ m.vm.heap.node r = some n ∧ P n.2

def otherRoots (m : Machine) : List ObjRef :=
  m.callbackRoots ++ m.pendingRoots ++ m.waitRoots ++ m.terminalRoots ++ rootsOf m.vm.mailbox.queue ++ m.mockRoots ++
    m.startBody.toList ++ m.pendingRegexCompile.toList ++ rootsOf m.vm.literals

theorem mem_gcRoots {extra : List ObjRef} : r ∈ m.gcRoots extra ↔
    (∃ native, m.native = some native ∧ r ∈ native.roots) ∨ r ∈ m.vm.arenas.roots ∨ r ∈ m.otherRoots ∨ r ∈ extra := by
  have ha : m.vm.arenas.roots = m.arenaRoots ++ m.frameRoots := rfl
  rw [ha]
  simp only [gcRoots, mem_append, otherRoots, or_assoc]
  cases m.native <;> simp

theorem gcRoots_append (m : Machine) (extra : List ObjRef) : m.gcRoots extra = m.gcRoots [] ++ extra := by
  simp [gcRoots]

theorem Formed.materialize (h : m.Formed) : m.materialize.2.Formed ∧ ∀ r, r ∈ m.materialize.2.gcRoots [] →
    r ∈ m.gcRoots [] := by
  cases hn : m.native with
  | none =>
    rw [World.materialize_eq m hn]
    exact ⟨h, fun r hr => hr⟩
  | some native =>
    have key : ∀ arenas, native.arenas = .ok arenas ∨ native.arenas = .error arenas →
        m.materialize.2 = { m with vm := { m.vm with arenas }, native := none } →
        m.materialize.2.Formed ∧ ∀ r, r ∈ m.materialize.2.gcRoots [] → r ∈ m.gcRoots [] := by
      intro arenas ha he
      rw [he]
      refine ⟨⟨h.slotted, h.hostRoots, nofun⟩, fun r hr => ?_⟩
      rw [mem_gcRoots] at hr ⊢
      rcases hr with ⟨_, ho, _⟩ | hr | hr
      · cases ho
      · exact .inl ⟨native, hn, h.native native hn arenas ha r hr⟩
      · exact .inr (.inr hr)
    cases ha : native.arenas with
    | ok arenas => exact key arenas (.inl ha) (by simp only [Machine.materialize, hn, ha])
    | error arenas => exact key arenas (.inr ha) (by simp only [Machine.materialize, hn, ha])

theorem Formed.materialize_retains {P : Object → Prop} (h : m.Formed) (hs : m.materialize.2.Retains P) : m.Retains P := by
  obtain ⟨r, n, hu, hn, hp⟩ := hs
  rw [World.materialize_heap] at hu hn
  exact ⟨r, n, hu.mono h.materialize.2, hn, hp⟩

theorem Formed.materialize_shows (h : m.Formed) (hs : m.materialize.2.Shows s) : m.Shows s :=
  h.materialize_retains (P := fun o => imageSlot o = some s) hs

variable {heap : Heap}

theorem Formed.collected {roots : List ObjRef} (h : m.Formed) (hc : collect roots m.vm.heap = some heap) :
    heap.Slotted ∧ heap.hostRoots = [] ∧ ∀ r n, heap.node r = some n → m.vm.heap.Under roots r ∧
      m.vm.heap.node r = some n := by
  have ho := collect_collected h.slotted hc
  refine ⟨ho.slotted, ho.hostRoots.trans h.hostRoots, fun r n hn => ?_⟩
  have hu : m.vm.heap.Under (roots ++ m.vm.heap.hostRoots) r := by
    by_contra ht
    rw [ho.dropped r ht] at hn
    cases hn
  refine ⟨?_, by rw [← ho.kept r hu, hn]⟩
  rwa [h.hostRoots, append_nil] at hu

theorem compactLive_hostRoots (hh : heap.hostRoots = []) (roots : List ObjRef) (host : Bool) :
    (heap.compactLive roots host).2.hostRoots = [] := by
  unfold Heap.compactLive
  split
  · exact hh
  · dsimp only
    rw [hh]
    split
    · next mapped hostRoots _ hm =>
      cases hm
      split
      · exact hh
      · split
        · exact hh
        · rfl
    · exact hh

theorem mem_mockRoots_cleared (h : r ∈ m.cleared.mockRoots) : r ∈ m.mockRoots := by
  by_cases hc : 0 < m.children
  · simpa only [mockRoots, cleared, if_pos hc] using h
  · simp [mockRoots, cleared, if_neg hc, PolicyTable.actions] at h

theorem mem_gcRoots_cleared (h : r ∈ m.cleared.gcRoots []) : r ∈ m.gcRoots [] := by
  have hc : m.cleared.callbackRoots = m.callbackRoots := rfl
  have hp : m.cleared.pendingRoots = [] := rfl
  have hw : m.cleared.waitRoots = [] := rfl
  have ht : m.cleared.terminalRoots = m.terminalRoots := rfl
  have hr : m.cleared.pendingRegexCompile = m.pendingRegexCompile := rfl
  rw [mem_gcRoots] at h ⊢
  rcases h with h | h | h | h
  · exact .inl h
  · simp [cleared, Arenas.roots, rootsOf] at h
  · refine .inr (.inr (.inl ?_))
    simp only [otherRoots, hc, hp, hw, ht, hr, mem_append] at h ⊢
    rcases h with (((((((h | h) | h) | h) | h) | h) | h) | h) | h
    · simp [h]
    · cases h
    · cases h
    · simp [h]
    · cases h
    · simp [mem_mockRoots_cleared h]
    · cases h
    · simp [h]
    · cases h
  · cases h

/-- A kind of object that a renaming of references does not change. -/
def Unmoved (P : Object → Prop) : Prop := ∀ f o, P (o.cloneRemapped f) → P o

theorem Formed.compactTerminalProc {host : Bool} (h : m.Formed) (hc : m.compactTerminalProc host = some m') :
    m'.Formed ∧ ∀ P, Unmoved P → m'.Retains P → m.Retains P := by
  have key : ∀ heap heap' : Heap, collect (m.cleared.gcRoots []) m.vm.heap = some heap →
      (heap' = heap ∨ ∃ roots, heap' = (heap.compactLive roots host).2) →
      (heap'.Slotted ∧ heap'.hostRoots = []) ∧ ∀ P, Unmoved P → ∀ r n, heap'.node r = some n → P n.2 → m.Retains P := by
    intro heap heap' hl he
    obtain ⟨ht, hr, hb⟩ := h.collected hl
    have hh : ∀ P : Object → Prop, ∀ r n, heap.node r = some n → P n.2 → m.Retains P := by
      intro P r n hn hi
      obtain ⟨hu, hn'⟩ := hb r n hn
      exact ⟨r, n, hu.mono fun _ => mem_gcRoots_cleared, hn', hi⟩
    rcases he with rfl | ⟨roots, rfl⟩
    · exact ⟨⟨ht, hr⟩, fun P _ => hh P⟩
    · refine ⟨⟨(ht.compactLive roots host).1, compactLive_hostRoots hr roots host⟩, fun P hP r n hn hi => ?_⟩
      obtain ⟨r, n, hn, hi⟩ := compactLive_holds hP hn hi
      exact hh P r n hn hi
  have shown : ∀ (heap : Heap) (terminal : Option Terminal),
      (∀ P, Unmoved P → ∀ r n, heap.node r = some n → P n.2 → m.Retains P) →
      ∀ P, Unmoved P → ({ m.cleared with vm.heap := heap, vm.terminal := terminal } : Machine).Retains P → m.Retains P := by
    rintro heap terminal hk P hP ⟨r, n, -, hn, hi⟩
    exact hk P hP r n hn hi
  unfold Machine.compactTerminalProc at hc
  split at hc
  · cases hc
    exact ⟨h, fun _ _ => id⟩
  · split at hc
    · cases hc
    · next heap hl =>
      split at hc
      · cases hc
        obtain ⟨hf, hs⟩ := key heap heap hl (.inl rfl)
        exact ⟨⟨hf.1, hf.2, h.native⟩, shown heap _ hs⟩
      · split at hc
        · next r _ =>
          obtain ⟨hf, hs⟩ := key heap _ hl (.inr ⟨[r], rfl⟩)
          split at hc
          · next ho =>
            cases hc
            rw [ho] at hf hs
            exact ⟨⟨hf.1, hf.2, h.native⟩, shown _ _ hs⟩
          · next ho =>
            cases hc
            rw [ho] at hf hs
            exact ⟨⟨hf.1, hf.2, h.native⟩, shown _ _ hs⟩
        · cases hc
          obtain ⟨hf, hs⟩ := key heap _ hl (.inr ⟨[], rfl⟩)
          exact ⟨⟨hf.1, hf.2, h.native⟩, shown _ _ hs⟩

theorem Formed.settled (h : m.Formed) (hs : Settled m m') : m'.Formed ∧ ∀ P, Unmoved P → m'.Retains P → m.Retains P := by
  induction hs with
  | same => exact ⟨h, fun _ _ => id⟩
  | materialized => exact ⟨h.materialize.1, fun _ _ => h.materialize_retains⟩
  | released _ ih =>
    obtain ⟨hf, hh⟩ := ih
    exact ⟨⟨hf.slotted, hf.hostRoots, hf.native⟩, hh⟩
  | compacted _ _ ht ih =>
    obtain ⟨hf, hh⟩ := ih
    obtain ⟨hf', hh'⟩ := hf.compactTerminalProc ht
    exact ⟨hf', fun P hP hs => hh P hP (hh' P hP hs)⟩

theorem Formed.settled_shows (h : m.Formed) (ht : Settled m m') (hs : m'.Shows s) : m.Shows s :=
  (h.settled ht).2 (fun o => imageSlot o = some s) (fun f o => (imageSlot_cloneRemapped f o).symm.trans) hs

theorem Formed.withHeap (h : m.Formed) (hs : heap.Slotted) (hr : heap.hostRoots = []) :
    ({ m with vm.heap := heap } : Machine).Formed := ⟨hs, hr, h.native⟩

theorem Formed.alloc {object : Object} {unique : Bool} {out : Except FaultCode ObjRef} (h : m.Formed)
    (ha : m.alloc object unique = some (out, m')) : ∃ heap, m' = { m with vm.heap := heap } ∧ m'.Formed ∧
      (∀ s, m'.Shows s → m.vm.heap.Shows (m.gcRoots object.children) s ∨ imageSlot object = some s) ∧
      ∀ r s, out = .ok r → heap.Shows (m.gcRoots [] ++ [r]) s →
        m.vm.heap.Shows (m.gcRoots object.children) s ∨ imageSlot object = some s := by
  have ht := m.gcRoots_append object.children
  have hm : ∀ ok heap, m.allocRoom object unique = some (ok, heap) → heap.Slotted ∧ heap.hostRoots = [] ∧
      ∀ tops s, (∀ r ∈ tops, r ∈ m.gcRoots object.children) → heap.Shows tops s →
        m.vm.heap.Shows (m.gcRoots object.children) s := by
    intro ok heap hr
    unfold allocRoom at hr
    split at hr
    · obtain ⟨heap', hco, he⟩ := Option.map_eq_some_iff.mp hr
      cases he
      obtain ⟨hl, ho, hb⟩ := h.collected hco
      refine ⟨hl, ho, fun tops s _ hs => ?_⟩
      obtain ⟨r, n, -, hn, hi⟩ := hs
      obtain ⟨hu, hn'⟩ := hb r n hn
      exact ⟨r, n, hu, hn', hi⟩
    · cases hr
      exact ⟨h.slotted, h.hostRoots, fun tops s hp hs => hs.mono hp⟩
  unfold Machine.alloc at ha
  split at ha
  · cases ha
  · next heap hr =>
    cases ha
    obtain ⟨hl, ho, hh⟩ := hm _ _ hr
    refine ⟨heap, rfl, h.withHeap hl ho, fun s hs => .inl (hh _ s ?_ hs), nofun⟩
    intro r hr
    rw [ht]
    exact mem_append_left _ hr
  · next heap hr =>
    obtain ⟨x, hx, he⟩ := Option.map_eq_some_iff.mp ha
    cases he
    obtain ⟨hl, ho, hh⟩ := hm _ _ hr
    have hc : ∀ tops s, (∀ r ∈ tops, r ∈ m.gcRoots [] ++ [x.1]) → x.2.Shows tops s →
        m.vm.heap.Shows (m.gcRoots object.children) s ∨ imageSlot object = some s := by
      intro tops s hp hs
      rcases alloc_shows hl hx (hs.mono hp) with hi | hold
      · exact .inr hi
      · rw [← ht] at hold
        exact .inl (hh _ s (fun _ hr => hr) hold)
    refine ⟨x.2, rfl, h.withHeap (hl.alloc hx) ?_, fun s => ?_, ?_⟩
    · rw [(Heap.alloc_room hl.tabled hx).2.2.1, ho]
    · exact hc _ s fun r hr => mem_append_left _ hr
    · intro r s he
      cases he
      exact hc _ s fun r hr => hr

theorem Formed.push {room : Bool} {v : Value} (h : m.Formed) : (m.push room v).2.Formed ∧
    ∀ s, (m.push room v).2.Shows s → m.vm.heap.Shows (m.gcRoots [] ++ v.asObj.toList) s := by
  obtain ⟨hf, ho⟩ := h.materialize
  have hw : ∀ s, m.materialize.2.Shows s → m.vm.heap.Shows (m.gcRoots [] ++ v.asObj.toList) s := fun s hs =>
    (h.materialize_shows hs).mono fun r hr => mem_append_left _ hr
  unfold Machine.push
  split
  · next m1 hm =>
    rw [hm] at hf hw
    exact ⟨hf, hw⟩
  · next m1 hm =>
    have he : m1.vm.heap = m.vm.heap := by
      have hh := World.materialize_heap m
      rwa [hm] at hh
    rw [hm] at hf hw ho
    split
    · refine ⟨⟨hf.slotted, hf.hostRoots, hf.native⟩, fun s hs => ?_⟩
      rw [Shows, he] at hs
      refine hs.mono fun r hr => ?_
      rw [mem_gcRoots] at hr
      rw [mem_append]
      rcases hr with hr | hr | hr | hr
      · exact .inl (ho r (mem_gcRoots.mpr (.inl hr)))
      · refine (Arenas.mem_roots_push.mp hr).imp_left (fun hr => ho r ?_)
        exact mem_gcRoots.mpr (.inr (.inl hr))
      · exact .inl (ho r (mem_gcRoots.mpr (.inr (.inr (.inl hr)))))
      · cases hr
    · exact ⟨hf, hw⟩

end Machine

namespace World

variable {ι : Type}

structure Small (w : World ι) : Prop where
  machines : ∀ vm m, w.machine vm = some m → m.vm.heap.Small
  images : ∀ image ∈ w.vmImages, image.heap.Small

def isSmall (w : World ι) : Bool :=
  w.machines.all (fun slot => slot.all fun m => decide m.vm.heap.Small) &&
    w.vmImages.all fun image => decide image.heap.Small

theorem small_of_isSmall {w : World ι} (h : w.isSmall = true) : w.Small := by
  obtain ⟨hm, hi⟩ := Bool.and_eq_true_iff.mp h
  refine ⟨fun vm m hv => ?_, fun image hin => of_decide_eq_true (all_eq_true.mp hi image hin)⟩
  have hs := all_eq_true.mp hm _ (mem_of_getElem? (Option.join_eq_some_iff.mp hv))
  exact of_decide_eq_true hs

end World

end LoomV4.Vm
