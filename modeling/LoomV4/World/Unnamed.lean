import LoomV4.World.ImageRuns

/-!
A reclamation pass and the names of the machines that it takes.
-/

namespace LoomV4.Vm

open Abi Proc Lib List Option

theorem machineNamed_cloneRemapped (f : ObjRef → ObjRef) (o : Object) :
    machineNamed (o.cloneRemapped f) = machineNamed o := by
  cases o <;> rfl

theorem imageNamed_cloneRemapped (f : ObjRef → ObjRef) (o : Object) : imageNamed (o.cloneRemapped f) = imageNamed o := by
  cases o <;> rfl

namespace Machine

variable {m m' : Machine} {v : VmId} {key : VmImageKey}

def linked (m : Machine) : List VmId := m.vm.parent.toList ++ World.controlTargets m

/-- The control state that the mark phase passes over: the policy cursor, and the target of a send or a wait for the
end of a machine. -/
def unlinked (m : Machine) : List VmId :=
  (match m.vm.routed with
    | some ⟨_, .table vm⟩ => [vm]
    | _ => []) ++
  match m.vm.block with
  | some (.send target _) | some (.done target _) => [target]
  | _ => []

/-- The machine names `v`: in an object that its collection keeps, or in its control state. -/
def Names (m : Machine) (v : VmId) : Prop := m.vm.heap.Names (m.gcRoots []) v ∨ v ∈ m.linked ∨ v ∈ m.unlinked

/-- It names `v` where the mark phase does not look. -/
def Hides (m : Machine) (v : VmId) : Prop :=
  (∃ r n, m.vm.heap.Under (m.gcRoots []) r ∧ ¬m.vm.heap.Under m.materialize.2.snapshotRoots r ∧
    m.vm.heap.node r = some n ∧ machineNamed n.2 = some v) ∨ v ∈ m.unlinked

def HoldsImage (m : Machine) (key : VmImageKey) : Prop :=
  m.image = some key ∨ m.Retains fun o => imageNamed o = some key

theorem mem_gcRoots_of_snapshotRoots {r : ObjRef} (h : r ∈ m.snapshotRoots) : r ∈ m.gcRoots [] := by
  simp only [snapshotRoots, gcRoots, mem_append] at h ⊢
  tauto

theorem holdsImage_of_names (h : World.NamesImage m key) : m.HoldsImage key := by
  refine h.imp_right ?_
  rintro ⟨r, o, hu, ho, hi⟩
  rw [Heap.tryGet_eq] at ho
  split at ho
  · cases ho
  · obtain ⟨n, hn, rfl⟩ := map_eq_some_iff.mp ho
    exact ⟨r, n, hu.mono fun _ => mem_gcRoots_of_snapshotRoots, hn, hi⟩

theorem materialize_image (m : Machine) : m.materialize.2.image = m.image := by
  unfold materialize
  split
  · rfl
  · split <;> rfl

/-- What a machine names after it has settled, it named before. -/
theorem Formed.settled_names (hf : m.Formed) (h : Settled m m') :
    (∀ v, m'.Names v → m.Names v) ∧ ∀ key, m'.HoldsImage key → m.HoldsImage key := by
  have hr := (hf.settled h).2
  have hlink : (∀ v, v ∈ m'.linked → v ∈ m.linked) ∧ (∀ v, v ∈ m'.unlinked → v ∈ m.unlinked) ∧
      ∀ key, m'.image = some key → m.image = some key := by
    clear hr
    induction h with
    | same => exact ⟨fun _ => id, fun _ => id, fun _ => id⟩
    | materialized =>
      have hl : m.materialize.2.linked = m.linked := by
        rw [linked, linked, World.controlTargets, World.controlTargets, World.materialize_vm]
      have hu : m.materialize.2.unlinked = m.unlinked := by rw [unlinked, unlinked, World.materialize_vm]
      rw [hl, hu, materialize_image]
      exact ⟨fun _ => id, fun _ => id, fun _ => id⟩
    | released _ ih => exact ih
    | compacted _ _ ht ih =>
      obtain rfl | ⟨heap, terminal, rfl⟩ := compactTerminalProc_cases ht
      · exact ih
      · refine ⟨fun v hv => ih.1 v ?_, fun v hv => absurd hv not_mem_nil, ih.2.2⟩
        exact mem_append_left _ ((mem_append.mp hv).resolve_right not_mem_nil)
  refine ⟨fun v hn => ?_, fun key hi => ?_⟩
  · rcases hn with hn | hn | hn
    · exact .inl (hr (fun o => machineNamed o = some v) (fun f o => (machineNamed_cloneRemapped f o).symm.trans) hn)
    · exact .inr (.inl (hlink.1 v hn))
    · exact .inr (.inr (hlink.2.1 v hn))
  · rcases hi with hi | hi
    · exact .inl (hlink.2.2 key hi)
    · exact .inr (hr (fun o => imageNamed o = some key) (fun f o => (imageNamed_cloneRemapped f o).symm.trans) hi)

end Machine

namespace VmImageRecord

variable (image : VmImageRecord)

def Names (v : VmId) : Prop := v ∈ image.processes ∨ image.heap.Names image.valueRoots v

/-- The image names `v` by an object that is no handle. -/
def Hides (v : VmId) : Prop :=
  ∃ r n, image.heap.Under image.valueRoots r ∧ image.heap.node r = some n ∧ machineNamed n.2 = some v ∧
    handleNamed n.2 = none

end VmImageRecord

namespace World

variable {ι : Type} {w w' w₁ w₂ : World ι} {vm v : VmId} {m m' : Machine} {host : VmId → Bool}
  {marked seen freed : List VmId} {key : VmImageKey} {image : VmImageRecord}

def Freed (w w' : World ι) (v : VmId) : Prop := v ∈ w'.vmFree ∧ v ∉ w.vmFree

def Survives (w' : World ι) (vm : VmId) (m' : Machine) : Prop := w'.machine vm = some m' ∧ vm ∉ w'.freeSlots

/-- Nothing that is left names a freed machine, and what is left is as it was. -/
structure FreesUnnamed (w w' : World ι) : Prop where
  machines : ∀ vm m', w'.Survives vm m' → ∀ v, Freed w w' v → ¬m'.Names v
  images : ∀ (i : ℕ) (image : VmImageRecord), w'.vmImages[i]? = some image → image.live = true → ∀ v, Freed w w' v →
    ¬image.Names v
  records : ∀ vm m, w.machine vm = some m → ¬Freed w w' vm → ∃ m', w'.machine vm = some m' ∧ Vm.Settled m m'

/-- The mark phase gets to the machine and walks it. -/
def Walks (w : World ι) (vm : VmId) (m : Machine) : Prop := w.Reached vm ∧ m.vm.state ≠ .empty

/-- The pass leaves the machine: the mark phase gets to it, or the sweep spares it. -/
def Stays (w : World ι) (vm : VmId) (m : Machine) : Prop :=
  w.machine vm = some m ∧ vm ∉ w.freeSlots ∧ (w.Reached vm ∨ w.isSpared vm m = true)

/-- The machine is free already, the mark phase gets to it, or its own state keeps it. -/
def Secure (w : World ι) (v : VmId) : Prop :=
  ∀ m, w.machine v = some m → v ∈ w.freeSlots ∨ w.Reached v ∨ w.isBusy v m = true

/-- The walk of the machine that finds its VM images fails. -/
def WalkFails (w : World ι) (m : Machine) : Prop :=
  m.vm.state ≠ .empty ∧ ∃ e, snapshotOrdinals w.scratch m.vm.heap m.snapshotRoots m.config.graph = some (.error e)

/-- Whatever a machine that stays, or a VM image that it holds, names where the mark phase does not look is secure
without that. A machine or an image that is not walked has no other names. Where there are images, no walk of a machine
that stays fails, however the sweep settles it: a failed walk leaves dead images live. -/
structure NamedInSight (w : World ι) : Prop where
  machines : ∀ vm m v, w.Stays vm m → m.Names v → (w.Walks vm m → m.Hides v) → w.Secure v
  images : ∀ vm m key image v, w.Stays vm m → m.HoldsImage key → w.liveImage key = some image → image.Names v →
    ((∃ vm m, w.machine vm = some m ∧ w.Walks vm m ∧ NamesImage m.materialize.2 key) → image.Hides v) → w.Secure v
  walked : w.vmImages ≠ [] → ∀ vm m m', w.Stays vm m → Vm.Settled m m' → ¬w.WalkFails m'

section Walk

theorem Marking.hides_of_names (h : Marking w marked [] w₁) (hf : w.Formed) (hm : w.machine vm = some m)
    (hw : w.Walks vm m) (hv : v < w.machines.length) (hr : ¬w.Reached v) (hn : m.Names v)
    (hfree : v ∉ w.freeSlots) : m.Hides v := by
  obtain ⟨found, hc, hl⟩ := h.covers hw.1 hm hw.2 (hf.machines vm m hm).slotted fun image hi => (hf.images image hi).1
  rcases hn with ⟨r, n, hu, hn, ho⟩ | hn | hn
  · refine .inl ⟨r, n, hu, fun hs => hr (hl v (.inl (hc.objects v ⟨r, n, ?_, ?_, ho⟩)) hv), hn, ho⟩
    · rwa [materialize_heap]
    · rwa [materialize_heap]
  · rcases mem_append.mp hn with hp | ht
    · exact absurd (hl v (.inr ⟨mem_toList.mp hp, hfree⟩) hv) hr
    · refine absurd (hl v (.inl (hc.controls v ?_)) hv) hr
      rwa [controlTargets, materialize_vm, ← controlTargets]
  · exact .inr hn

theorem handleNamed_eq {o : Object} (h : machineNamed o = some v) : handleNamed o = none ∨ handleNamed o = some v := by
  cases o <;> first | exact .inl rfl | exact .inr h

theorem Marking.image_hides_of_names (h : Marking w marked [] w₁) (hf : w.Formed) (hm : w.machine vm = some m)
    (hw : w.Walks vm m) (hk : NamesImage m.materialize.2 key) (hi : w.liveImage key = some image)
    (hv : v < w.machines.length) (hr : ¬w.Reached v) (hn : image.Names v) : image.Hides v := by
  obtain ⟨found, hc, hl⟩ := h.covers hw.1 hm hw.2 (hf.machines vm m hm).slotted fun image hi => (hf.images image hi).1
  obtain ⟨hp, ho⟩ := hc.images key hk image hi
  rcases hn with hn | ⟨r, n, hu, hn, ho'⟩
  · exact absurd (hl v (.inl (hp v hn)) hv) hr
  · rcases handleNamed_eq ho' with hh | hh
    · exact ⟨r, n, hu, hn, ho', hh⟩
    · exact absurd (hl v (.inl (ho r n.2 hu (tryGet_of_named hn ho') v hh)) hv) hr

end Walk

section Pass

variable (hs : Sweeping w w₁ marked (List.range w.machines.length) freed w₂) (hm : Marking w marked [] w₁)

include hs hm

/-- A machine that the sweep takes is secure in no way. -/
theorem Sweeping.not_secure (hv : v ∈ freed) : ¬w.Secure v ∧ v < w.machines.length ∧ ¬w.Reached v ∧ v ∉ w.freeSlots := by
  obtain ⟨hn, hf, hin, m, hm', hb⟩ := hs.fresh v hv
  have hr : ¬w.Reached v := fun hr => hn (hm.mem_iff.mpr hr)
  refine ⟨fun hse => ?_, mem_range.mp hin, hr, hf⟩
  rcases hse m hm' with h | h | h
  · exact hf h
  · exact hr h
  · rw [hb] at h
    cases h

/-- A machine that the sweep leaves stays, and has only settled. -/
theorem Sweeping.stays (hm' : w₂.machine vm = some m') (hf : vm ∉ w₂.freeSlots) :
    ∃ m, w.Stays vm m ∧ Vm.Settled m m' := by
  have hfree : w₂.freeSlots = w.vmFree ++ freed ++ w.mockFree := by
    rw [freeSlots, hs.vmFree, hs.rest, hm.rest]
  simp only [hfree, mem_append, not_or] at hf
  obtain ⟨m, hmw⟩ := hs.resident vm m' hm'
  obtain ⟨m₂, hm₂, ht⟩ := hs.records vm m hmw hf.1.2
  rw [hm'] at hm₂
  cases hm₂
  have hnf : vm ∉ w.freeSlots := by
    rw [freeSlots, mem_append, not_or]
    exact ⟨hf.1.1, hf.2⟩
  refine ⟨m, ⟨hmw, hnf, ?_⟩, ht⟩
  rcases hs.judged vm (mem_range.mpr (w.machine_lt hmw)) with h | h | h | ⟨m₀, hm₀, h⟩
  · exact absurd h hf.1.2
  · exact .inl (hm.mem_iff.mp h)
  · exact absurd h hnf
  · rw [hmw] at hm₀
    cases hm₀
    exact .inr h

end Pass

section Images

theorem usedVmImages_named {vms : List VmId} {used : List ℕ} {i : ℕ} (hf : w.Formed)
    (h : w.usedVmImages vms = some (some used)) (hi : i ∈ used) : ∃ vm m key, w.machine vm = some m ∧
      vm ∉ w.freeSlots ∧ NamesImage m key ∧ key.image = i ∧ (w.liveImage key).isSome = true := by
  fun_induction usedVmImages w vms generalizing used with
  | case1 =>
    cases h
    cases hi
  | case2 | case4 | case5 => cases h
  | case3 vm vms m hm hskip ih => exact ih h hi
  | case6 vm vms m hm hwalk order ho ih =>
    obtain ⟨rest, hr, he⟩ := map_eq_some_iff.mp h
    obtain ⟨used', rfl, rfl⟩ := map_eq_some_iff.mp he
    rcases mem_append.mp hi with hi | hi
    · obtain ⟨key, hk, rfl⟩ := mem_map.mp hi
      obtain ⟨hk, hl⟩ := mem_filter.mp hk
      refine ⟨vm, m, key, hm, (not_or.mp hwalk).1, ?_, rfl, hl⟩
      rcases mem_append.mp hk with hk | hk
      · exact .inl (mem_toList.mp hk)
      · obtain ⟨o, hin, hko⟩ := mem_filterMap.mp hk
        obtain ⟨r, hr', hg⟩ := mem_filterMap.mp hin
        exact .inr ⟨r, o, (mem_snapshotOrdinals (hf.machines vm m hm).slotted ho).mp hr', hg, hko⟩
    · exact ih hr hi

theorem usedVmImages_failed {vms : List VmId} (h : w.usedVmImages vms = some none) :
    ∃ vm m, w.machine vm = some m ∧ vm ∉ w.freeSlots ∧ w.WalkFails m := by
  fun_induction usedVmImages w vms with
  | case1 | case2 | case4 => cases h
  | case3 vm vms m hm hskip ih => exact ih h
  | case5 vm vms m hm hwalk e he =>
    obtain ⟨hn, hs⟩ := not_or.mp hwalk
    exact ⟨vm, m, hm, hn, hs, e, he⟩
  | case6 vm vms m hm hwalk order ho ih =>
    obtain ⟨rest, hr, he⟩ := map_eq_some_iff.mp h
    exact ih (map_eq_none_iff.mp he ▸ hr)

theorem collectVmImages_held (hf : w.Formed)
    (hw : w.vmImages ≠ [] → ∀ vm m, w.machine vm = some m → vm ∉ w.freeSlots → ¬w.WalkFails m)
    (h : w.collectVmImages = some w') {i : ℕ} (hi : w'.vmImages[i]? = some image) (hl : image.live = true) :
    ∃ vm m key, w.machine vm = some m ∧ vm ∉ w.freeSlots ∧ NamesImage m key ∧ w.liveImage key = some image := by
  unfold collectVmImages at h
  split at h
  · next he =>
    cases h
    rw [he] at hi
    cases hi
  · next hne =>
    obtain ⟨used, hu, he⟩ := map_eq_some_iff.mp h
    cases used with
    | none =>
      obtain ⟨vm, m, hm, hn, hfail⟩ := usedVmImages_failed hu
      exact absurd hfail (hw hne vm m hm hn)
    | some used =>
      cases he
      rw [getElem?_mapIdx] at hi
      obtain ⟨record, hr, hm⟩ := map_eq_some_iff.mp hi
      split at hm
      · next hin =>
        subst hm
        rw [hl] at hin
        obtain ⟨vm, m, key, hm, hn, hk, rfl, hs⟩ := usedVmImages_named hf hu (hin.resolve_left (by decide))
        refine ⟨vm, m, key, hm, hn, hk, ?_⟩
        obtain ⟨image', hs⟩ := isSome_iff_exists.mp hs
        rw [hs]
        simp only [liveImage, hr] at hs
        split at hs
        · exact hs.symm
        · cases hs
      · subst hm
        cases hl

end Images

section Trio

def allocated (h : Heap) (o : Object) : Heap := ((h.alloc o).map Prod.snd).getD h

theorem new_formed : (Heap.new 4096).Slotted ∧ (Heap.new 4096).hostRoots = [] := ⟨Heap.slotted_new 4096, rfl⟩

theorem allocated_formed {h : Heap} (hs : h.Slotted ∧ h.hostRoots = []) (o : Object) :
    (allocated h o).Slotted ∧ (allocated h o).hostRoots = [] := by
  unfold allocated
  cases ha : h.alloc o with
  | none => exact hs
  | some x =>
    refine ⟨hs.1.alloc ha, ?_⟩
    rw [map_some, getD_some, (Heap.alloc_room hs.1.tabled ha).2.2.1, hs.2]

def runHeap (vm : UInt32) : Heap := allocated (.new 4096) (.nativeRun vm)

theorem runHeap_formed (vm : UInt32) : (runHeap vm).Slotted ∧ (runHeap vm).hostRoots = [] :=
  allocated_formed new_formed (.nativeRun vm)

def holder (heap : Heap) (parent : Option VmId) (children : ℕ) : Machine :=
  { vm := { heap, state := .ready, parent, arenas := { operands := [.obj ⟨0, 0⟩] } }
    config := smallConfig
    children }

theorem holder_heap (heap : Heap) (parent : Option VmId) (children : ℕ) : (holder heap parent children).vm.heap = heap :=
  rfl

/-- Machines 0 and 1 hold a run of machine 2, and nothing names machine 1. -/
def trio : World Unit :=
  { machines := [some (holder (runHeap 2) none 2), some (holder (runHeap 2) (some 0) 0),
      some { vm := { heap := .new 4096, state := .ready, parent := some 0 }, config := smallConfig }]
    config := smallConfig }

theorem formed_of_all (hm : ∀ m, some m ∈ w.machines → (m.vm.heap.Slotted ∧ m.vm.heap.hostRoots = []) ∧ m.native = none)
    (hi : w.vmImages = []) : w.Formed := by
  refine ⟨fun vm m h => ?_, fun image h => absurd (hi ▸ h) not_mem_nil⟩
  obtain ⟨hf, hn⟩ := hm m (mem_of_getElem? (join_eq_some_iff.mp h))
  exact ⟨hf.1, hf.2, fun native h => by rw [hn] at h; cases h⟩

theorem trio_formed : trio.Formed := by
  refine formed_of_all (fun m hm => ?_) rfl
  simp only [trio, mem_cons, Option.some.injEq, not_mem_nil, or_false] at hm
  rcases hm with rfl | rfl | rfl
  · rw [holder_heap]
    exact ⟨runHeap_formed 2, rfl⟩
  · rw [holder_heap]
    exact ⟨runHeap_formed 2, rfl⟩
  · exact ⟨new_formed, rfl⟩

theorem trio_reached : trio.Reached 0 ∧ trio.Reached 2 := by
  have hroot : (0 : VmId) ∈ trio.markRoots trio.freeSlots := by decide +kernel
  have hnext : trio.followed 0 = some [2] := by decide +kernel
  exact ⟨⟨0, hroot, .refl⟩, 0, hroot, .single ⟨[2], hnext, mem_singleton_self 2⟩⟩

theorem under_leaf {h : Heap} {r x : ObjRef} (hr : h.succ r = some []) (hu : h.Under [r] x) : x = r := by
  obtain ⟨⟨root, hin, hp⟩, -⟩ := hu
  rw [mem_singleton.mp hin] at hp
  rcases hp.cases_head with rfl | ⟨y, ⟨next, hs, hy⟩, -⟩
  · rfl
  · rw [hr] at hs
    cases hs
    cases hy

theorem holder_names {parent : Option VmId} {children : ℕ} (hn : (holder (runHeap 2) parent children).Names v) :
    parent = some v ∨ v = 2 := by
  have hleaf : (runHeap 2).succ ⟨0, 0⟩ = some [] := by decide +kernel
  have hnode : (runHeap 2).node ⟨0, 0⟩ = some (true, .nativeRun 2) := by decide +kernel
  rcases hn with ⟨r, n, hu, hg, ho⟩ | hn | hn
  · have hroots : ∀ heap, (holder heap parent children).gcRoots [] = [⟨0, 0⟩] := fun _ => rfl
    rw [hroots, holder_heap] at hu
    rw [holder_heap, under_leaf hleaf hu, hnode] at hg
    cases hg
    exact .inr (Option.some.inj ho).symm
  · exact .inl (mem_toList.mp ((mem_append.mp hn).resolve_right not_mem_nil))
  · cases hn

theorem trio_names {u v : VmId} {m : Machine} (hm : trio.machine u = some m) (hn : m.Names v) : v = 0 ∨ v = 2 := by
  have hin := mem_of_getElem? (join_eq_some_iff.mp hm)
  simp only [trio, mem_cons, Option.some.injEq, not_mem_nil, or_false] at hin
  rcases hin with rfl | rfl | rfl
  · exact (holder_names hn).elim (fun he => by cases he) .inr
  · exact (holder_names hn).imp_left fun he => (Option.some.inj he).symm
  · rcases hn with ⟨r, n, ⟨⟨root, hin, -⟩, -⟩, -⟩ | hn | hn
    · cases hin
    · exact .inl (mem_singleton.mp hn)
    · cases hn

theorem trio_inSight : trio.NamedInSight := by
  refine ⟨fun vm m v hs hn _ m' _ => ?_, fun vm m key image v _ _ hi => ?_, fun hne => absurd rfl hne⟩
  · obtain rfl | rfl := trio_names hs.1 hn
    · exact .inr (.inl trio_reached.1)
    · exact .inr (.inl trio_reached.2)
  · cases hi

end Trio

section Mock

def mockHeap : Heap := allocated (runHeap 1) (.closure 0 [.obj ⟨0, 0⟩] 0)

theorem mockHeap_formed : mockHeap.Slotted ∧ mockHeap.hostRoots = [] :=
  allocated_formed (runHeap_formed 1) (.closure 0 [.obj ⟨0, 0⟩] 0)

def mocker (heap : Heap) (children : ℕ) : Machine :=
  { vm := { heap, state := .ready }
    config := smallConfig
    children
    table := { exact := [some (.mock ⟨1, 0⟩)] } }

theorem mocker_heap (heap : Heap) (children : ℕ) : (mocker heap children).vm.heap = heap := rfl

/-- Only a mock of the policy table of machine 0 refers to the closure, which captures a run of machine 1. -/
def mockPair : World Unit :=
  { machines := [some (mocker mockHeap 1),
      some { vm := { heap := .new 4096, state := .ready, parent := some 0 }, config := smallConfig }]
    config := smallConfig }

theorem mockPair_formed : mockPair.Formed := by
  refine formed_of_all (fun m hm => ?_) rfl
  simp only [mockPair, mem_cons, Option.some.injEq, not_mem_nil, or_false] at hm
  rcases hm with rfl | rfl
  · rw [mocker_heap]
    exact ⟨mockHeap_formed, rfl⟩
  · exact ⟨new_formed, rfl⟩

end Mock

end World

end LoomV4.Vm
