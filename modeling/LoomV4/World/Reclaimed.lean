import LoomV4.World.Marking
import LoomV4.World.CutRuns

namespace LoomV4.Vm

open Abi Proc Lib List Option

inductive Settled : Machine → Machine → Prop
  | same (m : Machine) : Settled m m
  | materialized (m : Machine) : Settled m m.materialize.2
  | released {m m' : Machine} (h : Settled m m') : Settled m { m' with children := m'.children - 1 }
  | compacted {m m' m'' : Machine} {host : Bool} (h : Settled m m') (hc : m'.children = 0)
    (ht : m'.compactTerminalProc host = some m'') : Settled m m''

section Spared

variable {ι : Type} {w w' : World ι} {vm : VmId} {m m' : Machine}

/-- What the sweep leaves alone whatever becomes of its resources. -/
def World.isBusy (w : World ι) (vm : VmId) (m : Machine) : Bool :=
  decide (w.isHeld vm m = true ∨ m.vm.state = .running ∨ m.vm.state = .waiting ∨ m.vm.state = .blocked)

theorem Machine.compactTerminalProc_cases {host : Bool} (h : m.compactTerminalProc host = some m') : m' = m ∨
    ∃ heap terminal, m' = { m.cleared with vm.heap := heap, vm.terminal := terminal } := by
  unfold compactTerminalProc at h
  split at h
  · exact .inl (some.inj h).symm
  · split at h
    · cases h
    · split at h
      · exact .inr ⟨_, m.vm.terminal, (some.inj h).symm⟩
      · split at h
        · split at h
          · exact .inr ⟨_, _, (some.inj h).symm⟩
          · exact .inr ⟨_, m.vm.terminal, (some.inj h).symm⟩
        · exact .inr ⟨_, m.vm.terminal, (some.inj h).symm⟩

theorem World.isHeld_materialize (w : World ι) (vm : VmId) (m : Machine) : w.isHeld vm m.materialize.2 = w.isHeld vm m := by
  unfold Machine.materialize
  split
  · rfl
  · split <;> rfl

theorem World.materialize_resources (m : Machine) : m.materialize.2.resources = m.resources := by
  unfold Machine.materialize
  split
  · rfl
  · split <;> rfl

theorem Settled.judged (h : Settled m m') (w : World ι) (vm : VmId) : w.isHeld vm m' = w.isHeld vm m ∧
    m'.vm.state = m.vm.state ∧ (m'.resources = m.resources ∨ m'.resources = []) := by
  induction h with
  | same => exact ⟨rfl, rfl, .inl rfl⟩
  | materialized => exact ⟨World.isHeld_materialize w vm _, World.materialize_state _, .inl (World.materialize_resources _)⟩
  | released _ ih => exact ih
  | compacted _ _ ht ih =>
    obtain ⟨hh, hs, hr⟩ := ih
    obtain rfl | ⟨heap, terminal, rfl⟩ := Machine.compactTerminalProc_cases ht
    · exact ⟨hh, hs, hr⟩
    · exact ⟨hh, hs, .inr rfl⟩

theorem Settled.isBusy_eq (h : Settled m m') (w : World ι) (vm : VmId) : w.isBusy vm m' = w.isBusy vm m := by
  obtain ⟨hh, hs, -⟩ := h.judged w vm
  rw [World.isBusy, World.isBusy, hh, hs]

theorem Settled.isSpared (h : Settled m m') (hs : w.isSpared vm m' = true) : w.isSpared vm m = true := by
  obtain ⟨hh, ht, hr⟩ := h.judged w vm
  rw [World.isSpared, decide_eq_true_eq] at hs ⊢
  rw [hh, ht] at hs
  rcases hr with hr | hr
  · rwa [hr] at hs
  · simp only [hr, filter_nil, length_nil, lt_irrefl, false_or] at hs
    exact hs.imp_right .inr

theorem World.isBusy_of_isSpared (h : w.isSpared vm m = false) : w.isBusy vm m = false := by
  rw [isSpared, decide_eq_false_iff_not] at h
  rw [isBusy, decide_eq_false_iff_not]
  exact fun hb => h (hb.imp_right .inr)

theorem World.isHeld_congr (hp : w'.schedulerProcs = w.schedulerProcs) : w'.isHeld vm m = w.isHeld vm m := by
  simp [isHeld, retiredSchedulerMachine, hp]

end Spared

namespace World

variable {ι : Type} {w w' w₀ w₁ : World ι} {vm v : VmId} {m m' : Machine} {host : VmId → Bool}
  {marked seen freed : List VmId}

section Sweep

/-- The sweep after it has looked at `seen`: each machine there was reclaimed, marked, free already or spared. -/
structure Sweeping (w₀ w₁ : World ι) (marked seen freed : List VmId) (w : World ι) : Prop where
  vmFree : w.vmFree = w₁.vmFree ++ freed
  rest : w = { w₁ with machines := w.machines, vmFree := w.vmFree }
  length : w.machines.length = w₁.machines.length
  fresh : ∀ v ∈ freed, v ∉ marked ∧ v ∉ w₀.freeSlots ∧ v ∈ seen ∧
    ∃ m, w₀.machine v = some m ∧ w₀.isBusy v m = false
  judged : ∀ v ∈ seen, v ∈ freed ∨ v ∈ marked ∨ v ∈ w₀.freeSlots ∨
    ∃ m, w₀.machine v = some m ∧ w₀.isSpared v m = true
  records : ∀ vm m, w₀.machine vm = some m → vm ∉ freed → ∃ m', w.machine vm = some m' ∧ Settled m m'
  blanks : ∀ v ∈ freed, ∃ generation m', w.machine v = some m' ∧ Settled (.blank w₁.config generation) m'
  resident : ∀ vm m, w.machine vm = some m → ∃ m₀, w₀.machine vm = some m₀

theorem releaseChild_spec {up : VmId} (h : w.releaseChild host up = some w') :
    w' = { w with machines := w'.machines } ∧ w'.machines.length = w.machines.length ∧
      (∀ vm m m0, w.machine vm = some m → Settled m0 m → ∃ m', w'.machine vm = some m' ∧ Settled m0 m') ∧
      ∀ vm m', w'.machine vm = some m' → ∃ m, w.machine vm = some m := by
  unfold releaseChild at h
  cases hr : w.machine up with
  | none =>
    rw [hr] at h
    cases h
  | some record =>
    simp only [hr] at h
    obtain ⟨record', ho, rfl⟩ := map_eq_some_iff.mp h
    refine ⟨rfl, by simp [setMachine], fun vm m m0 hm hs => ?_, fun vm m' hm' => ?_⟩
    · rw [w.machine_setMachine hr]
      split
      · next he =>
        subst he
        rw [hm] at hr
        cases hr
        refine ⟨record', rfl, ?_⟩
        split at ho
        · next hc => exact .compacted hs.released hc ho
        · cases ho
          exact hs.released
      · exact ⟨m, hm, hs⟩
    · rw [w.machine_setMachine hr] at hm'
      split at hm'
      · next he => exact ⟨record, he ▸ hr⟩
      · exact ⟨m', hm'⟩

theorem Sweeping.look {id : VmId} (h : Sweeping w₀ w₁ marked seen freed w)
    (hj : id ∈ freed ∨ id ∈ marked ∨ id ∈ w₀.freeSlots ∨ ∃ m, w₀.machine id = some m ∧ w₀.isSpared id m = true) :
    Sweeping w₀ w₁ marked (seen ++ [id]) freed w := by
  refine ⟨h.vmFree, h.rest, h.length, fun v hv => ?_, forall_append_singleton h.judged hj, h.records, h.blanks,
    h.resident⟩
  obtain ⟨hm, hf, hs, hb⟩ := h.fresh v hv
  exact ⟨hm, hf, mem_append_left _ hs, hb⟩

theorem Sweeping.free {id : VmId} {w2 wb : World ι} (h : Sweeping w₀ w₁ marked seen freed w) (generation : ℕ)
    (hid : id ∉ marked ∧ id ∉ w₀.freeSlots) (hm : w.machine id = some m)
    (hb : ∃ m, w₀.machine id = some m ∧ w₀.isBusy id m = false)
    (hwb : wb = w.setMachine id (.blank w.config generation))
    (hre : w2 = { wb with machines := w2.machines } ∧ w2.machines.length = wb.machines.length ∧
      (∀ vm m m0, wb.machine vm = some m → Settled m0 m → ∃ m', w2.machine vm = some m' ∧ Settled m0 m') ∧
      ∀ vm m', w2.machine vm = some m' → ∃ m, wb.machine vm = some m) :
    Sweeping w₀ w₁ marked (seen ++ [id]) (freed ++ [id]) { w2 with vmFree := w2.vmFree ++ [id] } := by
  have hl : ∀ vm, wb.machine vm = if vm = id then some (.blank w.config generation) else w.machine vm := by
    rw [hwb]
    exact w.machine_setMachine hm
  obtain ⟨hre, hn, hr, hi⟩ := hre
  have hc : w.config = w₁.config := by rw [h.rest]
  refine ⟨?_, ?_, ?_, fun v hv => ?_, fun v hv => ?_, ?_, ?_, ?_⟩
  · rw [hre, hwb]
    simp only [setMachine, h.vmFree, append_assoc]
  · rw [hre, hwb]
    simp only [setMachine]
    rw [h.rest]
  · rw [hn, hwb, setMachine, length_set, h.length]
  · rcases mem_append.mp hv with hv | hv
    · obtain ⟨hm, hf, hs, hb⟩ := h.fresh v hv
      exact ⟨hm, hf, mem_append_left _ hs, hb⟩
    · rw [mem_singleton.mp hv]
      exact ⟨hid.1, hid.2, mem_append_right _ (mem_singleton_self id), hb⟩
  · rcases mem_append.mp hv with hv | hv
    · exact (h.judged v hv).imp_left (mem_append_left _)
    · exact .inl (mem_append_right _ hv)
  · intro vm m0 hm0 hvm
    rw [mem_append, mem_singleton, not_or] at hvm
    obtain ⟨m1, hm1, ht⟩ := h.records vm m0 hm0 hvm.1
    refine hr vm m1 m0 ?_ ht
    rw [hl, if_neg hvm.2, hm1]
  · intro vm hvm
    by_cases he : vm = id
    · subst he
      obtain ⟨m', hm', ht⟩ := hr vm _ _ (by rw [hl, if_pos rfl]) (.same _)
      exact ⟨_, m', hm', hc ▸ ht⟩
    · obtain ⟨generation, m1, hm1, ht⟩ := h.blanks vm ((mem_append.mp hvm).resolve_right (by simpa using he))
      obtain ⟨m', hm', ht'⟩ := hr vm m1 _ (by rw [hl, if_neg he, hm1]) ht
      exact ⟨generation, m', hm', ht'⟩
  · intro vm m' hm'
    obtain ⟨m1, hm1⟩ := hi vm m' hm'
    rw [hl] at hm1
    split at hm1
    · next he => exact he ▸ h.resident id m hm
    · exact h.resident vm m1 hm1

theorem Sweeping.sweepOne {id : VmId} (h : Sweeping w₀ w₁ marked seen freed w)
    (hp : w₁.schedulerProcs = w₀.schedulerProcs) (hid : id ∉ seen)
    (hs : sweepOne host marked w₀.freeSlots w id = some w') :
    ∃ freed', Sweeping w₀ w₁ marked (seen ++ [id]) freed' w' := by
  unfold World.sweepOne at hs
  split at hs
  · next hw =>
    cases hs
    exact ⟨freed, h.look (.inr (hw.imp_right .inl))⟩
  · next hw =>
    cases hm : w.machine id with
    | none =>
      rw [hm] at hs
      cases hs
    | some m =>
      -- the record has only settled since the pass began, so it is judged as it was then
      obtain ⟨m₀, hm₀⟩ := h.resident id m hm
      obtain ⟨m', hm', ht⟩ := h.records id m₀ hm₀ fun hf => hid (h.fresh id hf).2.2.1
      rw [hm] at hm'
      cases hm'
      have hh : ∀ x, w.isHeld id x = w₀.isHeld id x := fun x => isHeld_congr (by rw [h.rest]; exact hp)
      have hsp : ∀ x, w.isSpared id x = w₀.isSpared id x := fun x => by simp only [World.isSpared, hh]
      simp only [hm, hsp] at hs
      split at hs
      · next hspared =>
        cases hs
        exact ⟨freed, h.look (.inr (.inr (.inr ⟨m₀, hm₀, ht.isSpared hspared⟩)))⟩
      · next hspared =>
        obtain ⟨w2, hrl, rfl⟩ := map_eq_some_iff.mp hs
        have hbusy := isBusy_of_isSpared (Bool.eq_false_iff.mpr hspared)
        rw [ht.isBusy_eq] at hbusy
        refine ⟨freed ++ [id], h.free ((m.generation + 1) % 2 ^ 32) (not_or.mp hw) hm ⟨m₀, hm₀, hbusy⟩ rfl ?_⟩
        split at hrl
        · cases hrl
          exact ⟨rfl, rfl, fun vm m m0 hm hs => ⟨m, hm, hs⟩, fun vm m' hm => ⟨m', hm⟩⟩
        · exact releaseChild_spec hrl

theorem Sweeping.run {ids : List VmId} (h : Sweeping w₀ w₁ marked seen freed w)
    (hp : w₁.schedulerProcs = w₀.schedulerProcs) (hi : (seen ++ ids).Nodup)
    (hs : ids.foldlM (World.sweepOne host marked w₀.freeSlots) w = some w') :
    ∃ freed', Sweeping w₀ w₁ marked (seen ++ ids) freed' w' := by
  induction ids generalizing w freed seen with
  | nil =>
    cases hs
    exact ⟨freed, by rwa [append_nil]⟩
  | cons id ids ih =>
    rw [foldlM_cons] at hs
    obtain ⟨w2, ho, hr⟩ := bind_eq_some_iff.mp hs
    obtain ⟨freed', h'⟩ := h.sweepOne hp (fun hin => (nodup_append.mp hi).2.2 id hin id mem_cons_self rfl) ho
    rw [← singleton_append, ← append_assoc] at hi ⊢
    exact ih h' hi hr

theorem collectVmImages_spec (h : w.collectVmImages = some w') :
    w' = { w with vmImages := w'.vmImages, vmImageFree := w'.vmImageFree } ∧
      ∀ (i : ℕ) (image : VmImageRecord), w'.vmImages[i]? = some image →
        w.vmImages[i]? = some image ∨ (image.live = false ∧ image.heap = .new image.config.heapBytes) := by
  unfold collectVmImages at h
  split at h
  · cases h
    exact ⟨rfl, fun i image hi => .inl hi⟩
  · obtain ⟨used, -, he⟩ := map_eq_some_iff.mp h
    cases used with
    | none =>
      cases he
      exact ⟨rfl, fun i image hi => .inl hi⟩
    | some used =>
      cases he
      refine ⟨rfl, fun i image hi => ?_⟩
      rw [getElem?_mapIdx] at hi
      obtain ⟨record, hr, hm⟩ := map_eq_some_iff.mp hi
      split at hm
      · exact .inl (by rw [hr, hm])
      · subst hm
        exact .inr ⟨rfl, rfl⟩

theorem collectImages_spec (h : w.collectImages = some w') :
    w' = { w with images := w'.images, imageFree := w'.imageFree } := by
  unfold collectImages at h
  split at h
  · cases h
    rfl
  · obtain ⟨used, -, he⟩ := map_eq_some_iff.mp h
    cases used <;> (cases he; rfl)

end Sweep

section Pass

def swept (host : VmId → Bool) (w : World ι) : Option (World ι) :=
  match markFrom w.machines.length w.freeSlots w.machines.length [] (w.markRoots w.freeSlots) w with
  | some (some marked, w₁) => (List.range w₁.machines.length).foldlM (World.sweepOne host marked w.freeSlots) w₁
  | _ => none

def imagePass (host : VmId → Bool) (w : World ι) : Option (World ι) := (w.swept host).bind collectVmImages

theorem Marking.sweeping (h : Marking w marked [] w₁) : Sweeping w w₁ marked [] [] w₁ := by
  refine ⟨by rw [append_nil], rfl, rfl, fun v hv => absurd hv not_mem_nil, fun v hv => absurd hv not_mem_nil,
    fun vm m hm _ => ?_, fun v hv => absurd hv not_mem_nil, h.resident⟩
  rcases h.records vm m hm with hr | hr
  · exact ⟨m, hr, .same m⟩
  · exact ⟨_, hr, .materialized m⟩

theorem swept_spec (h : w.swept host = some w') : ∃ marked w₁ freed, Marking w marked [] w₁ ∧
    Sweeping w w₁ marked (List.range w.machines.length) freed w' := by
  unfold swept at h
  split at h
  · next marked w₁ hk =>
    have hm := (markFrom_spec (Marking.start w) hk).2 marked rfl
    obtain ⟨freed, hs⟩ := hm.sweeping.run (by rw [hm.rest]) (by simpa using nodup_range) h
    rw [nil_append, hm.length] at hs
    exact ⟨marked, w₁, freed, hm, hs⟩
  · cases h

theorem collectMachines_split {n : ℕ} (h : w.collectMachines host = some (n, w')) :
    Looked w w' ∨ ∃ w2 w3, w.swept host = some w2 ∧ w2.collectVmImages = some w3 ∧ w3.collectImages = some w' := by
  unfold collectMachines at h
  split at h
  · cases h
    exact .inl (.refl w)
  · split at h
    · cases h
    · cases hk : markFrom w.machines.length w.freeSlots w.machines.length [] (w.markRoots w.freeSlots) w with
      | none =>
        simp only [hk] at h
        cases h
      | some x =>
        obtain ⟨out, w₁⟩ := x
        simp only [hk] at h
        cases out with
        | none =>
          cases h
          exact .inl (markFrom_spec (Marking.start w) hk).1
        | some marked =>
          simp only at h
          split at h
          · cases h
          · next w2 hs =>
            obtain ⟨w4, hw4, he⟩ := map_eq_some_iff.mp h
            cases he
            obtain ⟨w3, hvm, hi⟩ := bind_eq_some_iff.mp hw4
            refine .inr ⟨w2, w3, ?_, hvm, hi⟩
            rw [swept, hk]
            exact hs

end Pass

end World

end LoomV4.Vm
