import LoomV4.World.References

namespace LoomV4.Vm

open Abi Proc Lib Option

variable {ι : Type} {w w' : World ι} {vm : VmId}

def Machine.unmarked (m : Machine) : Machine := { m with barrier := none, vm.mailbox.frozen := false }

def Machine.core (m : Machine) : Except FaultCode Unit × Machine := (m.materialize.1, m.materialize.2.unmarked)

theorem Machine.state_core (m : Machine) : m.core.2.vm.state = m.vm.state := by
  unfold core materialize
  split
  · rfl
  · split <;> rfl

namespace World

def flags (w : World ι) (vm : VmId) : Option (Option ℕ × Bool) :=
  (w.machine vm).map fun m => (m.barrier, m.vm.mailbox.frozen)

def SameFlags (w w' : World ι) : Prop := ∀ vm, w'.flags vm = w.flags vm

structure Kept (w w' : World ι) : Prop where
  machines : ∀ vm, (w'.machine vm).map Machine.core = (w.machine vm).map Machine.core
  vmImages : w'.vmImages = w.vmImages
  scratch : w'.scratch = w.scratch
  length : w'.machines.length = w.machines.length

theorem Kept.refl (w : World ι) : Kept w w := ⟨fun _ => rfl, rfl, rfl, rfl⟩

theorem Kept.trans {w'' : World ι} (h : Kept w w') (h' : Kept w' w'') : Kept w w'' :=
  ⟨fun vm => (h'.machines vm).trans (h.machines vm), h'.vmImages.trans h.vmImages, h'.scratch.trans h.scratch,
    h'.length.trans h.length⟩

def succ (w : World ι) (vm : VmId) : Option (List VmId) :=
  match w.machine vm with
  | none => none
  | some m =>
    if m.vm.state = .empty then some []
    else match w.machineReferences vm with
      | some (.ok found, _) => some found
      | _ => none

section Frame

theorem named_congr (hv : w'.vmImages = w.vmImages) (hs : w'.scratch = w.scratch) (m : Machine) :
    w'.named m = w.named m := by
  have hi : ∀ keys out, w'.imageMachines keys out = w.imageMachines keys out := by
    intro keys
    induction keys with
    | nil => intro out; rfl
    | cons key keys ih =>
      intro out
      have hl : w'.liveImage key = w.liveImage key := by
        unfold liveImage
        rw [hv]
      simp only [imageMachines, hl, hs, ih]
  simp only [named, hi, hs]

def coreReferences (w : World ι) : Except FaultCode Unit × Machine → Option (Except FaultCode (List VmId))
  | (.error e, _) => some (.error e)
  | (.ok _, m) => w.named m

variable {m : Machine}

theorem machineReferences_eq (hm : w.machine vm = some m) : w.machineReferences vm =
      (w.coreReferences m.core).map (fun out => (out, w.setMachine vm m.materialize.2)) := by
  simp only [machineReferences, hm, Machine.core, coreReferences]
  cases m.materialize with
  | mk out m' => cases out <;> rfl

theorem succ_eq : w.succ vm = (w.machine vm).bind (fun m =>
    if m.core.2.vm.state = .empty then some []
    else match w.coreReferences m.core with
      | some (.ok found) => some found
      | _ => none) := by
  unfold succ
  cases hm : w.machine vm with
  | none => rfl
  | some m =>
    simp only [bind_some, Machine.state_core, machineReferences_eq hm]
    congr 1
    cases w.coreReferences m.core with
    | none => rfl
    | some out => cases out <;> rfl

theorem Kept.succ_eq (h : Kept w w') (vm : VmId) : w'.succ vm = w.succ vm := by
  have hm := h.machines vm
  have hr : ∀ c, w'.coreReferences c = w.coreReferences c := by
    rintro ⟨out, m⟩
    cases out with
    | error e => rfl
    | ok _ => exact named_congr h.vmImages h.scratch m
  rw [World.succ_eq, World.succ_eq]
  cases hw : w.machine vm with
  | none =>
    rw [hw, map_none, map_eq_none_iff] at hm
    rw [hm]
    rfl
  | some m =>
    rw [hw, map_some] at hm
    obtain ⟨m', hm', hc⟩ := map_eq_some_iff.mp hm
    rw [hm', bind_some, bind_some, hc, hr]

theorem kept_setMachine {m m' : Machine} (hm : w.machine vm = some m) (hc : m'.core = m.core) :
    Kept w (w.setMachine vm m') := by
  refine ⟨fun x => ?_, rfl, rfl, by simp [setMachine]⟩
  rw [w.machine_setMachine hm]
  split
  · next hx => rw [hx, hm, map_some, map_some, hc]
  · rfl

theorem flags_setMachine {m m' : Machine} (hm : w.machine vm = some m) (x : VmId) :
    (w.setMachine vm m').flags x = if x = vm then some (m'.barrier, m'.vm.mailbox.frozen) else w.flags x := by
  unfold flags
  rw [w.machine_setMachine hm]
  split <;> rfl

theorem core_marked (m : Machine) (b : Option ℕ) (frozen : Bool) :
    ({ m with barrier := b, vm.mailbox.frozen := frozen } : Machine).core = m.core := by
  obtain ⟨vm, table, active, resources, config, children, owner, generation, paused, barrier, isProc, image, gate,
    body, callbacks, native, regex⟩ := m
  cases native with
  | none => rfl
  | some native =>
    obtain ⟨nativeRoots, arenas⟩ := native
    cases arenas <;> rfl

theorem core_materialize (h : m.materialize.1 = .ok ()) : m.materialize.2.core = m.core := by
  cases hn : m.native with
  | none =>
    have hm : m.materialize = (.ok (), m) := by rw [Machine.materialize, hn]
    rw [hm]
  | some native =>
    cases ha : native.arenas with
    | ok arenas =>
      have hm : m.materialize = (.ok (), { m with vm := { m.vm with arenas }, native := none }) := by
        simp only [Machine.materialize, hn, ha]
      rw [Machine.core, Machine.core, hm]
      rfl
    | error arenas =>
      simp only [Machine.materialize, hn, ha] at h
      cases h

theorem flags_materialize (m : Machine) :
    m.materialize.2.barrier = m.barrier ∧ m.materialize.2.vm.mailbox.frozen = m.vm.mailbox.frozen := by
  unfold Machine.materialize
  split
  · exact ⟨rfl, rfl⟩
  · split <;> exact ⟨rfl, rfl⟩

theorem sameFlags_materialize (hm : w.machine vm = some m) :
    SameFlags w (w.setMachine vm m.materialize.2) := by
  intro x
  rw [flags_setMachine hm]
  split
  · next hx => rw [hx, flags, hm, (flags_materialize m).1, (flags_materialize m).2, map_some]
  · rfl

theorem machineReferences_sameFlags {out : Except FaultCode (List VmId)}
    (h : w.machineReferences vm = some (out, w')) : SameFlags w w' := by
  cases hm : w.machine vm with
  | none => simp [machineReferences, hm] at h
  | some m =>
    rw [machineReferences_eq hm] at h
    obtain ⟨_, -, he⟩ := map_eq_some_iff.mp h
    cases he
    exact sameFlags_materialize hm

theorem machineReferences_kept {found : List VmId} (h : w.machineReferences vm = some (.ok found, w')) :
    Kept w w' := by
  cases hm : w.machine vm with
  | none => simp [machineReferences, hm] at h
  | some m =>
    rw [machineReferences_eq hm] at h
    obtain ⟨_, hr, he⟩ := map_eq_some_iff.mp h
    cases he
    refine kept_setMachine hm (core_materialize ?_)
    unfold coreReferences Machine.core at hr
    cases hc : m.materialize.1 with
    | ok _ => rfl
    | error e =>
      rw [hc] at hr
      cases hr

theorem succ_of_references {found : List VmId} (hm : w.machine vm = some m) (hs : m.vm.state ≠ .empty)
    (h : w.machineReferences vm = some (.ok found, w')) : w.succ vm = some found := by
  simp only [succ, hm, if_neg hs, h]

theorem Kept.state_eq (h : Kept w w') (hm : w.machine vm = some m) :
    ∃ m', w'.machine vm = some m' ∧ m'.vm.state = m.vm.state := by
  have hc := h.machines vm
  rw [hm, map_some] at hc
  obtain ⟨m', hm', he⟩ := map_eq_some_iff.mp hc
  exact ⟨m', hm', by rw [← Machine.state_core m', he, Machine.state_core]⟩

end Frame

end World

end LoomV4.Vm
