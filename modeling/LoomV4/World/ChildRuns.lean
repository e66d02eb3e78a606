import LoomV4.World.Charged

namespace LoomV4.Vm

open Abi Proc Lib List Option World
open Function (update)

namespace World

variable {ι : Type} {w w' w₁ w₂ : World ι} {e : ChildEnv} {parent id : VmId} {m : Machine} {config : VmConfig}

theorem reserveChild_spec {out : Option VmConfig} (h : w.reserveChild e parent = some (out, w')) :
    ∃ w₁, w.reclaimFor e parent = some w₁ ∧ ((out = none ∧ w' = w₁) ∨
      ∃ m, w₁.machine parent = some m ∧ m.children < m.config.maxChildren ∧ out.isSome ∧
        w' = w₁.setMachine parent { m with children := m.children + 1 }) := by
  simp only [reserveChild, bind_eq_bind, bind_eq_some_iff] at h
  obtain ⟨w₁, hw1, can, hc, h⟩ := h
  refine ⟨w₁, hw1, ?_⟩
  cases can with
  | false =>
    cases h
    exact .inl ⟨rfl, rfl⟩
  | true =>
    simp only [↓reduceIte, bind_eq_some_iff] at h
    obtain ⟨m, hm, h⟩ := h
    cases h
    simp only [canReserveChild, hm, map_some, Option.some.injEq, Bool.and_eq_true, decide_eq_true_eq] at hc
    exact .inr ⟨m, hm, hc.2, rfl, rfl⟩

theorem Accounted.reclaimFor (h : w.Accounted) (hr : w.reclaimFor e parent = some w₁) : w₁.Accounted := by
  have ha : w.passDone e = some w₁ → w₁.Accounted := by
    intro hp
    obtain ⟨⟨n, w₂⟩, hc, rfl⟩ := map_eq_some_iff.mp hp
    exact h.collectMachines hc
  unfold World.reclaimFor at hr
  split at hr
  · exact ha hr
  · obtain ⟨can, -, hr⟩ := bind_eq_some_iff.mp hr
    split at hr
    · cases hr
      exact h
    · exact ha hr

structure Charging (w w₁ : World ι) (parent : VmId) : Prop where
  accounted : w.Accounted
  room : w.accounts.HasRoom (some parent)
  accounts : w₁.accounts = w.accounts.charge (some parent)
  length : w₁.machines.length = w.machines.length
  vmFree : w₁.vmFree = w.vmFree
  mockFree : w₁.mockFree = w.mockFree

namespace Charging

variable (h : Charging w w₁ parent)
include h

theorem slots : w₁.freeSlots = w.freeSlots := by rw [freeSlots, freeSlots, h.vmFree, h.mockFree]

theorem slotted : w₁.Slotted where
  nodup := h.slots ▸ h.accounted.nodup
  inRange id hid := by
    rw [h.length]
    exact h.accounted.inRange id (h.slots ▸ hid)

theorem place {limit : ℕ} (hp : Placed w₁ w' id ⟨some parent, 0, limit⟩) (hf : w.accounts.Unnamed id) :
    w'.Accounted :=
  h.accounted.place h.room h.accounts h.length h.slots hp hf

end Charging

theorem Charging.of_reserve (h : w.Accounted) (hm : w.machine parent = some m) (hf : parent ∉ w.freeSlots)
    (hlt : m.children < m.config.maxChildren) :
    Charging w (w.setMachine parent { m with children := m.children + 1 }) parent where
  accounted := h
  room p hp := by
    cases hp
    exact ⟨m.account, accounts_eq_some hm hf, hlt⟩
  accounts := accounts_charge hm hf
  length := by simp [setMachine]
  vmFree := rfl
  mockFree := rfl

def Reusable (w : World ι) : Prop := ∀ id, w.vmFree.getLast? = some id → w.accounts.Unnamed id

theorem Charging.install (h : Charging w w₁ parent) (he : w.Reusable)
    (hi : w₁.installChild config parent = some (id, w')) : w'.Accounted := by
  unfold installChild at hi
  split at hi
  · rename_i hl
    obtain ⟨m, hm, hr⟩ := map_eq_some_iff.mp hi
    cases hr
    exact h.place (Placed.take_vm h.slotted hl hm) (he id (h.vmFree ▸ hl))
  · cases hi
    exact h.place (Placed.push h.slotted _) (h.length ▸ h.accounted.unnamed_length)

theorem Accounted.newChild {out : Option VmId} (h : w.Accounted)
    (hc : ∀ w₁, w.reclaimFor e parent = some w₁ → parent ∉ w₁.freeSlots ∧ w₁.Reusable)
    (hn : w.newChild e parent = some (out, w')) : w'.Accounted := by
  simp only [World.newChild, bind_eq_bind, bind_eq_some_iff] at hn
  obtain ⟨⟨config, w₂⟩, hr, hn⟩ := hn
  obtain ⟨w₁, hp, ha⟩ := reserveChild_spec hr
  obtain ⟨ho, he⟩ := hc w₁ hp
  have h1 := h.reclaimFor hp
  rcases ha with ⟨rfl, rfl⟩ | ⟨m, hm, hlt, hs, rfl⟩
  · cases hn
    exact h1
  · obtain ⟨config, rfl⟩ := isSome_iff_exists.mp hs
    obtain ⟨⟨id, w3⟩, hi, heq⟩ := map_eq_some_iff.mp hn
    cases heq
    exact (Charging.of_reserve h1 hm ho hlt).install he hi

theorem Accounted.setMachine_same (h : w.Accounted) (m' : Machine) (hm : w.machine id = some m)
    (hm' : m'.account = m.account) : (w.setMachine id m').Accounted :=
  h.congr (accounts_setMachine_same hm hm') (by simp [setMachine]) rfl

theorem Accounted.prepareRunTarget {out : Option VmId} {image : VmImageKey} (h : w.Accounted)
    (hc : ∀ w₁, w.reclaimFor e parent = some w₁ → parent ∉ w₁.freeSlots ∧ w₁.Reusable ∧
      image.image < w₁.vmImages.length)
    (hn : w.prepareRunTarget e parent image = some (out, w')) : w'.Accounted := by
  simp only [World.prepareRunTarget, bind_eq_bind, bind_eq_some_iff] at hn
  obtain ⟨⟨config, w₂⟩, hr, hn⟩ := hn
  obtain ⟨w₁, hp, hs⟩ := reserveChild_spec hr
  obtain ⟨ht, hu, ha⟩ := hc w₁ hp
  have h1 := h.reclaimFor hp
  rcases hs with ⟨rfl, rfl⟩ | ⟨m, hm, hlt, ho, rfl⟩
  · cases hn
    exact h1
  · obtain ⟨config, rfl⟩ := isSome_iff_exists.mp ho
    have he : (w₁.setMachine parent { m with children := m.children + 1 }).vmImages[image.image]? =
        some w₁.vmImages[image.image] := getElem?_eq_getElem ha
    simp only [he, bind_eq_some_iff] at hn
    obtain ⟨⟨id, w3⟩, hi, child, hh, heq⟩ := hn
    cases heq
    exact ((Charging.of_reserve h1 hm ht hlt).install hu hi).setMachine_same _ hh rfl

theorem Accounted.rollbackChild {host : VmId → Bool} {child : VmId} (h : w.Accounted)
    (hc : child ∉ w.freeSlots) (hm : w.machine child = some m) (hp : m.vm.parent = some parent)
    (hr : w.rollbackChild host parent child = some w') : w'.Accounted := by
  simp only [World.rollbackChild, bind_eq_bind, hm, bind_some] at hr
  obtain ⟨ha, hl, hvm, ho⟩ := releaseChild_account hr
  have hs : w'.freeSlots.Perm (child :: w.freeSlots) := by
    have he := perm_free_vm (w.setMachine child (.blank w.config m.generation)) child
    rw [freeSlots, hvm, ho]
    exact he
  refine h.vacate hm hc ?_ (hl.trans (by simp [setMachine])) hs
  rw [ha, hp]
  congr 1
  have hf := accounts_free_vm (w.setMachine child (.blank w.config m.generation)) child
  rw [accounts_setMachine hm hc, Function.update_idem] at hf
  exact hf

theorem Accounted.retireMock (h : w.Accounted) (hid : id ∉ w.freeSlots) (hm : w.machine id = some m)
    (hp : m.vm.parent = none) (hr : w.retireMock id = some w') : w'.Accounted := by
  obtain ⟨m1, hm1, rfl⟩ := map_eq_some_iff.mp hr
  obtain rfl := mem_unique hm hm1
  have hs : (w.vmFree ++ (w.mockFree ++ [id])).Perm (id :: w.freeSlots) := by
    rw [← append_assoc]
    exact perm_append_comm
  refine h.vacate hm hid ?_ (by simp [setMachine]) hs
  rw [hp, Accounts.credit_none]
  refine Eq.trans (accounts_free_slot (w := w.setMachine id _) rfl hs) ?_
  rw [accounts_setMachine hm hid, Function.update_idem]

theorem Charging.uncharge (h : Charging w w₁ parent) (hu : w₁.uncharge parent = some w') : w'.Accounted := by
  simp only [World.uncharge, bind_eq_bind, bind_eq_some_iff] at hu
  obtain ⟨m, hm, hu⟩ := hu
  split at hu
  · cases hu
  · cases hu
    have ha : (w₁.setMachine parent { m with children := m.children - 1 }).accounts = w.accounts := by
      rw [accounts_credit hm rfl, h.accounts, Accounts.credit_charge]
    exact h.accounted.congr ha ((by simp [setMachine] : _ = _).trans h.length) h.slots

theorem Accounted.spawn {outcome : SpawnOutcome} (h : w.Accounted)
    (hl : ∀ w₁, w.reclaimFor e parent = some w₁ → parent ∉ w₁.freeSlots)
    (hs : w.spawn e parent outcome = some w') : w'.Accounted := by
  simp only [World.spawn, bind_eq_bind, bind_eq_some_iff] at hs
  obtain ⟨⟨config, w₂⟩, hr, hs⟩ := hs
  obtain ⟨w₁, hp, ha⟩ := reserveChild_spec hr
  have hu := hl w₁ hp
  have h1 := h.reclaimFor hp
  rcases ha with ⟨rfl, rfl⟩ | ⟨m, hm, hlt, ho, rfl⟩
  · cases hs
    exact h1
  · obtain ⟨config, rfl⟩ := isSome_iff_exists.mp ho
    have hc := Charging.of_reserve h1 hm hu hlt
    cases outcome with
    | noTask => exact hc.uncharge hs
    | refused =>
      simp only [dropLast_concat] at hs
      exact hc.uncharge hs
    | started body =>
      cases hs
      exact hc.place (Placed.push hc.slotted _) (hc.length ▸ h1.unnamed_length)

theorem Accounted.startMock (h : w.Accounted) (hc : ∀ id, w.mockFree.getLast? = some id → w.accounts.Unnamed id)
    (hs : w.startMock e config = some w') : w'.Accounted := by
  have hr : w.accounts.HasRoom none := fun p hp => nomatch hp
  have hl : ∀ {id}, Placed w w' id ⟨none, 0, config.maxChildren⟩ → w.accounts.Unnamed id → w'.Accounted :=
    fun hp hf => h.place hr (Accounts.charge_none _).symm rfl rfl hp hf
  unfold World.startMock at hs
  split at hs
  · rename_i id ha
    obtain ⟨m, hm, rfl⟩ := map_eq_some_iff.mp hs
    exact hl (Placed.take_mock h.toSlotted ha hm) (hc id ha)
  · split at hs
    · cases hs
      exact hl (Placed.push h.toSlotted _) h.unnamed_length
    · cases hs
      exact h

theorem Accounted.append (h : w.Accounted) (hm : w.machine parent = some m) (hf : parent ∉ w.freeSlots)
    (added : List Machine) (hd : ∀ x ∈ added, x.vm.parent = some parent ∧ x.children = 0)
    (hle : m.children + added.length ≤ m.config.maxChildren) (ha : w'.machines =
      w.machines.set parent (some { m with children := m.children + added.length }) ++ added.map some)
    (hs : w'.freeSlots = w.freeSlots) : w'.Accounted := by
  induction added generalizing w m with
  | nil =>
    have he := h.setMachine_same { m with children := m.children + 0 } hm rfl
    exact he.of_eq (ha.trans (append_nil _)) hs
  | cons x added ih =>
    have hl : (x :: added).length = added.length + 1 := rfl
    have hc := Charging.of_reserve h hm hf (by omega)
    obtain ⟨hp, hz⟩ := hd x (by simp)
    have hx : x.account = ⟨some parent, 0, x.config.maxChildren⟩ := by rw [Machine.account, hp, hz]
    have hu := hc.place (hx ▸ Placed.push hc.slotted x) (hc.length ▸ h.unnamed_length)
    have hlt : parent < w.machines.length := w.machine_lt hm
    refine ih hu (m := { m with children := m.children + 1 }) ?_ hf (fun y hy => hd y (by simp [hy]))
      (by simp only; omega) ?_ hs
    · simp only [machine, setMachine]
      rw [getElem?_append_left (by simpa using hlt), getElem?_set_self hlt]
      rfl
    · have heq : m.children + 1 + added.length = m.children + (x :: added).length := by omega
      simp [ha, setMachine, heq, hlt]

variable {image : List ImageMachine}

theorem childCount_of_orphans (h : ∀ source ∈ image, source.parent = none) (k : ℕ) :
    childCount image k = 0 := by
  apply countP_eq_zero.mpr
  intro source hs
  simp [h source hs]

theorem restored_orphan (h : ∀ source ∈ image, source.parent = none)
    (parent : VmId) (config : VmConfig) (ids : List VmId) (k : ℕ) {source : ImageMachine} (hs : source ∈ image) :
    (restoredMachine parent ids config image k source).vm.parent = some parent ∧
      (restoredMachine parent ids config image k source).children = 0 := by
  refine ⟨?_, childCount_of_orphans h k⟩
  simp [restoredMachine, h source hs]

theorem Accounted.relimit {m' : Machine} (h : w.Accounted) (hm : w.machine id = some m) (hid : id ∉ w.freeSlots)
    (hf : w.accounts.Unnamed id) (hp : m'.vm.parent = m.vm.parent) (hz : m'.children = 0) :
    (w.setMachine id m').Accounted := by
  have hl : (w.setMachine id m').machines.length = w.machines.length := by simp [setMachine]
  refine ⟨⟨h.nodup, fun x hx => hl ▸ h.inRange x hx⟩, ?_⟩
  rw [accounts_setMachine hm hid, hl, Machine.account, hp, hz]
  exact h.exact.relimit (accounts_eq_some hm hid) hf _

theorem Accounted.commitRestore {target : Option VmId} {gate : ℕ} {plan : RestorePlan}
    (h : w.Accounted) (ha : parent ∉ w.freeSlots) (hh : ∀ source ∈ image, source.parent = none)
    (hg : ∀ t, target = some t → t ∉ w.freeSlots ∧ w.accounts.Unnamed t ∧
      (w.machine t).map (·.vm.parent) = some (some parent))
    (hp : w.prepareRestore e parent target gate image = some plan) (hc : w.commitRestore plan = some w') :
    w'.Accounted := by
  simp only [prepareRestore, bind_eq_bind, bind_eq_some_iff, ite_none_right_eq_some] at hp
  obtain ⟨r, hr, ceiling, he, ⟨ht, -, hro, -, -⟩, hp⟩ := hp
  obtain rfl := some.inj hp
  simp only [World.commitRestore, hr, bind_eq_bind, bind_some] at hc
  cases target with
  | none =>
    have hn : image = [] := by simpa using ht
    subst hn
    obtain rfl := some.inj hc
    exact (h.setMachine_same { r with children := r.children + 0 } hr rfl).of_eq (append_nil _) rfl
  | some t =>
    obtain ⟨hu, hf, hold⟩ := hg t rfl
    obtain ⟨m, hm, hold⟩ := map_eq_some_iff.mp hold
    cases image with
    | nil => simp at ht
    | cons first rest =>
      have hne : parent ≠ t := by
        intro heq
        simp [restoreCeiling, hm, heq] at he
      have ho := restored_orphan hh parent ceiling (w.restoreIds (some t) rest.length)
      obtain ⟨hi, hz⟩ := ho 0 mem_cons_self
      simp only [isSome_some, ↓reduceIte, length_cons, Nat.add_sub_cancel, zipIdx_cons, map_cons] at hc hro
      obtain rfl := some.inj hc
      have hw1 := h.relimit hm hu hf (hi.trans hold.symm) hz
      have hr1 : (w.setMachine t (restoredMachine parent (w.restoreIds (some t) rest.length) ceiling
          (first :: rest) 0 first)).machine parent = some r := by
        rw [w.machine_setMachine hm, if_neg hne, hr]
      refine hw1.append hr1 ha ((rest.zipIdx 1).map fun source => restoredMachine parent
        (w.restoreIds (some t) rest.length) ceiling (first :: rest) source.2 source.1) ?_ ?_ ?_ rfl
      · intro x hx
        obtain ⟨source, hs, rfl⟩ := List.mem_map.mp hx
        exact ho source.2 (mem_cons_of_mem _ (fst_mem_of_mem_zipIdx hs))
      · simpa using hro
      · simp only [setMachine, length_map, length_zipIdx]
        rw [set_comm _ _ hne]

end World

/-- The steps that make or free child records, and `other` for every step that does neither. -/
inductive ChildEvent
  | newChild (e : ChildEnv) (parent : VmId)
  | runTarget (e : ChildEnv) (parent : VmId) (image : VmImageKey)
  | rollback (host : VmId → Bool) (parent child : VmId)
  | spawn (e : ChildEnv) (parent : VmId) (outcome : SpawnOutcome)
  | startMock (e : ChildEnv) (config : VmConfig)
  | retireMock (mock : VmId)
  | restore (e : ChildEnv) (restorer : VmId) (target : Option VmId) (gate : ℕ) (image : List ImageMachine)
  | collect (host : VmId → Bool)
  | other

namespace World

variable {ι : Type} {w w' : World ι}

def Performs (w : World ι) : ChildEvent → World ι → Prop
  | .newChild e parent, w' => ∃ child, w.newChild e parent = some (child, w')
  | .runTarget e parent image, w' => ∃ child, w.prepareRunTarget e parent image = some (child, w')
  | .rollback host parent child, w' => w.rollbackChild host parent child = some w'
  | .spawn e parent outcome, w' => w.spawn e parent outcome = some w'
  | .startMock e config, w' => w.startMock e config = some w'
  | .retireMock mock, w' => w.retireMock mock = some w'
  | .restore e restorer target gate image, w' =>
    ∃ plan, w.prepareRestore e restorer target gate image = some plan ∧ w.commitRestore plan = some w'
  | .collect host, w' => ∃ freed, w.collectMachines host = some (freed, w')
  | .other, w' => w'.vmFree = w.vmFree ∧ w'.mockFree = w.mockFree ∧ w'.machines.length = w.machines.length ∧
    ∀ id, (w'.machine id).map Machine.account = (w.machine id).map Machine.account

/-- The parent of a new record is not free, a reused slot is nobody's recorded parent, and the machines
of a restored image have no parent among themselves. -/
def Clean (w : World ι) : ChildEvent → Prop
  | .newChild e parent => ∀ w₁, w.reclaimFor e parent = some w₁ → parent ∉ w₁.freeSlots ∧ w₁.Reusable
  | .runTarget e parent image => ∀ w₁, w.reclaimFor e parent = some w₁ →
    parent ∉ w₁.freeSlots ∧ w₁.Reusable ∧ image.image < w₁.vmImages.length
  | .rollback _ parent child => child ∉ w.freeSlots ∧ (w.machine child).map (·.vm.parent) = some (some parent)
  | .spawn e parent _ => ∀ w₁, w.reclaimFor e parent = some w₁ → parent ∉ w₁.freeSlots
  | .startMock _ _ => ∀ id, w.mockFree.getLast? = some id → w.accounts.Unnamed id
  | .retireMock mock => mock ∉ w.freeSlots ∧ (w.machine mock).map (·.vm.parent) = some none
  | .restore _ restorer target _ image => restorer ∉ w.freeSlots ∧ (∀ source ∈ image, source.parent = none) ∧
    ∀ t, target = some t → t ∉ w.freeSlots ∧ w.accounts.Unnamed t ∧
      (w.machine t).map (·.vm.parent) = some (some restorer)
  | .collect _ => True
  | .other => True

theorem Accounted.performs {event : ChildEvent} (h : w.Accounted) (hl : w.Clean event)
    (hs : w.Performs event w') : w'.Accounted := by
  cases event with
  | newChild e parent =>
    obtain ⟨child, hn⟩ := hs
    exact h.newChild hl hn
  | runTarget e parent image =>
    obtain ⟨child, hn⟩ := hs
    exact h.prepareRunTarget hl hn
  | rollback host parent child =>
    obtain ⟨m, hm, ha⟩ := map_eq_some_iff.mp hl.2
    exact h.rollbackChild hl.1 hm ha hs
  | spawn e parent outcome => exact h.spawn hl hs
  | startMock e config => exact h.startMock hl hs
  | retireMock mock =>
    obtain ⟨m, hm, ha⟩ := map_eq_some_iff.mp hl.2
    exact h.retireMock hl.1 hm ha hs
  | restore e restorer target gate image =>
    obtain ⟨plan, hp, hc⟩ := hs
    exact h.commitRestore hl.1 hl.2.1 hl.2.2 hp hc
  | collect host =>
    obtain ⟨freed, hc⟩ := hs
    exact h.collectMachines hc
  | other =>
    obtain ⟨hvm, hk, hle, he⟩ := hs
    have ho : w'.freeSlots = w.freeSlots := by rw [freeSlots, freeSlots, hvm, hk]
    exact h.congr (accounts_congr ho he) hle ho

structure Started (w : World ι) : Prop where
  root : ∃ m, w.machines = [some m] ∧ m.vm.parent = none ∧ m.children = 0
  vmFree : w.vmFree = []
  mockFree : w.mockFree = []

theorem Started.accounted (h : w.Started) : w.Accounted := by
  obtain ⟨m, hm, hr, hz⟩ := h.root
  have hs : w.freeSlots = [] := by rw [freeSlots, h.vmFree, h.mockFree]; rfl
  have hc : ∀ id a, w.accounts id = some a → id = 0 ∧ a = ⟨none, 0, m.config.maxChildren⟩ := by
    intro id a ha
    cases id with
    | zero =>
      simp only [accounts, hs, machine, hm] at ha
      refine ⟨rfl, (some.inj ha).symm.trans ?_⟩
      rw [Machine.account, hr, hz]
    | succ n => simp [accounts, hs, machine, hm] at ha
  have hu : ∀ p, w.accounts.Unnamed p := by
    intro p id a ha hp
    obtain ⟨-, rfl⟩ := hc id a ha
    cases hp
  refine ⟨⟨by simp [hs], by simp [hs]⟩, ⟨?_, ?_, ?_, ?_⟩⟩
  · intro id a ha
    obtain ⟨rfl, -⟩ := hc id a ha
    simp [hm]
  · intro id a p ha hp
    exact absurd hp (hu p id a ha)
  · intro p a ha
    obtain ⟨-, rfl⟩ := hc p a ha
    exact (Accounts.charged_eq_zero (hu p)).symm
  · intro p a ha
    obtain ⟨-, rfl⟩ := hc p a ha
    exact Nat.zero_le _

def CleanStep (w w' : World ι) : Prop := ∃ event, w.Clean event ∧ w.Performs event w'

theorem Accounted.reached (h : w.Accounted) (hr : Relation.ReflTransGen CleanStep w w') : w'.Accounted := by
  induction hr with
  | refl => exact h
  | tail _ hs ih =>
    obtain ⟨event, hc, hs⟩ := hs
    exact ih.performs hc hs

/-- The counts of every reached world are exact, and no count that is taken down is zero. -/
theorem children_exact {w₀ : World ι} (hstart : w₀.Started) (hrun : Relation.ReflTransGen CleanStep w₀ w) :
    (∀ vm m, w.machine vm = some m → vm ∉ w.freeSlots →
      m.children = w.charged vm ∧ m.children ≤ m.config.maxChildren) ∧
    (∀ vm m up r, w.machine vm = some m → vm ∉ w.freeSlots → m.vm.parent = some up → w.machine up = some r →
      up ∉ w.freeSlots → 0 < r.children) ∧
    ∀ e vm config w₁, w.reserveChild e vm = some (some config, w₁) → ∃ m, w₁.machine vm = some m ∧ 0 < m.children := by
  have h := hstart.accounted.reached hrun
  refine ⟨?_, ?_, ?_⟩
  · intro vm m hm hfree
    have ha := accounts_eq_some hm hfree
    exact ⟨h.exact.exact vm _ ha, h.exact.bounded vm _ ha⟩
  · intro vm m up r hm hfree hparent hr hup
    have ha := accounts_eq_some hm hfree
    rw [show r.children = w.charged up from h.exact.exact up _ (accounts_eq_some hr hup)]
    exact Accounts.charged_pos ha hparent (h.exact.inRange vm _ ha)
  · intro e vm config w₁ hreserve
    obtain ⟨w₂, -, ⟨hout, -⟩ | ⟨m, hm, -, -, rfl⟩⟩ := reserveChild_spec hreserve
    · cases hout
    · refine ⟨{ m with children := m.children + 1 }, ?_, Nat.succ_pos _⟩
      rw [w₂.machine_setMachine hm, if_pos rfl]

def roomyEnv : ChildEnv := ⟨8, false, true, fun _ => true⟩

def budgetConfig : VmConfig := { smallConfig with maxChildren := 4 }

def budgetRoot : World Unit :=
  { machines := [some { vm := { heap := .new 4096, state := .ready }, config := budgetConfig }], config := budgetConfig }

theorem budgetRoot_started : budgetRoot.Started := ⟨⟨_, rfl, rfl, rfl⟩, rfl, rfl⟩

def budgetChild : World Unit :=
  { budgetRoot with machines :=
      [some { vm := { heap := .new 4096, state := .ready }, config := budgetConfig, children := 1 },
        some (.child { budgetConfig with maxChildren := 3 } 0 0)] }

theorem budgetRoot_newChild : budgetRoot.Clean (.newChild roomyEnv 0) ∧
    budgetRoot.Performs (.newChild roomyEnv 0) budgetChild := by
  have hp : budgetRoot.reclaimFor roomyEnv 0 = some budgetRoot := rfl
  refine ⟨fun w₁ hw1 => ?_, some 1, rfl⟩
  obtain rfl := mem_unique hp hw1
  exact ⟨not_mem_nil, fun id hid => nomatch hid⟩

def imageMachine (parent : Option ℕ) : ImageMachine :=
  ⟨parent, 4, { vm := { heap := .new 4096, state := .ready }, config := budgetConfig }⟩

def restoreAndCollect (image : List ImageMachine) : Option (World Unit × World Unit) := do
  let plan ← budgetChild.prepareRestore roomyEnv 0 (some 1) 1 image
  let w ← budgetChild.commitRestore plan
  let r ← ({ w with gateGroups := [] } : World Unit).collectMachines fun _ => true
  some (w, r.2)

theorem restoreAndCollect_performs {image : List ImageMachine} {w w' : World Unit}
    (h : restoreAndCollect image = some (w, w')) : budgetChild.Performs (.restore roomyEnv 0 (some 1) 1 image) w ∧
      w.Performs .other { w with gateGroups := [] } ∧
      Performs { w with gateGroups := [] } (.collect fun _ => true) w' := by
  simp only [restoreAndCollect, bind_eq_bind, bind_eq_some_iff] at h
  obtain ⟨plan, hp, w₁, hc, ⟨n, w₂⟩, ho, heq⟩ := h
  cases heq
  exact ⟨⟨plan, hp, hc⟩, ⟨rfl, rfl, rfl, fun _ => rfl⟩, n, ho⟩

theorem budgetChild_unnamed : budgetChild.accounts.Unnamed 1 := by
  intro j a ha
  match j with
  | 0 =>
    obtain rfl := some.inj ha
    decide
  | 1 =>
    obtain rfl := some.inj ha
    decide
  | n + 2 => simp [accounts, freeSlots, machine, budgetChild, budgetRoot] at ha

/-- Two machines without parents: their charges are returned. -/
theorem children_exact_orphans : ∃ w : World Unit, Relation.ReflTransGen CleanStep budgetRoot w ∧
    w.freeSlots = [1, 2] ∧ ∃ m, w.machine 0 = some m ∧ m.children = 0 ∧ m.children = w.charged 0 ∧
      m.children ≤ m.config.maxChildren := by
  have hrun : (restoreAndCollect [imageMachine none, imageMachine none]).map (fun r =>
      (r.2.freeSlots, (r.2.machine 0).map (·.children))) = some ([1, 2], some 0) := by
    decide +kernel
  obtain ⟨⟨w, w'⟩, hw, hr⟩ := map_eq_some_iff.mp hrun
  obtain ⟨hslots, hchildren⟩ := Prod.mk.inj hr
  obtain ⟨m, hm, hzero⟩ := map_eq_some_iff.mp hchildren
  obtain ⟨hrestore, hother, hcollect⟩ := restoreAndCollect_performs hw
  have hclean : budgetChild.Clean (.restore roomyEnv 0 (some 1) 1 [imageMachine none, imageMachine none]) := by
    refine ⟨not_mem_nil, ?_, ?_⟩
    · intro source hs
      obtain rfl : source = imageMachine none := by simpa using hs
      rfl
    · intro t ht
      cases ht
      exact ⟨not_mem_nil, budgetChild_unnamed, rfl⟩
  have hreach : Relation.ReflTransGen CleanStep budgetRoot w' :=
    .tail (.tail (.tail (.single ⟨_, budgetRoot_newChild⟩) ⟨_, hclean, hrestore⟩) ⟨.other, trivial, hother⟩)
      ⟨.collect _, trivial, hcollect⟩
  have hfree : 0 ∉ w'.freeSlots := by
    rw [show w'.freeSlots = [1, 2] from hslots]
    decide
  exact ⟨w', hreach, hslots, m, hm, hzero, (children_exact budgetRoot_started hreach).1 0 m hm hfree⟩

/-- The second machine names the first as its parent: the charge of the restorer for it is not returned. -/
theorem restore_keeps_charge : ∃ w₁ w₂ w₃ : World Unit, budgetRoot.Started ∧
    budgetRoot.Performs (.newChild roomyEnv 0) budgetChild ∧
    budgetChild.Performs (.restore roomyEnv 0 (some 1) 1 [imageMachine none, imageMachine (some 0)]) w₁ ∧
    w₁.Performs .other w₂ ∧ w₂.Performs (.collect fun _ => true) w₃ ∧ w₃.freeSlots = [1, 2] ∧
    ∃ m, w₃.machine 0 = some m ∧ m.children = 1 ∧ w₃.charged 0 = 0 := by
  have hrun : (restoreAndCollect [imageMachine none, imageMachine (some 0)]).map (fun r =>
      (r.2.freeSlots, (r.2.machine 0).map (·.children), r.2.charged 0)) = some ([1, 2], some 1, 0) := by
    decide +kernel
  obtain ⟨⟨w, w'⟩, hw, hr⟩ := map_eq_some_iff.mp hrun
  simp only [Prod.mk.injEq, map_eq_some_iff] at hr
  obtain ⟨hslots, ⟨m, hm, hone⟩, hzero⟩ := hr
  obtain ⟨hrestore, hother, hcollect⟩ := restoreAndCollect_performs hw
  exact ⟨w, _, w', budgetRoot_started, budgetRoot_newChild.2, hrestore, hother, hcollect, hslots, m, hm, hone, hzero⟩

end World

end LoomV4.Vm
