import LoomV4.World.Children
import LoomV4.World.Reclaimed

namespace LoomV4.Vm

open Abi Proc Lib List Option Function
open Function (update)

def Machine.account (m : Machine) : Account := ⟨m.vm.parent, m.children, m.config.maxChildren⟩

namespace World

variable {ι : Type}

def accounts (w : World ι) : Accounts := fun id =>
  if id ∈ w.freeSlots then none else (w.machine id).map Machine.account

def charged (w : World ι) (vm : VmId) : ℕ := w.accounts.charged w.machines.length vm

/-- The free lists name each free slot once. -/
structure Slotted (w : World ι) : Prop where
  nodup : w.freeSlots.Nodup
  inRange : ∀ id ∈ w.freeSlots, id < w.machines.length

structure Accounted (w : World ι) : Prop extends Slotted w where
  exact : w.accounts.Exact w.machines.length

section Accounts

variable {w w' : World ι} {vm : VmId} {m m' : Machine}

theorem accounts_congr (hf : w'.freeSlots = w.freeSlots)
    (hm : ∀ id, (w'.machine id).map Machine.account = (w.machine id).map Machine.account) :
    w'.accounts = w.accounts := by
  funext id
  simp only [accounts, hf, hm]

theorem accounts_eq_some (hm : w.machine vm = some m) (hf : vm ∉ w.freeSlots) :
    w.accounts vm = some m.account := by
  simp [accounts, hf, hm]

theorem accounts_free (hf : vm ∈ w.freeSlots) : w.accounts vm = none := by
  simp [accounts, hf]

section

variable (hm : w.machine vm = some m)

include hm

theorem accounts_setMachine (hf : vm ∉ w.freeSlots) :
    (w.setMachine vm m').accounts = update w.accounts vm (some m'.account) := by
  funext id
  have hs : (w.setMachine vm m').freeSlots = w.freeSlots := rfl
  by_cases hid : id = vm
  · subst hid
    rw [update_self]
    simp [accounts, hs, hf, w.machine_setMachine hm]
  · rw [update_of_ne hid]
    simp [accounts, hs, w.machine_setMachine hm, hid]

theorem accounts_setMachine_free (hf : vm ∈ w.freeSlots) : (w.setMachine vm m').accounts = w.accounts := by
  funext id
  have hs : (w.setMachine vm m').freeSlots = w.freeSlots := rfl
  by_cases hid : id = vm
  · subst hid
    simp [accounts, hs, hf]
  · simp [accounts, hs, w.machine_setMachine hm, hid]

theorem accounts_setMachine_same (hm' : m'.account = m.account) : (w.setMachine vm m').accounts = w.accounts := by
  have hs : (w.setMachine vm m').freeSlots = w.freeSlots := rfl
  apply accounts_congr hs
  intro id
  rw [w.machine_setMachine hm]
  split
  · rename_i hid
    rw [hid, hm, map_some, map_some, hm']
  · rfl

theorem accounts_charge (hf : vm ∉ w.freeSlots) :
    (w.setMachine vm { m with children := m.children + 1 }).accounts = w.accounts.charge (some vm) := by
  rw [accounts_setMachine hm hf]
  funext id
  by_cases hid : id = vm
  · subst hid
    rw [update_self, Accounts.charge, accounts_eq_some hm hf]
    simp [Machine.account]
  · rw [update_of_ne hid, Accounts.charge]
    cases w.accounts id <;> simp [Ne.symm hid]

theorem accounts_credit (hm' : m'.account = ⟨m.vm.parent, m.children - 1, m.config.maxChildren⟩) :
    (w.setMachine vm m').accounts = w.accounts.credit (some vm) := by
  by_cases hf : vm ∈ w.freeSlots
  · rw [accounts_setMachine_free hm hf]
    funext id
    by_cases hid : id = vm
    · subst hid
      simp [Accounts.credit, accounts_free hf]
    · rw [Accounts.credit]
      cases w.accounts id <;> simp [Ne.symm hid]
  · rw [accounts_setMachine hm hf]
    funext id
    by_cases hid : id = vm
    · subst hid
      rw [update_self, Accounts.credit, accounts_eq_some hm hf]
      rw [hm']
      simp [Machine.account]
    · rw [update_of_ne hid, Accounts.credit]
      cases w.accounts id <;> simp [Ne.symm hid]

end

theorem accounts_push (h : w.Slotted) : accounts { w with machines := w.machines ++ [some m] } =
      update w.accounts w.machines.length (some m.account) := by
  funext id
  have hl : w.machines.length ∉ w.freeSlots := fun hin => Nat.lt_irrefl _ (h.inRange _ hin)
  have hs : freeSlots { w with machines := w.machines ++ [some m] } = w.freeSlots := rfl
  by_cases hid : id = w.machines.length
  · subst hid
    rw [update_self]
    simp [accounts, hs, hl, machine]
  · rw [update_of_ne hid]
    simp only [accounts, hs, machine]
    rcases Nat.lt_or_gt_of_ne hid with hlt | hgt
    · rw [getElem?_append_left hlt]
    · rw [getElem?_eq_none (by simp; omega), getElem?_eq_none (by omega)]

theorem account_materialize (m : Machine) : m.materialize.2.account = m.account := by
  have hc : m.materialize.2.children = m.children ∧ m.materialize.2.config = m.config := by
    unfold Machine.materialize
    split
    · exact ⟨rfl, rfl⟩
    · split <;> exact ⟨rfl, rfl⟩
  simp only [Machine.account, materialize_parent, hc.1, hc.2]

theorem account_compactTerminalProc {host : Bool} (h : m.compactTerminalProc host = some m') :
    m'.account = m.account := by
  unfold Machine.compactTerminalProc at h
  split at h
  · cases h
    rfl
  · split at h
    · cases h
    · split at h
      · cases h
        rfl
      · split at h
        · split at h <;> (cases h; rfl)
        · cases h
          rfl

end Accounts

section Pass

variable {w w' w₁ : World ι} {vm : VmId} {m : Machine} {host : VmId → Bool}

theorem releaseChild_account {up : VmId} (h : w.releaseChild host up = some w') :
    w'.accounts = w.accounts.credit (some up) ∧ w'.machines.length = w.machines.length ∧
      w'.vmFree = w.vmFree ∧ w'.mockFree = w.mockFree := by
  unfold releaseChild at h
  cases hr : w.machine up with
  | none =>
    rw [hr] at h
    cases h
  | some record =>
    simp only [hr] at h
    obtain ⟨record', he, rfl⟩ := map_eq_some_iff.mp h
    refine ⟨accounts_credit hr ?_, by simp [setMachine], rfl, rfl⟩
    split at he
    · rw [account_compactTerminalProc he]
      rfl
    · cases he
      rfl

theorem accounts_free_slot {id : VmId} (ha : w'.machines = w.machines)
    (hs : w'.freeSlots.Perm (id :: w.freeSlots)) : w'.accounts = update w.accounts id none := by
  funext vm
  have he : vm ∈ w'.freeSlots ↔ vm = id ∨ vm ∈ w.freeSlots := hs.mem_iff.trans mem_cons
  by_cases hvm : vm = id
  · rw [hvm, update_self]
    exact accounts_free (hvm ▸ he.mpr (.inl hvm))
  · rw [update_of_ne hvm]
    simp only [accounts, he, hvm, false_or, machine, ha]

theorem perm_free_vm (w : World ι) (id : VmId) :
    (freeSlots { w with vmFree := w.vmFree ++ [id] }).Perm (id :: w.freeSlots) := by
  show (w.vmFree ++ [id] ++ w.mockFree).Perm _
  rw [append_assoc]
  exact perm_middle

theorem accounts_free_vm (w : World ι) (id : VmId) :
    accounts { w with vmFree := w.vmFree ++ [id] } = update w.accounts id none :=
  accounts_free_slot rfl (perm_free_vm w id)

section

variable (h : w.Accounted)

include h

theorem Accounted.vacate {id : VmId} (hm : w.machine id = some m) (hf : id ∉ w.freeSlots)
    (hw' : w'.accounts = Accounts.credit (update w.accounts id none) m.vm.parent)
    (hl : w'.machines.length = w.machines.length) (hs : w'.freeSlots.Perm (id :: w.freeSlots)) :
    w'.Accounted := by
  refine ⟨⟨hs.nodup_iff.mpr (nodup_cons.mpr ⟨hf, h.nodup⟩), ?_⟩, ?_⟩
  · intro x hx
    rw [hl]
    rcases mem_cons.mp (hs.mem_iff.mp hx) with rfl | hx
    · exact w.machine_lt hm
    · exact h.inRange x hx
  · rw [hw', hl]
    exact h.exact.remove (accounts_eq_some hm hf)

variable {marked free : List VmId}

theorem Accounted.sweepOne {id : VmId}
    (hw : id ∉ free → id ∉ w.freeSlots) (hs : sweepOne host marked free w id = some w') :
    w'.Accounted ∧ w'.machines.length = w.machines.length ∧ ∀ x ∈ w'.freeSlots, x ∈ w.freeSlots ∨ x = id := by
  unfold World.sweepOne at hs
  split at hs
  · cases hs
    exact ⟨h, rfl, fun x hx => .inl hx⟩
  · rename_i ho
    cases hm : w.machine id with
    | none =>
      rw [hm] at hs
      cases hs
    | some m =>
      simp only [hm] at hs
      split at hs
      · cases hs
        exact ⟨h, rfl, fun x hx => .inl hx⟩
      · obtain ⟨w2, hr, rfl⟩ := map_eq_some_iff.mp hs
        have hf := hw fun hin => ho (.inr hin)
        generalize Machine.blank w.config ((m.generation + 1) % 2 ^ 32) = b at hr
        have hr : w2.accounts = (w.setMachine id b).accounts.credit m.vm.parent ∧
            w2.machines.length = w.machines.length ∧ w2.vmFree = w.vmFree ∧ w2.mockFree = w.mockFree := by
          have hn : (w.setMachine id b).machines.length = w.machines.length := by simp [setMachine]
          cases hp : m.vm.parent with
          | none =>
            rw [hp] at hr
            cases hr
            exact ⟨(Accounts.credit_none _).symm, hn, rfl, rfl⟩
          | some up =>
            rw [hp] at hr
            obtain ⟨h1, h2, h3, h4⟩ := releaseChild_account hr
            exact ⟨h1, h2.trans hn, h3, h4⟩
        obtain ⟨h1, h2, h3, h4⟩ := hr
        have hl : w2.freeSlots = w.freeSlots := by rw [freeSlots, freeSlots, h3, h4]
        have he := perm_free_vm w2 id
        rw [hl] at he
        refine ⟨h.vacate hm hf ?_ h2 he, h2, fun x hx => ?_⟩
        · rw [accounts_free_vm, h1, accounts_setMachine hm hf, Accounts.update_credit]
        · exact (mem_cons.mp (he.mem_iff.mp hx)).symm

/-- By the slots in order: those freed so far lie below. -/
theorem Accounted.sweep (hf : free = w.freeSlots) {n : ℕ}
    (hs : (List.range n).foldlM (World.sweepOne host marked free) w = some w') : w'.Accounted := by
  have hr := foldlM_range_some (I := fun i w => w.Accounted ∧ ∀ x ∈ w.freeSlots, x ∈ free ∨ x < i) n
    (fun i w w' hI hw => by
      obtain ⟨h1, -, h3⟩ := hI.1.sweepOne (fun ho hin => (hI.2 i hin).elim ho (Nat.lt_irrefl i)) hw
      refine ⟨h1, fun x hx => ?_⟩
      rcases h3 x hx with hx | rfl
      · exact (hI.2 x hx).imp_right Nat.lt_succ_of_lt
      · exact .inr (Nat.lt_succ_self _)) ⟨h, fun x hx => .inl (hf ▸ hx)⟩ hs
  exact hr.1

theorem Accounted.congr (ha : w'.accounts = w.accounts)
    (hl : w'.machines.length = w.machines.length) (hf : w'.freeSlots = w.freeSlots) : w'.Accounted where
  exact := by rw [ha, hl]; exact h.exact
  nodup := hf ▸ h.nodup
  inRange id hid := by rw [hl]; exact h.inRange id (hf ▸ hid)

theorem Accounted.of_eq (ha : w'.machines = w.machines) (hf : w'.freeSlots = w.freeSlots) : w'.Accounted :=
  h.congr (accounts_congr hf fun id => by rw [machine, machine, ha]) (by rw [ha]) hf

theorem Accounted.looked (ha : Looked w w₁) : w₁.Accounted ∧ w₁.freeSlots = w.freeSlots := by
  have hf : w₁.freeSlots = w.freeSlots := by rw [ha.rest]; rfl
  refine ⟨h.congr (accounts_congr hf fun id => ?_) ha.length hf, hf⟩
  cases hm : w.machine id with
  | none =>
    cases hm' : w₁.machine id with
    | none => rfl
    | some m' =>
      obtain ⟨m0, hm0⟩ := ha.resident id m' hm'
      cases hm.symm.trans hm0
  | some m =>
    rcases ha.records id m hm with hr | hr
    · rw [hr]
    · rw [hr, map_some, map_some, account_materialize]

theorem Accounted.collectMachines {n : ℕ} (hc : w.collectMachines host = some (n, w')) : w'.Accounted := by
  obtain hk | ⟨w2, w3, hp, hvm, hi⟩ := collectMachines_split hc
  · exact (h.looked hk).1
  · unfold swept at hp
    split at hp
    · rename_i marked w₁ hk
      obtain ⟨h1, hf⟩ := h.looked (markFrom_spec (Marking.start w) hk).1
      have h2 := h1.sweep hf.symm hp
      obtain ⟨hr3, -⟩ := collectVmImages_spec hvm
      have hr' := collectImages_spec hi
      have ha : w'.machines = w2.machines := by rw [hr', hr3]
      have hl : w'.freeSlots = w2.freeSlots := by rw [hr', hr3]; rfl
      exact h2.of_eq ha hl
    · cases hp

end

end Pass

section Operations

variable {w w' w₁ : World ι} {id parent : VmId} {m m' : Machine} {e : ChildEnv}

structure Placed (w w' : World ι) (id : VmId) (a : Account) : Prop where
  accounts : w'.accounts = update w.accounts id (some a)
  empty : w.accounts id = none
  lt : id < w'.machines.length
  length : w.machines.length ≤ w'.machines.length
  slots : w'.freeSlots.Sublist w.freeSlots

theorem Placed.push (h : w.Slotted) (m : Machine) :
    Placed w { w with machines := w.machines ++ [some m] } w.machines.length m.account where
  accounts := accounts_push h
  empty := by
    have hn : w.machine w.machines.length = none := by simp [machine]
    simp [World.accounts, hn]
  lt := by simp
  length := by simp
  slots := .refl _

theorem accounts_take (hm : w.machine id = some m) (hs : ∀ x, x ∈ w'.freeSlots ↔ x ∈ w.freeSlots ∧ x ≠ id)
    (hw' : w'.machines = (w.setMachine id m').machines) : w'.accounts = update w.accounts id (some m'.account) := by
  funext x
  have hx' : w'.machine x = (w.setMachine id m').machine x := by rw [machine, machine, hw']
  by_cases hx : x = id
  · subst hx
    have ho : x ∉ w'.freeSlots := fun hin => ((hs x).mp hin).2 rfl
    rw [update_self]
    simp [accounts, ho, hx', w.machine_setMachine hm]
  · rw [update_of_ne hx]
    simp only [accounts, hs, hx', w.machine_setMachine hm, ne_eq, hx, not_false_eq_true, and_true, ↓reduceIte]

theorem Placed.take (h : w.Slotted) (hid : id ∈ w.freeSlots) (hm : w.machine id = some m)
    (hu : w'.freeSlots.Sublist w.freeSlots) (hs : ∀ x, x ∈ w'.freeSlots ↔ x ∈ w.freeSlots ∧ x ≠ id)
    (hw' : w'.machines = (w.setMachine id m').machines) : Placed w w' id m'.account where
  accounts := accounts_take hm hs hw'
  empty := accounts_free hid
  lt := by simpa [hw', setMachine] using h.inRange id hid
  length := by simp [hw', setMachine]
  slots := hu

theorem mem_dropLast_of_nodup {l : List VmId} (hl : l.Nodup) (ha : l.getLast? = some id) (x : VmId) :
    x ∈ l.dropLast ↔ x ∈ l ∧ x ≠ id := by
  obtain ⟨l0, rfl⟩ := getLast?_eq_some_iff.mp ha
  have hid : id ∉ l0 := fun hin => (nodup_append.mp hl).2.2 id hin id (by simp) rfl
  rw [dropLast_concat]
  constructor
  · intro hx
    exact ⟨by simp [hx], fun hi => hid (hi ▸ hx)⟩
  · rintro ⟨hx, hi⟩
    simpa [hi] using hx

theorem Placed.take_vm (h : w.Slotted) (hl : w.vmFree.getLast? = some id) (hm : w.machine id = some m) :
    Placed w { w.setMachine id m' with vmFree := w.vmFree.dropLast } id m'.account := by
  have hid : id ∈ w.vmFree := mem_of_getLast? hl
  obtain ⟨hvm, -, hd⟩ := nodup_append.mp h.nodup
  refine Placed.take h (mem_append_left _ hid) hm ((dropLast_sublist _).append (.refl _)) (fun x => ?_) rfl
  show x ∈ w.vmFree.dropLast ++ w.mockFree ↔ x ∈ w.vmFree ++ w.mockFree ∧ x ≠ id
  rw [mem_append, mem_append, mem_dropLast_of_nodup hvm hl]
  have ho : x ∈ w.mockFree → x ≠ id := fun hx hi => hd id hid x hx hi.symm
  tauto

theorem Placed.take_mock (h : w.Slotted) (hl : w.mockFree.getLast? = some id) (hm : w.machine id = some m) :
    Placed w { w.setMachine id m' with mockFree := w.mockFree.dropLast } id m'.account := by
  have hid : id ∈ w.mockFree := mem_of_getLast? hl
  obtain ⟨-, ho, hd⟩ := nodup_append.mp h.nodup
  refine Placed.take h (mem_append_right _ hid) hm ((Sublist.refl _).append (dropLast_sublist _))
    (fun x => ?_) rfl
  show x ∈ w.vmFree ++ w.mockFree.dropLast ↔ x ∈ w.vmFree ++ w.mockFree ∧ x ≠ id
  rw [mem_append, mem_append, mem_dropLast_of_nodup ho hl]
  have hvm : x ∈ w.vmFree → x ≠ id := fun hx => hd x hx id hid
  tauto

theorem Accounted.place {up : Option VmId} {limit : ℕ} (h : w.Accounted) (hr : w.accounts.HasRoom up)
    (hw1 : w₁.accounts = w.accounts.charge up) (hl : w₁.machines.length = w.machines.length)
    (hs : w₁.freeSlots = w.freeSlots) (hp : Placed w₁ w' id ⟨up, 0, limit⟩)
    (hf : w.accounts.Unnamed id) : w'.Accounted where
  exact := by
    have hn : w.accounts id = none := by
      have := hp.empty
      rw [hw1, Accounts.charge, map_eq_none_iff] at this
      exact this
    rw [hp.accounts, hw1]
    exact (h.exact.extend (hl ▸ hp.length)).place hr hp.lt hn hf limit
  nodup := hp.slots.nodup (hs ▸ h.nodup)
  inRange x hx := (h.inRange x (hs ▸ hp.slots.subset hx)).trans_le (hl ▸ hp.length)

theorem Accounted.unnamed_length (h : w.Accounted) : w.accounts.Unnamed w.machines.length :=
  fun j a hA hp => Nat.lt_irrefl _ (h.exact.parents j a _ hA hp)

end Operations

end World

end LoomV4.Vm
