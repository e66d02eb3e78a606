import LoomV4.World.Reclaim
import LoomV4.World.Frame

namespace LoomV4

open Abi Proc Lib List Option

def Heap.Names (h : Heap) (roots : List ObjRef) (v : Vm.VmId) : Prop :=
  ∃ r n, h.Under roots r ∧ h.node r = some n ∧ Vm.machineNamed n.2 = some v

namespace Vm

namespace World

variable {ι : Type} {w w' w₀ : World ι} {vm v : VmId} {m : Machine} {free : List VmId}

section Covered

theorem mem_snapshotOrdinals {scratch : ℕ} {h : Heap} {roots order : List ObjRef} {limits : GraphLimits} {r : ObjRef}
    (hs : h.Slotted) (ho : snapshotOrdinals scratch h roots limits = some (.ok order)) :
    r ∈ order ↔ h.Under roots r := by
  obtain ⟨walked, hw, he⟩ := map_eq_some_iff.mp ho
  cases walked with
  | error e => cases he
  | ok x =>
    obtain ⟨cost, scratch'⟩ := x
    cases he
    exact (walk_toured hw).mem_order hs

theorem imageMachines_covers {keys : List VmImageKey} {out out' : List VmId}
    (hs : ∀ image ∈ w.vmImages, image.heap.Slotted) (h : w.imageMachines keys out = some (.ok out')) :
    (∀ x ∈ out, x ∈ out') ∧ ∀ key ∈ keys, ∀ image, w.liveImage key = some image → (∀ x ∈ image.processes, x ∈ out') ∧
      ∀ r o, image.heap.Under image.valueRoots r → image.heap.tryGet r = some o → ∀ x, handleNamed o = some x →
        x ∈ out' := by
  induction keys generalizing out with
  | nil =>
    cases h
    exact ⟨fun x hx => hx, fun key hk => absurd hk not_mem_nil⟩
  | cons key keys ih =>
    unfold imageMachines at h
    cases hl : w.liveImage key with
    | none =>
      simp only [hl] at h
      obtain ⟨hu, he⟩ := ih h
      refine ⟨hu, fun k hk image hi => ?_⟩
      rcases mem_cons.mp hk with rfl | hk
      · rw [hl] at hi
        cases hi
      · exact he k hk image hi
    | some image =>
      have hm : image ∈ w.vmImages := by
        unfold liveImage at hl
        split at hl
        · cases hl
        · next image' hg =>
          split at hl
          · cases hl
            exact mem_of_getElem? hg
          · cases hl
      simp only [hl] at h
      split at h
      · cases h
      · cases h
      · next order ho =>
        obtain ⟨hu, he⟩ := ih h
        refine ⟨fun x hx => hu x (mem_foldl_pushNew.mpr (.inl (mem_foldl_pushNew.mpr (.inl hx)))), ?_⟩
        intro k hk image' hi
        rcases mem_cons.mp hk with rfl | hk
        · rw [hl] at hi
          cases hi
          refine ⟨fun x hx => hu x (mem_foldl_pushNew.mpr (.inl (mem_foldl_pushNew.mpr (.inr hx)))), ?_⟩
          intro r o hr hg x hx
          refine hu x (mem_foldl_pushNew.mpr (.inr (mem_filterMap.mpr ⟨o, ?_, hx⟩)))
          exact mem_filterMap.mpr ⟨r, (mem_snapshotOrdinals (hs image hm) ho).mpr hr, hg⟩
        · exact he k hk image' hi

theorem tryGet_of_named {h : Heap} {r : ObjRef} {n : Bool × Object} (hn : h.node r = some n)
    (hv : machineNamed n.2 = some v) : h.tryGet r = some n.2 := by
  rw [Heap.tryGet_eq, hn, map_some]
  split
  · next hr =>
    simp only [Heap.node, hr, if_true, Option.map_eq_some_iff] at hn
    obtain ⟨_, -, rfl⟩ := hn
    cases hv
  · rfl

def NamesImage (m : Machine) (key : VmImageKey) : Prop :=
  m.image = some key ∨
    ∃ r o, m.vm.heap.Under m.snapshotRoots r ∧ m.vm.heap.tryGet r = some o ∧ imageNamed o = some key

structure Covers (w : World ι) (m : Machine) (found : List VmId) : Prop where
  objects : ∀ v, m.vm.heap.Names m.snapshotRoots v → v ∈ found
  controls : ∀ v ∈ controlTargets m, v ∈ found
  images : ∀ key, NamesImage m key → ∀ image, w.liveImage key = some image →
    (∀ x ∈ image.processes, x ∈ found) ∧
    ∀ r o, image.heap.Under image.valueRoots r → image.heap.tryGet r = some o → ∀ x, handleNamed o = some x → x ∈ found

theorem named_covers {found : List VmId} (hm : m.vm.heap.Slotted) (hs : ∀ image ∈ w.vmImages, image.heap.Slotted)
    (h : w.named m = some (.ok found)) : Covers w m found := by
  unfold named at h
  split at h
  · cases h
  · cases h
  · next order ho =>
    dsimp only at h
    split at h
    · cases h
    · cases h
    · next out hi =>
      cases h
      obtain ⟨hu, he⟩ := imageMachines_covers hs hi
      have hb : ∀ r o, m.vm.heap.Under m.snapshotRoots r → m.vm.heap.tryGet r = some o →
          o ∈ order.filterMap m.vm.heap.tryGet := fun r o hr hg =>
        mem_filterMap.mpr ⟨r, (mem_snapshotOrdinals hm ho).mpr hr, hg⟩
      refine ⟨?_, fun v hv => mem_foldl_pushNew.mpr (.inr hv), ?_⟩
      · rintro v ⟨r, n, hr, hn, hv⟩
        refine mem_foldl_pushNew.mpr (.inl (hu v (mem_foldl_pushNew.mpr (.inr ?_))))
        exact mem_filterMap.mpr ⟨n.2, hb r n.2 hr (tryGet_of_named hn hv), hv⟩
      · intro key hk image hl
        have hme : key ∈ ((order.filterMap m.vm.heap.tryGet).filterMap imageNamed).foldl pushNew m.image.toList := by
          rw [mem_foldl_pushNew]
          rcases hk with hk | ⟨r, o, hr, hg, hn⟩
          · exact .inl (by simp [hk])
          · exact .inr (mem_filterMap.mpr ⟨o, hb r o hr hg, hn⟩)
        obtain ⟨hp, hh⟩ := he key hme image hl
        exact ⟨fun x hx => mem_foldl_pushNew.mpr (.inl (hp x hx)),
          fun r o hr hg x hx => mem_foldl_pushNew.mpr (.inl (hh r o hr hg x hx))⟩

end Covered

section Mark

variable {count : ℕ} {queue pending done marked : List VmId}

theorem foldl_mark_spec (count : ℕ) (xs : List VmId) (hq : queue.Nodup) :
    ∃ new, xs.foldl (mark count) queue = queue ++ new ∧ (queue ++ new).Nodup ∧
      ∀ x, x ∈ queue ++ new ↔ x ∈ queue ∨ (x ∈ xs ∧ x < count) := by
  induction xs generalizing queue with
  | nil => exact ⟨[], by simp, by simpa using hq, by simp⟩
  | cons y ys ih =>
    rw [foldl_cons, mark]
    split
    · next hy =>
      obtain ⟨new, he, hn, hm⟩ := ih (nodup_append_singleton hq hy.2)
      refine ⟨y :: new, by simpa using he, by simpa using hn, fun x => ?_⟩
      rw [← singleton_append, ← append_assoc, hm, mem_append, mem_singleton, mem_cons]
      constructor
      · rintro ((hx | rfl) | hx)
        · exact .inl hx
        · exact .inr ⟨.inl rfl, hy.1⟩
        · exact .inr ⟨.inr hx.1, hx.2⟩
      · rintro (hx | ⟨rfl | hx, hlt⟩)
        · exact .inl (.inl hx)
        · exact .inl (.inr rfl)
        · exact .inr ⟨hx, hlt⟩
    · next hy =>
      obtain ⟨new, he, hn, hm⟩ := ih hq
      refine ⟨new, he, hn, fun x => ?_⟩
      rw [hm, mem_cons]
      constructor
      · rintro (hx | hx)
        · exact .inl hx
        · exact .inr ⟨.inr hx.1, hx.2⟩
      · rintro (hx | ⟨rfl | hx, hlt⟩)
        · exact .inl hx
        · exact .inl (by_contra fun hn => hy ⟨hlt, hn⟩)
        · exact .inr ⟨hx, hlt⟩

theorem named_of_coreReferences {found : List VmId} (h : w.coreReferences m.core = some (.ok found)) :
    w.named m.materialize.2 = some (.ok found) := by
  rw [Machine.core] at h
  cases hm : m.materialize.1 with
  | error e =>
    rw [hm] at h
    cases h
  | ok _ =>
    rw [hm] at h
    exact h

theorem materialize_eq (m : Machine) (h : m.native = none) : m.materialize.2 = m := by
  rw [Machine.materialize, h]

theorem materialize_native (m : Machine) : m.materialize.2.native = none := by
  unfold Machine.materialize
  split
  · next h => exact h
  · split <;> rfl

theorem materialize_vm (m : Machine) : m.materialize.2.vm = { m.vm with arenas := m.materialize.2.vm.arenas } := by
  unfold Machine.materialize
  split
  · rfl
  · split <;> rfl

theorem materialize_state (m : Machine) : m.materialize.2.vm.state = m.vm.state := by rw [materialize_vm]

theorem materialize_parent (m : Machine) : m.materialize.2.vm.parent = m.vm.parent := by rw [materialize_vm]

theorem materialize_heap (m : Machine) : m.materialize.2.vm.heap = m.vm.heap := by rw [materialize_vm]

/-- The machines that the mark phase goes on to from one that it looks at. -/
def followed (w : World ι) (vm : VmId) : Option (List VmId) :=
  (w.machine vm).bind fun m =>
    if m.vm.state = .empty then some []
    else (w.succ vm).map fun found =>
      (m.vm.parent.toList.filter (fun parent => decide (parent ∉ w.freeSlots)) ++ found).filter
        fun x => decide (x < w.machines.length)

def Reached (w : World ι) (vm : VmId) : Prop := Reachable w.followed (w.markRoots w.freeSlots) vm

/-- What the mark phase does to the world: it gives native frames back to the arenas. -/
structure Looked (w₀ w : World ι) : Prop where
  rest : w = { w₀ with machines := w.machines }
  length : w.machines.length = w₀.machines.length
  records : ∀ vm m₀, w₀.machine vm = some m₀ → w.machine vm = some m₀ ∨ w.machine vm = some m₀.materialize.2
  resident : ∀ vm m, w.machine vm = some m → ∃ m₀, w₀.machine vm = some m₀

structure Marking (w₀ : World ι) (done pending : List VmId) (w : World ι) : Prop extends Looked w₀ w where
  kept : Kept w₀ w
  nodup : (done ++ pending).Nodup
  frontier : Frontier w₀.followed (w₀.markRoots w₀.freeSlots) pending done

theorem Looked.refl (w : World ι) : Looked w w :=
  ⟨rfl, rfl, fun _ _ h => .inl h, fun _ m h => ⟨m, h⟩⟩

theorem Looked.materialized (h : Looked w₀ w) (hm : w.machine vm = some m) :
    Looked w₀ (w.setMachine vm m.materialize.2) := by
  refine ⟨?_, ?_, fun x m0 hx => ?_, fun x m1 hx => ?_⟩
  · rw [setMachine, h.rest]
  · rw [setMachine, length_set, h.length]
  · rw [w.machine_setMachine hm]
    split
    · next he =>
      subst he
      rcases h.records x m0 hx with hr | hr
      · rw [hm] at hr
        cases hr
        exact .inr rfl
      · rw [hm] at hr
        cases hr
        exact .inr (by rw [materialize_eq _ (materialize_native m0)])
    · exact h.records x m0 hx
  · rw [w.machine_setMachine hm] at hx
    split at hx
    · next he => exact he ▸ h.resident vm m hm
    · exact h.resident x m1 hx

theorem Marking.start (w : World ι) : Marking w [] (w.markRoots w.freeSlots) w := by
  refine ⟨.refl w, .refl w, ?_, .start _ fun _ => Iff.rfl⟩
  rw [nil_append, markRoots]
  obtain ⟨new, he, hn, -⟩ := foldl_mark_spec w.machines.length _ nodup_nil
  rw [he]
  exact hn

theorem Marking.state_eq (h : Marking w₀ done pending w) (hm : w.machine vm = some m) :
    ∃ m₀, w₀.machine vm = some m₀ ∧ m.vm.state = m₀.vm.state ∧ m.vm.parent = m₀.vm.parent := by
  obtain ⟨m₀, hm₀⟩ := h.resident vm m hm
  refine ⟨m₀, hm₀, ?_⟩
  rcases h.records vm m₀ hm₀ with hr | hr
  · rw [hm] at hr
    cases hr
    exact ⟨rfl, rfl⟩
  · rw [hm] at hr
    cases hr
    exact ⟨materialize_state m₀, materialize_parent m₀⟩

theorem Marking.skip (h : Marking w₀ done (vm :: pending) w) (hm : w.machine vm = some m)
    (he : m.vm.state = .empty) : Marking w₀ (done ++ [vm]) pending w := by
  obtain ⟨m₀, hm₀, hs, -⟩ := h.state_eq hm
  refine ⟨h.toLooked, h.kept, by simpa using h.nodup, h.frontier.enter_leaf ?_ ?_⟩
  · exact fun hin => (nodup_append.mp h.nodup).2.2 vm hin vm mem_cons_self rfl
  · rw [followed, hm₀, bind_some, if_pos (hs ▸ he)]

theorem Marking.visit {found : List VmId} (h : Marking w₀ done (vm :: pending) w)
    (hm : w.machine vm = some m) (hs : m.vm.state ≠ .empty) (hr : w.machineReferences vm = some (.ok found, w')) :
    Marking w₀ (done ++ [vm])
      (((m.vm.parent.toList.filter (fun parent => decide (parent ∉ w₀.freeSlots)) ++ found).foldl
        (mark w₀.machines.length) (done ++ vm :: pending)).drop (done.length + 1)) w' := by
  obtain ⟨new, he, hn, hmem⟩ := foldl_mark_spec w₀.machines.length
    (m.vm.parent.toList.filter (fun parent => decide (parent ∉ w₀.freeSlots)) ++ found) h.nodup
  have hq : done ++ vm :: pending ++ new = done ++ [vm] ++ (pending ++ new) := by simp
  rw [hq] at he hn hmem
  rw [he, drop_left' (by simp)]
  obtain ⟨m₀, hm₀, hs₀, hp₀⟩ := h.state_eq hm
  have hf : w₀.followed vm = some ((m.vm.parent.toList.filter (fun parent => decide (parent ∉ w₀.freeSlots)) ++
      found).filter fun x => decide (x < w₀.machines.length)) := by
    rw [followed, hm₀, bind_some, if_neg (hs₀ ▸ hs), ← h.kept.succ_eq, succ_of_references hm hs hr, hp₀]
    rfl
  have hin : ∀ x, x ∈ pending ∨ x ∈ (m.vm.parent.toList.filter (fun parent => decide (parent ∉ w₀.freeSlots)) ++
      found).filter (fun x => decide (x < w₀.machines.length)) → x ∈ done ++ [vm] ∨ x ∈ pending ++ new := by
    intro x hx
    rw [← mem_append, hmem]
    rcases hx with hx | hx
    · exact .inl (mem_append_right _ (mem_cons_of_mem vm hx))
    · rw [mem_filter, decide_eq_true_eq] at hx
      exact .inr hx
  have hlook : Looked w₀ w' := by
    rw [machineReferences_eq hm] at hr
    obtain ⟨_, -, heq⟩ := map_eq_some_iff.mp hr
    cases heq
    exact h.toLooked.materialized hm
  refine ⟨hlook, h.kept.trans (machineReferences_kept hr), hn, h.frontier.enter ?_ hf (fun x hx => ?_) hin⟩
  · exact fun hin => (nodup_append.mp h.nodup).2.2 vm hin vm mem_cons_self rfl
  · have hx' := (hmem x).mp (mem_append_right _ hx)
    rcases hx' with hx' | hx'
    · refine .inl (((mem_append.mp hx').resolve_left fun hd => ?_) |> mem_cons.mp |>.resolve_left ?_)
      · exact (nodup_append.mp hn).2.2 x (mem_append_left _ hd) x hx rfl
      · rintro rfl
        exact (nodup_append.mp hn).2.2 x (mem_append_right _ (mem_singleton_self x)) x hx rfl
    · exact .inr (mem_filter.mpr ⟨hx'.1, decide_eq_true hx'.2⟩)

theorem markFrom_spec {left : ℕ} {out : Option (List VmId)} (hd : Marking w₀ done pending w)
    (h : markFrom w₀.machines.length w₀.freeSlots left done pending w = some (out, w')) :
    Looked w₀ w' ∧ ∀ marked, out = some marked → Marking w₀ marked [] w' := by
  induction left generalizing done pending w with
  | zero =>
    cases pending with
    | nil =>
      cases h
      exact ⟨hd.toLooked, fun marked he => some.inj he ▸ hd⟩
    | cons vm pending => cases h
  | succ left ih =>
    cases pending with
    | nil =>
      cases h
      exact ⟨hd.toLooked, fun marked he => some.inj he ▸ hd⟩
    | cons vm pending =>
      unfold markFrom at h
      cases hm : w.machine vm with
      | none =>
        rw [hm] at h
        cases h
      | some m =>
        simp only [hm] at h
        split at h
        · next he => exact ih (hd.skip hm he) h
        · next he =>
          cases hr : w.machineReferences vm with
          | none =>
            rw [hr] at h
            cases h
          | some x =>
            obtain ⟨res, w1⟩ := x
            simp only [hr] at h
            cases res with
            | ok found => exact ih (hd.visit hm he hr) h
            | error e =>
              cases h
              rw [machineReferences_eq hm] at hr
              obtain ⟨_, -, heq⟩ := map_eq_some_iff.mp hr
              cases heq
              exact ⟨hd.toLooked.materialized hm, fun marked he => by cases he⟩

theorem Marking.mem_iff (h : Marking w₀ marked [] w) : v ∈ marked ↔ w₀.Reached v := h.frontier.finish

/-- A machine that the mark phase looks at has been walked, and what the walk covers is reached. -/
theorem Marking.covers (h : Marking w₀ marked [] w) (hvm : w₀.Reached vm) (hm : w₀.machine vm = some m)
    (hs : m.vm.state ≠ .empty) (hl : m.vm.heap.Slotted) (hi : ∀ image ∈ w₀.vmImages, image.heap.Slotted) :
    ∃ found, Covers w₀ m.materialize.2 found ∧
      ∀ x, x ∈ found ∨ (m.vm.parent = some x ∧ x ∉ w₀.freeSlots) → x < w₀.machines.length → w₀.Reached x := by
  obtain ⟨next, hn, hx⟩ := h.frontier.closed vm (h.mem_iff.mpr hvm)
  rw [followed, hm, bind_some, if_neg hs] at hn
  obtain ⟨found, hf, rfl⟩ := map_eq_some_iff.mp hn
  refine ⟨found, named_covers ?_ hi (named_of_coreReferences ?_), fun x hin hlt => ?_⟩
  · rwa [materialize_heap]
  · rw [succ_eq, hm, bind_some, Machine.state_core, if_neg hs] at hf
    split at hf
    · next he => rwa [some.inj hf] at he
    · cases hf
  · refine h.mem_iff.mp ((hx x ?_).resolve_right not_mem_nil)
    rw [mem_filter, mem_append, mem_filter, mem_toList, decide_eq_true_eq, decide_eq_true_eq]
    exact ⟨hin.symm, hlt⟩

end Mark

end World

end Vm

end LoomV4
