import LoomV4.World.Cut
import LoomV4.World.Frame

namespace LoomV4.Vm

open Abi Proc Lib List Option

variable {ι : Type} {w w' w₀ : World ι} {vm : VmId} {barrier : ℕ} {roots set queue : List VmId}

namespace World

section Marks

structure Marks (w w' : World ι) (vm : VmId) (mark : Option ℕ × Bool → Option ℕ × Bool) : Prop where
  kept : Kept w w'
  flags : ∀ x, w'.flags x = if x = vm then (w.flags x).map mark else w.flags x
  here : w.machine vm ≠ none

variable {b : Option ℕ} {frozen : Bool}

theorem setMachine_marks (mark : Option ℕ × Bool → Option ℕ × Bool) {m : Machine}
    (hm : w.machine vm = some m) (ha : mark (m.barrier, m.vm.mailbox.frozen) = (b, frozen)) :
    Marks w (w.setMachine vm { m with barrier := b, vm.mailbox.frozen := frozen }) vm mark := by
  refine ⟨kept_setMachine hm (core_marked m b frozen), fun x => ?_, by simp [hm]⟩
  rw [flags_setMachine hm]
  split
  · next hx =>
    rw [hx, flags, hm, map_some, map_some, ha]
  · rfl

theorem setBarrier_marks (h : w.setBarrier vm b = some w') : Marks w w' vm (fun f => (b, f.2)) := by
  unfold setBarrier at h
  cases hm : w.machine vm with
  | none => simp [hm] at h
  | some m =>
    obtain ⟨hk, hf, hh⟩ := setMachine_marks (fun f => (b, f.2)) hm rfl
    simp only [hm] at h
    split at h
    · cases h
      exact ⟨hk, hf, hh⟩
    · cases h
      exact ⟨⟨hk.machines, hk.vmImages, hk.scratch, hk.length⟩, hf, hh⟩

theorem freezeMailbox_marks (h : w.freezeMailbox vm frozen = some w') :
    Marks w w' vm (fun f => (f.1, frozen)) := by
  unfold freezeMailbox at h
  cases hm : w.machine vm with
  | none => simp [hm] at h
  | some m =>
    obtain ⟨hk, hf, hh⟩ := setMachine_marks (fun f => (f.1, frozen)) hm rfl
    simp only [hm] at h
    cases h
    cases frozen with
    | true => exact ⟨hk, hf, hh⟩
    | false => exact ⟨⟨hk.machines, hk.vmImages, hk.scratch, hk.length⟩, hf, hh⟩

theorem foldlM_marks {step : World ι → VmId → Option (World ι)} (mark : Option ℕ × Bool → Option ℕ × Bool)
    (hs : ∀ w w' vm, step w vm = some w' → Marks w w' vm mark) (ha : ∀ f, mark (mark f) = mark f)
    (h : set.foldlM step w = some w') :
    Kept w w' ∧ (∀ x, w'.flags x = if x ∈ set then (w.flags x).map mark else w.flags x) := by
  induction set generalizing w with
  | nil =>
    cases h
    exact ⟨.refl _, fun x => by simp⟩
  | cons vm rest ih =>
    rw [foldlM_cons] at h
    obtain ⟨w1, h1, hr⟩ := bind_eq_some_iff.mp h
    have hm := hs _ _ _ h1
    obtain ⟨hk, hf⟩ := ih hr
    refine ⟨hm.kept.trans hk, fun x => ?_⟩
    rw [hf x, hm.flags x]
    by_cases hx : x = vm
    · subst hx
      simp only [mem_cons, true_or, if_true]
      split
      · rw [Option.map_map]
        congr 1
        funext f
        exact ha f
      · rfl
    · simp [hx]

theorem releaseCut_marks {thaw : Bool} (h : w.releaseCut set thaw = some w') :
    Kept w w' ∧ ∀ x, w'.flags x = if x ∈ set then (w.flags x).map (fun f => (none, if thaw then false else f.2))
      else w.flags x := by
  refine foldlM_marks (fun f => (none, if thaw then false else f.2)) ?_ ?_ h
  · intro w w' vm hs
    obtain ⟨w1, h1, h2⟩ := bind_eq_some_iff.mp hs
    have hb := setBarrier_marks h2
    cases thaw with
    | false =>
      cases h1
      exact hb
    | true =>
      have hz := freezeMailbox_marks h1
      refine ⟨hz.kept.trans hb.kept, fun x => ?_, hz.here⟩
      rw [hb.flags x, hz.flags x]
      split
      · rw [Option.map_map]
        rfl
      · rfl
  · intro f
    cases thaw <;> rfl

theorem freezeAll_marks (h : w.freezeAll set = some w') :
    Kept w w' ∧ ∀ x, w'.flags x = if x ∈ set then (w.flags x).map (fun f => (f.1, true)) else w.flags x :=
  foldlM_marks (fun f => (f.1, true)) (fun _ _ _ hs => freezeMailbox_marks hs) (fun _ => rfl) h

end Marks

section Close

structure Stopped (w₀ : World ι) (barrier : ℕ) (set : List VmId) (w : World ι) : Prop where
  kept : Kept w₀ w
  flags : ∀ x, w.flags x = if x ∈ set then (w₀.flags x).map (fun f => (some barrier, f.2)) else w₀.flags x
  free : ∀ x ∈ set, ∀ f, w₀.flags x = some f → f.1 = none

theorem stopped_start (w : World ι) (barrier : ℕ) : Stopped w barrier [] w :=
  ⟨.refl w, fun x => by simp, fun x hx => absurd hx not_mem_nil⟩

theorem Stopped.join (hc : Stopped w₀ barrier set w) (hf : ∀ f, w₀.flags vm = some f → f.1 = none)
    (h : w.setBarrier vm (some barrier) = some w') : Stopped w₀ barrier (set ++ [vm]) w' := by
  have hm := setBarrier_marks h
  refine ⟨hc.kept.trans hm.kept, fun x => ?_, fun x hx => ?_⟩
  · rw [hm.flags x, hc.flags x]
    by_cases hx : x = vm
    · subst hx
      simp only [mem_append, mem_singleton, or_true, if_true]
      split
      · rw [Option.map_map]
        rfl
      · rfl
    · simp [hx]
  · rcases mem_append.mp hx with hx | hx
    · exact hc.free x hx
    · rw [mem_singleton.mp hx]
      exact hf

theorem Stopped.referenced {found : List VmId} (hc : Stopped w₀ barrier set w)
    (h : w.machineReferences vm = some (.ok found, w')) : Stopped w₀ barrier set w' :=
  ⟨hc.kept.trans (machineReferences_kept h), fun x => (machineReferences_sameFlags h x).trans (hc.flags x), hc.free⟩

theorem Stopped.released (hc : Stopped w₀ barrier set w) {w1 : World ι} (hs : SameFlags w w1)
    (h : w1.releaseCut set false = some w') : SameFlags w₀ w' := by
  intro x
  rw [(releaseCut_marks h).2 x, hs x, hc.flags x]
  split
  · next hx =>
    cases hf : w₀.flags x with
    | none => rfl
    | some f =>
      have hn := hc.free x hx f hf
      simp only [map_some, Bool.false_eq_true, if_false]
      rw [← hn]
  · rfl

theorem refuse_released {α : Type} {e : CutError} {thaw : Bool} {out : Except CutError α}
    (h : w.refuse set thaw e = some (out, w')) : (∃ e, out = .error e) ∧ w.releaseCut set thaw = some w' := by
  obtain ⟨w1, h1, he⟩ := map_eq_some_iff.mp h
  cases he
  exact ⟨⟨e, rfl⟩, h1⟩

theorem not_mem_of_dropWhile {queue rest : List VmId} {x : VmId}
    (h : queue.dropWhile (fun x => decide (x ∈ set)) = x :: rest) : x ∉ set := by
  have hx := head?_dropWhile_not (fun x => decide (x ∈ set)) queue
  rw [h] at hx
  simpa using hx

def CloseDone (w₀ : World ι) (barrier : ℕ) (roots : List VmId) (w' : World ι) : Except CutError (List VmId) → Prop
  | .ok set => Stopped w₀ barrier set w' ∧ Frontier w₀.succ roots [] set
  | .error _ => SameFlags w₀ w'

theorem closeSet_spec (hfe : ∀ x f, w₀.flags x = some f → f.1 ≠ some barrier) {left : ℕ}
    {out : Except CutError (List VmId)} (hc : Stopped w₀ barrier set w) (hf : Frontier w₀.succ roots queue set)
    (h : closeSet barrier left queue set w = some (out, w')) : CloseDone w₀ barrier roots w' out := by
  induction left generalizing queue set w with
  | zero =>
    unfold closeSet at h
    split at h
    · next hd =>
      cases h
      exact ⟨hc, hf.drop hd⟩
    · cases h
    · next hl _ => cases hl
  | succ left ih =>
    unfold closeSet at h
    split at h
    · next hd =>
      cases h
      exact ⟨hc, hf.drop hd⟩
    · next hl _ => cases hl
    · next vm rest hl hd =>
      cases hl
      have hn := not_mem_of_dropWhile hd
      have hfr := hf.drop hd
      cases hm : w.machine vm with
      | none => simp [hm] at h
      | some m =>
        simp only [hm] at h
        split at h
        · obtain ⟨⟨e, rfl⟩, hre⟩ := refuse_released h
          exact hc.released (fun _ => rfl) hre
        · next hb =>
          have hg : w₀.flags vm = some (m.barrier, m.vm.mailbox.frozen) := by
            have hx := hc.flags vm
            rw [if_neg hn, World.flags, hm] at hx
            exact hx.symm
          have hno : ∀ f, w₀.flags vm = some f → f.1 = none := by
            intro f hx
            by_contra hne
            have hba := hfe vm f hx
            rw [hg] at hx
            cases hx
            exact hb ⟨hne, hba⟩
          have hsu := hc.kept.succ_eq vm
          cases he : w.setBarrier vm (some barrier) with
          | none => simp [he] at h
          | some w1 =>
            simp only [he] at h
            have hc1 := hc.join hno he
            have hk := setBarrier_marks he
            split at h
            · next hs =>
              have hp : w₀.succ vm = some [] := by rw [← hsu, succ, hm]; exact if_pos hs
              exact ih hc1 (hfr.enter_leaf hn hp) h
            · next hs =>
              cases hr : w1.machineReferences vm with
              | none => simp [hr] at h
              | some y =>
                obtain ⟨res, w2⟩ := y
                cases res with
                | error code =>
                  simp only [hr] at h
                  obtain ⟨⟨e, rfl⟩, hre⟩ := refuse_released h
                  exact hc1.released (machineReferences_sameFlags hr) hre
                | ok found =>
                  simp only [hr] at h
                  have ho : w₀.succ vm = some found := by
                    obtain ⟨m1, hm1, ht⟩ := hk.kept.state_eq hm
                    rw [← hc1.kept.succ_eq]
                    exact succ_of_references hm1 (ht ▸ hs) hr
                  refine ih (hc1.referenced hr) (hfr.enter hn ho ?_ ?_) h
                  · exact fun x hx => (mem_append.mp hx).symm.imp_right mem_reverse.mp
                  · exact fun x hx => .inr (mem_append.mpr (hx.symm.imp_left mem_reverse.mpr))

end Close

section Order

theorem SameFlags.trans {w'' : World ι} (h : SameFlags w w') (h' : SameFlags w' w'') : SameFlags w w'' :=
  fun x => (h' x).trans (h x)

theorem pathParents_sameFlags {left : ℕ} {order order' : List VmId} {parent parent' : List (VmId × VmId)}
    (h : pathParents left queue order parent w = some (order', parent', w')) : SameFlags w w' := by
  induction left generalizing queue order parent w with
  | zero =>
    cases h
    exact fun _ => rfl
  | succ left ih =>
    cases queue with
    | nil =>
      cases h
      exact fun _ => rfl
    | cons vm queue =>
      unfold pathParents at h
      split at h
      · cases h
      · split at h
        · exact ih h
        · split at h
          · cases h
          · next hr => exact (machineReferences_sameFlags hr).trans (ih h)
          · next hr => exact (machineReferences_sameFlags hr).trans (ih h)

theorem machinePathMany_sameFlags {path : List ℕ} (h : w.machinePathMany roots vm = some (path, w')) :
    SameFlags w w' := by
  obtain ⟨⟨order, parent, w1⟩, h1, he⟩ := map_eq_some_iff.mp h
  cases he
  exact pathParents_sameFlags h1

theorem preflight_spec {bundles : VmId → Bundle} {rest : List VmId} {objects : ℕ} {out : Except CutError ℕ}
    (h : preflight bundles roots set rest objects w = some (out, w')) : (∃ count, out = .ok count ∧ w' = w) ∨
      ∃ e w1, out = .error e ∧ SameFlags w w1 ∧ w1.releaseCut set true = some w' := by
  induction rest generalizing objects with
  | nil =>
    cases h
    exact .inl ⟨objects, rfl, rfl⟩
  | cons vm rest ih =>
    unfold preflight at h
    split at h
    · cases h
    · split at h
      · exact ih h
      · split at h
        · cases h
        · obtain ⟨⟨path, w1⟩, hp, hr⟩ := bind_eq_some_iff.mp h
          obtain ⟨⟨e, rfl⟩, he⟩ := refuse_released hr
          exact .inr ⟨e, w1, rfl, machinePathMany_sameFlags hp, he⟩
        · split at h
          · cases h
          · obtain ⟨⟨e, rfl⟩, he⟩ := refuse_released h
            exact .inr ⟨e, w, rfl, fun _ => rfl, he⟩
          · exact ih h

theorem orderFrom_spec {left : ℕ} {order out : List VmId} (hk : Kept w₀ w) (hf : Frontier w₀.succ roots queue order)
    (h : orderFrom left queue order w = some (out, w')) : SameFlags w w' ∧ Frontier w₀.succ roots [] out := by
  induction left generalizing queue order w with
  | zero =>
    unfold orderFrom at h
    split at h
    · next hd =>
      cases h
      exact ⟨fun _ => rfl, hf.drop hd⟩
    · cases h
    · next hl _ => cases hl
  | succ left ih =>
    unfold orderFrom at h
    split at h
    · next hd =>
      cases h
      exact ⟨fun _ => rfl, hf.drop hd⟩
    · next hl _ => cases hl
    · next vm rest hl hd =>
      cases hl
      have ht := not_mem_of_dropWhile hd
      have hfr := hf.drop hd
      cases hm : w.machine vm with
      | none => simp [hm] at h
      | some m =>
        simp only [hm] at h
        split at h
        · next hs =>
          have he : w₀.succ vm = some [] := by rw [← hk.succ_eq, succ, hm]; exact if_pos hs
          exact ih hk (hfr.enter_leaf ht he) h
        · next hs =>
          split at h
          · next found w1 hr =>
            have hn : w₀.succ vm = some found := by
              rw [← hk.succ_eq]
              exact succ_of_references hm hs hr
            have hne : Frontier w₀.succ roots (rest ++ found.filter fun x => decide (x ∉ order ++ [vm]))
                (order ++ [vm]) := by
              apply hfr.enter ht hn
              · exact fun x hx => (mem_append.mp hx).imp_right fun hx => (mem_filter.mp hx).1
              · rintro x (hx | hx)
                · exact .inr (mem_append_left _ hx)
                · by_cases ho : x ∈ order ++ [vm]
                  · exact .inl ho
                  · exact .inr (mem_append_right _ (mem_filter.mpr ⟨hx, decide_eq_true ho⟩))
            obtain ⟨hg, hdo⟩ := ih (hk.trans (machineReferences_kept hr)) hne h
            exact ⟨(machineReferences_sameFlags hr).trans hg, hdo⟩
          · cases h

end Order

section Run

variable {bundles : VmId → Bundle}

structure Held (w₀ : World ι) (barrier : ℕ) (set : List VmId) (w : World ι) : Prop where
  flags : ∀ x, w.flags x = if x ∈ set then some (some barrier, true) else w₀.flags x
  free : ∀ x ∈ set, w₀.flags x = some (none, false)

theorem Held.same (hh : Held w₀ barrier set w) (hs : SameFlags w w') : Held w₀ barrier set w' :=
  ⟨fun x => (hs x).trans (hh.flags x), hh.free⟩

theorem Held.released (hh : Held w₀ barrier set w) (h : w.releaseCut set true = some w') : SameFlags w₀ w' := by
  intro x
  rw [(releaseCut_marks h).2 x, hh.flags x]
  split
  · next hx =>
    rw [hh.free x hx]
    rfl
  · rfl

theorem setBarrier_some {b : Option ℕ} (h : w.machine vm ≠ none) : ∃ w', w.setBarrier vm b = some w' := by
  obtain ⟨m, hm⟩ := ne_none_iff_exists'.mp h
  simp only [setBarrier, hm]
  split
  · exact ⟨_, rfl⟩
  · exact ⟨_, rfl⟩

theorem freezeMailbox_some {b : Bool} (h : w.machine vm ≠ none) : ∃ w', w.freezeMailbox vm b = some w' := by
  obtain ⟨m, hm⟩ := ne_none_iff_exists'.mp h
  simp only [freezeMailbox, hm]
  exact ⟨_, rfl⟩

theorem Kept.machine_ne_none (h : Kept w w') (hm : w.machine vm ≠ none) : w'.machine vm ≠ none := by
  obtain ⟨m, hm⟩ := ne_none_iff_exists'.mp hm
  obtain ⟨m', hm', -⟩ := h.state_eq hm
  rw [hm']
  exact some_ne_none m'

theorem releaseCut_some (hm : ∀ x ∈ set, w.machine x ≠ none) : ∃ w', w.releaseCut set true = some w' := by
  induction set generalizing w with
  | nil => exact ⟨w, rfl⟩
  | cons vm rest ih =>
    obtain ⟨w1, h1⟩ := freezeMailbox_some (b := false) (hm vm mem_cons_self)
    have hk1 := (freezeMailbox_marks h1).kept
    obtain ⟨w2, h2⟩ := setBarrier_some (b := none) (hk1.machine_ne_none (hm vm mem_cons_self))
    have hk2 := hk1.trans (setBarrier_marks h2).kept
    obtain ⟨w', h'⟩ := ih fun x hx => hk2.machine_ne_none (hm x (mem_cons_of_mem _ hx))
    refine ⟨w', ?_⟩
    rw [releaseCut, foldlM_cons, if_pos rfl, h1, bind_some, h2]
    exact h'

theorem succ_machine {next : List VmId} (h : w.succ vm = some next) : w.machine vm ≠ none := by
  intro hm
  rw [succ, hm] at h
  cases h

theorem Stopped.held (hc : Stopped w₀ barrier set w) (hf : Frontier w₀.succ roots [] set)
    (ht : ∀ x f, w₀.flags x = some f → f.1 = none → f.2 = false) {frozen : List VmId} (hp : frozen.Perm set)
    (h : w.freezeAll frozen = some w') : Kept w₀ w' ∧ Held w₀ barrier frozen w' := by
  obtain ⟨hk, hl⟩ := freezeAll_marks h
  have hr : ∀ x ∈ frozen, w₀.flags x = some (none, false) := by
    intro x hx
    obtain ⟨next, hn, -⟩ := hf.closed x (hp.mem_iff.mp hx)
    obtain ⟨m, hm⟩ := ne_none_iff_exists'.mp (succ_machine hn)
    have hfl : w₀.flags x = some (m.barrier, m.vm.mailbox.frozen) := by rw [World.flags, hm]; rfl
    have hb := hc.free x (hp.mem_iff.mp hx) _ hfl
    have hz := ht x _ hfl hb
    rw [hfl]
    exact congrArg some (Prod.ext hb hz)
  refine ⟨hc.kept.trans hk, fun x => ?_, hr⟩
  rw [hl x, hc.flags x]
  by_cases hx : x ∈ frozen
  · rw [if_pos hx, if_pos hx, if_pos (hp.mem_iff.mp hx), hr x hx]
    rfl
  · rw [if_neg hx, if_neg hx, if_neg fun hm => hx (hp.mem_iff.mpr hm)]

def CutDone (w₀ : World ι) (barrier : ℕ) (roots : List VmId) (w' : World ι) : Except CutError CutReport → Prop
  | .ok report => Held w₀ barrier report.set w' ∧ report.set.Nodup ∧ report.order.Perm report.set ∧
      (∀ x, x ∈ report.set ↔ Reachable w₀.succ roots x) ∧ ∀ x ∈ report.set, w'.machine x ≠ none
  | .error _ => SameFlags w₀ w'

theorem runCutMany_spec (hfr : ∀ x f, w.flags x = some f → f.1 ≠ some barrier)
    (hw : ∀ x f, w.flags x = some f → f.1 = none → f.2 = false) {out : Except CutError CutReport}
    (h : w.runCutMany bundles barrier roots = some (out, w')) : CutDone w barrier roots w' out := by
  unfold runCutMany at h
  have ht := Frontier.start w.succ fun r => Iff.rfl (a := r ∈ roots)
  split at h
  · cases h
  · next e w1 hc =>
    cases h
    exact closeSet_spec hfr (stopped_start w barrier) ht hc
  · next found w1 hc =>
    obtain ⟨hs, hf⟩ := closeSet_spec hfr (stopped_start w barrier) ht hc
    have hp := perm_insertionSort (· ≤ ·) found
    dsimp only at h
    split at h
    · cases h
    · next w2 hr =>
      have hs' : Stopped w barrier found w1.nextCut :=
        ⟨⟨hs.kept.machines, hs.kept.vmImages, hs.kept.scratch, hs.kept.length⟩, hs.flags, hs.free⟩
      obtain ⟨hk, hh⟩ := hs'.held hf hw hp hr
      split at h
      · cases h
      · next e w3 hpr =>
        cases h
        obtain ⟨count, ho, -⟩ | ⟨e', w4, ho, ha, hl⟩ := preflight_spec hpr
        · cases ho
        · exact (hh.same ha).released hl
      · next objects w3 hpr =>
        obtain ⟨count, -, rfl⟩ | ⟨e', w4, ho, -, -⟩ := preflight_spec hpr
        · obtain ⟨⟨order, w5⟩, hor, he⟩ := map_eq_some_iff.mp h
          cases he
          obtain ⟨ha, hd⟩ := orderFrom_spec hk ht hor
          have hse : ∀ x, x ∈ found.insertionSort (· ≤ ·) ↔ Reachable w.succ roots x := by
            intro x
            rw [hp.mem_iff]
            exact hf.finish
          refine ⟨hh.same ha, hp.nodup_iff.mpr hf.nodup, ?_, hse, ?_⟩
          · rw [perm_ext_iff_of_nodup hd.nodup (hp.nodup_iff.mpr hf.nodup)]
            intro x
            rw [hse x]
            exact hd.finish
          · intro x hx hn
            have hfl := (hh.same ha).flags x
            rw [if_pos hx, World.flags, hn] at hfl
            cases hfl
        · cases ho

theorem materializeFrom_sameFlags {rest : List VmId} {out : Except FaultCode Unit}
    (h : materializeFrom rest w = some (out, w')) : SameFlags w w' := by
  induction rest generalizing w with
  | nil =>
    cases h
    exact fun _ => rfl
  | cons vm rest ih =>
    unfold materializeFrom at h
    cases hm : w.machine vm with
    | none =>
      simp only [hm] at h
      exact ih h
    | some m =>
      have hs := sameFlags_materialize hm
      simp only [hm] at h
      split at h
      · next m' ha =>
        cases h
        rwa [ha] at hs
      · next m' ha =>
        rw [ha] at hs
        exact hs.trans (ih h)

theorem captureSelected_sameFlags {β γ : Type}
    {build : CutReport → World ι → Option (Except SnapshotFail β × World ι)} {sealed : β → ℕ → Except SnapshotFail γ}
    (hu : ∀ report w out w', build report w = some (out, w') → SameFlags w w')
    (hf : ∀ x f, w.flags x = some f → f.1 ≠ some barrier)
    (ht : ∀ x f, w.flags x = some f → f.1 = none → f.2 = false) {distinguished : Option VmId} {selfRoot : Bool}
    {holder : VmId} {out : Except SnapshotFail γ}
    (h : w.captureSelected bundles build sealed barrier roots distinguished selfRoot holder = some (out, w')) :
    SameFlags w w' := by
  unfold captureSelected at h
  split at h
  · cases h
  · next hm =>
    cases h
    exact materializeFrom_sameFlags hm
  · next w1 hm =>
    have hs := materializeFrom_sameFlags hm
    have hf1 : ∀ x f, w1.flags x = some f → f.1 ≠ some barrier := fun x f hx => hf x f ((hs x).symm.trans hx)
    have ht1 : ∀ x f, w1.flags x = some f → f.1 = none → f.2 = false := fun x f hx =>
      ht x f ((hs x).symm.trans hx)
    split at h
    · cases h
    · next hc =>
      cases h
      exact hs.trans (runCutMany_spec hf1 ht1 hc)
    · next report w2 hc =>
      obtain ⟨hh, -⟩ := runCutMany_spec hf1 ht1 hc
      split at h
      · cases h
      · obtain ⟨w3, hr, he⟩ := map_eq_some_iff.mp h
        cases he
        exact hs.trans (hh.released hr)
      · split at h
        · cases h
        · next built w3 hb =>
          split at h
          · cases h
          · next w4 hr =>
            have hd := hs.trans ((hh.same (hu _ _ _ _ hb)).released hr)
            split at h
            · cases h
              exact hd
            · obtain ⟨m, -, he⟩ := map_eq_some_iff.mp h
              cases he
              exact hd

/-- A cut takes exactly what its roots name, and leaves no trace after a failure or a release. -/
theorem cut_closed_without_trace {β γ : Type} (bundles : VmId → Bundle) (w : World ι) (barrier : ℕ)
    (roots : List VmId) (hfree : ∀ vm f, w.flags vm = some f → f.1 ≠ some barrier)
    (hthaw : ∀ vm f, w.flags vm = some f → f.1 = none → f.2 = false) :
    (∀ report w', w.runCutMany bundles barrier roots = some (.ok report, w') →
      (∀ vm, vm ∈ report.set ↔ Reachable w.succ roots vm) ∧ report.set.Nodup ∧ report.order.Perm report.set ∧
      (∀ vm ∈ report.set, w'.flags vm = some (some barrier, true)) ∧
      ∃ w'', w'.releaseCut report.set true = some w'' ∧ SameFlags w w'') ∧
    (∀ e w', w.runCutMany bundles barrier roots = some (.error e, w') → SameFlags w w') ∧
    ∀ (build : CutReport → World ι → Option (Except SnapshotFail β × World ι)) (sealed : β → ℕ → Except SnapshotFail γ)
      (distinguished : Option VmId) (selfRoot : Bool) (holder : VmId) (out : Except SnapshotFail γ) (w' : World ι),
      (∀ report w out w', build report w = some (out, w') → SameFlags w w') →
      w.captureSelected bundles build sealed barrier roots distinguished selfRoot holder = some (out, w') →
      SameFlags w w' := by
  refine ⟨fun report w' h => ?_, fun e w' h => runCutMany_spec hfree hthaw h, fun build sealed d s holder out w' hb h => ?_⟩
  · obtain ⟨hheld, hn, hp, hset, hm⟩ := runCutMany_spec hfree hthaw h
    obtain ⟨w'', hrel⟩ := releaseCut_some hm
    refine ⟨hset, hn, hp, fun vm hvm => ?_, w'', hrel, hheld.released hrel⟩
    rw [hheld.flags vm, if_pos hvm]
  · exact captureSelected_sameFlags hb hfree hthaw h

end Run

section Returns

theorem succ_cases {next : List VmId} (h : w.succ vm = some next) : ∃ m, w.machine vm = some m ∧
    (m.vm.state = .empty ∧ next = [] ∨ m.vm.state ≠ .empty ∧ ∃ w', w.machineReferences vm = some (.ok next, w')) := by
  unfold succ at h
  cases hm : w.machine vm with
  | none => simp [hm] at h
  | some m =>
    simp only [hm] at h
    split at h
    · next he =>
      cases h
      exact ⟨m, rfl, .inl ⟨he, rfl⟩⟩
    · next he =>
      split at h
      · next hr =>
        cases h
        exact ⟨m, rfl, .inr ⟨he, _, hr⟩⟩
      · cases h

structure CutWalk (w : World ι) (roots queue set : List VmId) : Prop where
  nodup : set.Nodup
  below : ∀ x ∈ set, x < w.machines.length
  reached : ∀ x ∈ queue, Reachable w.succ roots x

theorem cutWalk_start (w : World ι) (roots : List VmId) : CutWalk w roots roots [] :=
  ⟨nodup_nil, fun _ hx => absurd hx not_mem_nil, fun x hx => ⟨x, hx, .refl⟩⟩

variable (hread : ∀ vm, Reachable w₀.succ roots vm → w₀.succ vm ≠ none)
include hread

theorem CutWalk.turn (hw : CutWalk w₀ roots queue set) {rest : List VmId}
    (hd : queue.dropWhile (fun x => decide (x ∈ set)) = vm :: rest) :
    set.length < w₀.machines.length ∧ ∃ next, w₀.succ vm = some next ∧
      ∀ queue', (∀ x ∈ queue', x ∈ rest ∨ x ∈ next) → CutWalk w₀ roots queue' (set ++ [vm]) := by
  have hs : ∀ x ∈ vm :: rest, x ∈ queue := fun x hx => (dropWhile_sublist _).subset (hd ▸ hx)
  have hn := not_mem_of_dropWhile hd
  obtain ⟨top, ht, hp⟩ := hw.reached vm (hs vm mem_cons_self)
  obtain ⟨next, hx⟩ := ne_none_iff_exists'.mp (hread vm ⟨top, ht, hp⟩)
  obtain ⟨m, hm, -⟩ := succ_cases hx
  have hset := nodup_append_singleton hw.nodup hn
  have hbelow := forall_append_singleton hw.below (w₀.machine_lt hm)
  have hl := (hset.subperm fun x hx => mem_range.mpr (hbelow x hx)).length_le
  rw [length_append, length_singleton, length_range] at hl
  refine ⟨hl, next, hx, fun queue' hq => ⟨hset, hbelow, fun x hx' => ?_⟩⟩
  rcases hq x hx' with hx' | hx'
  · exact hw.reached x (hs x (mem_cons_of_mem _ hx'))
  · exact ⟨top, ht, hp.tail ⟨next, hx, hx'⟩⟩

theorem orderFrom_returns {left : ℕ} {order : List VmId} (hk : Kept w₀ w) (hw : CutWalk w₀ roots queue order)
    (hl : w₀.machines.length ≤ left + order.length) : ∃ out, orderFrom left queue order w = some out := by
  induction left generalizing queue order w with
  | zero =>
    unfold orderFrom
    cases hd : queue.dropWhile (fun vm => decide (vm ∈ order)) with
    | nil => exact ⟨_, rfl⟩
    | cons vm rest =>
      have ht := (hw.turn hread hd).1
      omega
  | succ left ih =>
    unfold orderFrom
    cases hd : queue.dropWhile (fun vm => decide (vm ∈ order)) with
    | nil => exact ⟨_, rfl⟩
    | cons vm rest =>
      obtain ⟨-, next, hs, ht⟩ := hw.turn hread hd
      have hl' : w₀.machines.length ≤ left + (order ++ [vm]).length := by
        rw [length_append, length_singleton]
        omega
      obtain ⟨m, hm, ⟨he, rfl⟩ | ⟨he, w1, hr⟩⟩ := succ_cases ((hk.succ_eq vm).trans hs)
      · simp only [hm, if_pos he]
        exact ih hk (ht rest fun _ => .inl) hl'
      · simp only [hm, if_neg he, hr]
        refine ih (hk.trans (machineReferences_kept hr)) (ht _ fun x hx => ?_) hl'
        exact (mem_append.mp hx).imp_right fun hx => (mem_filter.mp hx).1

theorem closeSet_returns (hfree : ∀ x f, w₀.flags x = some f → f.1 = none) {left : ℕ}
    (hc : Stopped w₀ barrier set w) (hw : CutWalk w₀ roots queue set)
    (hl : w₀.machines.length ≤ left + set.length) : ∃ out w', closeSet barrier left queue set w = some (.ok out, w') := by
  induction left generalizing queue set w with
  | zero =>
    unfold closeSet
    cases hd : queue.dropWhile (fun vm => decide (vm ∈ set)) with
    | nil => exact ⟨_, _, rfl⟩
    | cons vm rest =>
      have ht := (hw.turn hread hd).1
      omega
  | succ left ih =>
    unfold closeSet
    cases hd : queue.dropWhile (fun vm => decide (vm ∈ set)) with
    | nil => exact ⟨_, _, rfl⟩
    | cons vm rest =>
      obtain ⟨-, next, hs, ht⟩ := hw.turn hread hd
      have hl' : w₀.machines.length ≤ left + (set ++ [vm]).length := by
        rw [length_append, length_singleton]
        omega
      obtain ⟨m, hm, -⟩ := succ_cases ((hc.kept.succ_eq vm).trans hs)
      have hf := hc.flags vm
      rw [if_neg (not_mem_of_dropWhile hd)] at hf
      have hb : m.barrier = none := hfree vm (m.barrier, m.vm.mailbox.frozen) (by rw [← hf, World.flags, hm]; rfl)
      obtain ⟨w1, h1⟩ := setBarrier_some (b := some barrier) (hm ▸ some_ne_none m)
      have hc1 := hc.join (hfree vm) h1
      obtain ⟨m1, hm1, hst⟩ := (setBarrier_marks h1).kept.state_eq hm
      simp only [hm, hb, ne_eq, not_true_eq_false, false_and, if_false, h1]
      obtain ⟨m2, hm2, ⟨he, rfl⟩ | ⟨he, w2, hr⟩⟩ := succ_cases ((hc1.kept.succ_eq vm).trans hs)
      · cases hm1.symm.trans hm2
        rw [if_pos (hst ▸ he)]
        exact ih hc1 (ht rest fun _ => .inl) hl'
      · cases hm1.symm.trans hm2
        simp only [if_neg (hst ▸ he), hr]
        refine ih (hc1.referenced hr) (ht _ fun x hx => ?_) hl'
        exact (mem_append.mp hx).symm.imp_right mem_reverse.mp

omit hread

/-- Where each reachable machine can be read and no cut holds one, the closing loop and the order walk return, and go
over the same machines. -/
theorem cut_walks_return (w : World ι) (barrier : ℕ) (roots : List VmId)
    (hread : ∀ vm, Reachable w.succ roots vm → w.succ vm ≠ none) (hfree : ∀ vm f, w.flags vm = some f → f.1 = none) :
    ∃ set w₁, closeSet barrier w.machines.length roots [] w = some (.ok set, w₁) ∧
      (∀ vm, vm ∈ set ↔ Reachable w.succ roots vm) ∧
      ∀ w₂, Kept w₁ w₂ → ∃ order w₃, w₂.machineOrderMany roots = some (order, w₃) ∧ order.Perm set := by
  have hstart := Frontier.start w.succ fun r => Iff.rfl (a := r ∈ roots)
  obtain ⟨set, w₁, hclose⟩ := closeSet_returns hread hfree (stopped_start w barrier) (cutWalk_start w roots) le_rfl
  obtain ⟨hs, hf⟩ := closeSet_spec (fun x f hx => by simp [hfree x f hx]) (stopped_start w barrier) hstart hclose
  refine ⟨set, w₁, hclose, fun _ => hf.finish, fun w₂ hk => ?_⟩
  have hk := hs.kept.trans hk
  obtain ⟨⟨order, w₃⟩, ho⟩ := orderFrom_returns hread hk (cutWalk_start w roots) (hk.length.ge)
  obtain ⟨-, hd⟩ := orderFrom_spec hk hstart ho
  refine ⟨order, w₃, ho, (perm_ext_iff_of_nodup hd.nodup hf.nodup).mpr fun x => ?_⟩
  rw [hd.finish, hf.finish]

end Returns

section Examples

def smallConfig : VmConfig := ⟨⟨10, 10, 100, 10⟩, 4096, 1, 100⟩

def nestedPair : World Unit :=
  { machines := [some { vm := { heap := .new 4096, state := .blocked, nested := some 1 }, config := smallConfig },
      some { vm := { heap := .new 4096, state := .ready, parent := some 0 }, config := smallConfig }]
    config := smallConfig }

def noNames : VmId → Bundle := fun _ => ⟨fun _ => none, fun _ => none⟩

theorem flags_of_forall {P : Option ℕ × Bool → Prop} (h : ∀ m ∈ w.machines, ∀ x ∈ m, P (x.barrier, x.vm.mailbox.frozen))
    (vm : VmId) (f : Option ℕ × Bool) (hf : w.flags vm = some f) : P f := by
  obtain ⟨m, hm, rfl⟩ := map_eq_some_iff.mp hf
  exact h (some m) (mem_of_getElem? (join_eq_some_iff.mp hm)) m rfl

theorem cut_closed_without_trace_nested : ∃ report w', nestedPair.runCutMany noNames 5 [0] = some (.ok report, w') ∧
    report.set = [0, 1] ∧ report.order.Perm report.set ∧ (∀ vm ∈ report.set, w'.flags vm = some (some 5, true)) ∧
    ∃ w'', w'.releaseCut report.set true = some w'' ∧ SameFlags nestedPair w'' := by
  have hmarks : ∀ vm f, nestedPair.flags vm = some f → f = (none, false) :=
    flags_of_forall (by decide)
  have hcut : (nestedPair.runCutMany noNames 5 [0]).map (fun x => x.1.toOption.map CutReport.set) =
      some (some [0, 1]) := by
    decide
  obtain ⟨⟨out, w'⟩, hrun, hset⟩ := map_eq_some_iff.mp hcut
  cases out with
  | error e => cases hset
  | ok report =>
    have hresult := (cut_closed_without_trace (β := Unit) (γ := Unit) noNames nestedPair 5 [0]
      (fun vm f hf => by rw [hmarks vm f hf]; decide) fun vm f hf _ => by rw [hmarks vm f hf]).1 report w' hrun
    exact ⟨report, w', hrun, some.inj hset, hresult.2.2.1, hresult.2.2.2⟩

theorem cut_walks_return_nested : ∃ set w₁, closeSet 5 2 [0] [] nestedPair = some (.ok set, w₁) ∧
    (∀ vm, vm ∈ set ↔ Reachable nestedPair.succ [0] vm) ∧ ∃ order w₂, w₁.machineOrderMany [0] = some (order, w₂) ∧
      order.Perm set := by
  have hnext : nestedPair.succ 0 = some [1] ∧ nestedPair.succ 1 = some [] := by decide
  have hread : ∀ vm, Reachable nestedPair.succ [0] vm → nestedPair.succ vm ≠ none := by
    rintro vm ⟨top, ht, hp⟩
    have hvm : vm = 0 ∨ vm = 1 := by
      induction hp with
      | refl => exact .inl (mem_singleton.mp ht)
      | tail _ hc ih =>
        obtain ⟨next, hn, hx⟩ := hc
        grind
    rcases hvm with rfl | rfl <;> simp [hnext]
  obtain ⟨set, w₁, hc, hs, ho⟩ := cut_walks_return nestedPair 5 [0] hread (flags_of_forall (by decide))
  exact ⟨set, w₁, hc, hs, ho w₁ (.refl w₁)⟩

/-- A mailbox that was frozen without a barrier is thawed by the release. -/
theorem cut_thaws_frozen_mailbox : ∃ (w : World Unit) (report : CutReport) (w' w'' : World Unit),
    (∀ vm f, w.flags vm = some f → f.1 ≠ some 5) ∧ w.runCutMany noNames 5 [0] = some (.ok report, w') ∧
      w'.releaseCut report.set true = some w'' ∧ w.flags 0 = some (none, true) ∧
      w''.flags 0 = some (none, false) := by
  let w : World Unit :=
    { machines := [some { vm := { heap := .new 4096, mailbox := { frozen := true } }, config := smallConfig }]
      config := smallConfig }
  have hcut : (w.runCutMany noNames 5 [0]).bind (fun x => x.1.toOption.bind fun report =>
      (x.2.releaseCut report.set true).map fun w'' => w''.flags 0) = some (some (none, false)) := by
    decide
  obtain ⟨⟨out, w'⟩, hrun, hrest⟩ := bind_eq_some_iff.mp hcut
  obtain ⟨report, hok, hrel⟩ := bind_eq_some_iff.mp hrest
  obtain ⟨w'', hrel, hflags⟩ := map_eq_some_iff.mp hrel
  cases out with
  | error e => cases hok
  | ok r =>
    cases hok
    exact ⟨w, report, w', w'', flags_of_forall (by decide), hrun, hrel, rfl, hflags⟩

end Examples

end World

end LoomV4.Vm
