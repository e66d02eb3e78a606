import LoomV4.Bytecode.Canonical
import LoomV4.Identity.Inherited
import LoomV4.Identity.Returns

namespace LoomV4.Identity

open Lib Bytecode List Option Schedule

variable {bundle : AbiBundle} {m : Module} {E : Env} {comps : List (List ℕ)} {k : ℕ} {comp : List ℕ}
  {state : HashState} {p p' : Env.Progress} {hash256 : Bytes → Hash}

section

variable (m)

def Schedule.StopsAt (s : Schedule) (k : ℕ) : Prop :=
  ∃ comp p, s.comps[k]? = some comp ∧ s.run k = some (.ok p) ∧ (PatternOutside m s.env k ∨
    ∃ p', s.env.hashMembers k comp p = some (.ok p') ∧ PatternInBody m s.env k)

end

namespace Setting

variable (h : Setting bundle m E comps)

include h

theorem not_skips (hk : comps[k]? = some comp) {f : ℕ} (hf : f < m.funcs.length)
    (hc : E.compOf ((Space.of m).funcNode f) = some k) (ho : externFuncs m f = false) : E.skips comp = false := by
  rw [Bool.eq_false_iff]
  intro hs
  cases ho.symm.trans ((h.skipped_cases hk hs).2 f hf hc)

theorem component_cases (hk : comps[k]? = some comp) (hH : Hashed m E k p.state) :
    (E.component p (comp, k) = none ↔ PatternOutside m E k ∨
      ∃ p', E.hashMembers k comp p = some (.ok p') ∧ PatternInBody m E k) ∧
    ∀ p', E.component p (comp, k) = some (.ok p') → Hashed m E (k + 1) p'.state := by
  have hu : PatternOutside m E k → E.skips comp = false := fun ⟨f, func, hf, hw, hc, _⟩ =>
    h.not_skips hk (lt_of_getElem? hf) hc hw
  have hin : PatternInBody m E k → E.skips comp = false := fun ⟨f, func, hf, hb, hc, _⟩ =>
    h.not_skips hk (lt_of_getElem? hf) hc (isClosureBody_own hb)
  by_cases hs : E.skips comp = true
  · have heq : E.component p (comp, k) = some (.ok p) := by
      rw [Env.component, if_pos hs]
      rfl
    rw [heq]
    refine ⟨⟨fun hn => ?_, ?_⟩, fun p' hp' => ?_⟩
    · cases hn
    · rintro (ho | ⟨-, -, hi⟩)
      · rw [hu ho] at hs
        cases hs
      · rw [hin hi] at hs
        cases hs
    · cases hp'
      exact h.hashed_skip hk hs hH
  · have hs' : E.skips comp = false := by simpa using hs
    have heq : E.component p (comp, k) = (E.hashMembers k comp p).bind fun r => match r with
        | .error e => some (.error e)
        | .ok p' => (E.finishMembers comp p').map .ok := by
      rw [Env.component, if_neg hs]
      cases hm : E.hashMembers k comp p with
      | none => simp [ExceptT.mk, bind, ExceptT.bind]
      | some r => cases r <;> simp [ExceptT.mk, bind, ExceptT.bind, ExceptT.bindCont]
    by_cases ho : PatternOutside m E k
    · rw [heq, h.hashMembers_eq_none hk hs' hH ho]
      simp [ho]
    · obtain ⟨r, hr, hN⟩ := h.exists_hashMembers hk hs' hH ho
      rw [heq, hr, bind_some]
      cases r with
      | error e =>
        refine ⟨by simp [ho], fun p' hp' => ?_⟩
        cases hp'
      | ok p1 =>
        have hN := hN p1 rfl
        by_cases hi : PatternInBody m E k
        · have he := h.finishMembers_eq_none hk hs' hH hN hi
          simp [he, hi]
        · obtain ⟨p2, hp2, hH2⟩ := h.exists_finishMembers hk hs' hH hN hi
          simp only [hp2, map_some]
          refine ⟨by simp [ho, hi], fun p' hp' => ?_⟩
          cases hp'
          exact hH2

end Setting

theorem Schedule.run_succ {s : Schedule} (hk : s.comps[k]? = some comp) :
    s.run (k + 1) = (s.run k >>= fun p => s.env.component p (comp, k)) := by
  have hg : s.comps.zipIdx[k]? = some (comp, k) := by simp [getElem?_zipIdx, hk]
  rw [Schedule.run, take_add_one, hg, foldlM_append]
  simp [Schedule.run]

section

variable {s : Schedule} (h : Setting bundle m s.env s.comps) (h₀ : Hashed m s.env 0 s.progress.state)

include h h₀

theorem Schedule.run_hashed : ∀ k ≤ s.comps.length, ∀ p, s.run k = some (.ok p) → Hashed m s.env k p.state := by
  intro k
  induction k with
  | zero =>
    intro _ p hp
    cases hp
    exact h₀
  | succ k ih =>
    intro hk p hp
    have hg := getElem?_eq_getElem (Nat.lt_of_succ_le hk)
    rw [run_succ hg] at hp
    cases hr : s.run k with
    | none => simp [hr, bind, ExceptT.bind, ExceptT.mk] at hp
    | some r =>
      cases r with
      | error e =>
        simp only [hr, bind, ExceptT.bind, ExceptT.mk, ExceptT.bindCont, bind_some] at hp
        cases hp
      | ok q =>
        have hc : s.env.component q (s.comps[k], k) = some (.ok p) := by
          simpa [hr, bind, ExceptT.bind, ExceptT.mk, ExceptT.bindCont] using hp
        exact (h.component_cases hg (ih (by omega) q hr)).2 p hc

theorem Schedule.run_none_iff_lt : ∀ k ≤ s.comps.length, (s.run k = none ↔ ∃ j < k, s.StopsAt m j) := by
  intro k
  induction k with
  | zero =>
    intro _
    exact ⟨nofun, fun ⟨j, hj, _⟩ => absurd hj (Nat.not_lt_zero j)⟩
  | succ k ih =>
    intro hk
    have ih := ih (by omega)
    have hg := getElem?_eq_getElem (Nat.lt_of_succ_le hk)
    rw [run_succ hg]
    cases hr : s.run k with
    | none =>
      obtain ⟨j, hj, hs⟩ := ih.mp hr
      exact ⟨fun _ => ⟨j, by omega, hs⟩, fun _ => by simp [bind, ExceptT.bind, ExceptT.mk]⟩
    | some r =>
      have hno : ¬∃ j < k, s.StopsAt m j := by
        rw [← ih, hr]
        simp
      have hl : (∃ j < k + 1, s.StopsAt m j) ↔ s.StopsAt m k := by
        refine ⟨fun ⟨j, hj, hs⟩ => ?_, fun hs => ⟨k, by omega, hs⟩⟩
        obtain rfl : j = k := by
          by_contra hne
          exact hno ⟨j, by omega, hs⟩
        exact hs
      rw [hl]
      cases r with
      | error e =>
        refine ⟨fun hn => ?_, fun ⟨_, p, _, hp, _⟩ => ?_⟩
        · simp [bind, ExceptT.bind, ExceptT.mk, ExceptT.bindCont] at hn
        · cases hr.symm.trans hp
      | ok q =>
        have hc := (h.component_cases hg (run_hashed h h₀ k (by omega) q hr)).1
        have heq : (some (.ok q) >>= fun p => s.env.component p (s.comps[k], k) : ExceptT String Option Env.Progress) =
            s.env.component q (s.comps[k], k) := by
          simp [bind, ExceptT.bind, ExceptT.mk, ExceptT.bindCont]
        rw [heq, hc]
        refine ⟨fun hp => ⟨_, q, hg, hr, hp⟩, fun ⟨comp, p, ho, hp, ha⟩ => ?_⟩
        cases ho.symm.trans hg
        cases hr.symm.trans hp
        exact ha

theorem Schedule.run_none_iff : s.run s.comps.length = none ↔ ∃ k, s.StopsAt m k := by
  rw [run_none_iff_lt h h₀ _ (Nat.le_refl _)]
  refine ⟨fun ⟨k, _, hk⟩ => ⟨k, hk⟩, fun ⟨k, hk⟩ => ⟨k, ?_, hk⟩⟩
  obtain ⟨comp, p, hc, -⟩ := hk
  exact lt_of_getElem? hc

end

theorem update_isSome {table : ℕ → Option Hash} {n x : ℕ} {h : Hash} :
    (Function.update table n (some h) x).isSome ↔ n = x ∨ (table x).isSome := by
  by_cases hxn : x = n
  · simp [hxn]
  · simp [hxn, Ne.symm hxn]

theorem pinned_spec {g : Graph} (state : HashState) :
    (∀ f, externFuncs m f = true ∨ (state.funcHash f).isSome → ((pinned m g state).funcHash f).isSome) ∧
    (∀ c, externClasses m c = true ∨ (state.classHash c).isSome → ((pinned m g state).classHash c).isSome) ∧
    (∀ f, externFuncs m f = false → (pinned m g state).funcHash f = state.funcHash f) ∧
    (pinned m g state).typeFinal = state.typeFinal ∧ (pinned m g state).appFinal = state.appFinal := by
  unfold pinned externFuncs externClasses
  generalize m.imports = l
  induction l generalizing state with
  | nil => simp
  | cons i l ih =>
    have hk : i.kind = .constant ∨ i.kind.isFunc = true ∧ i.kind ≠ .constant ∧ i.kind ≠ .class ∨ i.kind = .class := by
      cases i.kind <;> simp [ImportKind.isFunc]
    rw [foldl_cons]
    rcases hk with hk | ⟨hu, ho, hl⟩ | hk
    · have hu : i.kind.isFunc = false := by simp [hk, ImportKind.isFunc]
      simp only [hk, if_true]
      obtain ⟨h1, h2, h3, h4, h5⟩ := ih state
      refine ⟨fun f hf => h1 f ?_, fun c hc => h2 c ?_, fun f hf => h3 f ?_, h4, h5⟩
      · simpa [hu] using hf
      · simpa [hk] using hc
      · simpa [hu] using hf
    · simp only [ho, hu, if_true, if_false]
      obtain ⟨h1, h2, h3, h4, h5⟩ := ih { state with
        funcHash := Function.update state.funcHash i.defn.toNat (some i.hash)
        compHash := Function.update state.compHash (g.space.funcNode i.defn.toNat) i.hash }
      refine ⟨fun f hf => h1 f ?_, fun c hc => h2 c ?_, fun f hf => ?_, h4, h5⟩
      · rw [update_isSome]
        simp only [any_cons, hu, true_and, Bool.or_eq_true, decide_eq_true_eq] at hf
        tauto
      · simpa [hl] using hc
      · simp only [any_cons, hu, true_and, Bool.or_eq_false_iff, decide_eq_false_iff_not] at hf
        exact (h3 f hf.2).trans (Function.update_of_ne (Ne.symm hf.1) _ _)
    · have hu : i.kind.isFunc = false := by simp [hk, ImportKind.isFunc]
      have ho : i.kind ≠ .constant := by simp [hk]
      simp only [ho, hu, if_false, Bool.false_eq_true]
      obtain ⟨h1, h2, h3, h4, h5⟩ := ih { state with
        classHash := Function.update state.classHash i.defn.toNat (some i.hash)
        compHash := Function.update state.compHash (g.space.classNode i.defn.toNat) i.hash }
      refine ⟨fun f hf => h1 f ?_, fun c hc => h2 c ?_, fun f hf => h3 f ?_, h4, h5⟩
      · simpa [hu] using hf
      · rw [update_isSome]
        simp only [any_cons, hk, true_and, Bool.or_eq_true, decide_eq_true_eq] at hc
        tauto
      · simpa [hu] using hf

/-- What is known before the first interface is hashed. -/
structure Tabled (hash256 : Bytes → Hash) (bundle : AbiBundle) (m : Module) (E : Env) (comps : List (List ℕ))
    (state : HashState) : Prop where
  tabled : tabled hash256 bundle m = some (E, comps, state)
  built : Built m E.graph
  condensed : Scc.Condensed E.graph.succ (Space.of m).total comps E.compOf
  tables : Tables m state
  ready : Ready bundle m (E.finalView state)
  hash256 : E.hash256 = hash256
  module : E.module = m
  bundle : E.bundle = bundle

theorem exists_tabled (hm : Sound bundle m) : ∃ E comps state, Tabled hash256 bundle m E comps state := by
  obtain ⟨g, hg, hb⟩ := exists_build hm
  obtain ⟨comps, compOf, ho, hn⟩ := Scc.exists_components hb.within hb.length
  let E : Env := { hash256, module := m, bundle, graph := g, compOf, interfaceHashes := [] }
  obtain ⟨state, hs, hta⟩ : ∃ state, tableDigests hash256 m E = some state ∧ Tables m state :=
    exists_tableDigests hash256 hm rfl rfl
  refine ⟨E, comps, state, ?_, hb, hn, hta, ⟨rfl, rfl, hta.types, hta.apps⟩, rfl, rfl, rfl⟩
  rw [tabled, hg]
  simp only [bind_eq_bind, bind_some, hb.space, ho]
  exact congrArg (Option.bind · _) hs

theorem exists_schedule (hm : Sound bundle m)
    (hsize : ∀ i < m.interfaces.length, interfaceSize bundle m i ≤ Resolver.isizeMax) :
    ∃ s, schedule hash256 bundle m = some s ∧
      Setting bundle m s.env s.comps ∧ Hashed m s.env 0 s.progress.state ∧ s.env.hash256 = hash256 := by
  obtain ⟨E, comps, state, ht⟩ := @exists_tabled bundle m hash256 hm
  obtain ⟨hashes, hh⟩ : ∃ hashes, (List.range m.interfaces.length).mapM ((E.finalView state).interfaceDigest hash256) =
      some hashes := exists_mapM fun i hi =>
    isSome_iff_exists.mp ((ht.ready.interfaceDigest_isSome hash256 hm rfl (mem_range.mp hi)).mpr (hsize i (mem_range.mp hi)))
  refine ⟨{
    env := { E with interfaceHashes := hashes }
    comps
    progress := { state := pinned m E.graph state, budget := moduleRefineWorkBudget, rounds := 0 } }, ?_, ?_, ?_, ht.hash256⟩
  · rw [schedule, ht.tabled]
    exact congrArg (Option.bind · _) hh
  · exact ⟨hm, ht.module, ht.bundle, ht.built, ht.condensed, by simpa using mapM_length hh⟩
  · have hta := ht.tables
    obtain ⟨h1, h2, h3, h4, h5⟩ := @pinned_spec m E.graph state
    refine ⟨fun t ht => h4 ▸ hta.types t ht, fun a ha => h5 ▸ hta.apps a ha, fun f hf => h1 f (.inl hf),
      fun c hc => h2 c (.inl hc), fun f j _ hj => absurd hj (Nat.not_lt_zero j),
      fun c j _ hj => absurd hj (Nat.not_lt_zero j), fun f j _ hj => absurd hj (Nat.not_lt_zero j), fun f hf => ?_⟩
    rw [h3 f (isClosureBody_own hf), hta.funcs]
    rfl

/-- The buffer of one interface does not fit in memory. -/
theorem schedule_eq_none (hash256 : Bytes → Hash) (hm : Sound bundle m) {i : ℕ} (hi : i < m.interfaces.length)
    (hsize : Resolver.isizeMax < interfaceSize bundle m i) : schedule hash256 bundle m = none := by
  obtain ⟨E, comps, state, ht⟩ := @exists_tabled bundle m hash256 hm
  have hnone : (List.range m.interfaces.length).mapM ((E.finalView state).interfaceDigest hash256) = none := by
    refine mapM_eq_none_iff.mpr ⟨i, mem_range.mpr hi, not_isSome_iff_eq_none.mp fun h => ?_⟩
    exact absurd ((ht.ready.interfaceDigest_isSome hash256 hm rfl hi).mp h) (Nat.not_le.mpr hsize)
  rw [schedule, ht.tabled]
  exact congrArg (Option.bind · _) hnone

theorem firstRef_lt {f parent occurrence : ℕ} (ho : E.module = m) (h : E.firstRef f = some (parent, occurrence)) :
    parent < m.funcs.length := by
  obtain ⟨site, hs, heq⟩ := map_eq_some_iff.mp h
  have hm := (mem_filter.mp (mem_of_find?_eq_some hs)).1
  simp only [Env.sites, ho, mem_flatMap, List.mem_map] at hm
  obtain ⟨q, hq, t, -, rfl⟩ := hm
  cases heq
  exact lt_of_getElem? (mem_zipIdx_iff_getElem?.mp hq)

theorem exists_climb (hm : E.module = m) {hash : ℕ → Option Hash} :
    ∀ (fuel : ℕ) (path : List ℕ) (f : ℕ), path.Nodup → (∀ g ∈ path, g < m.funcs.length) → f < m.funcs.length →
      m.funcs.length ≤ path.length + fuel → ∃ path', E.climb hash fuel path f = some path' := by
  intro fuel
  induction fuel with
  | zero =>
    intro path f hnd hlt hf hl
    have he : f ∈ path := by
      by_contra hno
      have hu : (f :: path) ⊆ List.range m.funcs.length := by
        intro g hg
        rcases mem_cons.mp hg with rfl | hg
        · exact mem_range.mpr hf
        · exact mem_range.mpr (hlt g hg)
      have := ((nodup_cons.mpr ⟨hno, hnd⟩).subperm hu).length_le
      simp only [length_cons, length_range] at this
      omega
    exact ⟨path, by rw [Env.climb, if_pos (.inr he)]⟩
  | succ fuel ih =>
    intro path f hnd hlt hf hl
    rw [Env.climb]
    split_ifs with hs
    · exact ⟨_, rfl⟩
    · split
      · next parent _ hr =>
        rw [not_or] at hs
        refine ih _ parent ?_ (fun g hg => ?_) (firstRef_lt hm hr) (by simp; omega)
        · exact hnd.append (nodup_singleton f) (by simpa using hs.2)
        · rcases mem_append.mp hg with hg | hg
          · exact hlt g hg
          · rw [mem_singleton.mp hg]
            exact hf
      · exact ⟨_, rfl⟩

theorem exists_fillClosureHashes (hm : E.module = m) (state : HashState) :
    ∃ filled, E.fillClosureHashes state = some filled ∧ filled.classHash = state.classHash ∧
      filled.typeFinal = state.typeFinal ∧ filled.appFinal = state.appFinal ∧
      ∀ f < m.funcs.length, ∃ h, filled.funcHash f = some h := by
  obtain ⟨hash, hh, -⟩ := @exists_foldlM _ _ (List.range E.module.funcs.length) E.fillFrom (fun _ _ => True)
      state.funcHash (by
    intro xs f hash hr _
    rw [Env.fillFrom]
    split_ifs with hd
    · exact ⟨_, rfl, trivial⟩
    · obtain ⟨path, hp⟩ := @exists_climb m E hm hash (E.module.funcs.length + 1) [] f nodup_nil (by simp)
        (hm ▸ (prefix_range hr).2) (by rw [hm]; simp)
      exact ⟨_, by rw [hp]; rfl, trivial⟩) trivial
  rw [Env.fillClosureHashes, hh, map_some]
  refine ⟨_, rfl, rfl, rfl, rfl, fun f hf => ?_⟩
  dsimp only
  rw [if_pos (hm ▸ hf)]
  cases hash f <;> exact ⟨_, rfl⟩

theorem Setting.exists_semanticHash (h : Setting bundle m E comps) {state : HashState} {classHashes funcHashes : List Hash}
    (hr : Ready bundle m (E.finalView state)) (hf : ∀ f < m.funcs.length, ∃ h, state.funcHash f = some h)
    (hl : funcHashes.length = m.funcs.length) (hash256 : Bytes → Hash) :
    ∃ hash, semanticHash hash256 bundle m (E.finalView state) classHashes funcHashes E.interfaceHashes = some hash := by
  obtain ⟨slots, hs⟩ : ∃ slots, (m.slots.zipIdx.mapM fun p => do
      let contract ← (E.finalView state).plain (slotItems m true p.2)
      let target ← targetBytes m (E.finalView state).state.funcHash p.1.initial
      some (contract ++ target)) = some slots := by
    refine exists_mapM fun p hp => ?_
    obtain ⟨he, ha, -⟩ := h.sound.slots p.2 p.1 (mem_zipIdx_iff_getElem?.mp hp)
    obtain ⟨ps, hps⟩ := hr.pieces (he true) h.interfaces names_slotItems
    obtain ⟨bs, hbs⟩ := exists_plain rfl hps
    obtain ⟨target, ht⟩ : ∃ target, targetBytes m (E.finalView state).state.funcHash p.1.initial = some target := by
      cases hi : p.1.initial with
      | none => exact ⟨_, rfl⟩
      | some t =>
        rw [hi] at ha
        cases t with
        | function f =>
          obtain ⟨d, hd⟩ := hf f.toNat ha
          exact ⟨_, by rw [targetBytes, Env.finalView, hd]; rfl⟩
        | «class» c constructor =>
          obtain ⟨d, hd⟩ := hf constructor.toNat ha.2
          have hg := getElem?_eq_getElem ha.1
          simp [targetBytes, Env.finalView, hd, hg]
    exact ⟨bs ++ target, by simp [hbs, ht]⟩
  obtain ⟨bindings, hn⟩ : ∃ bindings, (m.bindings.mapM fun b => (funcHashes[b.func.toNat]?).map fun h => (b.key, h)) =
      some bindings := exists_mapM fun b hb => by
    have hg := getElem?_eq_getElem (hl.symm ▸ h.sound.bindings b hb)
    exact ⟨_, by rw [hg]; rfl⟩
  have hen := getElem?_eq_getElem (hl.symm ▸ h.sound.entry)
  have hy : ∃ bytes, slotBytes m (E.finalView state) = some bytes := by
    rw [slotBytes, hs]
    exact ⟨_, rfl⟩
  obtain ⟨bytes, hy⟩ := hy
  rw [semanticHash, hy]
  simp only [bind_eq_bind, bind_some, hn, hen]
  exact ⟨_, rfl⟩

theorem Setting.exists_finishIdentity (h : Setting bundle m E comps) (hH : Hashed m E comps.length p.state)
    (hash256 : Bytes → Hash) : ∃ id, finishIdentity hash256 bundle m E p = some id := by
  obtain ⟨state, hs, hc, ht, ha, hf⟩ := exists_fillClosureHashes h.module p.state
  have hcl : ∀ c < m.classes.length, ∃ d, state.classHash c = some d := by
    intro c hlt
    have hn : c < (Space.of m).total := by
      simp only [Space.total, Space.of]
      omega
    obtain ⟨j, hj⟩ := ne_none_iff_exists'.mp ((h.condensed.total c).mp hn)
    obtain ⟨l, hl, -⟩ := (h.condensed.comp c j).mp hj
    exact isSome_iff_exists.mp (hc ▸ hH.classes c j hj (lt_of_getElem? hl) hlt)
  obtain ⟨classHashes, hch⟩ := exists_mapM (l := List.range m.classes.length) (f := state.classHash)
    fun c hlt => hcl c (mem_range.mp hlt)
  obtain ⟨funcHashes, hfh⟩ := exists_mapM (l := List.range m.funcs.length) (f := state.funcHash)
    fun f hlt => hf f (mem_range.mp hlt)
  obtain ⟨typeHashes, hth⟩ := exists_mapM (l := List.range m.types.length) (f := state.typeFinal)
    fun t hlt => ht ▸ hH.types t (mem_range.mp hlt)
  have hy : ∀ t < m.types.length, ∃ d, state.typeFinal t = some d := ht ▸ hH.types
  have hp : ∀ a < m.apps.length, ∃ d, state.appFinal a = some d := ha ▸ hH.apps
  have hr : Ready bundle m (E.finalView state) :=
    ⟨h.module, h.bundle, fun t hlt => hy t hlt, fun a hlt => hp a hlt⟩
  obtain ⟨hash, hh⟩ : ∃ hash, semanticHash hash256 bundle m (E.finalView state) classHashes funcHashes
      E.interfaceHashes = some hash :=
    h.exists_semanticHash hr hf (by simpa using mapM_length hfh) hash256
  rw [finishIdentity, hs]
  simp only [bind_eq_bind, bind_some, hch, hfh, hth, hh]
  exact ⟨_, rfl⟩

theorem exists_preflight : ∃ r, preflight bundle m = some r := by
  rw [preflight]
  split
  · exact ⟨_, rfl⟩
  · obtain ⟨r, hr⟩ := Kahn.exists_check 128 (interfaceParents m)
    exact ⟨_, by rw [checkInheritance, hr]; rfl⟩

/-- Identity answers, with a hash or with an error, exactly when the inheritance of each interface fits in a buffer and
no component that it reaches reads the hash of a closure body through a reflection pattern. -/
theorem moduleIdentity_answers_iff (hash256 : Bytes → Hash) (bundle : AbiBundle) (m : Module) :
    moduleIdentity hash256 bundle m ≠ none ↔
      (preflight bundle m = some (.ok ()) → (∀ i < m.interfaces.length, interfaceSize bundle m i ≤ Resolver.isizeMax) ∧
        ∀ s, schedule hash256 bundle m = some s → ¬∃ k, s.StopsAt m k) := by
  obtain ⟨r, hr⟩ := @exists_preflight bundle m
  cases r with
  | error e => simp [moduleIdentity, hr, ExceptT.mk, bind, ExceptT.bind, ExceptT.bindCont]
  | ok u =>
    cases u
    have hm := sound_of_preflight hr
    by_cases hsize : ∀ i < m.interfaces.length, interfaceSize bundle m i ≤ Resolver.isizeMax
    swap
    · push Not at hsize
      obtain ⟨i, hi, hlong⟩ := hsize
      have hnone := schedule_eq_none hash256 hm hi hlong
      refine iff_of_false ?_ fun h => absurd ((h hr).1 i hi) (Nat.not_le.mpr hlong)
      simp [moduleIdentity, hr, hnone, ExceptT.mk, bind, ExceptT.bind, ExceptT.bindCont]
    obtain ⟨s, hs, hset, h₀, -⟩ := @exists_schedule bundle m hash256 hm hsize
    have hrun := run_none_iff hset h₀
    simp only [hr, hs, forall_const, Option.some.injEq, forall_eq', ← hrun, and_iff_right hsize]
    have heq : moduleIdentity hash256 bundle m =
        (s.run s.comps.length >>= fun p => ExceptT.mk ((finishIdentity hash256 bundle m s.env p).map .ok)) := by
      simp [moduleIdentity, hr, hs, ExceptT.mk, bind, ExceptT.bind, ExceptT.bindCont]
    rw [heq]
    cases hp : s.run s.comps.length with
    | none => simp [bind, ExceptT.bind, ExceptT.mk]
    | some r =>
      cases r with
      | error e => simp [bind, ExceptT.bind, ExceptT.mk, ExceptT.bindCont]
      | ok q =>
        obtain ⟨id, hid⟩ := hset.exists_finishIdentity (run_hashed hset h₀ _ (Nat.le_refl _) q hp) hash256
        simp [bind, ExceptT.bind, ExceptT.mk, ExceptT.bindCont, hid]

def emptyBundle : AbiBundle where
  digest := zeroHash
  operations := []
  groupBits := []
  bits_length := by simp

def patternModule : Module :=
  { boolModule with
    funcBounds := [[], []]
    funcs := boolModule.funcs.flatMap fun f =>
      [{ f with blocks := [[⟨.makeClosure, [1, 0]⟩, ⟨.reflectionEnd, [1, 0]⟩, ⟨.ret, []⟩]] }, f] }

/-- The bytes are accepted, and identity reads the hash of the closure body, which is not there. -/
theorem patternModule_stops : ∃ bs m, decode plainHost bs = .ok m ∧ preflight emptyBundle m = some (.ok ()) ∧
    moduleIdentity (fun _ => zeroHash) emptyBundle m = none := by
  have hstop : (decode plainHost (encode plainHost.digest patternModule)).toOption.map (fun m =>
      (preflight emptyBundle m, Option.isNone (moduleIdentity (fun _ => zeroHash) emptyBundle m))) =
      some (some (.ok ()), true) := by decide +kernel
  obtain ⟨m, hm, he⟩ := exists_of_toOption_map hstop
  obtain ⟨hpre, hnone⟩ := Prod.mk.inj he
  exact ⟨_, m, hm, hpre, isNone_iff_eq_none.mp hnone⟩

def bareUse (i : Index) : BcInterfaceUse where
  interface := i
  types := []
  rows := []

def bareInterface (parents : List BcInterfaceUse) : BcInterface where
  name := .empty
  key := .empty
  typeParams := 0
  effectParams := 0
  genericIsEffect := []
  parents := parents
  typeBounds := []
  associated := []
  methods := []

/-- The entry makes a closure of the second function and calls the third, and an interface inherits from another. -/
def closureModule : Module :=
  { boolModule with
    interfaces := [bareInterface [], bareInterface [bareUse 0]]
    funcBounds := [[], [], []]
    funcs := boolModule.funcs.flatMap fun f =>
      [{ f with blocks := [[⟨.makeClosure, [1, 0]⟩, ⟨.call, [2]⟩, ⟨.ret, []⟩]] }, f, f] }

theorem closureModule_answers : preflight emptyBundle closureModule = some (.ok ()) ∧
    moduleIdentity (fun _ => zeroHash) emptyBundle closureModule ≠ none ∧
    ∀ s, schedule (fun _ => zeroHash) emptyBundle closureModule = some s → ¬∃ k, s.StopsAt closureModule k := by
  have hpre : preflight emptyBundle closureModule = some (.ok ()) := by decide +kernel
  have hsome : Option.isNone (moduleIdentity (fun _ => zeroHash) emptyBundle closureModule) = false := by decide +kernel
  have hne : moduleIdentity (fun _ => zeroHash) emptyBundle closureModule ≠ none := by
    intro h
    rw [h] at hsome
    cases hsome
  exact ⟨hpre, hne, ((moduleIdentity_answers_iff _ _ _).mp hne hpre).2⟩

end LoomV4.Identity
