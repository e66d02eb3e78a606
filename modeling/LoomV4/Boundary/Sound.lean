import LoomV4.Boundary.Steps

namespace LoomV4.Boundary

open Abi Bytecode Closed Lib Graph List

namespace Graph

variable {G : Graph}

theorem Shows.cell {r : ObjRef} {o : Object} (h : G.Shows r o) :
    ∃ e, G.heap.objects.cells[r.slot]? = some ⟨r.generation, some e⟩ ∧ e.object = o := by
  have h := h.2
  unfold Heap.tryGet at h
  split_ifs at h
  obtain ⟨e, he, ho⟩ := Option.map_eq_some_iff.mp h
  exact ⟨e, SlotTable.find_eq_some.mp he, ho⟩

theorem Shows.eq_of_slot {r r' : ObjRef} {o o' : Object} (h : G.Shows r o) (h' : G.Shows r' o')
    (hs : r.slot = r'.slot) : r = r' := by
  obtain ⟨e, hc, -⟩ := h.cell
  obtain ⟨e', hc', -⟩ := h'.cell
  rw [hs, hc'] at hc
  cases r
  cases r'
  cases hc
  cases hs
  rfl

theorem Asks.named {g g' : Goal} (h : G.Asks g g') (hn : Named G) (hv : NamedValue G.envs g.1) :
    NamedValue G.envs g'.1 := by
  cases h with
  | payload => exact hv
  | elem _ hr _ hx => exact hn _ _ hr _ hx
  | key _ hr _ hm _ => exact (hn _ _ hr _ hm).1
  | value _ hr _ hm _ => exact (hn _ _ hr _ hm).2
  | item hr hp => exact hn _ _ hr _ (of_mem_zip hp).1
  | field _ hr _ hp _ _ => exact hn _ _ hr _ (of_mem_zip hp).1
  | dyn _ hr _ => exact (hn _ _ hr).1

theorem Passes.mono (hM : Verified G.module) {N N' : Goal → Prop} {g : Goal} (h : G.Passes N g)
    (hN : ∀ g', N g' → N' g') : G.Passes N' g :=
  h.of_asks fun g' ha => hN g' (h.asks hM ha)

end Graph

section Walk

variable {C : BoundaryContext} {E : TypeEnvs}

/-- The goals that are done with pass with what is done or to do, and the objects seen are done. -/
structure Progress (G : Graph) (done : Goal → Prop) (work : List Goal) (seen : BoundaryContext.Seen) :
    Prop where
  passes : ∀ g, done g → G.Passes (fun g' => done g' ∨ g' ∈ work) g
  seen : ∀ key ∈ seen, ∃ r o, r.slot = key.1 ∧ G.Shows r o ∧ done (.obj r, key.2)

variable {seen seen' : BoundaryContext.Seen} {T : Ty}

theorem Progress.visit (hM : Verified C.module) {done : Goal → Prop} {v : Value} {work goals : List Goal}
    (h : Progress (C.graph E) done ((v, T) :: work) seen) (hv : Visit (C.graph E) v T seen (goals, seen')) :
    Progress (C.graph E) (fun g => done g ∨ g = (v, T)) (goals.reverse ++ work) seen' := by
  have weaken : ∀ g, done g → (C.graph E).Passes
      (fun g' => (done g' ∨ g' = (v, T)) ∨ g' ∈ goals.reverse ++ work) g := by
    intro g hg
    refine (h.passes g hg).mono hM fun g' hg' => ?_
    obtain hd | hw := hg'
    · exact .inl (.inl hd)
    · rcases mem_cons.mp hw with rfl | hw
      · exact .inl (.inr rfl)
      · exact .inr (mem_append_right _ hw)
  have kept : ∀ key ∈ seen, ∃ r o, r.slot = key.1 ∧ (C.graph E).Shows r o ∧
      (done (.obj r, key.2) ∨ (.obj r, key.2) = (v, T)) := by
    intro key hk
    obtain ⟨r, o, hr, ho, hd⟩ := h.seen key hk
    exact ⟨r, o, hr, ho, .inl hd⟩
  cases hv with
  | again hv ho hs =>
    obtain ⟨r', o', hr', ho', hd⟩ := h.seen _ hs
    obtain rfl := ho'.eq_of_slot ho hr'
    refine ⟨fun g hg => ?_, kept⟩
    obtain hg | rfl := hg
    · exact weaken g hg
    · exact weaken _ (hv ▸ hd)
  | fresh hp ha hs =>
    refine ⟨fun g hg => ?_, ?_⟩
    · obtain hg | rfl := hg
      · exact weaken g hg
      · exact hp.mono hM fun g' hg' => .inr (mem_append_left _ (mem_reverse.mpr hg'))
    · obtain rfl | ⟨r, o, rfl, ho, rfl⟩ := hs
      · exact kept
      · intro key hk
        rcases mem_cons.mp hk with rfl | hk
        · exact ⟨r, o, rfl, ho, .inr rfl⟩
        · exact kept key hk

theorem visit_reaches {G : Graph} {v : Value} {goals : List Goal} {g : Goal} (hv : Visit G v T seen (goals, seen'))
    (hr : G.Reaches g (v, T)) : ∀ g' ∈ goals, G.Asks (v, T) g' ∧ G.Reaches g g' := by
  cases hv with
  | again => nofun
  | fresh _ ha _ => exact fun g' hg' => ⟨ha g' hg', hr.tail (ha g' hg')⟩

theorem runs_walk (hM : Verified C.module) (htab : FormedTables C.module E) (hn : Named (C.graph E)) (root : Goal)
    (steps : ℕ) : ∀ done work seen, Progress (C.graph E) done work seen →
      (∀ g ∈ work, (C.graph E).Reaches root g ∧ NamedValue E g.1 ∧ Formed C.module g.2) →
      Runs E (C.walk steps work seen) (Tests C E
        (fun _ => ∃ N, (∀ g, N g → (C.graph E).Passes N g) ∧ ∀ g, done g ∨ g ∈ work → N g)
        (¬ (C.graph E).Misfit root)) := by
  induction steps with
  | zero =>
    intro done work seen hp hw
    cases work with
    | nil => exact runs_pure ⟨done, fun g hg => (hp.passes g hg).mono hM (by simp), by simp⟩
    | cons g work => exact runs_throw fun _ => nofun
  | succ steps ih =>
    intro done work seen hp hw
    cases work with
    | nil => exact runs_pure ⟨done, fun g hg => (hp.passes g hg).mono hM (by simp), by simp⟩
    | cons g work =>
      obtain ⟨v, T⟩ := g
      obtain ⟨hr, hv, hform⟩ := hw _ mem_cons_self
      unfold BoundaryContext.walk
      apply (runs_checkOne hM htab hn hv hform seen).bind
      · intro e he hs hm hno
        exact hno ⟨_, hr, fun N hN => he hs hm ⟨N, hN⟩⟩
      · rintro ⟨goals, seen'⟩ hi
        have next := visit_reaches hi hr
        refine (ih _ _ _ (hp.visit hM hi) ?_).mono ?_
        · intro g hg
          rcases mem_append.mp hg with hg | hg
          · obtain ⟨ha, hr'⟩ := next g (mem_reverse.mp hg)
            exact ⟨hr', ha.named hn hv, ha.formed hM htab hform⟩
          · exact hw g (mem_cons_of_mem _ hg)
        · rintro (e | _) h
          · exact h
          · obtain ⟨N, hN, hl⟩ := h
            refine ⟨N, hN, fun g hg => hl g ?_⟩
            obtain hd | hm := hg
            · exact .inl (.inl hd)
            · rcases mem_cons.mp hm with rfl | hm
              · exact .inl (.inr rfl)
              · exact .inr (mem_append_right _ hm)

end Walk

section Value

variable {C : BoundaryContext} {E : TypeEnvs} {v : Value} {replyTy : Index} {held : TypeEnv}

theorem not_misfit {G : Graph} (hM : Verified G.module) {N : Goal → Prop}
    (hN : ∀ g, N g → G.Passes N g) {g : Goal} (hg : N g) : ¬ G.Misfit g := by
  rintro ⟨g', hr, hno⟩
  exact hno N (hN g' (reaches_mem hM hN hg hr))

theorem plain_fits (hM : Verified C.module) {ty : BcType} (ht : C.module.types[replyTy.toNat]? = some ty)
    (h : BoundaryContext.plain v ty) : ∃ T, C.module.Closes held replyTy T ∧ ¬ (C.graph E).Misfit (v, T) := by
  have close : ∀ head, C.module.flat held ty = .node head [] → C.module.Closes held replyTy (.mk head []) := by
    intro head hf
    refine ⟨1, ⟨[.mk head []], [], 0, 0⟩, ⟨[.mk head []], [], 0, 0⟩, ?_⟩
    simp only [NamespaceRuntime.closeFrom, ht, hf]
    simp [Exec.on, intern]
  have fits : ∀ head tag, resolve C.module (.mk head []) = .scalar tag → scalarFits v tag →
      ¬ (C.graph E).Misfit (v, .mk head []) := by
    intro head tag hT hs
    have hp : (C.graph E).Passes (fun g => g = (v, .mk head [])) (v, .mk head []) := by
      simp only [Graph.Passes, Graph.Judged, BoundaryContext.graph, hT, hs]
    exact not_misfit hM (N := fun g => g = (v, .mk head [])) (by rintro _ rfl; exact hp) rfl
  unfold BoundaryContext.plain at h
  split at h
  · exact ⟨_, close .unit rfl, fits _ .unit rfl rfl⟩
  · exact ⟨_, close .int rfl, fits _ .int rfl rfl⟩
  · exact ⟨_, close .float rfl, fits _ .float rfl rfl⟩
  · exact ⟨_, close .bool rfl, fits _ .bool rfl rfl⟩
  · cases h

theorem runs_checkBoundaryValue (hM : Verified C.module) (htab : FormedTables C.module E) (hn : Named (C.graph E))
    (hv : NamedValue E v) {envId : UInt32} (hen : E.envs[envId.toNat]? = some held) :
    Runs E (C.checkBoundaryValue v replyTy envId) (Tests C E
      (fun _ => ∃ T, C.module.Closes held replyTy T ∧ ¬ (C.graph E).Misfit (v, T))
      (∃ T, C.module.Closes held replyTy T ∧ ¬ (C.graph E).Misfit (v, T))) := by
  unfold BoundaryContext.checkBoundaryValue
  split
  · exact runs_throw fun _ => nofun
  · rename_i ty ht
    apply (runs_env (lt_of_getElem? hen)).bind
    · exact fun _ h => h.elim
    intro held' hh
    cases hen.symm.trans hh
    split_ifs with hp
    · exact runs_pure (plain_fits hM ht hp)
    · apply (runs_close held replyTy).bind
      · exact fun _ h => .of_answer h
      intro T hT
      refine (runs_walk hM htab hn (v, T) _ (fun _ => False) [(v, T)] [] ⟨fun _ h => h.elim, nofun⟩ ?_).mono ?_
      · intro g hg
        obtain rfl := mem_singleton.mp hg
        exact ⟨.refl, hv, formed_of_closes hM (htab.envs _ (mem_of_getElem? hen)) hT⟩
      · rintro (e | ⟨⟩) h
        · rintro hs he ⟨T', hT', hm⟩
          exact h hs he (hT.unique hT' ▸ hm)
        · obtain ⟨N, hN, ha⟩ := h
          exact ⟨T, hT, not_misfit hM hN (ha _ (.inr mem_cons_self))⟩

end Value

end LoomV4.Boundary
