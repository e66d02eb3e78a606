import LoomV4.Boundary.Typing

/-!
Types that name every class with as many arguments as it has parameters, and tables that already hold the arguments that
classes give to their parents: there the search for an ancestor never finds a table full.
-/

namespace LoomV4.Boundary

open Abi Bytecode Closed Lib List NamespaceRuntime

variable {α β : Type} {M : NamespaceRuntime} {t : Ty}

def Sized (M : NamespaceRuntime) (c : Index) (n : ℕ) : Prop :=
  ∀ entry, M.classes[c.toNat]? = some entry → n = entry.typeParams.toNat

inductive Formed (M : NamespaceRuntime) : Ty → Prop
  | mk {head : Head} {children : List Ty}
      (hi : ∀ c args, asInstance (.mk head children) = some (c, args) → Sized M c args.length)
      (hc : ∀ t ∈ children, Formed M t) : Formed M (.mk head children)

theorem Formed.children {head : Head} {children : List Ty} (h : Formed M (.mk head children)) :
    ∀ t ∈ children, Formed M t := by
  cases h with
  | mk _ hc => exact hc

theorem Formed.instance {c : Index} {args : List Ty} (h : Formed M t) (hi : asInstance t = some (c, args)) :
    Sized M c args.length ∧ ∀ u ∈ args, Formed M u := by
  cases h with
  | mk hs hc =>
    refine ⟨hs c args hi, ?_⟩
    unfold asInstance at hi
    split at hi
    · cases hi
      intro u hu
      cases hu
    · next heq =>
      cases hi
      cases heq
      exact hc
    · cases hi

theorem Formed.child {e : Ty} {place : ℕ} (h : Formed M t) (he : childOf M t place = .ok e) : Formed M e := by
  unfold childOf at he
  split at he
  · cases he
    exact h.children _ mem_cons_self
  · cases he
    exact h.children _ mem_cons_self
  · cases he
    exact h.children _ (mem_cons_of_mem _ mem_cons_self)
  · split_ifs at he
    split at he
    · next hg =>
      cases he
      exact h.children _ (mem_of_getElem? hg)
    · cases he
  · split at he
    · next hg =>
      cases he
      exact h.children _ (mem_of_getElem? hg)
    · cases he
  · cases he

theorem resolveClass_mem (table : List (ℕ × Node)) (c : Index) :
    resolveClass M table c = .heap .inst ∨ resolveClass M table c ∈ table.map Prod.snd := by
  unfold resolveClass
  cases hf : table.find? fun entry => M.coreRoles entry.1 = c with
  | none => exact .inl rfl
  | some entry => exact .inr (mem_map_of_mem (mem_of_find?_eq_some hf))

theorem Formed.payload {payload : Ty} {case : Option Bool} (h : Formed M t)
    (hr : resolve M t = .option payload case) : Formed M payload := by
  have hclass : ∀ table c, (∀ n ∈ table.map Prod.snd, n ≠ .option payload case) →
      resolveClass M table c ≠ .option payload case := by
    intro table c hn heq
    obtain hi | hm := @resolveClass_mem M table c
    · cases hi.symm.trans heq
    · exact hn _ hm heq
  obtain ⟨head, children⟩ := t
  cases head with
  | inst c =>
    simp only [resolve, resolveInst] at hr
    split at hr
    · by_cases ho : c = M.coreRoles roleOption ∨ c = M.coreRoles roleOptionSome ∨ c = M.coreRoles roleOptionNone
      · rw [if_pos ho] at hr
        obtain ⟨rfl, -⟩ := Node.option.inj hr
        exact h.children _ mem_cons_self
      · rw [if_neg ho] at hr
        by_cases hl : c = M.coreRoles roleList
        · rw [if_pos hl] at hr
          cases hr
        · rw [if_neg hl] at hr
          exact absurd hr (hclass _ c (by simp [codeNodes]))
    · split_ifs at hr
    · cases hr
  | «class» c => exact absurd hr (hclass _ c (by simp [classNodes]))
  | _ => cases hr

def FormedEnv (M : NamespaceRuntime) (env : TypeEnv) : Prop := ∀ t ∈ env.types, Formed M t

structure FormedTables (M : NamespaceRuntime) (E : TypeEnvs) : Prop where
  types : ∀ t ∈ E.types, Formed M t
  envs : ∀ env ∈ E.envs, FormedEnv M env

/-- Whenever the computation answers, its answer has the property. -/
def Yields (P : α → Prop) (x : EnvM α) : Prop := ∀ E a E', x.on E = some (.ok a, E') → P a

section Yields

variable {P : α → Prop} {Q : β → Prop} {x : EnvM α} {f : α → EnvM β}

theorem yields_pure {a : α} (h : P a) : Yields P (pure a) := by
  intro E b E' hb
  cases hb
  exact h

theorem Yields.bind (hx : Yields P x) (hf : ∀ a, P a → Yields Q (f a)) : Yields Q (x >>= f) := by
  intro E b E' h
  obtain ⟨a, E1, ha, hb⟩ := ok_of_bind h
  exact hf a (hx _ _ _ ha) _ _ _ hb

theorem yields_mapM {xs : List α} (h : ∀ a ∈ xs, Yields Q (f a)) : Yields (fun ys => ∀ y ∈ ys, Q y) (xs.mapM f) := by
  intro E ys E' hys y hy
  obtain ⟨i, hi, rfl⟩ := getElem_of_mem hy
  have hall := ok_of_mapM hys
  obtain ⟨F, F', hF⟩ := hall.get (hall.length_eq ▸ hi) hi
  exact h _ (getElem_mem _) _ _ _ hF

theorem yields_intern (h : Formed M t) : Yields (Formed M) (intern t) := by
  intro E u E' hu
  exact (ok_intern hu).1 ▸ h

theorem formed_unit : Formed M .unit := by
  refine .mk (fun c args h => ?_) fun t ht => ?_
  · cases h
  · cases ht

theorem yields_envOf {args : List Ty} (h : ∀ u ∈ args, Formed M u) : Yields (FormedEnv M) (envOf args []) := by
  intro E env E' he
  exact ok_envOf he ▸ h

end Yields

section Close

variable {close : TypeEnv → Index → EnvM Ty} (hclose : ∀ env ty, FormedEnv M env → Yields (Formed M) (close env ty))

include hclose

theorem yields_parentArgs (entry : BcClass) {args : List Ty} (h : ∀ u ∈ args, Formed M u) :
    Yields (fun us => ∀ u ∈ us, Formed M u) (M.parentArgs close entry args) := by
  unfold parentArgs
  split_ifs
  · exact (yields_envOf h).bind fun owner ho => yields_mapM fun ty _ => hclose owner ty ho
  · exact yields_pure fun u hu => by cases hu
  · exact yields_pure h

theorem yields_associated (conformance : BcConformance) (assoc : Index) {args : List Ty} (h : ∀ u ∈ args, Formed M u) :
    Yields (Formed M) (associated close conformance assoc args) := by
  unfold associated
  split
  · exact yields_intern formed_unit
  · exact (yields_envOf h).bind fun owner ho => hclose owner _ ho

theorem yields_project (interface assoc : Index) (steps : ℕ) : ∀ c args, (∀ u ∈ args, Formed M u) →
    Yields (Formed M) (M.project close interface assoc steps c args) := by
  induction steps with
  | zero =>
    intro c args h
    unfold project
    split
    · exact yields_associated hclose _ _ h
    · exact yields_intern formed_unit
  | succ steps ih =>
    intro c args h
    unfold project
    split
    · exact yields_associated hclose _ _ h
    · dsimp only
      split
      · exact yields_intern formed_unit
      · split_ifs
        · exact yields_intern formed_unit
        · exact (yields_parentArgs hclose _ h).bind fun args => ih _ args

end Close

theorem closedInstance_formed {c : Index} {args : List Ty} (h : Formed M t) (hi : M.closedInstance t = some (c, args)) :
    ∀ u ∈ args, Formed M u := by
  obtain ⟨head, children⟩ := t
  have hsub : args ⊆ children := by
    cases head <;> simp only [closedInstance, Option.map_eq_some_iff, Option.bind_eq_some_iff, Prod.mk.injEq,
      Option.some.injEq, reduceCtorEq] at hi
    all_goals grind
  exact fun u hu => h.children u (hsub hu)

theorem flat_formed (hM : Verified M) {env : TypeEnv} {ty : Index} {node : BcType} {head : Head} {kids : List Index}
    {children : List Ty} (hn : M.types[ty.toNat]? = some node) (hf : M.flat env node = .node head kids)
    (hlen : children.length = kids.length) (hc : ∀ t ∈ children, Formed M t) : Formed M (.mk head children) := by
  refine .mk (fun c args hi => ?_) hc
  cases node <;> cases hf <;> cases hi
  · exact hM.class_arity _ _ hn
  · rw [hlen]
    exact hM.inst_arity _ _ _ hn

theorem yields_closeFrom (hM : Verified M) (fuel : ℕ) : ∀ env ty, FormedEnv M env →
    Yields (Formed M) (M.closeFrom fuel env ty) := by
  induction fuel with
  | zero =>
    intro env ty _ E a E' h
    cases h
  | succ fuel ih =>
    intro env ty hv
    unfold closeFrom
    split
    · exact yields_intern formed_unit
    · next node hn =>
      split
      · split
        · next hg => exact yields_pure (hv _ (mem_of_getElem? hg))
        · exact yields_intern formed_unit
      · next head kids hf =>
        intro E t E' h
        obtain ⟨children, E1, hc, ht⟩ := ok_of_bind h
        have hformed := yields_mapM (fun c _ => ih env c hv) _ _ _ hc
        exact yields_intern (flat_formed hM hn hf (ok_of_mapM hc).length_eq.symm hformed) _ _ _ ht
      · refine (ih env _ hv).bind fun base hb => ?_
        split
        · exact yields_intern formed_unit
        · next hi => exact yields_project ih _ _ _ _ _ (closedInstance_formed hb hi)

theorem formed_of_closes (hM : Verified M) {env : TypeEnv} {ty : Index} (hv : FormedEnv M env) (h : M.Closes env ty t) :
    Formed M t := by
  obtain ⟨fuel, E, E', h⟩ := h
  exact yields_closeFrom hM fuel env ty hv _ _ _ h

theorem InstanceAt.formed (hM : Verified M) {c : Index} {T : Ty} {layout : BcClass} {args : List Ty}
    (h : InstanceAt M c T layout args) (hT : Formed M T) : FormedEnv M ⟨args, []⟩ := by
  obtain ⟨want, wantArgs, hi, ha⟩ := h.ancestor
  by_cases hg : layout.typeParams = 0
  · have hnil : args = [] := length_eq_zero_iff.mp (by rw [h.arity, hg]; rfl)
    intro u hu
    rw [hnil] at hu
    cases hu
  · exact ancestor_generic hM h.found hg ha ▸ (hT.instance hi).2

theorem Graph.Asks.formed {G : Graph} (hM : Verified G.module) (hE : FormedTables G.module G.envs) {g g' : Goal}
    (h : G.Asks g g') (hg : Formed G.module g.2) : Formed G.module g'.2 := by
  cases h with
  | payload hr _ => exact hg.payload hr
  | elem _ _ he _ => exact hg.child he
  | key _ _ hk _ _ => exact hg.child hk
  | value _ _ hw _ _ => exact hg.child hw
  | item _ hp => exact hg.children _ (of_mem_zip hp).2
  | field _ _ ha _ _ hU => exact formed_of_closes hM (ha.formed hM hg) hU
  | dyn _ _ ht => exact hE.types _ (mem_of_getElem? ht)

/-- The computation only adds, and an answer that adds nothing is given again, with nothing added, whatever has been
added meanwhile. -/
def Steady (x : EnvM α) : Prop :=
  Adds x ∧ ∀ E a E', x.on E = some (.ok a, E') → E'.Grows E → ∀ F, E.Grows F → x.on F = some (.ok a, F)

theorem Steady.bind {x : EnvM α} {f : α → EnvM β} (hx : Steady x) (hf : ∀ a, Steady (f a)) : Steady (x >>= f) := by
  refine ⟨hx.1.bind fun a => (hf a).1, fun E b E' h hback F hF => ?_⟩
  obtain ⟨a, E1, ha, hb⟩ := ok_of_bind h
  have hgrow := (hx.1 _ _ _ ha).1
  have hkept := ((hf a).1 _ _ _ hb).1.trans hback
  rw [Exec.on_bind, hx.2 _ _ _ ha hkept F hF]
  exact (hf a).2 _ _ _ hb (hback.trans hgrow) F (hkept.trans hF)

theorem steady_intern (t : Ty) : Steady (intern t) := by
  refine ⟨adds_intern t, fun E u E' h hback F hF => ?_⟩
  obtain ⟨rfl, hm⟩ := ok_intern h
  have hin : u ∈ F.types := hF.types.subset (hback.types.subset hm)
  simp only [Exec.on, intern, hin, if_true]

theorem steady_envOf (types : List Ty) (rows : List (List Index)) : Steady (envOf types rows) := by
  refine ⟨adds_envOf types rows, fun E env E' h hback F hF => ?_⟩
  obtain rfl := ok_envOf h
  have hin : (⟨types, rows⟩ : TypeEnv) = ⟨[], []⟩ ∨ (⟨types, rows⟩ : TypeEnv) ∈ F.envs := by
    simp only [Exec.on, envOf, internEnv] at h
    split_ifs at h with hk hfull
    · exact hk.imp_right fun hm => hF.envs.subset hm
    · cases h
    · cases h
      exact .inr (hF.envs.subset (hback.envs.subset (mem_append_right _ mem_cons_self)))
  simp only [Exec.on, envOf, internEnv, hin, if_true]

theorem compositional_steady : Compositional Steady where
  pure := fun a => ⟨adds_pure a, fun E b E' h _ F _ => by cases h; rfl⟩
  bind := Steady.bind
  stuck := ⟨compositional_adds.stuck, fun E b E' h => by cases h⟩
  intern := steady_intern
  envOf := steady_envOf

/-- Closing the arguments that a class gives to its parent adds nothing to the tables. -/
def Stocked (C : BoundaryContext) (E : TypeEnvs) : Prop :=
  ∀ entry ∈ C.module.classes, ∀ ty ∈ entry.parentArgs,
    ∃ t E', (C.close ⟨[], []⟩ ty).on E = some (.ok t, E') ∧ E'.Grows E

section Stocked

variable {C : BoundaryContext} {E F : TypeEnvs} (hs : Stocked C E) (hF : E.Grows F)

include hs hF

theorem Stocked.closes {tys : List Index} (h : ∀ ty ∈ tys, ∃ entry ∈ C.module.classes, ty ∈ entry.parentArgs) :
    ∃ ts, (tys.mapM (C.close ⟨[], []⟩)).on F = some (.ok ts, F) ∧ ts.length = tys.length := by
  induction tys with
  | nil => exact ⟨[], rfl, rfl⟩
  | cons ty tys ih =>
    obtain ⟨entry, he, hm⟩ := h ty mem_cons_self
    obtain ⟨t, E', ht, hback⟩ := hs entry he ty hm
    obtain ⟨ts, hts, hlen⟩ := ih fun u hu => h u (mem_cons_of_mem _ hu)
    have ht := (compositional_steady.closeFrom C.fuel ⟨[], []⟩ ty).2 _ _ _ ht hback F hF
    refine ⟨t :: ts, ?_, by rw [length_cons, length_cons, hlen]⟩
    rw [mapM_cons, Exec.on_bind, BoundaryContext.close, ht]
    dsimp only
    rw [Exec.on_bind, hts]
    rfl

variable (hM : Verified C.module) {c : Index} {entry : BcClass} {args : List Ty}

include hM

theorem Stocked.parentArgs (he : C.module.classes[c.toNat]? = some entry) (hp : entry.parent ≠ noIndex)
    (ha : args.length = entry.typeParams.toNat) : ∃ result, (C.module.parentArgs (C.close) entry args).on F =
      some (.ok result, F) ∧ Sized C.module entry.parent result.length := by
  unfold NamespaceRuntime.parentArgs
  cases hk : entry.kind with
  | abstract => exact absurd (hM.abstract _ entry he hk) hp
  | case =>
    obtain ⟨hn, parent, hparent, -, hparams⟩ := hM.case _ entry he hk
    by_cases hz : parent.typeParams = 0
    · refine ⟨[], by simp [hn, hparent, hz], fun other ho => ?_⟩
      cases hparent.symm.trans ho
      rw [hz]
      rfl
    · refine ⟨args, by simp [hn, hparent, hz], fun other ho => ?_⟩
      cases hparent.symm.trans ho
      rw [ha, hparams]
  | normal =>
    obtain ⟨parent, hparent, hlen⟩ := hM.parent_arity _ entry he hk hp
    have hsized : Sized C.module entry.parent entry.parentArgs.length := by
      intro other ho
      cases hparent.symm.trans ho
      exact hlen
    have hnil : args = [] := length_eq_zero_iff.mp (by rw [ha, hM.normal _ entry he hk hp]; rfl)
    by_cases hn : entry.parentArgs = []
    · have hz : parent.typeParams = 0 := by
        apply UInt32.toNat_inj.mp
        rw [← hlen, hn]
        rfl
      rw [hn] at hsized
      exact ⟨[], by simp [hn, hparent, hz], hsized⟩
    · obtain ⟨ts, hts, hle⟩ := hs.closes hF fun ty hty => ⟨entry, mem_of_getElem? he, hty⟩
      refine ⟨ts, ?_, hle ▸ hsized⟩
      rw [if_pos hn, Exec.on_bind, hnil]
      exact hts

theorem Stocked.ancestorFrom (steps : ℕ) : ∀ (c : Index) (args : List Ty) (anc : Index), Sized C.module c args.length →
    ∃ found, (C.module.ancestorFrom C.fuel steps c args anc).on F = some (.ok found, F) := by
  induction steps with
  | zero =>
    intro c args anc _
    unfold NamespaceRuntime.ancestorFrom
    split_ifs <;> exact ⟨_, rfl⟩
  | succ steps ih =>
    intro c args anc hc
    unfold NamespaceRuntime.ancestorFrom
    split_ifs
    · exact ⟨_, rfl⟩
    · dsimp only
      split
      · exact ⟨_, rfl⟩
      · next entry he =>
        split_ifs with hp
        · exact ⟨_, rfl⟩
        · exact ⟨_, rfl⟩
        · obtain ⟨result, hr, hsized⟩ := hs.parentArgs hF hM he hp (hc entry he)
          obtain ⟨found, hfound⟩ := ih entry.parent result anc hsized
          refine ⟨found, ?_⟩
          rw [Exec.on_bind]
          exact hr ▸ hfound

end Stocked

end LoomV4.Boundary
