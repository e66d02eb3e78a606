import LoomV4.Boundary.Subtype

namespace LoomV4.Boundary

open Abi Bytecode Closed Lib List Graph BoundaryContext

variable {α β : Type}

def NamedValue (E : TypeEnvs) (v : Value) : Prop :=
  ∀ ty arm, v = .emptyCase ty arm → ty.toNat < E.types.length

def NamedObject (E : TypeEnvs) : Object → Prop
  | .list items _ => ∀ x ∈ items, NamedValue E x
  | .map entries _ => ∀ n ∈ entries, NamedValue E n.key ∧ NamedValue E n.value
  | .inst _ fields _ => ∀ x ∈ fields, NamedValue E x
  | .tuple items => ∀ x ∈ items, NamedValue E x
  | .closure _ _ envId => envId.toNat < E.envs.length
  | .dynValue value ty => NamedValue E value ∧ ty.toNat < E.types.length
  | _ => True

def Named (G : Graph) : Prop := ∀ r o, G.Shows r o → NamedObject G.envs o

def BoundaryContext.graph (C : BoundaryContext) (E : TypeEnvs) : Graph := ⟨C.module, C.heap, E⟩

def Tests (C : BoundaryContext) (E : TypeEnvs) (R : α → Prop) (P : Prop) : Except FaultCode α → Prop
  | .ok a => R a
  | .error e => Stocked C E → e = .typeMismatch → ¬ P

section

variable {C : BoundaryContext} {E F : TypeEnvs}

theorem Tests.of_answer {Q : α → Prop} {R : β → Prop} {P : Prop} {e : FaultCode}
    (h : Answer Q (.error e)) : Tests C E R P (.error e) := by
  cases h
  exact fun _ => nofun

theorem types_of_grows (h : E.Grows F) {i : ℕ} (hi : i < E.types.length) : F.types[i]? = E.types[i]? := by
  obtain ⟨ext, hF⟩ := h.types
  rw [← hF, getElem?_append_left hi]

theorem envs_of_grows (h : E.Grows F) {i : ℕ} (hi : i < E.envs.length) : F.envs[i]? = E.envs[i]? := by
  obtain ⟨ext, hF⟩ := h.envs
  rw [← hF, getElem?_append_left hi]

theorem runs_closeAll (env : TypeEnv) (tys : List Index) :
    Runs E (tys.mapM (C.close env)) (Answer fun ts => List.Forall₂ (C.module.Closes env) tys ts) := by
  apply runs_of_adds (compositional_adds.mapM _ fun ty _ => compositional_adds.closeFrom _ _ _)
  intro F F' ts h
  exact (ok_of_mapM h).imp fun ty t ⟨D, D', ht⟩ => ⟨C.fuel, D, D', ht⟩

theorem runs_intern (t : Ty) : Runs E (intern t) (Answer fun u => u = t) :=
  runs_of_adds (adds_intern t) fun _ _ _ h => (ok_intern h).1

theorem runs_envOf (types : List Ty) (rows : List (List Index)) :
    Runs E (envOf types rows) (Answer fun env => env = ⟨types, rows⟩) :=
  runs_of_adds (adds_envOf types rows) fun _ _ _ h => ok_envOf h

def Signature (M : NamespaceRuntime) (code : Func) (held : TypeEnv) (t : Ty) : Prop :=
  ∃ params result, List.Forall₂ (M.Closes held) code.params params ∧ M.Closes held code.ret result ∧
    t = .mk (.fn code.paramMuts (M.closeRow code.row held)) (params ++ [result])

variable {M : NamespaceRuntime}

theorem forall₂_closes_unique {env : TypeEnv} {tys : List Index} {ts us : List Ty}
    (h : List.Forall₂ (M.Closes env) tys ts) (h' : List.Forall₂ (M.Closes env) tys us) : ts = us := by
  induction h generalizing us with
  | nil =>
    cases h'
    rfl
  | cons hc _ ih =>
    cases h' with
    | cons hc' h' => rw [hc.unique hc', ih h']

theorem Signature.unique {code : Func} {held : TypeEnv} {t u : Ty}
    (h : Signature M code held t) (h' : Signature M code held u) : t = u := by
  obtain ⟨params, result, hp, hr, rfl⟩ := h
  obtain ⟨params', result', hp', hr', rfl⟩ := h'
  rw [forall₂_closes_unique hp hp', hr.unique hr']

theorem Signature.formed (hM : Verified M) {code : Func} {held : TypeEnv} {t : Ty} (h : Signature M code held t)
    (hh : FormedEnv M held) : Formed M t := by
  obtain ⟨params, result, hp, hr, rfl⟩ := h
  refine .mk (fun c args hi => by cases hi) fun u hu => ?_
  rcases mem_append.mp hu with hu | hu
  · obtain ⟨i, hi, rfl⟩ := getElem_of_mem hu
    exact formed_of_closes hM hh (hp.get (hp.length_eq ▸ hi) hi)
  · obtain rfl := mem_singleton.mp hu
    exact formed_of_closes hM hh hr

theorem runs_signature (code : Func) (held : TypeEnv) :
    Runs E (C.signature code held) (Answer (Signature C.module code held)) := by
  unfold BoundaryContext.signature
  apply (runs_closeAll held code.params).bind
  · exact fun _ h => h
  intro params hp
  apply (runs_close held code.ret).bind
  · exact fun _ h => h
  intro result hr
  refine (runs_intern _).mono ?_
  rintro (e | t) h
  · exact h
  · exact ⟨params, result, hp, hr, h⟩

variable {T : Ty} {func envId : UInt32}

theorem callable_iff : (C.graph E).Callable func envId T ↔
    ∃ code held t, C.module.funcs[func.toNat]? = some code ∧ E.envs[envId.toNat]? = some held ∧
      held.types.length = code.typeParams.toNat ∧ held.rows.length = code.effectParams.toNat ∧
      Signature C.module code held t ∧ Sub C.module t T := by
  constructor
  · rintro ⟨code, held, params, result, hc, hh, ht, hr, hp, he, hs⟩
    exact ⟨code, held, _, hc, hh, ht, hr, ⟨params, result, hp, he, rfl⟩, hs⟩
  · rintro ⟨code, held, t, hc, hh, ht, hr, ⟨params, result, hp, he, rfl⟩, hs⟩
    exact ⟨code, held, params, result, hc, hh, ht, hr, hp, he, hs⟩

theorem runs_env {envId : UInt32} (hE : envId.toNat < E.envs.length) :
    Runs E (BoundaryContext.env envId) fun out => match out with
      | .ok held => E.envs[envId.toNat]? = some held
      | .error _ => False := by
  apply runs_read
  intro F out hF ho
  rw [envs_of_grows hF hE, getElem?_eq_getElem hE] at ho
  cases ho
  exact getElem?_eq_getElem hE

theorem runs_checkClosure (hM : Verified C.module) (htab : FormedTables C.module E) (hE : envId.toNat < E.envs.length)
    (hT : Formed C.module T) :
    Runs E (C.checkClosure func envId T)
      (Tests C E (fun _ => (C.graph E).Callable func envId T) ((C.graph E).Callable func envId T)) := by
  unfold checkClosure
  split
  · rename_i hn
    apply runs_throw
    intro _ _ ha
    obtain ⟨code, held, t, hc, -⟩ := callable_iff.mp ha
    cases hn.symm.trans hc
  · rename_i code ho
    apply (runs_env hE).bind
    · exact fun _ h => h.elim
    intro held he
    have same : (C.graph E).Callable func envId T → held.types.length = code.typeParams.toNat ∧
        held.rows.length = code.effectParams.toNat ∧ ∃ t, Signature C.module code held t ∧ Sub C.module t T := by
      intro ha
      obtain ⟨code', held', t, hc, hh, ht, hr, hs, hu⟩ := callable_iff.mp ha
      cases ho.symm.trans hc
      cases he.symm.trans hh
      exact ⟨ht, hr, t, hs, hu⟩
    split_ifs with hi
    · apply runs_throw
      intro _ _ ha
      obtain ⟨ht, hr, -⟩ := same ha
      exact hi.elim (· ht) (· hr)
    · obtain ⟨ht, hr⟩ := not_or.mp hi
      apply (runs_signature code held).bind
      · exact fun _ h => .of_answer h
      intro actual hg
      apply (runs_closedIsSubtype hM (hg.formed hM (htab.envs _ (mem_of_getElem? he))) hT).bind
      · exact fun _ h => .of_answer h
      rintro (_ | _) ⟨htr, hf⟩
      · apply runs_throw
        intro hs _ ha
        obtain ⟨-, -, t, hg', hu⟩ := same ha
        exact hf hs rfl (hg.unique hg' ▸ hu)
      · exact runs_pure (callable_iff.mpr ⟨code, held, actual, ho, he, not_not.mp ht, not_not.mp hr, hg, htr rfl⟩)

def FieldGoals (M : NamespaceRuntime) (env : TypeEnv) (fields : List (Value × Index)) (goals : List Goal) :
    Prop :=
  (∀ p ∈ fields, p.1 ≠ .uninit → ∃ U, M.Closes env p.2 U ∧ (p.1, U) ∈ goals) ∧
    ∀ g ∈ goals, ∃ p ∈ fields, p.1 ≠ .uninit ∧ g.1 = p.1 ∧ M.Closes env p.2 g.2

theorem runs_checkFields (env : TypeEnv) (fields : List (Value × Index)) :
    Runs E (C.checkFields env fields) (Answer (FieldGoals C.module env fields)) := by
  induction fields with
  | nil => exact runs_pure ⟨nofun, nofun⟩
  | cons p fields ih =>
    obtain ⟨v, ty⟩ := p
    unfold checkFields
    split_ifs with hv
    · refine ih.mono ?_
      rintro (e | goals) h
      · exact h
      · refine ⟨fun p hp hne => ?_, fun g hg => ?_⟩
        · rcases mem_cons.mp hp with rfl | hp
          · exact absurd hv hne
          · exact h.1 p hp hne
        · obtain ⟨p, hp, hr⟩ := h.2 g hg
          exact ⟨p, mem_cons_of_mem _ hp, hr⟩
    · apply (runs_close env ty).bind
      · exact fun _ h => h
      intro U hU
      apply ih.bind
      · exact fun _ h => h
      intro goals h
      refine runs_pure ⟨fun p hp hne => ?_, fun g hg => ?_⟩
      · rcases mem_cons.mp hp with rfl | hp
        · exact ⟨U, hU, mem_cons_self⟩
        · obtain ⟨U', hU', hm⟩ := h.1 p hp hne
          exact ⟨U', hU', mem_cons_of_mem _ hm⟩
      · rcases mem_cons.mp hg with rfl | hg
        · exact ⟨(v, ty), mem_cons_self, hv, rfl, hU⟩
        · obtain ⟨p, hp, hr⟩ := h.2 g hg
          exact ⟨p, mem_cons_of_mem _ hp, hr⟩

theorem actualArgs_eq (hM : Verified C.module) {c want : Index} {layout : BcClass}
    {args wantArgs : List Ty} (hT : asInstance T = some (want, wantArgs))
    (h : InstanceAt C.module c T layout args) : actualArgs c layout want wantArgs = some args := by
  obtain ⟨hl, he, want', wantArgs', hT', ha⟩ := h
  obtain ⟨rfl, rfl⟩ := Prod.mk.inj (Option.mem_unique hT hT')
  unfold actualArgs
  by_cases hg : layout.typeParams = 0
  · have hn : args = [] := length_eq_zero_iff.mp (by rw [he, hg]; rfl)
    split_ifs with hc
    · subst hc
      obtain ⟨fuel, D, D', ha⟩ := ha
      unfold NamespaceRuntime.ancestorFrom at ha
      simp only [if_true] at ha
      cases ha
      rfl
    · rw [hn]
  · have heq := ancestor_generic hM hl hg ha
    subst heq
    split_ifs with hc he'
    · rfl
    · rfl
    · exact absurd he.symm he'

theorem runs_checkInstance (hM : Verified C.module) (c : Index) (fields : List Value) (T : Ty) :
    Runs E (C.checkInstance c fields T) (Tests C E
      (fun goals => ∃ layout args, InstanceAt C.module c T layout args ∧ fields.length = layout.fields.length ∧
        FieldGoals C.module ⟨args, []⟩ (fields.zip (layout.fields.map Prod.snd)) goals)
      (∃ layout args, InstanceAt C.module c T layout args ∧ fields.length = layout.fields.length)) := by
  unfold checkInstance
  split
  · rename_i hn
    apply runs_throw
    rintro _ _ ⟨layout, args, hi, -⟩
    cases hn.symm.trans hi.found
  · rename_i layout hl
    have same : ∀ {layout' args}, InstanceAt C.module c T layout' args → layout' = layout := by
      intro layout' args hi
      exact Option.mem_unique hi.found hl
    split_ifs with he
    · apply runs_throw
      rintro _ _ ⟨layout', args, hi, he'⟩
      exact he (same hi ▸ he')
    · split
      · exact runs_throw fun _ => nofun
      · rename_i want wantArgs hT
        have tried : ∀ {layout' args}, InstanceAt C.module c T layout' args →
            actualArgs c layout want wantArgs = some args := by
          intro layout' args hi
          exact same hi ▸ actualArgs_eq hM hT hi
        split
        · rename_i hn
          apply runs_throw
          rintro _ _ ⟨layout', args, hi, -⟩
          cases hn.symm.trans (tried hi)
        · rename_i args hg
          split_ifs with hr
          · apply runs_throw
            rintro _ _ ⟨layout', args', hi, -⟩
            cases hg.symm.trans (tried hi)
            exact hr (same hi ▸ hi.arity)
          · have hsized : Sized C.module c args.length := by
              intro other ho
              cases hl.symm.trans ho
              exact not_not.mp hr
            apply (runs_ancestorArgs hM hsized want).bind
            · exact fun _ h => .of_answer h
            rintro found ⟨ho, hc⟩
            split_ifs with hf
            · apply runs_throw
              rintro hs _ ⟨layout', args', hi, -⟩
              cases hg.symm.trans (tried hi)
              obtain ⟨want', wantArgs', hT', ha⟩ := hi.ancestor
              obtain ⟨rfl, rfl⟩ := Prod.mk.inj (Option.mem_unique hT hT')
              exact hf (hc hs _ ha)
            · have hi : InstanceAt C.module c T layout args :=
                ⟨hl, not_not.mp hr, want, wantArgs, hT, ho _ (not_not.mp hf)⟩
              apply (runs_envOf args []).bind
              · exact fun _ h => .of_answer h
              rintro _ rfl
              refine (runs_checkFields _ _).mono ?_
              rintro (e | goals) h
              · exact .of_answer h
              · exact ⟨layout, args, hi, not_not.mp he, h⟩

theorem runs_child (T : Ty) (place : ℕ) : Runs E (C.child T place) fun out => childOf C.module T place = out := by
  apply runs_read
  intro F out _ ho
  exact Option.some.inj ho

def Leaves (G : Graph) (r : ObjRef) (T : Ty) (o : Object) (goals : List Goal) : Prop :=
  G.ObjectPasses (· ∈ goals) T o ∧ ∀ g ∈ goals, G.Asks (.obj r, T) g

theorem runs_checkObject (hM : Verified C.module) (htab : FormedTables C.module E) {r : ObjRef} {o : Object}
    {kind : Kind} (hform : Formed C.module T) (hn : NamedObject E o)
    (hT : resolve C.module T = .heap kind) (ho : (C.graph E).Shows r o)
    (hk : kindFits (kindOf o) kind) : Runs E (C.checkObject o kind T)
      (Tests C E (Leaves (C.graph E) r T o) (∃ N, (C.graph E).ObjectPasses N T o)) := by
  cases o with
  | list items epoch =>
    obtain rfl := eq_list hk
    apply (runs_child T 0).bind
    · rintro e he _ _ ⟨N, e', he', -⟩
      cases he.symm.trans he'
    intro e he
    refine runs_pure ⟨⟨e, he, fun x hx => List.mem_map_of_mem hx⟩, fun g hg => ?_⟩
    obtain ⟨x, hx, rfl⟩ := List.mem_map.mp hg
    exact .elem hT ho he hx
  | map entries index =>
    obtain rfl := eq_map hk
    apply (runs_child T 0).bind
    · rintro e he _ _ ⟨N, k', w', hk', -⟩
      cases he.symm.trans hk'
    intro k hk
    apply (runs_child T 1).bind
    · rintro e he _ _ ⟨N, k', w', -, hw', -⟩
      cases he.symm.trans hw'
    intro w hw
    refine runs_pure ⟨⟨k, w, hk, hw, fun n hn hl => ?_⟩, fun g hg => ?_⟩
    · have hme : n ∈ entries.filter MapEntry.isLive := mem_filter.mpr ⟨hn, hl⟩
      exact ⟨mem_flatMap.mpr ⟨n, hme, by simp⟩, mem_flatMap.mpr ⟨n, hme, by simp⟩⟩
    · obtain ⟨n, hme, hg⟩ := mem_flatMap.mp hg
      obtain ⟨hn, hl⟩ := mem_filter.mp hme
      rcases mem_cons.mp hg with rfl | hg
      · exact .key hT ho hk hn hl
      · obtain rfl := mem_singleton.mp hg
        exact .value hT ho hw hn hl
  | inst c fields env =>
    obtain rfl := eq_instance hk
    refine (runs_checkInstance hM c fields T).mono ?_
    rintro (e | goals) h
    · rintro hs he ⟨N, layout, args, hi, hle, -⟩
      exact h hs he ⟨layout, args, hi, hle⟩
    · obtain ⟨layout, args, hi, hle, hf, hg⟩ := h
      refine ⟨⟨layout, args, hi, hle, hf⟩, fun g hme => ?_⟩
      obtain ⟨p, hp, hv, heq, hU⟩ := hg g hme
      obtain ⟨x, U⟩ := g
      dsimp only at heq
      subst heq
      exact .field hT ho hi hp hv hU
  | tuple items =>
    obtain rfl : kind = .tuple := by
      cases kind <;> first | rfl | cases hk
    simp only [checkObject]
    split
    · rename_i elems
      split_ifs with hle
      · apply runs_throw
        rintro _ _ ⟨N, elems', heq, hle', -⟩
        cases heq
        exact hle hle'
      · exact runs_pure ⟨⟨elems, rfl, not_not.mp hle, fun p hp => hp⟩, fun g hg => .item ho hg⟩
    · exact runs_throw fun _ => nofun
  | closure func captures envId =>
    obtain rfl : kind = .closure := by
      cases kind <;> first | rfl | cases hk
    apply (runs_checkClosure hM htab hn hform).bind
    · rintro e he hs hm ⟨N, hc⟩
      exact he hs hm hc
    intro _ hc
    exact runs_pure ⟨hc, nofun⟩
  | dynValue value ty =>
    obtain rfl := eq_dynValue hk
    apply runs_read
    intro F out hF hu
    have ht := getElem?_eq_getElem hn.2
    rw [types_of_grows hF hn.2, ht] at hu
    cases hu
    exact ⟨⟨_, ht, mem_cons_self⟩, fun g hg => by
      obtain rfl := mem_singleton.mp hg
      exact .dyn hT ho ht⟩
  | _ => exact runs_pure ⟨trivial, nofun⟩

inductive Visit (G : Graph) (v : Value) (T : Ty) (seen : BoundaryContext.Seen) :
    List Goal × BoundaryContext.Seen → Prop
  | again {r : ObjRef} {o : Object} (hv : v = .obj r) (ho : G.Shows r o) (hs : (r.slot, T) ∈ seen) :
      Visit G v T seen ([], seen)
  | fresh {goals : List Goal} {seen' : BoundaryContext.Seen} (hp : G.Passes (· ∈ goals) (v, T))
      (ha : ∀ g ∈ goals, G.Asks (v, T) g)
      (hs : seen' = seen ∨ ∃ r o, v = .obj r ∧ G.Shows r o ∧ seen' = (r.slot, T) :: seen) :
      Visit G v T seen (goals, seen')

theorem runs_checkHeap (hM : Verified C.module) (htab : FormedTables C.module E) (hn : Named (C.graph E)) {kind : Kind}
    (hform : Formed C.module T) (hT : resolve C.module T = .heap kind) (v : Value) (seen : BoundaryContext.Seen) :
    Runs E (C.checkHeap v kind T seen) (Tests C E (Visit (C.graph E) v T seen)
      (∃ N, (C.graph E).Passes N (v, T))) := by
  have heap : ∀ {N}, (C.graph E).Passes N (v, T) → ∃ r, v = .obj r ∧
      ((C.graph E).Compact r ∧ (kind = .text ∨ kind = .substring) ∨
        ∃ o, (C.graph E).Shows r o ∧ kindFits (kindOf o) kind ∧ (C.graph E).ObjectPasses N T o) :=
    fun h => (judged_heap hT).mp h
  unfold checkHeap
  split
  · rename_i r
    split_ifs with hc hk
    · exact runs_pure (.fresh ((judged_heap hT).mpr ⟨r, rfl, .inl ⟨hc, hk⟩⟩) nofun (.inl rfl))
    · apply runs_throw
      rintro _ _ ⟨N, h⟩
      obtain ⟨r', hr, ⟨-, hk'⟩ | ⟨o, ho, -⟩⟩ := heap h
      · exact hk hk'
      · cases hr
        exact ho.not_compact hc
    · have hc' : C.heap.textViews.get r = none := by simpa using hc
      split
      · exact runs_stuck
      · rename_i o hg
        have ho : (C.graph E).Shows r o := ⟨hc', hg⟩
        have object : ∀ {N}, (C.graph E).Passes N (.obj r, T) →
            kindFits (kindOf o) kind ∧ (C.graph E).ObjectPasses N T o := by
          intro N h
          obtain ⟨r', hr, ⟨hco, -⟩ | ⟨o', ho', hk, hj⟩⟩ := heap h
          · cases hr
            exact absurd hco hc
          · cases hr
            exact ho.unique ho' ▸ ⟨hk, hj⟩
        split_ifs with hk hs
        · apply runs_throw
          rintro _ _ ⟨N, h⟩
          simp [(object h).1] at hk
        · exact runs_pure (.again rfl ho hs.2)
        · have hk : kindFits (kindOf o) kind := by simpa using hk
          apply (runs_checkObject hM htab hform (hn r o ho) hT ho hk).bind
          · rintro e he hs hm ⟨N, h⟩
            exact he hs hm ⟨N, (object h).2⟩
          · rintro goals ⟨hp, ha⟩
            have passes : (C.graph E).Passes (· ∈ goals) (.obj r, T) :=
              (judged_heap hT).mpr ⟨r, rfl, .inr ⟨o, ho, hk, hp⟩⟩
            refine runs_pure (.fresh passes ha ?_)
            unfold BoundaryContext.mark
            split_ifs
            · exact .inr ⟨r, o, rfl, ho, rfl⟩
            · exact .inl rfl
  · rename_i hv
    apply runs_throw
    rintro _ _ ⟨N, h⟩
    obtain ⟨r, hr, -⟩ := heap h
    exact hv r hr

variable {v : Value}

theorem runs_isNone (hv : NamedValue E v) {c : Index} {args : List Ty} :
    Runs E (isNone v (.mk (.inst (C.module.coreRoles roleOption)) args))
      (fun out => match out with
        | .ok b => b = true ↔ (C.graph E).NoneOf v (.mk (.inst c) args)
        | .error _ => False) := by
  apply runs_read
  intro F out hF ho
  cases ho
  dsimp only
  constructor
  · intro h
    split at h
    · rename_i ty arm
      obtain ⟨rfl, hty⟩ := of_decide_eq_true h
      rw [types_of_grows hF (hv ty 1 rfl)] at hty
      exact ⟨ty, c, args, rfl, rfl, hty⟩
    · cases h
  · rintro ⟨ty, c', args', rfl, heq, hty⟩
    cases heq
    have hty : E.types[ty.toNat]? = _ := hty
    simp [types_of_grows hF (hv ty 1 rfl), hty, BoundaryContext.graph]

theorem runs_checkOption (hv : NamedValue E v) {T payload : Ty} {case : Option Bool}
    (hT : resolve C.module T = .option payload case) : Runs E (C.checkOption v payload T case) (Tests C E
      (fun goals => (C.graph E).Passes (· ∈ goals) (v, T) ∧ ∀ g ∈ goals, (C.graph E).Asks (v, T) g)
      (∃ N, (C.graph E).Passes N (v, T))) := by
  have option : ∀ {N}, (C.graph E).Passes N (v, T) ↔ (C.graph E).NoneOf v T ∧ case ≠ some true ∨
      ¬ (C.graph E).NoneOf v T ∧ case ≠ some false ∧ N (v, payload) := judged_option hT
  unfold checkOption
  split
  · rename_i c args
    apply (runs_intern _).bind
    · exact fun _ h => .of_answer h
    rintro _ rfl
    apply (runs_isNone hv (c := c)).bind
    · exact fun _ h => h.elim
    intro b hb
    cases b with
    | true =>
      have hn := hb.mp rfl
      match case with
      | some true =>
        apply runs_throw
        rintro _ _ ⟨N, h⟩
        obtain ⟨-, h⟩ | ⟨h, -⟩ := option.mp h
        · exact h rfl
        · exact h hn
      | none => exact runs_pure ⟨option.mpr (.inl ⟨hn, nofun⟩), nofun⟩
      | some false => exact runs_pure ⟨option.mpr (.inl ⟨hn, nofun⟩), nofun⟩
    | false =>
      have hs : ¬ (C.graph E).NoneOf v (.mk (.inst c) args) := fun h => nomatch hb.mpr h
      have next : ∀ g ∈ [(v, payload)], (C.graph E).Asks (v, .mk (.inst c) args) g := by
        intro g hg
        obtain rfl := mem_singleton.mp hg
        exact .payload hT hs
      match case with
      | some false =>
        apply runs_throw
        rintro _ _ ⟨N, h⟩
        obtain ⟨h, -⟩ | ⟨-, h, -⟩ := option.mp h
        · exact hs h
        · exact h rfl
      | none => exact runs_pure ⟨option.mpr (.inr ⟨hs, nofun, mem_cons_self⟩), next⟩
      | some true => exact runs_pure ⟨option.mpr (.inr ⟨hs, nofun, mem_cons_self⟩), next⟩
  · exact runs_throw fun _ => nofun

theorem runs_checkOne (hM : Verified C.module) (htab : FormedTables C.module E) (hn : Named (C.graph E))
    (hv : NamedValue E v) (hform : Formed C.module T) (seen : BoundaryContext.Seen) :
    Runs E (C.checkOne v T seen) (Tests C E (Visit (C.graph E) v T seen) (∃ N, (C.graph E).Passes N (v, T))) := by
  unfold checkOne
  split
  · rename_i tag hT
    have scalar : ∀ {N}, (C.graph E).Passes N (v, T) ↔ scalarFits v tag := by
      intro N
      simp only [Graph.Passes, Graph.Judged, BoundaryContext.graph, hT]
    split_ifs with hs
    · exact runs_pure (.fresh (scalar.mpr hs) (fun g hg => by cases hg) (.inl rfl))
    · apply runs_throw
      rintro _ _ ⟨N, h⟩
      exact hs (scalar.mp h)
  · rename_i kind hT
    exact runs_checkHeap hM htab hn hform hT v seen
  · exact runs_throw fun _ he => by cases he
  · rename_i payload case hT
    apply (runs_checkOption hv hT).bind
    · exact fun _ h => h
    · rintro goals ⟨hp, ha⟩
      exact runs_pure (.fresh hp ha (.inl rfl))

end

end LoomV4.Boundary
