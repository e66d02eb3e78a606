import LoomV4.Boundary.Formed

namespace LoomV4.Boundary

open Abi Bytecode Closed Lib List NamespaceRuntime

variable {α β : Type}

def Runs (E : TypeEnvs) (x : EnvM α) (Q : Except FaultCode α → Prop) : Prop :=
  ∀ F, E.Grows F → x.Ends F fun out F' => E.Grows F' ∧ Q out

section Runs

variable {E : TypeEnvs} {x : EnvM α} {f : α → EnvM β} {P : Except FaultCode α → Prop}
  {Q : Except FaultCode β → Prop}

theorem runs_pure {a : α} (h : P (.ok a)) : Runs E (pure a) P :=
  fun _ hF => Exec.ends_pure ⟨hF, h⟩

theorem runs_throw {e : FaultCode} (h : P (.error e)) : Runs E (throw e) P :=
  fun _ hF => Exec.ends_throw ⟨hF, h⟩

theorem runs_stuck : Runs E (Exec.stuck) P :=
  fun _ _ => Exec.ends_stuck

theorem Runs.bind (hx : Runs E x P) (he : ∀ e, P (.error e) → Q (.error e))
    (hf : ∀ a, P (.ok a) → Runs E (f a) Q) : Runs E (x >>= f) Q :=
  fun F hF => Exec.Ends.bind (hx F hF) (fun e _ h => ⟨h.1, he e h.2⟩) fun a F' h => hf a h.2 F' h.1

theorem Runs.mono {P' : Except FaultCode α → Prop} (hx : Runs E x P) (h : ∀ out, P out → P' out) : Runs E x P' :=
  fun F hF => (hx F hF).mono fun out _ ho => ⟨ho.1, h out ho.2⟩

theorem runs_read {g : TypeEnvs → Option (Except FaultCode α)}
    (h : ∀ F out, E.Grows F → g F = some out → P out) : Runs E (Exec.read g) P :=
  fun F hF => Exec.ends_read fun out ho => ⟨hF, h F out hF ho⟩

/-- What a computation answers, or that there was no room. -/
def Answer (Q : α → Prop) : Except FaultCode α → Prop
  | .ok a => Q a
  | .error e => e = .boundaryLimit

theorem runs_of_adds (h : Adds x) {R : α → Prop} (hR : ∀ F F' a, x.on F = some (.ok a, F') → R a) :
    Runs E x (Answer R) := by
  intro F hF out F' ho
  obtain ⟨hg, he⟩ := h F out F' ho
  refine ⟨hF.trans hg, ?_⟩
  cases out with
  | ok a => exact hR F F' a ho
  | error e => exact he e rfl

end Runs

section Subtype

variable {C : BoundaryContext} {E : TypeEnvs}

theorem runs_close (env : TypeEnv) (ty : Index) : Runs E (C.close env ty) (Answer (C.module.Closes env ty)) :=
  runs_of_adds (compositional_adds.closeFrom _ _ _) fun F F' _ h => ⟨C.fuel, F, F', h⟩

theorem adds_ancestorArgs {M : NamespaceRuntime} (fuel : ℕ) (c : Index) (args : List Ty) (anc : Index) :
    Adds (M.ancestorArgs fuel c args anc) := by
  intro F out F' h
  simp only [Exec.on, NamespaceRuntime.ancestorArgs] at h
  split at h
  · rename_i fault F1 hx
    cases h
    exact ⟨(compositional_adds.ancestorFrom _ _ _ _ _ _ _ _ hx).1, fun e h' => by cases h'⟩
  · exact compositional_adds.ancestorFrom _ _ _ _ _ _ _ _ h

def FindsAncestor (C : BoundaryContext) (E : TypeEnvs) (c : Index) (args : List Ty) (anc : Index) :
    Option (List Ty) → Prop :=
  fun found => (∀ result, found = some result → C.module.Ancestor c args anc result) ∧
    (Stocked C E → ∀ result, C.module.Ancestor c args anc result → found = some result)

theorem runs_ancestorArgs (hM : Verified C.module) {c : Index} {args : List Ty} (hc : Sized C.module c args.length)
    (anc : Index) : Runs E (C.ancestorArgs c args anc) (Answer (FindsAncestor C E c args anc)) := by
  intro F hF out F' h
  obtain ⟨hg, hlimit⟩ := adds_ancestorArgs _ _ _ _ _ _ _ h
  refine ⟨hF.trans hg, ?_⟩
  simp only [Exec.on, BoundaryContext.ancestorArgs, NamespaceRuntime.ancestorArgs] at h
  split at h
  · next fault F1 hx =>
    cases h
    refine ⟨fun result hr => (by cases hr), fun hs => ?_⟩
    obtain ⟨found, hf⟩ := hs.ancestorFrom hF hM C.module.classes.length c args anc hc
    cases hx.symm.trans hf
  · cases out with
    | error e => exact hlimit e rfl
    | ok found =>
      refine ⟨fun result hr => ⟨_, F, F', hr ▸ h⟩, ?_⟩
      rintro _ result ⟨fuel, D, D', hr⟩
      exact agrees_ancestorFrom _ _ _ _ _ _ _ _ _ _ _ _ h hr

inductive StepsTo (M : NamespaceRuntime) : Ty × Ty → List (Ty × Ty) → Prop
  | nominal {f e : Ty} {c parent : Index} {args expectedArgs : List Ty} (hf : asInstance f = some (c, args))
      (he : asInstance e = some (parent, expectedArgs)) (h : M.Ancestor c args parent expectedArgs) :
      StepsTo M (f, e) []
  | structural {f e : Ty} {pairs : List (Ty × Ty)} (h : structuralStep f e = some pairs) :
      StepsTo M (f, e) pairs

theorem StepsTo.sub {M : NamespaceRuntime} {p : Ty × Ty} {pairs : List (Ty × Ty)}
    (h : StepsTo M p pairs) (hp : ∀ q ∈ pairs, Sub M q.1 q.2) : Sub M p.1 p.2 := by
  cases h with
  | nominal hf he h => exact .nominal hf he h
  | structural h => exact .structural h hp

theorem asInstance_structural {f e : Ty} {pairs : List (Ty × Ty)} (h : structuralStep f e = some pairs) :
    asInstance f = none ∧ asInstance e = none := by
  unfold structuralStep at h
  split at h <;> first | exact ⟨rfl, rfl⟩ | cases h

def Compares (C : BoundaryContext) (E : TypeEnvs) (f e : Ty) : Option (List (Ty × Ty)) → Prop
  | some pairs => StepsTo C.module (f, e) pairs
  | none => Stocked C E → f ≠ e → ¬ Sub C.module f e

theorem runs_subtypeStep (hM : Verified C.module) {f : Ty} (hform : Formed C.module f) (e : Ty) :
    Runs E (C.subtypeStep f e) (Answer (Compares C E f e)) := by
  unfold BoundaryContext.subtypeStep
  split
  · rename_i c args parent expectedArgs hf he
    apply (runs_ancestorArgs hM (hform.instance hf).1 parent).bind
    · exact fun _ h => h
    · rintro found ⟨hu, hc⟩
      split_ifs with ho
      · exact runs_pure (.nominal hf he (hu _ ho))
      · apply runs_pure
        intro hs hne hb
        cases hb with
        | refl => exact hne rfl
        | nominal hf' he' h =>
          obtain ⟨rfl, rfl⟩ := Prod.mk.inj (Option.mem_unique hf hf')
          obtain ⟨rfl, rfl⟩ := Prod.mk.inj (Option.mem_unique he he')
          exact ho (hc hs _ h)
        | structural h _ =>
          rw [(asInstance_structural h).1] at hf
          cases hf
  · rename_i hno
    apply runs_pure
    cases ht : structuralStep f e with
    | some pairs => exact .structural ht
    | none =>
      intro _ hne hb
      cases hb with
      | refl => exact hne rfl
      | nominal hf he h => exact hno _ _ _ _ hf he
      | structural h _ =>
        rw [ht] at h
        cases h

/-- A pair left to compare has one part of each type. -/
theorem parts_structural {f e : Ty} {pairs : List (Ty × Ty)} (h : structuralStep f e = some pairs) :
    ∃ head head' fs es, f = .mk head fs ∧ e = .mk head' es ∧
      ∀ p ∈ pairs, p.1 ∈ fs ∧ p.2 ∈ es ∨ p.1 ∈ es ∧ p.2 ∈ fs := by
  have arrow : ∀ {fs es : List Ty} {p : Ty × Ty},
      p ∈ es.dropLast.zip fs.dropLast ++ fs.getLast?.toList.zip es.getLast?.toList →
      p.1 ∈ fs ∧ p.2 ∈ es ∨ p.1 ∈ es ∧ p.2 ∈ fs := by
    intro fs es p hp
    rcases mem_append.mp hp with hp | hp
    · obtain ⟨h1, h2⟩ := of_mem_zip hp
      exact .inr ⟨mem_of_mem_dropLast h1, mem_of_mem_dropLast h2⟩
    · obtain ⟨h1, h2⟩ := of_mem_zip hp
      exact .inl ⟨mem_of_getLast? (by simpa using h1), mem_of_getLast? (by simpa using h2)⟩
  unfold structuralStep at h
  split at h
  · split_ifs at h
    cases h
    exact ⟨_, _, _, _, rfl, rfl, fun p hp => .inl (of_mem_zip hp)⟩
  · split_ifs at h
    cases h
    exact ⟨_, _, _, _, rfl, rfl, fun p => arrow⟩
  · split_ifs at h
    cases h
    exact ⟨_, _, _, _, rfl, rfl, fun p => arrow⟩
  · cases h

theorem sizeOf_structural {f e : Ty} {pairs : List (Ty × Ty)} (h : structuralStep f e = some pairs) :
    ∀ p ∈ pairs, sizeOf p.1 + sizeOf p.2 < sizeOf f + sizeOf e := by
  have child : ∀ {t : Ty} {head : Head} {cs : List Ty}, t ∈ cs → sizeOf t < sizeOf (Ty.mk head cs) := by
    intro t head cs ht
    have := sizeOf_lt_of_mem ht
    simp only [Ty.mk.sizeOf_spec]
    omega
  obtain ⟨head, head', fs, es, rfl, rfl, hp⟩ := parts_structural h
  intro p hm
  obtain ⟨h1, h2⟩ | ⟨h1, h2⟩ := hp p hm
  · exact Nat.add_lt_add (child h1) (child h2)
  · rw [Nat.add_comm]
    exact Nat.add_lt_add (child h2) (child h1)

theorem StepsTo.formed {M : NamespaceRuntime} {p : Ty × Ty} {pairs : List (Ty × Ty)} (h : StepsTo M p pairs)
    (hp : Formed M p.1 ∧ Formed M p.2) : ∀ q ∈ pairs, Formed M q.1 ∧ Formed M q.2 := by
  cases h with
  | nominal => exact fun q hq => by cases hq
  | structural h =>
    obtain ⟨head, head', fs, es, rfl, rfl, hq⟩ := parts_structural h
    intro q hm
    obtain ⟨h1, h2⟩ | ⟨h1, h2⟩ := hq q hm
    · exact ⟨hp.1.children _ h1, hp.2.children _ h2⟩
    · exact ⟨hp.2.children _ h1, hp.1.children _ h2⟩

theorem StepsTo.size {M : NamespaceRuntime} {p : Ty × Ty} {pairs : List (Ty × Ty)}
    (h : StepsTo M p pairs) : ∀ q ∈ pairs, sizeOf q.1 + sizeOf q.2 < sizeOf p.1 + sizeOf p.2 := by
  cases h with
  | nominal => nofun
  | structural h => exact sizeOf_structural h

def Covers (M : NamespaceRuntime) (all : List (Ty × Ty)) (work : List (Ty × Ty)) : Prop :=
  ∀ p ∈ all, ∃ pairs, StepsTo M p pairs ∧ ∀ q ∈ pairs, q.1 = q.2 ∨ q ∈ all ∨ q ∈ work

theorem sub_of_covers {M : NamespaceRuntime} {all : List (Ty × Ty)} (h : Covers M all []) (n : ℕ) :
    ∀ p, p.1 = p.2 ∨ p ∈ all → sizeOf p.1 + sizeOf p.2 ≤ n → Sub M p.1 p.2 := by
  induction n with
  | zero =>
    intro p hp hn
    have : 0 < sizeOf p.1 := by cases p.1; simp
    omega
  | succ n ih =>
    intro p hp hn
    obtain hp | hp := hp
    · rw [hp]
      exact .refl _
    · obtain ⟨pairs, hs, hq⟩ := h p hp
      refine hs.sub fun q hm => ih q ?_ ?_
      · obtain heq | ha | hw := hq q hm
        · exact .inl heq
        · exact .inr ha
        · cases hw
      · have := hs.size q hm
        omega

theorem Sub.pairs {M : NamespaceRuntime} {f e : Ty} (h : Sub M f e) (hne : f ≠ e)
    {pairs : List (Ty × Ty)} (hs : StepsTo M (f, e) pairs) : ∀ q ∈ pairs, Sub M q.1 q.2 := by
  cases h with
  | refl => exact absurd rfl hne
  | nominal hf he h =>
    cases hs with
    | nominal => nofun
    | structural hs =>
      rw [(asInstance_structural hs).1] at hf
      cases hf
  | structural h hp =>
    cases hs with
    | nominal => nofun
    | structural hs =>
      cases h.symm.trans hs
      exact hp

def Decided (C : BoundaryContext) (E : TypeEnvs) (work seen : List (Ty × Ty)) : Bool → Prop
  | true => ∃ all, Covers C.module all [] ∧ (∀ p ∈ work, p.1 = p.2 ∨ p ∈ all) ∧ ∀ p ∈ seen, p ∈ all
  | false => Stocked C E → ∃ p ∈ work, ¬ Sub C.module p.1 p.2

theorem runs_subtypeFrom (hM : Verified C.module) (turns : ℕ) : ∀ work seen, Covers C.module seen work →
    (∀ p ∈ work, Formed C.module p.1 ∧ Formed C.module p.2) →
    Runs E (C.subtypeFrom turns work seen) (Answer (Decided C E work seen)) := by
  induction turns with
  | zero =>
    intro work seen hc _
    cases work with
    | nil => exact runs_pure ⟨seen, hc, nofun, fun _ h => h⟩
    | cons p work => exact runs_stuck
  | succ turns ih =>
    intro work seen hc hform
    cases work with
    | nil => exact runs_pure ⟨seen, hc, nofun, fun _ h => h⟩
    | cons p work =>
      obtain ⟨f, e⟩ := p
      unfold BoundaryContext.subtypeFrom
      split_ifs with hk
      · have again : ∀ all : List (Ty × Ty), (∀ p ∈ seen, p ∈ all) → f = e ∨ (f, e) ∈ all :=
          fun all ha => hk.imp_right (ha _)
        refine (ih work seen ?_ fun q hq => hform q (mem_cons_of_mem _ hq)).mono ?_
        · intro q hq
          obtain ⟨pairs, ht, hp⟩ := hc q hq
          refine ⟨pairs, ht, fun q' hq' => ?_⟩
          obtain heq | ha | hw := hp q' hq'
          · exact .inl heq
          · exact .inr (.inl ha)
          · rcases mem_cons.mp hw with rfl | hw
            · exact (again seen fun _ h => h).imp_right .inl
            · exact .inr (.inr hw)
        · rintro (e' | _ | _) ho
          · exact ho
          · intro hs
            obtain ⟨p, hp, hno⟩ := ho hs
            exact ⟨p, mem_cons_of_mem _ hp, hno⟩
          · obtain ⟨all, ha, hw, he⟩ := ho
            refine ⟨all, ha, fun p hp => ?_, he⟩
            rcases mem_cons.mp hp with rfl | hp
            · exact again all he
            · exact hw p hp
      · obtain ⟨hne, -⟩ := not_or.mp hk
        apply (runs_subtypeStep hM (hform _ mem_cons_self).1 e).bind
        · exact fun _ h => h
        · intro found hf
          cases found with
          | none => exact runs_pure fun hs => ⟨(f, e), mem_cons_self, hf hs hne⟩
          | some pairs =>
            refine (ih _ _ ?_ fun q hq => ?_).mono ?_
            · intro q hq
              rcases mem_cons.mp hq with rfl | hq
              · exact ⟨pairs, hf, fun q hq => .inr (.inr (by simp [hq]))⟩
              · obtain ⟨ps, ht, hp⟩ := hc q hq
                refine ⟨ps, ht, fun q' hq' => ?_⟩
                obtain heq | ha | hw := hp q' hq'
                · exact .inl heq
                · exact .inr (.inl (mem_cons_of_mem _ ha))
                · rcases mem_cons.mp hw with rfl | hw
                  · exact .inr (.inl mem_cons_self)
                  · exact .inr (.inr (mem_append_right _ hw))
            · rcases mem_append.mp hq with hq | hq
              · exact StepsTo.formed hf (hform _ mem_cons_self) q (mem_reverse.mp hq)
              · exact hform q (mem_cons_of_mem _ hq)
            · rintro (e' | _ | _) ho
              · exact ho
              · intro hs
                obtain ⟨p, hp, hno⟩ := ho hs
                rcases mem_append.mp hp with hp | hp
                · refine ⟨(f, e), mem_cons_self, fun hu => hno ?_⟩
                  exact hu.pairs hne hf p (mem_reverse.mp hp)
                · exact ⟨p, mem_cons_of_mem _ hp, hno⟩
              · obtain ⟨all, ha, hw, he⟩ := ho
                refine ⟨all, ha, fun p hp => ?_, fun p hp => he p (mem_cons_of_mem _ hp)⟩
                rcases mem_cons.mp hp with rfl | hp
                · exact .inr (he _ mem_cons_self)
                · exact hw p (mem_append_right _ hp)

theorem runs_closedIsSubtype (hM : Verified C.module) {f e : Ty} (hf : Formed C.module f) (he : Formed C.module e) :
    Runs E (C.closedIsSubtype f e) (Answer fun answer =>
      (answer = true → Sub C.module f e) ∧ (Stocked C E → answer = false → ¬ Sub C.module f e)) := by
  refine (runs_subtypeFrom hM C.fuel [(f, e)] [] nofun fun p hp => ?_).mono ?_
  · obtain rfl := mem_singleton.mp hp
    exact ⟨hf, he⟩
  rintro (e' | _ | _) ho
  · exact ho
  · refine ⟨nofun, fun hs _ => ?_⟩
    obtain ⟨p, hp, hno⟩ := ho hs
    obtain rfl := mem_singleton.mp hp
    exact hno
  · obtain ⟨all, ha, hw, -⟩ := ho
    exact ⟨fun _ => sub_of_covers ha _ (f, e) (hw _ mem_cons_self) (Nat.le_refl _), nofun⟩

end Subtype

end LoomV4.Boundary
