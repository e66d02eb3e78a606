import LoomV4.Closed.Types
import Mathlib.Data.List.Forall2

namespace LoomV4.Closed

open Abi Bytecode Lib List

variable {α β : Type}

structure TypeEnvs.Grows (E E' : TypeEnvs) : Prop where
  types : E.types <+: E'.types
  envs : E.envs <+: E'.envs

namespace TypeEnvs.Grows

variable {E E' E'' : TypeEnvs}

theorem refl : E.Grows E := ⟨prefix_rfl, prefix_rfl⟩

theorem trans (h : E.Grows E') (h' : E'.Grows E'') : E.Grows E'' :=
  ⟨h.types.trans h'.types, h.envs.trans h'.envs⟩

end TypeEnvs.Grows

/-- The computation only adds entries, and can only fail for lack of room. -/
def Adds (x : EnvM α) : Prop :=
  ∀ E out E', x.on E = some (out, E') → E.Grows E' ∧ ∀ e, out = .error e → e = .boundaryLimit

/-- Whatever the tables, the two computations answer the same. -/
def Agrees (x y : EnvM α) : Prop :=
  ∀ E E' a F F' b, x.on E = some (.ok a, E') → y.on F = some (.ok b, F') → a = b

theorem adds_pure (a : α) : Adds (pure a) := by
  intro E out E' h
  cases h
  exact ⟨.refl, nofun⟩

theorem agrees_pure (a : α) : Agrees (pure a) (pure a) := by
  intro E E' a1 F F' b h h'
  cases h
  cases h'
  rfl

variable {f : α → EnvM β} {x : EnvM α}

theorem Adds.bind (hx : Adds x) (hf : ∀ a, Adds (f a)) : Adds (x >>= f) := by
  intro E out E' h
  rw [Exec.on_bind] at h
  split at h
  · cases h
  · rename_i e E1 hx'
    cases h
    obtain ⟨hg, he⟩ := hx _ _ _ hx'
    exact ⟨hg, fun e' h' => by cases h'; exact he _ rfl⟩
  · rename_i a E1 hx'
    obtain ⟨hg, he⟩ := hf a _ _ _ h
    exact ⟨(hx _ _ _ hx').1.trans hg, he⟩

theorem ok_of_bind {E E' : TypeEnvs} {b : β} (h : (x >>= f).on E = some (.ok b, E')) :
    ∃ a E1, x.on E = some (.ok a, E1) ∧ (f a).on E1 = some (.ok b, E') := by
  rw [Exec.on_bind] at h
  split at h
  · cases h
  · cases h
  · rename_i a E1 hx
    exact ⟨a, E1, hx, h⟩

theorem Agrees.bind {x y : EnvM α} {f g : α → EnvM β} (hx : Agrees x y)
    (hf : ∀ a, Agrees (f a) (g a)) : Agrees (x >>= f) (y >>= g) := by
  intro E E' b F F' b' h h'
  obtain ⟨a, E1, hxa, hfb⟩ := ok_of_bind h
  obtain ⟨a', F1, hya, hgb⟩ := ok_of_bind h'
  obtain rfl := hx _ _ _ _ _ _ hxa hya
  exact hf a _ _ _ _ _ _ hfb hgb

theorem agrees_mapM {f g : α → EnvM β} (xs : List α) (h : ∀ x ∈ xs, Agrees (f x) (g x)) :
    Agrees (xs.mapM f) (xs.mapM g) := by
  induction xs with
  | nil => exact agrees_pure []
  | cons x xs ih =>
    rw [mapM_cons, mapM_cons]
    apply (h x mem_cons_self).bind
    intro y
    apply (ih fun z hz => h z (mem_cons_of_mem _ hz)).bind
    intro ys
    exact agrees_pure _

theorem ok_of_mapM {xs : List α} : ∀ {ys : List β} {E E' : TypeEnvs}, (xs.mapM f).on E = some (.ok ys, E') →
      List.Forall₂ (fun x y => ∃ F F', (f x).on F = some (.ok y, F')) xs ys := by
  induction xs with
  | nil =>
    intro ys E E' h
    cases h
    exact .nil
  | cons x xs ih =>
    intro ys E E' h
    rw [mapM_cons] at h
    obtain ⟨y, E1, hy, h⟩ := ok_of_bind h
    obtain ⟨ys', E2, hys, h⟩ := ok_of_bind h
    cases h
    exact .cons ⟨E, E1, hy⟩ (ih hys)

theorem adds_intern (t : Ty) : Adds (intern t) := by
  intro E out E' h
  simp only [Exec.on, intern] at h
  split_ifs at h <;> cases h
  · exact ⟨.refl, nofun⟩
  · exact ⟨.refl, fun e he => by cases he; rfl⟩
  · exact ⟨⟨prefix_append _ _, prefix_rfl⟩, nofun⟩

theorem ok_intern {t u : Ty} {E E' : TypeEnvs} (h : (intern t).on E = some (.ok u, E')) : u = t ∧ t ∈ E'.types := by
  simp only [Exec.on, intern] at h
  split_ifs at h with hm <;> cases h
  · exact ⟨rfl, hm⟩
  · exact ⟨rfl, by simp⟩

theorem agrees_intern (t : Ty) : Agrees (intern t) (intern t) := by
  intro E E' a F F' b h h'
  rw [(ok_intern h).1, (ok_intern h').1]

theorem adds_envOf (types : List Ty) (rows : List (List Index)) : Adds (envOf types rows) := by
  intro E out E' h
  simp only [Exec.on, envOf, internEnv] at h
  split_ifs at h <;> cases h
  · exact ⟨.refl, nofun⟩
  · exact ⟨.refl, fun e he => by cases he; rfl⟩
  · exact ⟨⟨prefix_rfl, prefix_append _ _⟩, nofun⟩

theorem ok_envOf {types : List Ty} {rows : List (List Index)} {env : TypeEnv} {E E' : TypeEnvs}
    (h : (envOf types rows).on E = some (.ok env, E')) : env = ⟨types, rows⟩ := by
  simp only [Exec.on, envOf, internEnv] at h
  split_ifs at h <;> cases h
  · rfl
  · rfl

theorem agrees_envOf (types : List Ty) (rows : List (List Index)) :
    Agrees (envOf types rows) (envOf types rows) := by
  intro E E' a F F' b h h'
  rw [ok_envOf h, ok_envOf h']

/-- A property of computations that those which close a type have when their parts have it. -/
structure Compositional (P : ∀ {α : Type}, EnvM α → Prop) : Prop where
  pure : ∀ {α : Type} (a : α), P (pure a)
  bind : ∀ {α β : Type} {x : EnvM α} {f : α → EnvM β}, P x → (∀ a, P (f a)) → P (x >>= f)
  stuck : ∀ {α : Type}, P (Exec.stuck : EnvM α)
  intern : ∀ t, P (intern t)
  envOf : ∀ types rows, P (envOf types rows)

namespace Compositional

variable {P : ∀ {α : Type}, EnvM α → Prop} (hP : Compositional P) {M : NamespaceRuntime}
  {close : TypeEnv → Index → EnvM Ty}

include hP

theorem mapM {f : α → EnvM β} (xs : List α) (h : ∀ x ∈ xs, P (f x)) : P (xs.mapM f) := by
  induction xs with
  | nil => exact hP.pure []
  | cons x xs ih =>
    rw [mapM_cons]
    refine hP.bind (h x mem_cons_self) fun y => ?_
    refine hP.bind (ih fun z hz => h z (mem_cons_of_mem _ hz)) fun ys => ?_
    exact hP.pure _

theorem parentArgs (hc : ∀ env ty, P (close env ty)) (entry : BcClass) (args : List Ty) :
    P (M.parentArgs close entry args) := by
  unfold NamespaceRuntime.parentArgs
  split_ifs
  · exact hP.bind (hP.envOf _ _) fun owner => hP.mapM _ fun ty _ => hc owner ty
  · exact hP.pure _
  · exact hP.pure _

theorem associated (hc : ∀ env ty, P (close env ty)) (conformance : BcConformance) (assoc : Index) (args : List Ty) :
    P (NamespaceRuntime.associated close conformance assoc args) := by
  unfold NamespaceRuntime.associated
  split
  · exact hP.intern _
  · exact hP.bind (hP.envOf _ _) fun owner => hc owner _

theorem project (hc : ∀ env ty, P (close env ty)) (interface assoc : Index) (steps : ℕ) :
    ∀ c args, P (M.project close interface assoc steps c args) := by
  induction steps with
  | zero =>
    intro c args
    unfold NamespaceRuntime.project
    split
    · exact hP.associated hc _ _ _
    · exact hP.intern _
  | succ steps ih =>
    intro c args
    unfold NamespaceRuntime.project
    split
    · exact hP.associated hc _ _ _
    · dsimp only
      split
      · exact hP.intern _
      · split_ifs
        · exact hP.intern _
        · exact hP.bind (hP.parentArgs hc _ _) fun args => ih _ args

theorem closeFrom (fuel : ℕ) : ∀ env ty, P (M.closeFrom fuel env ty) := by
  induction fuel with
  | zero => exact fun env ty => hP.stuck
  | succ fuel ih =>
    intro env ty
    unfold NamespaceRuntime.closeFrom
    split
    · exact hP.intern _
    · split
      · split
        · exact hP.pure _
        · exact hP.intern _
      · exact hP.bind (hP.mapM _ fun c _ => ih env c) fun cs => hP.intern _
      · refine hP.bind (ih env _) fun base => ?_
        split
        · exact hP.intern _
        · exact hP.project ih _ _ _ _ _

theorem ancestorFrom (fuel steps : ℕ) : ∀ c args anc, P (M.ancestorFrom fuel steps c args anc) := by
  induction steps with
  | zero =>
    intro c args anc
    unfold NamespaceRuntime.ancestorFrom
    split_ifs <;> exact hP.pure _
  | succ steps ih =>
    intro c args anc
    unfold NamespaceRuntime.ancestorFrom
    split_ifs
    · exact hP.pure _
    · dsimp only
      split
      · exact hP.pure _
      · split_ifs
        · exact hP.pure _
        · exact hP.pure _
        · exact hP.bind (hP.parentArgs (hP.closeFrom fuel) _ _) fun args => ih _ args anc

end Compositional

theorem compositional_adds : Compositional Adds where
  pure := adds_pure
  bind := Adds.bind
  stuck := fun E out E' h => by cases h
  intern := adds_intern
  envOf := adds_envOf

namespace NamespaceRuntime

variable {M : NamespaceRuntime} {close close' : TypeEnv → Index → EnvM Ty}

theorem agrees_parentArgs (hc : ∀ env ty, Agrees (close env ty) (close' env ty)) (entry : BcClass)
    (args : List Ty) : Agrees (M.parentArgs close entry args) (M.parentArgs close' entry args) := by
  unfold parentArgs
  split_ifs
  · exact (agrees_envOf _ _).bind fun owner => agrees_mapM _ fun ty _ => hc owner ty
  · exact agrees_pure _
  · exact agrees_pure _

theorem agrees_associated (hc : ∀ env ty, Agrees (close env ty) (close' env ty))
    (conformance : BcConformance) (assoc : Index) (args : List Ty) :
    Agrees (associated close conformance assoc args) (associated close' conformance assoc args) := by
  unfold associated
  split
  · exact agrees_intern _
  · exact (agrees_envOf _ _).bind fun owner => hc owner _

theorem agrees_project (hc : ∀ env ty, Agrees (close env ty) (close' env ty))
    (interface assoc : Index) (steps : ℕ) : ∀ c args, Agrees (M.project close interface assoc steps c args)
      (M.project close' interface assoc steps c args) := by
  induction steps with
  | zero =>
    intro c args
    unfold project
    split
    · exact agrees_associated hc _ _ _
    · exact agrees_intern _
  | succ steps ih =>
    intro c args
    unfold project
    split
    · exact agrees_associated hc _ _ _
    · dsimp only
      split
      · exact agrees_intern _
      · split_ifs
        · exact agrees_intern _
        · exact (agrees_parentArgs hc _ _).bind fun args => ih _ args

theorem agrees_closeFrom (fuel : ℕ) : ∀ fuel' env ty,
    Agrees (M.closeFrom fuel env ty) (M.closeFrom fuel' env ty) := by
  induction fuel with
  | zero =>
    intro fuel' env ty E E' a F F' b h
    cases h
  | succ fuel ih =>
    intro fuel' env ty
    cases fuel' with
    | zero =>
      intro E E' a F F' b _ h
      cases h
    | succ fuel' =>
      unfold closeFrom
      split
      · exact agrees_intern _
      · split
        · split
          · exact agrees_pure _
          · exact agrees_intern _
        · exact (agrees_mapM _ fun c _ => ih fuel' env c).bind fun cs => agrees_intern _
        · apply (ih fuel' env _).bind
          intro base
          split
          · exact agrees_intern _
          · exact agrees_project (ih fuel') _ _ _ _ _

theorem agrees_ancestorFrom (fuel fuel' steps : ℕ) : ∀ c args anc,
    Agrees (M.ancestorFrom fuel steps c args anc) (M.ancestorFrom fuel' steps c args anc) := by
  induction steps with
  | zero =>
    intro c args anc
    unfold ancestorFrom
    split_ifs <;> exact agrees_pure _
  | succ steps ih =>
    intro c args anc
    unfold ancestorFrom
    split_ifs
    · exact agrees_pure _
    · dsimp only
      split
      · exact agrees_pure _
      · split_ifs
        · exact agrees_pure _
        · exact agrees_pure _
        · exact (agrees_parentArgs (agrees_closeFrom fuel fuel') _ _).bind fun args => ih _ args anc

theorem ancestorFrom_ok {fuel steps : ℕ} {c anc : Index} {args result : List Ty} {E E' : TypeEnvs}
    (h : (M.ancestorFrom fuel steps c args anc).on E = some (.ok (some result), E')) :
    c = anc ∧ result = args ∨ ∃ n entry args' E1, steps = n + 1 ∧ M.classes[c.toNat]? = some entry ∧
      entry.parent ≠ noIndex ∧ (M.parentArgs (M.closeFrom fuel) entry args).on E = some (.ok args', E1) ∧
      (M.ancestorFrom fuel n entry.parent args' anc).on E1 = some (.ok (some result), E') := by
  unfold ancestorFrom at h
  split_ifs at h with hc
  · cases h
    exact .inl ⟨hc, rfl⟩
  · cases steps with
    | zero => cases h
    | succ n =>
      dsimp only at h
      split at h
      · cases h
      · rename_i entry he
        split_ifs at h with hp
        · cases h
        · cases h
        · obtain ⟨args', E1, ha, h⟩ := ok_of_bind h
          exact .inr ⟨n, entry, args', E1, rfl, he, hp, ha, h⟩

variable (M) in
def Closes (env : TypeEnv) (ty : Index) (t : Ty) : Prop :=
  ∃ fuel E E', (M.closeFrom fuel env ty).on E = some (.ok t, E')

theorem Closes.unique {env : TypeEnv} {ty : Index} {t u : Ty} (h : M.Closes env ty t)
    (h' : M.Closes env ty u) : t = u := by
  obtain ⟨fuel, E, E', h⟩ := h
  obtain ⟨fuel', F, F', h'⟩ := h'
  exact agrees_closeFrom fuel fuel' env ty _ _ _ _ _ _ h h'

variable (M) in
def Ancestor (c : Index) (args : List Ty) (ancestor : Index) (result : List Ty) : Prop :=
  ∃ fuel E E', (M.ancestorFrom fuel M.classes.length c args ancestor).on E = some (.ok (some result), E')

end NamespaceRuntime

end LoomV4.Closed
