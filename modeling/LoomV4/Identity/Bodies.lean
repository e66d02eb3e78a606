import LoomV4.Identity.Reads
import Mathlib.Algebra.BigOperators.Fin
import Mathlib.Algebra.Order.BigOperators.Group.Finset

namespace LoomV4.Identity.Env

open Lib Bytecode List Option

variable {E : Env} {state : HashState} {closures : List ℕ} {b b' : Bodies}

section

variable (b b')

def Kept : Prop :=
  ∀ f, ((b.done f).isSome ∨ ∃ e, (f, e) ∈ b.stack) → (b'.done f).isSome ∨ ∃ e, (f, e) ∈ b'.stack

variable (E state closures)

def Computed : Prop :=
  ∀ f, (b'.done f).isSome → (b.done f).isSome ∨ ∃ b₀ d, E.bodyDigestOf state closures b₀ f = some d

end

theorem bodyStep_cases (h : E.bodyStep state closures b = some b') (hs : b.stack ≠ []) :
    ∃ f e rest, b.stack = (f, e) :: rest ∧ (((b.done f).isSome ∧ b' = { b with stack := rest }) ∨
      (b.done f = none ∧ e = true ∧ ∃ d, E.bodyDigestOf state closures b f = some d ∧
        b' = { done := Function.update b.done f (some d), visiting := b.visiting.filter (· ≠ f), stack := rest }) ∨
      (b.done f = none ∧ e = false ∧ ∃ ts, E.makes f = some ts ∧ b' = { b with
          visiting := b.visiting ++ [f]
          stack := ((ts.filter fun t => E.graph.closureBody t ∧ state.bodyFinal t = none ∧
            t ∉ b.visiting ++ [f] ∧ b.done t = none).map (·, false)).reverse ++ (f, true) :: rest })) := by
  match ht : b.stack with
  | [] => exact absurd ht hs
  | (f, e) :: rest =>
    refine ⟨f, e, rest, rfl, ?_⟩
    rw [bodyStep, ht] at h
    dsimp only at h
    split_ifs at h with hd he
    · exact .inl ⟨hd, (some.inj h).symm⟩
    · obtain ⟨d, hd', rfl⟩ := map_eq_some_iff.mp h
      exact .inr (.inl ⟨by simpa using hd, he, d, hd', rfl⟩)
    · obtain ⟨ts, hts, rfl⟩ := map_eq_some_iff.mp h
      exact .inr (.inr ⟨by simpa using hd, by simpa using he, ts, hts, rfl⟩)

theorem bodyStep_kept (h : E.bodyStep state closures b = some b') (hs : b.stack ≠ []) :
    Kept b b' ∧ Computed E state closures b b' := by
  obtain ⟨f, e, rest, ht, ⟨hd, rfl⟩ | ⟨-, -, d, hd, rfl⟩ | ⟨-, -, ts, -, rfl⟩⟩ := bodyStep_cases h hs
  · refine ⟨fun g hg => ?_, fun g hg => .inl hg⟩
    rw [ht] at hg
    rcases hg with hg | ⟨e', hg⟩
    · exact .inl hg
    · rcases mem_cons.mp hg with hg | hg
      · cases hg
        exact .inl hd
      · exact .inr ⟨e', hg⟩
  · refine ⟨fun g hg => ?_, fun g hg => ?_⟩
    · by_cases hgf : g = f
      · exact .inl (by simp [hgf])
      · rw [ht] at hg
        simpa [Function.update_of_ne hgf, hgf] using hg
    · by_cases hgf : g = f
      · exact .inr ⟨b, d, hgf ▸ hd⟩
      · exact .inl (by simpa [Function.update_of_ne hgf] using hg)
  · refine ⟨fun g hg => ?_, fun g hg => .inl hg⟩
    rw [ht] at hg
    rcases hg with hg | ⟨e', hg⟩
    · exact .inl hg
    · rcases mem_cons.mp hg with hg | hg
      · cases hg
        exact .inr ⟨true, by simp⟩
      · exact .inr ⟨e', by simp [hg]⟩

theorem bodyLoop_kept {fuel : ℕ} (h : E.bodyLoop state closures fuel b = some b') :
    b'.stack = [] ∧ Kept b b' ∧ Computed E state closures b b' := by
  induction fuel generalizing b with
  | zero =>
    rw [bodyLoop] at h
    split_ifs at h with hs
    obtain rfl := some.inj h
    exact ⟨hs, fun _ hf => hf, fun _ hf => .inl hf⟩
  | succ fuel ih =>
    rw [bodyLoop] at h
    split_ifs at h with hs
    · obtain rfl := some.inj h
      exact ⟨hs, fun _ hf => hf, fun _ hf => .inl hf⟩
    · obtain ⟨b1, h1, h2⟩ := bind_eq_some_iff.mp h
      obtain ⟨hk1, hc1⟩ := bodyStep_kept h1 hs
      obtain ⟨hs', hk2, hc2⟩ := ih h2
      exact ⟨hs', fun f hf => hk2 f (hk1 f hf), fun f hf => (hc2 f hf).elim (hc1 f) .inr⟩

variable {done : ℕ → Option Hash}

theorem closureBodyDigests_done (h : E.closureBodyDigests state closures = some done) :
    ∀ f ∈ closures, (done f).isSome ∧ ∃ b0 d, E.bodyDigestOf state closures b0 f = some d := by
  obtain ⟨b, hb, rfl⟩ := map_eq_some_iff.mp h
  have key : ∀ (l : List ℕ) (b1 b2 : Bodies), (l.foldlM (fun (b : Bodies) f => if (b.done f).isSome then some b
      else E.bodyLoop state closures E.bodyTurns { b with stack := [(f, false)] }) b1) = some b2 →
      (∀ f ∈ l, (b2.done f).isSome) ∧ (∀ f, (b1.done f).isSome → (b2.done f).isSome) ∧
        Computed E state closures b1 b2 := by
    intro l
    induction l with
    | nil =>
      intro b1 b2 h
      obtain rfl := some.inj h
      exact ⟨by simp, fun _ h => h, fun _ h => .inl h⟩
    | cons f l ih =>
      intro b1 b2 h
      rw [foldlM_cons] at h
      obtain ⟨b3, h1, h2⟩ := bind_eq_some_iff.mp h
      have ht : (b3.done f).isSome ∧ (∀ g, (b1.done g).isSome → (b3.done g).isSome) ∧
          Computed E state closures b1 b3 := by
        split_ifs at h1 with hd
        · obtain rfl := some.inj h1
          exact ⟨hd, fun _ h => h, fun _ h => .inl h⟩
        · obtain ⟨hs, hk, hc⟩ := bodyLoop_kept h1
          have ho : ∀ g, ((b3.done g).isSome ∨ ∃ e, (g, e) ∈ b3.stack) → (b3.done g).isSome := by simp [hs]
          exact ⟨ho f (hk f (.inr ⟨false, by simp⟩)), fun g hg => ho g (hk g (.inl hg)), hc⟩
      obtain ⟨hl, hm, hc⟩ := ih b3 b2 h2
      refine ⟨fun g hg => ?_, fun g hg => hm g (ht.2.1 g hg), fun g hg => (hc g hg).elim (ht.2.2 g) .inr⟩
      rcases mem_cons.mp hg with rfl | hg
      · exact hm g ht.1
      · exact hl g hg
  obtain ⟨ha, -, hc⟩ := key _ _ _ hb
  intro f hf
  refine ⟨ha f hf, ?_⟩
  rcases hc f (ha f hf) with h | h
  · simp [noDigest] at h
  · exact h

section

variable (E state)

def Waits (f t : ℕ) : Prop :=
  ∃ ts, E.makes f = some ts ∧ t ∈ ts ∧ E.graph.closureBody t = true ∧ state.bodyFinal t = none

/-- The depth-first walk: the path is the expanded entries, and what an expanded body waits for is found, on the
path below it, or still above it on the stack. -/
structure Walking (P : ℕ → Prop) (b : Bodies) : Prop where
  path : ∀ g, g ∈ b.visiting ↔ (g, true) ∈ b.stack
  once : b.stack.Pairwise fun x y => y ≠ (x.1, true)
  waits : ∀ above f below, b.stack = above ++ (f, true) :: below → ∀ t, Waits E state f t →
    (b.done t).isSome ∨ (t, true) ∈ (f, true) :: below ∨ ∃ e, (t, e) ∈ above
  own : ∀ x ∈ b.stack, P x.1
  pending : ∀ f, (f, true) ∈ b.stack → b.done f = none

end

structure Walkable (E : Env) (state : HashState) (closures : List ℕ) (P : ℕ → Prop) : Prop where
  makes : ∀ f, P f → ∃ ts, E.makes f = some ts
  closed : ∀ f t, P f → Waits E state f t → P t
  digest : ∀ f (b : Bodies), P f → (∀ t, Waits E state f t → (b.done t).isSome ∨ t ∈ b.visiting) →
    ∃ d, E.bodyDigestOf state closures b f = some d

variable {P : ℕ → Prop}

theorem exists_bodyStep (hE : Walkable E state closures P) (h : Walking E state P b) (hs : b.stack ≠ []) :
    ∃ b', E.bodyStep state closures b = some b' := by
  match ha : b.stack with
  | [] => exact absurd ha hs
  | (f, e) :: rest =>
    have hP : P f := h.own (f, e) (by simp [ha])
    rw [bodyStep, ha]
    dsimp only
    split_ifs with hd he
    · exact ⟨_, rfl⟩
    · subst he
      obtain ⟨d, hd⟩ := hE.digest f b hP fun t ht => by
        rcases h.waits [] f rest ha t ht with h' | h' | ⟨_, h'⟩
        · exact .inl h'
        · exact .inr ((h.path t).mpr (ha ▸ h'))
        · cases h'
      exact ⟨_, by rw [hd]; rfl⟩
    · obtain ⟨ts, hts⟩ := hE.makes f hP
      exact ⟨_, by rw [hts]; rfl⟩

variable {f : ℕ} {rest : List (ℕ × Bool)}

theorem Walking.pop {e : Bool} {visiting : List ℕ}
    (h : Walking E state P b) (ha : b.stack = (f, e) :: rest) (hd : ∀ g, (b.done g).isSome → (done g).isSome)
    (hf : (done f).isSome) (hh : ∀ g, g ∈ visiting ↔ (g, true) ∈ rest)
    (hp : ∀ g, (g, true) ∈ rest → done g = none) : Walking E state P { done, visiting, stack := rest } := by
  refine ⟨hh, ?_, fun above g below hs t ht => ?_, fun x hx => h.own x (by simp [ha, hx]), hp⟩
  · have := h.once
    rw [ha] at this
    exact (pairwise_cons.mp this).2
  · have hr : rest = above ++ (g, true) :: below := hs
    rcases h.waits ((f, e) :: above) g below (by rw [ha, hr]; rfl) t ht with h' | h' | ⟨e', h'⟩
    · exact .inl (hd t h')
    · exact .inr (.inl h')
    · rcases mem_cons.mp h' with h' | h'
      · cases h'
        exact .inl hf
      · exact .inr (.inr ⟨e', h'⟩)

theorem Walking.not_expanded_below {e : Bool} (h : Walking E state P b)
    (hs : b.stack = (f, e) :: rest) : (f, true) ∉ rest := by
  have := h.once
  rw [hs] at this
  exact fun hf => (pairwise_cons.mp this).1 _ hf rfl

theorem split_right {α : Type} {xs ys above below : List α} {x : α} (h : xs ++ ys = above ++ x :: below) (hx : x ∉ xs) :
    ∃ above', above = xs ++ above' ∧ ys = above' ++ x :: below := by
  rcases append_eq_append_iff.mp h with ⟨l, rfl, hl⟩ | ⟨l, hl, hy⟩
  · exact ⟨l, rfl, hl⟩
  · cases l with
    | nil => exact ⟨[], by simpa using hl.symm, by simpa using hy.symm⟩
    | cons y l =>
      obtain ⟨rfl, -⟩ := List.cons.inj hy
      exact absurd (by simp [hl]) hx

theorem Walking.expand {ts : List ℕ} (hE : Walkable E state closures P)
    (h : Walking E state P b) (ha : b.stack = (f, false) :: rest) (hd : b.done f = none) (hts : E.makes f = some ts) :
    Walking E state P { b with
      visiting := b.visiting ++ [f]
      stack := ((ts.filter fun t => E.graph.closureBody t ∧ state.bodyFinal t = none ∧
        t ∉ b.visiting ++ [f] ∧ b.done t = none).map (·, false)).reverse ++ (f, true) :: rest } := by
  have hh : ∀ g, g ∈ b.visiting ++ [f] ↔ (g, true) ∈ (f, true) :: rest := by
    intro g
    rw [mem_append, h.path, ha]
    simp [or_comm]
  have hf : ∀ x : ℕ × Bool, x ∈ ((ts.filter fun t => E.graph.closureBody t ∧ state.bodyFinal t = none ∧
      t ∉ b.visiting ++ [f] ∧ b.done t = none).map (·, false)).reverse →
      x.2 = false ∧ x.1 ∉ b.visiting ++ [f] ∧ Waits E state f x.1 := by
    intro x hx
    obtain ⟨t, ht, rfl⟩ := List.mem_map.mp (mem_reverse.mp hx)
    obtain ⟨ht, hp⟩ := mem_filter.mp ht
    simp only [decide_eq_true_eq] at hp
    exact ⟨rfl, hp.2.2.1, ts, hts, ht, hp.1, hp.2.1⟩
  have ho := h.once
  rw [ha, pairwise_cons] at ho
  refine ⟨fun g => ?_, ?_, fun above g below hs t ht => ?_, fun x hx => ?_, fun g hg => ?_⟩
  · rw [hh, mem_append]
    exact ⟨.inr, fun hg => hg.resolve_left fun hg => by cases (hf _ hg).1⟩
  · refine pairwise_append.mpr ⟨Pairwise.imp_of_mem (fun _ hy _ hxy => ?_) (pairwise_of_forall (fun _ _ => trivial)),
      pairwise_cons.mpr ⟨fun y hy => ho.1 y hy, ho.2⟩, fun x hx y hy hxy => ?_⟩
    · cases (congrArg Prod.snd hxy).symm.trans (hf _ hy).1
    · exact (hf x hx).2.1 ((hh _).mpr (hxy ▸ hy))
  · obtain ⟨above', rfl, hs'⟩ := split_right hs fun hg => by cases (hf _ hg).1
    cases above' with
    | nil =>
      obtain ⟨hg, rfl⟩ := List.cons.inj hs'
      obtain ⟨rfl, -⟩ := Prod.mk.inj hg
      by_cases hd : (b.done t).isSome
      · exact .inl hd
      · by_cases hv : t ∈ b.visiting ++ [f]
        · exact .inr (.inl ((hh t).mp hv))
        · obtain ⟨ts', hts', hm, hb, hi⟩ := ht
          cases hts.symm.trans hts'
          refine .inr (.inr ⟨false, mem_append_left _ (mem_reverse.mpr (List.mem_map.mpr ⟨t, ?_, rfl⟩))⟩)
          exact mem_filter.mpr ⟨hm, by simpa [hb, hi, hv] using hd⟩
    | cons y above' =>
      obtain ⟨rfl, rfl⟩ := List.cons.inj hs'
      rcases h.waits ((f, false) :: above') g below (by rw [ha]; rfl) t ht with h' | h' | ⟨e', h'⟩
      · exact .inl h'
      · exact .inr (.inl h')
      · rcases mem_cons.mp h' with h' | h'
        · cases h'
          exact .inr (.inr ⟨true, by simp⟩)
        · exact .inr (.inr ⟨e', by simp [h']⟩)
  · have hPf : P f := h.own (f, false) (by simp [ha])
    rcases mem_append.mp hx with hx | hx
    · exact hE.closed f x.1 hPf (hf x hx).2.2
    · rcases mem_cons.mp hx with rfl | hx
      · exact hPf
      · exact h.own x (by simp [ha, hx])
  · rcases mem_append.mp hg with hg | hg
    · cases (hf _ hg).1
    · rcases mem_cons.mp hg with hg | hg
      · cases hg
        exact hd
      · exact h.pending g (by simp [ha, hg])

section

variable (E)

def weight (f : ℕ) : ℕ := ((E.makes f).getD []).length + 1

def left (b : Bodies) : ℕ :=
  b.stack.length + ∑ f ∈ (Finset.range E.module.funcs.length).filter fun f => b.done f = none ∧ f ∉ b.visiting, E.weight f

end

theorem sum_weight : ∑ f ∈ Finset.range E.module.funcs.length, E.weight f + 1 = E.bodyTurns := by
  have hm : (List.range E.module.funcs.length).map E.weight =
      E.module.funcs.map fun f => ((Func.instrs f).flatMap instrMakes).length + 1 := by
    apply ext_getElem?
    intro i
    rw [getElem?_map, getElem?_map]
    by_cases hi : i < E.module.funcs.length
    · simp [getElem?_range hi, getElem?_eq_getElem hi, weight, makes]
    · simp [getElem?_eq_none (not_lt.mp hi), getElem?_eq_none (l := List.range _) (by simpa using hi)]
  rw [bodyTurns, ← hm]
  rfl

theorem left_start : E.left { done, visiting := [], stack := [(f, false)] } ≤ E.bodyTurns := by
  rw [← sum_weight, left, Nat.add_comm]
  exact Nat.add_le_add_right (Finset.sum_le_sum_of_subset (Finset.filter_subset _ _)) 1

theorem makes_lt {ts : List ℕ} (h : E.makes f = some ts) : f < E.module.funcs.length := by
  obtain ⟨func, hf, -⟩ := map_eq_some_iff.mp h
  exact lt_of_getElem? hf

theorem left_decreases (h : Walking E state P b) (hp : E.bodyStep state closures b = some b') (hs : b.stack ≠ []) :
    E.left b' < E.left b := by
  obtain ⟨f, e, rest, ht, ⟨hd, rfl⟩ | ⟨hd, rfl, d, hd', rfl⟩ | ⟨hd, rfl, ts, hts, rfl⟩⟩ := bodyStep_cases hp hs
  · simp only [left, ht, length_cons]
    omega
  · have hfv : f ∈ b.visiting := (h.path f).mpr (by simp [ht])
    have ha : ((Finset.range E.module.funcs.length).filter fun g =>
        Function.update b.done f (some d) g = none ∧ g ∉ b.visiting.filter (· ≠ f)) =
        (Finset.range E.module.funcs.length).filter fun g => b.done g = none ∧ g ∉ b.visiting := by
      apply Finset.filter_congr
      intro g _
      by_cases hgf : g = f
      · simp [hgf, hfv]
      · simp [hgf]
    simp only [left, ht, length_cons, ha]
    omega
  · have hfv : f ∉ b.visiting := fun hf => h.not_expanded_below ht (by simpa [ht] using (h.path f).mp hf)
    have he : ((Finset.range E.module.funcs.length).filter fun g => b.done g = none ∧ g ∉ b.visiting ++ [f]) =
        ((Finset.range E.module.funcs.length).filter fun g => b.done g = none ∧ g ∉ b.visiting).erase f := by
      ext g
      simp only [Finset.mem_filter, Finset.mem_erase, mem_append, mem_singleton, not_or]
      tauto
    have hm : f ∈ (Finset.range E.module.funcs.length).filter fun g => b.done g = none ∧ g ∉ b.visiting := by
      simp [makes_lt hts, hd, hfv]
    have hu := Finset.sum_erase_add _ E.weight hm
    have hl := length_filter_le (fun t => decide (E.graph.closureBody t ∧ state.bodyFinal t = none ∧
      t ∉ b.visiting ++ [f] ∧ b.done t = none)) ts
    have hw : E.weight f = ts.length + 1 := by simp [weight, hts]
    simp only [left, ht, length_append, length_reverse, length_map, length_cons, he]
    omega

theorem Walking.step (hE : Walkable E state closures P) (h : Walking E state P b) (hs : b.stack ≠ [])
    (he : E.bodyStep state closures b = some b') : Walking E state P b' := by
  obtain ⟨f, e, rest, ht, ⟨hd, rfl⟩ | ⟨hd, rfl, d, hd', rfl⟩ | ⟨hd, rfl, ts, hts, rfl⟩⟩ := bodyStep_cases he hs
  · have hne : e = false := by
      cases e
      · rfl
      · rw [h.pending f (by simp [ht])] at hd
        cases hd
    refine h.pop ht (fun _ hg => hg) hd (fun g => ?_) fun g hg => h.pending g (by simp [ht, hg])
    rw [h.path, ht, hne]
    simp
  · have hn := h.not_expanded_below ht
    refine h.pop ht (fun g hg => ?_) (by simp) (fun g => ?_) fun g hg => ?_
    · by_cases hgf : g = f
      · simp [hgf]
      · simpa [Function.update_of_ne hgf] using hg
    · rw [mem_filter, h.path, ht]
      by_cases hgf : g = f
      · simp [hgf, hn]
      · simp [hgf]
    · have hgf : g ≠ f := fun hgf => hn (hgf ▸ hg)
      rw [Function.update_of_ne hgf]
      exact h.pending g (by simp [ht, hg])
  · exact h.expand hE ht hd hts

theorem exists_bodyLoop (hE : Walkable E state closures P) {fuel : ℕ} (h : Walking E state P b) (hf : E.left b ≤ fuel) :
    ∃ b', E.bodyLoop state closures fuel b = some b' ∧ Walking E state P b' := by
  induction fuel generalizing b with
  | zero =>
    have hs : b.stack = [] := by
      simp only [left] at hf
      exact length_eq_zero_iff.mp (by omega)
    exact ⟨b, by simp [bodyLoop, hs], h⟩
  | succ fuel ih =>
    by_cases hs : b.stack = []
    · exact ⟨b, by simp [bodyLoop, hs], h⟩
    · obtain ⟨b1, h1⟩ := exists_bodyStep hE h hs
      have hlt := left_decreases h h1 hs
      obtain ⟨b2, h2, hw⟩ := ih (h.step hE hs h1) (by omega)
      exact ⟨b2, by rw [bodyLoop, if_neg hs, h1, bind_some, h2], hw⟩

theorem exists_closureBodyDigests (hE : Walkable E state closures P) (hP : ∀ f ∈ closures, P f) :
    ∃ done, E.closureBodyDigests state closures = some done := by
  obtain ⟨b, hb, -⟩ := @exists_foldlM _ _ closures (fun (b : Bodies) f => if (b.done f).isSome then some b
      else E.bodyLoop state closures E.bodyTurns { b with stack := [(f, false)] }) (fun _ b => b.visiting = [])
      { done := noDigest, visiting := [], stack := [] } (by
    intro xs f b hp hv
    split_ifs with hd
    · exact ⟨b, rfl, hv⟩
    · have hw : Walking E state P { b with stack := [(f, false)] } := by
        refine ⟨by simp [hv], by simp, fun above g below hs => ?_, ?_, by simp⟩
        · have hs : [(f, false)] = above ++ (g, true) :: below := hs
          have : (g, true) ∈ [(f, false)] := by simp [hs]
          simp at this
        · simpa using hP f (hp.subset (by simp))
      have hl : E.left { b with stack := [(f, false)] } ≤ E.bodyTurns := by
        rw [hv]
        exact left_start
      obtain ⟨b', hb', hw'⟩ := exists_bodyLoop hE hw hl
      refine ⟨b', hb', eq_nil_iff_forall_not_mem.mpr fun g hg => ?_⟩
      rw [hw'.path, (bodyLoop_kept hb').1] at hg
      cases hg) rfl
  exact ⟨b.done, by rw [closureBodyDigests, hb]; rfl⟩

end LoomV4.Identity.Env
