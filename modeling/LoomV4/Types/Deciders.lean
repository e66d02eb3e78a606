import LoomV4.Types.Subtype

namespace LoomV4.Types

open List

variable {ρ : Type}

namespace Context

variable (C : Context ρ)

section Verifier

def arrowStep (fp ep : List ℕ) (fm em : List Bool) (fr er : ℕ) (frow erow : List ρ) :
    Option (List (ℕ × ℕ)) :=
  if fp.length ≠ ep.length || !mutsFit fm em || !C.included frow erow then none
  else some ((fp.zip ep).map (fun p => (p.2, p.1)) ++ [(fr, er)])

/-- One turn of the walk: `none` where the rules refuse the pair, or the pairs it pushes. -/
def step (f e : ℕ) : Option (List (ℕ × ℕ)) :=
  match C.nominal f, C.nominal e with
  | some (a, xs), some (b, ys) => if C.ancestorArgs a xs b = some ys then some [] else none
  | _, _ =>
    match C.types[f]?, C.types[e]? with
    | some (.class a), some (.class b) => if C.ancestorArgs a [] b = some [] then some [] else none
    | some (.class a), some (.inst b ys) => if C.ancestorArgs a [] b = some ys then some [] else none
    | some (.inst a xs), some (.class b) => if C.ancestorArgs a xs b = some [] then some [] else none
    | some (.inst a xs), some (.inst b ys) => if C.ancestorArgs a xs b = some ys then some [] else none
    | some (.tuple xs), some (.tuple ys) =>
      if xs.length ≠ ys.length then none else some (xs.zip ys)
    | some (.fn fp fm fr frow), some (.fn ep em er erow) => C.arrowStep fp ep fm em fr er frow erow
    | some (.callback fp fm fr frow), some (.callback ep em er erow) =>
      C.arrowStep fp ep fm em fr er frow erow
    | _, _ => none

def isSubtypeFrom : ℕ → List (ℕ × ℕ) → List (ℕ × ℕ) → Option Bool
  | _, [], _ => some true
  | 0, _ :: _, _ => none
  | turns + 1, (f, e) :: work, seen =>
    if f = e ∨ (f, e) ∈ seen then isSubtypeFrom turns work seen
    else match C.step f e with
      | none => some false
      | some pairs => isSubtypeFrom turns (pairs.reverse ++ work) ((f, e) :: seen)

end Verifier

section Checker

abbrev Memo := List ((ℕ × ℕ) × Bool)

def classExtendsFrom (classes : List ClassMeta) : ℕ → ℕ → ℕ → Bool
  | 0, cur, ancestor => cur = ancestor
  | steps + 1, cur, ancestor =>
    cur = ancestor || match classes[cur]?.bind ClassMeta.parent with
      | some parent => classExtendsFrom classes steps parent ancestor
      | none => false

def both (x : StateM Memo Bool) (y : StateM Memo Bool) : StateM Memo Bool := do
  if ← x then y else pure false

def every (f : ℕ × ℕ → StateM Memo Bool) : List (ℕ × ℕ) → StateM Memo Bool
  | [] => pure true
  | p :: ps => both (f p) (every f ps)

def arrowCompatible (compatible : ℕ → ℕ → StateM Memo Bool) (fp ep : List ℕ) (fm em : List Bool)
    (fr er : ℕ) (frow erow : List ρ) : StateM Memo Bool :=
  both (pure (fp.length = ep.length))
    (both (every (fun p => compatible p.1 p.2) (fp.zip ep))
      (both (pure (mutsFit fm em))
        (both (compatible er fr) (pure (C.included frow erow)))))

def memoised (expected found : ℕ) (x : StateM Memo Bool) : StateM Memo Bool := fun memo =>
  match memo.lookup (expected, found) with
  | some hit => (hit, memo)
  | none => ((x memo).1, ((expected, found), (x memo).1) :: (x memo).2)

def compare (compatible : ℕ → ℕ → StateM Memo Bool) (expected found : ℕ) : StateM Memo Bool :=
  match C.nominal found, C.nominal expected with
  | some (a, xs), some (b, ys) => pure (C.ancestorArgs a xs b = some ys)
  | _, _ =>
    match C.types[found]?, C.types[expected]? with
    | some (.class a), some (.class b) => pure (classExtendsFrom C.classes C.classes.length a b)
    | some (.class a), some (.inst b ys) => pure (C.ancestorArgs a [] b = some ys)
    | some (.inst a xs), some (.class b) => pure (C.ancestorArgs a xs b = some [])
    | some (.inst a xs), some (.inst b ys) => pure (C.ancestorArgs a xs b = some ys)
    | some (.tuple xs), some (.tuple ys) =>
      both (pure (xs.length = ys.length)) (every (fun p => compatible p.2 p.1) (xs.zip ys))
    | some (.fn fp fm fr frow), some (.fn ep em er erow) =>
      C.arrowCompatible compatible fp ep fm em fr er frow erow
    | some (.callback fp fm fr frow), some (.callback ep em er erow) =>
      C.arrowCompatible compatible fp ep fm em fr er frow erow
    | _, _ => pure false

def compatibleFrom : ℕ → ℕ → ℕ → StateM Memo Bool
  | 0, _, _ => pure false
  | depth + 1, expected, found =>
    if found = expected || C.bottom found then pure true
    else memoised expected found (C.compare (compatibleFrom depth) expected found)

def compatible (expected found : ℕ) : StateM Memo Bool :=
  C.compatibleFrom (found + expected + 1) expected found

end Checker

section Steps

variable {C}

variable {ps : List (ℕ × ℕ)}

variable {frow erow : List ρ} {fm em : List Bool} {fp ep : List ℕ} {fr er : ℕ}

theorem arrowStep_eq_some : C.arrowStep fp ep fm em fr er frow erow = some ps ↔
      (fp.length = ep.length ∧ mutsFit fm em ∧ C.included frow erow) ∧
        ps = (fp.zip ep).map (fun p => (p.2, p.1)) ++ [(fr, er)] := by
  unfold arrowStep
  split
  · rename_i h
    simp only [Bool.or_eq_true, decide_eq_true_eq, Bool.not_eq_true'] at h
    constructor
    · nofun
    · rintro ⟨⟨h1, h2, h3⟩, -⟩
      simp [h1, h2, h3] at h
  · rename_i h
    simp only [Bool.or_eq_true, decide_eq_true_eq, Bool.not_eq_true', not_or, ne_eq, not_not, Bool.not_eq_false] at h
    simp [h.1.1, h.1.2, h.2, eq_comm]

variable {f e : ℕ}

theorem sub_of_arrowStep {sf se : Shape ρ} {callback : Bool} (hf : C.types[f]? = some sf) (he : C.types[e]? = some se)
    (hsf : sf.arrow? = some (callback, fp, fm, fr, frow)) (hse : se.arrow? = some (callback, ep, em, er, erow))
    (h : C.arrowStep fp ep fm em fr er frow erow = some ps) (hps : ∀ p ∈ ps, C.Sub p.1 p.2) : C.Sub f e := by
  obtain ⟨⟨hl, hm, hr⟩, rfl⟩ := arrowStep_eq_some.mp h
  refine .arrow hf he hsf hse hl (fun p hp => ?_) hm (hps (fr, er) (by simp)) hr
  exact hps (p.2, p.1) (mem_append_left _ (List.mem_map_of_mem hp))

theorem sub_of_step (h : C.step f e = some ps) (hps : ∀ p ∈ ps, C.Sub p.1 p.2) : C.Sub f e := by
  unfold step at h
  split at h
  · rename_i a xs b ys hf he
    split at h
    · rename_i ha
      exact .nominal hf he ha
    · cases h
  · rename_i hn
    -- the class types have a nominal class, so that these arms are not reached
    split at h
    case h_1 a b hf he =>
      exact absurd (by simp [nominal, he, nominalOf]) (hn a [] b [] (by simp [nominal, hf, nominalOf]))
    case h_2 a b ys hf he =>
      exact absurd (by simp [nominal, he, nominalOf]) (hn a [] b ys (by simp [nominal, hf, nominalOf]))
    case h_3 a xs b hf he =>
      exact absurd (by simp [nominal, he, nominalOf]) (hn a xs b [] (by simp [nominal, hf, nominalOf]))
    case h_4 a xs b ys hf he =>
      exact absurd (by simp [nominal, he, nominalOf]) (hn a xs b ys (by simp [nominal, hf, nominalOf]))
    case h_5 xs ys hf he =>
      split at h
      · cases h
      rename_i hl
      have hl : xs.length = ys.length := not_ne_iff.mp hl
      obtain rfl := Option.some.inj h
      refine .tuple hf he hl ?_ hps
      cases hp : C.pins.tuple xs.length with
      | none => rfl
      | some c =>
        exact absurd (by simp [nominal_tuple he, ← hl, hp])
          (hn c xs c ys (by simp [nominal_tuple hf, hp]))
    case h_6 hf he => exact sub_of_arrowStep hf he rfl rfl h hps
    case h_7 hf he => exact sub_of_arrowStep hf he rfl rfl h hps
    case h_8 => cases h

variable {params : List ℕ} {muts : List Bool} {row : List ρ} {s : Shape ρ} {ret : ℕ}

theorem eq_fn_of_arrow (h : s.arrow? = some (false, params, muts, ret, row)) : s = .fn params muts ret row := by
  cases s <;> simp_all [Shape.arrow?]

theorem eq_callback_of_arrow (h : s.arrow? = some (true, params, muts, ret, row)) : s = .callback params muts ret row := by
  cases s <;> simp_all [Shape.arrow?]

theorem exists_step_of_sub (hne : f ≠ e) (hb : ¬ C.bottom f) (h : C.Sub f e) :
    ∃ ps, C.step f e = some ps ∧ ∀ p ∈ ps, C.Sub p.1 p.2 := by
  cases h with
  | refl => exact absurd rfl hne
  | bottom h => exact absurd h hb
  | nominal hf he h => exact ⟨[], by simp [step, hf, he, h], by simp⟩
  | @tuple _ _ xs ys hf he hl hi h =>
    have hnf : C.nominal f = none := by simp [nominal_tuple hf, hi]
    exact ⟨xs.zip ys, by simp [step, hnf, hf, he, hl], h⟩
  | @arrow _ _ sf se callback fp ep fm em fr er frow erow hf he hsf hse hl hp hm hr ho =>
    have hnf : C.nominal f = none := nominal_arrow hf (by simp [hsf])
    have ha : C.arrowStep fp ep fm em fr er frow erow = some _ :=
      arrowStep_eq_some.mpr ⟨⟨hl, hm, ho⟩, rfl⟩
    refine ⟨(fp.zip ep).map (fun p => (p.2, p.1)) ++ [(fr, er)], ?_, ?_⟩
    · cases callback with
      | false =>
        obtain rfl := eq_fn_of_arrow hsf
        obtain rfl := eq_fn_of_arrow hse
        simpa [step, hnf, hf, he] using ha
      | true =>
        obtain rfl := eq_callback_of_arrow hsf
        obtain rfl := eq_callback_of_arrow hse
        simpa [step, hnf, hf, he] using ha
    · intro p hp'
      rcases mem_append.mp hp' with hp' | hp'
      · obtain ⟨q, hq, rfl⟩ := List.mem_map.mp hp'
        exact hp q hq
      · obtain rfl := mem_singleton.mp hp'
        exact hr

theorem step_below (hC : C.Formed) (h : C.step f e = some ps) : ∀ p ∈ ps, p.1 + p.2 < f + e := by
  have arrow : ∀ {sf se : Shape ρ} {callback : Bool} {fp ep : List ℕ} {fm em : List Bool}
      {fr er : ℕ} {frow erow : List ρ}, C.types[f]? = some sf → C.types[e]? = some se →
      sf.arrow? = some (callback, fp, fm, fr, frow) → se.arrow? = some (callback, ep, em, er, erow) →
      C.arrowStep fp ep fm em fr er frow erow = some ps → ∀ p ∈ ps, p.1 + p.2 < f + e := by
    intro sf se callback fp ep fm em fr er frow erow hf he hsf hse h p hp
    obtain ⟨-, rfl⟩ := arrowStep_eq_some.mp h
    obtain ⟨bf, hfr⟩ := hC.arrow_below hf hsf
    obtain ⟨be, her⟩ := hC.arrow_below he hse
    rcases mem_append.mp hp with hp | hp
    · obtain ⟨q, hq, rfl⟩ := List.mem_map.mp hp
      obtain ⟨h1, h2⟩ := zip_below bf be hq
      dsimp only
      omega
    · obtain rfl := mem_singleton.mp hp
      dsimp only
      omega
  unfold step at h
  split at h
  · split at h
    · obtain rfl := Option.some.inj h
      simp
    · cases h
  · split at h
    case h_5 xs ys hf he =>
      split at h
      · cases h
      obtain rfl := Option.some.inj h
      intro p hp
      have h1 := hC.below f _ hf p.1 (of_mem_zip hp).1
      have h2 := hC.below e _ he p.2 (of_mem_zip hp).2
      omega
    case h_6 hf he => exact arrow hf he rfl rfl h
    case h_7 hf he => exact arrow hf he rfl rfl h
    case h_8 => cases h
    all_goals
      split at h
      · obtain rfl := Option.some.inj h
        simp
      · cases h

end Steps

section Walk

variable {C}

def Covered (seen : List (ℕ × ℕ)) (p : ℕ × ℕ) : Prop :=
  p.1 = p.2 ∨ p ∈ seen

theorem not_sub_of_false (hb : ∀ t, ¬ C.bottom t) (turns : ℕ) : ∀ work seen,
    C.isSubtypeFrom turns work seen = some false → ∃ p ∈ work, ¬ C.Sub p.1 p.2 := by
  induction turns with
  | zero =>
    intro work seen h
    cases work with
    | nil => simp [isSubtypeFrom] at h
    | cons p work => simp [isSubtypeFrom] at h
  | succ turns ih =>
    intro work seen h
    cases work with
    | nil => simp [isSubtypeFrom] at h
    | cons p work =>
      obtain ⟨f, e⟩ := p
      simp only [isSubtypeFrom] at h
      split at h
      · obtain ⟨p, hp, hs⟩ := ih _ _ h
        exact ⟨p, mem_cons_of_mem _ hp, hs⟩
      rename_i hn
      cases ht : C.step f e with
      | none =>
        refine ⟨(f, e), mem_cons_self, fun hs => ?_⟩
        obtain ⟨ps, hps, -⟩ := exists_step_of_sub (fun h => hn (.inl h)) (hb f) hs
        rw [ht] at hps
        cases hps
      | some ps =>
        rw [ht] at h
        obtain ⟨p, hp, hs⟩ := ih _ _ h
        rcases mem_append.mp hp with hp | hp
        · refine ⟨(f, e), mem_cons_self, fun hfe => hs ?_⟩
          obtain ⟨ps', hps', ha⟩ := exists_step_of_sub (fun h => hn (.inl h)) (hb f) hfe
          obtain rfl := Option.mem_unique ht hps'
          exact ha p (mem_reverse.mp hp)
        · exact ⟨p, mem_cons_of_mem _ hp, hs⟩

theorem exists_closed_of_true (turns : ℕ) : ∀ work seen, C.isSubtypeFrom turns work seen = some true →
    (∀ p ∈ seen, ∃ ps, C.step p.1 p.2 = some ps ∧ ∀ q ∈ ps, Covered seen q ∨ q ∈ work) →
    ∃ all, (∀ p, p ∈ work ∨ p ∈ seen → Covered all p) ∧
      ∀ p ∈ all, ∃ ps, C.step p.1 p.2 = some ps ∧ ∀ q ∈ ps, Covered all q := by
  induction turns with
  | zero =>
    intro work seen h hs
    cases work with
    | nil => exact ⟨seen, fun p hp => .inr (hp.resolve_left not_mem_nil), by simpa using hs⟩
    | cons p work => simp [isSubtypeFrom] at h
  | succ turns ih =>
    intro work seen h hs
    cases work with
    | nil => exact ⟨seen, fun p hp => .inr (hp.resolve_left not_mem_nil), by simpa using hs⟩
    | cons p work =>
      obtain ⟨f, e⟩ := p
      simp only [isSubtypeFrom] at h
      split at h
      · rename_i hold
        have hc : Covered seen (f, e) := hold
        obtain ⟨all, hw, ha⟩ := ih work seen h fun p hp => by
          obtain ⟨ps, hps, hq⟩ := hs p hp
          refine ⟨ps, hps, fun q hqs => ?_⟩
          rcases hq q hqs with hq | hq
          · exact .inl hq
          · rcases mem_cons.mp hq with rfl | hq
            · exact .inl hc
            · exact .inr hq
        refine ⟨all, fun p hp => ?_, ha⟩
        rcases hp with hp | hp
        · rcases mem_cons.mp hp with rfl | hp
          · exact hc.elim .inl fun h => hw _ (.inr h)
          · exact hw p (.inl hp)
        · exact hw p (.inr hp)
      · cases ht : C.step f e with
        | none =>
          rw [ht] at h
          cases h
        | some ps =>
          rw [ht] at h
          obtain ⟨all, hw, ha⟩ := ih _ _ h fun p hp => by
            rcases mem_cons.mp hp with rfl | hp
            · exact ⟨ps, ht, fun q hq =>
                .inr (mem_append_left _ (mem_reverse.mpr hq))⟩
            · obtain ⟨ps', hps', hq⟩ := hs p hp
              refine ⟨ps', hps', fun q hqs => ?_⟩
              rcases hq q hqs with hq | hq
              · exact .inl (hq.imp_right (mem_cons_of_mem _))
              · rcases mem_cons.mp hq with rfl | hq
                · exact .inl (.inr mem_cons_self)
                · exact .inr (mem_append_right _ hq)
          refine ⟨all, fun p hp => ?_, ha⟩
          rcases hp with hp | hp
          · rcases mem_cons.mp hp with rfl | hp
            · exact hw _ (.inr mem_cons_self)
            · exact hw p (.inl (mem_append_right _ hp))
          · exact hw p (.inr (mem_cons_of_mem _ hp))

theorem sub_of_closed (hC : C.Formed) {all : List (ℕ × ℕ)}
    (ha : ∀ p ∈ all, ∃ ps, C.step p.1 p.2 = some ps ∧ ∀ q ∈ ps, Covered all q) (N : ℕ) :
    ∀ p, Covered all p → p.1 + p.2 ≤ N → C.Sub p.1 p.2 := by
  induction N with
  | zero =>
    intro p _ hN
    obtain ⟨h1, h2⟩ : p.1 = 0 ∧ p.2 = 0 := by omega
    rw [h1, h2]
    exact .refl 0
  | succ N ih =>
    intro p hp hN
    rcases hp with hp | hp
    · rw [hp]
      exact .refl _
    · obtain ⟨ps, hps, hq⟩ := ha p hp
      exact sub_of_step hps fun q hqs =>
        ih q (hq q hqs) (by have := step_below hC hps q hqs; omega)

variable (C) in
def weight : ℕ → ℕ × ℕ → ℕ
  | 0, _ => 1
  | depth + 1, p => 1 + match C.step p.1 p.2 with
    | none => 0
    | some ps => (ps.map (weight depth)).sum

theorem weight_succ (hC : C.Formed) (n : ℕ) : ∀ p : ℕ × ℕ, p.1 + p.2 < n → C.weight (n + 1) p = C.weight n p := by
  induction n with
  | zero => nofun
  | succ n ih =>
    intro p hp
    rw [weight, weight]
    congr 1
    cases hs : C.step p.1 p.2 with
    | none => rfl
    | some ps =>
      dsimp only
      congr 1
      apply map_congr_left
      intro q hq
      have := step_below hC hs q hq
      exact ih q (by omega)

theorem weight_pos (n : ℕ) (p : ℕ × ℕ) : 1 ≤ C.weight n p := by
  cases n with
  | zero => exact Nat.le_refl 1
  | succ n => exact Nat.le_add_right 1 _

theorem walk_ends (hC : C.Formed) (n turns : ℕ) : ∀ work seen, (∀ p ∈ work, p.1 + p.2 < n) →
    (work.map (C.weight n)).sum ≤ turns → ∃ b, C.isSubtypeFrom turns work seen = some b := by
  induction turns with
  | zero =>
    intro work seen _ hu
    cases work with
    | nil => exact ⟨true, rfl⟩
    | cons p work =>
      have := weight_pos (C := C) n p
      simp only [map_cons, sum_cons] at hu
      omega
  | succ turns ih =>
    intro work seen hb hu
    cases work with
    | nil => exact ⟨true, rfl⟩
    | cons p work =>
      obtain ⟨f, e⟩ := p
      have ho := weight_pos (C := C) n (f, e)
      have hr : ∀ p ∈ work, p.1 + p.2 < n := fun p hp => hb p (mem_cons_of_mem _ hp)
      have hfe : f + e < n := hb (f, e) mem_cons_self
      simp only [map_cons, sum_cons] at hu
      simp only [isSubtypeFrom]
      split
      · exact ih work seen hr (by omega)
      cases hs : C.step f e with
      | none => exact ⟨false, rfl⟩
      | some ps =>
        have hps : ∀ p ∈ ps, p.1 + p.2 < n := fun p hp => by
          have := step_below hC hs p hp
          omega
        obtain ⟨m, rfl⟩ : ∃ m, n = m + 1 := ⟨n - 1, by omega⟩
        have hw : C.weight (m + 1) (f, e) = 1 + (ps.map (C.weight (m + 1))).sum := by
          rw [weight, hs]
          congr 1
          dsimp only
          congr 1
          apply map_congr_left
          intro p hp
          have := step_below hC hs p hp
          exact (weight_succ hC m p (by omega)).symm
        apply ih
        · intro p hp
          rcases mem_append.mp hp with hp | hp
          · exact hps p (mem_reverse.mp hp)
          · exact hr p hp
        · simp only [map_append, map_reverse, sum_append, sum_reverse]
          omega

variable (C) in
def isSubtype (found expected : ℕ) : Option Bool :=
  C.isSubtypeFrom (C.weight (found + expected + 1) (found, expected)) [(found, expected)] []

theorem isSubtype_spec (hC : C.Formed) (hb : ∀ t, ¬ C.bottom t) (f e : ℕ) :
    ∃ b, C.isSubtype f e = some b ∧ (b = true ↔ C.Sub f e) := by
  obtain ⟨b, hr⟩ := walk_ends hC (f + e + 1) (C.weight (f + e + 1) (f, e)) [(f, e)] []
    (by simp) (by simp)
  refine ⟨b, hr, ?_⟩
  cases b with
  | false =>
    obtain ⟨p, hp, hs⟩ := not_sub_of_false hb _ _ _ hr
    obtain rfl := mem_singleton.mp hp
    simpa using hs
  | true =>
    obtain ⟨all, hw, ha⟩ := exists_closed_of_true _ _ _ hr nofun
    simpa using sub_of_closed hC ha (f + e) (f, e) (hw _ (.inl mem_cons_self))
      (Nat.le_refl _)

end Walk

section Memoised

variable {C}

def Holds (C : Context ρ) (memo : Memo) : Prop :=
  ∀ expected found answer, memo.lookup (expected, found) = some answer →
    (answer = true ↔ C.Sub found expected)

def Decides (C : Context ρ) (x : StateM Memo Bool) (P : Prop) : Prop :=
  ∀ memo, Holds C memo → ((x memo).1 = true ↔ P) ∧ Holds C (x memo).2

variable {P : Prop}

theorem decides_pure {b : Bool} (h : b = true ↔ P) : Decides C (pure b) P :=
  fun _ hm => ⟨h, hm⟩

variable {x : StateM Memo Bool}

theorem Decides.both {y : StateM Memo Bool} {Q : Prop} (hx : Decides C x P)
    (hy : Decides C y Q) : Decides C (Context.both x y) (P ∧ Q) := by
  intro memo hm
  obtain ⟨hxb, hxm⟩ := hx memo hm
  rcases hr : x memo with ⟨b, memo'⟩
  rw [hr] at hxb hxm
  cases b with
  | false =>
    have hb : Context.both x y memo = (false, memo') := by
      simp only [Context.both, bind, StateT.bind, hr]
      rfl
    rw [hb]
    exact ⟨⟨fun h => absurd h Bool.false_ne_true, fun h => hxb.mpr h.1⟩, hxm⟩
  | true =>
    have hb : Context.both x y memo = y memo' := by
      simp [Context.both, bind, StateT.bind, hr]
    obtain ⟨hyb, hym⟩ := hy memo' hxm
    rw [hb]
    exact ⟨hyb.trans ⟨fun h => ⟨hxb.mp rfl, h⟩, fun h => h.2⟩, hym⟩

theorem Decides.every {f : ℕ × ℕ → StateM Memo Bool} {P : ℕ × ℕ → Prop} {ps : List (ℕ × ℕ)}
    (h : ∀ p ∈ ps, Decides C (f p) (P p)) : Decides C (Context.every f ps) (∀ p ∈ ps, P p) := by
  induction ps with
  | nil => exact decides_pure (by simp)
  | cons p ps ih =>
    have := (h p mem_cons_self).both (ih fun q hq => h q (mem_cons_of_mem _ hq))
    simpa [Context.every] using this

theorem Decides.congr {Q : Prop} (hx : Decides C x P) (h : P ↔ Q) : Decides C x Q :=
  fun memo hm => ⟨(hx memo hm).1.trans h, (hx memo hm).2⟩

theorem Decides.memoised {e f : ℕ} (hx : Decides C x (C.Sub f e)) :
    Decides C (Context.memoised e f x) (C.Sub f e) := by
  intro memo he
  unfold Context.memoised
  split
  · rename_i hit hh
    exact ⟨he e f hit hh, he⟩
  · obtain ⟨hb, hm⟩ := hx memo he
    refine ⟨hb, fun e' f' answer h => ?_⟩
    by_cases hk : (e', f') = (e, f)
    · obtain ⟨rfl, rfl⟩ := Prod.mk.inj hk
      rw [lookup_cons_self] at h
      exact Option.some.inj h ▸ hb
    · rw [List.lookup_cons, beq_false_of_ne hk] at h
      exact hm e' f' answer h

theorem sub_iff_step {f e : ℕ} (hne : f ≠ e) (hb : ¬ C.bottom f) :
    C.Sub f e ↔ ∃ ps, C.step f e = some ps ∧ ∀ p ∈ ps, C.Sub p.1 p.2 :=
  ⟨exists_step_of_sub hne hb, fun ⟨_, h, hps⟩ => sub_of_step h hps⟩

variable {compatible : ℕ → ℕ → StateM Memo Bool}

theorem decides_arrow {fp ep : List ℕ} {fm em : List Bool}
    {fr er : ℕ} {frow erow : List ρ} (ha : ∀ p ∈ fp.zip ep, Decides C (compatible p.1 p.2) (C.Sub p.2 p.1))
    (he : Decides C (compatible er fr) (C.Sub fr er)) :
    Decides C (C.arrowCompatible compatible fp ep fm em fr er frow erow)
      (∃ ps, C.arrowStep fp ep fm em fr er frow erow = some ps ∧ ∀ p ∈ ps, C.Sub p.1 p.2) := by
  have all := Decides.both (decides_pure (C := C) (b := fp.length = ep.length) decide_eq_true_iff)
    ((Decides.every ha).both ((decides_pure (C := C) (b := mutsFit fm em) Iff.rfl).both
      (he.both (decides_pure (C := C) (b := C.included frow erow) Iff.rfl))))
  apply all.congr
  constructor
  · rintro ⟨hl, hp, hm, hr, ho⟩
    refine ⟨_, arrowStep_eq_some.mpr ⟨⟨hl, hm, ho⟩, rfl⟩, fun p hp' => ?_⟩
    rcases mem_append.mp hp' with hp' | hp'
    · obtain ⟨q, hq, rfl⟩ := List.mem_map.mp hp'
      exact hp q hq
    · obtain rfl := mem_singleton.mp hp'
      exact hr
  · rintro ⟨ps, hps, hal⟩
    obtain ⟨⟨hl, hm, ho⟩, rfl⟩ := arrowStep_eq_some.mp hps
    exact ⟨hl, fun p hp => hal (p.2, p.1) (mem_append_left _ (List.mem_map_of_mem hp)), hm,
      hal (fr, er) (by simp), ho⟩

theorem decides_ite [Decidable P] : Decides C (pure (decide P))
    (∃ ps : List (ℕ × ℕ), (if P then some [] else none) = some ps ∧ ∀ p ∈ ps, C.Sub p.1 p.2) := by
  apply decides_pure
  by_cases hP : P <;> simp [hP]

theorem decides_compare (hC : C.Formed) {e f : ℕ}
    (h : ∀ e' f', f' + e' < f + e → Decides C (compatible e' f') (C.Sub f' e')) :
    Decides C (C.compare compatible e f)
      (∃ ps, C.step f e = some ps ∧ ∀ p ∈ ps, C.Sub p.1 p.2) := by
  have arrow : ∀ {sf se : Shape ρ} {callback : Bool} {fp ep : List ℕ} {fm em : List Bool}
      {fr er : ℕ} {frow erow : List ρ}, C.types[f]? = some sf → C.types[e]? = some se →
      sf.arrow? = some (callback, fp, fm, fr, frow) → se.arrow? = some (callback, ep, em, er, erow) →
      Decides C (C.arrowCompatible compatible fp ep fm em fr er frow erow)
        (∃ ps, C.arrowStep fp ep fm em fr er frow erow = some ps ∧ ∀ p ∈ ps, C.Sub p.1 p.2) := by
    intro sf se callback fp ep fm em fr er frow erow hf he hsf hse
    obtain ⟨bf, hfr⟩ := hC.arrow_below hf hsf
    obtain ⟨be, her⟩ := hC.arrow_below he hse
    apply decides_arrow
    · intro p hp
      obtain ⟨h1, h2⟩ := zip_below bf be hp
      exact h p.1 p.2 (by omega)
    · exact h er fr (by omega)
  unfold compare step
  split
  · exact decides_ite
  · rename_i hn
    split
    case h_1 a b hf he =>
      exact absurd (by simp [nominal, he, nominalOf]) (hn a [] b [] (by simp [nominal, hf, nominalOf]))
    case h_2 => exact decides_ite
    case h_3 => exact decides_ite
    case h_4 => exact decides_ite
    case h_5 xs ys hf he =>
      have parts : ∀ p ∈ xs.zip ys, Decides C (compatible p.2 p.1) (C.Sub p.1 p.2) := fun p hp => by
        have h1 := hC.below f _ hf p.1 (of_mem_zip hp).1
        have h2 := hC.below e _ he p.2 (of_mem_zip hp).2
        exact h p.2 p.1 (by omega)
      have all := Decides.both
        (decides_pure (C := C) (b := xs.length = ys.length) decide_eq_true_iff) (Decides.every parts)
      apply all.congr
      by_cases hl : xs.length = ys.length <;> simp [hl]
    case h_6 hf he => exact arrow hf he rfl rfl
    case h_7 hf he => exact arrow hf he rfl rfl
    case h_8 => exact decides_pure (by simp)

/-- By the depth; the places of the two types bound it. -/
theorem decides_compatibleFrom (hC : C.Formed) (depth : ℕ) : ∀ e f, f + e < depth →
    Decides C (C.compatibleFrom depth e f) (C.Sub f e) := by
  induction depth with
  | zero => nofun
  | succ depth ih =>
    intro e f hlt
    unfold compatibleFrom
    split
    · rename_i h
      apply decides_pure
      simp only [true_iff]
      rcases Bool.or_eq_true_iff.mp h with h | h
      · rw [of_decide_eq_true h]
        exact .refl e
      · exact .bottom h
    · rename_i h
      simp only [Bool.or_eq_true, decide_eq_true_eq, not_or] at h
      apply Decides.memoised
      exact (decides_compare hC fun e' f' h' => ih e' f' (by omega)).congr
        (sub_iff_step h.1 h.2).symm

theorem decides_compatible (hC : C.Formed) (e f : ℕ) : Decides C (C.compatible e f) (C.Sub f e) :=
  decides_compatibleFrom hC (f + e + 1) e f (Nat.lt_succ_self _)

end Memoised

end Context

end LoomV4.Types
