import Mathlib.Data.List.Basic

namespace LoomV4.Lib

open List Option

theorem lt_of_getElem? {α : Type*} {l : List α} {i : ℕ} {a : α} (h : l[i]? = some a) : i < l.length :=
  (List.getElem?_eq_some_iff.mp h).1

variable {α σ : Type}

/-- Every step of a left fold starts in a state that meets the condition of that step. -/
def Along (P : σ → α → Prop) (f : σ → α → σ) : List α → σ → Prop
  | [], _ => True
  | a :: l, s => P s a ∧ Along P f l (f s a)

variable {P : σ → α → Prop}

theorem Along.take {f : σ → α → σ} {l : List α} {s : σ} (h : Along P f l s) (n : ℕ) : Along P f (l.take n) s := by
  induction l generalizing s n with
  | nil => simpa using h
  | cons a l ih =>
    cases n with
    | zero => trivial
    | succ n => exact ⟨h.1, ih h.2 n⟩

theorem foldl_consumes {I : List α → σ → Prop} {f : σ → α → σ}
    (step : ∀ a l s, I (a :: l) s → P s a → I l (f s a)) (l : List α) (s : σ)
    (h : I l s) (hp : Along P f l s) : I [] (l.foldl f s) := by
  induction l generalizing s with
  | nil => exact h
  | cons a l ih => exact ih _ (step a l s h hp.1) hp.2

variable {I : σ → Prop}

theorem foldl_keeps {f : σ → α → σ} (step : ∀ s a, I s → P s a → I (f s a)) (l : List α) (s : σ)
    (h : I s) (hp : Along P f l s) : I (l.foldl f s) :=
  foldl_consumes (I := fun _ => I) (fun a _ s hs ha => step s a hs ha) l s h hp

/-- As `Along`, for steps that can fail: nothing is asked after a failure. -/
def AlongM (P : σ → α → Prop) (f : σ → α → Option σ) : List α → σ → Prop
  | [], _ => True
  | a :: l, s => P s a ∧ ∀ s', f s a = some s' → AlongM P f l s'

variable {f : σ → α → Option σ}

instance AlongM.decidable [∀ s a, Decidable (P s a)] : (l : List α) → (s : σ) → Decidable (AlongM P f l s)
  | [], _ => .isTrue trivial
  | a :: l, s =>
    match h : f s a with
    | none => decidable_of_iff (P s a) ⟨fun hp => ⟨hp, fun _ hs => by rw [h] at hs; cases hs⟩, And.left⟩
    | some s' =>
      have := AlongM.decidable l s'
      decidable_of_iff (P s a ∧ AlongM P f l s')
        ⟨fun hp => ⟨hp.1, fun _ hs => some.inj (h.symm.trans hs) ▸ hp.2⟩, fun hp => ⟨hp.1, hp.2 s' h⟩⟩

theorem AlongM.mono {Q : σ → α → Prop} (hpq : ∀ s a, P s a → Q s a) {l : List α} {s : σ} (h : AlongM P f l s) :
    AlongM Q f l s := by
  induction l generalizing s with
  | nil => trivial
  | cons a l ih => exact ⟨hpq s a h.1, fun s' hs => ih (h.2 s' hs)⟩

theorem AlongM.left {l l' : List α} {s : σ} (h : AlongM P f (l ++ l') s) : AlongM P f l s := by
  induction l generalizing s with
  | nil => trivial
  | cons a l ih => exact ⟨h.1, fun s' hs => ih (h.2 s' hs)⟩

theorem foldlM_keeps (step : ∀ s a, I s → P s a → ∃ s', f s a = some s' ∧ I s') (l : List α) (s : σ)
    (h : I s) (hp : AlongM P f l s) : ∃ s', l.foldlM f s = some s' ∧ I s' := by
  induction l generalizing s with
  | nil => exact ⟨s, rfl, h⟩
  | cons a l ih =>
    obtain ⟨s', hs, hI⟩ := step s a h hp.1
    obtain ⟨s'', hf, hI'⟩ := ih s' hI (hp.2 s' hs)
    refine ⟨s'', ?_, hI'⟩
    rw [foldlM_cons, hs]
    exact hf

theorem AlongM.and {Q : σ → α → Prop} {l : List α} {s : σ} (hp : AlongM P f l s) (hq : AlongM Q f l s) :
    AlongM (fun s a => P s a ∧ Q s a) f l s := by
  induction l generalizing s with
  | nil => trivial
  | cons a l ih => exact ⟨⟨hp.1, hq.1⟩, fun s' hs => ih (hp.2 s' hs) (hq.2 s' hs)⟩

theorem alongM_replicate {a : α} (h : ∀ s, P s a) (n : ℕ) (s : σ) : AlongM P f (replicate n a) s := by
  induction n generalizing s with
  | zero => trivial
  | succ n ih => exact ⟨h s, fun s' _ => ih s'⟩

theorem alongM_of_forall (h : ∀ s a, P s a) (l : List α) (s : σ) : AlongM P f l s := by
  induction l generalizing s with
  | nil => trivial
  | cons a l ih => exact ⟨h s a, fun s' _ => ih s'⟩

theorem foldlM_range_keeps {σ : Type} {I : ℕ → σ → Prop} {f : σ → ℕ → Option σ} (n : ℕ) (s : σ)
    (step : ∀ i s, i < n → I i s → ∃ s', f s i = some s' ∧ I (i + 1) s') (h : I 0 s) :
    ∃ s', (List.range n).foldlM f s = some s' ∧ I n s' := by
  induction n with
  | zero => exact ⟨s, rfl, h⟩
  | succ n ih =>
    obtain ⟨s1, h1, hI1⟩ := ih fun i s hi => step i s (Nat.lt_succ_of_lt hi)
    obtain ⟨s2, h2, hI2⟩ := step n s1 (Nat.lt_succ_self n) hI1
    refine ⟨s2, ?_, hI2⟩
    simp [range_succ, foldlM_append, h1, h2]

theorem foldlM_range_some {σ : Type} {I : ℕ → σ → Prop} {f : σ → ℕ → Option σ} (n : ℕ) {s s' : σ}
    (step : ∀ i s s', I i s → f s i = some s' → I (i + 1) s') (h : I 0 s)
    (hf : (List.range n).foldlM f s = some s') : I n s' := by
  induction n generalizing s' with
  | zero => exact some.inj hf ▸ h
  | succ n ih =>
    rw [range_succ, foldlM_append] at hf
    obtain ⟨s1, h1, h2⟩ := bind_eq_some_iff.mp hf
    refine step n s1 s' (ih h1) ?_
    simpa using h2

theorem foldlM_some (step : ∀ s a s', I s → P s a → f s a = some s' → I s') (l : List α) {s s' : σ}
    (h : I s) (hp : AlongM P f l s) (hf : l.foldlM f s = some s') : I s' := by
  induction l generalizing s with
  | nil => exact some.inj hf ▸ h
  | cons a l ih =>
    rw [foldlM_cons] at hf
    obtain ⟨s1, h1, h2⟩ := bind_eq_some_iff.mp hf
    exact ih (step s a s1 h hp.1 h1) (hp.2 s1 h1) h2

theorem foldlM_fixed {σ α : Type} {f : σ → α → Option σ} {s : σ} {l : List α} (h : ∀ a ∈ l, f s a = some s) :
    l.foldlM f s = some s := by
  induction l with
  | nil => rfl
  | cons a l ih =>
    rw [foldlM_cons, h a mem_cons_self]
    exact ih fun b hb => h b (mem_cons_of_mem a hb)

theorem foldlM_ok {ε : Type} {I : List α → σ → Prop} {f : σ → α → Except ε σ}
    (step : ∀ a l s s', I (a :: l) s → f s a = .ok s' → I l s') (l : List α) {s s' : σ}
    (h : I l s) (hf : l.foldlM f s = .ok s') : I [] s' := by
  induction l generalizing s with
  | nil =>
    cases hf
    exact h
  | cons a l ih =>
    rw [foldlM_cons] at hf
    cases h1 : f s a with
    | error e =>
      rw [h1] at hf
      cases hf
    | ok s1 =>
      rw [h1] at hf
      exact ih (step a l s s1 h h1) hf

theorem filterMap_self_sublist {f : α → Option α} (h : ∀ a b, f a = some b → b = a) (l : List α) :
    (l.filterMap f).Sublist l := by
  induction l with
  | nil => exact Sublist.refl _
  | cons a l ih =>
    cases hf : f a with
    | none =>
      rw [filterMap_cons_none hf]
      exact ih.cons a
    | some b =>
      obtain rfl := h a b hf
      rw [filterMap_cons_some hf]
      exact ih.cons_cons b

def grow (l : List α) (n : ℕ) (a : α) : List α := l ++ List.replicate (n - l.length) a

@[simp] theorem length_grow (l : List α) (n : ℕ) (a : α) : (grow l n a).length = max l.length n := by
  simp only [grow, length_append, length_replicate]
  omega

theorem getElem?_grow (l : List α) (n : ℕ) (a : α) (i : ℕ) :
    (grow l n a)[i]? = if i < l.length then l[i]? else if i < n then some a else none := by
  simp only [grow, getElem?_append, getElem?_replicate]
  split_ifs <;> first | rfl | omega

def resize (l : List α) (n : ℕ) (a : α) : List α := l.take n ++ List.replicate (n - l.length) a

theorem getElem?_resize (l : List α) (n : ℕ) (a : α) (i : ℕ) :
    (resize l n a)[i]? = if i < n then some (l.getD i a) else none := by
  by_cases hn : i < n
  · by_cases hl : i < l.length
    · have hlt : i < min n l.length := by omega
      simp [resize, getElem?_append, hn, hl, hlt, List.getD]
    · have hlt : ¬i < min n l.length := by omega
      have hi : i - min n l.length < n - l.length := by omega
      simp [resize, getElem?_append, hn, hl, hlt, hi, List.getD]
  · have hlt : ¬i < min n l.length := by omega
    have hi : ¬i - min n l.length < n - l.length := by omega
    simp [resize, getElem?_append, hn, hlt, hi]

end LoomV4.Lib
