import LoomV4.Lib.Steps
import Mathlib.Data.List.Nodup
import Mathlib.Logic.Relation
import Mathlib.Algebra.BigOperators.Group.List.Basic
import Mathlib.Tactic

namespace LoomV4.Lib.Scc

open Relation List Option Function

structure State where
  index : ℕ → Option ℕ
  low : ℕ → ℕ
  onStack : ℕ → Bool
  stack : List ℕ
  next : ℕ
  comps : List (List ℕ)
  compOf : ℕ → Option ℕ
  work : List (ℕ × ℕ)

def State.start : State where
  index := fun _ => none
  low := fun _ => 0
  onStack := fun _ => false
  stack := []
  next := 0
  comps := []
  compOf := fun _ => none
  work := []

def State.enter (s : State) (v : ℕ) : State :=
  { s with
    index := Function.update s.index v (some s.next)
    low := Function.update s.low v s.next
    next := s.next + 1
    stack := v :: s.stack
    onStack := Function.update s.onStack v true
    work := (v, 0) :: s.work }

def popUntil (v : ℕ) : List ℕ → Option (List ℕ × List ℕ)
  | [] => none
  | m :: rest =>
    if m = v then some ([m], rest)
    else (popUntil v rest).map fun p => (m :: p.1, p.2)

def State.emitted (s : State) (comp rest : List ℕ) : State :=
  { s with
    stack := rest
    onStack := fun x => s.onStack x && !decide (x ∈ comp)
    compOf := fun x => if x ∈ comp then some s.comps.length else s.compOf x
    comps := s.comps ++ [comp] }

def State.emit (s : State) (v : ℕ) : Option State := (popUntil v s.stack).map fun p => s.emitted p.1 p.2

def State.finish (s : State) (v : ℕ) (rest : List (ℕ × ℕ)) : Option State :=
  let s := { s with work := rest }
  let s := match rest with
    | [] => s
    | (p, _) :: _ => { s with low := Function.update s.low p (min (s.low p) (s.low v)) }
  if s.index v = some (s.low v) then s.emit v else some s

/-- One turn of the inner loop; `none` is an index out of range. -/
def State.step (n : ℕ) (succ : List (List ℕ)) (s : State) : Option State :=
  match s.work with
  | [] => some s
  | (v, pos) :: rest => do
    let succs ← succ[v]?
    match succs[pos]? with
    | none => s.finish v rest
    | some child =>
      if child < n then
        let s := { s with work := (v, pos + 1) :: rest }
        match s.index child with
        | none => some (s.enter child)
        | some i =>
          if s.onStack child then some { s with low := Function.update s.low v (min (s.low v) i) }
          else some s
      else none

def State.loop (n : ℕ) (succ : List (List ℕ)) : ℕ → State → Option State
  | 0, s => if s.work = [] then some s else none
  | fuel + 1, s => if s.work = [] then some s else (s.step n succ).bind (loop n succ fuel)

/-- The turns that the whole walk takes. -/
def turns (succ : List (List ℕ)) : ℕ := (succ.map fun vs => vs.length + 1).sum

def State.root (n : ℕ) (succ : List (List ℕ)) (s : State) (v : ℕ) : Option State :=
  match s.index v with
  | some _ => some s
  | none => (s.enter v).loop n succ (turns succ)

/-- `components`: the components callees first, and the component of each node. -/
def components (n : ℕ) (succ : List (List ℕ)) : Option (List (List ℕ) × (ℕ → Option ℕ)) :=
  ((List.range n).foldlM (State.root n succ) State.start).map fun s => (s.comps, s.compOf)

section

variable (succ : List (List ℕ))

def Edge (u v : ℕ) : Prop := ∃ vs, succ[u]? = some vs ∧ v ∈ vs

abbrev Reach : ℕ → ℕ → Prop := ReflTransGen (Edge succ)

structure Frame (index : ℕ → Option ℕ) (low : ℕ → ℕ) (stack : List ℕ) (v pos : ℕ) (seg below : List ℕ) : Prop where
  indexed : ∃ i, index v = some i ∧ low v ≤ i
  lowest : ∃ x ∈ seg ++ below, index x = some (low v) ∧ Reach succ v x
  joined : ∀ u ∈ seg, Reach succ v u ∧ Reach succ u v
  seen : ∀ u ∈ seg, ∀ vs, succ[u]? = some vs → ∀ w ∈ if u = v then vs.take pos else vs,
    ∃ i, index w = some i ∧ (w ∈ stack → low v ≤ i)

inductive Frames (index : ℕ → Option ℕ) (low : ℕ → ℕ) (stack : List ℕ) : List (ℕ × ℕ) → List ℕ → Prop
  | nil : Frames index low stack [] []
  | cons {v pos : ℕ} {ws : List (ℕ × ℕ)} {xs below : List ℕ} :
    Frames index low stack ws below → Frame succ index low stack v pos (xs ++ [v]) below →
    (∀ p ∈ ws.head?, Reach succ p.1 v) → Frames index low stack ((v, pos) :: ws) (xs ++ [v] ++ below)

def Later (index : ℕ → Option ℕ) (a b : ℕ) : Prop := ∃ i j, index a = some i ∧ index b = some j ∧ j < i

structure Inv (n : ℕ) (s : State) : Prop where
  frames : Frames succ s.index s.low s.stack s.work s.stack
  ordered : s.stack.Pairwise (Later s.index)
  onStack : ∀ v, s.onStack v = true ↔ v ∈ s.stack
  indexed : ∀ v, s.index v ≠ none ↔ v ∈ s.stack ∨ s.compOf v ≠ none
  fresh : ∀ v i, s.index v = some i → i < s.next ∧ v < n
  comp : ∀ v c, s.compOf v = some c ↔ ∃ l, s.comps[c]? = some l ∧ v ∈ l
  apart : ∀ v ∈ s.stack, s.compOf v = none
  nodup : ∀ l ∈ s.comps, l ≠ [] ∧ l.Nodup
  closed : ∀ u c v, s.compOf u = some c → Edge succ u v → ∃ d ≤ c, s.compOf v = some d
  joined : ∀ u v c, s.compOf u = some c → s.compOf v = some c → Reach succ u v

variable {succ} {n : ℕ} {index index' : ℕ → Option ℕ} {low low' : ℕ → ℕ} {stack stack' seg below : List ℕ}
  {v pos child : ℕ} {ws : List (ℕ × ℕ)}

theorem Frame.mono (h : Frame succ index low stack v pos seg below)
    (hn : ∀ x i, index x = some i → index' x = some i) (hl : low' v = low v)
    (ht : ∀ x, index x ≠ none → x ∈ stack' → x ∈ stack) : Frame succ index' low' stack' v pos seg below where
  indexed := by
    obtain ⟨i, hi, hle⟩ := h.indexed
    exact ⟨i, hn v i hi, hl ▸ hle⟩
  lowest := by
    obtain ⟨x, hx, hi, hr⟩ := h.lowest
    exact ⟨x, hx, hl ▸ hn x _ hi, hr⟩
  joined := h.joined
  seen := by
    intro u hu vs hvs w hw
    obtain ⟨i, hi, hle⟩ := h.seen u hu vs hvs w hw
    refine ⟨i, hn w i hi, fun hs => hl ▸ hle (ht w ?_ hs)⟩
    simp [hi]

theorem Frame.lower (h : Frame succ index low stack v pos seg below) (hle : low' v ≤ low v)
    (hx : ∃ x ∈ seg ++ below, index x = some (low' v) ∧ Reach succ v x) :
    Frame succ index low' stack v pos seg below where
  indexed := by
    obtain ⟨i, hi, h⟩ := h.indexed
    exact ⟨i, hi, by omega⟩
  lowest := hx
  joined := h.joined
  seen := by
    intro u hu vs hvs w hw
    obtain ⟨i, hi, h⟩ := h.seen u hu vs hvs w hw
    exact ⟨i, hi, fun hs => hle.trans (h hs)⟩

variable {vs : List ℕ}

theorem Frame.advance (h : Frame succ index low stack v pos seg below) (hvs : succ[v]? = some vs)
    (hp : vs[pos]? = some child) {i : ℕ} (hi : index child = some i) (hle : child ∈ stack → low v ≤ i) :
    Frame succ index low stack v (pos + 1) seg below := by
  refine { h with seen := ?_ }
  intro u hu us hus w hw
  by_cases huv : u = v
  · subst huv
    cases hvs.symm.trans hus
    rw [if_pos rfl, take_add_one, hp, mem_append] at hw
    rcases hw with hw | hw
    · apply h.seen u hu vs hvs w
      rwa [if_pos rfl]
    · obtain rfl : w = child := by simpa using hw
      exact ⟨i, hi, hle⟩
  · apply h.seen u hu us hus w
    rwa [if_neg huv] at hw ⊢

theorem Frames.mono (h : Frames succ index low stack ws below)
    (hi : ∀ x i, index x = some i → index' x = some i) (ho : ∀ x ∈ below, low' x = low x)
    (hs : ∀ x, index x ≠ none → x ∈ stack' → x ∈ stack) : Frames succ index' low' stack' ws below := by
  induction h with
  | nil => exact .nil
  | @cons v pos ws xs below _ hf hl ih =>
    refine .cons (ih fun x hx => ho x (by simp [hx])) (hf.mono hi (ho v (by simp)) hs) hl

theorem Frames.reach_top (h : Frames succ index low stack ws below) :
    ∀ p ∈ ws.head?, ∀ x ∈ below, Reach succ x p.1 := by
  induction h with
  | nil => intro p hp; cases hp
  | @cons v pos ws xs below hb hf hl ih =>
    intro p hp x hx
    obtain rfl : (v, pos) = p := by simpa using hp
    rcases mem_append.mp hx with hx | hx
    · exact (hf.joined x hx).2
    · cases ws with
      | nil => cases hb; cases hx
      | cons q ws => exact (ih q rfl x hx).trans (hl q rfl)

variable {s t : State}

theorem Inv.not_mem (h : Inv succ n s) (hv : s.index v = none) : v ∉ s.stack := fun hm =>
  (h.indexed v).mpr (.inl hm) hv

theorem Inv.compOf_eq_none (h : Inv succ n s) (hv : s.index v = none) : s.compOf v = none := by
  by_contra hc
  exact (h.indexed v).mpr (.inr hc) hv

theorem update_index {v k : ℕ} (hv : index v = none) {x i : ℕ} (hx : index x = some i) :
    Function.update index v (some k) x = some i := by
  rwa [update_of_ne]
  rintro rfl
  cases hv.symm.trans hx

theorem Inv.frames_enter (h : Inv succ n s) (hv : s.index v = none) :
    Frames succ (Function.update s.index v (some s.next)) (Function.update s.low v s.next) (v :: s.stack) s.work
      s.stack := by
  apply h.frames.mono
  · intro x i hx
    exact update_index hv hx
  · intro x hx
    rw [update_of_ne]
    rintro rfl
    exact h.not_mem hv hx
  · intro x hx hm
    rcases mem_cons.mp hm with rfl | hm
    · exact absurd hv hx
    · exact hm

theorem Inv.enter (h : Inv succ n s) (hv : s.index v = none) (hn : v < n)
    (hf : Frames succ (Function.update s.index v (some s.next)) (Function.update s.low v s.next) (v :: s.stack) ws
      s.stack) (hl : ∀ p ∈ ws.head?, Reach succ p.1 v) : Inv succ n ({ s with work := ws }.enter v) where
  frames := by
    refine @Frames.cons _ _ _ _ _ _ _ [] _ hf ?_ hl
    constructor
    · exact ⟨s.next, by simp [State.enter]⟩
    · exact ⟨v, by simp, by simp [State.enter], .refl⟩
    · intro u hu
      obtain rfl : u = v := by simpa using hu
      exact ⟨.refl, .refl⟩
    · intro u hu vs _ w hw
      obtain rfl : u = v := by simpa using hu
      simp at hw
  ordered := by
    refine pairwise_cons.mpr ⟨fun x hx => ?_, h.ordered.imp ?_⟩
    · obtain ⟨i, hi⟩ := ne_none_iff_exists'.mp ((h.indexed x).mpr (.inl hx))
      exact ⟨s.next, i, by simp [State.enter], update_index hv hi, (h.fresh x i hi).1⟩
    · rintro a b ⟨i, j, hi, hj, hlt⟩
      exact ⟨i, j, update_index hv hi, update_index hv hj, hlt⟩
  onStack := by
    intro x
    by_cases hx : x = v
    · simp [State.enter, hx]
    · simp [State.enter, hx, h.onStack]
  indexed := by
    intro x
    by_cases hx : x = v
    · simp [State.enter, hx]
    · simp [State.enter, hx, h.indexed x]
  fresh := by
    intro x i hi
    by_cases hx : x = v
    · subst hx
      obtain rfl : s.next = i := by simpa [State.enter] using hi
      exact ⟨Nat.lt_succ_self _, hn⟩
    · have hi : s.index x = some i := by simpa [State.enter, hx] using hi
      exact ⟨Nat.lt_succ_of_lt (h.fresh x i hi).1, (h.fresh x i hi).2⟩
  comp := h.comp
  apart := by
    intro x hx
    rcases mem_cons.mp hx with rfl | hx
    · exact h.compOf_eq_none hv
    · exact h.apart x hx
  nodup := h.nodup
  closed := h.closed
  joined := h.joined

theorem Inv.stack_nodup (h : Inv succ n s) : s.stack.Nodup := by
  refine h.ordered.imp ?_
  rintro a _ ⟨i, j, hi, hj, hlt⟩ rfl
  cases hi.symm.trans hj
  exact lt_irrefl _ hlt

theorem Frames.exists_top (h : Frames succ index low stack ((v, pos) :: ws) seg) :
    ∃ xs below, seg = xs ++ [v] ++ below ∧ Frames succ index low stack ws below ∧
      Frame succ index low stack v pos (xs ++ [v]) below ∧ ∀ p ∈ ws.head?, Reach succ p.1 v := by
  cases h with
  | cons hb hf hl => exact ⟨_, _, rfl, hb, hf, hl⟩

variable {xs : List ℕ}

theorem later_of_append {i : ℕ} (h : (xs ++ [v] ++ below).Pairwise (Later index)) (hi : index v = some i) :
    (∀ x ∈ xs, ∀ j, index x = some j → i < j) ∧ ∀ x ∈ below, ∀ j, index x = some j → j < i := by
  rw [pairwise_append, pairwise_append] at h
  obtain ⟨⟨-, -, h1⟩, -, h2⟩ := h
  constructor
  · intro x hx j hj
    obtain ⟨_, _, h, h', hlt⟩ := h1 x hx v (by simp)
    cases hj.symm.trans h
    cases hi.symm.trans h'
    exact hlt
  · intro x hx j hj
    obtain ⟨_, _, h, h', hlt⟩ := h2 v (by simp) x hx
    cases hi.symm.trans h
    cases hj.symm.trans h'
    exact hlt

theorem Inv.meet (h : Inv succ n s) (hw : s.work = (v, pos) :: ws) (hvs : succ[v]? = some vs)
    (hp : vs[pos]? = some child) {i : ℕ} (hi : s.index child = some i) (hc : low' v ≤ s.low v)
    (ho : ∀ x, x ≠ v → low' x = s.low x) (hx : low' v = s.low v ∨ child ∈ s.stack ∧ low' v = i)
    (hle : child ∈ s.stack → low' v ≤ i) : Inv succ n { s with work := (v, pos + 1) :: ws, low := low' } := by
  have hf := h.frames
  rw [hw] at hf
  obtain ⟨xs, below, hs, hb, hf, hl⟩ := hf.exists_top
  have hnd := h.stack_nodup
  refine { h with frames := ?_ }
  refine hs ▸ .cons ?_ ?_ hl
  · apply hs ▸ hb.mono (fun x i hi => hi) ?_ (fun x _ hx => hx)
    intro x hm
    apply ho
    rintro rfl
    rw [hs, nodup_append] at hnd
    exact hnd.2.2 x (by simp) x hm rfl
  · refine hs ▸ ((hf.lower hc ?_).advance hvs hp hi hle)
    rcases hx with hx | ⟨hm, hx⟩
    · rw [hx]
      exact hf.lowest
    · refine ⟨child, hs ▸ hm, hx ▸ hi, .single ⟨vs, hvs, ?_⟩⟩
      exact mem_of_getElem? hp

theorem popUntil_append (hv : v ∉ xs) : popUntil v (xs ++ [v] ++ below) = some (xs ++ [v], below) := by
  induction xs with
  | nil => simp [popUntil]
  | cons x xs ih =>
    rw [mem_cons, not_or] at hv
    have hx : ¬x = v := fun h => hv.1 h.symm
    simp [popUntil, hx, show popUntil v (xs ++ v :: below) = _ by simpa using ih hv.2]

theorem Inv.segment_closed (h : Inv succ n s) (hs : s.stack = xs ++ [v] ++ below)
    (hf : Frame succ s.index s.low s.stack v pos (xs ++ [v]) below) (hvs : succ[v]? = some vs)
    (hp : vs[pos]? = none) (hv : s.index v = some (s.low v)) {u w : ℕ} (hu : u ∈ xs ++ [v]) (he : Edge succ u w) :
    w ∈ xs ++ [v] ∨ s.compOf w ≠ none := by
  obtain ⟨us, hus, hw⟩ := he
  have hw : w ∈ if u = v then us.take pos else us := by
    split_ifs with huv
    · subst huv
      cases hvs.symm.trans hus
      rwa [take_of_length_le (List.getElem?_eq_none_iff.mp hp)]
    · exact hw
  obtain ⟨i, hi, hle⟩ := hf.seen u hu us hus w hw
  refine ((h.indexed w).mp (by simp [hi])).imp_left fun hm => ?_
  rw [hs, mem_append] at hm
  refine hm.resolve_right fun hm' => ?_
  have hlt := (later_of_append (hs ▸ h.ordered) hv).2 w hm' i hi
  have hge := hle (hs ▸ mem_append_right _ hm')
  omega

theorem comp_append {compOf : ℕ → Option ℕ} {comps : List (List ℕ)}
    (h : ∀ v c, compOf v = some c ↔ ∃ l, comps[c]? = some l ∧ v ∈ l) (hn : ∀ u ∈ seg, compOf u = none) (x c : ℕ) :
    (if x ∈ seg then some comps.length else compOf x) = some c ↔ ∃ l, (comps ++ [seg])[c]? = some l ∧ x ∈ l := by
  rcases lt_trichotomy c comps.length with hc | rfl | hc
  · rw [getElem?_append_left hc, ← h]
    split_ifs with hm
    · simp [hn x hm, hc.ne']
    · rfl
  · have hne : compOf x ≠ some comps.length := by
      intro hx
      obtain ⟨l, hl, -⟩ := (h x _).mp hx
      exact lt_irrefl _ (lt_of_getElem? hl)
    split_ifs with hm <;> simp [hm, hne]
  · have hne : compOf x ≠ some c := by
      intro hx
      obtain ⟨l, hl, -⟩ := (h x _).mp hx
      have := lt_of_getElem? hl
      omega
    rw [getElem?_eq_none (by simp; omega)]
    split_ifs with hm <;> simp [hne, hc.ne]

theorem Inv.compOf_lt (h : Inv succ n s) {u c : ℕ} (hc : s.compOf u = some c) : c < s.comps.length := by
  obtain ⟨l, hl, -⟩ := (h.comp u c).mp hc
  exact lt_of_getElem? hl

theorem Inv.emitted (h : Inv succ n s) (hs : s.stack = xs ++ [v] ++ below)
    (hf : Frame succ s.index s.low s.stack v pos (xs ++ [v]) below) (hvs : succ[v]? = some vs)
    (hp : vs[pos]? = none) (hv : s.index v = some (s.low v)) (hb : Frames succ s.index low' below ws below) :
    Inv succ n ({ s with work := ws, low := low' }.emitted (xs ++ [v]) below) := by
  have hnd := h.stack_nodup
  rw [hs, nodup_append] at hnd
  obtain ⟨hg, -, hi⟩ := hnd
  have hn : ∀ u ∈ xs ++ [v], s.compOf u = none := fun u hu => h.apart u (hs ▸ mem_append_left _ hu)
  have hold : ∀ u c, s.compOf u = some c → u ∉ xs ++ [v] := fun u c hc hu => by simp [hn u hu] at hc
  constructor
  · exact hb
  · have := h.ordered
    rw [hs, pairwise_append] at this
    exact this.2.1
  · intro x
    have hx := h.onStack x
    rw [hs, mem_append] at hx
    have hd : x ∈ below → x ∉ xs ++ [v] := fun hb hx => hi x hx x hb rfl
    simp only [State.emitted, Bool.and_eq_true, hx, Bool.not_eq_true', decide_eq_false_iff_not]
    tauto
  · intro x
    have hx := h.indexed x
    rw [hs, mem_append] at hx
    by_cases hm : x ∈ xs ++ [v]
    · simp only [State.emitted, hx, hm, if_true]
      simp
    · simp only [State.emitted, hx, hm, if_false, false_or]
  · exact h.fresh
  · exact comp_append h.comp hn
  · intro x hx
    have hm : x ∉ xs ++ [v] := fun hm => hi x hm x hx rfl
    simp only [State.emitted, hm, if_false]
    exact h.apart x (hs ▸ mem_append_right _ hx)
  · intro l hl
    rcases mem_append.mp hl with hl | hl
    · exact h.nodup l hl
    · obtain rfl : l = xs ++ [v] := by simpa using hl
      exact ⟨by simp, hg⟩
  · intro u c w hc he
    by_cases hm : u ∈ xs ++ [v]
    · obtain rfl : s.comps.length = c := by simpa only [State.emitted, hm, if_true, Option.some.injEq] using hc
      rcases h.segment_closed hs hf hvs hp hv hm he with hw | hw
      · exact ⟨_, le_rfl, by simp only [State.emitted, hw, if_true]⟩
      · obtain ⟨d, hd⟩ := ne_none_iff_exists'.mp hw
        exact ⟨d, (h.compOf_lt hd).le, by simp only [State.emitted, hold w d hd, if_false, hd]⟩
    · simp only [State.emitted, hm, if_false] at hc
      obtain ⟨d, hd, hw⟩ := h.closed u c w hc he
      exact ⟨d, hd, by simp only [State.emitted, hold w d hw, if_false, hw]⟩
  · intro u w c hu hw
    by_cases hmu : u ∈ xs ++ [v] <;> by_cases hmw : w ∈ xs ++ [v] <;>
      simp only [State.emitted, hmu, hmw, if_true, if_false] at hu hw
    · exact (hf.joined u hmu).2.trans (hf.joined w hmw).1
    · obtain rfl := some.inj hu
      exact absurd (h.compOf_lt hw) (lt_irrefl _)
    · obtain rfl := some.inj hw
      exact absurd (h.compOf_lt hu) (lt_irrefl _)
    · exact h.joined u w c hu hw

theorem Frames.ne_of_mem (h : Inv succ n s) (hs : s.stack = xs ++ [v] ++ below) {x : ℕ} (hx : x ∈ below) :
    x ≠ v := by
  have hnd := h.stack_nodup
  rw [hs, nodup_append] at hnd
  exact fun he => hnd.2.2 v (by simp) x hx he.symm

theorem Frame.join {p q : ℕ} {ys under : List ℕ}
    (hf : Frame succ index low stack v pos (xs ++ [v]) (ys ++ [p] ++ under))
    (hp : Frame succ index low stack p q (ys ++ [p]) under) (hnd : (xs ++ [v] ++ (ys ++ [p] ++ under)).Nodup)
    (hvp : Reach succ p v) (hpv : Reach succ v p) (hvs : succ[v]? = some vs) (ho : vs[pos]? = none) :
    Frame succ index (Function.update low p (min (low p) (low v))) stack p q (xs ++ [v] ++ ys ++ [p]) under where
  indexed := by
    obtain ⟨i, hi, hle⟩ := hp.indexed
    refine ⟨i, hi, ?_⟩
    rw [update_self]
    omega
  lowest := by
    rw [update_self]
    rcases min_choice (low p) (low v) with hm | hm <;> rw [hm]
    · obtain ⟨x, hx, hi, hr⟩ := hp.lowest
      refine ⟨x, ?_, hi, hr⟩
      simp only [mem_append] at hx ⊢
      tauto
    · obtain ⟨x, hx, hi, hr⟩ := hf.lowest
      refine ⟨x, ?_, hi, hvp.trans hr⟩
      simp only [mem_append] at hx ⊢
      tauto
  joined := by
    intro u hu
    rw [append_assoc, mem_append] at hu
    rcases hu with hu | hu
    · exact ⟨hvp.trans (hf.joined u hu).1, (hf.joined u hu).2.trans hpv⟩
    · exact hp.joined u hu
  seen := by
    intro u hu us hus w hw
    rw [update_self]
    rw [append_assoc, mem_append] at hu
    rcases hu with hu | hu
    · have hup : u ≠ p := by
        rintro rfl
        exact (nodup_append.mp hnd).2.2 u hu u (by simp) rfl
      have hw : w ∈ if u = v then us.take pos else us := by
        rw [if_neg hup] at hw
        split_ifs with huv
        · subst huv
          cases hvs.symm.trans hus
          rwa [take_of_length_le (List.getElem?_eq_none_iff.mp ho)]
        · exact hw
      obtain ⟨i, hi, hle⟩ := hf.seen u hu us hus w hw
      exact ⟨i, hi, fun hs => (min_le_right _ _).trans (hle hs)⟩
    · obtain ⟨i, hi, hle⟩ := hp.seen u hu us hus w hw
      exact ⟨i, hi, fun hs => (min_le_left _ _).trans (hle hs)⟩

theorem Inv.finish (h : Inv succ n s) (hw : s.work = (v, pos) :: ws) (hvs : succ[v]? = some vs)
    (hpo : vs[pos]? = none) : ∃ t, s.finish v ws = some t ∧ Inv succ n t ∧ t.work = ws ∧ t.index = s.index := by
  have hf := h.frames
  rw [hw] at hf
  obtain ⟨xs, below, hs, hb, hf, hl⟩ := hf.exists_top
  have hxs : v ∉ xs := by
    have hnd := h.stack_nodup
    rw [hs, append_assoc, nodup_append] at hnd
    exact fun hm => hnd.2.2 v hm v (by simp) rfl
  have hpp : popUntil v s.stack = some (xs ++ [v], below) := hs ▸ popUntil_append hxs
  have hsu : ∀ x ∈ below, x ∈ s.stack := fun x hx => hs ▸ mem_append_right _ hx
  obtain ⟨i, hi, he⟩ := hf.indexed
  have ha := later_of_append (hs ▸ h.ordered) hi
  cases ws with
  | nil =>
    obtain rfl : below = [] := by cases hb; rfl
    -- The first frame has nothing below, so its low mark is its own index.
    have hlo : s.low v = i := by
      obtain ⟨x, hx, hxi, -⟩ := hf.lowest
      simp only [append_nil, mem_append, mem_singleton] at hx
      rcases hx with hx | rfl
      · have := ha.1 x hx _ hxi
        omega
      · exact (mem_unique hxi hi)
    refine ⟨_, ?_, h.emitted hs hf hvs hpo (hlo ▸ hi) (hb.mono (fun _ _ h => h) (fun _ _ => rfl)
      fun x _ hx => hsu x hx), rfl, rfl⟩
    simp [State.finish, State.emit, hpp, hlo ▸ hi]
  | cons q ws =>
    obtain ⟨p, q⟩ := q
    obtain ⟨ys, under, rfl, hu, hp, hl'⟩ := hb.exists_top
    have hpv : p ≠ v := Frames.ne_of_mem h hs (by simp)
    obtain ⟨j, hj, hle⟩ := hp.indexed
    have hji : j < i := ha.2 p (by simp) j hj
    by_cases ho : s.low v = i
    · have hmi : Function.update s.low p (min (s.low p) (s.low v)) = s.low := by
        rw [min_eq_left (by omega), update_eq_self]
      refine ⟨_, ?_, h.emitted hs hf hvs hpo (ho ▸ hi) (hb.mono (fun _ _ h => h) (fun x _ => congrFun hmi x)
        fun x _ hx => hsu x hx), rfl, rfl⟩
      simp only [State.finish, hmi, ho ▸ hi, if_true, State.emit, hpp, map_some]
    · have hne : ¬s.index v = some (Function.update s.low p (min (s.low p) (s.low v)) v) := by
        rw [update_of_ne hpv.symm, hi]
        exact fun h => ho (some.inj h).symm
      refine ⟨{ s with low := Function.update s.low p (min (s.low p) (s.low v)), work := (p, q) :: ws },
        by simp only [State.finish, hne, if_false], { h with frames := ?_ }, rfl, rfl⟩
      obtain ⟨x, hx, hxi, hr⟩ := hf.lowest
      have hxb : x ∈ ys ++ [p] ++ under := by
        refine (mem_append.mp hx).resolve_left fun hx => ?_
        rcases mem_append.mp hx with hx | hx
        · have := ha.1 x hx _ hxi
          omega
        · obtain rfl : x = v := by simpa using hx
          exact ho (mem_unique hxi hi)
      have hvp : Reach succ v p := hr.trans (hb.reach_top (p, q) rfl x hxb)
      have hnd := h.stack_nodup
      rw [hs] at hnd
      have hn := hf.join hp hnd (hl (p, q) rfl) hvp hvs hpo
      have ht : s.stack = xs ++ [v] ++ ys ++ [p] ++ under := by
        rw [hs]
        simp
      rw [ht] at hn hu ⊢
      refine .cons (hu.mono (fun _ _ h => h) ?_ fun _ _ h => h) hn hl'
      intro y hy
      apply update_of_ne
      rintro rfl
      have hnd := (nodup_append.mp hnd).2.1
      exact (nodup_append.mp hnd).2.2 y (by simp) y hy rfl

def State.rest (succ : List (List ℕ)) (n : ℕ) (s : State) : ℕ :=
  (∑ v ∈ Finset.range n, if s.index v = none then (succ[v]?.getD []).length + 1 else 0) +
    (s.work.map fun p => (succ[p.1]?.getD []).length - p.2 + 1).sum

theorem rest_enter (hv : s.index v = none) (hn : v < n) : (s.enter v).rest succ n = s.rest succ n := by
  have hm : v ∈ Finset.range n := by simpa using hn
  simp only [State.rest, ← Finset.add_sum_erase _ _ hm]
  have hr : ∀ x ∈ (Finset.range n).erase v, (s.enter v).index x = s.index x := by
    intro x hx
    exact update_of_ne (Finset.ne_of_mem_erase hx) _ _
  rw [Finset.sum_congr rfl fun x hx => by rw [hr x hx]]
  simp [State.enter, hv]
  omega

theorem Inv.step (h : Inv succ n s) (hu : ∀ vs ∈ succ, ∀ w ∈ vs, w < n) (hln : succ.length = n)
    (hw : s.work ≠ []) : ∃ t, s.step n succ = some t ∧ Inv succ n t ∧ t.rest succ n < s.rest succ n ∧
      ∀ x, s.index x ≠ none → t.index x ≠ none := by
  obtain ⟨⟨v, pos⟩, ws, hw⟩ := exists_cons_of_ne_nil hw
  have hf := h.frames
  rw [hw] at hf
  obtain ⟨xs, below, hs, hb, hf, hl⟩ := hf.exists_top
  have hv : v < n := by
    obtain ⟨i, hi, -⟩ := hf.indexed
    exact (h.fresh v i hi).2
  obtain ⟨vs, hvs⟩ : ∃ vs, succ[v]? = some vs := ⟨_, getElem?_eq_getElem (hln ▸ hv)⟩
  cases ho : vs[pos]? with
  | none =>
    obtain ⟨t, ht, hi, hr, hd⟩ := h.finish hw hvs ho
    refine ⟨t, by simpa [State.step, hw, hvs, ho] using ht, hi, ?_, fun x => by rw [hd]; exact id⟩
    simp only [State.rest, hr, hd, hw, map_cons, sum_cons]
    omega
  | some child =>
    have he : child ∈ vs := mem_of_getElem? ho
    have hn : child < n := hu vs (mem_of_getElem? hvs) child he
    have hlt : pos < vs.length := lt_of_getElem? ho
    have ha : ∀ low', State.rest succ n { s with work := (v, pos + 1) :: ws, low := low' } < s.rest succ n := by
      intro low'
      simp only [State.rest, hw, map_cons, sum_cons, hvs, getD_some]
      omega
    cases hi : s.index child with
    | none =>
      have hf' := h.frames_enter hi
      rw [hw] at hf'
      obtain ⟨xs', below', hs', hb', hf', hl'⟩ := hf'.exists_top
      have hc : v ≠ child := by
        rintro rfl
        obtain ⟨i, hi', -⟩ := hf.indexed
        cases hi.symm.trans hi'
      refine ⟨{ s with work := (v, pos + 1) :: ws }.enter child, by simp [State.step, hw, hvs, ho, hn, hi], ?_, ?_, ?_⟩
      · refine h.enter hi hn ?_ ?_
        · rw [hs'] at hf' hb' ⊢
          refine .cons hb' (hf'.advance hvs ho (update_self ..) fun _ => ?_) hl'
          rw [update_of_ne hc]
          obtain ⟨i, hi', hle⟩ := hf.indexed
          exact hle.trans (h.fresh v i hi').1.le
        · intro p hp
          obtain rfl : (v, pos + 1) = p := by simpa using hp
          exact .single ⟨vs, hvs, he⟩
      · exact (@rest_enter succ n child { s with work := (v, pos + 1) :: ws } hi hn).trans_lt (ha s.low)
      · intro x hx
        by_cases hxc : x = child
        · simp [State.enter, hxc]
        · simpa [State.enter, hxc] using hx
    | some i =>
      by_cases hon : s.onStack child = true
      · refine ⟨_, by simp [State.step, hw, hvs, ho, hn, hi, hon]; rfl, h.meet hw hvs ho hi ?_ ?_ ?_ ?_, ha _,
          fun _ h => h⟩
        · simp
        · intro x hx
          exact update_of_ne hx _ _
        · rw [update_self]
          rcases min_choice (s.low v) i with hm | hm
          · exact .inl hm
          · exact .inr ⟨(h.onStack child).mp hon, hm⟩
        · simp
      · refine ⟨{ s with work := (v, pos + 1) :: ws }, by simp [State.step, hw, hvs, ho, hn, hi, hon],
          h.meet hw hvs ho hi le_rfl (fun _ _ => rfl) (.inl rfl) ?_, ha _, fun _ h => h⟩
        intro hm
        exact absurd ((h.onStack child).mpr hm) hon

theorem Inv.loop (hs : ∀ vs ∈ succ, ∀ w ∈ vs, w < n) (hl : succ.length = n) :
    ∀ (fuel : ℕ) (s : State), Inv succ n s → s.rest succ n ≤ fuel →
      ∃ t, s.loop n succ fuel = some t ∧ Inv succ n t ∧ t.work = [] ∧ ∀ x, s.index x ≠ none → t.index x ≠ none := by
  intro fuel
  induction fuel with
  | zero =>
    intro s h hle
    have hw : s.work = [] := by
      by_contra hw
      obtain ⟨t, -, -, hlt, -⟩ := h.step hs hl hw
      omega
    exact ⟨s, by simp [State.loop, hw], h, hw, fun _ h => h⟩
  | succ fuel ih =>
    intro s h hle
    by_cases hw : s.work = []
    · exact ⟨s, by simp [State.loop, hw], h, hw, fun _ h => h⟩
    · obtain ⟨t, ht, hi, hlt, hid⟩ := h.step hs hl hw
      obtain ⟨u, hu, hiu, hwu, hd⟩ := ih t hi (by omega)
      exact ⟨u, by simp [State.loop, hw, ht, hu], hiu, hwu, fun x hx => hd x (hid x hx)⟩

theorem turns_eq (succ : List (List ℕ)) :
    turns succ = ∑ v ∈ Finset.range succ.length, ((succ[v]?.getD []).length + 1) := by
  induction succ with
  | nil => rfl
  | cons vs succ ih =>
    rw [length_cons, Finset.sum_range_succ', turns, map_cons, sum_cons]
    simp only [getElem?_cons_succ, getElem?_cons_zero, getD_some, ← ih, turns]
    omega

theorem rest_le (hl : succ.length = n) (hw : s.work = []) : s.rest succ n ≤ turns succ := by
  rw [turns_eq, hl, State.rest, hw]
  simp only [map_nil, sum_nil, Nat.add_zero]
  apply Finset.sum_le_sum
  intro v _
  split_ifs <;> omega

theorem Inv.root (hs : ∀ vs ∈ succ, ∀ w ∈ vs, w < n) (hl : succ.length = n) (h : Inv succ n s) (hw : s.work = [])
    (hv : v < n) : ∃ t, s.root n succ v = some t ∧ Inv succ n t ∧ t.work = [] ∧ t.index v ≠ none ∧
      ∀ x, s.index x ≠ none → t.index x ≠ none := by
  cases hi : s.index v with
  | some i => exact ⟨s, by simp [State.root, hi], h, hw, by simp [hi], fun _ h => h⟩
  | none =>
    have hf := h.frames_enter hi
    rw [hw] at hf
    have he := h.enter hi hv hf fun p hp => by cases hp
    rw [← hw] at he
    obtain ⟨t, ht, hi', hw', hd⟩ := Inv.loop hs hl (turns succ) _ he
      ((rest_enter hi hv).trans_le (rest_le hl hw))
    refine ⟨t, by simp [State.root, hi, ht], hi', hw', hd v (by simp [State.enter]), fun x hx => hd x ?_⟩
    by_cases hxv : x = v
    · exact absurd hi (hxv ▸ hx)
    · simpa [State.enter, hxv] using hx

theorem Inv.start : Inv succ n .start where
  frames := .nil
  ordered := .nil
  onStack := by simp [State.start]
  indexed := by simp [State.start]
  fresh := by simp [State.start]
  comp := by simp [State.start]
  apart := by simp [State.start]
  nodup := by simp [State.start]
  closed := by simp [State.start]
  joined := by simp [State.start]

theorem Inv.roots (hs : ∀ vs ∈ succ, ∀ w ∈ vs, w < n) (hl : succ.length = n) (vs : List ℕ) :
    ∀ s, Inv succ n s → s.work = [] → (∀ v ∈ vs, v < n) →
      ∃ t, vs.foldlM (State.root n succ) s = some t ∧ Inv succ n t ∧ t.work = [] ∧ (∀ v ∈ vs, t.index v ≠ none) ∧
        ∀ x, s.index x ≠ none → t.index x ≠ none := by
  induction vs with
  | nil => exact fun s h hw _ => ⟨s, rfl, h, hw, by simp, fun _ h => h⟩
  | cons v vs ih =>
    intro s h hw hvs
    obtain ⟨t, ht, hi, hwt, hv, hid⟩ := h.root hs hl hw (hvs v (by simp))
    obtain ⟨u, hu, hiu, hwu, ha, hd⟩ := ih t hi hwt fun x hx => hvs x (by simp [hx])
    refine ⟨u, by simp [foldlM_cons, ht, hu], hiu, hwu, ?_, fun x hx => hd x (hid x hx)⟩
    intro x hx
    rcases mem_cons.mp hx with rfl | hx
    · exact hd x hv
    · exact ha x hx

variable (succ n) in
/-- The strongly connected components in an order where each one follows those that it refers to. -/
structure Condensed (comps : List (List ℕ)) (compOf : ℕ → Option ℕ) : Prop where
  comp : ∀ v c, compOf v = some c ↔ ∃ l, comps[c]? = some l ∧ v ∈ l
  total : ∀ v, v < n ↔ compOf v ≠ none
  nodup : ∀ l ∈ comps, l ≠ [] ∧ l.Nodup
  closed : ∀ u c v, compOf u = some c → Edge succ u v → ∃ d ≤ c, compOf v = some d
  joined : ∀ u v c, compOf u = some c → compOf v = some c → Reach succ u v

theorem exists_components (hu : ∀ vs ∈ succ, ∀ w ∈ vs, w < n) (hl : succ.length = n) :
    ∃ comps compOf, components n succ = some (comps, compOf) ∧ Condensed succ n comps compOf := by
  obtain ⟨t, ht, hi, hw, ha, -⟩ := Inv.roots hu hl (List.range n) .start .start rfl (by simp)
  have hs : t.stack = [] := by
    have hf := hi.frames
    rw [hw] at hf
    generalize t.stack = l at hf
    cases hf
    rfl
  refine ⟨t.comps, t.compOf, by simp [components, ht], hi.comp, fun v => ?_, hi.nodup, hi.closed, hi.joined⟩
  have hv := hi.indexed v
  rw [hs] at hv
  rw [← hv.trans (by simp : _ ↔ t.compOf v ≠ none)]
  refine ⟨fun h => ha v (by simpa using h), fun h => ?_⟩
  obtain ⟨i, hvi⟩ := ne_none_iff_exists'.mp h
  exact (hi.fresh v i hvi).2

end

end LoomV4.Lib.Scc
