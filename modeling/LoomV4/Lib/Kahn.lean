import Mathlib.Data.List.Nodup
import Mathlib.Data.List.Count
import Mathlib.Data.List.Range
import Mathlib.Tactic

namespace LoomV4.Lib.Kahn

open List Function

inductive Refusal
  | deep | cycle
deriving DecidableEq

structure State where
  pending : ℕ → ℕ
  depth : ℕ → ℕ
  queue : List ℕ

def children (parents : List (List ℕ)) (p : ℕ) : List ℕ :=
  (List.range parents.length).flatMap fun c => List.replicate ((parents[c]?.getD []).count p) c

/-- One edge out of a finished node; `none` is a count that falls below zero. -/
def settle (limit p : ℕ) (s : State) (c : ℕ) : Option (Except Refusal State) :=
  let depth := Function.update s.depth c (max (s.depth c) (s.depth p + 1))
  if limit < depth c then some (.error .deep)
  else if s.pending c = 0 then none
  else
    let pending := Function.update s.pending c (s.pending c - 1)
    some (.ok { pending, depth, queue := if pending c = 0 then s.queue ++ [c] else s.queue })

def settleAll (limit p : ℕ) : List ℕ → State → Option (Except Refusal State)
  | [], s => some (.ok s)
  | c :: cs, s =>
    match settle limit p s c with
    | some (.ok s) => settleAll limit p cs s
    | r => r

def loop (limit : ℕ) (parents : List (List ℕ)) : ℕ → State → ℕ → Option (Except Refusal ℕ)
  | 0, s, finished =>
    match s.queue with
    | [] => some (.ok finished)
    | _ :: _ => none
  | fuel + 1, s, finished =>
    match s.queue with
    | [] => some (.ok finished)
    | p :: rest =>
      match settleAll limit p (children parents p) { s with queue := rest } with
      | some (.ok s) => loop limit parents fuel s (finished + 1)
      | some (.error e) => some (.error e)
      | none => none

def start (parents : List (List ℕ)) : State where
  pending := fun c => (parents[c]?.getD []).length
  depth := fun _ => 0
  queue := (List.range parents.length).filter fun c => (parents[c]?.getD []).length = 0

/-- Whether every node comes after its parents, in at most `limit` levels. -/
def check (limit : ℕ) (parents : List (List ℕ)) : Option (Except Refusal Unit) :=
  match loop limit parents parents.length (start parents) 0 with
  | some (.ok finished) => some (if finished = parents.length then .ok () else .error .cycle)
  | some (.error e) => some (.error e)
  | none => none

section

variable (parents : List (List ℕ))

inductive Topo : List ℕ → Prop
  | nil : Topo []
  | cons {c : ℕ} {done : List ℕ} : (∀ p ∈ parents[c]?.getD [], p ∈ done) → Topo done → Topo (c :: done)

/-- The loop between two pops: the finished nodes, and the edges that are still to be settled. -/
structure Inv (limit : ℕ) (done todo : List ℕ) (s : State) : Prop where
  pending : ∀ c < parents.length, s.pending c = (parents[c]?.getD []).countP (· ∉ done) + todo.count c
  ready : ∀ c < parents.length, (c ∈ s.queue ∨ c ∈ done) ↔ s.pending c = 0
  nodup : (done ++ s.queue).Nodup
  bound : ∀ c ∈ done ++ s.queue, c < parents.length
  topo : Topo parents done
  depth_le : ∀ c, s.depth c ≤ limit
  deeper : ∀ c < parents.length, ∀ q ∈ done, q ∈ parents[c]?.getD [] →
    s.depth q < s.depth c ∨ done.head? = some q ∧ c ∈ todo

variable {parents} {limit : ℕ} {done todo : List ℕ} {s : State} {p c : ℕ}

theorem count_children (hc : c < parents.length) : (children parents p).count c = (parents[c]?.getD []).count p := by
  rw [children, count_flatMap]
  have hs : ∀ l : List ℕ, l.Nodup →
      (l.map (List.count c ∘ fun d => List.replicate ((parents[d]?.getD []).count p) d)).sum =
        if c ∈ l then (parents[c]?.getD []).count p else 0 := by
    intro l
    induction l with
    | nil => simp
    | cons d l ih =>
      intro hl
      obtain ⟨hd, hl⟩ := nodup_cons.mp hl
      rw [map_cons, sum_cons, ih hl]
      by_cases hdc : d = c
      · subst hdc
        simp [hd]
      · simp [count_replicate, hdc, Ne.symm hdc]
  rw [hs _ nodup_range, if_pos (mem_range.mpr hc)]

theorem mem_children (h : c ∈ children parents p) : c < parents.length := by
  simp only [children, mem_flatMap, mem_range, mem_replicate] at h
  obtain ⟨d, hd, -, rfl⟩ := h
  exact hd

theorem countP_cons_add {l : List ℕ} (hp : p ∉ done) :
    l.countP (· ∉ p :: done) + l.count p = l.countP (· ∉ done) := by
  induction l with
  | nil => rfl
  | cons a l ih =>
    by_cases ha : a = p
    · subst ha
      simp [hp] at ih ⊢
      omega
    · by_cases had : a ∈ done <;> simp [ha, had] at ih ⊢ <;> omega

theorem Inv.pop {rest : List ℕ} (h : Inv parents limit done [] s) (hq : s.queue = p :: rest) :
    Inv parents limit (p :: done) (children parents p) { s with queue := rest } := by
  have hnd := h.nodup
  rw [hq, nodup_append] at hnd
  obtain ⟨hd, hr, hi⟩ := hnd
  have hp : p ∉ done := fun hm => hi p hm p (by simp) rfl
  have hlt : p < parents.length := h.bound p (by simp [hq])
  refine ⟨fun c hc => ?_, fun c hc => ?_, ?_, fun c hc => ?_, .cons (fun q hm => ?_) h.topo, h.depth_le,
    fun c hc q hq hqc => ?_⟩
  · rw [count_children hc, countP_cons_add hp]
    simpa using h.pending c hc
  · rw [← h.ready c hc, hq]
    simp only [mem_cons]
    tauto
  · rw [cons_append, nodup_cons, nodup_append, mem_append, not_or]
    rw [nodup_cons] at hr
    exact ⟨⟨hp, hr.1⟩, hd, hr.2, fun a ha b hb => hi a ha b (by simp [hb])⟩
  · apply h.bound
    rw [hq]
    simp only [mem_append, mem_cons] at hc ⊢
    tauto
  · have hz := (h.ready p hlt).mp (.inl (by simp [hq]))
    rw [h.pending p hlt, count_nil, Nat.add_zero, countP_eq_zero] at hz
    simpa using hz q hm
  · rcases mem_cons.mp hq with rfl | hq
    · refine .inr ⟨rfl, count_pos_iff.mp ?_⟩
      rw [count_children hc]
      exact count_pos_iff.mpr hqc
    · exact .inl ((h.deeper c hc q hq hqc).resolve_right fun hr => by cases hr.2)

theorem Inv.settle (h : Inv parents limit done (c :: todo) s) (hp : done.head? = some p) (hc : c < parents.length) :
    settle limit p s c = some (.error .deep) ∧ limit < max (s.depth c) (s.depth p + 1) ∨
      ∃ t, settle limit p s c = some (.ok t) ∧ Inv parents limit done todo t ∧
        t.depth = Function.update s.depth c (max (s.depth c) (s.depth p + 1)) := by
  have hn := h.pending c hc
  rw [count_cons_self] at hn
  have hs : s.pending c ≠ 0 := by omega
  have ho : c ∉ s.queue ∧ c ∉ done := by
    rw [← not_or]
    exact fun hm => hs ((h.ready c hc).mp hm)
  unfold Kahn.settle
  by_cases he : limit < Function.update s.depth c (max (s.depth c) (s.depth p + 1)) c
  · left
    simp only [he, if_true, true_and]
    rwa [update_self] at he
  · right
    rw [update_self] at he
    simp only [he, if_false, hs, update_self]
    refine ⟨_, rfl, ⟨fun d hd => ?_, fun d hd => ?_, ?_, ?_, h.topo, fun d => ?_, fun d hd q hq hqd => ?_⟩, rfl⟩
    · by_cases hdc : d = c
      · subst hdc
        simp only [update_self]
        omega
      · simp only [update_of_ne hdc]
        rw [h.pending d hd, count_cons_of_ne (Ne.symm hdc)]
    · by_cases hdc : d = c
      · subst hdc
        simp only [update_self]
        split_ifs with hz <;> simp [hz, ho]
      · simp only [update_of_ne hdc]
        rw [← h.ready d hd]
        split_ifs <;> simp [hdc]
    · dsimp only
      split_ifs
      · rw [← append_assoc, nodup_append]
        refine ⟨h.nodup, by simp, fun a ha b hb => ?_⟩
        obtain rfl : b = c := by simpa using hb
        rintro rfl
        rcases mem_append.mp ha with ha | ha
        · exact ho.2 ha
        · exact ho.1 ha
      · exact h.nodup
    · dsimp only
      intro d hd
      split_ifs at hd
      · rw [← append_assoc, mem_append, mem_singleton] at hd
        rcases hd with hd | rfl
        · exact h.bound d hd
        · exact hc
      · exact h.bound d hd
    · dsimp only
      by_cases hdc : d = c
      · subst hdc
        rw [update_self]
        omega
      · rw [update_of_ne hdc]
        exact h.depth_le d
    · have hqc : q ≠ c := fun heq => ho.2 (heq ▸ hq)
      dsimp only
      rw [update_of_ne hqc]
      by_cases hdc : d = c
      · subst hdc
        rw [update_self]
        rcases h.deeper d hd q hq hqd with hlt | ⟨hh, -⟩
        · exact .inl (lt_of_lt_of_le hlt (le_max_left _ _))
        · cases hp.symm.trans hh
          exact .inl (lt_of_lt_of_le (Nat.lt_succ_self _) (le_max_right _ _))
      · rw [update_of_ne hdc]
        rcases h.deeper d hd q hq hqd with hlt | ⟨hh, hme⟩
        · exact .inl hlt
        · exact .inr ⟨hh, (mem_cons.mp hme).resolve_left hdc⟩

variable {level : ℕ → ℕ}

/-- Levels that increase along the edges bound the depths, so only a level above the limit can be refused. -/
theorem Inv.settleAll (level : ℕ → ℕ) (hp : done.head? = some p) (hlt : p < parents.length) (cs : List ℕ) :
    ∀ {s : State}, Inv parents limit done cs s → (∀ c ∈ cs, c < parents.length) →
    settleAll limit p cs s = some (.error .deep) ∧ ((∀ c < parents.length, s.depth c ≤ level c) →
      (∀ c ∈ cs, level p < level c) → ∃ c < parents.length, limit < level c) ∨
    ∃ t, settleAll limit p cs s = some (.ok t) ∧ Inv parents limit done [] t ∧
      ((∀ c < parents.length, s.depth c ≤ level c) → (∀ c ∈ cs, level p < level c) →
        ∀ c < parents.length, t.depth c ≤ level c) := by
  induction cs with
  | nil => exact fun h _ => .inr ⟨_, rfl, h, fun hd _ => hd⟩
  | cons c cs ih =>
    intro s h hcs
    have hc := hcs c (by simp)
    have hmax : (∀ c < parents.length, s.depth c ≤ level c) → level p < level c →
        max (s.depth c) (s.depth p + 1) ≤ level c := fun hd hl => max_le (hd c hc) (by have := hd p hlt; omega)
    rcases h.settle hp hc with ⟨he, hlim⟩ | ⟨t, ht, hi, hdt⟩
    · refine .inl ⟨by simp [Kahn.settleAll, he], fun hd hl => ⟨c, hc, ?_⟩⟩
      exact lt_of_lt_of_le hlim (hmax hd (hl c (by simp)))
    · have next : (∀ c < parents.length, s.depth c ≤ level c) → (∀ d ∈ c :: cs, level p < level d) →
          ∀ d < parents.length, t.depth d ≤ level d := by
        intro hd hl d hdl
        rw [hdt, update_apply]
        split_ifs with hdc
        · exact hdc ▸ hmax hd (hl c (by simp))
        · exact hd d hdl
      rcases ih hi fun d hd => hcs d (by simp [hd]) with ⟨he, hr⟩ | ⟨u, hu, hiu, hr⟩
      · exact .inl ⟨by simp [Kahn.settleAll, ht, he],
          fun hd hl => hr (next hd hl) fun d hm => hl d (by simp [hm])⟩
      · exact .inr ⟨u, by simp [Kahn.settleAll, ht, hu], hiu,
          fun hd hl => hr (next hd hl) fun d hm => hl d (by simp [hm])⟩

theorem Inv.length_le (h : Inv parents limit done todo s) : done.length + s.queue.length ≤ parents.length := by
  rw [← length_append]
  have hs : (done ++ s.queue) ⊆ List.range parents.length := fun c hc => mem_range.mpr (h.bound c hc)
  simpa using (h.nodup.subperm hs).length_le

theorem Inv.loop (level : ℕ → ℕ) : ∀ {fuel : ℕ} {done : List ℕ} {s : State}, Inv parents limit done [] s →
    parents.length ≤ fuel + done.length →
    loop limit parents fuel s done.length = some (.error .deep) ∧ ((∀ c < parents.length, s.depth c ≤ level c) →
      (∀ c < parents.length, ∀ p ∈ parents[c]?.getD [], level p < level c) → ∃ c < parents.length, limit < level c) ∨
    ∃ all t, loop limit parents fuel s done.length = some (.ok all.length) ∧ Inv parents limit all [] t ∧
      t.queue = [] := by
  intro fuel
  induction fuel with
  | zero =>
    intro done s h hle
    have hq : s.queue = [] := by
      have := h.length_le
      exact length_eq_zero_iff.mp (by omega)
    exact .inr ⟨done, s, by simp [Kahn.loop, hq], h, hq⟩
  | succ fuel ih =>
    intro done s h hle
    cases hq : s.queue with
    | nil => exact .inr ⟨done, s, by simp [Kahn.loop, hq], h, hq⟩
    | cons p rest =>
      have edges : (∀ c < parents.length, ∀ p ∈ parents[c]?.getD [], level p < level c) →
          ∀ c ∈ children parents p, level p < level c := by
        intro hl c hc
        have hpc := count_pos_iff.mpr hc
        rw [count_children (mem_children hc)] at hpc
        exact hl c (mem_children hc) p (count_pos_iff.mp hpc)
      rcases Inv.settleAll level rfl (h.bound p (by simp [hq])) _ (h.pop hq) fun _ hc => mem_children hc with
        ⟨he, hr⟩ | ⟨t, ht, hi, hr⟩
      · exact .inl ⟨by simp [Kahn.loop, hq, he], fun hd hl => hr hd (edges hl)⟩
      · rcases ih hi (by simp only [length_cons]; omega) with ⟨he, hr'⟩ | ⟨all, u, hu, hiu⟩
        · exact .inl ⟨by simpa [Kahn.loop, hq, ht] using he, fun hd hl => hr' (hr hd (edges hl)) hl⟩
        · exact .inr ⟨all, u, by simpa [Kahn.loop, hq, ht] using hu, hiu⟩

theorem Inv.start : Inv parents limit [] [] (start parents) where
  pending := by
    intro c _
    simp [Kahn.start]
  ready := by
    intro c hc
    simp [Kahn.start, hc]
  nodup := by
    simpa [Kahn.start] using nodup_range.filter _
  bound := by
    intro c hc
    simp only [Kahn.start, nil_append, mem_filter, mem_range] at hc
    exact hc.1
  topo := .nil
  depth_le := by simp [Kahn.start]
  deeper := by simp

theorem exists_check (limit : ℕ) (parents : List (List ℕ)) : ∃ r, check limit parents = some r := by
  unfold check
  rcases Inv.loop id (@Inv.start parents limit) (Nat.le_refl _) with ⟨he, -⟩ | ⟨all, t, ht, -⟩
  · exact ⟨_, by simp only [length_nil] at he; rw [he]⟩
  · exact ⟨_, by simp only [length_nil] at ht; rw [ht]⟩

theorem Topo.parent_mem {done : List ℕ} (h : Topo parents done) (hc : c ∈ done) (hp : p ∈ parents[c]?.getD []) :
    p ∈ done := by
  induction h with
  | nil => cases hc
  | @cons d done hd _ ih =>
    rcases mem_cons.mp hc with rfl | hc
    · exact mem_cons_of_mem _ (hd p hp)
    · exact mem_cons_of_mem _ (ih hc)

theorem Topo.exists_rank {done : List ℕ} (h : Topo parents done) (hnd : done.Nodup) :
    ∃ rank : ℕ → ℕ, ∀ c ∈ done, rank c < done.length ∧ ∀ p ∈ parents[c]?.getD [], rank p < rank c := by
  induction h with
  | nil => exact ⟨fun _ => 0, by simp⟩
  | @cons c done hp ht ih =>
    obtain ⟨hc, hnd⟩ := nodup_cons.mp hnd
    obtain ⟨rank, hr⟩ := ih hnd
    refine ⟨Function.update rank c done.length, fun d hd => ?_⟩
    have hold : ∀ q ∈ done, Function.update rank c done.length q = rank q := by
      intro q hq
      apply update_of_ne
      rintro rfl
      exact hc hq
    rcases mem_cons.mp hd with rfl | hd
    · rw [update_self]
      refine ⟨by simp, fun q hq => ?_⟩
      rw [hold q (hp q hq)]
      exact (hr q (hp q hq)).1
    · rw [hold d hd]
      obtain ⟨hlt, ha⟩ := hr d hd
      refine ⟨hlt.trans (by simp), fun q hq => ?_⟩
      rw [hold q (ht.parent_mem hd hq)]
      exact ha q hq

theorem check_done {limit : ℕ} (h : check limit parents = some (.ok ())) :
    ∃ all t, Inv parents limit all [] t ∧ all.Perm (List.range parents.length) := by
  rcases Inv.loop id (@Inv.start parents limit) (Nat.le_refl _) with ⟨he, -⟩ | ⟨all, t, ht, hi, -⟩
  · simp only [length_nil] at he
    simp [check, he] at h
  · simp only [length_nil] at ht
    have hl : all.length = parents.length := by
      by_contra hne
      simp [check, ht, hne] at h
    have hnd := (nodup_append.mp hi.nodup).1
    have hs : all ⊆ List.range parents.length := fun c hc =>
      mem_range.mpr (hi.bound c (mem_append_left _ hc))
    exact ⟨all, t, hi, (hnd.subperm hs).perm_of_length_le (by simp [hl])⟩

theorem check_ok {limit : ℕ} (h : check limit parents = some (.ok ())) :
    ∃ rank : ℕ → ℕ, ∀ c < parents.length, rank c < parents.length ∧ ∀ p ∈ parents[c]?.getD [], rank p < rank c := by
  obtain ⟨all, t, hi, hp⟩ := check_done h
  have hl : all.length = parents.length := by simpa using hp.length_eq
  obtain ⟨rank, hr⟩ := hi.topo.exists_rank (nodup_append.mp hi.nodup).1
  exact ⟨rank, fun c hc => hl ▸ hr c (hp.mem_iff.mpr (mem_range.mpr hc))⟩

theorem check_of_levels (hlevel : ∀ c < parents.length, level c ≤ limit ∧
    ∀ p ∈ parents[c]?.getD [], p < parents.length ∧ level p < level c) : check limit parents = some (.ok ()) := by
  obtain ⟨-, hdeep⟩ | ⟨all, t, ht, hi, hq⟩ := Inv.loop level (@Inv.start parents limit) (Nat.le_refl _)
  · obtain ⟨c, hc, hlt⟩ := hdeep (by simp [Kahn.start]) fun c hc p hp => ((hlevel c hc).2 p hp).2
    exact absurd (hlevel c hc).1 (not_le.mpr hlt)
  have ha : ∀ (n c : ℕ), level c = n → c < parents.length → c ∈ all := by
    intro n
    induction n using Nat.strong_induction_on with
    | _ n ih =>
      rintro c rfl hc
      have hz : t.pending c = 0 := by
        rw [hi.pending c hc, count_nil, Nat.add_zero, countP_eq_zero]
        intro p hp
        obtain ⟨hlt, hlv⟩ := (hlevel c hc).2 p hp
        simpa using ih (level p) hlv p rfl hlt
      simpa [hq] using (hi.ready c hc).mpr hz
  have hnd := (nodup_append.mp hi.nodup).1
  have hl : all.length = parents.length := by
    apply le_antisymm
    · have := hi.length_le
      omega
    · have hs : List.range parents.length ⊆ all := fun c hc => ha _ c rfl (mem_range.mp hc)
      simpa using (nodup_range.subperm hs).length_le
  simp only [length_nil] at ht
  simp [check, ht, hl]

end

end LoomV4.Lib.Kahn
