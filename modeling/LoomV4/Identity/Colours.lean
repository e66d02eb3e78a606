import LoomV4.Identity.Refine
import LoomV4.Lib.Traverse

namespace LoomV4.Identity

open Lib Lib.Reader List Option

variable {values base : List Bytes} {colours : List ℕ} {refs : List (List ℕ)}

@[simp] theorem rank_length : (rank values).1.length = values.length := by simp [rank]

theorem exists_signatures (hl : colours.length = refs.length) (he : ∀ rs ∈ refs, ∀ r ∈ rs, r < colours.length) :
    ∃ sigs, signatures colours refs = some sigs ∧ sigs.length = refs.length := by
  obtain ⟨sigs, hs⟩ : ∃ sigs, signatures colours refs = some sigs := exists_mapM fun p hp => by
    have hp := of_mem_zip hp
    obtain ⟨cs, hcs⟩ : ∃ cs, p.2.mapM (fun r => colours[r]?) = some cs := exists_mapM fun r hr =>
      ⟨_, getElem?_eq_getElem (he p.2 hp.2 r hr)⟩
    exact ⟨_, by rw [signature, hcs]; rfl⟩
  refine ⟨sigs, hs, ?_⟩
  rw [mapM_length hs, length_zip, hl, Nat.min_self]

theorem exists_refineRounds {componentRounds moduleRounds : ℕ} (he : ∀ rs ∈ refs, ∀ r ∈ rs, r < refs.length)
    (left round distinct : ℕ) (hl : colours.length = refs.length) :
    ∃ r, refineRounds refs componentRounds moduleRounds left round colours distinct = some r ∧
      ∀ c rounds, r = .ok (c, rounds) → c.length = refs.length := by
  induction left generalizing round colours distinct with
  | zero =>
    refine ⟨_, rfl, fun c rounds hr => ?_⟩
    cases hr
    exact hl
  | succ left ih =>
    rw [refineRounds]
    split_ifs with h1 h2 h3
    · refine ⟨_, rfl, fun c rounds hr => ?_⟩
      cases hr
      exact hl
    · exact ⟨_, rfl, fun c rounds hr => by cases hr⟩
    · exact ⟨_, rfl, fun c rounds hr => by cases hr⟩
    · obtain ⟨sigs, hi, hs⟩ := exists_signatures hl (hl ▸ he)
      rw [hi, bind_some]
      dsimp only
      split_ifs with h4
      · refine ⟨_, rfl, fun c rounds hr => ?_⟩
        cases hr
        rw [rank_length, hs]
      · exact ih _ _ (by rw [rank_length, hs])

theorem exists_refineColours {remaining : ℕ} (hl : base.length = refs.length)
    (hf : ∀ rs ∈ refs, ∀ r ∈ rs, r < refs.length) : ∃ r, refineColours base refs remaining = some r ∧
      ∀ c rounds work, r = .ok (c, rounds, work) → c.length = base.length := by
  rw [refineColours]
  split_ifs with h1
  · refine ⟨_, rfl, fun c rounds work hr => ?_⟩
    cases hr
    simp
  · obtain ⟨r, hr, hc⟩ := @exists_refineRounds (rank base).1 refs
      (max (refineWorkBudget / max (base.length + (refs.map List.length).sum) 1) 1)
      (remaining / max (base.length + (refs.map List.length).sum) 1) hf base.length 0 (rank base).2
      (by rw [rank_length, hl])
    dsimp only
    rw [hr]
    refine ⟨_, rfl, fun c rounds work he => ?_⟩
    cases r with
    | error e => cases he
    | ok p =>
      cases he
      rw [hl]
      exact hc p.1 p.2 rfl

section

variable (values) in
def valueAt (i : ℕ) : Bytes := values.getD i []

structure Ranking (values : List Bytes) (seen : Finset Bytes) (last : Bytes) (colour : ℕ) (rest : List ℕ) : Prop where
  mem : last ∈ seen
  le : ∀ w ∈ seen, bytesLe w last = true
  card : colour + 1 = seen.card
  sorted : (rest.map (valueAt values)).Pairwise fun a b => bytesLe a b = true
  above : ∀ i ∈ rest, bytesLe last (valueAt values i) = true

variable {seen : Finset Bytes} {last : Bytes} {colour idx : ℕ} {rest : List ℕ}

theorem Ranking.next (h : Ranking values seen last colour (idx :: rest)) :
    Ranking values (insert (valueAt values idx) seen) (valueAt values idx)
      (if valueAt values idx = last then colour else colour + 1) rest := by
  have hle := h.above idx (by simp)
  have hs := pairwise_cons.mp h.sorted
  refine ⟨Finset.mem_insert_self _ _, fun w hw => ?_, ?_, hs.2, fun i hi => hs.1 _ (List.mem_map_of_mem hi)⟩
  · rcases Finset.mem_insert.mp hw with rfl | hw
    · exact bytesLe_total.refl _
    · exact bytesLe_total.trans _ _ _ (h.le w hw) hle
  · split_ifs with heq
    · rw [Finset.insert_eq_of_mem (heq ▸ h.mem), h.card]
    · rw [Finset.card_insert_of_notMem, h.card]
      intro hm
      exact heq (bytesLe_total.antisymm _ _ (h.le _ hm) hle)

theorem Ranking.colour_eq (h : Ranking values seen last colour rest) :
    colour = ((seen ∪ (rest.map (valueAt values)).toFinset).filter fun w => bytesLe w last = true ∧ w ≠ last).card := by
  have hf : ((seen ∪ (rest.map (valueAt values)).toFinset).filter fun w => bytesLe w last = true ∧ w ≠ last) =
      seen.erase last := by
    ext w
    rw [Finset.mem_filter, Finset.mem_union, Finset.mem_erase, List.mem_toFinset, List.mem_map]
    constructor
    · rintro ⟨hw | ⟨i, hi, rfl⟩, hle, hne⟩
      · exact ⟨hne, hw⟩
      · exact absurd (bytesLe_total.antisymm _ _ hle (h.above i hi)) hne
    · rintro ⟨hne, hw⟩
      exact ⟨.inl hw, h.le w hw, hne⟩
  have hc := h.card
  rw [hf, Finset.card_erase_of_mem h.mem]
  omega

theorem union_insert_map : insert (valueAt values idx) seen ∪ (rest.map (valueAt values)).toFinset =
    seen ∪ ((idx :: rest).map (valueAt values)).toFinset := by
  ext w
  simp only [map_cons, toFinset_cons, Finset.mem_union, Finset.mem_insert]
  tauto

theorem Ranking.mem_rankFrom (h : Ranking values seen last colour rest) :
    ∀ p ∈ rankFrom values last colour rest, p.2 = ((seen ∪ (rest.map (valueAt values)).toFinset).filter fun w =>
      bytesLe w (valueAt values p.1) = true ∧ w ≠ valueAt values p.1).card := by
  induction rest generalizing seen last colour with
  | nil => simp [rankFrom]
  | cons idx rest ih =>
    intro p hp
    rw [← union_insert_map]
    rcases mem_cons.mp hp with rfl | hp
    · exact h.next.colour_eq
    · exact ih h.next p hp

theorem Ranking.last_rankFrom (h : Ranking values seen last colour rest) (i : ℕ) :
    ∃ p, ((i, colour) :: rankFrom values last colour rest).getLast? = some p ∧
      p.2 + 1 = (seen ∪ (rest.map (valueAt values)).toFinset).card := by
  induction rest generalizing seen last colour i with
  | nil => exact ⟨(i, colour), rfl, by simpa using h.card⟩
  | cons idx rest ih =>
    obtain ⟨p, hp, hc⟩ := ih h.next idx
    refine ⟨p, ?_, union_insert_map ▸ hc⟩
    rw [← hp]
    exact getLast?_cons_cons

theorem rankFrom_keys : (rankFrom values last colour rest).map Prod.fst = rest := by
  induction rest generalizing last colour with
  | nil => rfl
  | cons idx rest ih => rw [rankFrom, map_cons, ih]

theorem map_valueAt_range : ((List.range values.length).map (valueAt values)) = values := by
  apply ext_getElem?
  intro i
  by_cases hi : i < values.length
  · simp [valueAt, hi]
  · rw [getElem?_eq_none (by simpa using hi), getElem?_eq_none (not_lt.mp hi)]

theorem rankTable_spec : ((rankTable values).map Prod.fst).Perm (List.range values.length) ∧
    (∀ p ∈ rankTable values, p.2 = below bytesLe values (valueAt values p.1)) ∧
    (((rankTable values).getLast?).map fun p => p.2 + 1).getD 0 = values.toFinset.card := by
  have he := mergeSort_perm (List.range values.length) fun a b => bytesLe (values.getD a []) (values.getD b [])
  have hs := @pairwise_mergeSort _ (fun a b => bytesLe (values.getD a []) (values.getD b []))
    (fun a b c => bytesLe_total.trans _ _ _) (fun a b => bytesLe_total.total _ _) (List.range values.length)
  have ht : ∀ l : List ℕ, l.Perm (List.range values.length) → (l.map (valueAt values)).toFinset = values.toFinset := by
    intro l hl
    rw [toFinset_eq_of_perm _ _ (hl.map _), map_valueAt_range]
  unfold rankTable
  match (List.range values.length).mergeSort fun a b => bytesLe (values.getD a []) (values.getD b []), he, hs with
  | [], he, _ =>
    refine ⟨he, by simp, ?_⟩
    rw [← ht [] he]
    rfl
  | first :: rest, he, hs =>
    have hs := pairwise_cons.mp hs
    have hr : Ranking values {valueAt values first} (valueAt values first) 0 rest := by
      refine ⟨Finset.mem_singleton_self _, fun w hw => ?_, rfl, pairwise_map.mpr hs.2, hs.1⟩
      rw [Finset.mem_singleton.mp hw]
      exact bytesLe_total.refl _
    have hu : {valueAt values first} ∪ (rest.map (valueAt values)).toFinset = values.toFinset := by
      rw [← ht _ he, map_cons, toFinset_cons, Finset.insert_eq]
    refine ⟨?_, fun p hp => ?_, ?_⟩
    · rw [map_cons, rankFrom_keys]
      exact he
    · rw [below, ← hu]
      rcases mem_cons.mp hp with rfl | hp
      · exact hr.colour_eq
      · exact hr.mem_rankFrom p hp
    · obtain ⟨p, hp, hc⟩ := hr.last_rankFrom first
      rw [hu] at hc
      change (((first, 0) :: rankFrom values (valueAt values first) 0 rest).getLast?.map fun p => p.2 + 1).getD 0 = _
      rw [hp]
      exact hc

theorem rank_count : (rank values).2 = values.toFinset.card := rankTable_spec.2.2

theorem rank_colour {i : ℕ} (hi : i < values.length) :
    (rank values).1[i]? = some (below bytesLe values (valueAt values i)) := by
  obtain ⟨he, hm, -⟩ := @rankTable_spec values
  have hk : i ∈ (rankTable values).map Prod.fst := he.mem_iff.mpr (mem_range.mpr hi)
  obtain ⟨c, hc⟩ : ∃ c, (rankTable values).lookup i = some c := by
    rw [← ne_none_iff_exists', Ne, lookup_eq_none_iff]
    intro hno
    obtain ⟨p, hp, rfl⟩ := List.mem_map.mp hk
    simpa using hno p hp
  obtain ⟨l1, l2, hl, -⟩ := lookup_eq_some_iff.mp hc
  rw [rank, getElem?_map, getElem?_range hi, map_some, hc, getD_some]
  exact congrArg some (hm (i, c) (by simp [hl]))

end

end LoomV4.Identity
