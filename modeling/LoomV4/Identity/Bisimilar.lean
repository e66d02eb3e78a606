import LoomV4.Identity.Colours
import LoomV4.Lib.Bisim
import Mathlib.Data.List.GetD

namespace LoomV4.Identity

open Lib Lib.Reader List Option

variable {values base sigs : List Bytes} {colours : List ℕ} {refs : List (List ℕ)} {distinct : ℕ}

def colourAt (colours : List ℕ) (i : ℕ) : ℕ := colours.getD i 0

def refsAt (refs : List (List ℕ)) (i : ℕ) : List ℕ := refs.getD i []

theorem leBytes_inj {n a b : ℕ} (ha : a < 256 ^ n) (hb : b < 256 ^ n) : leBytes n a = leBytes n b ↔ a = b := by
  constructor
  · intro h
    rw [← ofLe_leBytes n a ha, h, ofLe_leBytes n b hb]
  · rintro rfl
    rfl

theorem flatMap_leBytes_inj {cs ds : List ℕ} (hc : ∀ c ∈ cs, c < 256 ^ 4) (hd : ∀ d ∈ ds, d < 256 ^ 4) :
    cs.flatMap (leBytes 4) = ds.flatMap (leBytes 4) ↔ cs = ds := by
  refine ⟨fun h => ?_, fun h => h ▸ rfl⟩
  induction cs generalizing ds with
  | nil =>
    cases ds with
    | nil => rfl
    | cons d ds =>
      have := congrArg List.length h
      simp only [flatMap_nil, flatMap_cons, length_nil, length_append, length_leBytes] at this
      omega
  | cons c cs ih =>
    cases ds with
    | nil =>
      have := congrArg List.length h
      simp only [flatMap_nil, flatMap_cons, length_nil, length_append, length_leBytes] at this
      omega
    | cons d ds =>
      rw [flatMap_cons, flatMap_cons] at h
      obtain ⟨hh, ht⟩ := append_inj h (by simp)
      rw [(leBytes_inj (hc c (by simp)) (hd d (by simp))).mp hh,
        ih (fun x hx => hc x (by simp [hx])) (fun x hx => hd x (by simp [hx])) ht]

theorem mapM_colours {rs cs : List ℕ} (h : rs.mapM (fun r => colours[r]?) = some cs) : cs = rs.map (colourAt colours) := by
  apply ext_getElem?
  intro k
  have hlen := mapM_length h
  rw [mapM_getElem? h, getElem?_map]
  by_cases hk : k < rs.length
  · rw [getElem?_eq_getElem hk, bind_some, map_some]
    have hcs : cs[k]? = colours[rs[k]]? := by rw [mapM_getElem? h, getElem?_eq_getElem hk, bind_some]
    rw [getElem?_eq_getElem (hlen ▸ hk)] at hcs
    rw [← hcs, colourAt, getD_eq_getElem?_getD, ← hcs, getD_some]
  · rw [getElem?_eq_none (not_lt.mp hk)]
    rfl

theorem signatures_getElem? (h : signatures colours refs = some sigs) (hlen : colours.length = refs.length) {i : ℕ}
    (hi : i < refs.length) :
    sigs[i]? = some ((colourAt colours i :: (refsAt refs i).map (colourAt colours)).flatMap (leBytes 4)) := by
  have hg := mapM_getElem? h i
  have hz : (colours.zip refs)[i]? = some (colourAt colours i, refsAt refs i) := by
    rw [getElem?_zip_eq_some]
    simp [colourAt, refsAt, hi, hlen ▸ hi]
  have hs : i < sigs.length := by
    rw [mapM_length h, length_zip, hlen, Nat.min_self]
    exact hi
  rw [hz, bind_some, getElem?_eq_getElem hs] at hg
  obtain ⟨cs, hcs, hsi⟩ := map_eq_some_iff.mp hg.symm
  rw [getElem?_eq_getElem hs, ← hsi, mapM_colours hcs, flatMap_cons]

section

variable (base refs)

/-- A colouring between the member bytes and every bisimulation, with the colours dense. -/
structure Coloured (colours : List ℕ) (distinct : ℕ) : Prop where
  length : colours.length = base.length
  count : ((Finset.range base.length).image (colourAt colours)).card = distinct
  dense : ∀ x, x ∈ colours ↔ x < distinct
  label : ∀ i < base.length, ∀ j < base.length, colourAt colours i = colourAt colours j → valueAt base i = valueAt base j
  coarse : ∀ R, Bisim.IsBisimulation (valueAt base) (refsAt refs) (Finset.range base.length) R →
    ∀ i j, R i j → colourAt colours i = colourAt colours j

end

theorem colourAt_rank {i : ℕ} (hi : i < values.length) :
    colourAt (rank values).1 i = below bytesLe values (valueAt values i) := by
  rw [colourAt, getD_eq_getElem?_getD, rank_colour hi, getD_some]

theorem valueAt_mem {i : ℕ} (hi : i < values.length) : valueAt values i ∈ values := by
  simp [valueAt, getD_eq_getElem?_getD, hi]

theorem rank_same {i j : ℕ} (hi : i < values.length) (hj : j < values.length) :
    colourAt (rank values).1 i = colourAt (rank values).1 j ↔ valueAt values i = valueAt values j := by
  rw [colourAt_rank hi, colourAt_rank hj, below_inj bytesLe_total (valueAt_mem hi) (valueAt_mem hj)]

theorem mem_values {v : Bytes} : v ∈ values ↔ ∃ i < values.length, valueAt values i = v := by
  constructor
  · intro hv
    obtain ⟨i, hi, rfl⟩ := getElem_of_mem hv
    exact ⟨i, hi, by simp [valueAt, hi]⟩
  · rintro ⟨i, hi, rfl⟩
    exact valueAt_mem hi

theorem rank_dense (x : ℕ) : x ∈ (rank values).1 ↔ x < (rank values).2 := by
  rw [rank_count]
  constructor
  · intro hx
    obtain ⟨i, hi, rfl⟩ := getElem_of_mem hx
    have hi' : i < values.length := rank_length ▸ hi
    have := rank_colour hi'
    rw [getElem?_eq_getElem hi] at this
    rw [some.inj this]
    exact below_lt (valueAt_mem hi')
  · intro hx
    obtain ⟨v, hv, rfl⟩ := exists_below bytesLe_total hx
    obtain ⟨i, hi, rfl⟩ := mem_values.mp hv
    exact mem_of_getElem? (rank_colour hi)

theorem rank_eq : rank values = (values.map (below bytesLe values), values.toFinset.card) := by
  refine Prod.ext (ext_getElem? fun i => ?_) rank_count
  by_cases hi : i < values.length
  · rw [rank_colour hi, getElem?_map, getElem?_eq_getElem hi, valueAt, getD_eq_getElem _ _ hi]
    rfl
  · rw [getElem?_eq_none (by rw [rank_length]; omega), getElem?_eq_none (by simpa using hi)]

theorem rank_image : ((Finset.range values.length).image (colourAt (rank values).1)) = Finset.range (rank values).2 := by
  ext x
  rw [Finset.mem_image, Finset.mem_range, ← rank_dense]
  constructor
  · rintro ⟨i, hi, rfl⟩
    have hi : i < (rank values).1.length := by simpa using hi
    rw [colourAt, getD_eq_getElem _ _ hi]
    exact getElem_mem hi
  · intro hx
    obtain ⟨i, hi, rfl⟩ := getElem_of_mem hx
    exact ⟨i, by simpa using hi, by rw [colourAt, getD_eq_getElem _ _ hi]⟩

section

variable (hlen : refs.length = base.length) (hrefs : ∀ rs ∈ refs, ∀ r ∈ rs, r < base.length) (hsize : base.length ≤ 2 ^ 32)

include hlen hrefs

theorem refsAt_lt : ∀ i ∈ Finset.range base.length, ∀ r ∈ refsAt refs i, r ∈ Finset.range base.length := by
  intro i hi r hr
  have hi : i < refs.length := hlen ▸ Finset.mem_range.mp hi
  rw [refsAt, getD_eq_getElem _ _ hi] at hr
  exact Finset.mem_range.mpr (hrefs _ (getElem_mem hi) r hr)

include hsize

theorem Coloured.round (h : Coloured base refs colours distinct) (hs : signatures colours refs = some sigs) :
    sigs.length = base.length ∧
      Bisim.Round (refsAt refs) (Finset.range base.length) (colourAt colours) (colourAt (rank sigs).1) := by
  have hc : colours.length = refs.length := h.length.trans hlen.symm
  have hl : sigs.length = base.length := by
    rw [mapM_length hs, length_zip, hc, Nat.min_self, hlen]
  have hm : ∀ i ∈ Finset.range base.length, colourAt colours i < 256 ^ 4 := by
    intro i hi
    have hi : i < colours.length := h.length.symm ▸ Finset.mem_range.mp hi
    have hlt : colourAt colours i < distinct := by
      rw [← h.dense, colourAt, getD_eq_getElem _ _ hi]
      exact getElem_mem hi
    have ha : distinct ≤ base.length := by
      rw [← h.count]
      exact Finset.card_image_le.trans_eq (Finset.card_range _)
    have : (256 : ℕ) ^ 4 = 2 ^ 32 := by norm_num
    omega
  have hg : ∀ i ∈ Finset.range base.length, valueAt sigs i =
      (colourAt colours i :: (refsAt refs i).map (colourAt colours)).flatMap (leBytes 4) := by
    intro i hi
    rw [valueAt, getD_eq_getElem?_getD, signatures_getElem? hs hc (hlen ▸ Finset.mem_range.mp hi), getD_some]
  have hw : ∀ i ∈ Finset.range base.length, ∀ x ∈ colourAt colours i :: (refsAt refs i).map (colourAt colours),
      x < 256 ^ 4 := by
    intro i hi x hx
    rcases mem_cons.mp hx with rfl | hx
    · exact hm i hi
    · obtain ⟨r, hr, rfl⟩ := List.mem_map.mp hx
      exact hm r (refsAt_lt hlen hrefs i hi r hr)
  refine ⟨hl, fun i hi j hj => ?_⟩
  rw [rank_same (hl ▸ Finset.mem_range.mp hi) (hl ▸ Finset.mem_range.mp hj), hg i hi, hg j hj,
    flatMap_leBytes_inj (hw i hi) (hw j hj), List.cons.injEq]

variable (hcount : ∀ i < base.length, ∀ j < base.length, valueAt base i = valueAt base j →
  (refsAt refs i).length = (refsAt refs j).length)

include hcount

theorem Coloured.next (h : Coloured base refs colours distinct) (hs : signatures colours refs = some sigs) :
    Coloured base refs (rank sigs).1 (rank sigs).2 := by
  obtain ⟨hl, hr⟩ := h.round hlen hrefs hsize hs
  have hcount' : ∀ i ∈ Finset.range base.length, ∀ j ∈ Finset.range base.length, valueAt base i = valueAt base j →
      (refsAt refs i).length = (refsAt refs j).length := by simpa using hcount
  refine ⟨rank_length.trans hl, ?_, rank_dense, fun i hi j hj hij => ?_, fun R hR => ?_⟩
  · rw [← hl, rank_image, Finset.card_range]
  · exact h.label i hi j hj ((hr i (Finset.mem_range.mpr hi) j (Finset.mem_range.mpr hj)).mp hij).1
  · exact hr.keeps hcount' hR (h.coarse R hR)

theorem Coloured.rounds {componentRounds moduleRounds left round : ℕ} {c : List ℕ} {rounds : ℕ}
    (h : Coloured base refs colours distinct) (hl : base.length ≤ distinct + left)
    (hr : refineRounds refs componentRounds moduleRounds left round colours distinct = some (.ok (c, rounds))) :
    rounds ≤ round + left ∧ (∃ d, Coloured base refs c d) ∧
      Bisim.IsBisimulation (valueAt base) (refsAt refs) (Finset.range base.length)
        (Bisim.Same (Finset.range base.length) (colourAt c)) := by
  have ha := refsAt_lt hlen hrefs
  have hal : ∀ {cs : List ℕ} {d : ℕ}, Coloured base refs cs d → base.length ≤ d →
      Bisim.IsBisimulation (valueAt base) (refsAt refs) (Finset.range base.length)
        (Bisim.Same (Finset.range base.length) (colourAt cs)) := by
    intro cs d hc hd
    have hin : Set.InjOn (colourAt cs) (Finset.range base.length : Set ℕ) := by
      apply Finset.card_image_iff.mp
      exact le_antisymm Finset.card_image_le (by rw [hc.count, Finset.card_range]; exact hd)
    exact Bisim.isBisimulation_of_injOn (fun i hi j hj hij => hin hi hj hij) ha
  induction left generalizing round colours distinct with
  | zero =>
    cases hr
    exact ⟨Nat.le_refl _, ⟨distinct, h⟩, hal h hl⟩
  | succ left ih =>
    rw [refineRounds] at hr
    split_ifs at hr with h1 h2 h3
    · cases hr
      exact ⟨Nat.le_add_right _ _, ⟨distinct, h⟩, hal h (by omega)⟩
    · cases hr
    · cases hr
    · obtain ⟨sigs, hs, hr⟩ := bind_eq_some_iff.mp hr
      have hn := h.next hlen hrefs hsize hcount hs
      obtain ⟨hsl, ho⟩ := h.round hlen hrefs hsize hs
      dsimp only at hr
      split_ifs at hr with hp
      · cases hr
        refine ⟨by omega, ⟨_, hn⟩, ?_⟩
        have ht := ho.stable (by rw [hn.count, h.count, hp])
        have hm : Bisim.Same (Finset.range base.length) (colourAt (rank sigs).1) =
            Bisim.Same (Finset.range base.length) (colourAt colours) := by
          funext i j
          apply propext
          apply and_congr_right
          rintro ⟨hi, hj⟩
          exact ⟨fun hij => ((ho i hi j hj).mp hij).1, ht i hi j hj⟩
        rw [hm]
        apply ho.isBisimulation ht _ ha
        intro i hi j hj
        exact h.label i (Finset.mem_range.mp hi) j (Finset.mem_range.mp hj)
      · have hg := ho.le_card
        rw [hn.count, h.count] at hg
        obtain ⟨hle, he⟩ := ih hn (by omega) hr
        exact ⟨by omega, he⟩

end

theorem coloured_base : Coloured base refs (rank base).1 (rank base).2 := by
  refine ⟨rank_length, ?_, rank_dense, fun i hi j hj => (rank_same hi hj).mp, fun R hR i j hij => ?_⟩
  · rw [rank_image, Finset.card_range]
  · obtain ⟨⟨hi, hj⟩, hl, -⟩ := hR i j hij
    exact (rank_same (Finset.mem_range.mp hi) (Finset.mem_range.mp hj)).mpr hl

section

variable {α : Type} {n : ℕ} {σ : ℕ → ℕ}

structure Moved (n : ℕ) (σ : ℕ → ℕ) (l l' : List α) : Prop where
  length : l.length = n
  length' : l'.length = n
  get : ∀ i < n, l'[σ i]? = l[i]?

structure Renumbers (n : ℕ) (σ : ℕ → ℕ) : Prop where
  lt : ∀ i < n, σ i < n
  inj : ∀ i < n, ∀ j < n, σ i = σ j → i = j

theorem Renumbers.perm (h : Renumbers n σ) : ((List.range n).map σ).Perm (List.range n) := by
  have hnd : ((List.range n).map σ).Nodup := by
    apply Nodup.map_on _ nodup_range
    intro i hi j hj
    exact h.inj i (mem_range.mp hi) j (mem_range.mp hj)
  have hs : (List.range n).map σ ⊆ List.range n := by
    intro x hx
    obtain ⟨i, hi, rfl⟩ := List.mem_map.mp hx
    exact mem_range.mpr (h.lt i (mem_range.mp hi))
  exact (hnd.subperm hs).perm_of_length_le (by simp)

theorem Moved.perm {l l' : List α} (h : Moved n σ l l') (hσ : Renumbers n σ) : l.Perm l' := by
  have heq : ∀ m : List α, m.length = n → m.map some = (List.range n).map fun i => m[i]? := by
    intro m hm
    apply ext_getElem?
    intro i
    by_cases hi : i < n
    · simp [getElem?_range hi, getElem?_eq_getElem (hm ▸ hi : i < m.length)]
    · rw [getElem?_eq_none (by simp [hm]; omega), getElem?_eq_none (by simp; omega)]
  have ha : (l.map some).Perm (l'.map some) := by
    rw [heq l h.length, heq l' h.length']
    have hl : ((List.range n).map fun i => l[i]?) = ((List.range n).map σ).map fun i => l'[i]? := by
      rw [List.map_map]
      exact map_congr_left fun i hi => (h.get i (mem_range.mp hi)).symm
    rw [hl]
    exact hσ.perm.map _
  simpa [filterMap_map] using ha.filterMap id

theorem Moved.rank {values values' : List Bytes} (h : Moved n σ values values') (hσ : Renumbers n σ) :
    Moved n σ (rank values).1 (rank values').1 ∧ (rank values').2 = (rank values).2 := by
  have hs : values'.toFinset = values.toFinset := (toFinset_eq_of_perm _ _ (h.perm hσ)).symm
  refine ⟨⟨rank_length.trans h.length, rank_length.trans h.length', fun i hi => ?_⟩, ?_⟩
  · rw [rank_colour (h.length'.symm ▸ hσ.lt i hi), rank_colour (h.length.symm ▸ hi)]
    have hv : valueAt values' (σ i) = valueAt values i := by
      rw [valueAt, valueAt, getD_eq_getElem?_getD, getD_eq_getElem?_getD, h.get i hi]
    rw [hv, below, below, hs]
  · rw [rank_count, rank_count, hs]

variable {colours' : List ℕ} {refs' : List (List ℕ)}

theorem Moved.signatures (hσ : Renumbers n σ) (hrefs : ∀ rs ∈ refs, ∀ r ∈ rs, r < n) (hc : Moved n σ colours colours')
    (hr : Moved n σ (refs.map (List.map σ)) refs') (hs : signatures colours refs = some sigs) :
    ∃ sigs', Identity.signatures colours' refs' = some sigs' ∧ Moved n σ sigs sigs' := by
  have hl : refs.length = n := by simpa using hr.length
  have he : colours.length = refs.length := hc.length.trans hl.symm
  have he' : colours'.length = refs'.length := hc.length'.trans hr.length'.symm
  have hrefs' : ∀ rs ∈ refs', ∀ r ∈ rs, r < colours'.length := by
    intro rs hrs r hr'
    obtain ⟨ts, hts, rfl⟩ := List.mem_map.mp ((hr.perm hσ).mem_iff.mpr hrs)
    obtain ⟨x, hx, rfl⟩ := List.mem_map.mp hr'
    exact hc.length'.symm ▸ hσ.lt x (hrefs ts hts x hx)
  obtain ⟨sigs', hs', hn'⟩ := exists_signatures he' hrefs'
  have ho : ∀ i < n, colourAt colours' (σ i) = colourAt colours i := by
    intro i hi
    rw [colourAt, colourAt, getD_eq_getElem?_getD, getD_eq_getElem?_getD, hc.get i hi]
  refine ⟨sigs', hs', ?_, hn'.trans hr.length', fun i hi => ?_⟩
  · rw [mapM_length hs, length_zip, he, Nat.min_self, hl]
  · have hrefsAt : refsAt refs' (σ i) = (refsAt refs i).map σ := by
      have hi' : i < refs.length := hl ▸ hi
      rw [refsAt, refsAt, getD_eq_getElem?_getD, hr.get i hi, getElem?_map, getElem?_eq_getElem hi',
        getD_eq_getElem _ _ hi']
      rfl
    rw [signatures_getElem? hs' he' (hr.length'.symm ▸ hσ.lt i hi), signatures_getElem? hs he (hl ▸ hi),
      ho i hi, hrefsAt, List.map_map]
    congr 3
    apply map_congr_left
    intro x hx
    apply ho
    have hi' : i < refs.length := hl ▸ hi
    rw [refsAt, getD_eq_getElem _ _ hi'] at hx
    exact hrefs _ (getElem_mem hi') x hx

theorem Moved.refineRounds (hσ : Renumbers n σ) (hrefs : ∀ rs ∈ refs, ∀ r ∈ rs, r < n)
    (hr : Moved n σ (refs.map (List.map σ)) refs') {componentRounds moduleRounds left round distinct rounds : ℕ}
    {c : List ℕ} (hc : Moved n σ colours colours')
    (h : refineRounds refs componentRounds moduleRounds left round colours distinct = some (.ok (c, rounds))) :
    ∃ c', Identity.refineRounds refs' componentRounds moduleRounds left round colours' distinct = some (.ok (c', rounds)) ∧
      Moved n σ c c' := by
  have hl : refs'.length = refs.length := hr.length'.trans (by simpa using hr.length.symm)
  induction left generalizing round colours colours' distinct with
  | zero =>
    cases h
    exact ⟨colours', rfl, hc⟩
  | succ left ih =>
    rw [Identity.refineRounds] at h ⊢
    rw [hl]
    split_ifs at h ⊢ with h1 h2 h3
    · cases h
      exact ⟨colours', rfl, hc⟩
    · cases h
    · cases h
    · obtain ⟨sigs, hs, h⟩ := bind_eq_some_iff.mp h
      obtain ⟨sigs', hs', hm⟩ := Moved.signatures hσ hrefs hc hr hs
      obtain ⟨hn, hcount⟩ := hm.rank hσ
      rw [hs', bind_some]
      dsimp only at h ⊢
      rw [hcount]
      split_ifs at h ⊢ with ht
      · cases h
        exact ⟨_, rfl, hn⟩
      · exact ih hn h

end

section

variable {remaining rounds work : ℕ}

theorem refineColours_small (hs : base.length ≤ 1) :
    refineColours base refs remaining = some (.ok (List.replicate base.length 0, 0, 0)) := by
  rw [refineColours, if_pos hs]

theorem refineColours_large (hl : ¬base.length ≤ 1)
    (h : refineColours base refs remaining = some (.ok (colours, rounds, work))) :
    work = rounds * max (base.length + (refs.map List.length).sum) 1 ∧
      refineRounds refs (max (refineWorkBudget / max (base.length + (refs.map List.length).sum) 1) 1)
        (remaining / max (base.length + (refs.map List.length).sum) 1) base.length 0 (rank base).1 (rank base).2 =
        some (.ok (colours, rounds)) := by
  rw [refineColours, if_neg hl] at h
  obtain ⟨r, hr, heq⟩ := map_eq_some_iff.mp h
  cases r with
  | error e => cases heq
  | ok p =>
    cases heq
    exact ⟨rfl, hr⟩

theorem refineColours_moved (hrefs : ∀ rs ∈ refs, ∀ r ∈ rs, r < base.length)
    (h : refineColours base refs remaining = some (.ok (colours, rounds, work))) {σ : ℕ → ℕ} {base' : List Bytes}
    {refs' : List (List ℕ)} (hσ : Renumbers base.length σ) (hb : Moved base.length σ base base')
    (hr : Moved base.length σ (refs.map (List.map σ)) refs') :
    ∃ colours', refineColours base' refs' remaining = some (.ok (colours', rounds, work)) ∧
      Moved base.length σ colours colours' := by
  by_cases hs : base.length ≤ 1
  · rw [refineColours_small hs] at h
    cases h
    refine ⟨_, by rw [refineColours_small (hb.length'.trans_le hs), hb.length'], by simp, by simp, fun i hi => ?_⟩
    rw [getElem?_replicate, getElem?_replicate, if_pos hi, if_pos (hσ.lt i hi)]
  · obtain ⟨rfl, hu⟩ := refineColours_large hs h
    have hsu : (refs'.map List.length).sum = (refs.map List.length).sum := by
      have hp := ((hr.perm hσ).map List.length).sum_eq
      rw [← hp, List.map_map]
      congr 2
      funext rs
      simp
    obtain ⟨ho, hcount⟩ := hb.rank hσ
    obtain ⟨c', hc', hm⟩ := Moved.refineRounds hσ hrefs hr ho hu
    refine ⟨c', ?_, hm⟩
    rw [refineColours, hb.length', if_neg hs, hsu]
    dsimp only
    rw [hcount, hc']
    rfl

/-- When the refinement answers, members have one colour exactly when they are bisimilar; the colours are an initial
segment, they follow a renumbering of the members, and there are at most as many rounds as members. -/
theorem refineColours_bisimilar (hlen : refs.length = base.length) (hrefs : ∀ rs ∈ refs, ∀ r ∈ rs, r < base.length)
    (hcount : ∀ i < base.length, ∀ j < base.length, valueAt base i = valueAt base j →
      (refsAt refs i).length = (refsAt refs j).length)
    (hsize : base.length ≤ 2 ^ 32) (h : refineColours base refs remaining = some (.ok (colours, rounds, work))) :
    colours.length = base.length ∧ (Bisim.IsBisimulation (valueAt base) (refsAt refs) (Finset.range base.length)
        (Bisim.Same (Finset.range base.length) (colourAt colours)) ∧
      ∀ R, Bisim.IsBisimulation (valueAt base) (refsAt refs) (Finset.range base.length) R →
        ∀ i j, R i j → Bisim.Same (Finset.range base.length) (colourAt colours) i j) ∧
    (∃ c, ∀ x, x ∈ colours ↔ x < c) ∧ (∀ σ base' refs', Renumbers base.length σ → Moved base.length σ base base' →
      Moved base.length σ (refs.map (List.map σ)) refs' →
      ∃ colours', refineColours base' refs' remaining = some (.ok (colours', rounds, work)) ∧
        Moved base.length σ colours colours') ∧ rounds ≤ base.length := by
  have hmoved := fun σ base' refs' hσ hb hr => @refineColours_moved _ _ _ _ _ _ hrefs h σ base' refs' hσ hb hr
  by_cases hsmall : base.length ≤ 1
  · rw [refineColours_small hsmall] at h
    cases h
    have hone : ∀ i ∈ Finset.range base.length, ∀ j ∈ Finset.range base.length, i = j := by
      intro i hi j hj
      rw [Finset.mem_range] at hi hj
      omega
    refine ⟨by simp, ⟨?_, fun R hR i j hij => ?_⟩, ⟨base.length, fun x => ?_⟩, hmoved, Nat.zero_le _⟩
    · exact Bisim.isBisimulation_of_injOn (fun i hi j hj _ => hone i hi j hj) (refsAt_lt hlen hrefs)
    · obtain ⟨⟨hi, hj⟩, -⟩ := hR i j hij
      exact ⟨⟨hi, hj⟩, by rw [hone i hi j hj]⟩
    · rw [mem_replicate]
      omega
  · obtain ⟨-, hrun⟩ := refineColours_large hsmall h
    obtain ⟨hrounds, ⟨d, hd⟩, hbisim⟩ := coloured_base.rounds hlen hrefs hsize hcount (Nat.le_add_left _ _) hrun
    refine ⟨hd.length, ⟨hbisim, fun R hR i j hij => ⟨(hR i j hij).1, hd.coarse R hR i j hij⟩⟩, ⟨d, hd.dense⟩, hmoved, ?_⟩
    omega

/-- Two members that refer to each other and a third one. -/
theorem refineColours_bisimilar_twins : refineColours [[7], [7], [8]] [[1], [0], [0]] 100 = some (.ok ([0, 0, 1], 1, 6)) ∧
    Bisim.IsBisimulation (valueAt [[7], [7], [8]]) (refsAt [[1], [0], [0]]) (Finset.range 3)
      (Bisim.Same (Finset.range 3) (colourAt [0, 0, 1])) := by
  have hrun : refineColours [[7], [7], [8]] [[1], [0], [0]] 100 = some (.ok ([0, 0, 1], 1, 6)) := by
    have hbase : rank [[7], [7], [8]] = ([0, 0, 1], 2) := by
      rw [rank_eq]
      decide
    have hsigs : rank [[0, 0, 0, 0, 0, 0, 0, 0], [0, 0, 0, 0, 0, 0, 0, 0], [1, 0, 0, 0, 0, 0, 0, 0]] = ([0, 0, 1], 2) := by
      rw [rank_eq]
      decide
    have hsig : signatures [0, 0, 1] [[1], [0], [0]] =
        some [[0, 0, 0, 0, 0, 0, 0, 0], [0, 0, 0, 0, 0, 0, 0, 0], [1, 0, 0, 0, 0, 0, 0, 0]] := by decide
    simp [refineColours, hbase, refineRounds, refineWorkBudget, hsig, hsigs, Except.map]
  exact ⟨hrun, (refineColours_bisimilar rfl (by decide) (by decide) (by decide) hrun).2.1.1⟩

end

end LoomV4.Identity
