import Mathlib.Data.List.Nodup
import Mathlib.Data.Fintype.EquivFin

namespace LoomV4.Hir

open List

inductive Arg (α : Type) where
  | positional (e : α)
  | labeled (label : String) (value : α)

/-- The diagnostics of code `E1006`. -/
inductive ArgError where
  | unknown (what label : String)
  | filled (label : String)
  | repeated (label : String)
  | afterLabel
  deriving DecidableEq

def ArgError.message : ArgError → String
  | .unknown what label => "`" ++ what ++ "` does not declare a parameter named `" ++ label ++ "`"
  | .filled label => "the label `" ++ label
      ++ ":` names a parameter that a positional argument already fills"
  | .repeated label => "the argument label `" ++ label ++ ":` appears more than one time"
  | .afterLabel => "a positional argument cannot follow a labeled argument"

variable {α : Type}

def fillSlots (what : String) (names : List String) : List (Arg α) → List (Option α) → ℕ → Bool →
    Except ArgError (List (Option α))
  | [], slots, _, _ => .ok slots
  | .labeled label value :: args, slots, positional, _ =>
    match names.idxOf? label with
    | none => .error (.unknown what label)
    | some pos =>
      if pos < positional then .error (.filled label)
      else if (slots[pos]?.join).isSome then .error (.repeated label)
      else fillSlots what names args (slots.set pos (some value)) positional true
  | .positional e :: args, slots, positional, inLabels =>
    if inLabels then .error .afterLabel
    else fillSlots what names args (slots.set positional (some e)) (positional + 1) inLabels

def Arg.isLabeled : Arg α → Bool
  | .labeled _ _ => true
  | .positional _ => false

def Arg.value : Arg α → α
  | .labeled _ v => v
  | .positional v => v

/-- The inner `none` is the parameter without an argument that the source expects not to be. -/
def arrangeArgs (args : List (Arg α)) (names : List String) (what : String) :
    Except ArgError (Option (List α)) :=
  if args.all (!·.isLabeled) then .ok (some (args.map Arg.value))
  else do
    let slots ← fillSlots what names args (List.replicate args.length none) 0 false
    .ok (slots.mapM id)

def attach (labels : List (Option String)) (es : List α) : List (Arg α) :=
  List.zipWith (fun label e => match label with
    | none => .positional e
    | some l => .labeled l e) labels es

def place (names : List String) (labels : List (Option String)) (k : ℕ) : ℕ :=
  match labels[k]?.join with
  | none => k
  | some label => names.idxOf label

def written (names : List String) (labels : List (Option String)) (p : ℕ) : ℕ :=
  ((List.range labels.length).map (place names labels)).idxOf p

def bindArgs (names : List String) (labels : List (Option String)) (ws : List α) : List α :=
  (List.range ws.length).filterMap fun p => ws[written names labels p]?

section Arranged

variable {names : List String} {labels : List (Option String)} {es : List α}

structure Filled (names : List String) (labels : List (Option String)) (es : List α) (k : ℕ)
    (slots : List (Option α)) : Prop where
  length : slots.length = es.length
  below : ∀ j < k, place names labels j < es.length
  kept : ∀ j < k, slots[place names labels j]? = es[j]?.map some
  only : ∀ p x, slots[p]? = some (some x) → ∃ j < k, place names labels j = p
  inj : ∀ i < k, ∀ j < k, place names labels i = place names labels j → i = j

variable {slots : List (Option α)}

variable {k : ℕ}

theorem Filled.set (h : Filled names labels es k slots) (hk : k < es.length) (hl : place names labels k < es.length)
    (hf : ∀ j < k, place names labels j ≠ place names labels k) :
    Filled names labels es (k + 1) (slots.set (place names labels k) (some es[k])) where
  length := by simp [h.length]
  below := fun j hj => by
    rcases Nat.lt_succ_iff_lt_or_eq.mp hj with hj | rfl
    · exact h.below j hj
    · exact hl
  kept := fun j hj => by
    rcases Nat.lt_succ_iff_lt_or_eq.mp hj with hj | rfl
    · rw [getElem?_set_ne (hf j hj).symm, h.kept j hj]
    · rw [getElem?_set_self (h.length ▸ hl), getElem?_eq_getElem hk]
      rfl
  only := fun p x hp => by
    by_cases heq : place names labels k = p
    · exact ⟨k, Nat.lt_succ_self k, heq⟩
    · rw [getElem?_set_ne heq] at hp
      obtain ⟨j, hj, hjp⟩ := h.only p x hp
      exact ⟨j, Nat.lt_succ_of_lt hj, hjp⟩
  inj := fun i hi j hj hij => by
    rcases Nat.lt_succ_iff_lt_or_eq.mp hi with hi | rfl <;>
      rcases Nat.lt_succ_iff_lt_or_eq.mp hj with hj | rfl
    · exact h.inj i hi j hj hij
    · exact absurd hij (hf i hi)
    · exact absurd hij.symm (hf j hj)
    · rfl

theorem attach_drop (hl : k < labels.length) (he : k < es.length) : (attach labels es).drop k = (match labels[k] with
      | none => .positional es[k]
      | some l => .labeled l es[k]) :: (attach labels es).drop (k + 1) := by
  have hk : k < (attach labels es).length := by simp [attach]; omega
  rw [drop_eq_getElem_cons hk]
  simp [attach]

theorem place_of_none (hl : k < labels.length) (h : labels[k] = none) : place names labels k = k := by
  simp [place, hl, h]

theorem place_of_some {l : String} (hl : k < labels.length) (h : labels[k] = some l) :
    place names labels k = names.idxOf l := by
  simp [place, hl, h]

theorem idxOf_of_idxOf? {l : String} {pos : ℕ} (h : names.idxOf? l = some pos) :
    names.idxOf l = pos ∧ pos < names.length := by
  obtain ⟨hlt, heq⟩ := findIdx?_eq_some_iff_findIdx_eq.mp h
  exact ⟨heq, hlt⟩

/-- By the arguments still to come; as long as no label was seen the arguments so far are for
the parameters of their own positions. -/
theorem filled_of_fillSlots (what : String) (hn : names.length = es.length)
    (ha : labels.length = es.length) (m : ℕ) : ∀ k slots inLabels out, k + m = es.length →
    Filled names labels es k slots → (inLabels = false → ∀ j < k, place names labels j = j) → ∀ positional,
    (inLabels = false → positional = k) →
    fillSlots what names ((attach labels es).drop k) slots positional inLabels = .ok out →
    Filled names labels es es.length out := by
  induction m with
  | zero =>
    intro k slots inLabels out hk h _ positional _ ho
    obtain rfl : k = es.length := by omega
    have hd : (attach labels es).drop es.length = [] := by simp [attach]
    rw [hd] at ho
    obtain rfl := Except.ok.inj ho
    exact h
  | succ m ih =>
    intro k slots inLabels out hk h hs positional hpo ho
    have hke : k < es.length := by omega
    have hkl : k < labels.length := by omega
    rw [attach_drop hkl hke] at ho
    cases hl : labels[k] with
    | none =>
      rw [hl] at ho
      simp only [fillSlots] at ho
      split at ho
      · cases ho
      rename_i hin
      have hin : inLabels = false := by simpa using hin
      obtain rfl := hpo hin
      have hp : place names labels positional = positional := place_of_none hkl hl
      have he := h.set hke (by omega) fun j hj => by rw [hs hin j hj, hp]; omega
      rw [hp] at he
      apply ih (positional + 1) _ inLabels out (by omega) he ?_ (positional + 1) (fun _ => rfl) ho
      intro _ j hj
      rcases Nat.lt_succ_iff_lt_or_eq.mp hj with hj | rfl
      · exact hs hin j hj
      · exact hp
    | some l =>
      rw [hl] at ho
      simp only [fillSlots] at ho
      split at ho
      · cases ho
      rename_i pos hi
      split at ho
      · cases ho
      split at ho
      · cases ho
      rename_i hf
      obtain ⟨hp, hlt⟩ := idxOf_of_idxOf? hi
      rw [← place_of_some hkl hl] at hp
      subst hp
      have he := h.set hke (by omega) fun j hj heq => hf (by
        rw [← heq, h.kept j hj, getElem?_eq_getElem (by omega)]
        rfl)
      exact ih (k + 1) _ true out (by omega) he nofun positional nofun ho

structure Permutes (names : List String) (labels : List (Option String)) : Prop where
  below : ∀ j < labels.length, place names labels j < labels.length
  inj : ∀ i < labels.length, ∀ j < labels.length,
    place names labels i = place names labels j → i = j

section

variable (h : Permutes names labels)

include h

theorem Permutes.exists_place {p : ℕ} (hp : p < labels.length) : ∃ j < labels.length, place names labels j = p := by
  let f : Fin labels.length → Fin labels.length := fun j => ⟨place names labels j, h.below j j.2⟩
  have hf : Function.Injective f := fun i j hij =>
    Fin.ext (h.inj i i.2 j j.2 (congrArg Fin.val hij))
  obtain ⟨j, hj⟩ := Finite.surjective_of_injective hf ⟨p, hp⟩
  exact ⟨j, j.2, congrArg Fin.val hj⟩

theorem Permutes.written_place {j : ℕ} (hj : j < labels.length) :
    written names labels (place names labels j) = j := by
  have hn : ((List.range labels.length).map (place names labels)).Nodup :=
    nodup_range.map_on fun x hx y hy =>
      h.inj x (mem_range.mp hx) y (mem_range.mp hy)
  have hl : j < ((List.range labels.length).map (place names labels)).length := by simpa using hj
  have hg : ((List.range labels.length).map (place names labels))[j] = place names labels j := by
    simp
  rw [written, ← hg]
  exact hn.idxOf_getElem j hl

theorem Permutes.written_lt {p : ℕ} (hp : p < labels.length) : written names labels p < labels.length := by
  obtain ⟨j, hj, rfl⟩ := h.exists_place hp
  rwa [h.written_place hj]

theorem Permutes.place_written {p : ℕ} (hp : p < labels.length) :
    place names labels (written names labels p) = p := by
  obtain ⟨j, hj, rfl⟩ := h.exists_place hp
  rw [h.written_place hj]

end

theorem map_some_filterMap {β : Type} {xs : List β} {f : β → Option α}
    (h : ∀ x ∈ xs, (f x).isSome) : (xs.filterMap f).map some = xs.map f := by
  induction xs with
  | nil => rfl
  | cons x xs ih =>
    obtain ⟨y, hy⟩ := Option.isSome_iff_exists.mp (h x mem_cons_self)
    simp [hy, ih fun z hz => h z (mem_cons_of_mem x hz)]

theorem Permutes.map_bindArgs (h : Permutes names labels) {ws : List α} (hws : labels.length = ws.length) :
    (bindArgs names labels ws).map some
      = (List.range ws.length).map fun p => ws[written names labels p]? :=
  map_some_filterMap fun p hp => by
    have := h.written_lt (hws ▸ mem_range.mp hp)
    simp [show written names labels p < ws.length by omega]

theorem Filled.permutes (hl : labels.length = es.length)
    (h : Filled names labels es es.length slots) : Permutes names labels where
  below := fun j hj => hl ▸ h.below j (hl ▸ hj)
  inj := fun i hi j hj => h.inj i (hl ▸ hi) j (hl ▸ hj)

theorem Filled.slots_eq (hl : labels.length = es.length) (h : Filled names labels es es.length slots) :
    slots = (bindArgs names labels es).map some := by
  have he := h.permutes hl
  rw [he.map_bindArgs hl]
  apply ext_getElem (by simp [h.length])
  intro p h1 h2
  have hp : p < labels.length := by rw [hl, ← h.length]; exact h1
  obtain ⟨j, hj, rfl⟩ := he.exists_place hp
  have hk := h.kept j (by omega)
  rw [getElem?_eq_getElem h1, getElem?_eq_getElem (by omega)] at hk
  simpa [he.written_place hj, show j < es.length by omega] using hk

theorem permutes_of_place (h : ∀ j < labels.length, place names labels j = j) : Permutes names labels :=
  ⟨fun j hj => (h j hj).symm ▸ hj, fun i hi j hj hij => by rwa [h i hi, h j hj] at hij⟩

theorem bindArgs_eq_self {ws : List α} (hws : labels.length = ws.length)
    (h : ∀ j < labels.length, place names labels j = j) : bindArgs names labels ws = ws := by
  have he := permutes_of_place h
  have hm : (bindArgs names labels ws).map some = ws.map some := by
    rw [he.map_bindArgs hws]
    apply ext_getElem (by simp)
    intro p h1 h2
    have hp : p < ws.length := by simpa using h2
    have hw : written names labels p = p := by
      have := he.written_place (hws ▸ hp)
      rwa [h p (hws ▸ hp)] at this
    simp [hw, hp]
  exact map_injective_iff.mpr (Option.some_injective α) hm

theorem place_of_unlabeled (hl : labels.length = es.length) (h : (attach labels es).all (!·.isLabeled)) :
    ∀ j < labels.length, place names labels j = j := by
  intro j hj
  apply place_of_none hj
  cases ha : labels[j] with
  | none => rfl
  | some l =>
    have he : j < (attach labels es).length := by simp [attach]; omega
    have hm : (attach labels es)[j] ∈ attach labels es := getElem_mem he
    have hn := List.all_eq_true.mp h _ hm
    simp [attach, ha, Arg.isLabeled] at hn

theorem map_value_attach (hl : labels.length = es.length) : (attach labels es).map Arg.value = es := by
  apply ext_getElem (by simp [attach, hl])
  intro j h1 h2
  simp only [attach, getElem_map, getElem_zipWith]
  split <;> rfl

theorem unlabeled_of_fillSlots {what : String} {args : List (Arg α)} : ∀ {slots out positional inLabels},
    fillSlots what [] args slots positional inLabels = .ok out → args.all (!·.isLabeled) := by
  induction args with
  | nil => exact fun _ => rfl
  | cons a args ih =>
    intro slots out positional inLabels h
    cases a with
    | labeled label value => cases h
    | positional e =>
      rw [fillSlots] at h
      split at h
      · cases h
      · rw [all_cons, ih h]
        rfl

theorem arrangeArgs_eq {what : String} (hn : names.length = es.length ∨ names = [])
    (hl : labels.length = es.length) {out : Option (List α)}
    (h : arrangeArgs (attach labels es) names what = .ok out) :
    Permutes names labels ∧ out = some (bindArgs names labels es) := by
  unfold arrangeArgs at h
  split at h
  · rename_i ha
    have hs := @place_of_unlabeled _ names _ _ hl ha
    obtain rfl := Except.ok.inj h
    rw [map_value_attach hl, bindArgs_eq_self hl hs]
    exact ⟨permutes_of_place hs, rfl⟩
  · rename_i hlabeled
    cases hfi : fillSlots what names (attach labels es)
      (List.replicate (attach labels es).length none) 0 false with
    | error e =>
      rw [hfi] at h
      cases h
    | ok slots =>
      rw [hfi] at h
      obtain rfl := Except.ok.inj h
      obtain hn | rfl := hn
      swap
      · exact absurd (unlabeled_of_fillSlots hfi) hlabeled
      have he : (attach labels es).length = es.length := by simp [attach, hl]
      have ht : Filled names labels es 0 (List.replicate (attach labels es).length none) :=
        ⟨by simp [he], nofun, nofun, fun p x hp => by simp [getElem?_replicate] at hp, nofun⟩
      have hf := filled_of_fillSlots what hn hl es.length 0 _ false slots
        (Nat.zero_add _) ht (fun _ => nofun) 0 (fun _ => rfl) (by simpa using hfi)
      refine ⟨hf.permutes hl, ?_⟩
      rw [hf.slots_eq hl, mapM_map]
      exact (mapM_pure (m := Option) (f := id)).trans (by simp)

end Arranged

section Acceptance

variable {β : Type} (f : α → β)

def Arg.map : Arg α → Arg β
  | .positional e => .positional (f e)
  | .labeled l e => .labeled l (f e)

theorem fillSlots_map (what : String) (names : List String) (args : List (Arg α)) : ∀ slots positional inLabels,
    fillSlots what names (args.map (Arg.map f)) (slots.map (Option.map f)) positional inLabels
      = (fillSlots what names args slots positional inLabels).map (List.map (Option.map f)) := by
  induction args with
  | nil => exact fun _ _ _ => rfl
  | cons a args ih =>
    intro slots positional inLabels
    cases a with
    | positional e =>
      simp only [map_cons, Arg.map, fillSlots]
      split
      · rfl
      · simpa using ih (slots.set positional (some e)) (positional + 1) inLabels
    | labeled l e =>
      simp only [map_cons, Arg.map, fillSlots]
      cases names.idxOf? l with
      | none => rfl
      | some pos =>
        have hs : ((slots.map (Option.map f))[pos]?.join).isSome
            = (slots[pos]?.join).isSome := by
          cases h : slots[pos]? with
          | none => simp [h]
          | some x => cases x <;> simp [h]
        simp only [hs]
        split
        · rfl
        split
        · rfl
        · simpa using ih (slots.set pos (some e)) positional true

theorem attach_map (labels : List (Option String)) (es : List α) :
    attach labels (es.map f) = (attach labels es).map (Arg.map f) := by
  simp only [attach, zipWith_map_right, map_zipWith]
  congr 1
  funext l e
  cases l <;> rfl

def Accepts (names : List String) (what : String) (labels : List (Option String)) : Prop :=
  ∃ out, arrangeArgs (attach labels (labels.map fun _ => ())) names what = .ok out

theorem Accepts.arrangeArgs_ok {names : List String} {what : String}
    {labels : List (Option String)} (h : Accepts names what labels) {es : List α}
    (hl : labels.length = es.length) : ∃ out, arrangeArgs (attach labels es) names what = .ok out := by
  have hu : (labels.map fun _ => ()) = es.map fun _ => () := by
    simp [map_const', hl]
  obtain ⟨out, ho⟩ := h
  rw [hu, attach_map] at ho
  unfold arrangeArgs at ho ⊢
  have ha : ((attach labels es).map (Arg.map fun _ => ())).all (!·.isLabeled)
      = (attach labels es).all (!·.isLabeled) := by
    rw [List.all_map]
    congr 1
    funext a
    cases a <;> rfl
  rw [ha] at ho
  split
  · exact ⟨_, rfl⟩
  · rename_i hn
    rw [if_neg hn] at ho
    have hm := fillSlots_map (fun _ : α => ()) what names (attach labels es)
      (List.replicate (attach labels es).length none) 0 false
    simp only [map_replicate, Option.map_none] at hm
    simp only [length_map, hm] at ho
    cases hf : fillSlots what names (attach labels es)
        (List.replicate (attach labels es).length none) 0 false with
    | error e =>
      rw [hf] at ho
      cases ho
    | ok slots => exact ⟨_, rfl⟩

end Acceptance

end LoomV4.Hir
