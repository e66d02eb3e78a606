import Mathlib.Data.Fintype.EquivFin
import LoomV4.World.Images

/-!
The policy table of one machine and what it answers after any edits.
-/

namespace LoomV4.Vm

open List Option PolicyTable

namespace PolicyTable

def action (entries : List (Option Action)) (slot : ℕ) : Option Action := (entries[slot]?).join

def groupLookup (t : PolicyTable) : List ℕ → Bool → Option Action
  | [], passed => if passed then some .pass else none
  | g :: rest, passed =>
    match action t.group g with
    | some .block => some .block
    | some .pass => groupLookup t rest true
    | some (.mock closure) => some (.mock closure)
    | none => groupLookup t rest passed

def lookup (groupsOf : ℕ → List ℕ) (t : PolicyTable) (op : ℕ) : Option Action :=
  match action t.exact op with
  | some a => some a
  | none => t.groupLookup (groupsOf op) false

inductive Edit
  | exact (slot : ℕ) (action : Option Action)
  | group (slot : ℕ) (action : Option Action)
  | clear

def edit (opCount groupCount : ℕ) (t : PolicyTable) : Edit → PolicyTable
  | .exact slot a => (t.setExact opCount slot a).getD t
  | .group slot a => (t.setGroup groupCount slot a).getD t
  | .clear => { exact := [], group := [] }

def Edit.onExact (opCount slot : ℕ) : Edit → Option (Option Action)
  | .exact s a => if s = slot ∧ s < opCount then some a else none
  | .group _ _ => none
  | .clear => some none

def Edit.onGroup (groupCount slot : ℕ) : Edit → Option (Option Action)
  | .exact _ _ => none
  | .group s a => if s = slot ∧ s < groupCount then some a else none
  | .clear => some none

def lastAction (on : Edit → Option (Option Action)) (edits : List Edit) : Option Action :=
  (edits.reverse.findSome? on).join

theorem action_rdropWhile (entries : List (Option Action)) (slot : ℕ) :
    action (entries.rdropWhile Option.isNone) slot = action entries slot := by
  induction entries using List.reverseRecOn with
  | nil => rfl
  | append_singleton entries last ih =>
    cases last with
    | some a => rw [rdropWhile_concat_neg _ _ _ (by simp)]
    | none =>
      rw [rdropWhile_concat_pos _ _ _ rfl, ih, action, action, getElem?_append]
      split
      · rfl
      · next hlt =>
        rw [getElem?_eq_none (Nat.le_of_not_lt hlt)]
        cases hs : slot - entries.length <;> simp

theorem action_pad (entries : List (Option Action)) (n slot : ℕ) :
    action (entries ++ List.replicate n none) slot = action entries slot := by
  rw [action, action, getElem?_append]
  split
  · rfl
  · next hlt =>
    rw [getElem?_eq_none (Nat.le_of_not_lt hlt), getElem?_replicate]
    split <;> rfl

variable {entries : List (Option Action)}

theorem action_listSet {slot : ℕ} (hs : slot < entries.length) (a : Option Action)
    (s : ℕ) : action (entries.set slot a) s = if s = slot then a else action entries s := by
  rw [action, action, getElem?_set]
  split
  · next h =>
    subst h
    rw [if_pos rfl]
    rfl
  · next h => rw [if_neg (Ne.symm h)]

variable {a : Option Action} {limit slot : ℕ}

theorem action_set {entries' : List (Option Action)} (h : set entries limit slot a = some entries') (s : ℕ) :
    slot < limit ∧ action entries' s = if s = slot then a else action entries s := by
  unfold set at h
  split at h
  · cases h
  · next hi =>
    refine ⟨Nat.lt_of_not_le hi, ?_⟩
    dsimp only at h
    split at h
    · next hp =>
      have hl : slot < (entries ++ List.replicate (slot + 1 - entries.length) none).length := by
        rw [length_append, length_replicate]
        omega
      rw [if_pos hl] at h
      obtain rfl := some.inj h
      rw [action_rdropWhile, action_listSet hl, action_pad]
    · next hp =>
      split at h
      · next hl =>
        obtain rfl := some.inj h
        rw [action_rdropWhile, action_listSet hl]
      · next hl =>
        -- the slot lies past the end, so the edit clears what was never set
        obtain rfl := some.inj h
        split
        · next hs =>
          subst hs
          cases a with
          | none => rw [action, getElem?_eq_none (Nat.le_of_not_lt hl), join_none]
          | some a => exact absurd ⟨rfl, Nat.le_of_not_lt hl⟩ hp
        · rfl

theorem set_eq_none (h : set entries limit slot a = none) : limit ≤ slot := by
  unfold set at h
  split at h
  · assumption
  · dsimp only at h
    split at h <;> split at h <;> cases h

theorem action_edited (entries : List (Option Action)) (limit slot : ℕ) (a : Option Action) (s : ℕ) :
    action ((set entries limit slot a).getD entries) s = if slot = s ∧ slot < limit then a else action entries s := by
  cases h : set entries limit slot a with
  | none =>
    have hl := set_eq_none h
    rw [if_neg (by omega)]
    rfl
  | some entries' =>
    obtain ⟨hl, ha⟩ := action_set h s
    rw [getD_some, ha]
    by_cases hs : s = slot
    · rw [if_pos hs, if_pos ⟨hs.symm, hl⟩]
    · rw [if_neg hs, if_neg fun hc => hs hc.1.symm]

section

variable (opCount groupCount : ℕ)

theorem exact_edit (t : PolicyTable) (e : Edit) (s : ℕ) :
    action (t.edit opCount groupCount e).exact s = (e.onExact opCount s).getD (action t.exact s) := by
  cases e with
  | exact slot a =>
    have he : ((t.setExact opCount slot a).getD t).exact = (set t.exact opCount slot a).getD t.exact := by
      unfold setExact
      cases set t.exact opCount slot a <;> rfl
    rw [edit, he, action_edited, Edit.onExact]
    split <;> rfl
  | group slot a =>
    have he : ((t.setGroup groupCount slot a).getD t).exact = t.exact := by
      unfold setGroup
      cases set t.group groupCount slot a <;> rfl
    rw [edit, he]
    rfl
  | clear => rfl

theorem group_edit (t : PolicyTable) (e : Edit) (s : ℕ) :
    action (t.edit opCount groupCount e).group s = (e.onGroup groupCount s).getD (action t.group s) := by
  cases e with
  | exact slot a =>
    have hg : ((t.setExact opCount slot a).getD t).group = t.group := by
      unfold setExact
      cases set t.exact opCount slot a <;> rfl
    rw [edit, hg]
    rfl
  | group slot a =>
    have hg : ((t.setGroup groupCount slot a).getD t).group = (set t.group groupCount slot a).getD t.group := by
      unfold setGroup
      cases set t.group groupCount slot a <;> rfl
    rw [edit, hg, action_edited, Edit.onGroup]
    split <;> rfl
  | clear => rfl

def edited (edits : List Edit) : PolicyTable := edits.foldl (edit opCount groupCount) {}

theorem action_edits (on : Edit → Option (Option Action)) (part : PolicyTable → List (Option Action)) (s : ℕ)
    (hf : action (part {}) s = none)
    (hs : ∀ t e, action (part (t.edit opCount groupCount e)) s = (on e).getD (action (part t) s)) (edits : List Edit) :
    action (part (edited opCount groupCount edits)) s = lastAction on edits := by
  induction edits using List.reverseRecOn with
  | nil => exact hf
  | append_singleton edits e ih =>
    rw [edited, foldl_concat, hs, lastAction, reverse_concat, findSome?_cons]
    cases on e with
    | none => exact ih
    | some a => rfl

end

theorem groupLookup_spec (t : PolicyTable) (groups : List ℕ) (passed : Bool) :
    (t.groupLookup groups passed = none ↔ passed = false ∧ ∀ g ∈ groups, action t.group g = none) ∧
      (t.groupLookup groups passed = some .pass ↔ (passed = true ∨ ∃ g ∈ groups, action t.group g = some .pass) ∧
        ∀ g ∈ groups, action t.group g = some .pass ∨ action t.group g = none) := by
  induction groups generalizing passed with
  | nil => cases passed <;> simp [groupLookup]
  | cons g rest ih =>
    rw [groupLookup]
    cases h : action t.group g with
    | none => simp [ih, h]
    | some a =>
      cases a with
      | pass => simp [ih, h]
      | block => simp [h]
      | mock closure => simp [h]

theorem groupLookup_eq_block {t : PolicyTable} {groups : List ℕ} (passed : Bool)
    (hm : ∀ g ∈ groups, ∀ closure, action t.group g ≠ some (.mock closure)) {g : ℕ} (hg : g ∈ groups)
    (hb : action t.group g = some .block) : t.groupLookup groups passed = some .block := by
  induction groups generalizing passed with
  | nil => cases hg
  | cons first rest ih =>
    rw [groupLookup]
    cases h : action t.group first with
    | some a =>
      cases a with
      | block => rfl
      | mock closure => exact absurd h (hm first mem_cons_self closure)
      | pass =>
        rcases mem_cons.mp hg with rfl | hg
        · rw [h] at hb
          cases hb
        · exact ih true (fun g hg => hm g (mem_cons_of_mem _ hg)) hg
    | none =>
      rcases mem_cons.mp hg with rfl | hg
      · rw [h] at hb
        cases hb
      · exact ih passed (fun g hg => hm g (mem_cons_of_mem _ hg)) hg

/-- The first group in the order of the groups that does not pass decides. -/
theorem groupLookup_first {t : PolicyTable} {front back : List ℕ} {g : ℕ} {a : Action} (passed : Bool)
    (hf : ∀ x ∈ front, action t.group x = some .pass ∨ action t.group x = none) (hg : action t.group g = some a)
    (ha : a ≠ .pass) : t.groupLookup (front ++ g :: back) passed = some a := by
  induction front generalizing passed with
  | nil =>
    rw [nil_append, groupLookup, hg]
    cases a with
    | pass => exact absurd rfl ha
    | block => rfl
    | mock closure => rfl
  | cons x front ih =>
    obtain ⟨hx, hf⟩ := forall_mem_cons.mp hf
    rw [cons_append, groupLookup]
    rcases hx with hx | hx <;> rw [hx]
    · exact ih true hf
    · exact ih passed hf

/-- What a table answers after any edits: the exact entry decides, then the groups that hold the operation. -/
def Law (groupsOf : ℕ → List ℕ) (opCount groupCount op : ℕ) : Prop :=
  ∀ edits : List Edit,
    let exact := lastAction (Edit.onExact opCount op) edits
    let group := fun g => lastAction (Edit.onGroup groupCount g) edits
    let answer := (edited opCount groupCount edits).lookup groupsOf op
    (∀ a, exact = some a → answer = some a) ∧
    (exact = none →
      (answer = none ↔ ∀ g ∈ groupsOf op, group g = none) ∧
      (answer = some .pass ↔
        (∃ g ∈ groupsOf op, group g = some .pass) ∧ ∀ g ∈ groupsOf op, group g = some .pass ∨ group g = none) ∧
      (∀ front g back a, groupsOf op = front ++ g :: back →
        (∀ x ∈ front, group x = some .pass ∨ group x = none) → group g = some a → a ≠ .pass → answer = some a) ∧
      ((∀ g ∈ groupsOf op, ∀ closure, group g ≠ some (.mock closure)) →
        (∃ g ∈ groupsOf op, group g = some .block) → answer = some .block))

theorem law (groupsOf : ℕ → List ℕ) (opCount groupCount op : ℕ) : Law groupsOf opCount groupCount op := by
  intro edits
  have he := action_edits opCount groupCount _ PolicyTable.exact op rfl
    (fun t e => exact_edit opCount groupCount t e op) edits
  have hr : ∀ g, _ := fun g => action_edits opCount groupCount _ PolicyTable.group g rfl
    (fun t e => group_edit opCount groupCount t e g) edits
  dsimp only [PolicyTable.lookup]
  simp only [← he, ← hr]
  refine ⟨fun a ha => by rw [ha], fun hn => ?_⟩
  rw [hn]
  dsimp only
  refine ⟨?_, ?_, ?_, ?_⟩
  · rw [(groupLookup_spec ..).1]
    simp
  · rw [(groupLookup_spec ..).2]
    simp
  · intro front g back a hgroups hf hg ha
    rw [hgroups]
    exact groupLookup_first false hf hg ha
  · rintro hm ⟨g, hg, hb⟩
    exact groupLookup_eq_block false hm hg hb

end PolicyTable

end LoomV4.Vm
