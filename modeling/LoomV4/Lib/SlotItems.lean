import LoomV4.Lib.SlotTable

/-!
An item is put into a slot, replaced or taken out.
-/

namespace LoomV4.Lib

open List Option Nat

namespace SlotTable

variable {α : Type}

section Install

variable {P : ℕ} {t t' : SlotTable α} {a : α} {slot g : ℕ}

theorem live_set_some (h : t.cells[slot]? = some ⟨g, none⟩) (g' : ℕ) (a : α) :
    (({ t with cells := t.cells.set slot ⟨g', some a⟩ } : SlotTable α)).live = a ::ₘ t.live := by
  have hs := coe_filterMap_set Cell.item h ⟨g', some a⟩
  rw [← Multiset.singleton_add, add_comm]
  exact (add_zero _).symm.trans hs

theorem live_set_none (h : t.cells[slot]? = some ⟨g, some a⟩) (g' : ℕ) :
    t.live = a ::ₘ (({ t with cells := t.cells.set slot ⟨g', none⟩ } : SlotTable α)).live := by
  have hs := coe_filterMap_set Cell.item h ⟨g', none⟩
  rw [← Multiset.singleton_add, add_comm]
  exact (add_zero _).symm.trans hs.symm

structure Installed (P : ℕ) (t t' : SlotTable α) (a : α) (slot g : ℕ) : Prop where
  cell : ∃ item, t.cells[slot]? = some ⟨g, item⟩
  dead : t.Numbered → t.cells[slot]? = some ⟨g, none⟩
  cells : t'.cells = t.cells.set slot ⟨g, some a⟩
  generations : t'.generations = t.generations
  slots_le : t'.slots ≤ t.slots + 1
  available : t'.available + 1 = t.available
  formed : Formed P t'
  full : t.Numbered → t.Full → t'.Full

theorem getElem?_set_cell {l : List (Cell α)} {c : Cell α} (h : l[slot]? = some c) (c' : Cell α) (i : ℕ) :
    (l.set slot c')[i]? = if slot = i then some c' else l[i]? := by
  have hlt := lt_of_getElem? h
  rw [getElem?_set, if_pos hlt]

theorem Formed.generations_set {c : Cell α} (h : Formed P t) (hc : t.cells[slot]? = some c) :
    t.generations.set slot c.generation = t.generations := by
  obtain ⟨hlt, he⟩ := List.getElem?_eq_some_iff.mp (h.mirror slot c hc)
  rw [← he]
  exact set_getElem_self hlt

theorem Formed.not_free (h : Formed P t) (hl : t.cells[slot]? = some ⟨g, some a⟩) : slot ∉ t.free := by
  intro hm
  obtain ⟨-, gi, hgi⟩ := h.free_dead slot hm
  rw [hl] at hgi
  cases hgi

/-- One cell changes, with its generation. -/
theorem Formed.setCell {c c' : Cell α} (h : Formed P t) (hc : t.cells[slot]? = some c)
    (hce : t'.cells = t.cells.set slot c') (hg : t'.generations = t.generations.set slot c'.generation)
    (hs : t.slots ≤ t'.slots) (hle : t'.slots ≤ t.cells.length) (hlt : c'.item ≠ none → slot < t'.slots)
    (hf : ∀ i ∈ t'.free, i = slot ∧ c'.item = none ∧ slot < t'.slots ∨ i ≠ slot ∧ i ∈ t.free)
    (hn : t'.free.Nodup) : Formed P t' := by
  have hcl : ∀ i, t'.cells[i]? = if slot = i then some c' else t.cells[i]? := fun i => by
    rw [hce, getElem?_set_cell hc]
  refine ⟨?_, fun i d hd => ?_, ?_, fun i d hd hl => ?_, fun i hi => ?_, hn⟩
  · rw [hce, length_set]
    exact h.paged
  · rw [hcl] at hd
    rw [hg, getElem?_set, if_pos (h.lt_generations hc)]
    split at hd
    · next he => rw [if_pos he, ← some.inj hd]
    · next he =>
      rw [if_neg he]
      exact h.mirror i d hd
  · rw [hce, length_set]
    exact hle
  · rw [hcl] at hd
    split at hd
    · next he =>
      cases hd
      exact he ▸ hlt hl
    · exact (h.live_lt i d hd hl).trans_le hs
  · rcases hf i hi with ⟨rfl, ho, ht⟩ | ⟨hne, hold⟩
    · exact ⟨ht, c'.generation, by rw [hcl, if_pos rfl, ← ho]⟩
    · obtain ⟨hil, gi, hgi⟩ := h.free_dead i hold
      exact ⟨hil.trans_le hs, gi, by rw [hcl, if_neg (Ne.symm hne), hgi]⟩

theorem Full.setCell {c c' : Cell α} (h : t.Full) (hc : t.cells[slot]? = some c)
    (hl : t'.cells = t.cells.set slot c') (hs : ∀ i < t'.slots, i ≠ slot → i < t.slots)
    (hd : c'.item = none → slot < t'.slots → slot ∈ t'.free) (hf : ∀ i ∈ t.free, i ≠ slot → i ∈ t'.free) :
    t'.Full := by
  rintro i hi ⟨gi, hgi⟩
  rw [hl, getElem?_set_cell hc] at hgi
  by_cases he : slot = i
  · subst he
    rw [if_pos rfl] at hgi
    exact hd (congrArg Cell.item (some.inj hgi)) hi
  · rw [if_neg he] at hgi
    exact hf i (h i (hs i hi (Ne.symm he)) ⟨gi, hgi⟩) (Ne.symm he)

theorem Formed.occupy {item : Option α} (h : Formed P t) (hd : t.cells[slot]? = some ⟨g, item⟩)
    (hc : t'.cells = t.cells.set slot ⟨g, some a⟩) (hg : t'.generations = t.generations)
    (hs : t.slots ≤ t'.slots) (hlt : slot < t'.slots) (hle : t'.slots ≤ t.cells.length)
    (hf : t'.free.Sublist t.free) (hn : slot ∉ t'.free) : Formed P t' :=
  h.setCell hd hc (hg.trans (h.generations_set hd).symm) hs hle (fun _ => hlt)
    (fun _ hi => .inr ⟨fun he => hn (he ▸ hi), hf.subset hi⟩) (h.nodup.sublist hf)

theorem install_spec (h : Formed P t) (hs : t.Spare) (a : α) :
    ∃ slot g t', t.install a = some ((slot, g), t') ∧ Installed P t t' a slot g := by
  cases hf : t.free with
  | cons slot free =>
    obtain ⟨hlt, g, hd⟩ := h.free_dead slot (hf ▸ mem_cons_self)
    have hnd := nodup_cons.mp (hf ▸ h.nodup)
    have hn : t.next = (slot, { t with free }) := by simp [next, hf]
    refine ⟨slot, g, { t with free, cells := t.cells.set slot ⟨g, some a⟩ }, ?_, ⟨none, hd⟩, fun _ => hd, rfl, rfl,
      le_succ _, ?_, ?_, ?_⟩
    · simp [install, hn, put, hd]
    · simp only [available, hf, length_cons, length_set]
      omega
    · exact h.occupy hd rfl rfl le_rfl hlt h.slots_le (hf ▸ sublist_cons_self _ _) hnd.1
    · exact fun _ hu => hu.setCell hd rfl (fun _ hi _ => hi) (fun he => by cases he)
        (fun _ hm hne => (mem_cons.mp (hf ▸ hm)).resolve_left hne)
  | nil =>
    have hlt := hs hf
    have hle : t.slots % slotNumbers ≤ t.slots := mod_le _ _
    obtain ⟨c, hc⟩ : ∃ c, t.cells[t.slots % slotNumbers]? = some c := ⟨_, getElem?_eq_getElem (hle.trans_lt hlt)⟩
    have hd : t.Numbered → t.cells[t.slots % slotNumbers]? = some ⟨c.generation, none⟩ := by
      intro hm
      have hi : c.item = none := by
        by_contra hne
        have hl := h.live_lt _ c hc hne
        rw [mod_eq_of_lt (hm hf)] at hl
        exact absurd hl (lt_irrefl _)
      rw [hc, ← hi]
    have hn : t.next = (t.slots % slotNumbers, { t with slots := t.slots + 1 }) := by simp [next, hf]
    refine ⟨t.slots % slotNumbers, c.generation,
      { t with slots := t.slots + 1, cells := t.cells.set (t.slots % slotNumbers) ⟨c.generation, some a⟩ }, ?_,
      ⟨c.item, hc⟩, hd, rfl, rfl, le_rfl, ?_, ?_, ?_⟩
    · simp [install, hn, put, hc]
    · simp only [available, length_set]
      omega
    · exact h.occupy hc rfl rfl (le_succ _) (lt_succ_of_le hle) hlt (Sublist.refl _) (by simp [hf])
    · intro hm hu
      refine hu.setCell hc rfl (fun i hi hne => ?_) (fun he => by cases he) (fun _ hj _ => hj)
      rw [mod_eq_of_lt (hm hf)] at hne
      exact lt_of_le_of_ne (Nat.lt_succ_iff.mp hi) hne

variable {x : (ℕ × ℕ) × SlotTable α}

theorem install_bump (hf : t.free = []) (h : t.install a = some x) :
    x.1.1 = t.slots % slotNumbers ∧ x.2.free = [] ∧ x.2.slots = t.slots + 1 := by
  have hn : t.next = (t.slots % slotNumbers, { t with slots := t.slots + 1 }) := by simp [next, hf]
  unfold install put at h
  rw [hn] at h
  cases hc : t.cells[t.slots % slotNumbers]? with
  | none => simp [hc] at h
  | some c =>
    simp only [hc, Option.some.injEq] at h
    subst h
    exact ⟨rfl, hf, rfl⟩

theorem spare_of_install (hn : t.Numbered) (h : t.install a = some x) : t.Spare := by
  intro hf
  unfold install put at h
  split at h
  · next g t' hp =>
    split at hp
    · next c hc =>
      have hs : t.next = (t.slots, { t with slots := t.slots + 1 }) := by
        simp [next, hf, mod_eq_of_lt (hn hf)]
      rw [hs] at hc
      exact lt_of_getElem? hc
    · cases hp
  · cases h

theorem Installed.live (h : Installed P t t' a slot g) (hn : t.Numbered) : t'.live = a ::ₘ t.live := by
  rw [← live_set_some (h.dead hn) g a]
  simp [SlotTable.live, h.cells]

theorem Installed.aged (h : Installed P t t' a slot g) : Aged P t t' := by
  have hg : ∀ i, t'.generation i = t.generation i := fun i => by rw [generation, h.generations, generation]
  refine ⟨?_, fun i => (hg i).le, fun _ => hg⟩
  rw [h.cells, length_set]

theorem Installed.kept (h : Installed P t t' a slot g) (hn : t.Numbered) : Kept P t t' := by
  refine ⟨h.aged, fun i gi b hl => ?_⟩
  have hd := h.dead hn
  rw [h.cells, getElem?_set_cell hd, if_neg, hl]
  rintro rfl
  rw [hd] at hl
  cases hl

theorem Installed.item (h : Installed P t t' a slot g) : t'.cells[slot]? = some ⟨g, some a⟩ := by
  obtain ⟨item, hc⟩ := h.cell
  rw [h.cells, getElem?_set_cell hc, if_pos rfl]

theorem Formed.replace (h : Formed P t) (hl : t.cells[slot]? = some ⟨g, some a⟩) (b : α) :
    Formed P { t with cells := t.cells.set slot ⟨g, some b⟩ } :=
  h.setCell hl rfl (h.generations_set hl).symm le_rfl h.slots_le (fun _ => h.live_lt slot _ hl (some_ne_none a))
    (fun _ hi => .inr ⟨fun he => h.not_free hl (he ▸ hi), hi⟩) h.nodup

theorem Full.replace (h : t.Full) (hl : t.cells[slot]? = some ⟨g, some a⟩) (b : α) :
    Full { t with cells := t.cells.set slot ⟨g, some b⟩ } :=
  h.setCell hl rfl (fun _ hi _ => hi) nofun fun _ hm _ => hm

theorem put_eq (hl : t.cells[slot]? = some ⟨g, some a⟩) (b : α) :
    t.put slot b = some (g, { t with cells := t.cells.set slot ⟨g, some b⟩ }) := by
  simp [put, hl]

theorem live_replace (hl : t.cells[slot]? = some ⟨g, some a⟩) : ∃ rest, t.live = a ::ₘ rest ∧
    ∀ b, ({ t with cells := t.cells.set slot ⟨g, some b⟩ } : SlotTable α).live = b ::ₘ rest := by
  obtain ⟨rest, hr⟩ := Multiset.exists_cons_of_mem (mem_live.mpr ⟨slot, g, hl⟩)
  refine ⟨rest, hr, fun b => ?_⟩
  have hs := coe_filterMap_set Cell.item hl ⟨g, some b⟩
  change ({ t with cells := t.cells.set slot ⟨g, some b⟩ } : SlotTable α).live + {a} = t.live + {b} at hs
  rw [hr, add_comm, Multiset.singleton_add, add_comm, Multiset.singleton_add, Multiset.cons_swap] at hs
  exact (Multiset.cons_inj_right a).mp hs

end Install

section Kill

variable {P M : ℕ} {t t' : SlotTable α} {a : α} {slot g : ℕ}

theorem kill_eq (h : Formed P t) (hl : t.cells[slot]? = some ⟨g, some a⟩) : t.kill M slot = some (a, { t with
      cells := t.cells.set slot ⟨(g + 1) % M, none⟩
      generations := t.generations.set slot ((g + 1) % M)
      free := slot :: t.free }) := by
  simp [kill, hl, if_pos (h.lt_generations hl)]

theorem kill_lengths (h : t.kill M slot = some (a, t')) :
    t'.slots = t.slots ∧ t'.cells.length = t.cells.length := by
  unfold kill at h
  split at h
  · split at h
    · cases h
      exact ⟨rfl, length_set⟩
    · cases h
  · cases h

structure Killed (P M : ℕ) (t t' : SlotTable α) (a : α) (slot g : ℕ) : Prop where
  cell : t.cells[slot]? = some ⟨g, some a⟩
  cells : t'.cells = t.cells.set slot ⟨(g + 1) % M, none⟩
  generations : t'.generations = t.generations.set slot ((g + 1) % M)
  slots : t'.slots = t.slots
  formed : Formed P t'
  full : t.Full → t'.Full

theorem kill_spec (h : Formed P t) (hl : t.cells[slot]? = some ⟨g, some a⟩) :
    ∃ t', t.kill M slot = some (a, t') ∧ Killed P M t t' a slot g := by
  have hf : ∀ i ∈ slot :: t.free, i = slot ∧ (none : Option α) = none ∧ slot < t.slots ∨ i ≠ slot ∧ i ∈ t.free := by
    intro i hi
    rcases mem_cons.mp hi with rfl | hm
    · exact .inl ⟨rfl, rfl, h.live_lt i _ hl (some_ne_none a)⟩
    · exact .inr ⟨fun he => h.not_free hl (he ▸ hm), hm⟩
  refine ⟨_, kill_eq h hl, hl, rfl, rfl, rfl, ?_, ?_⟩
  · exact h.setCell hl rfl rfl le_rfl h.slots_le (fun hne => absurd rfl hne) hf
      (nodup_cons.mpr ⟨h.not_free hl, h.nodup⟩)
  · exact fun hu => hu.setCell hl rfl (fun _ hi _ => hi) (fun _ _ => mem_cons_self)
      (fun _ hm _ => mem_cons_of_mem _ hm)

theorem Killed.live (h : Killed P M t t' a slot g) : t.live = a ::ₘ t'.live := by
  rw [live_set_none h.cell ((g + 1) % M)]
  simp [SlotTable.live, h.cells]

end Kill

section Find

variable {P M n : ℕ} {t t' : SlotTable α} {slot g : ℕ} {a : α} {keep : ℕ → ℕ → Bool}

theorem find_eq_some {slot g : ℕ} {a : α} : t.find slot g = some a ↔ t.cells[slot]? = some ⟨g, some a⟩ := by
  unfold find
  constructor
  · intro h
    split at h
    · next c hc =>
      split at h
      · next hg => rw [hc, ← hg, ← h]
      · cases h
    · cases h
  · intro h
    simp [h]

theorem length_le_of_find {l : List (ℕ × ℕ)} (hl : l.Nodup) (hf : ∀ x ∈ l, t.find x.1 x.2 ≠ none) :
    l.length ≤ t.cells.length := by
  have hc : ∀ x ∈ l, ∃ a, t.cells[x.1]? = some ⟨x.2, some a⟩ := fun x hx => by
    obtain ⟨a, ha⟩ := Option.ne_none_iff_exists'.mp (hf x hx)
    exact ⟨a, find_eq_some.mp ha⟩
  have hn : (l.map Prod.fst).Nodup := by
    refine hl.map_on fun x hx y hy he => Prod.ext he ?_
    obtain ⟨a, ha⟩ := hc x hx
    obtain ⟨b, hb⟩ := hc y hy
    rw [he, hb] at ha
    exact (congrArg Cell.generation (Option.some.inj ha)).symm
  have hs : l.map Prod.fst ⊆ range t.cells.length := by
    intro i hi
    obtain ⟨x, hx, rfl⟩ := mem_map.mp hi
    obtain ⟨a, ha⟩ := hc x hx
    exact mem_range.mpr (List.getElem?_eq_some_iff.mp ha).1
  simpa using (hn.subperm hs).length_le

theorem find_congr (h : ∀ (i k : ℕ) (b : α), t'.cells[i]? = some ⟨k, some b⟩ ↔ t.cells[i]? = some ⟨k, some b⟩)
    (i k : ℕ) : t'.find i k = t.find i k := by
  ext b
  rw [find_eq_some, find_eq_some, h]

theorem find_room (P : ℕ) (t : SlotTable α) (i k : ℕ) : (t.room P).find i k = t.find i k := by
  unfold room
  split
  · apply find_congr
    intro i k b
    rw [getElem?_addPage]
    split
    · rfl
    · next hi =>
      rw [getElem?_eq_none (not_lt.mp hi)]
      split <;> simp
  · rfl

theorem find_set {c c' : Cell α} (hc : t.cells[slot]? = some c) (he : t'.cells = t.cells.set slot c') (i k : ℕ) :
    t'.find i k = if i = slot then if c'.generation = k then c'.item else none else t.find i k := by
  unfold find
  rw [he, getElem?_set_cell hc]
  by_cases hi : slot = i
  · simp [hi]
  · simp [hi, Ne.symm hi]

theorem Installed.find_eq (h : Installed P t t' a slot g) (i k : ℕ) :
    t'.find i k = if i = slot ∧ k = g then some a else t.find i k := by
  obtain ⟨item, hc⟩ := h.cell
  rw [find_set hc h.cells]
  by_cases hi : i = slot
  · by_cases hk : g = k <;> simp [hi, find, hc, hk, eq_comm]
  · simp [hi]

theorem find_replace (hl : t.cells[slot]? = some ⟨g, some a⟩) (b : α) (i k : ℕ) :
    ({ t with cells := t.cells.set slot ⟨g, some b⟩ } : SlotTable α).find i k =
      if i = slot ∧ k = g then some b else t.find i k := by
  rw [find_set hl rfl]
  by_cases hi : i = slot
  · by_cases hk : g = k <;> simp [hi, find, hl, hk, eq_comm]
  · simp [hi]

theorem Killed.find_eq (h : Killed P M t t' a slot g) (i k : ℕ) :
    t'.find i k = if i = slot ∧ k = g then none else t.find i k := by
  rw [find_set h.cell h.cells]
  by_cases hi : i = slot
  · by_cases hk : g = k <;> simp [hi, find, h.cell, hk, eq_comm]
  · simp [hi]

end Find

end SlotTable

end LoomV4.Lib
