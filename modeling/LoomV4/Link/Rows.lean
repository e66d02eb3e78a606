import LoomV4.Link.Dispatch
import Mathlib.Data.List.Nodup

namespace LoomV4.Link.DispatchRow

open List

section Methods

variable {methods : List (ℕ × ℕ)} {s : ℕ}

theorem lookup_cons_eq (m : ℕ × ℕ) (methods : List (ℕ × ℕ)) (s : ℕ) :
    (m :: methods).lookup s = if s = m.1 then some m.2 else methods.lookup s := by
  obtain ⟨k, f⟩ := m
  by_cases h : s = k
  · simp [h]
  · simp [lookup_cons, beq_false_of_ne h, h]

/-- By the table, from the cell at `n` on. -/
theorem lookup_cells (table : List ℕ) (base n s : ℕ) :
    (((table.zipIdx n).filter fun cell => cell.1 ≠ NO_METHOD).map fun cell =>
      (base + cell.2, cell.1)).lookup s = if s < base + n then none
      else match table[s - (base + n)]? with
        | none => none
        | some function => if function = NO_METHOD then none else some function := by
  induction table generalizing n with
  | nil => simp
  | cons f table ih =>
    have hi : (((f :: table).zipIdx n).filter fun cell => cell.1 ≠ NO_METHOD).map (fun cell =>
        (base + cell.2, cell.1)) = (if f = NO_METHOD then [] else [(base + n, f)]) ++
        ((table.zipIdx (n + 1)).filter fun cell => cell.1 ≠ NO_METHOD).map fun cell =>
          (base + cell.2, cell.1) := by
      by_cases hf : f = NO_METHOD <;> simp [zipIdx_cons, hf]
    rw [hi, lookup_append, ih]
    rcases Nat.lt_trichotomy s (base + n) with hlt | rfl | hgt
    · have hlt' : s < base + (n + 1) := by omega
      have hne : s ≠ base + n := by omega
      rw [if_pos hlt, if_pos hlt']
      split <;> simp [hne]
    · have hlt' : base + n < base + (n + 1) := by omega
      rw [if_pos hlt', if_neg (Nat.lt_irrefl _)]
      by_cases hf : f = NO_METHOD <;> simp [hf]
    · have hge : ¬ s < base + n := by omega
      have hge' : ¬ s < base + (n + 1) := by omega
      have hne : s ≠ base + n := by omega
      rw [if_neg hge, if_neg hge', show s - (base + n) = s - (base + (n + 1)) + 1 by omega, List.getElem?_cons_succ]
      by_cases hf : f = NO_METHOD <;> simp [hf, hne]

theorem lookup_entries (row : DispatchRow) (s : ℕ) : row.entries.lookup s = row.method s :=
  lookup_cells row.table row.base 0 s

theorem nodup_entries (row : DispatchRow) : (row.entries.map Prod.fst).Nodup := by
  have hi : (row.table.zipIdx.map Prod.snd).Nodup := by
    rw [zipIdx_map_snd]
    exact nodup_range'
  have hs : ((row.table.zipIdx.filter fun cell => cell.1 ≠ NO_METHOD).map Prod.snd).Nodup :=
    hi.sublist (filter_sublist.map _)
  have hk : row.entries.map Prod.fst = ((row.table.zipIdx.filter fun cell =>
      cell.1 ≠ NO_METHOD).map Prod.snd).map (row.base + ·) := by
    simp [entries, Function.comp_def]
  rw [hk]
  exact hs.map fun _ _ h => by simpa using h

theorem lookup_putMethod (methods : List (ℕ × ℕ)) (method : ℕ × ℕ) (s : ℕ) :
    (putMethod methods method).lookup s = if s = method.1 then some method.2 else methods.lookup s := by
  induction methods with
  | nil => rw [putMethod, lookup_cons_eq]
  | cons other methods ih =>
    unfold putMethod
    by_cases ho : other.1 = method.1
    · rw [if_pos ho, lookup_cons_eq, lookup_cons_eq, ho]
      split <;> rfl
    · rw [if_neg ho, lookup_cons_eq, lookup_cons_eq, ih]
      by_cases h : s = other.1
      · rw [if_pos h, if_pos h, if_neg (h ▸ ho)]
      · rw [if_neg h, if_neg h]

variable {method : ℕ × ℕ}

theorem mem_keys_putMethod {k : ℕ} :
    k ∈ (putMethod methods method).map Prod.fst ↔ k ∈ methods.map Prod.fst ∨ k = method.1 := by
  induction methods with
  | nil => simp [putMethod]
  | cons other methods ih =>
    unfold putMethod
    split
    · rename_i ho
      simp only [map_cons, mem_cons]
      grind
    · simp only [map_cons, mem_cons, ih, or_assoc]

theorem nodup_putMethod (h : (methods.map Prod.fst).Nodup) : ((putMethod methods method).map Prod.fst).Nodup := by
  induction methods with
  | nil => simp [putMethod]
  | cons other methods ih =>
    rw [map_cons, nodup_cons] at h
    unfold putMethod
    split
    · exact nodup_cons.mpr h
    · rename_i ho
      rw [map_cons, nodup_cons, mem_keys_putMethod]
      exact ⟨fun hm => hm.elim h.1 ho, ih h.2⟩

theorem values_putMethod {P : ℕ → Prop} (h : ∀ m ∈ methods, P m.2) (hm : P method.2) :
    ∀ m ∈ putMethod methods method, P m.2 := by
  induction methods with
  | nil => simpa [putMethod] using hm
  | cons other methods ih =>
    simp only [mem_cons, forall_eq_or_imp] at h
    unfold putMethod
    split
    · simp only [mem_cons, forall_eq_or_imp]
      exact ⟨hm, h.2⟩
    · simp only [mem_cons, forall_eq_or_imp]
      exact ⟨h.1, ih h.2⟩

theorem lookup_foldl_putMethod (own methods : List (ℕ × ℕ)) (s : ℕ) :
    (own.foldl putMethod methods).lookup s = (own.reverse.lookup s).or (methods.lookup s) := by
  induction own generalizing methods with
  | nil => simp
  | cons method own ih =>
    rw [foldl_cons, ih, lookup_putMethod, reverse_cons, lookup_append, Option.or_assoc]
    rw [lookup_cons_eq]
    by_cases h : s = method.1 <;> simp [h]

variable {own : List (ℕ × ℕ)}

theorem keys_foldl_putMethod (h : (methods.map Prod.fst).Nodup) :
    ((own.foldl putMethod methods).map Prod.fst).Nodup := by
  induction own generalizing methods with
  | nil => exact h
  | cons method own ih => exact ih (nodup_putMethod h)

theorem values_foldl_putMethod {P : ℕ → Prop} (h : ∀ m ∈ methods, P m.2)
    (ho : ∀ m ∈ own, P m.2) : ∀ m ∈ own.foldl putMethod methods, P m.2 := by
  induction own generalizing methods with
  | nil => exact h
  | cons method own ih =>
    simp only [mem_cons, forall_eq_or_imp] at ho
    exact ih (values_putMethod h ho.1) ho.2

theorem lookup_eq_none (h : s ∉ methods.map Prod.fst) : methods.lookup s = none := by
  induction methods with
  | nil => rfl
  | cons m methods ih =>
    simp only [map_cons, mem_cons, not_or] at h
    rw [lookup_cons_eq, if_neg h.1, ih h.2]

theorem mem_of_lookup {f : ℕ} (h : methods.lookup s = some f) : (s, f) ∈ methods := by
  induction methods with
  | nil => cases h
  | cons m methods ih =>
    rw [lookup_cons_eq] at h
    split_ifs at h with hs
    · obtain rfl := Option.some.inj h
      exact mem_cons.mpr (.inl (by rw [hs]))
    · exact mem_cons_of_mem _ (ih h)

/-- By the methods, each of which fills a cell that no later one fills. -/
theorem getElem?_fill {base : ℕ} (hs : base ≤ s) {table : List ℕ} (hk : (methods.map Prod.fst).Nodup)
    (hin : ∀ k ∈ methods.map Prod.fst, base ≤ k ∧ k - base < table.length) :
    (methods.foldl (fun table method => table.set (method.1 - base) method.2) table)[s - base]? =
      (methods.lookup s).or table[s - base]? := by
  induction methods generalizing table with
  | nil => simp
  | cons method methods ih =>
    simp only [map_cons, nodup_cons, mem_cons, forall_eq_or_imp] at hk hin
    rw [foldl_cons, ih hk.2 (by simpa using hin.2), lookup_cons_eq]
    by_cases h : s = method.1
    · subst h
      rw [lookup_eq_none hk.1]
      simp [hin.1.2]
    · have hne : method.1 - base ≠ s - base := by omega
      simp [h, List.getElem?_set_ne hne]

theorem method_ofMethods {witnesses : Option InterfaceWitnesses}
    (he : (methods.map Prod.fst).Nodup) (hv : ∀ m ∈ methods, m.2 ≠ NO_METHOD) (s : ℕ) :
    (ofMethods methods witnesses).method s = methods.lookup s := by
  unfold ofMethods
  split
  · rename_i base top hb ht
    have hm := (List.min?_eq_some_iff.mp hb).2
    have ha := (List.max?_eq_some_iff.mp ht).2
    have hin : ∀ k ∈ methods.map Prod.fst,
        base ≤ k ∧ k - base < (List.replicate (top - base + 1) NO_METHOD).length := by
      intro k hk
      have h1 := hm k hk
      have h2 := ha k hk
      rw [length_replicate]
      omega
    unfold method
    dsimp only
    split
    · rename_i hlt
      rw [lookup_eq_none]
      intro hk
      have := hm s hk
      omega
    · rename_i hge
      rw [getElem?_fill (by omega) he hin]
      cases hl : methods.lookup s with
      | some f =>
        have hf : f ≠ NO_METHOD := hv (s, f) (mem_of_lookup hl)
        simp [hf]
      | none =>
        rw [Option.none_or, List.getElem?_replicate]
        split <;> simp_all
  · rename_i h
    have hn : methods = [] := by
      cases methods with
      | nil => rfl
      | cons m ms => simp [List.min?_cons, List.max?_cons] at h
    simp [hn, method]

end Methods

section Witnesses

theorem findWitness_eq (witnesses : InterfaceWitnesses) (interface : ℕ) :
    findWitness witnesses interface = witnesses.items.find? fun w => w.interface = interface := by
  unfold findWitness
  split
  · rename_i index h
    obtain ⟨hi, hf, -⟩ := Lib.searchBy_found h
    rw [hf, List.getElem?_eq_getElem hi]
  · rename_i index h
    exact (Lib.searchBy_error h).1.symm

theorem findWitness_putWitness (witness : InterfaceWitness) (witnesses : InterfaceWitnesses)
    (interface : ℕ) : findWitness (putWitness witness witnesses) interface =
      if interface = witness.interface then some witness else findWitness witnesses interface := by
  simp only [findWitness_eq]
  unfold putWitness
  split
  · rename_i index h
    obtain ⟨hi, -, hk⟩ := Lib.searchBy_found h
    rw [Lib.KeyedList.modifyAt_items hi]
    split_ifs with heq
    · subst heq
      exact Lib.find?_set_findIdx (Lib.searchBy_ok h) (by simp)
    · apply Lib.find?_set_of_false hi
      · simpa [hk] using Ne.symm heq
      · simpa using Ne.symm heq
  · rename_i index h
    obtain ⟨hn, hi⟩ := Lib.searchBy_error h
    split_ifs with heq
    · subst heq
      exact Lib.find?_insertIdx_of_none hn (by simp) hi
    · exact Lib.find?_insertIdx_of_false (by simpa using Ne.symm heq) hi

end Witnesses

end LoomV4.Link.DispatchRow
