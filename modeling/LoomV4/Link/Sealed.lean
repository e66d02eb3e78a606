import LoomV4.Bytecode.Canonical
import LoomV4.Lib.Steps
import LoomV4.Lib.Traverse
import LoomV4.Link.Rows

namespace LoomV4.Link

open List Option DispatchRow Lib

open Lib (Above Nearest)

namespace Merged

variable (M : Merged)

def parent (c : ℕ) : Option ℕ :=
  M.classes[c]?.bind BcClass.parent

def ownMethod (s c : ℕ) : Option ℕ :=
  M.classes[c]?.bind fun cls => cls.methods.reverse.lookup s

def ownConformance (i c : ℕ) : Option (List Bool × ℕ) :=
  ((M.conformancesOf c).filter fun k => k.1.interface = i).getLast?.map fun k =>
    (k.1.methodOverrides, k.2)

def hasDefault (i : ℕ) : Bool :=
  M.interfaces[i]?.any BcInterface.hasDefault

/-- Parents come first, and no function is taken for the mark of an empty cell. -/
structure Formed : Prop where
  parents : ∀ (c : ℕ) cls p, M.classes[c]? = some cls → cls.parent = some p → p < c
  methods : ∀ cls ∈ M.classes, ∀ m ∈ cls.methods, m.2 ≠ NO_METHOD

structure Sealed : Prop extends M.Formed where
  length : M.dispatch.length = M.classes.length
  rows : ∀ (c : ℕ) cls, M.classes[c]? = some cls → M.dispatchRow M.dispatch c cls = M.dispatch[c]?

end Merged

section Row

variable {M : Merged}

def DispatchRow.witness (witnesses : Option InterfaceWitnesses) (i : ℕ) :
    Option (List Bool × ℕ) :=
  (witnesses.bind fun ws => findWitness ws i).map fun w => (w.methodOverrides, w.conformance)

theorem getLast?_filter_cons {α : Type} {p : α → Bool} (a : α) (l : List α) :
    ((a :: l).filter p).getLast? = (l.filter p).getLast?.or (if p a then some a else none) := by
  by_cases h : p a
  · simp [h, getLast?_cons]
  · simp [h]

/-- By the conformances: each one to the interface takes the place of those before it. -/
theorem witness_foldlM {inherited changed changed' : Option InterfaceWitnesses} {i : ℕ}
    (hi : M.hasDefault i) (ks : List (BcConformance × ℕ))
    (h : ks.foldlM (M.addWitness inherited) changed = some changed') :
    DispatchRow.witness (changed'.or inherited) i =
      ((ks.filter fun k => k.1.interface = i).getLast?.map fun k => (k.1.methodOverrides, k.2)).or
        (DispatchRow.witness (changed.or inherited) i) := by
  induction ks generalizing changed with
  | nil =>
    obtain rfl := some.inj h
    simp
  | cons k ks ih =>
    rw [foldlM_cons] at h
    obtain ⟨next, hn, h⟩ := bind_eq_some_iff.mp h
    rw [ih h, getLast?_filter_cons, map_or, Option.or_assoc]
    congr 1
    obtain ⟨interface, hf, hn⟩ := bind_eq_some_iff.mp hn
    by_cases hd : interface.hasDefault
    · rw [if_pos hd] at hn
      obtain rfl := some.inj hn
      have hb : DispatchRow.witness (changed.or inherited) i =
          (findWitness (changed.getD (inherited.getD .empty)) i).map fun w =>
            (w.methodOverrides, w.conformance) := by
        cases changed <;> cases inherited <;> simp [DispatchRow.witness, findWitness_eq]
      rw [hb]
      simp only [DispatchRow.witness, some_or, bind_some, findWitness_putWitness]
      by_cases hk : k.1.interface = i
      · simp [hk]
      · simp [hk, Ne.symm hk]
    · rw [if_neg hd] at hn
      obtain rfl := some.inj hn
      have hk : k.1.interface ≠ i := by
        rintro rfl
        rw [Merged.hasDefault, hf] at hi
        exact hd hi
      simp [hk]

variable {D : List DispatchRow} {c : ℕ} {cls : BcClass} {row : DispatchRow}

theorem inheritedRow_bind {α : Type} {f : DispatchRow → Option α} {inherited : Option DispatchRow}
    (h : Merged.inheritedRow D cls = some inherited) :
    inherited.bind f = cls.parent.bind fun p => D[p]?.bind f := by
  unfold Merged.inheritedRow at h
  split at h
  · rename_i hp
    obtain rfl := some.inj h
    simp [hp]
  · rename_i p hp
    obtain ⟨r, hr, rfl⟩ := map_eq_some_iff.mp h
    simp [hp, hr]

theorem witness_dispatchRow {i : ℕ} (hi : M.hasDefault i) (h : M.dispatchRow D c cls = some row) :
    DispatchRow.witness row.interfaceWitnesses i = (M.ownConformance i c).or
      (cls.parent.bind fun p => D[p]?.bind fun r => DispatchRow.witness r.interfaceWitnesses i) := by
  obtain ⟨inherited, hn, h⟩ := bind_eq_some_iff.mp h
  obtain ⟨changed, hc, h⟩ := bind_eq_some_iff.mp h
  obtain rfl := some.inj h
  have hr : ∀ methods ws, (ofMethods methods ws).interfaceWitnesses = ws := by
    intro methods ws
    unfold ofMethods
    split <;> rfl
  rw [hr, witness_foldlM hi _ hc]
  rw [← inheritedRow_bind hn]
  congr 1
  cases inherited <;> rfl

theorem method_dispatchRow (hv : ∀ m ∈ cls.methods, m.2 ≠ NO_METHOD)
    (h : M.dispatchRow D c cls = some row) (s : ℕ) : row.method s = (cls.methods.reverse.lookup s).or
      (cls.parent.bind fun p => D[p]?.bind fun r => r.method s) := by
  obtain ⟨inherited, hi, h⟩ := bind_eq_some_iff.mp h
  obtain ⟨changed, hc, h⟩ := bind_eq_some_iff.mp h
  obtain rfl := some.inj h
  have hk : ((inherited.elim [] DispatchRow.entries).map Prod.fst).Nodup := by
    cases inherited with
    | none => exact nodup_nil
    | some r => exact r.nodup_entries
  have hold : ∀ m ∈ inherited.elim [] DispatchRow.entries, m.2 ≠ NO_METHOD := by
    cases inherited with
    | none => nofun
    | some r =>
      intro m hm
      obtain ⟨cell, he, rfl⟩ := List.mem_map.mp hm
      simpa using (mem_filter.mp he).2
  have ha := values_foldl_putMethod (P := (· ≠ NO_METHOD)) hold hv
  rw [method_ofMethods (keys_foldl_putMethod hk) ha, lookup_foldl_putMethod]
  rw [← inheritedRow_bind hi]
  congr 1
  cases inherited with
  | none => rfl
  | some r => exact r.lookup_entries s

end Row

section Seal

variable {M M' : Merged}

structure Merged.Extends (M M' : Merged) : Prop where
  classes : M.classes <+: M'.classes
  interfaces : M.interfaces <+: M'.interfaces
  conformances : ∃ new, M'.conformances = M.conformances ++ new ∧
    ∀ k ∈ new, M.classes.length ≤ k.class
  dispatch : M'.dispatch = M.dispatch

theorem Merged.Extends.refl (M : Merged) : M.Extends M :=
  ⟨prefix_rfl, prefix_rfl, ⟨[], (append_nil _).symm, nofun⟩, rfl⟩

theorem Merged.Extends.trans {M'' : Merged} (h : M.Extends M') (h' : M'.Extends M'') : M.Extends M'' := by
  obtain ⟨new, hn, hge⟩ := h.conformances
  obtain ⟨new', hn', hge'⟩ := h'.conformances
  refine ⟨h.classes.trans h'.classes, h.interfaces.trans h'.interfaces, ⟨new ++ new', ?_, ?_⟩,
    h'.dispatch.trans h.dispatch⟩
  · rw [hn', hn, append_assoc]
  · intro k hk
    rcases mem_append.mp hk with hk | hk
    · exact hge k hk
    · exact h.classes.length_le.trans (hge' k hk)

theorem Merged.Extends.conformancesOf (h : M.Extends M') {c : ℕ} (hc : c < M.classes.length) :
    M'.conformancesOf c = M.conformancesOf c := by
  obtain ⟨new, he, hge⟩ := h.conformances
  unfold Merged.conformancesOf
  rw [he, zipIdx_append, filter_append]
  have hn : (new.zipIdx (0 + M.conformances.length)).filter (fun k => k.1.class = c) = [] := by
    rw [filter_eq_nil_iff]
    intro k hk
    have := hge k.1 (fst_mem_of_mem_zipIdx hk)
    simp only [decide_eq_true_eq]
    omega
  rw [hn, append_nil]

theorem foldlM_mono {α σ : Type} {f g : σ → α → Option σ}
    (hfg : ∀ s a s', f s a = some s' → g s a = some s') {l : List α} {s s' : σ}
    (h : l.foldlM f s = some s') : l.foldlM g s = some s' := by
  induction l generalizing s with
  | nil => exact h
  | cons a l ih =>
    rw [foldlM_cons] at h ⊢
    obtain ⟨t, ht, h⟩ := bind_eq_some_iff.mp h
    exact bind_eq_some_iff.mpr ⟨t, hfg s a t ht, ih h⟩

theorem Merged.Extends.addWitness (h : M.Extends M') {inherited changed : Option InterfaceWitnesses}
    {k : BcConformance × ℕ} {r : Option InterfaceWitnesses}
    (hr : M.addWitness inherited changed k = some r) : M'.addWitness inherited changed k = some r := by
  obtain ⟨interface, hf, hr⟩ := bind_eq_some_iff.mp hr
  obtain ⟨new, hn⟩ := h.interfaces
  have hlt := lt_of_getElem? hf
  refine bind_eq_some_iff.mpr ⟨interface, ?_, hr⟩
  rw [← hn, getElem?_append_left hlt, hf]

theorem Merged.Extends.dispatchRow (h : M.Extends M') {D D' : List DispatchRow} {c : ℕ}
    {cls : BcClass} {row : DispatchRow} (hc : c < M.classes.length)
    (hD : ∀ p, cls.parent = some p → D'[p]? = D[p]?) (hr : M.dispatchRow D c cls = some row) :
    M'.dispatchRow D' c cls = some row := by
  obtain ⟨inherited, hi, hr⟩ := bind_eq_some_iff.mp hr
  obtain ⟨changed, hh, hr⟩ := bind_eq_some_iff.mp hr
  refine bind_eq_some_iff.mpr ⟨inherited, ?_, bind_eq_some_iff.mpr ⟨changed, ?_, hr⟩⟩
  · rw [← hi]
    unfold Merged.inheritedRow
    split
    · rfl
    · rename_i p hp
      rw [hD p hp]
  · rw [h.conformancesOf hc]
    exact foldlM_mono (fun _ _ _ => h.addWitness) hh

/-- By the classes that are left: each new row stands on rows that stay. -/
theorem rows_foldlM (hM : M.Formed) (n : ℕ) {k : ℕ} (hk : k + n = M.classes.length)
    {D D' : List DispatchRow} (he : D.length = k)
    (ho : ∀ (c : ℕ) cls, c < k → M.classes[c]? = some cls → M.dispatchRow D c cls = D[c]?)
    (h : ((M.classes.zipIdx).drop k).foldlM (fun dispatch cls => do
      let row ← M.dispatchRow dispatch cls.2 cls.1
      some (dispatch ++ [row])) D = some D') :
    D'.length = M.classes.length ∧ ∀ (c : ℕ) cls, M.classes[c]? = some cls → M.dispatchRow D' c cls = D'[c]? := by
  induction n generalizing k D with
  | zero =>
    have hd : (M.classes.zipIdx).drop k = [] := drop_eq_nil_of_le (by simp; omega)
    rw [hd] at h
    obtain rfl := some.inj h
    refine ⟨by omega, fun c cls hl => ho c cls ?_ hl⟩
    have := lt_of_getElem? hl
    omega
  | succ n ih =>
    have hlt : k < M.classes.length := by omega
    have hd : (M.classes.zipIdx).drop k = (M.classes[k], k) :: (M.classes.zipIdx).drop (k + 1) := by
      rw [drop_eq_getElem_cons (by simpa using hlt)]
      simp
    rw [hd, foldlM_cons] at h
    obtain ⟨D1, hD1, h⟩ := bind_eq_some_iff.mp h
    obtain ⟨row, hw, hD1⟩ := bind_eq_some_iff.mp hD1
    obtain rfl := some.inj hD1
    have stays : ∀ {c cls}, c ≤ k → M.classes[c]? = some cls →
        ∀ p, cls.parent = some p → (D ++ [row])[p]? = D[p]? := by
      intro c cls hc hl p hp
      have := hM.parents c cls p hl hp
      exact getElem?_append_left (by omega)
    apply ih (by omega) (by simp [he]) _ h
    intro c cls hc hl
    rcases Nat.lt_succ_iff_lt_or_eq.mp hc with hc | rfl
    · have hold := ho c cls hc hl
      rw [getElem?_append_left (by omega)]
      cases hr : D[c]? with
      | none =>
        have := List.getElem?_eq_none_iff.mp hr
        omega
      | some r =>
        exact (Merged.Extends.refl M).dispatchRow (by omega) (stays (by omega) hl) (hold.trans hr)
    · obtain rfl : M.classes[c] = cls := by
        rw [getElem?_eq_getElem hlt] at hl
        exact some.inj hl
      rw [(Merged.Extends.refl M).dispatchRow hlt (stays (Nat.le_refl _) hl) hw, ← he, getElem?_concat_length]

theorem Merged.Sealed.extendDispatch (hM : M.Sealed) (h : M.Extends M') (hM' : M'.Formed)
    {M'' : Merged} (hd : M'.extendDispatch = some M'') : M''.Sealed := by
  obtain ⟨D, hD, hd⟩ := bind_eq_some_iff.mp hd
  obtain rfl := some.inj hd
  rw [h.dispatch] at hD
  have hle := h.classes.length_le
  obtain ⟨he, hr⟩ := rows_foldlM hM' (M'.classes.length - M.classes.length)
    (k := M.dispatch.length) (by rw [hM.length]; omega) rfl (fun c cls hc hl => by
      have hlt : c < M.classes.length := hM.length ▸ hc
      obtain ⟨new, hn⟩ := h.classes
      rw [← hn, getElem?_append_left hlt] at hl
      have ho := hM.rows c cls hl
      rw [getElem?_eq_getElem hc] at ho ⊢
      exact h.dispatchRow hlt (fun _ _ => rfl) ho) hD
  exact { hM' with length := he, rows := hr }

end Seal

section Relocate

variable {M M' : Merged} {resolved : List (Option ℕ)}

theorem assign_of_some {n i t : ℕ} (h : resolved[i]? = some (some t)) : (assign n resolved)[i]? = some t := by
  induction resolved generalizing n i with
  | nil => cases h
  | cons r resolved ih =>
    cases i with
    | zero =>
      obtain rfl : r = some t := by simpa using h
      rfl
    | succ i => cases r <;> exact ih h

theorem assign_of_none {n i : ℕ} (h : resolved[i]? = some none) :
    (assign n resolved)[i]? = some (n + (resolved.take i).count none) := by
  induction resolved generalizing n i with
  | nil => cases h
  | cons r resolved ih =>
    cases i with
    | zero =>
      obtain rfl : r = none := by simpa using h
      simp [assign]
    | succ i =>
      have h : resolved[i]? = some none := h
      cases r with
      | none =>
        simp only [assign, getElem?_cons_succ, ih h, take_succ_cons, count_cons_self]
        congr 1
        omega
      | some t => simp [assign, ih h]

theorem created_zip_assign {α : Type} {xs : List α} {n : ℕ} (h : xs.length ≤ resolved.length) :
    created (xs.zip (assign n resolved)) resolved = (created xs resolved).zipIdx n := by
  induction xs generalizing resolved n with
  | nil => cases resolved <;> rfl
  | cons x xs ih =>
    match resolved with
    | [] => cases h
    | some t :: rest => exact ih (Nat.le_of_succ_le_succ h)
    | none :: rest => exact congrArg ((x, n) :: ·) (ih (Nat.le_of_succ_le_succ h))

theorem fillCreated_zipIdx {α β : Type} {fill : α → Option β} {xs : List α} {old holders table : List β}
    (hl : holders.length = xs.length) (h : fillCreated fill (old ++ holders) (xs.zipIdx old.length) = some table) :
    ∃ new, xs.mapM fill = some new ∧ table = old ++ new := by
  induction xs generalizing old holders with
  | nil =>
    obtain rfl := length_eq_zero_iff.mp hl
    exact ⟨[], rfl, (some.inj h).symm⟩
  | cons x xs ih =>
    obtain ⟨holder, holders, rfl⟩ := exists_cons_of_length_eq_add_one hl
    rw [fillCreated, zipIdx_cons, foldlM_cons] at h
    obtain ⟨next, hn, h⟩ := bind_eq_some_iff.mp h
    obtain ⟨y, hy, hn⟩ := bind_eq_some_iff.mp hn
    have hset : next = (old ++ [y]) ++ holders := by
      rw [replaceRecent, if_pos (by simp)] at hn
      simpa using (some.inj hn).symm
    subst hset
    have hidx : old.length + 1 = (old ++ [y]).length := by simp
    rw [hidx] at h
    obtain ⟨new, hnew, rfl⟩ := ih (Nat.succ.inj hl) h
    exact ⟨y :: new, by simp [hy, hnew], by simp⟩

/-- A created definition gets an index behind the table it is entered into, so filling it in changes nothing there. -/
theorem fillCreated_assign {α β : Type} {fill : α → Option β} {holder : α → β} {xs : List α} {old table : List β}
    (hl : xs.length ≤ resolved.length) (h : fillCreated fill (old ++ (created xs resolved).map holder)
      (created (xs.zip (assign old.length resolved)) resolved) = some table) :
    ∃ new, (created xs resolved).mapM fill = some new ∧ table = old ++ new := by
  rw [created_zip_assign hl] at h
  exact fillCreated_zipIdx (length_map _) h

theorem exists_of_created {α : Type} {xs : List α} {j : ℕ} {x : α} (h : (created xs resolved)[j]? = some x) :
    ∃ i, xs[i]? = some x ∧ resolved[i]? = some none ∧ (resolved.take i).count none = j := by
  induction xs generalizing resolved j with
  | nil => simp [created] at h
  | cons y xs ih =>
    match resolved with
    | [] => simp [created] at h
    | some t :: rest =>
      obtain ⟨i, hx, hr, hc⟩ := ih (h : (created xs rest)[j]? = some x)
      exact ⟨i + 1, hx, hr, by simpa using hc⟩
    | none :: rest =>
      cases j with
      | zero => exact ⟨0, by simpa [created] using h, rfl, rfl⟩
      | succ j =>
        obtain ⟨i, hx, hr, hc⟩ := ih (h : (created xs rest)[j]? = some x)
        exact ⟨i + 1, hx, hr, by simpa using hc⟩

theorem resolveImports_lt {wanted : Bytecode.ImportKind → Bool} {limit count : ℕ} {target : Bytecode.Import → Option ℕ}
    {imports : List Bytecode.Import} (h : resolveImports wanted limit target count imports = some resolved) :
    resolved.length = count ∧ ∀ (i : ℕ) t, resolved[i]? = some (some t) → t < limit := by
  refine foldlM_some (I := fun r => r.length = count ∧ ∀ (i : ℕ) t, r[i]? = some (some t) → t < limit)
    (P := fun _ _ => True) ?_ _ ⟨by simp, ?_⟩ (alongM_of_forall (fun _ _ => trivial) _ _) h
  · intro r item r' hr _ hr'
    obtain ⟨found, hf, hr'⟩ := bind_eq_some_iff.mp hr'
    split_ifs at hr' with hlt
    obtain rfl := some.inj hr'
    refine ⟨by simpa using hr.1, fun i t ht => ?_⟩
    rw [getElem?_set] at ht
    split_ifs at ht
    · obtain rfl : found = t := by simpa using ht
      exact hlt.1
    · exact hr.2 i t ht
  · intro i t ht
    simp [getElem?_replicate] at ht

theorem count_take_lt {p i : ℕ} (hpi : p < i) (h : resolved[p]? = some none) :
    (resolved.take p).count none < (resolved.take i).count none := by
  have hs : (resolved.take (p + 1)).count none ≤ (resolved.take i).count none :=
    (take_sublist_take_left (by omega)).count_le none
  have hp : (resolved.take (p + 1)).count none = (resolved.take p).count none + 1 := by
    rw [take_add_one, h]
    simp
  omega

theorem conformances_foldlM {reloc : Reloc} {N : ℕ} {sources old all : List BcConformance}
    (hl : ∀ (i c : ℕ), resolved[i]? = some none → reloc.classes[i]? = some c → N ≤ c)
    (h : sources.foldlM (Merged.mergeConformances resolved reloc) old = some all) :
    ∃ new, all = old ++ new ∧ ∀ k ∈ new, N ≤ k.class := by
  refine foldlM_some (I := fun all => ∃ new, all = old ++ new ∧ ∀ k ∈ new, N ≤ k.class)
    (P := fun _ _ => True) ?_ _ ⟨[], by simp, nofun⟩ (alongM_of_forall (fun _ _ => trivial) _ _) h
  rintro s source s' ⟨new, rfl, hn⟩ _ hs
  obtain ⟨target, ht, hs⟩ := bind_eq_some_iff.mp hs
  split_ifs at hs with ho
  · exact ⟨new, (some.inj hs).symm, hn⟩
  · obtain rfl : target = none := by simpa using ho
    obtain ⟨filled, hf, hs⟩ := bind_eq_some_iff.mp hs
    obtain ⟨c, hc, hf⟩ := bind_eq_some_iff.mp hf
    obtain ⟨interface, -, hf⟩ := bind_eq_some_iff.mp hf
    obtain rfl := some.inj hf
    obtain rfl := some.inj hs
    split_ifs
    · exact ⟨new, rfl, hn⟩
    · refine ⟨new ++ [⟨c, interface, source.methodOverrides⟩], by simp, ?_⟩
      intro k hk
      rcases mem_append.mp hk with hk | hk
      · exact hn k hk
      · obtain rfl := mem_singleton.mp hk
        exact hl source.class c ht hc

theorem relocParent_eq {reloc : Reloc} {source : BcClass} {p : ℕ} (h : reloc.relocParent source = some (some p)) :
    ∃ q, source.parent = some q ∧ reloc.classes[q]? = some p := by
  unfold Reloc.relocParent at h
  split at h
  · cases h
  · rename_i q hq
    obtain ⟨t, ht, h⟩ := map_eq_some_iff.mp h
    obtain rfl := some.inj h
    exact ⟨q, hq, ht⟩

theorem Merged.Formed.relocate (hM : M.Formed) {view : View} {source : Module}
    (h : M.relocate view source = some M') : M'.Formed ∧ M.Extends M' := by
  obtain ⟨classes, ha, h⟩ := bind_eq_some_iff.mp h
  obtain ⟨funcs, hu, h⟩ := bind_eq_some_iff.mp h
  obtain ⟨mergedClasses, hn, h⟩ := bind_eq_some_iff.mp h
  obtain ⟨filled, hf, h⟩ := bind_eq_some_iff.mp h
  obtain ⟨mergedInterfaces, hi, h⟩ := bind_eq_some_iff.mp h
  split_ifs at h
  obtain ⟨conformances, ho, h⟩ := bind_eq_some_iff.mp h
  obtain rfl := some.inj h
  obtain ⟨hle, hlt⟩ := resolveImports_lt ha
  obtain ⟨new, hnew, rfl⟩ := fillCreated_assign hle.ge hn
  obtain ⟨newInterfaces, -, rfl⟩ := fillCreated_assign (by rw [length_map, mapM_length hf]) hi
  refine ⟨⟨?_, ?_⟩, prefix_append _ _, prefix_append _ _, ?_, rfl⟩
  · intro c cls p hl hp
    rcases Nat.lt_or_ge c M.classes.length with hc | hc
    · rw [getElem?_append_left hc] at hl
      exact hM.parents c cls p hl hp
    · rw [getElem?_append_right hc, mapM_getElem? hnew, bind_eq_some_iff] at hl
      obtain ⟨src, hs, hl⟩ := hl
      obtain ⟨i, hi, hno, hco⟩ := exists_of_created hs
      obtain ⟨parent, he, hl⟩ := bind_eq_some_iff.mp hl
      obtain ⟨methods, -, hl⟩ := bind_eq_some_iff.mp hl
      obtain rfl := some.inj hl
      obtain rfl : parent = some p := hp
      obtain ⟨q, hq, ht⟩ := relocParent_eq he
      have hqi := source.earlier i src q hi hq
      have hin : q < classes.length := by
        have := lt_of_getElem? hno
        omega
      cases hr : classes[q] with
      | some t =>
        have hr : classes[q]? = some (some t) := by rw [getElem?_eq_getElem hin, hr]
        have := hlt q t hr
        rw [assign_of_some hr] at ht
        obtain rfl := some.inj ht
        omega
      | none =>
        have hr : classes[q]? = some none := by rw [getElem?_eq_getElem hin, hr]
        have := count_take_lt hqi hr
        rw [assign_of_none hr] at ht
        have := some.inj ht
        omega
  · intro cls hl m hm
    rcases mem_append.mp hl with hl | hl
    · exact hM.methods cls hl m hm
    · obtain ⟨src, -, hs⟩ := exists_of_mem_mapM hnew hl
      obtain ⟨parent, -, hs⟩ := bind_eq_some_iff.mp hs
      obtain ⟨methods, -, hs⟩ := bind_eq_some_iff.mp hs
      obtain rfl := some.inj hs
      have := (mem_filter.mp hm).2
      simp only [Bool.and_eq_true, decide_eq_true_eq] at this
      exact this.2
  · apply conformances_foldlM _ ho
    intro i c hi hc
    rw [assign_of_none hi] at hc
    have := some.inj hc
    omega

theorem Merged.Sealed.publish (hM : M.Sealed) {units : List (View × Module)}
    (h : M.publish units = some M') : M'.Sealed := by
  obtain ⟨N, hN, h⟩ := bind_eq_some_iff.mp h
  obtain ⟨ho, hx⟩ := foldlM_some (I := fun N => Merged.Formed N ∧ M.Extends N)
    (P := fun _ _ => True) (fun N unit N' hI _ hN' => by
      obtain ⟨hf, he⟩ := hI.1.relocate hN'
      exact ⟨hf, hI.2.trans he⟩) units ⟨hM.toFormed, .refl M⟩
    (alongM_of_forall (fun _ _ => trivial) _ _) hN
  exact hM.extendDispatch hx ho h

theorem sealed_arena {publications : List (List (View × Module))} (h : arena publications = some M) : M.Sealed := by
  refine foldlM_some (I := Merged.Sealed) (P := fun _ _ => True)
    (fun N units N' hN _ => hN.publish) publications ?_
    (alongM_of_forall (fun _ _ => trivial) _ _) h
  exact ⟨⟨nofun, nofun⟩, rfl, nofun⟩

end Relocate

section Law

variable {M : Merged}

theorem Merged.Sealed.parent_lt (hM : M.Sealed) (c p : ℕ) (h : M.parent c = some p) : p < c := by
  obtain ⟨cls, hc, hp⟩ := bind_eq_some_iff.mp h
  exact hM.parents c cls p hc hp

theorem Merged.Sealed.above_lt (hM : M.Sealed) {c d : ℕ} (h : Above M.parent c d)
    (hc : c < M.classes.length) : d < M.classes.length := by
  induction h with
  | refl c => exact hc
  | step hp _ ih =>
    have := hM.parent_lt _ _ hp
    exact ih (by omega)

theorem Merged.Sealed.exists_row (hM : M.Sealed) {c : ℕ} (hc : c < M.classes.length) :
    ∃ cls row, M.classes[c]? = some cls ∧ M.dispatch[c]? = some row ∧ M.dispatchRow M.dispatch c cls = some row := by
  have hd : c < M.dispatch.length := hM.length ▸ hc
  refine ⟨M.classes[c], M.dispatch[c], getElem?_eq_getElem hc, getElem?_eq_getElem hd, ?_⟩
  rw [hM.rows c _ (getElem?_eq_getElem hc), getElem?_eq_getElem hd]

theorem Merged.Sealed.method_iff (hM : M.Sealed) {c : ℕ} (hc : c < M.classes.length) (s f : ℕ) :
    (M.dispatch[c]?.bind fun row => row.method s) = some f ↔ Nearest M.parent (M.ownMethod s) c f := by
  apply eq_some_iff_nearest id (f := fun c => M.dispatch[c]?.bind fun row => row.method s)
    hM.parent_lt
  intro d hd
  obtain ⟨cls, row, hl, hr, h⟩ := hM.exists_row (hM.above_lt hd hc)
  have hm := method_dispatchRow (hM.methods cls (mem_of_getElem? hl)) h s
  simpa [hr, Merged.ownMethod, Merged.parent, hl] using hm

theorem Merged.Sealed.witness_iff (hM : M.Sealed) {c : ℕ} (hc : c < M.classes.length) {i : ℕ}
    (hi : M.hasDefault i) (w : List Bool × ℕ) :
    (M.dispatch[c]?.bind fun row => DispatchRow.witness row.interfaceWitnesses i) = some w ↔
      Nearest M.parent (M.ownConformance i) c w := by
  apply eq_some_iff_nearest id
    (f := fun c => M.dispatch[c]?.bind fun row => DispatchRow.witness row.interfaceWitnesses i)
    hM.parent_lt
  intro d hd
  obtain ⟨cls, row, hl, hr, h⟩ := hM.exists_row (hM.above_lt hd hc)
  have hw := witness_dispatchRow hi h
  simpa [hr, Merged.parent, hl] using hw

theorem interfaceWitness_eq (row : DispatchRow) (i m : ℕ) : row.interfaceWitness i m =
    (DispatchRow.witness row.interfaceWitnesses i).bind fun w => w.1[m]?.map fun bit => (bit, w.2) := by
  unfold interfaceWitness DispatchRow.witness
  cases row.interfaceWitnesses with
  | none => rfl
  | some ws =>
    cases h : findWitness ws i with
    | none => simp [h]
    | some w => cases hm : w.methodOverrides[m]? <;> simp [h, hm]

/-- Every class of an arena has a row, which answers for a selector with the function of the
nearest class that lists it, and for an interface with a default with the bits of the nearest
conformance. -/
theorem dispatch_nearest {publications : List (List (View × Module))}
    (h : arena publications = some M) {c : ℕ} (hc : c < M.classes.length) : ∃ row, M.dispatch[c]? = some row ∧
      (∀ s f, row.method s = some f ↔ Nearest M.parent (M.ownMethod s) c f) ∧
      (∀ s, row.method s = none ↔ ∀ d, Above M.parent c d → M.ownMethod s d = none) ∧
      ∀ i, M.hasDefault i → ∀ m bit k, row.interfaceWitness i m = some (bit, k) ↔
        ∃ bits, Nearest M.parent (M.ownConformance i) c (bits, k) ∧ bits[m]? = some bit := by
  have hM := sealed_arena h
  obtain ⟨cls, row, -, hrow, -⟩ := hM.exists_row hc
  have hmethod : ∀ s f, row.method s = some f ↔ Nearest M.parent (M.ownMethod s) c f := by
    intro s f
    simpa [hrow] using hM.method_iff hc s f
  refine ⟨row, hrow, hmethod, fun s => ?_, fun i hi m bit k => ?_⟩
  · exact eq_none_iff_above (f := fun _ => row.method s) (hmethod s)
  · have hwitness : ∀ w, DispatchRow.witness row.interfaceWitnesses i = some w ↔
        Nearest M.parent (M.ownConformance i) c w := by
      intro w
      simpa [hrow] using hM.witness_iff hc hi w
    rw [interfaceWitness_eq, bind_eq_some_iff]
    constructor
    · rintro ⟨⟨bits, k'⟩, hw, hbit⟩
      obtain ⟨bit', hbit', heq⟩ := map_eq_some_iff.mp hbit
      cases heq
      exact ⟨bits, (hwitness _).mp hw, hbit'⟩
    · rintro ⟨bits, hw, hbit⟩
      exact ⟨(bits, k), (hwitness _).mpr hw, by simp [hbit]⟩

section Shapes

open Bytecode

def shapeClass (parent : Index) (methods : List (Index × Index)) : Bytecode.BcClass :=
  ⟨.empty, .empty, false, false, parent, [], 0, .normal, [], methods, [], 0, false⟩

/-- A class with the methods `a` and `n`, and an interface whose method has a default. -/
def shapeModule : Bytecode.Module :=
  { boolModule with
    selectors := [⟨[97], rfl⟩, ⟨[110], rfl⟩]
    classes := [shapeClass noIndex [(0, 0), (1, 1)]]
    interfaces := [⟨.empty, .empty, 0, 0, [], [], [], [], [⟨0, false, 0, [], 0, [], [], [], [], 0, [], 2⟩]⟩]
    conformances := [⟨0, ⟨0, [], []⟩, [], [], [false]⟩]
    funcs := boolModule.funcs ++ boolModule.funcs ++ boolModule.funcs }

/-- A class under the imported one, with a method `n` of its own. -/
def squareModule : Bytecode.Module :=
  { boolModule with
    imports := [⟨.empty, .empty, .class, 0, .replicate 32 0⟩]
    selectors := [⟨[110], rfl⟩]
    classes := [shapeClass noIndex [], shapeClass 0 [(0, 0)]] }

end Shapes

def shapes : List (List (View × Module)) :=
  [[(⟨fun _ => none, fun _ => none, fun _ => none⟩, .of shapeModule (by decide))],
    [(⟨fun _ => some 0, fun _ => none, fun _ => none⟩, .of squareModule (by decide))]]

theorem dispatch_nearest_shapes :
    ∃ M row, arena shapes = some M ∧ M.dispatch[1]? = some row ∧ row.method 0 = some 0 ∧
      row.method 1 = some 3 ∧ row.interfaceWitness 0 0 = some (false, 0) ∧ Nearest M.parent (M.ownMethod 1) 1 3 := by
  have h : arena shapes = some _ := rfl
  obtain ⟨row, hrow, hmethod, -, -⟩ := dispatch_nearest h (c := 1) (by decide)
  have heq : row = ⟨0, [0, 3], some ⟨[⟨0, 0, [false]⟩], .cons (by simp) .nil⟩⟩ := mem_unique hrow rfl
  subst heq
  exact ⟨_, _, h, hrow, by decide, by decide, by decide, (hmethod 1 3).mp (by decide)⟩

end Law

section Append

/-- Nothing that was entered is moved or changed, and no selector is entered twice. -/
structure Merged.Keeps (M M' : Merged) : Prop where
  selectors : M.selectors <+: M'.selectors
  classes : M.classes <+: M'.classes
  interfaces : M.interfaces <+: M'.interfaces
  conformances : M.conformances <+: M'.conformances
  dispatch : M.dispatch <+: M'.dispatch
  nodup : M.selectors.Nodup → M'.selectors.Nodup

variable {M M' : Merged}

theorem Merged.Keeps.trans {M'' : Merged} (h : M.Keeps M') (h' : M'.Keeps M'') : M.Keeps M'' :=
  ⟨h.1.trans h'.1, h.2.trans h'.2, h.3.trans h'.3, h.4.trans h'.4, h.5.trans h'.5, h'.6 ∘ h.6⟩

theorem Merged.Keeps.foldlM {α : Type} {f : Merged → α → Option Merged} {l : List α}
    (hf : ∀ N a N', f N a = some N' → N.Keeps N') (h : l.foldlM f M = some M') : M.Keeps M' := by
  refine foldlM_some (I := M.Keeps) (P := fun _ _ => True) ?_ l
    ⟨prefix_rfl, prefix_rfl, prefix_rfl, prefix_rfl, prefix_rfl, id⟩ (alongM_of_forall (fun _ _ => trivial) _ _) h
  exact fun N a N' hN _ ha => hN.trans (hf N a N' ha)

theorem internSelectors_keeps (names selectors : List Bytecode.Text) :
    selectors <+: (Merged.internSelectors selectors names).2 ∧
      (selectors.Nodup → (Merged.internSelectors selectors names).2.Nodup) := by
  induction names generalizing selectors with
  | nil => exact ⟨prefix_rfl, id⟩
  | cons name names ih =>
    unfold Merged.internSelectors Merged.selector
    split
    · exact ih selectors
    · next hn =>
      obtain ⟨hp, hd⟩ := ih (selectors ++ [name])
      refine ⟨(prefix_append _ _).trans hp, fun h => hd ?_⟩
      rw [← concat_eq_append]
      exact h.concat (idxOf?_eq_none_iff.mp hn)

theorem relocate_keeps {view : View} {source : Module} (h : M.relocate view source = some M') : M.Keeps M' := by
  obtain ⟨classes, ha, h⟩ := bind_eq_some_iff.mp h
  obtain ⟨funcs, -, h⟩ := bind_eq_some_iff.mp h
  obtain ⟨mergedClasses, hn, h⟩ := bind_eq_some_iff.mp h
  obtain ⟨filled, hf, h⟩ := bind_eq_some_iff.mp h
  obtain ⟨mergedInterfaces, hi, h⟩ := bind_eq_some_iff.mp h
  split_ifs at h
  obtain ⟨conformances, hc, h⟩ := bind_eq_some_iff.mp h
  obtain rfl := some.inj h
  obtain ⟨new, -, rfl⟩ := fillCreated_assign (resolveImports_lt ha).1.ge hn
  obtain ⟨newInterfaces, -, rfl⟩ := fillCreated_assign (by rw [length_map, mapM_length hf]) hi
  obtain ⟨added, rfl, -⟩ := conformances_foldlM (N := 0) (fun _ _ _ _ => Nat.zero_le _) hc
  obtain ⟨hs, hd⟩ := internSelectors_keeps source.selectors M.selectors
  exact ⟨hs, prefix_append _ _, prefix_append _ _, prefix_append _ _, prefix_rfl, hd⟩

theorem extendDispatch_keeps (h : M.extendDispatch = some M') : M.Keeps M' := by
  obtain ⟨D, hD, h⟩ := bind_eq_some_iff.mp h
  obtain rfl := some.inj h
  refine ⟨prefix_rfl, prefix_rfl, prefix_rfl, prefix_rfl, ?_, id⟩
  refine foldlM_some (I := (M.dispatch <+: ·)) (P := fun _ _ => True) ?_ _ prefix_rfl
    (alongM_of_forall (fun _ _ => trivial) _ _) hD
  intro rows cls rows' hr _ he
  obtain ⟨row, -, he⟩ := bind_eq_some_iff.mp he
  exact hr.trans (some.inj he ▸ prefix_append _ _)

theorem publish_keeps {units : List (View × Module)} (h : M.publish units = some M') : M.Keeps M' := by
  obtain ⟨N, hN, h⟩ := bind_eq_some_iff.mp h
  exact (Merged.Keeps.foldlM (fun _ _ _ => relocate_keeps) hN).trans (extendDispatch_keeps h)

/-- Later publications only append: what an earlier one entered keeps its index and its row, and no selector is entered
twice. -/
theorem publication_append_only {before after : List (List (View × Module))} (hbefore : arena before = some M)
    (hafter : arena (before ++ after) = some M') : M.Keeps M' ∧ M'.selectors.Nodup := by
  have hn := (Merged.Keeps.foldlM (fun _ _ _ => publish_keeps) hafter).nodup nodup_nil
  rw [arena, foldlM_append, ← arena, hbefore] at hafter
  exact ⟨.foldlM (fun _ _ _ => publish_keeps) hafter, hn⟩

theorem publication_append_only_shapes : ∃ M M', arena (shapes.take 1) = some M ∧ arena shapes = some M' ∧
    M.classes.length = 1 ∧ M'.classes.length = 2 ∧ M.dispatch <+: M'.dispatch ∧ M'.selectors.Nodup := by
  have h : arena (shapes.take 1) = some _ := rfl
  obtain ⟨hk, hn⟩ := publication_append_only h (rfl : arena (shapes.take 1 ++ shapes.drop 1) = some _)
  exact ⟨_, _, h, rfl, rfl, rfl, hk.dispatch, hn⟩

end Append

end LoomV4.Link
