import LoomV4.Identity.Answers
import Mathlib.Algebra.BigOperators.Intervals

/-!
How many bytes one interface costs against the size of its module: linearly many while the inheritance of the interface has
a bounded number of paths to each ancestor, and no linear number in general.
-/

namespace LoomV4.Identity

open Lib Lib.Reader Bytecode List Option Nat Resolver

variable {bundle : AbiBundle} {m : Module} {R : Resolver} {hash256 : Bytes → Hash}

/-- The buffer that `interface_digest` hashes for interface `i`. -/
def interfaceSerial (hash256 : Bytes → Hash) (bundle : AbiBundle) (m : Module) (i : ℕ) : Option Bytes :=
  (tabled hash256 bundle m).bind fun x => (x.1.finalView x.2.2).interfaceBytes hash256 i

theorem exists_interfaceSerial (hash256 : Bytes → Hash) (hm : Sound bundle m) {i : ℕ} (hi : i < m.interfaces.length) :
    ∃ out, interfaceSerial hash256 bundle m i = some out ∧ out.length = interfaceSize bundle m i := by
  obtain ⟨E, comps, state, ht⟩ := @exists_tabled bundle m hash256 hm
  obtain ⟨out, hout, hlen⟩ := ht.ready.interfaceBytes hash256 hm rfl hi
  exact ⟨out, by rw [interfaceSerial, ht.tabled, bind_some, hout], hlen⟩

section

variable (m)

/-- The paths of at most `depth` interfaces that lead from `i` through its parents to `j`, repeated parents apart. -/
def paths : ℕ → ℕ → ℕ → ℕ
  | 0, _, _ => 0
  | depth + 1, i, j => (if i = j then 1 else 0) + ((parentsOf m i).map fun u => paths depth u.interface.toNat j).sum

variable (bundle)

/-- The bytes of an interface on each path to it. -/
def nodeSize (i : ℕ) : ℕ := keySize m i + ((parentsOf m i).map (useSize bundle)).sum

end

theorem sum_sum_mul {α : Type} (l : List α) (p : α → ℕ → ℕ) (w : ℕ → ℕ) (n : ℕ) :
    (l.map fun a => ∑ j ∈ Finset.range n, p a j * w j).sum = ∑ j ∈ Finset.range n, (l.map fun a => p a j).sum * w j := by
  induction l with
  | nil => simp
  | cons a l ih => simp only [map_cons, sum_cons, ih, add_mul, Finset.sum_add_distrib]

theorem inheritedSize_eq (depth i : ℕ) : inheritedSize bundle m depth i =
    ∑ j ∈ Finset.range m.interfaces.length, paths m depth i j * nodeSize bundle m j := by
  induction depth generalizing i with
  | zero => simp [inheritedSize, paths]
  | succ depth ih =>
    have hself : ∑ j ∈ Finset.range m.interfaces.length, (if i = j then 1 else 0) * nodeSize bundle m j =
        nodeSize bundle m i := by
      simp only [ite_mul, one_mul, zero_mul, Finset.sum_ite_eq, Finset.mem_range]
      split
      · rfl
      · next h =>
        have hnone := getElem?_eq_none (not_lt.mp h)
        simp [nodeSize, keySize, parentsOf, hnone]
    have hsplit : ((parentsOf m i).map fun u => useSize bundle u + inheritedSize bundle m depth u.interface.toNat).sum =
        ((parentsOf m i).map (useSize bundle)).sum +
          ((parentsOf m i).map fun u => inheritedSize bundle m depth u.interface.toNat).sum := List.sum_map_add
    simp only [inheritedSize, paths, add_mul, Finset.sum_add_distrib, hself, hsplit]
    simp only [ih, sum_sum_mul, nodeSize, add_assoc]

section

variable (bundle)

def rowLimit : ℕ := 4 + bundle.operations.length * (5 + (bundle.operations.map fun n => n.toUTF8.data.toList.length).sum)

end

theorem length_flatMap_le {α β : Type} {l : List α} {f : α → List β} {b : ℕ} (h : ∀ a ∈ l, (f a).length ≤ b) :
    (l.flatMap f).length ≤ l.length * b := by
  induction l with
  | nil => simp
  | cons a l ih =>
    have ha := h a (by simp)
    have hl := ih fun x hx => h x (by simp [hx])
    simp only [flatMap_cons, length_append, length_cons, add_mul, one_mul]
    omega

theorem le_sum_of_mem {α : Type} {l : List α} {f : α → ℕ} {a : α} (h : a ∈ l) : f a ≤ (l.map f).sum :=
  single_le_sum (by simp) _ (List.mem_map_of_mem h)

variable {bs : Bytes}

theorem rowBytes_length {row : List BcRow} (h : rowBytes bundle row = some bs) :
    bs.length ≤ rowLimit bundle + row.length * 5 := by
  simp only [rowBytes, bind_eq_bind, bind_eq_some_iff] at h
  obtain ⟨ops, -, names, ha, h⟩ := h
  obtain rfl := some.inj h
  have hc : names.length ≤ bundle.operations.length := by
    rw [mapM_length ha]
    have hnd : (sortNat ops.flatten.dedup).Nodup :=
      (mergeSort_perm _ _).nodup_iff.mpr (nodup_dedup _)
    have hs : sortNat ops.flatten.dedup ⊆ List.range bundle.operations.length := by
      intro i hi
      obtain ⟨n, -, hn⟩ := mem_mapM ha hi
      exact mem_range.mpr (lt_of_getElem? hn)
    simpa using (hnd.subperm hs).length_le
  have hnameLen : (names.flatMap fun n => (0 : UInt8) :: writeBytes n.toUTF8.data.toList).length ≤
      names.length * (5 + (bundle.operations.map fun n => n.toUTF8.data.toList.length).sum) := by
    apply length_flatMap_le
    intro n hn
    obtain ⟨i, -, hi⟩ := exists_of_mem_mapM ha hn
    have := @le_sum_of_mem _ _ (fun n : String => n.toUTF8.data.toList.length) _ (mem_of_getElem? hi)
    simp only [writeBytes, length_cons, length_append, length_leBytes]
    omega
  have hv : (sortNat (row.flatMap rowVariables).dedup).length ≤ row.length := by
    have h1 : (sortNat (row.flatMap rowVariables).dedup).length = (row.flatMap rowVariables).dedup.length :=
      (mergeSort_perm _ _).length_eq
    have h2 := (dedup_sublist (row.flatMap rowVariables)).length_le
    have h3 : (row.flatMap rowVariables).length ≤ row.length * 1 :=
      length_flatMap_le fun r _ => by cases r <;> simp [rowVariables]
    omega
  have hvarLen : ((sortNat (row.flatMap rowVariables).dedup).flatMap fun v => (1 : UInt8) :: leBytes 4 v).length ≤
      (sortNat (row.flatMap rowVariables).dedup).length * 5 := length_flatMap_le fun v _ => by simp
  have hm := Nat.mul_le_mul_right (5 + (bundle.operations.map fun n => n.toUTF8.data.toList.length).sum) hc
  simp only [length_append, length_leBytes, rowLimit]
  omega

section

variable (bundle m)

def encodedSize : ℕ := (encode bundle.digest m).length

end

theorem sections_le : (encodeSemantic m).length + (encodeExports m).length ≤ encodedSize bundle m := by
  simp only [encodedSize, encode, encodeContainer, length_append]
  omega

theorem encodeRow_length (row : List BcRow) : 4 + row.length ≤ (encodeRow row).length := by
  rw [encodeRow, writeTable, length_append, length_leBytes, length_flatMap]
  have helem : ∀ r, 1 ≤ (encodeRowElem r).length := fun r => by cases r <;> simp [encodeRowElem, pushTag]
  have := length_le_sum_of_one_le (row.map fun r => (encodeRowElem r).length) (by simpa using fun r _ => helem r)
  rw [length_map] at this
  omega

/-- Every byte of a use is paid for by a byte of its encoding. -/
theorem useSize_le (u : BcInterfaceUse) : useSize bundle u ≤ (rowLimit bundle + 8) * (encodeInterfaceUse u).length := by
  have hrows : (u.rows.map fun row => ((rowBytes bundle row).map List.length).getD 0).sum ≤
      (rowLimit bundle + 8) * (u.rows.map fun row => (encodeRow row).length).sum := by
    rw [← List.sum_map_mul_left]
    refine List.sum_le_sum fun row _ => ?_
    have hrow := encodeRow_length row
    cases h : rowBytes bundle row with
    | none => simp
    | some bs =>
      have hlen := rowBytes_length h
      calc ((some bs).map List.length).getD 0 ≤ rowLimit bundle * 1 + 8 * row.length := by simp; omega
        _ ≤ rowLimit bundle * (encodeRow row).length + 8 * (encodeRow row).length :=
          Nat.add_le_add (Nat.mul_le_mul_left _ (by omega)) (by omega)
        _ = (rowLimit bundle + 8) * (encodeRow row).length := (add_mul _ _ _).symm
  have htypes : (u.types.map fun t => (writeU32 t).length).sum = 4 * u.types.length := by
    simp [writeU32, mul_comm]
  simp only [useSize, encodeInterfaceUse, writeIndices, writeTable, writeU32, length_append, length_leBytes, length_flatMap]
  simp only [writeU32, length_leBytes] at htypes
  rw [htypes, mul_add, mul_add, mul_add, mul_add]
  have : rowLimit bundle + 8 ≥ 8 := by omega
  nlinarith

theorem sum_range_getElem? {α : Type} (l : List α) (f : α → ℕ) :
    ∑ j ∈ Finset.range l.length, ((l[j]?).map f).getD 0 = (l.map f).sum := by
  induction l with
  | nil => rfl
  | cons a l ih =>
    rw [length_cons, Finset.sum_range_succ', map_cons, sum_cons, ← ih, add_comm]
    rfl

theorem nodeSize_sum_le : ∑ j ∈ Finset.range m.interfaces.length, nodeSize bundle m j ≤
    (rowLimit bundle + 8) * encodedSize bundle m := by
  let own (c : BcInterface) := c.key.bytes.length + (c.parents.map (useSize bundle)).sum
  have hnode : ∀ j, nodeSize bundle m j = ((m.interfaces[j]?).map own).getD 0 := by
    intro j
    cases h : m.interfaces[j]? <;> simp [nodeSize, keySize, parentsOf, h, own]
  have huses : ∀ c : BcInterface, (c.parents.map (useSize bundle)).sum ≤
      (rowLimit bundle + 8) * (encodeInterface c).length := by
    intro c
    calc (c.parents.map (useSize bundle)).sum
        ≤ (c.parents.map fun u => (rowLimit bundle + 8) * (encodeInterfaceUse u).length).sum :=
          List.sum_le_sum fun u _ => useSize_le u
      _ = (rowLimit bundle + 8) * (c.parents.map fun u => (encodeInterfaceUse u).length).sum := List.sum_map_mul_left ..
      _ ≤ (rowLimit bundle + 8) * (encodeInterface c).length := by
        apply Nat.mul_le_mul_left
        simp only [encodeInterface, encodeBounds, writeTable, length_append, length_flatMap]
        omega
  have hown : ∀ c : BcInterface, own c ≤
      (rowLimit bundle + 8) * ((encodeInterface c).length + (encodeInterfaceNames c).length) := by
    intro c
    have hkey : c.key.bytes.length ≤ (encodeInterfaceNames c).length := by
      simp only [encodeInterfaceNames, writeText, writeBytes, length_append]
      omega
    have hone : (encodeInterfaceNames c).length ≤ (rowLimit bundle + 8) * (encodeInterfaceNames c).length :=
      Nat.le_mul_of_pos_left _ (by omega)
    have := huses c
    simp only [own, mul_add]
    omega
  calc ∑ j ∈ Finset.range m.interfaces.length, nodeSize bundle m j
      = (m.interfaces.map own).sum := by simp only [hnode, sum_range_getElem?]
    _ ≤ (m.interfaces.map fun c =>
        (rowLimit bundle + 8) * ((encodeInterface c).length + (encodeInterfaceNames c).length)).sum :=
      List.sum_le_sum fun c _ => hown c
    _ = (rowLimit bundle + 8) *
        (m.interfaces.map fun c => (encodeInterface c).length + (encodeInterfaceNames c).length).sum :=
      List.sum_map_mul_left ..
    _ ≤ (rowLimit bundle + 8) * encodedSize bundle m := by
      apply Nat.mul_le_mul_left
      refine le_trans ?_ sections_le
      rw [List.sum_map_add]
      simp only [encodeSemantic, encodeExports, writeTable, length_append, length_flatMap]
      omega

/-- Three interfaces; the second names the first `k` times as its parent, and the third names the second `k` times. -/
def towerModule (k : ℕ) : Module :=
  { boolModule with
    interfaces := [bareInterface [], bareInterface (List.replicate k (bareUse 0)),
      bareInterface (List.replicate k (bareUse 1))] }

theorem towerModule_preflight (k : ℕ) : preflight emptyBundle (towerModule k) = some (.ok ()) := by
  have hu : ∀ i : Index, i.toNat < 3 → ∀ idx, checkInterface emptyBundle (towerModule k) idx
      (bareInterface (List.replicate k (bareUse i))) = .ok () := by
    intro i hi idx
    simp only [checkInterface, bareInterface, seq_ok, each_ok, checkBounds, not_mem_nil, false_implies, implies_true,
      and_true, mem_replicate]
    rintro u ⟨-, rfl⟩
    simpa [checkUse, bareUse, towerModule] using hi
  have ht : preflightTypes emptyBundle (towerModule k) = .ok () := by
    simp only [preflightTypes, seq_ok, eachIdx_ok]
    refine ⟨fun i ty hty => ?_, fun i a ha => ?_, fun i c hc => ?_⟩
    · obtain ⟨hi, rfl⟩ : i < 1 ∧ ty = .bool := by
        cases i with
        | zero => exact ⟨one_pos, (some.inj hty).symm⟩
        | succ i => cases hty
      rfl
    · cases ha
    · rcases i with - | - | - | i
      · obtain rfl := some.inj hc
        rfl
      · obtain rfl := some.inj hc
        exact hu 0 (by decide) 1
      · obtain rfl := some.inj hc
        exact hu 1 (by decide) 2
      · cases hc
  have hl : Kahn.check 128 (interfaceParents (towerModule k)) = some (.ok ()) := by
    apply @Kahn.check_of_levels _ _ id
    intro c hc
    have hp : interfaceParents (towerModule k) = [[], List.replicate k 0, List.replicate k 1] := by
      simp [interfaceParents, towerModule, bareInterface, bareUse]
    rw [hp] at hc ⊢
    rcases c with - | - | - | c
    · simp
    · simp
    · simp
    · simp only [length_cons, length_nil] at hc
      omega
  rw [preflight, ht]
  simp only [checkInheritance, hl, map_some]
  rfl

theorem encodeBounds_replicate (k : ℕ) (i : Index) : (encodeBounds (List.replicate k (bareUse i))).length = 4 + 12 * k := by
  simp [encodeBounds, writeTable, length_flatMap, encodeInterfaceUse, bareUse, writeU32, writeIndices]
  omega

theorem towerModule_size (k : ℕ) :
    encodedSize emptyBundle (towerModule k) = encodedSize emptyBundle boolModule + 108 + 24 * k := by
  have hi : ∀ us, (encodeInterface (bareInterface us)).length = 24 + (encodeBounds us).length := by
    intro us
    simp [encodeInterface, bareInterface, writeU32, writeMarkers, encodeTypeBounds, writeTable]
    omega
  have hs : (encodeSemantic (towerModule k)).length = (encodeSemantic boolModule).length + 84 + 24 * k := by
    have ht : (writeTable encodeInterface (towerModule k).interfaces).length =
        (writeTable encodeInterface boolModule.interfaces).length + 84 + 24 * k := by
      simp [writeTable, towerModule, boolModule, hi, encodeBounds_replicate]
      simp [encodeBounds, writeTable]
      omega
    simp only [encodeSemantic, length_append, ht]
    simp only [towerModule]
    omega
  have he : (encodeExports (towerModule k)).length = (encodeExports boolModule).length + 24 := by
    simp only [encodeExports, length_append]
    have ht : (writeTable encodeInterfaceNames (towerModule k).interfaces).length =
        (writeTable encodeInterfaceNames boolModule.interfaces).length + 24 := by
      simp [writeTable, towerModule, boolModule, encodeInterfaceNames, bareInterface, writeText, writeBytes, Text.empty]
    rw [ht]
    simp only [towerModule]
    omega
  simp only [encodedSize, encode, encodeContainer, encodeHeader, sectionEntry, length_append, length_leBytes, hs, he]
  simp only [towerModule]
  omega

theorem towerModule_interfaceSize (k : ℕ) : k * k ≤ interfaceSize emptyBundle (towerModule k) 2 := by
  have h1 : parentsOf (towerModule k) 1 = List.replicate k (bareUse 0) := rfl
  have h2 : parentsOf (towerModule k) 2 = List.replicate k (bareUse 1) := rfl
  have hlow : k ≤ inheritedSize emptyBundle (towerModule k) 3 1 := by
    rw [inheritedSize, h1, map_replicate, sum_replicate, smul_eq_mul]
    have : 1 ≤ useSize emptyBundle (bareUse 0) := by simp only [useSize]; omega
    exact le_trans (Nat.le_mul_of_pos_right k (by omega)) (Nat.le_add_left ..)
  rw [interfaceSize, h2, map_replicate, sum_replicate, smul_eq_mul]
  exact le_trans (Nat.mul_le_mul_left k (le_trans hlow (Nat.le_add_left ..))) (Nat.le_add_left ..)

theorem towerModule_exceeds (a b : ℕ) : ∃ m i out, preflight emptyBundle m = some (.ok ()) ∧ i < m.interfaces.length ∧
    interfaceSerial (fun _ => zeroHash) emptyBundle m i = some out ∧ a * encodedSize emptyBundle m + b < out.length := by
  let size := encodedSize emptyBundle boolModule + 108
  let k := a * size + a * 24 + b + 1
  have hp := towerModule_preflight k
  have hi : 2 < (towerModule k).interfaces.length := by
    change 2 < 3
    decide
  obtain ⟨out, ho, hlen⟩ := exists_interfaceSerial (fun _ => zeroHash) (sound_of_preflight hp) hi
  refine ⟨towerModule k, 2, out, hp, hi, ho, ?_⟩
  have hl := towerModule_interfaceSize k
  rw [towerModule_size]
  have hs : a * (size + 24 * k) + b < k * k := by
    have hk : 1 ≤ k := le_add_left 1 _
    calc a * (size + 24 * k) + b = a * size + a * 24 * k + b := by ring
      _ ≤ (a * size) * k + a * 24 * k + b * k := by
        have h1 := Nat.le_mul_of_pos_right (a * size) hk
        have h2 := Nat.le_mul_of_pos_right b hk
        omega
      _ < (a * size) * k + a * 24 * k + b * k + k := by omega
      _ = k * k := by
        change _ = (a * size + a * 24 + b + 1) * k
        ring
  change a * (size + 24 * k) + b < _
  omega

end LoomV4.Identity
