import Mathlib.Data.List.Basic
import Mathlib.Data.Nat.Bitwise

namespace LoomV4.Base64

inductive Base64Error
  | invalidLength
  | invalidByte (index : ℕ)
  | invalidPadding
deriving DecidableEq, Repr

def alphabet : List UInt8 :=
  "ABCDEFGHIJKLMNOPQRSTUVWXYZabcdefghijklmnopqrstuvwxyz0123456789+/".toList.map Char.toUInt8

/-- The answer `none` is the source's -1. -/
def base64Digit (byte : UInt8) : Option ℕ :=
  let byte := byte.toNat
  if 65 ≤ byte ∧ byte ≤ 90 then some (byte - 65)
  else if 97 ≤ byte ∧ byte ≤ 122 then some (byte - 71)
  else if 48 ≤ byte ∧ byte ≤ 57 then some (byte + 4)
  else if byte = 43 then some 62
  else if byte = 47 then some 63
  else none

/-- The answer `none` is the fault of an index outside the alphabet. -/
def digits (is : List ℕ) : Option (List UInt8) :=
  is.mapM (alphabet[·]?)

def encode : List UInt8 → Option (List UInt8)
  | first :: second :: third :: rest => do
    let (first, second, third) := (first.toNat, second.toNat, third.toNat)
    let group ← digits [first >>> 2, ((first &&& 3) <<< 4) ||| (second >>> 4),
      ((second &&& 15) <<< 2) ||| (third >>> 6), third &&& 63]
    return group ++ (← encode rest)
  | [first, second] => do
    let (first, second) := (first.toNat, second.toNat)
    return (← digits [first >>> 2, ((first &&& 3) <<< 4) ||| (second >>> 4), (second &&& 15) <<< 2]) ++ [61]
  | [first] => do
    let first := first.toNat
    return (← digits [first >>> 2, (first &&& 3) <<< 4]) ++ [61, 61]
  | [] => some []

/-- The buffer faults on a value that is not a byte. -/
def append (value : ℕ) : Option UInt8 :=
  if value < 256 then some (.ofNat value) else none

def extend (group : List ℕ) (rest : Option (Except Base64Error (List UInt8))) :
    Option (Except Base64Error (List UInt8)) := do
  let group ← group.mapM append
  return (← rest).map (group ++ ·)

def decodeFrom (index : ℕ) : List UInt8 → Option (Except Base64Error (List UInt8))
  | [] => some (.ok [])
  | firstByte :: secondByte :: thirdByte :: fourthByte :: rest =>
    match base64Digit firstByte, base64Digit secondByte with
    | none, _ => some (.error (.invalidByte index))
    | some _, none => some (.error (.invalidByte (index + 1)))
    | some first, some second =>
      if thirdByte = 61 then
        if rest ≠ [] ∨ fourthByte ≠ 61 ∨ second &&& 15 ≠ 0 then some (.error .invalidPadding)
        else extend [(first <<< 2) ||| (second >>> 4)] (decodeFrom (index + 4) rest)
      else
        match base64Digit thirdByte with
        | none => some (.error (.invalidByte (index + 2)))
        | some third =>
          if fourthByte = 61 then
            if rest ≠ [] ∨ third &&& 3 ≠ 0 then some (.error .invalidPadding)
            else extend [(first <<< 2) ||| (second >>> 4), ((second &&& 15) <<< 4) ||| (third >>> 2)]
              (decodeFrom (index + 4) rest)
          else
            match base64Digit fourthByte with
            | none => some (.error (.invalidByte (index + 3)))
            | some fourth =>
              extend [(first <<< 2) ||| (second >>> 4), ((second &&& 15) <<< 4) ||| (third >>> 2),
                ((third &&& 3) <<< 6) ||| fourth] (decodeFrom (index + 4) rest)
  | _ => none

def decode (text : List UInt8) : Option (Except Base64Error (List UInt8)) :=
  if text.length % 4 ≠ 0 then some (.error .invalidLength) else decodeFrom 0 text

theorem digits_spec : alphabet.length = 64 ∧ (∀ i < 64, alphabet[i]?.bind base64Digit = some i) ∧
    ∀ c < 256, ∀ d ∈ base64Digit (.ofNat c), alphabet[d]? = some (.ofNat c) := by
  decide +kernel

variable {c : UInt8} {d : ℕ}

theorem alphabet_of_digit (h : base64Digit c = some d) : alphabet[d]? = some c := by
  have := digits_spec.2.2 c.toNat c.toNat_lt d
  simpa [h] using this

theorem digit_of_alphabet {i : ℕ} (h : i < 64) : ∃ c, alphabet[i]? = some c ∧ base64Digit c = some i :=
  Option.bind_eq_some_iff.mp (digits_spec.2.1 i h)

theorem digit_lt (h : base64Digit c = some d) : d < 64 := by
  obtain ⟨hd, -⟩ := List.getElem?_eq_some_iff.mp (alphabet_of_digit h)
  exact digits_spec.1 ▸ hd

theorem shift_or {a b : ℕ} (k : ℕ) (h : b < 2 ^ k) : a <<< k ||| b = a * 2 ^ k + b := by
  rw [← Nat.shiftLeft_add_eq_or_of_lt h, Nat.shiftLeft_eq]

theorem sextets_eq {a b c : ℕ} (hb : b < 256) (hc : c < 256) :
    a >>> 2 = a / 4 ∧ ((a &&& 3) <<< 4) ||| (b >>> 4) = a % 4 * 16 + b / 16 ∧
      ((b &&& 15) <<< 2) ||| (c >>> 6) = b % 16 * 4 + c / 64 ∧ c &&& 63 = c % 64 := by
  have h3 : a &&& 3 = a % 4 := Nat.and_two_pow_sub_one_eq_mod a 2
  have h15 : b &&& 15 = b % 16 := Nat.and_two_pow_sub_one_eq_mod b 4
  have h63 : c &&& 63 = c % 64 := Nat.and_two_pow_sub_one_eq_mod c 6
  rw [h3, h15, h63, Nat.shiftRight_eq_div_pow, Nat.shiftRight_eq_div_pow, Nat.shiftRight_eq_div_pow,
    shift_or 4 (by omega), shift_or 2 (by omega)]
  exact ⟨rfl, rfl, rfl, rfl⟩

theorem octets_eq {x y z w : ℕ} (hy : y < 64) (hz : z < 64) (hw : w < 64) :
    (x <<< 2) ||| (y >>> 4) = x * 4 + y / 16 ∧ ((y &&& 15) <<< 4) ||| (z >>> 2) = y % 16 * 16 + z / 4 ∧
      ((z &&& 3) <<< 6) ||| w = z % 4 * 64 + w := by
  have h15 : y &&& 15 = y % 16 := Nat.and_two_pow_sub_one_eq_mod y 4
  have h3 : z &&& 3 = z % 4 := Nat.and_two_pow_sub_one_eq_mod z 2
  rw [h3, h15, Nat.shiftRight_eq_div_pow, Nat.shiftRight_eq_div_pow, shift_or 2 (by omega), shift_or 4 (by omega),
    shift_or 6 hw]
  exact ⟨rfl, rfl, rfl⟩

inductive Codes : List UInt8 → List UInt8 → Prop
  | nil : Codes [] []
  | one {a c d : UInt8} {x y : ℕ} (hc : base64Digit c = some x) (hd : base64Digit d = some y)
    (ha : a.toNat = x * 4 + y / 16) (hy : y % 16 = 0) : Codes [a] [c, d, 61, 61]
  | two {a b c d e : UInt8} {x y z : ℕ} (hc : base64Digit c = some x) (hd : base64Digit d = some y)
    (he : base64Digit e = some z) (ha : a.toNat = x * 4 + y / 16) (hb : b.toNat = y % 16 * 16 + z / 4)
    (hz : z % 4 = 0) : Codes [a, b] [c, d, e, 61]
  | three {a b o c d e f : UInt8} {x y z w : ℕ} {bs ts : List UInt8} (hc : base64Digit c = some x)
    (hd : base64Digit d = some y) (he : base64Digit e = some z) (hf : base64Digit f = some w)
    (ha : a.toNat = x * 4 + y / 16) (hb : b.toNat = y % 16 * 16 + z / 4) (ho : o.toNat = z % 4 * 64 + w)
    (rest : Codes bs ts) : Codes (a :: b :: o :: bs) (c :: d :: e :: f :: ts)

variable {b t : List UInt8}

theorem Codes.encode_eq (h : Codes b t) : encode b = some t := by
  induction h with
  | nil => rfl
  | @one a c d x y hc hd ha hy =>
    have hx := digit_lt hc
    have hy' := digit_lt hd
    obtain ⟨e1, e2, -⟩ := @sextets_eq a.toNat 0 0 (by decide) (by decide)
    rw [Nat.zero_shiftRight, Nat.or_zero] at e2
    rw [encode, e1, e2, show a.toNat / 4 = x by omega, show a.toNat % 4 * 16 + 0 / 16 = y by omega]
    simp [digits, alphabet_of_digit hc, alphabet_of_digit hd]
  | @two a b c d e x y z hc hd he ha hb hz =>
    have hx := digit_lt hc
    have hy := digit_lt hd
    have hz' := digit_lt he
    obtain ⟨e1, e2, e3, -⟩ := @sextets_eq a.toNat b.toNat 0 b.toNat_lt (by decide)
    rw [Nat.zero_shiftRight, Nat.or_zero] at e3
    rw [encode, e1, e2, e3, show a.toNat / 4 = x by omega, show a.toNat % 4 * 16 + b.toNat / 16 = y by omega,
      show b.toNat % 16 * 4 + 0 / 64 = z by omega]
    simp [digits, alphabet_of_digit hc, alphabet_of_digit hd, alphabet_of_digit he]
  | @three a b o c d e f x y z w bs ts hc hd he hf ha hb ho _ ih =>
    have hx := digit_lt hc
    have hy := digit_lt hd
    have hz := digit_lt he
    have hw := digit_lt hf
    obtain ⟨e1, e2, e3, e4⟩ := @sextets_eq a.toNat b.toNat o.toNat b.toNat_lt o.toNat_lt
    rw [encode, e1, e2, e3, e4, ih, show a.toNat / 4 = x by omega,
      show a.toNat % 4 * 16 + b.toNat / 16 = y by omega, show b.toNat % 16 * 4 + o.toNat / 64 = z by omega,
      show o.toNat % 64 = w by omega]
    simp [digits, alphabet_of_digit hc, alphabet_of_digit hd, alphabet_of_digit he, alphabet_of_digit hf]

theorem append_eq_some {v : ℕ} {a : UInt8} : append v = some a ↔ a.toNat = v := by
  unfold append
  split
  · next h => rw [Option.some_inj, ← UInt8.toNat_inj, UInt8.toNat_ofNat_of_lt' h, eq_comm]
  · next h =>
    have := a.toNat_lt
    simp only [reduceCtorEq, false_iff]
    omega

theorem not_pad {x : ℕ} (h : base64Digit c = some x) : c ≠ 61 := by
  rintro rfl
  cases h

theorem Codes.decodeFrom_eq (h : Codes b t) (index : ℕ) : decodeFrom index t = some (.ok b) := by
  induction h generalizing index with
  | nil => rfl
  | @one a c d x y hc hd ha hy =>
    obtain ⟨o1, -⟩ := @octets_eq x y 0 0 (digit_lt hd) (by decide) (by decide)
    have h15 : y &&& 15 = 0 := (Nat.and_two_pow_sub_one_eq_mod y 4).trans hy
    simp [decodeFrom, hc, hd, h15, o1, append_eq_some.mpr ha, extend, Except.map]
  | @two a b c d e x y z hc hd he ha hb hz =>
    obtain ⟨o1, o2, -⟩ := @octets_eq x y z 0 (digit_lt hd) (digit_lt he) (by decide)
    have h3 : z &&& 3 = 0 := (Nat.and_two_pow_sub_one_eq_mod z 2).trans hz
    simp [decodeFrom, hc, hd, he, h3, o1, o2, append_eq_some.mpr ha, append_eq_some.mpr hb, extend, Except.map,
      not_pad he]
  | @three a b o c d e f x y z w bs ts hc hd he hf ha hb ho _ ih =>
    obtain ⟨o1, o2, o3⟩ := @octets_eq x y z w (digit_lt hd) (digit_lt he) (digit_lt hf)
    simp [decodeFrom, hc, hd, he, hf, o1, o2, o3, append_eq_some.mpr ha, append_eq_some.mpr hb,
      append_eq_some.mpr ho, not_pad he, not_pad hf, ih, extend, Except.map]

variable {o : Except Base64Error (List UInt8)}

theorem extend_eq_some {vs : List ℕ} {r : Option (Except Base64Error (List UInt8))} (h : extend vs r = some o) :
    ∃ group rest, vs.mapM append = some group ∧ r = some rest ∧ rest.map (group ++ ·) = o := by
  obtain ⟨group, hg, h⟩ := Option.bind_eq_some_iff.mp h
  obtain ⟨rest, hr, h⟩ := Option.bind_eq_some_iff.mp h
  exact ⟨group, rest, hg, hr, Option.some.inj h⟩

theorem mem_alphabet : c ∈ alphabet ↔ base64Digit c ≠ none := by
  rw [List.mem_iff_getElem?]
  constructor
  · rintro ⟨i, hi⟩
    have hd := digits_spec.2.1 i (digits_spec.1 ▸ (List.getElem?_eq_some_iff.mp hi).1)
    rw [hi, Option.bind_some] at hd
    simp [hd]
  · intro h
    obtain ⟨d, hd⟩ := Option.ne_none_iff_exists'.mp h
    exact ⟨d, alphabet_of_digit hd⟩

def Refused (t : List UInt8) (k : ℕ) : Prop :=
  (∃ c ∉ alphabet, t[k]? = some c) ∧ ∀ j < k / 4 * 4, ∃ c ∈ alphabet, t[j]? = some c

def Explained (index : ℕ) (t : List UInt8) : Except Base64Error (List UInt8) → Prop
  | .ok b => Codes b t
  | .error (.invalidByte i) => ∃ k, i = index + k ∧ Refused t k
  | .error _ => True

theorem decodeFrom_explained {index : ℕ} {t : List UInt8}
    (h : decodeFrom index t = some o) : Explained index t o := by
  fun_induction decodeFrom index t generalizing o with
  | case1 =>
    cases h
    exact .nil
  | case2 index c _ _ _ _ hd =>
    cases h
    exact ⟨0, rfl, ⟨c, by simp [mem_alphabet, hd], rfl⟩, nofun⟩
  | case3 index _ c _ _ _ _ hd =>
    cases h
    exact ⟨1, rfl, ⟨c, by simp [mem_alphabet, hd], rfl⟩, nofun⟩
  | case6 index _ _ c _ _ _ _ _ _ _ hd =>
    cases h
    exact ⟨2, rfl, ⟨c, by simp [mem_alphabet, hd], rfl⟩, nofun⟩
  | case9 index _ _ _ c =>
    cases h
    exact ⟨3, rfl, ⟨c, by simp [mem_alphabet, *], rfl⟩, nofun⟩
  | case4 | case7 =>
    cases h
    trivial
  | case5 index _ _ _ rest x y hs hf hc =>
    simp only [ne_eq, not_or, not_not] at hc
    obtain ⟨rfl, rfl, hz⟩ := hc
    obtain ⟨group, _, hg, ⟨⟩, ⟨⟩⟩ := extend_eq_some h
    obtain ⟨o1, -⟩ := @octets_eq x y 0 0 (digit_lt hs) (by decide) (by decide)
    simp [o1, Option.bind_eq_some_iff, append_eq_some] at hg
    obtain ⟨a, ha, rfl⟩ := hg
    exact .one hf hs ha ((Nat.and_two_pow_sub_one_eq_mod y 4).symm.trans hz)
  | case8 index _ _ _ rest x y hs hf _ z ht hc =>
    simp only [ne_eq, not_or, not_not] at hc
    obtain ⟨rfl, hz⟩ := hc
    obtain ⟨group, _, hg, ⟨⟩, ⟨⟩⟩ := extend_eq_some h
    obtain ⟨o1, o2, -⟩ := @octets_eq x y z 0 (digit_lt hs) (digit_lt ht) (by decide)
    simp [o1, o2, Option.bind_eq_some_iff, append_eq_some] at hg
    obtain ⟨a, ha, b, hb, rfl⟩ := hg
    exact .two hf hs ht ha hb ((Nat.and_two_pow_sub_one_eq_mod z 2).symm.trans hz)
  | case10 index a b c d rest x y hs hf _ z ht _ w hw ih =>
    obtain ⟨group, o, hg, hr, rfl⟩ := extend_eq_some h
    match o, ih hr with
    | .ok bs, hbs =>
      obtain ⟨o1, o2, o3⟩ := @octets_eq x y z w (digit_lt hs) (digit_lt ht) (digit_lt hw)
      simp [o1, o2, o3, Option.bind_eq_some_iff, append_eq_some] at hg
      obtain ⟨a, ha, b, hb, o, ho, rfl⟩ := hg
      exact .three hf hs ht hw ha hb ho hbs
    | .error (.invalidByte _), ⟨k, rfl, hk, hv⟩ =>
      refine ⟨k + 4, by omega, hk, fun j hj => ?_⟩
      match j with
      | 0 => exact ⟨a, mem_alphabet.mpr (by simp [hf]), rfl⟩
      | 1 => exact ⟨b, mem_alphabet.mpr (by simp [hs]), rfl⟩
      | 2 => exact ⟨c, mem_alphabet.mpr (by simp [ht]), rfl⟩
      | 3 => exact ⟨d, mem_alphabet.mpr (by simp [hw]), rfl⟩
      | j + 4 => exact hv j (by omega)
    | .error .invalidLength, _ | .error .invalidPadding, _ => trivial
  | case11 => cases h

theorem Codes.exists_text : ∀ b : List UInt8, ∃ t, Codes b t
  | [] => ⟨_, .nil⟩
  | [a] => by
    have := a.toNat_lt
    obtain ⟨c, -, hc⟩ := @digit_of_alphabet (a.toNat / 4) (by omega)
    obtain ⟨d, -, hd⟩ := @digit_of_alphabet (a.toNat % 4 * 16) (by omega)
    exact ⟨_, .one hc hd (by omega) (by omega)⟩
  | [a, b] => by
    have := a.toNat_lt
    have := b.toNat_lt
    obtain ⟨c, -, hc⟩ := @digit_of_alphabet (a.toNat / 4) (by omega)
    obtain ⟨d, -, hd⟩ := @digit_of_alphabet (a.toNat % 4 * 16 + b.toNat / 16) (by omega)
    obtain ⟨e, -, he⟩ := @digit_of_alphabet (b.toNat % 16 * 4) (by omega)
    exact ⟨_, .two hc hd he (by omega) (by omega) (by omega)⟩
  | a :: b :: o :: bs => by
    have := a.toNat_lt
    have := b.toNat_lt
    have := o.toNat_lt
    obtain ⟨ts, hts⟩ := Codes.exists_text bs
    obtain ⟨c, -, hc⟩ := @digit_of_alphabet (a.toNat / 4) (by omega)
    obtain ⟨d, -, hd⟩ := @digit_of_alphabet (a.toNat % 4 * 16 + b.toNat / 16) (by omega)
    obtain ⟨e, -, he⟩ := @digit_of_alphabet (b.toNat % 16 * 4 + o.toNat / 64) (by omega)
    obtain ⟨f, -, hf⟩ := @digit_of_alphabet (o.toNat % 64) (by omega)
    exact ⟨_, .three hc hd he hf (by omega) (by omega) (by omega) hts⟩

theorem Codes.length_mod (h : Codes b t) : t.length % 4 = 0 := by
  induction h with
  | nil | one | two => simp
  | three _ _ _ _ _ _ _ _ ih => simpa [Nat.add_assoc] using ih

theorem Codes.decode_eq (h : Codes b t) : decode t = some (.ok b) := by
  rw [decode, if_neg (not_not.mpr h.length_mod)]
  exact h.decodeFrom_eq 0

theorem decode_explained {t : List UInt8} (h : decode t = some o) :
    Explained 0 t o := by
  unfold decode at h
  split at h
  · cases h
    trivial
  · exact decodeFrom_explained h

theorem base64_canonical : (∀ b, ∃ t, encode b = some t ∧ decode t = some (.ok b)) ∧
    (∀ t b, decode t = some (.ok b) → encode b = some t) ∧ (∀ t i, decode t = some (.error (.invalidByte i)) →
      (∃ c ∉ alphabet, t[i]? = some c) ∧ ∀ j < i / 4 * 4, ∃ c ∈ alphabet, t[j]? = some c) ∧
    ∀ t t' b, decode t = some (.ok b) → decode t' = some (.ok b) → t = t' := by
  have he : ∀ t b, decode t = some (.ok b) → encode b = some t := fun t b h => Codes.encode_eq (decode_explained h)
  refine ⟨fun b => ?_, he, fun t i h => ?_, fun t t' b h h' => ?_⟩
  · obtain ⟨t, ht⟩ := Codes.exists_text b
    exact ⟨t, ht.encode_eq, ht.decode_eq⟩
  · obtain ⟨k, rfl, hk⟩ := decode_explained h
    rwa [Nat.zero_add]
  · exact Option.some.inj ((he t b h).symm.trans (he t' b h'))

end LoomV4.Base64
