import LoomV4.Library.Integer
import Mathlib.Data.List.Basic

namespace LoomV4.Io

open List

inductive IoError
  | invalidInput (message : String)
  | limitExceeded (message : String)
deriving DecidableEq, Repr

structure ConsoleLineReader where
  buffer : List UInt8 := []
  searched : ℕ := 0
  ended : Bool := false
deriving DecidableEq

/-- What is left of the input and how long the host wants its next reads to be. -/
structure Host where
  input : List UInt8
  cuts : ℕ → ℕ

def Host.readBytes (host : Host) (count : ℕ) : List UInt8 × Host :=
  let size := max 1 (min (host.cuts 0) count)
  (host.input.take size, ⟨host.input.drop size, fun i => host.cuts (i + 1)⟩)

abbrev Answer := Except IoError (Option (List UInt8))

inductive Turn
  | answer (answer : Answer) (reader : ConsoleLineReader)
  | read (count : ℕ) (reader : ConsoleLineReader)

def lineTooLong : Answer := .error (.limitExceeded "the input line exceeds its byte limit")

section

variable (isUtf8 : List UInt8 → Bool)

def text (line : List UInt8) : Answer :=
  if isUtf8 line then .ok (some line) else .error (.invalidInput "the input line is not valid UTF-8")

/-- One turn of the loop of `read_line` up to its read; `none` is the fault of an integer overflow. -/
def turn (maxBytes : ℕ) (self : ConsoleLineReader) : Option Turn :=
  let newline := if self.searched < self.buffer.length then
      ((self.buffer.drop self.searched).findIdx? (· == 10)).map (· + self.searched) else none
  match newline with
  | some newline =>
    let lineEnd := if 0 < newline ∧ self.buffer[newline - 1]? = some 13 then newline - 1 else newline
    if lineEnd > maxBytes then some (.answer lineTooLong self)
    else some (.answer (text isUtf8 (self.buffer.take lineEnd))
      { self with buffer := self.buffer.drop (newline + 1), searched := 0 })
  | none =>
    let self := { self with searched := self.buffer.length }
    (checked (maxBytes + 1)).bind fun top =>
      if self.buffer.length > maxBytes ∧ ¬(self.buffer.length = top ∧ self.buffer[maxBytes]? = some 13) then
        some (.answer lineTooLong self)
      else if self.ended then
        if self.buffer.length = 0 then some (.answer (.ok none) self)
        else some (.answer (text isUtf8 self.buffer) { self with buffer := [], searched := 0 })
      else some (.read (if maxBytes < self.buffer.length then 1
        else if maxBytes - self.buffer.length < 8192 then maxBytes - self.buffer.length + 1 else 8192) self)

def ConsoleLineReader.receive (self : ConsoleLineReader) (bytes : List UInt8) : ConsoleLineReader :=
  if bytes.isEmpty then { self with ended := true } else { self with buffer := self.buffer ++ bytes }

def readLoop (maxBytes : ℕ) : ℕ → ConsoleLineReader → Host → Option (Answer × ConsoleLineReader × Host)
  | 0, _, _ => none
  | fuel + 1, self, host =>
    match turn isUtf8 maxBytes self with
    | none => none
    | some (.answer a self) => some (a, self, host)
    | some (.read count self) =>
      readLoop maxBytes fuel (self.receive (host.readBytes count).1) (host.readBytes count).2

/-- Every turn but the last takes a byte of the input or meets its end. -/
def readLine (maxBytes : ℤ) (self : ConsoleLineReader) (host : Host) : Option (Answer × ConsoleLineReader × Host) :=
  if maxBytes < 0 then some (.error (.invalidInput "the line limit is negative"), self, host)
  else readLoop isUtf8 maxBytes.toNat (host.input.length + 2) self host

def readLines (maxBytes : ℤ) : ℕ → ConsoleLineReader → Host → Option (List Answer)
  | 0, _, _ => some []
  | calls + 1, self, host => do
    let (a, self, host) ← readLine isUtf8 maxBytes self host
    return a :: (← readLines maxBytes calls self host)

def stripCr (line : List UInt8) : List UInt8 :=
  if line.getLast? = some 13 then line.dropLast else line

/-- The first line of the input and what follows it. -/
def firstLine (input : List UInt8) : List UInt8 × List UInt8 :=
  match input.findIdx? (· == 10) with
  | some newline => (stripCr (input.take newline), input.drop (newline + 1))
  | none => (input, [])

def lineAnswer (limit : ℕ) (input : List UInt8) : Answer × List UInt8 :=
  if input = [] then (.ok none, [])
  else if (firstLine input).1.length ≤ limit then (text isUtf8 (firstLine input).1, (firstLine input).2)
  else (lineTooLong, input)

def lineAnswers (limit : ℕ) : ℕ → List UInt8 → List Answer
  | 0, _ => []
  | calls + 1, input => (lineAnswer isUtf8 limit input).1 :: lineAnswers limit calls (lineAnswer isUtf8 limit input).2

/-- The last line is one byte over the limit, that byte is a CR, and no LF follows it. -/
def EndsOver (limit : ℕ) (input : List UInt8) : Prop :=
  input.findIdx? (· == 10) = none ∧ input.length = limit + 1 ∧ input[limit]? = some 13

instance (limit : ℕ) (input : List UInt8) : Decidable (EndsOver limit input) := inferInstanceAs (Decidable (_ ∧ _ ∧ _))

/-- What `read_line` answers. -/
def codeAnswer (limit : ℕ) (input : List UInt8) : Answer × List UInt8 :=
  if EndsOver limit input then (text isUtf8 input, []) else lineAnswer isUtf8 limit input

def codeAnswers (limit : ℕ) : ℕ → List UInt8 → List Answer
  | 0, _ => []
  | calls + 1, input => (codeAnswer isUtf8 limit input).1 :: codeAnswers limit calls (codeAnswer isUtf8 limit input).2

/-- What is left of the input after some lines that fit. -/
def remains (limit : ℕ) : ℕ → List UInt8 → List UInt8
  | 0, input => input
  | n + 1, input => remains limit n (lineAnswer isUtf8 limit input).2

@[mk_iff]
structure Steady (r : ConsoleLineReader) (host : Host) : Prop where
  searched : r.searched ≤ r.buffer.length
  clean : (r.buffer.take r.searched).findIdx? (· == 10) = none
  ended : r.ended → host.input = []

variable {isUtf8} {limit fuel : ℕ} {r r' : ConsoleLineReader} {host host' : Host}

theorem stripCr_take {l : List UInt8} {k : ℕ} (hk : k ≤ l.length) :
    stripCr (l.take k) = l.take (if 0 < k ∧ l[k - 1]? = some 13 then k - 1 else k) := by
  unfold stripCr
  cases k with
  | zero => simp
  | succ k =>
    rw [getLast?_eq_getElem?, dropLast_eq_take, length_take_of_le hk, getElem?_take_of_lt (by omega), take_take,
      Nat.min_eq_left (by omega)]
    simp only [Nat.succ_pos, true_and]
    split <;> rfl

theorem Steady.search (h : Steady r host) : (if r.searched < r.buffer.length then
    ((r.buffer.drop r.searched).findIdx? (· == 10)).map (· + r.searched) else none) =
      r.buffer.findIdx? (· == 10) := by
  have hf := @findIdx?_append _ (r.buffer.take r.searched) (r.buffer.drop r.searched) (· == 10)
  rw [take_append_drop, h.clean, Option.none_or, length_take_of_le h.searched] at hf
  split
  · exact hf.symm
  · next hn => rw [hf, drop_of_length_le (by omega)]; rfl

theorem turn_newline (h : Steady r host) {k : ℕ} (hk : r.buffer.findIdx? (· == 10) = some k) :
    ∃ r', turn isUtf8 limit r = some (.answer (lineAnswer isUtf8 limit (r.buffer ++ host.input)).1 r') ∧
      Steady r' host ∧ r'.buffer ++ host.input = (lineAnswer isUtf8 limit (r.buffer ++ host.input)).2 := by
  obtain ⟨hlt, -⟩ := findIdx?_eq_some_iff_getElem.mp hk
  have hs : (r.buffer ++ host.input).findIdx? (· == 10) = some k := by simp [findIdx?_append, hk]
  have hn : r.buffer ++ host.input ≠ [] := fun hn => by simp [hn] at hs
  have hf : firstLine (r.buffer ++ host.input) = (r.buffer.take (if 0 < k ∧ r.buffer[k - 1]? = some 13 then k - 1
      else k), r.buffer.drop (k + 1) ++ host.input) := by
    simp only [firstLine, hs, take_append_of_le_length (Nat.le_of_lt hlt), stripCr_take (Nat.le_of_lt hlt),
      drop_append_of_le_length hlt]
  have hle : (if 0 < k ∧ r.buffer[k - 1]? = some 13 then k - 1 else k) ≤ r.buffer.length := by split <;> omega
  simp only [turn, h.search, hk, lineAnswer, if_neg hn, hf, length_take_of_le hle]
  by_cases hm : (if 0 < k ∧ r.buffer[k - 1]? = some 13 then k - 1 else k) ≤ limit
  · rw [if_neg (by omega), if_pos hm]
    exact ⟨_, rfl, ⟨Nat.zero_le _, rfl, h.ended⟩, rfl⟩
  · rw [if_pos (by omega), if_neg hm]
    exact ⟨_, rfl, h, rfl⟩

theorem lineTooLong_of_over {s t : List UInt8} (hk : s.findIdx? (· == 10) = none) (ho : limit < s.length)
    (hc : ¬(s.length = limit + 1 ∧ s[limit]? = some 13)) :
    codeAnswer isUtf8 limit (s ++ t) = (lineTooLong, s ++ t) := by
  have hg : (s ++ t)[limit]? = s[limit]? := getElem?_append_left ho
  have hlen := @length_append _ s t
  have he : ¬EndsOver limit (s ++ t) := fun he => hc ⟨by have := he.2.1; omega, hg ▸ he.2.2⟩
  have hn : s ++ t ≠ [] := fun hn => by simp [hn] at hlen; omega
  suffices hf : limit < (firstLine (s ++ t)).1.length by
    rw [codeAnswer, if_neg he, lineAnswer, if_neg hn, if_neg (by omega)]
  unfold firstLine
  rw [findIdx?_append, hk, Option.none_or]
  cases hj : t.findIdx? (· == 10) with
  | none => simp only [Option.map_none]; omega
  | some j =>
    obtain ⟨hlt, -⟩ := findIdx?_eq_some_iff_getElem.mp hj
    simp only [Option.map_some]
    rw [stripCr_take (by omega), length_take]
    split
    · next h13 =>
      by_cases hl : j + s.length - 1 = limit
      · exact absurd ⟨by omega, hg ▸ hl ▸ h13.2⟩ hc
      · omega
    · omega

theorem turn_none (hl : IsInt (limit + 1)) (h : Steady r host) (hk : r.buffer.findIdx? (· == 10) = none) :
    (∃ r', turn isUtf8 limit r = some (.answer (codeAnswer isUtf8 limit (r.buffer ++ host.input)).1 r') ∧
      Steady r' host ∧ r'.buffer ++ host.input = (codeAnswer isUtf8 limit (r.buffer ++ host.input)).2) ∨
      r.ended = false ∧ ∃ count, turn isUtf8 limit r = some (.read (count + 1) { r with searched := r.buffer.length }) := by
  have hr : Steady { r with searched := r.buffer.length } host := ⟨le_rfl, by rwa [take_length], h.ended⟩
  simp only [turn, h.search, hk, checked_eq hl, Option.bind_some]
  split
  · next ho =>
    have ha := @lineTooLong_of_over isUtf8 limit _ host.input hk ho.1 fun hc => ho.2 ⟨by omega, hc.2⟩
    exact .inl ⟨_, by rw [ha], hr, by rw [ha]⟩
  · next ho =>
    split
    · next he =>
      have hi := h.ended he
      rw [hi, append_nil]
      split
      · next h0 =>
        have hb := length_eq_zero_iff.mp h0
        have ha : codeAnswer isUtf8 limit r.buffer = (.ok none, []) := by simp [hb, codeAnswer, EndsOver, lineAnswer]
        rw [ha]
        exact .inl ⟨_, rfl, hr, by simp [hb]⟩
      · next h0 =>
        have ha : codeAnswer isUtf8 limit r.buffer = (text isUtf8 r.buffer, []) := by
          have hf : firstLine r.buffer = (r.buffer, []) := by rw [firstLine, hk]
          unfold codeAnswer
          split
          · rfl
          · next hn =>
            rw [lineAnswer, if_neg fun hb => h0 (length_eq_zero_iff.mpr hb), hf, if_pos]
            by_contra hle
            exact ho ⟨not_le.mp hle, fun hc => hn ⟨hk, by omega, hc.2⟩⟩
        rw [ha]
        exact .inl ⟨_, rfl, ⟨Nat.zero_le _, rfl, h.ended⟩, rfl⟩
    · next he =>
      refine .inr ⟨by simpa using he, ?_⟩
      split
      · exact ⟨0, rfl⟩
      · split
        · exact ⟨_, rfl⟩
        · exact ⟨8191, rfl⟩

theorem receive_spec (he : r.ended = false) (hk : r.buffer.findIdx? (· == 10) = none) {count : ℕ}
    (hr : r' = { r with searched := r.buffer.length }.receive (host.readBytes (count + 1)).1)
    (hh : host' = (host.readBytes (count + 1)).2) :
    Steady r' host' ∧ r'.buffer ++ host'.input = r.buffer ++ host.input ∧
      host'.input.length + (if r'.ended then 1 else 2) < host.input.length + 2 := by
  subst hr hh
  cases hi : host.input with
  | nil => simp [Host.readBytes, ConsoleLineReader.receive, hi, steady_iff, hk]
  | cons b bs =>
    have hl : ∀ n, bs.length + 1 - max 1 n < bs.length + 1 := by omega
    simp only [Host.readBytes, ConsoleLineReader.receive, hi]
    simp [steady_iff, hk, he, hl]

theorem readLoop_spec (hl : IsInt (limit + 1)) (h : Steady r host)
    (hf : host.input.length + (if r.ended then 1 else 2) ≤ fuel) :
    ∃ r' host', readLoop isUtf8 limit fuel r host =
      some ((codeAnswer isUtf8 limit (r.buffer ++ host.input)).1, r', host') ∧ Steady r' host' ∧
        r'.buffer ++ host'.input = (codeAnswer isUtf8 limit (r.buffer ++ host.input)).2 := by
  induction fuel generalizing r host with
  | zero => split at hf <;> omega
  | succ fuel ih =>
    cases hk : r.buffer.findIdx? (· == 10) with
    | some k =>
      obtain ⟨r', ht, hr⟩ := @turn_newline isUtf8 limit _ _ h _ hk
      have hc : codeAnswer isUtf8 limit (r.buffer ++ host.input) = lineAnswer isUtf8 limit (r.buffer ++ host.input) :=
        if_neg fun he => by simp [EndsOver, findIdx?_append, hk] at he
      rw [readLoop, ht, hc]
      exact ⟨r', host, rfl, hr⟩
    | none =>
      obtain ⟨r', ht, hr⟩ | ⟨he, count, ht⟩ := @turn_none isUtf8 limit _ _ hl h hk
      · rw [readLoop, ht]
        exact ⟨r', host, rfl, hr⟩
      · rw [readLoop, ht]
        obtain ⟨hs, hi, hlt⟩ := @receive_spec r _ host _ he hk count rfl rfl
        rw [← hi]
        exact ih hs (by rw [he] at hf; exact Nat.le_of_lt_succ (Nat.lt_of_lt_of_le hlt hf))

theorem readLines_eq (hl : IsInt (limit + 1)) (h : Steady r host) (calls : ℕ) :
    readLines isUtf8 limit calls r host = some (codeAnswers isUtf8 limit calls (r.buffer ++ host.input)) := by
  induction calls generalizing r host with
  | zero => rfl
  | succ calls ih =>
    obtain ⟨r', host', hr, hs, hi⟩ := @readLoop_spec isUtf8 limit _ r host hl h
      (show _ ≤ host.input.length + 2 by split <;> omega)
    rw [readLines, readLine, if_neg (by omega), Int.toNat_natCast, hr]
    simp only [Option.bind_eq_bind, Option.bind_some, ih hs, hi]
    rfl

theorem codeAnswer_ne {s : List UInt8} (h : EndsOver limit s) :
    (codeAnswer isUtf8 limit s).1 ≠ (lineAnswer isUtf8 limit s).1 := by
  obtain ⟨hk, hl, -⟩ := id h
  have hf : firstLine s = (s, []) := by rw [firstLine, hk]
  rw [codeAnswer, if_pos h, lineAnswer, if_neg fun hs => by simp [hs] at hl, hf, if_neg (by simp [hl])]
  unfold text
  split <;> simp [lineTooLong]

theorem answers_eq_iff {s : List UInt8} :
    (∀ calls, codeAnswers isUtf8 limit calls s = lineAnswers isUtf8 limit calls s) ↔
      ∀ n, ¬EndsOver limit (remains isUtf8 limit n s) := by
  constructor
  · intro h n
    induction n generalizing s with
    | zero => exact fun he => codeAnswer_ne he (cons_eq_cons.mp (h 1)).1
    | succ n ih =>
      have he : ¬EndsOver limit s := fun he => codeAnswer_ne he (cons_eq_cons.mp (h 1)).1
      refine ih fun calls => ?_
      have ht := (cons_eq_cons.mp (h (calls + 1))).2
      rwa [codeAnswer, if_neg he] at ht
  · intro h calls
    induction calls generalizing s with
    | zero => rfl
    | succ calls ih =>
      have he : codeAnswer isUtf8 limit s = lineAnswer isUtf8 limit s := if_neg (h 0)
      rw [codeAnswers, lineAnswers, he, ih fun n => h (n + 1)]

theorem readLines_overflow (ho : checked (limit + 1) = none) : readLines isUtf8 limit 1 {} host = none := by
  have ht : turn isUtf8 limit {} = none := by
    rw [turn, ho]
    rfl
  rw [readLines, readLine, if_neg (by omega), Int.toNat_natCast, readLoop, ht]
  rfl

theorem readLines_iff (input : List UInt8) (hm : IsInt limit) :
    (∀ cuts calls, readLines isUtf8 limit calls {} ⟨input, cuts⟩ = some (lineAnswers isUtf8 limit calls input)) ↔
      limit < 9223372036854775807 ∧ ∀ n, ¬EndsOver limit (remains isUtf8 limit n input) := by
  obtain ⟨-, hm⟩ := hm
  by_cases hl : limit < 9223372036854775807
  · have hr := fun cuts => @readLines_eq isUtf8 limit {} ⟨input, cuts⟩ ⟨by omega, by omega⟩ ⟨le_rfl, rfl, nofun⟩
    simp only [hr, hl, true_and, ← answers_eq_iff, Option.some_inj]
    exact forall_const _
  · refine iff_of_false (fun h => ?_) fun h => hl h.1
    have ho : checked (limit + 1) = none := if_neg fun hc => by have := hc.2; omega
    have h1 := h (fun _ => 0) 1
    rw [readLines_overflow ho] at h1
    cases h1

theorem readLines_iff_two : IsInt (2 : ℕ) ∧
    ((∀ cuts calls, readLines (fun _ => true) (2 : ℕ) calls {} ⟨[97, 13, 10, 98], cuts⟩ =
      some (lineAnswers (fun _ => true) 2 calls [97, 13, 10, 98])) ↔ 2 < 9223372036854775807 ∧
        ∀ n, ¬EndsOver 2 (remains (fun _ => true) 2 n [97, 13, 10, 98])) :=
  ⟨by decide, readLines_iff _ (by decide)⟩

theorem readLines_over : readLines (fun _ => true) 1 1 {} ⟨[97, 13], fun _ => 1⟩ = some [.ok (some [97, 13])] ∧
    lineAnswers (fun _ => true) 1 1 [97, 13] = [lineTooLong] ∧
    readLines (fun _ => true) 9223372036854775807 1 {} ⟨[], fun _ => 1⟩ = none := by
  refine ⟨rfl, rfl, ?_⟩
  rfl

end

end LoomV4.Io
