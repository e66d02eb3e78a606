import Mathlib.Data.List.Basic
import Mathlib.Tactic.Ring

/-!
Readers of byte strings, and what it takes for one to be the inverse of a writer.
-/

namespace LoomV4.Lib

open Vector


abbrev Bytes := List UInt8

/-- Code that takes a value off the front of its input. -/
structure Reader (ε α : Type) where
  fn : Bytes → Except ε (α × Bytes)

namespace Reader

variable {ε α β γ σ : Type}

def run (p : Reader ε α) (bs : Bytes) : Except ε (α × Bytes) := p.fn bs

instance : Monad (Reader ε) where
  pure a := ⟨fun bs => .ok (a, bs)⟩
  bind p k := ⟨fun bs =>
    match p.run bs with
    | .error e => .error e
    | .ok (a, rest) => (k a).run rest⟩

def fail (e : ε) : Reader ε α := ⟨fun _ => .error e⟩

def ensure (c : Bool) (e : ε) : Reader ε Unit := ⟨fun bs => if c then .ok ((), bs) else .error e⟩

def remaining : Reader ε ℕ := ⟨fun bs => .ok (bs.length, bs)⟩

def take (e : ε) (n : ℕ) : Reader ε Bytes := ⟨fun bs => if n ≤ bs.length then .ok (bs.take n, bs.drop n) else .error e⟩

def times : ℕ → Reader ε α → Reader ε (List α)
  | 0, _ => pure []
  | n + 1, p => do
    let a ← p
    let as ← times n p
    pure (a :: as)

def vector (p : Reader ε α) : (n : ℕ) → Reader ε (Vector α n)
  | 0 => pure #v[]
  | n + 1 => do
    let v ← vector p n
    let a ← p
    pure (v.push a)

def each (k : α → Reader ε β) : List α → Reader ε (List β)
  | [] => pure []
  | a :: as => do
    let b ← k a
    let bs ← each k as
    pure (b :: bs)

def timesFrom (p : σ → Reader ε (α × σ)) : ℕ → σ → Reader ε (List α × σ)
  | 0, s => pure ([], s)
  | n + 1, s => do
    let head ← p s
    let tail ← timesFrom p n head.2
    pure (head.1 :: tail.1, tail.2)

def permit : Option ε → Reader ε Unit
  | none => pure ()
  | some e => fail e

def ofExcept {ε' : Type} (f : ε' → ε) : Except ε' α → Reader ε α
  | .ok a => pure a
  | .error e => fail (f e)

def byte (e : ε) : Reader ε UInt8 := ⟨fun bs =>
  match bs with
  | [] => .error e
  | b :: rest => .ok (b, rest)⟩

def takeVector (e : ε) (n : ℕ) : Reader ε (Vector UInt8 n) := ⟨fun bs =>
  if h : n ≤ bs.length then .ok (⟨(bs.take n).toArray, by simp [h]⟩, bs.drop n) else .error e⟩

def whole (e : ε) (p : Reader ε α) (bs : Bytes) : Except ε α :=
  match p.run bs with
  | .error e => .error e
  | .ok (a, []) => .ok a
  | .ok (_, _ :: _) => .error e

@[simp] theorem run_pure (a : α) (bs : Bytes) : (pure a : Reader ε α).run bs = .ok (a, bs) := rfl

theorem run_bind (p : Reader ε α) (k : α → Reader ε β) (bs : Bytes) : (p >>= k).run bs = match p.run bs with
    | .error e => .error e
    | .ok (a, rest) => (k a).run rest := rfl

theorem bind_ok {p : Reader ε α} {k : α → Reader ε β} {bs rest : Bytes} {a : α} (h : p.run bs = .ok (a, rest)) :
    (p >>= k).run bs = (k a).run rest := by
  rw [run_bind, h]

@[simp] theorem run_bind_iff {p : Reader ε α} {k : α → Reader ε β} {bs rest : Bytes} {b : β} :
    (p >>= k).run bs = .ok (b, rest) ↔ ∃ a mid, p.run bs = .ok (a, mid) ∧ (k a).run mid = .ok (b, rest) := by
  rw [run_bind]
  cases p.run bs with
  | error e => simp
  | ok x =>
    obtain ⟨a, mid⟩ := x
    simp

@[simp] theorem run_fail (e : ε) (bs : Bytes) : (fail e : Reader ε α).run bs = .error e := rfl

@[simp] theorem run_remaining (bs : Bytes) : (remaining : Reader ε ℕ).run bs = .ok (bs.length, bs) := rfl

@[simp] theorem run_ensure {c : Bool} {e : ε} {bs rest : Bytes} {u : Unit} :
    (ensure c e).run bs = .ok (u, rest) ↔ c = true ∧ bs = rest := by
  cases c <;> simp [ensure, run]

theorem ensure_bind {c : Bool} {e : ε} {k : Unit → Reader ε β} {bs : Bytes} (h : c = true) :
    (ensure c e >>= k).run bs = (k ()).run bs := bind_ok (run_ensure.mpr ⟨h, rfl⟩)

@[simp] theorem run_permit {o : Option ε} {bs rest : Bytes} {u : Unit} :
    (permit o).run bs = .ok (u, rest) ↔ o = none ∧ bs = rest := by
  cases o <;> simp [permit]

@[simp] theorem run_ofExcept {ε' : Type} {f : ε' → ε} {x : Except ε' α} {a : α} {bs rest : Bytes} :
    (ofExcept f x).run bs = .ok (a, rest) ↔ x = .ok a ∧ bs = rest := by
  cases x <;> simp [ofExcept]

/-- What a writer writes is no longer than what was read. It is the same, unless the reader is loose. -/
def Spells (loose : Prop) (written used : Bytes) : Prop := written.length ≤ used.length ∧ (loose ∨ written = used)

/-- Whatever the reader accepts is good, and what it took completes `done` to a spelling of the value. -/
def Reads (loose : Prop) (p : Reader ε α) (done : Bytes) (write : α → Bytes) (good : α → Prop) : Prop :=
  ∀ bs v rest, p.run bs = .ok (v, rest) → good v ∧ ∃ used, bs = used ++ rest ∧ Spells loose (write v) (done ++ used)

/-- The reader takes what the writer wrote for a good value, and gives back `f` of the value. -/
def Inverts (p : Reader ε α) (write : β → Bytes) (f : β → α) (good : β → Prop) : Prop :=
  ∀ v rest, good v → p.run (write v ++ rest) = .ok (f v, rest)

/-- The reader accepts what the writer writes for a good value, and nothing else. -/
abbrev Codes (p : Reader ε α) (write : α → Bytes) (good : α → Prop) : Prop :=
  ∀ bs v rest, p.run bs = .ok (v, rest) ↔ good v ∧ bs = write v ++ rest

section Reads

variable {loose : Prop} {p : Reader ε α} {k : α → Reader ε β} {done : Bytes} {w : α → Bytes} {write : β → Bytes}
  {good : α → Prop} {fine : β → Prop} {e : ε}

theorem Spells.of_eq {written used : Bytes} (h : written = used) : Spells loose written used := by
  subst h
  exact ⟨le_refl _, .inr rfl⟩

theorem Spells.trans {a b c : Bytes} (h : Spells loose a b) (h' : Spells loose b c) : Spells loose a c := by
  refine ⟨le_trans h.1 h'.1, ?_⟩
  rcases h.2, h'.2 with ⟨hl | rfl, hl' | rfl⟩
  · exact .inl hl
  · exact .inl hl
  · exact .inl hl'
  · exact .inr rfl

theorem Spells.between {a b : Bytes} (h : Spells loose a b) (before after : Bytes) :
    Spells loose (before ++ a ++ after) (before ++ (b ++ after)) := by
  obtain ⟨hle, heq⟩ := h
  refine ⟨?_, heq.imp_right ?_⟩
  · simp only [List.length_append]
    omega
  · rintro rfl
    rw [List.append_assoc]

theorem Reads.bind (hp : Reads loose p [] w good) (hk : ∀ a, good a → Reads loose (k a) (done ++ w a) write fine) :
    Reads loose (p >>= k) done write fine := by
  intro bs v rest h
  rw [run_bind] at h
  split at h
  · cases h
  · next a mid ha =>
    obtain ⟨hg, used, rfl, hw⟩ := hp bs a mid ha
    obtain ⟨hf, used', rfl, hw'⟩ := hk a hg mid v rest h
    refine ⟨hf, used ++ used', by rw [List.append_assoc], ?_⟩
    exact hw'.trans (hw.between done used')

theorem Reads.pure {b : β} (hg : fine b) (hw : write b = done) : Reads loose (pure b : Reader ε β) done write fine := by
  intro bs v rest h
  cases h
  exact ⟨hg, [], rfl, .of_eq (by rw [hw, List.append_nil])⟩

theorem Reads.fail : Reads loose (fail e : Reader ε β) done write fine := by
  intro bs v rest h
  cases h

theorem Reads.guard {p : Reader ε Unit} {k : Unit → Reader ε β} {c : Prop}
    (hp : ∀ {bs u rest}, p.run bs = .ok (u, rest) ↔ c ∧ bs = rest) (hk : c → Reads loose (k ()) done write fine) :
    Reads loose (p >>= k) done write fine := by
  intro bs v rest h
  obtain ⟨u, mid, hu, h⟩ := run_bind_iff.mp h
  obtain ⟨hc, rfl⟩ := hp.mp hu
  exact hk hc bs v rest h

theorem Reads.ensure {c : Bool} {k : Unit → Reader ε β} (hk : c = true → Reads loose (k ()) done write fine) :
    Reads loose (ensure c e >>= k) done write fine := Reads.guard run_ensure hk

theorem Reads.permit {o : Option ε} {k : Unit → Reader ε β} (hk : o = none → Reads loose (k ()) done write fine) :
    Reads loose (permit o >>= k) done write fine := Reads.guard run_permit hk

theorem Reads.remaining {k : ℕ → Reader ε β} (hk : ∀ n, Reads loose (k n) done write fine) :
    Reads loose (remaining >>= k) done write fine := fun bs v rest h => hk bs.length bs v rest h

theorem Reads.ofExcept {ε' : Type} {f : ε' → ε} {x : Except ε' α}
    (hk : ∀ a, x = .ok a → Reads loose (k a) done write fine) : Reads loose (ofExcept f x >>= k) done write fine := by
  cases x with
  | ok a => exact hk a rfl
  | error e => exact Reads.fail

theorem Reads.times (hp : Reads loose p [] w good) (n : ℕ) :
    Reads loose (times n p) [] (fun l => l.flatMap w) (fun l => l.length = n ∧ ∀ a ∈ l, good a) := by
  induction n with
  | zero => exact Reads.pure ⟨rfl, fun a ha => absurd ha List.not_mem_nil⟩ rfl
  | succ n ih =>
    refine hp.bind fun a ha => ih.bind fun l hl => Reads.pure ⟨?_, List.forall_mem_cons.mpr ⟨ha, hl.2⟩⟩ rfl
    rw [List.length_cons, hl.1]

theorem Reads.each {R : α → β → Prop} {w : α → β → Bytes} (hk : ∀ a, Reads loose (k a) [] (w a) (R a)) (l : List α) :
    Reads loose (each k l) [] (fun bs => (List.zipWith w l bs).flatten) (List.Forall₂ R l) := by
  induction l with
  | nil => exact Reads.pure .nil rfl
  | cons a l ih => exact (hk a).bind fun b hb => ih.bind fun bs hbs => Reads.pure (.cons hb hbs) rfl

def Chain (R : σ → α → σ → Prop) : σ → List α → σ → Prop
  | s, [], s' => s' = s
  | s, a :: l, s' => ∃ mid, R s a mid ∧ Chain R mid l s'

theorem Reads.timesFrom {p : σ → Reader ε (α × σ)} {R : σ → α → σ → Prop}
    (hp : ∀ s, Reads loose (p s) [] (fun x => w x.1) fun x => R s x.1 x.2) (n : ℕ) (s : σ) :
    Reads loose (timesFrom p n s) [] (fun x => x.1.flatMap w) (fun x => x.1.length = n ∧ Chain R s x.1 x.2) := by
  induction n generalizing s with
  | zero => exact Reads.pure ⟨rfl, rfl⟩ rfl
  | succ n ih =>
    refine (hp s).bind fun x hx => (ih x.2).bind fun y hy => Reads.pure ⟨?_, x.2, hx, hy.2⟩ rfl
    rw [List.length_cons, hy.1]

theorem Reads.whole (hp : Reads loose p [] w good) {bs : Bytes} {v : α} (h : whole e p bs = .ok v) :
    good v ∧ Spells loose (w v) bs := by
  unfold Reader.whole at h
  split at h
  · cases h
  · next a hr =>
    cases h
    obtain ⟨hg, used, rfl, hw⟩ := hp bs v [] hr
    rw [List.append_nil]
    exact ⟨hg, hw⟩
  · cases h

end Reads

section Inverts

variable {p : Reader ε α} {k : α → Reader ε β} {w : α → Bytes} {good : α → Prop} {e : ε}

theorem Inverts.bind (h : Inverts p w id good) {a : α} (ha : good a) (rest : Bytes) :
    (p >>= k).run (w a ++ rest) = (k a).run rest := bind_ok (h a rest ha)

theorem Inverts.times (h : Inverts p w id good) (n : ℕ) :
    Inverts (times n p) (fun l => l.flatMap w) id (fun l => l.length = n ∧ ∀ a ∈ l, good a) := by
  induction n with
  | zero =>
    rintro v rest ⟨he, -⟩
    rw [List.length_eq_zero_iff.mp he]
    rfl
  | succ n ih =>
    rintro v rest ⟨he, hg⟩
    cases v with
    | nil => cases he
    | cons a l =>
      obtain ⟨ha, hl⟩ := List.forall_mem_cons.mp hg
      dsimp only
      rw [List.flatMap_cons, List.append_assoc]
      refine (h.bind ha _).trans ?_
      rw [ih.bind ⟨Nat.succ.inj he, hl⟩]
      rfl

theorem Inverts.whole (h : Inverts p w id good) {a : α} (ha : good a) : whole e p (w a) = .ok a := by
  have hr := h a [] ha
  rw [List.append_nil] at hr
  rw [Reader.whole, hr]
  rfl

theorem Inverts.timesFrom {p : σ → Reader ε (α × σ)} {R : σ → α → σ → Prop}
    (hp : ∀ s, Inverts (p s) (fun x => w x.1) id fun x => R s x.1 x.2) (n : ℕ) (s : σ) :
    Inverts (timesFrom p n s) (fun x => x.1.flatMap w) id (fun x => x.1.length = n ∧ Chain R s x.1 x.2) := by
  rintro ⟨l, s'⟩ rest ⟨rfl, hl⟩
  induction l generalizing s with
  | nil =>
    obtain rfl : s' = s := hl
    rfl
  | cons a l ih =>
    obtain ⟨mid, ha, hl⟩ := hl
    dsimp only
    rw [List.flatMap_cons, List.append_assoc]
    refine ((hp s).bind (a := (a, mid)) ha _).trans ?_
    rw [bind_ok (ih mid hl)]
    rfl

end Inverts

section Codes

variable {loose : Prop} {p : Reader ε α} {w : α → Bytes} {good : α → Prop} {e : ε}

theorem Codes.reads (h : Codes p w good) : Reads loose p [] w good := by
  intro bs v rest hr
  obtain ⟨hg, rfl⟩ := (h bs v rest).mp hr
  exact ⟨hg, w v, rfl, .of_eq rfl⟩

theorem Codes.inverts (h : Codes p w good) : Inverts p w id good := fun v rest hg => (h _ v rest).mpr ⟨hg, rfl⟩

theorem Codes.laws (h : Codes p w good) : Reads loose p [] w good ∧ Inverts p w id good := ⟨h.reads, h.inverts⟩

theorem Codes.of_laws (hr : Reads False p [] w good) (hi : Inverts p w id good) : Codes p w good := by
  intro bs v rest
  constructor
  · intro h
    obtain ⟨hg, used, rfl, hs⟩ := hr bs v rest h
    have hu : w v = used := hs.2.resolve_left id
    exact ⟨hg, by rw [hu]⟩
  · rintro ⟨hg, rfl⟩
    exact hi v rest hg

@[simp] theorem codes_take (n : ℕ) : Codes (take e n) id (fun bs => bs.length = n) := by
  intro bs v rest
  unfold take run
  dsimp only
  constructor
  · intro h
    split at h
    · next hn =>
      cases h
      exact ⟨List.length_take_of_le hn, (List.take_append_drop n bs).symm⟩
    · cases h
  · rintro ⟨rfl, rfl⟩
    simp

@[simp] theorem codes_byte : Codes (byte e) (fun b => [b]) (fun _ => True) := by
  intro bs v rest
  cases bs <;> simp [byte, run]

@[simp] theorem codes_takeVector (n : ℕ) : Codes (takeVector e n) toList (fun _ => True) := by
  intro bs v rest
  unfold takeVector run
  dsimp only
  constructor
  · intro h
    split at h
    · cases h
      exact ⟨trivial, by simp [toList]⟩
    · cases h
  · rintro ⟨-, rfl⟩
    have hl : v.toList.length = n := length_toList
    have hle : n ≤ (v.toList ++ rest).length := by
      rw [List.length_append]
      omega
    rw [dif_pos hle, List.drop_left' hl]
    congr 2
    apply toArray_inj.mp
    dsimp only
    rw [List.take_left' hl]
    simp [toList]

theorem Codes.vector (hp : Codes p w fun _ => True) (n : ℕ) :
    Codes (vector p n) (fun v => v.toList.flatMap w) (fun _ => True) := by
  induction n with
  | zero =>
    intro bs v rest
    have hv : v = #v[] := Vector.eq_empty
    simp [Reader.vector, hv]
  | succ n ih =>
    intro bs v rest
    simp only [Reader.vector, run_bind_iff, ih, hp, true_and, run_pure, Except.ok.injEq, Prod.mk.injEq]
    constructor
    · rintro ⟨v, mid, rfl, a, mid, rfl, rfl, rfl⟩
      simp [toList_push]
    · rintro rfl
      have hv : (v.pop.push v.back).toList = v.pop.toList ++ [v.back] := toList_push
      rw [push_pop_back] at hv
      exact ⟨v.pop, _, by simp [hv], v.back, rest, rfl, push_pop_back v, rfl⟩

theorem Codes.timesFrom {p : σ → Reader ε (α × σ)} {R : σ → α → σ → Prop}
    (hp : ∀ s, Codes (p s) (fun x => w x.1) fun x => R s x.1 x.2) (n : ℕ) (s : σ) :
    Codes (timesFrom p n s) (fun x => x.1.flatMap w) (fun x => x.1.length = n ∧ Chain R s x.1 x.2) :=
  .of_laws (Reads.timesFrom (fun s => (hp s).reads) n s) (Inverts.timesFrom (fun s => (hp s).inverts) n s)

end Codes

section Numbers

def leBytes : ℕ → ℕ → Bytes
  | 0, _ => []
  | n + 1, v => UInt8.ofNat v :: leBytes n (v / 256)

def ofLe : Bytes → ℕ
  | [] => 0
  | b :: bs => b.toNat + 256 * ofLe bs

@[simp] theorem length_leBytes (n v : ℕ) : (leBytes n v).length = n := by
  induction n generalizing v with
  | zero => rfl
  | succ n ih => rw [leBytes, List.length_cons, ih]

theorem ofLe_leBytes (n v : ℕ) (h : v < 256 ^ n) : ofLe (leBytes n v) = v := by
  induction n generalizing v with
  | zero =>
    rw [pow_zero, Nat.lt_one_iff] at h
    rw [h]
    rfl
  | succ n ih =>
    have hd : v / 256 < 256 ^ n := by
      rw [Nat.div_lt_iff_lt_mul (by decide), ← pow_succ]
      exact h
    have hb : (UInt8.ofNat v).toNat = v % 256 := by simp
    rw [leBytes, ofLe, ih _ hd, hb]
    omega

theorem leBytes_ofLe (bs : Bytes) : leBytes bs.length (ofLe bs) = bs := by
  induction bs with
  | nil => rfl
  | cons b bs ih =>
    have hb : b.toNat < 256 := b.toNat_lt
    have hy : UInt8.ofNat (b.toNat + 256 * ofLe bs) = b := by
      apply UInt8.toNat_inj.mp
      rw [UInt8.toNat_ofNat']
      omega
    have hd : (b.toNat + 256 * ofLe bs) / 256 = ofLe bs := by omega
    rw [List.length_cons, ofLe, leBytes, hy, hd, ih]

theorem ofLe_lt (bs : Bytes) : ofLe bs < 256 ^ bs.length := by
  induction bs with
  | nil => exact Nat.one_pos
  | cons b bs ih =>
    have hb : b.toNat < 256 := b.toNat_lt
    rw [ofLe, List.length_cons, pow_succ]
    omega

def uint (e : ε) (n : ℕ) : Reader ε ℕ := do
  let bs ← take e n
  pure (ofLe bs)

variable {loose : Prop} {e : ε}

@[simp] theorem codes_uint (n : ℕ) : Codes (uint e n) (leBytes n) (fun v => v < 256 ^ n) := by
  intro bs v rest
  simp only [uint, run_bind_iff, codes_take, run_pure, Except.ok.injEq, Prod.mk.injEq]
  constructor
  · rintro ⟨v, mid, ⟨rfl, rfl⟩, rfl, rfl⟩
    exact ⟨ofLe_lt v, by rw [leBytes_ofLe]; rfl⟩
  · rintro ⟨hv, rfl⟩
    exact ⟨leBytes n v, rest, ⟨length_leBytes n v, rfl⟩, ofLe_leBytes n v hv, rfl⟩

def length (short long : ε) : Reader ε ℕ := do
  let count ← uint short 4
  let left ← remaining
  ensure (decide (count ≤ left)) long
  pure count

variable {short long : ε}

@[simp] theorem run_length {v : ℕ} {bs rest : Bytes} : (length short long).run bs = .ok (v, rest) ↔
    v < 2 ^ 32 ∧ v ≤ rest.length ∧ bs = leBytes 4 v ++ rest := by
  simp [length]
  tauto

theorem reads_length : Reads loose (length short long) [] (leBytes 4) (fun v => v < 2 ^ 32) := by
  intro bs v rest h
  obtain ⟨hv, -, rfl⟩ := run_length.mp h
  exact ⟨hv, _, rfl, .of_eq rfl⟩

def u32 (e : ε) : Reader ε UInt32 := do
  let v ← uint e 4
  pure (.ofNat v)

def writeU32 (v : UInt32) : Bytes := leBytes 4 v.toNat

theorem codes_u32 : Codes (u32 e) writeU32 (fun _ => True) := by
  intro bs v rest
  simp only [u32, run_bind_iff, codes_uint, run_pure, Except.ok.injEq, Prod.mk.injEq]
  constructor
  · rintro ⟨v, mid, ⟨hv, rfl⟩, rfl, rfl⟩
    rw [writeU32, UInt32.toNat_ofNat', Nat.mod_eq_of_lt (b := 2 ^ 32) hv]
    exact ⟨trivial, rfl⟩
  · rintro ⟨-, rfl⟩
    exact ⟨v.toNat, rest, ⟨v.toNat_lt, rfl⟩, UInt32.ofNat_toNat, rfl⟩

end Numbers

section Tables

/-- A counted table. Each element takes at least `least` bytes, and `rule` can refuse the count. -/
def table (short long : ε) (least : ℕ) (rule : ℕ → Option ε) (p : Reader ε α) : Reader ε (List α) := do
  let count ← length short long
  let left ← remaining
  ensure (decide (count ≤ left / least)) long
  permit (rule count)
  times count p

def writeTable (w : β → Bytes) (l : List β) : Bytes := leBytes 4 l.length ++ l.flatMap w

variable {loose : Prop} {short long : ε} {least : ℕ} {rule : ℕ → Option ε} {p : Reader ε α} {w : α → Bytes}
  {good : α → Prop}

theorem Reads.table (hp : Reads loose p [] w good) : Reads loose (table short long least rule p) [] (writeTable w)
      (fun l => l.length < 2 ^ 32 ∧ rule l.length = none ∧ ∀ a ∈ l, good a) := by
  refine reads_length.bind fun count hc => Reads.remaining fun left => Reads.ensure fun _ =>
    Reads.permit fun hr => ?_
  intro bs v rest h
  obtain ⟨⟨rfl, hg⟩, used, hbs, hw⟩ := hp.times count bs v rest h
  refine ⟨⟨hc, hr, hg⟩, used, hbs, ?_⟩
  have hb := hw.between (leBytes 4 v.length) []
  rw [List.append_nil, List.append_nil] at hb
  exact hb

theorem mul_le_length_flatMap {w : β → Bytes} {l : List β} (h : ∀ b ∈ l, least ≤ (w b).length) :
    l.length * least ≤ (l.flatMap w).length := by
  induction l with
  | nil => simp
  | cons b l ih =>
    obtain ⟨hb, hl⟩ := List.forall_mem_cons.mp h
    have hr := ih hl
    rw [List.flatMap_cons, List.length_append, List.length_cons, Nat.succ_mul]
    omega

theorem Inverts.table (hp : Inverts p w id good) (ho : 0 < least) (hw : ∀ a, good a → least ≤ (w a).length) :
    Inverts (table short long least rule p) (writeTable w) id
      (fun l => l.length < 2 ^ 32 ∧ rule l.length = none ∧ ∀ a ∈ l, good a) := by
  rintro l rest ⟨hl, hr, hg⟩
  have he := mul_le_length_flatMap fun a ha => hw a (hg a ha)
  have hs : l.length * least ≤ (l.flatMap w ++ rest).length := by
    rw [List.length_append]
    omega
  have hn : l.length ≤ l.length * least := Nat.le_mul_of_pos_right _ ho
  rw [writeTable, List.append_assoc]
  refine (bind_ok (run_length.mpr ⟨hl, hn.trans hs, rfl⟩)).trans ?_
  rw [bind_ok (run_remaining _), ensure_bind (decide_eq_true ((Nat.le_div_iff_mul_le ho).mpr hs)), hr]
  exact hp.times l.length l rest ⟨rfl, hg⟩

theorem Codes.table (hp : Codes p w good) (ho : 0 < least) (hw : ∀ a, good a → least ≤ (w a).length) :
    Codes (table short long least rule p) (writeTable w)
      (fun l => l.length < 2 ^ 32 ∧ rule l.length = none ∧ ∀ a ∈ l, good a) :=
  .of_laws hp.reads.table (hp.inverts.table ho hw)

end Tables

end Reader

end LoomV4.Lib
