import LoomV4.Abi.Bundle
import LoomV4.Lib.Steps
import LoomV4.Types.Deciders
import Mathlib.Data.List.Dedup
import Mathlib.Data.List.Destutter
import Mathlib.Data.List.Forall2
import Mathlib.Data.List.Perm.Basic
import Mathlib.Data.Prod.Lex
import Mathlib.Data.String.Basic

namespace LoomV4.Types

open List Option

inductive RowElem
  | op (name : ℕ)
  | var (param : ℕ)
deriving DecidableEq

inductive BcRow
  | op (slot : ℕ)
  | group (slot : ℕ)
  | var (param : ℕ)
deriving DecidableEq

def BcRow.le (a b : BcRow) : Bool :=
  let key : BcRow → ℕ × ℕ := fun
    | .op n => (0, n)
    | .group n => (1, n)
    | .var n => (2, n)
  (key a).1 < (key b).1 || (key a).1 = (key b).1 && (key a).2 ≤ (key b).2

abbrev AbiBundle := Abi.AbiBundle Abi.BundleTables

def rowName (B : AbiBundle) : BcRow → Option String
  | .op n => B.opName n
  | .group n => B.groupName n
  | .var _ => none

/-- The place of `Never` among the types every store starts with. -/
def NEVER : ℕ := 4

structure TypeStore where
  bundle : AbiBundle
  types : List (Shape RowElem)
  classes : List ClassMeta
  rowNames : List String
  pins : Pins

structure Ctx where
  bundle : AbiBundle
  types : List (Shape BcRow)
  classes : List ClassMeta
  pins : Pins

def Shape.rows {ρ : Type} : Shape ρ → List (List ρ)
  | .fn _ _ _ row => [row]
  | .callback _ _ _ row => [row]
  | _ => []

def Shape.lower {ρ ρ' : Type} (low : ℕ → ℕ) (row : List ρ → List ρ') : Shape ρ → Shape ρ'
  | .unit => .unit
  | .never => .never
  | .bool => .bool
  | .int => .int
  | .float => .float
  | .string => .string
  | .bytes => .bytes
  | .fileHandle => .fileHandle
  | .resourceHandle => .resourceHandle
  | .hostResource => .hostResource
  | .digest => .digest
  | .class c => .class c
  | .inst c args => .inst c (args.map low)
  | .list e => .list (low e)
  | .map k v => .map (low k) (low v)
  | .tuple elems => .tuple (elems.map low)
  | .fn params muts ret r => .fn (params.map low) muts (low ret) (row r)
  | .callback params muts ret r => .callback (params.map low) muts (low ret) (row r)
  | .var i => .var i
  | .projection base interface assoc => .projection (low base) interface assoc
  | .fault => .fault
  | .request => .request
  | .policyTable => .policyTable
  | .vm => .vm
  | .vmSnapshot => .vmSnapshot
  | .runSnapshot t => .runSnapshot (low t)
  | .run t => .run (low t)
  | .wait t => .wait (low t)
  | .pendingCall a r => .pendingCall (low a) (low r)
  | .handle m r => .handle (low m) (low r)
  | .op slot f => .op slot (low f)

namespace TypeStore

variable (S : TypeStore)

def rowElemKey (elem : RowElem) : ℕ ×ₗ String ×ₗ ℕ :=
  match elem with
  | .op n => toLex (0, toLex (S.rowNames[n]?.getD "", 0))
  | .var v => toLex (1, toLex ("", v))

def canonicalRow (row : List RowElem) : List RowElem :=
  (row.insertionSort fun a b => S.rowElemKey a ≤ S.rowElemKey b).destutter (· ≠ ·)

def rowElemIncluded (elem : RowElem) (sup : List RowElem) : Bool :=
  match elem with
  | .var v => sup.contains (.var v)
  | .op n => match S.rowNames[n]? with
    | none => false
    | some name => sup.any fun
      | .op m => S.rowNames[m]?.any (S.bundle.rowNameIncluded name)
      | .var _ => false

def rowIncluded (sub sup : List RowElem) : Bool :=
  sub.all fun elem => S.rowElemIncluded elem sup

def context : Context RowElem where
  types := S.types
  classes := S.classes
  pins := S.pins
  included := S.rowIncluded
  bottom := (· == NEVER)

def nominalClass (t : ℕ) : Option (ℕ × List ℕ) :=
  S.context.nominal t

def compatible (expected found : ℕ) : StateM Context.Memo Bool :=
  S.context.compatible expected found

def bcRowElem (elem : RowElem) : Option BcRow :=
  match elem with
  | .var v => some (.var v)
  | .op n => do
    let text ← S.rowNames[n]?
    match S.bundle.opByName text with
    | some operation => some (.op operation)
    | none => (S.bundle.groupByName text).map .group

def bcRow (row : List RowElem) : List BcRow :=
  ((row.filterMap S.bcRowElem).insertionSort fun a b => BcRow.le a b).dedup

abbrev Table := List (Shape BcRow)

def internType (ty : Shape BcRow) : StateM Table ℕ := fun table =>
  match table.idxOf? ty with
  | some i => (i, table)
  | none => (table.length, table ++ [ty])

def bcShape (bcTy : ℕ → StateM Table ℕ) : Shape RowElem → StateM Table (Shape BcRow)
  | .unit => pure .unit
  | .never => pure .never
  | .bool => pure .bool
  | .int => pure .int
  | .float => pure .float
  | .string => pure .string
  | .bytes => pure .bytes
  | .fileHandle => pure .fileHandle
  | .resourceHandle => pure .resourceHandle
  | .hostResource => pure .hostResource
  | .digest => pure .digest
  | .class c => pure (.class c)
  | .inst c args => return .inst c (← args.mapM bcTy)
  | .list e => return .list (← bcTy e)
  | .map k v => return .map (← bcTy k) (← bcTy v)
  | .tuple elems => return .tuple (← elems.mapM bcTy)
  | .fn params muts ret row => return .fn (← params.mapM bcTy) muts (← bcTy ret) (S.bcRow row)
  | .callback params muts ret row =>
    return .callback (← params.mapM bcTy) muts (← bcTy ret) (S.bcRow row)
  | .var i => pure (.var i)
  | .projection base interface assoc => return .projection (← bcTy base) interface assoc
  | .fault => pure .fault
  | .request => pure .request
  | .policyTable => pure .policyTable
  | .vm => pure .vm
  | .vmSnapshot => pure .vmSnapshot
  | .runSnapshot t => return .runSnapshot (← bcTy t)
  | .run t => return .run (← bcTy t)
  | .wait t => return .wait (← bcTy t)
  | .pendingCall a r => return .pendingCall (← bcTy a) (← bcTy r)
  | .handle m r => return .handle (← bcTy m) (← bcTy r)
  | .op slot f => return .op slot (← bcTy f)

def bcTyFrom : ℕ → ℕ → StateM Table ℕ
  | 0, _ => pure 0
  | depth + 1, t => match S.types[t]? with
    | none => pure 0
    | some ty => do internType (← S.bcShape (bcTyFrom depth) ty)

def bcTy (t : ℕ) : StateM Table ℕ :=
  S.bcTyFrom (t + 1) t

end TypeStore

namespace Ctx

variable (V : Ctx)

def rowElemIncluded (elem : BcRow) (sup : List BcRow) : Bool :=
  match elem with
  | .var v => sup.contains (.var v)
  | _ => match rowName V.bundle elem with
    | none => false
    | some name => sup.any fun s => (rowName V.bundle s).any (V.bundle.rowNameIncluded name)

def rowIncluded (sub sup : List BcRow) : Bool :=
  sub.all fun elem => V.rowElemIncluded elem sup

def context : Context BcRow where
  types := V.types
  classes := V.classes
  pins := V.pins
  included := V.rowIncluded
  bottom := fun _ => false

def asInstance (t : ℕ) : Option (ℕ × List ℕ) :=
  V.context.nominal t

def isSubtype (found expected : ℕ) : Option Bool :=
  V.context.isSubtype found expected

end Ctx

namespace TypeStore

variable (S : TypeStore)

/-- The entry `i` of a table is the type `t` of the store, lowered with all it is built from. -/
inductive Lowered (table : Table) : ℕ → ℕ → Prop
  | mk {t i : ℕ} {s : Shape RowElem} (low : ℕ → ℕ) (hs : S.types[t]? = some s)
      (hi : table[i]? = some (s.lower low S.bcRow)) (hc : ∀ c ∈ s.children, Lowered table c (low c)) :
      Lowered table t i

/-- The type is there with all it is built from, and `Never` is no part of it. -/
inductive NeverFree : ℕ → Prop
  | mk {t : ℕ} {s : Shape RowElem} (hs : S.types[t]? = some s) (hne : s ≠ .never)
      (hc : ∀ c ∈ s.children, NeverFree c) : NeverFree t

/-- What a store keeps to: types are entered once and behind their parts, rows are in canonical order and
name what the bundle has, and no class is above itself. -/
structure Formed : Prop where
  context : S.context.Formed
  nodup : S.types.Nodup
  names : S.rowNames.Nodup
  canonical : ∀ (t : ℕ) s, S.types[t]? = some s → ∀ r ∈ s.rows, S.canonicalRow r = r
  known : ∀ (t : ℕ) s, S.types[t]? = some s → ∀ r ∈ s.rows, ∀ e ∈ r, (S.bcRowElem e).isSome

variable {S}

variable {r r' : List RowElem}

theorem pairwise_of_canonical (hk : ∀ a ∈ r, ∀ b ∈ r, S.rowElemKey a = S.rowElemKey b → a = b)
    (h : S.canonicalRow r = r) : r.Pairwise fun a b => S.rowElemKey a < S.rowElemKey b := by
  have hsorted := (pairwise_insertionSort (fun a b => S.rowElemKey a ≤ S.rowElemKey b) r).sublist
    (destutter_sublist (· ≠ ·) _)
  have hchain := isChain_destutter (· ≠ ·) (r.insertionSort fun a b => S.rowElemKey a ≤ S.rowElemKey b)
  rw [canonicalRow] at h
  rw [h] at hsorted hchain
  clear h
  induction r with
  | nil => exact .nil
  | cons a r ih =>
    obtain ⟨ha, hr⟩ := pairwise_cons.mp hsorted
    have htail := ih (fun a ha b hb => hk a (mem_cons_of_mem _ ha) b (mem_cons_of_mem _ hb)) hr hchain.tail
    refine pairwise_cons.mpr ⟨fun c hc => ?_, htail⟩
    cases r with
    | nil => cases hc
    | cons b r =>
      -- the next element is another one, and its key is at most the key of those that follow
      have hab : S.rowElemKey a < S.rowElemKey b :=
        lt_of_le_of_ne (ha b mem_cons_self) fun he =>
          (isChain_cons_cons.mp hchain).1 (hk a mem_cons_self b (mem_cons_of_mem _ mem_cons_self) he)
      rcases mem_cons.mp hc with rfl | hc
      · exact hab
      · exact hab.trans_le ((pairwise_cons.mp hr).1 c hc)

theorem Formed.rowElemKey_inj (hS : S.Formed) {e e' : RowElem} (he : (S.bcRowElem e).isSome)
    (he' : (S.bcRowElem e').isSome) (h : S.rowElemKey e = S.rowElemKey e') : e = e' := by
  have hop : ∀ n, (S.bcRowElem (.op n)).isSome → ∃ text, S.rowNames[n]? = some text := by
    intro n hn
    obtain ⟨b, hb⟩ := isSome_iff_exists.mp hn
    obtain ⟨text, ht, -⟩ := bind_eq_some_iff.mp hb
    exact ⟨text, ht⟩
  cases e with
  | var v =>
    cases e' with
    | var v' => simpa [rowElemKey] using h
    | op n => simp [rowElemKey] at h
  | op n =>
    cases e' with
    | var v' => simp [rowElemKey] at h
    | op n' =>
      obtain ⟨text, ht⟩ := hop n he
      obtain ⟨text', ht'⟩ := hop n' he'
      obtain rfl : text = text' := by simpa [rowElemKey, ht, ht'] using h
      rw [(getElem?_inj (Lib.lt_of_getElem? ht) hS.names).mp (ht.trans ht'.symm)]

theorem Formed.eq_of_mem_iff (hS : S.Formed) {t u : ℕ} {s s' : Shape RowElem} (ht : S.types[t]? = some s)
    (hu : S.types[u]? = some s') (hr : r ∈ s.rows) (hr' : r' ∈ s'.rows) (h : ∀ e, e ∈ r ↔ e ∈ r') : r = r' := by
  have hpairwise : ∀ {t : ℕ} {s : Shape RowElem} {r : List RowElem}, S.types[t]? = some s → r ∈ s.rows →
      r.Pairwise fun a b => S.rowElemKey a < S.rowElemKey b := fun ht hr =>
    pairwise_of_canonical (fun a ha b hb => hS.rowElemKey_inj (hS.known _ _ ht _ hr a ha) (hS.known _ _ ht _ hr b hb))
      (hS.canonical _ _ ht _ hr)
  have hnodup : ∀ {r : List RowElem}, (r.Pairwise fun a b => S.rowElemKey a < S.rowElemKey b) → r.Nodup := fun hr =>
    hr.imp fun hlt he => (he ▸ hlt).ne rfl
  have h₁ := hpairwise ht hr
  have h₂ := hpairwise hu hr'
  exact ((perm_ext_iff_of_nodup (hnodup h₁) (hnodup h₂)).mpr h).eq_of_pairwise
    (fun a b _ _ hab hba => absurd hab hba.asymm) h₁ h₂

variable {b : BcRow}

theorem mem_bcRow {row : List RowElem} : b ∈ S.bcRow row ↔ ∃ e ∈ row, S.bcRowElem e = some b := by
  simp [bcRow, mem_dedup]

theorem exists_rowName {n : ℕ} (h : S.bcRowElem (.op n) = some b) :
    ∃ text, S.rowNames[n]? = some text ∧ rowName S.bundle b = some text := by
  simp only [bcRowElem, bind_eq_bind, bind_eq_some_iff] at h
  obtain ⟨text, ht, h⟩ := h
  refine ⟨text, ht, ?_⟩
  split at h
  · rename_i slot hs
    obtain rfl := some.inj h
    exact Abi.AbiBundle.opName_of_opByName hs
  · obtain ⟨slot, hs, rfl⟩ := map_eq_some_iff.mp h
    exact Abi.AbiBundle.groupName_of_groupByName hs

theorem Formed.bcRowElem_inj (hS : S.Formed) {e e' : RowElem}
    (h : S.bcRowElem e = some b) (h' : S.bcRowElem e' = some b) : e = e' := by
  cases e with
  | var v =>
    obtain rfl := some.inj h
    cases e' with
    | var v' => simpa [bcRowElem] using h'.symm
    | op n =>
      obtain ⟨text, -, hn⟩ := exists_rowName h'
      cases hn
  | op n =>
    obtain ⟨text, ht, hn⟩ := exists_rowName h
    cases e' with
    | var v =>
      obtain rfl := some.inj h'
      cases hn
    | op n' =>
      obtain ⟨text', ht', hn'⟩ := exists_rowName h'
      obtain rfl := mem_unique hn hn'
      have hlt := Lib.lt_of_getElem? ht
      rw [(getElem?_inj hlt hS.names).mp (ht.trans ht'.symm)]

theorem Formed.bcRow_inj (hS : S.Formed) {t u : ℕ} {s s' : Shape RowElem}
    (ht : S.types[t]? = some s) (hu : S.types[u]? = some s')
    (hr : r ∈ s.rows) (hr' : r' ∈ s'.rows) (h : S.bcRow r = S.bcRow r') : r = r' := by
  have one : ∀ {t u : ℕ} {s s' : Shape RowElem}, S.types[t]? = some s → S.types[u]? = some s' →
      ∀ {r r' : List RowElem}, r ∈ s.rows → r' ∈ s'.rows → S.bcRow r = S.bcRow r' → ∀ e ∈ r, e ∈ r' := by
    intro t u s s' ht hu r r' hr hr' h e he
    obtain ⟨b, hb⟩ := isSome_iff_exists.mp (hS.known t s ht r hr e he)
    obtain ⟨e', he', hb'⟩ := mem_bcRow.mp (h ▸ mem_bcRow.mpr ⟨e, he, hb⟩)
    exact hS.bcRowElem_inj hb hb' ▸ he'
  exact hS.eq_of_mem_iff ht hu hr hr' fun e =>
    ⟨one ht hu hr hr' h e, one hu ht hr' hr h.symm e⟩

theorem Formed.rowElemIncluded_eq (hS : S.Formed) {V : Ctx} (hV : V.bundle = S.bundle)
    {e : RowElem} (hb : S.bcRowElem e = some b) {sup : List RowElem} (hu : ∀ e ∈ sup, (S.bcRowElem e).isSome) :
    S.rowElemIncluded e sup = V.rowElemIncluded b (S.bcRow sup) := by
  cases e with
  | var v =>
    obtain rfl := some.inj hb
    rw [Bool.eq_iff_iff, rowElemIncluded, Ctx.rowElemIncluded, contains_iff_mem, contains_iff_mem]
    constructor
    · exact fun h => mem_bcRow.mpr ⟨_, h, rfl⟩
    · intro h
      obtain ⟨e, he, heb⟩ := mem_bcRow.mp h
      exact hS.bcRowElem_inj heb hb ▸ he
  | op n =>
    obtain ⟨text, ht, hn⟩ := exists_rowName hb
    have hV' : V.rowElemIncluded b (S.bcRow sup) = (S.bcRow sup).any fun s =>
        (rowName S.bundle s).any (S.bundle.rowNameIncluded text) := by
      cases b with
      | var v => cases hn
      | op o => simp only [Ctx.rowElemIncluded, hV, hn]
      | group g => simp only [Ctx.rowElemIncluded, hV, hn]
    rw [hV', Bool.eq_iff_iff, List.any_eq_true]
    simp only [rowElemIncluded, ht, List.any_eq_true]
    constructor
    · rintro ⟨e, he, h⟩
      cases e with
      | var v => cases h
      | op m =>
        obtain ⟨s, hs⟩ := isSome_iff_exists.mp (hu _ he)
        obtain ⟨text', ht', hn'⟩ := exists_rowName hs
        refine ⟨s, mem_bcRow.mpr ⟨_, he, hs⟩, ?_⟩
        rwa [hn', ← ht']
    · rintro ⟨s, hs, h⟩
      obtain ⟨e, he, hes⟩ := mem_bcRow.mp hs
      refine ⟨e, he, ?_⟩
      cases e with
      | var v =>
        obtain rfl := some.inj hes
        cases h
      | op m =>
        obtain ⟨text', ht', hn'⟩ := exists_rowName hes
        rw [hn', ← ht'] at h
        exact h

theorem Formed.rowIncluded_eq (hS : S.Formed) {V : Ctx} (hV : V.bundle = S.bundle)
    {sub sup : List RowElem} (hu : ∀ e ∈ sub, (S.bcRowElem e).isSome) (hs : ∀ e ∈ sup, (S.bcRowElem e).isSome) :
    S.rowIncluded sub sup = V.rowIncluded (S.bcRow sub) (S.bcRow sup) := by
  rw [Bool.eq_iff_iff, rowIncluded, Ctx.rowIncluded, List.all_eq_true, List.all_eq_true]
  constructor
  · intro h b hb
    obtain ⟨e, he, heb⟩ := mem_bcRow.mp hb
    rw [← hS.rowElemIncluded_eq hV heb hs]
    exact h e he
  · intro h e he
    obtain ⟨b, hb⟩ := isSome_iff_exists.mp (hu e he)
    rw [hS.rowElemIncluded_eq hV hb hs]
    exact h b (mem_bcRow.mpr ⟨e, he, hb⟩)

end TypeStore

section Lower

variable {ρ ρ' : Type} {low up : ℕ → ℕ} {row : List ρ → List ρ'} {inv : List ρ' → List ρ}

theorem children_lower (s : Shape ρ) : (s.lower low row).children = s.children.map low := by
  cases s <;> simp [Shape.lower, Shape.children]

theorem map_comp_eq {xs : List ℕ} (h : ∀ c ∈ xs, up (low c) = c) : xs.map (up ∘ low) = xs :=
  (map_congr_left h).trans (List.map_id xs)

theorem lower_lower {s : Shape ρ} (hc : ∀ c ∈ s.children, up (low c) = c)
    (hr : ∀ r ∈ s.rows, inv (row r) = r) : (s.lower low row).lower up inv = s := by
  cases s <;> simp_all [Shape.lower, Shape.children, Shape.rows]
  all_goals
    apply map_comp_eq
    grind

theorem lower_congr {low' : ℕ → ℕ} {s : Shape ρ} (h : ∀ c ∈ s.children, low c = low' c) :
    s.lower low row = s.lower low' row := by
  cases s <;> simp_all [Shape.lower, Shape.children]

theorem nominalOf_lower (pins : Pins) (s : Shape ρ) : nominalOf pins (s.lower low row)
    = (nominalOf pins s).map fun p => (p.1, p.2.map low) := by
  cases s <;> simp [Shape.lower, nominalOf, Function.comp_def]

theorem nominalOf_children {pins : Pins} {s : Shape ρ} {a : ℕ} {xs : List ℕ}
    (h : nominalOf pins s = some (a, xs)) : ∀ x ∈ xs, x ∈ s.children := by
  cases s <;> simp_all [nominalOf, Shape.children]

theorem arrow_lower (s : Shape ρ) : (s.lower low row).arrow?
    = s.arrow?.map fun a => (a.1, a.2.1.map low, a.2.2.1, low a.2.2.2.1, row a.2.2.2.2) := by
  cases s <;> rfl

end Lower

namespace TypeStore

variable {S : TypeStore} {table : Table}

variable {t i : ℕ}

theorem Lowered.mono {table' : Table} (hp : table <+: table') (h : S.Lowered table t i) : S.Lowered table' t i := by
  induction h with
  | mk low hs hi _ ih =>
    obtain ⟨ext, rfl⟩ := hp
    have hlt := Lib.lt_of_getElem? hi
    exact .mk low hs (by rw [getElem?_append_left hlt]; exact hi) ih

theorem Lowered.lt_length (h : S.Lowered table t i) : i < table.length := by
  cases h with
  | mk _ _ hi _ => exact Lib.lt_of_getElem? hi

theorem Lowered.unique (hn : table.Nodup) {j : ℕ} (h : S.Lowered table t i) (h' : S.Lowered table t j) : i = j := by
  induction h generalizing j with
  | @mk t i s low hs hi _ ih =>
    obtain ⟨low', hs', hi', hc'⟩ := h'
    obtain rfl := mem_unique hs hs'
    have hl : s.lower low S.bcRow = s.lower low' S.bcRow :=
      lower_congr fun c hc => ih c hc (hc' c hc)
    have hlt := Lib.lt_of_getElem? hi
    exact (getElem?_inj hlt hn).mp (hi.trans (hl ▸ hi'.symm))

theorem Formed.lowered_inj (hS : S.Formed) : ∀ {u i : ℕ}, S.Lowered table t i → S.Lowered table u i → u = t := by
  induction t using Nat.strong_induction_on with
  | _ t ih =>
    rintro u i ⟨low, hs, hi, hc⟩ ⟨low', hs', hi', hc'⟩
    rename_i s s'
    have hz : s.lower low S.bcRow = s'.lower low' S.bcRow := mem_unique hi hi'
    classical
    let up : ℕ → ℕ := fun i => if h : ∃ t, S.Lowered table t i then h.choose else 0
    let inv : List BcRow → List RowElem := fun r =>
      if h : ∃ q, (∃ (t : ℕ) (s : Shape RowElem), S.types[t]? = some s ∧ q ∈ s.rows) ∧ S.bcRow q = r
      then h.choose else []
    have hup : ∀ c ∈ s.children, up (low c) = c := by
      intro c hcs
      have hex : ∃ t, S.Lowered table t (low c) := ⟨c, hc c hcs⟩
      have : up (low c) = hex.choose := dif_pos hex
      rw [this]
      exact ih c (hS.context.below t s hs c hcs) (hc c hcs) hex.choose_spec
    have hup' : ∀ c ∈ s'.children, up (low' c) = c := by
      intro c hcs
      have hm : low' c ∈ (s.lower low S.bcRow).children := by
        rw [hz, children_lower]
        exact List.mem_map_of_mem hcs
      rw [children_lower] at hm
      obtain ⟨d, hd, hl⟩ := List.mem_map.mp hm
      rw [← hl, hup d hd]
      exact (ih d (hS.context.below t s hs d hd) (hc d hd) (hl ▸ hc' c hcs)).symm
    have hn : ∀ {t : ℕ} {s : Shape RowElem}, S.types[t]? = some s → ∀ r ∈ s.rows, inv (S.bcRow r) = r := by
      intro t s hs r hr
      have hex : ∃ q, (∃ (t : ℕ) (s : Shape RowElem), S.types[t]? = some s ∧ q ∈ s.rows) ∧
          S.bcRow q = S.bcRow r := ⟨r, ⟨t, s, hs, hr⟩, rfl⟩
      have hch : inv (S.bcRow r) = hex.choose := dif_pos hex
      obtain ⟨⟨t', s', hs', hr'⟩, heq⟩ := hex.choose_spec
      rw [hch]
      exact hS.bcRow_inj hs' hs hr' hr heq
    have heq : s = s' := by
      rw [← lower_lower hup (hn hs), hz, lower_lower hup' (hn hs')]
    subst heq
    have hlt := Lib.lt_of_getElem? hs'
    exact (getElem?_inj hlt hS.nodup).mp (hs'.trans hs.symm)

open Classical in
noncomputable def lowOf (S : TypeStore) (table : Table) (t : ℕ) : ℕ :=
  if h : ∃ i, S.Lowered table t i then h.choose else 0

theorem Lowered.lowOf_eq (hn : table.Nodup) (h : S.Lowered table t i) : S.lowOf table t = i := by
  have hex : ∃ i, S.Lowered table t i := ⟨i, h⟩
  have : S.lowOf table t = hex.choose := dif_pos hex
  rw [this]
  exact hex.choose_spec.unique hn h

variable {xs : List ℕ}

theorem map_lowOf (hn : table.Nodup) {is : List ℕ} (h : List.Forall₂ (S.Lowered table) xs is) :
    xs.map (S.lowOf table) = is := by
  induction h with
  | nil => rfl
  | cons hx _ ih => rw [map_cons, hx.lowOf_eq hn, ih]

structure Interned {ρ : Type} (table : List (Shape ρ)) : Prop where
  nodup : table.Nodup
  below : ∀ (i : ℕ) s, table[i]? = some s → ∀ c ∈ s.children, c < i
  marked : ∀ (i : ℕ) s callback params muts ret row, table[i]? = some s →
    s.arrow? = some (callback, params, muts, ret, row) → muts.length = params.length

def Grows {α : Type} (x : StateM Table α) (Q : α → Table → Prop) : Prop :=
  ∀ table, Interned table → table <+: (x table).2 ∧ Interned (x table).2 ∧ Q (x table).1 (x table).2

theorem grows_pure {α : Type} {a : α} {Q : α → Table → Prop}
    (h : ∀ table : Table, table.Nodup → Q a table) : Grows (pure a) Q :=
  fun table hn => ⟨prefix_rfl, hn, h table hn.nodup⟩

theorem Grows.bind {α β : Type} {x : StateM Table α} {g : α → StateM Table β}
    {P : α → Table → Prop} {Q : β → Table → Prop} (hx : Grows x P)
    (hg : ∀ a, Grows (g a) fun b table => (∀ table0, table0 <+: table → P a table0 → Q b table)) :
    Grows (x >>= g) Q := by
  intro table hn
  obtain ⟨hp, hn', hP⟩ := hx table hn
  obtain ⟨hp', hn'', hQ⟩ := hg (x table).1 (x table).2 hn'
  exact ⟨hp.trans hp', hn'', hQ _ hp' hP⟩

theorem getElem?_concat {α : Type} {xs : List α} {x y : α} (h : (xs ++ [x])[i]? = some y) :
    xs[i]? = some y ∨ i = xs.length ∧ y = x := by
  by_cases hlt : i < xs.length
  · rw [getElem?_append_left hlt] at h
    exact .inl h
  · rw [getElem?_append_right (by omega), getElem?_singleton] at h
    split at h
    · exact .inr ⟨by omega, (some.inj h).symm⟩
    · cases h

theorem Interned.concat {ρ : Type} {table : List (Shape ρ)} (hn : Interned table) {ty : Shape ρ} (hw : ty ∉ table)
    (he : ∀ c ∈ ty.children, c < table.length)
    (hm : ∀ callback params muts ret row, ty.arrow? = some (callback, params, muts, ret, row) →
      muts.length = params.length) : Interned (table ++ [ty]) where
  nodup := nodup_append.mpr ⟨hn.nodup, nodup_singleton ty, fun a ha b hb hab => by
    obtain rfl := mem_singleton.mp hb
    exact hw (hab ▸ ha)⟩
  below i s hi c hc := by
    rcases getElem?_concat hi with hi | ⟨rfl, rfl⟩
    · exact hn.below i s hi c hc
    · exact he c hc
  marked i s callback params muts ret row hi hs := by
    rcases getElem?_concat hi with hi | ⟨rfl, rfl⟩
    · exact hn.marked i s callback params muts ret row hi hs
    · exact hm callback params muts ret row hs

theorem Interned.internType (hn : Interned table) {ty : Shape BcRow} (hb : ∀ c ∈ ty.children, c < table.length)
    (hm : ∀ callback params muts ret row, ty.arrow? = some (callback, params, muts, ret, row) →
      muts.length = params.length) :
    table <+: (internType ty table).2 ∧ Interned (internType ty table).2 ∧
      (internType ty table).2[(internType ty table).1]? = some ty := by
  unfold TypeStore.internType
  split
  · rename_i i hi
    obtain ⟨hlt, heq, -⟩ := findIdx?_eq_some_iff_getElem.mp hi
    exact ⟨prefix_rfl, hn, List.getElem?_eq_some_iff.mpr ⟨hlt, eq_of_beq heq⟩⟩
  · rename_i hi
    have he : ty ∉ table := fun h => by
      simpa using findIdx?_eq_none_iff.mp hi ty h
    exact ⟨prefix_append _ _, hn.concat he hb hm, by simp⟩

variable {f : ℕ → StateM Table ℕ}

theorem grows_mapM (h : ∀ x ∈ xs, Grows (f x) fun i table => S.Lowered table x i) :
    Grows (xs.mapM f) fun is table => List.Forall₂ (S.Lowered table) xs is := by
  induction xs with
  | nil => exact grows_pure fun _ _ => .nil
  | cons x xs ih =>
    rw [mapM_cons]
    apply (h x mem_cons_self).bind
    intro i
    apply (ih fun y hy => h y (mem_cons_of_mem _ hy)).bind
    intro is
    exact grows_pure fun table _ _ hp his table0 hp0 hi =>
      .cons (hi.mono hp0) (his.imp fun _ _ hl => hl.mono hp)

def ShapeLowered (S : TypeStore) (s : Shape RowElem) (s' : Shape BcRow) (table : Table) : Prop :=
  s' = s.lower (S.lowOf table) S.bcRow ∧ ∀ c ∈ s.children, ∃ i, S.Lowered table c i

variable {s : Shape RowElem}

theorem grows_one {c : ℕ} {mk : ℕ → Shape BcRow}
    (hf : Grows (f c) fun i table => S.Lowered table c i) (hs : s.children = [c])
    (hmk : ∀ low, s.lower low S.bcRow = mk (low c)) : Grows (do return mk (← f c)) (ShapeLowered S s) := by
  apply hf.bind
  intro i
  refine grows_pure fun table hn table0 hp hi => ?_
  have hi' := hi.mono hp
  refine ⟨by rw [hmk, hi'.lowOf_eq hn], fun d hd => ?_⟩
  rw [hs, mem_singleton] at hd
  exact ⟨i, hd ▸ hi'⟩

theorem grows_two {c d : ℕ} {mk : ℕ → ℕ → Shape BcRow} (hc : Grows (f c) fun i table => S.Lowered table c i)
    (hd : Grows (f d) fun i table => S.Lowered table d i) (hs : s.children = [c, d])
    (hmk : ∀ low, s.lower low S.bcRow = mk (low c) (low d)) :
    Grows (do return mk (← f c) (← f d)) (ShapeLowered S s) := by
  apply hc.bind
  intro i
  apply hd.bind
  intro j
  refine grows_pure fun table hn table1 hp1 hj table0 hp0 hi => ?_
  have hi' := hi.mono hp0
  have hj' := hj.mono hp1
  refine ⟨by rw [hmk, hi'.lowOf_eq hn, hj'.lowOf_eq hn], fun e he => ?_⟩
  rw [hs] at he
  rcases mem_cons.mp he with rfl | he
  · exact ⟨i, hi'⟩
  · exact ⟨j, mem_singleton.mp he ▸ hj'⟩

theorem exists_of_forall₂ {is : List ℕ} (h : List.Forall₂ (S.Lowered table) xs is) {c : ℕ}
    (hc : c ∈ xs) : ∃ i, S.Lowered table c i := by
  induction h with
  | nil => cases hc
  | cons hx _ ih =>
    rcases mem_cons.mp hc with rfl | hc
    · exact ⟨_, hx⟩
    · exact ih hc

theorem grows_many {cs : List ℕ}
    {mk : List ℕ → Shape BcRow} (hf : ∀ c ∈ cs, Grows (f c) fun i table => S.Lowered table c i)
    (hs : s.children = cs) (hmk : ∀ low, s.lower low S.bcRow = mk (cs.map low)) :
    Grows (do return mk (← cs.mapM f)) (ShapeLowered S s) := by
  apply (grows_mapM hf).bind
  intro is
  refine grows_pure fun table hn table0 hp his => ?_
  have his' : Forall₂ (S.Lowered table) cs is := his.imp fun _ _ hl => hl.mono hp
  exact ⟨by rw [hmk, map_lowOf hn his'], fun c hc => exists_of_forall₂ his' (hs ▸ hc)⟩

theorem grows_arrow {cs : List ℕ} {r : ℕ}
    {mk : List ℕ → ℕ → Shape BcRow} (hf : ∀ c ∈ cs, Grows (f c) fun i table => S.Lowered table c i)
    (hr : Grows (f r) fun i table => S.Lowered table r i) (hs : s.children = cs ++ [r])
    (hmk : ∀ low, s.lower low S.bcRow = mk (cs.map low) (low r)) :
    Grows (do return mk (← cs.mapM f) (← f r)) (ShapeLowered S s) := by
  apply (grows_mapM hf).bind
  intro is
  apply hr.bind
  intro j
  refine grows_pure fun table hn table1 hp1 hj table0 hp0 his => ?_
  have his' : Forall₂ (S.Lowered table) cs is := his.imp fun _ _ hl => hl.mono hp0
  have hj' := hj.mono hp1
  refine ⟨by rw [hmk, map_lowOf hn his', hj'.lowOf_eq hn], fun c hc => ?_⟩
  rw [hs] at hc
  rcases mem_append.mp hc with hc | hc
  · exact exists_of_forall₂ his' hc
  · exact ⟨j, mem_singleton.mp hc ▸ hj'⟩

theorem grows_bcShape (s : Shape RowElem) (hf : ∀ c ∈ s.children, Grows (f c) fun i table => S.Lowered table c i) :
    Grows (S.bcShape f s) (ShapeLowered S s) := by
  have one : ∀ {c d : ℕ}, c ∈ [c, d] ∧ d ∈ [c, d] := by simp
  cases s with
  | inst c args => exact grows_many hf rfl fun _ => rfl
  | tuple elems => exact grows_many hf rfl fun _ => rfl
  | list e => exact grows_one (hf e mem_cons_self) rfl fun _ => rfl
  | projection e interface assoc => exact grows_one (hf e mem_cons_self) rfl fun _ => rfl
  | run e => exact grows_one (hf e mem_cons_self) rfl fun _ => rfl
  | wait e => exact grows_one (hf e mem_cons_self) rfl fun _ => rfl
  | runSnapshot e => exact grows_one (hf e mem_cons_self) rfl fun _ => rfl
  | op slot e => exact grows_one (hf e mem_cons_self) rfl fun _ => rfl
  | map k v => exact grows_two (hf k one.1) (hf v one.2) rfl fun _ => rfl
  | pendingCall k v => exact grows_two (hf k one.1) (hf v one.2) rfl fun _ => rfl
  | handle k v => exact grows_two (hf k one.1) (hf v one.2) rfl fun _ => rfl
  | fn params muts ret row =>
    exact grows_arrow (fun c hc => hf c (mem_append_left _ hc))
      (hf ret (mem_append_right _ mem_cons_self)) rfl fun _ => rfl
  | callback params muts ret row =>
    exact grows_arrow (fun c hc => hf c (mem_append_left _ hc))
      (hf ret (mem_append_right _ mem_cons_self)) rfl fun _ => rfl
  | _ => exact grows_pure fun _ _ => ⟨rfl, nofun⟩

theorem Formed.internType_lowered (hS : S.Formed) {s' : Shape BcRow}
    (hs : S.types[t]? = some s) (hn : Interned table) (h : ShapeLowered S s s' table) :
    table <+: (internType s' table).2 ∧ Interned (internType s' table).2 ∧
      S.Lowered (internType s' table).2 t (internType s' table).1 := by
  obtain ⟨rfl, hc⟩ := h
  have hl : ∀ c ∈ s.children, S.Lowered table c (S.lowOf table c) := by
    intro c hm
    obtain ⟨j, hj⟩ := hc c hm
    rwa [hj.lowOf_eq hn.nodup]
  have hb : ∀ c ∈ (s.lower (S.lowOf table) S.bcRow).children, c < table.length := by
    intro c hm
    rw [children_lower] at hm
    obtain ⟨d, hd, rfl⟩ := List.mem_map.mp hm
    exact (hl d hd).lt_length
  obtain ⟨hp, hn', hi⟩ := hn.internType hb (by
    intro callback params muts ret row hr
    rw [arrow_lower] at hr
    obtain ⟨⟨cb, ps, ms, r, q⟩, ha, heq⟩ := map_eq_some_iff.mp hr
    simp only [Prod.mk.injEq] at heq
    obtain ⟨-, rfl, rfl, -⟩ := heq
    rw [length_map]
    exact hS.context.marked t s cb ps ms r q hs ha)
  exact ⟨hp, hn', .mk _ hs hi fun c hm => (hl c hm).mono hp⟩

theorem Formed.grows_bcTyFrom (hS : S.Formed) (depth : ℕ) : ∀ t, t < depth → t < S.types.length →
    Grows (S.bcTyFrom depth t) fun i table => S.Lowered table t i := by
  induction depth with
  | zero => nofun
  | succ depth ih =>
    intro t ht hl table hn
    have hs : S.types[t]? = some S.types[t] := getElem?_eq_getElem hl
    simp only [bcTyFrom, hs]
    have below := hS.context.below t _ hs
    obtain ⟨hp, hn', h⟩ := grows_bcShape (S := S) S.types[t] (fun c hc =>
      ih c (by have := below c hc; omega) (Nat.lt_trans (below c hc) hl)) table hn
    obtain ⟨hp', hn'', hi⟩ := hS.internType_lowered hs hn' h
    exact ⟨hp.trans hp', hn'', hi⟩

theorem Formed.grows_bcTy (hS : S.Formed) (ht : t < S.types.length) :
    Grows (S.bcTy t) fun i table => S.Lowered table t i :=
  hS.grows_bcTyFrom _ t (Nat.lt_succ_self t) ht

end TypeStore

end LoomV4.Types
