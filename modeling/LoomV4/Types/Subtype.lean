import Mathlib.Data.List.Basic
import Mathlib.Algebra.Ring.Nat
import Mathlib.Data.List.Zip

namespace LoomV4.Types

open List Option

inductive Shape (ρ : Type)
  | unit | bool | int | float | string | never | bytes | digest
  | class (c : ℕ)
  | inst (c : ℕ) (args : List ℕ)
  | list (elem : ℕ)
  | map (key value : ℕ)
  | tuple (elems : List ℕ)
  | fn (params : List ℕ) (muts : List Bool) (ret : ℕ) (row : List ρ)
  | callback (params : List ℕ) (muts : List Bool) (ret : ℕ) (row : List ρ)
  | var (param : ℕ)
  | projection (base interface assoc : ℕ)
  | fault | request | policyTable | vm
  | run (result : ℕ)
  | wait (result : ℕ)
  | pendingCall (args reply : ℕ)
  | handle (message result : ℕ)
  | vmSnapshot
  | runSnapshot (result : ℕ)
  | fileHandle | resourceHandle | hostResource
  | op (slot fn : ℕ)
deriving DecidableEq

structure Pins where
  unit : Option ℕ
  bool : Option ℕ
  int : Option ℕ
  float : Option ℕ
  string : Option ℕ
  bytes : Option ℕ
  fileHandle : Option ℕ
  list : Option ℕ
  map : Option ℕ
  tuples : List (Option ℕ)

def Pins.tuple (pins : Pins) (arity : ℕ) : Option ℕ :=
  pins.tuples[arity]?.join

structure ClassMeta where
  parent : Option ℕ
  parentArgs : List ℕ
  typeParams : ℕ
deriving DecidableEq

/-- What the two subtype walks read: the types, the classes, the pins, the inclusion of effect
rows, and the types that fit everywhere. -/
structure Context (ρ : Type) where
  types : List (Shape ρ)
  classes : List ClassMeta
  pins : Pins
  included : List ρ → List ρ → Bool
  bottom : ℕ → Bool

variable {ρ : Type}

def Shape.children : Shape ρ → List ℕ
  | .inst _ args => args
  | .list e => [e]
  | .map k v => [k, v]
  | .tuple es => es
  | .fn params _ ret _ => params ++ [ret]
  | .callback params _ ret _ => params ++ [ret]
  | .projection base _ _ => [base]
  | .run t => [t]
  | .wait t => [t]
  | .pendingCall a r => [a, r]
  | .handle m r => [m, r]
  | .runSnapshot t => [t]
  | .op _ f => [f]
  | _ => []

def Shape.arrow? : Shape ρ → Option (Bool × List ℕ × List Bool × ℕ × List ρ)
  | .fn params muts ret row => some (false, params, muts, ret, row)
  | .callback params muts ret row => some (true, params, muts, ret, row)
  | _ => none

def nominalOf (pins : Pins) : Shape ρ → Option (ℕ × List ℕ)
  | .class c => some (c, [])
  | .inst c args => some (c, args)
  | .list e => pins.list.map fun c => (c, [e])
  | .map k v => pins.map.map fun c => (c, [k, v])
  | .tuple es => (pins.tuple es.length).map fun c => (c, es)
  | .unit => pins.unit.map fun c => (c, [])
  | .bool => pins.bool.map fun c => (c, [])
  | .int => pins.int.map fun c => (c, [])
  | .float => pins.float.map fun c => (c, [])
  | .string => pins.string.map fun c => (c, [])
  | .bytes => pins.bytes.map fun c => (c, [])
  | .fileHandle => pins.fileHandle.map fun c => (c, [])
  | _ => none

/-- The arguments handed to the parent of a class that has the arguments `args`. -/
def parentArgs (classes : List ClassMeta) (cls : ClassMeta) (parent : ℕ) (args : List ℕ) : List ℕ :=
  if !cls.parentArgs.isEmpty then cls.parentArgs
  else if (classes[parent]?.map ClassMeta.typeParams) = some 0 then []
  else args

def ancestorArgsFrom (classes : List ClassMeta) : ℕ → ℕ → List ℕ → ℕ → Option (List ℕ)
  | 0, cur, args, ancestor => if cur = ancestor then some args else none
  | steps + 1, cur, args, ancestor =>
    if cur = ancestor then some args
    else do
      let cls ← classes[cur]?
      let parent ← cls.parent
      ancestorArgsFrom classes steps parent (parentArgs classes cls parent args) ancestor

/-- Every class has a depth that its parent is below, and none is deeper than there are classes. -/
def Acyclic (classes : List ClassMeta) : Prop :=
  ∃ depth : ℕ → ℕ, (∀ c, depth c ≤ classes.length) ∧
    ∀ (c : ℕ) cls p, classes[c]? = some cls → cls.parent = some p → depth p < depth c

section Ancestors

variable {classes : List ClassMeta} {depth : ℕ → ℕ}

theorem ancestorArgsFrom_self (steps c : ℕ) (args : List ℕ) :
    ancestorArgsFrom classes steps c args c = some args := by
  cases steps <;> simp [ancestorArgsFrom]

variable {args ys : List ℕ}

theorem exists_parent {steps c b : ℕ} (hne : c ≠ b) (h : ancestorArgsFrom classes steps c args b = some ys) :
    ∃ n cls p, steps = n + 1 ∧ classes[c]? = some cls ∧ cls.parent = some p ∧
      ancestorArgsFrom classes n p (parentArgs classes cls p args) b = some ys := by
  cases steps with
  | zero => simp [ancestorArgsFrom, hne] at h
  | succ n =>
    simp only [ancestorArgsFrom, hne, if_false, bind_eq_bind, bind_eq_some_iff] at h
    obtain ⟨cls, hc, p, hp, h⟩ := h
    exact ⟨n, cls, p, rfl, hc, hp, h⟩

variable (hdepth : ∀ (c : ℕ) cls p, classes[c]? = some cls → cls.parent = some p → depth p < depth c)
include hdepth

theorem depth_le_of_ancestor {steps c b : ℕ}
    (h : ancestorArgsFrom classes steps c args b = some ys) : depth b ≤ depth c := by
  induction steps generalizing c args with
  | zero =>
    by_cases hne : c = b
    · exact hne ▸ Nat.le_refl _
    · simp [ancestorArgsFrom, hne] at h
  | succ n ih =>
    by_cases hne : c = b
    · exact hne ▸ Nat.le_refl _
    · obtain ⟨m, cls, p, hm, hc, hp, h⟩ := exists_parent hne h
      obtain rfl : n = m := by omega
      have := ih h
      have := hdepth c cls p hc hp
      omega

theorem ancestorArgsFrom_enough {n m c b : ℕ} (hm : depth c ≤ m)
    (h : ancestorArgsFrom classes n c args b = some ys) : ancestorArgsFrom classes m c args b = some ys := by
  induction n generalizing c args m with
  | zero =>
    by_cases hne : c = b
    · subst hne
      rw [ancestorArgsFrom_self] at h ⊢
      exact h
    · simp [ancestorArgsFrom, hne] at h
  | succ n ih =>
    by_cases hne : c = b
    · subst hne
      rw [ancestorArgsFrom_self] at h ⊢
      exact h
    · obtain ⟨n', cls, p, hn, hc, hp, h⟩ := exists_parent hne h
      obtain rfl : n = n' := by omega
      have hlt := hdepth c cls p hc hp
      obtain ⟨m, rfl⟩ : ∃ k, m = k + 1 := ⟨m - 1, by omega⟩
      simp only [ancestorArgsFrom, hne, if_false, hc, hp, bind_eq_bind, bind_some]
      exact ih (by omega) h

theorem ancestorArgsFrom_trans {n c b d : ℕ} {args ys zs : List ℕ} (hn : depth c ≤ n)
    (h1 : ancestorArgsFrom classes n c args b = some ys) {m : ℕ}
    (h2 : ancestorArgsFrom classes m b ys d = some zs) : ancestorArgsFrom classes n c args d = some zs := by
  induction n generalizing c args with
  | zero =>
    by_cases hne : c = b
    · subst hne
      rw [ancestorArgsFrom_self] at h1
      obtain rfl := some.inj h1
      exact ancestorArgsFrom_enough hdepth hn h2
    · simp [ancestorArgsFrom, hne] at h1
  | succ n ih =>
    by_cases hne : c = b
    · subst hne
      rw [ancestorArgsFrom_self] at h1
      obtain rfl := some.inj h1
      exact ancestorArgsFrom_enough hdepth hn h2
    · obtain ⟨n', cls, p, hn', hc, hp, h1⟩ := exists_parent hne h1
      obtain rfl : n = n' := by omega
      have hlt := hdepth c cls p hc hp
      have hb := depth_le_of_ancestor hdepth h1
      have hd := depth_le_of_ancestor hdepth h2
      have hcd : c ≠ d := by
        rintro rfl
        omega
      simp only [ancestorArgsFrom, hcd, if_false, hc, hp, bind_eq_bind, bind_some]
      exact ih (by omega) h1

end Ancestors

namespace Context

variable (C : Context ρ)

def ancestorArgs (child : ℕ) (args : List ℕ) (ancestor : ℕ) : Option (List ℕ) :=
  ancestorArgsFrom C.classes C.classes.length child args ancestor

def nominal (t : ℕ) : Option (ℕ × List ℕ) :=
  C.types[t]?.bind (nominalOf C.pins)

def mutsFit (found expected : List Bool) : Bool :=
  (found.zip expected).all fun p => !p.1 || p.2

/-- The subtype relation, from the type found to the type expected. -/
inductive Sub : ℕ → ℕ → Prop
  | refl (t : ℕ) : Sub t t
  | bottom {t u : ℕ} (h : C.bottom t) : Sub t u
  | nominal {t u a b : ℕ} {xs ys : List ℕ} (ht : C.nominal t = some (a, xs))
      (hu : C.nominal u = some (b, ys)) (h : C.ancestorArgs a xs b = some ys) : Sub t u
  | tuple {t u : ℕ} {xs ys : List ℕ} (ht : C.types[t]? = some (.tuple xs))
      (hu : C.types[u]? = some (.tuple ys)) (hlen : xs.length = ys.length)
      (hpin : C.pins.tuple xs.length = none) (h : ∀ p ∈ xs.zip ys, Sub p.1 p.2) : Sub t u
  | arrow {t u : ℕ} {st su : Shape ρ} {callback : Bool} {fp ep : List ℕ} {fm em : List Bool}
      {fr er : ℕ} {frow erow : List ρ} (ht : C.types[t]? = some st) (hu : C.types[u]? = some su)
      (hst : st.arrow? = some (callback, fp, fm, fr, frow))
      (hsu : su.arrow? = some (callback, ep, em, er, erow)) (hlen : fp.length = ep.length)
      (hparams : ∀ p ∈ fp.zip ep, Sub p.2 p.1) (hmuts : mutsFit fm em) (hret : Sub fr er)
      (hrow : C.included frow erow) : Sub t u

/-- Types are entered behind their parts, functions have a marker for each parameter, and no
class is above itself. -/
structure Formed : Prop where
  below : ∀ (t : ℕ) (s : Shape ρ), C.types[t]? = some s → ∀ c ∈ s.children, c < t
  marked : ∀ (t : ℕ) (s : Shape ρ) callback params muts ret row, C.types[t]? = some s →
    s.arrow? = some (callback, params, muts, ret, row) → muts.length = params.length
  acyclic : Acyclic C.classes
  bottom : ∀ t, C.bottom t → C.types[t]? = some .never

variable {C}

theorem Formed.ancestorArgs_trans (hC : C.Formed) {a b c : ℕ} {xs ys zs : List ℕ}
    (h1 : C.ancestorArgs a xs b = some ys) (h2 : C.ancestorArgs b ys c = some zs) :
    C.ancestorArgs a xs c = some zs := by
  obtain ⟨depth, hle, hdepth⟩ := hC.acyclic
  exact ancestorArgsFrom_trans hdepth (hle a) h1 h2

theorem nominal_tuple {t : ℕ} {xs : List ℕ} (ht : C.types[t]? = some (.tuple xs)) :
    C.nominal t = (C.pins.tuple xs.length).map fun c => (c, xs) := by
  simp [nominal, ht, nominalOf]

variable {s : Shape ρ}

theorem nominal_arrow {t : ℕ} (ht : C.types[t]? = some s) (hs : s.arrow?.isSome) : C.nominal t = none := by
  cases s <;> simp_all [nominal, nominalOf, Shape.arrow?]

theorem mem_zip_trans {α : Type} {xs ys zs : List α} (hl : xs.length = ys.length) {p : α × α}
    (hp : p ∈ xs.zip zs) : ∃ y, (p.1, y) ∈ xs.zip ys ∧ (y, p.2) ∈ ys.zip zs := by
  obtain ⟨i, hi, rfl⟩ := getElem_of_mem hp
  have hlt : i < ys.length := by simp at hi; omega
  refine ⟨ys[i], ?_, ?_⟩
  · rw [getElem_zip]
    have hi' : i < (xs.zip ys).length := by simp at hi ⊢; omega
    have := getElem_mem hi'
    rwa [getElem_zip] at this
  · rw [getElem_zip]
    have hi' : i < (ys.zip zs).length := by simp at hi ⊢; omega
    have := getElem_mem hi'
    rwa [getElem_zip] at this

theorem mutsFit_trans {fm gm em : List Bool} (hl : fm.length = gm.length)
    (h1 : mutsFit fm gm) (h2 : mutsFit gm em) : mutsFit fm em := by
  rw [mutsFit, List.all_eq_true] at h1 h2 ⊢
  intro p hp
  obtain ⟨g, hg1, hg2⟩ := mem_zip_trans hl hp
  have := h1 _ hg1
  have := h2 _ hg2
  grind

theorem zip_below {xs ys : List ℕ} {t u : ℕ} (hx : ∀ x ∈ xs, x < t) (hy : ∀ y ∈ ys, y < u)
    {p : ℕ × ℕ} (hp : p ∈ xs.zip ys) : p.1 < t ∧ p.2 < u :=
  ⟨hx _ (of_mem_zip hp).1, hy _ (of_mem_zip hp).2⟩

variable {params : List ℕ} {muts : List Bool} {callback : Bool} {row : List ρ} {ret : ℕ}

theorem mem_children_of_arrow (h : s.arrow? = some (callback, params, muts, ret, row)) (c : ℕ) :
    c ∈ s.children ↔ c ∈ params ∨ c = ret := by
  cases s <;> simp_all [Shape.arrow?, Shape.children]

theorem Formed.arrow_below (hC : C.Formed) {t : ℕ} (ht : C.types[t]? = some s)
    (h : s.arrow? = some (callback, params, muts, ret, row)) :
    (∀ c ∈ params, c < t) ∧ ret < t :=
  ⟨fun c hc => hC.below t _ ht c ((mem_children_of_arrow h c).mpr (.inl hc)),
    hC.below t _ ht ret ((mem_children_of_arrow h ret).mpr (.inr rfl))⟩

/-- By the places of the three types, which are behind those of their parts. -/
theorem Sub.trans_aux (hC : C.Formed) (ho : ∀ r s q, C.included r s → C.included s q → C.included r q) (N : ℕ) :
    ∀ t u v, t + u + v ≤ N → C.Sub t u → C.Sub u v → C.Sub t v := by
  induction N with
  | zero =>
    intro t u v hN _ _
    obtain ⟨rfl, rfl⟩ : t = 0 ∧ v = 0 := by omega
    exact .refl 0
  | succ N ih =>
    intro t u v hN htu huv
    cases htu with
    | refl => exact huv
    | bottom h => exact .bottom h
    | nominal ht hu h =>
      cases huv with
      | refl => exact .nominal ht hu h
      | bottom hb => simp [Context.nominal, hC.bottom u hb, nominalOf] at hu
      | nominal hu' hv h' =>
        obtain ⟨rfl, rfl⟩ := Prod.mk.inj (mem_unique hu hu')
        exact .nominal ht hv (hC.ancestorArgs_trans h h')
      | tuple hu' _ _ hi _ => simp [nominal_tuple hu', hi] at hu
      | arrow hu' _ hsu _ _ _ _ _ _ => simp [nominal_arrow hu' (by simp [hsu])] at hu
    | @tuple _ _ xs ys ht hu hl hi h =>
      cases huv with
      | refl => exact .tuple ht hu hl hi h
      | bottom hb => simp [hC.bottom u hb] at hu
      | nominal hu' _ _ => simp [nominal_tuple hu, ← hl, hi] at hu'
      | @tuple _ _ ys' zs hu' hv hl' hi' h' =>
        obtain rfl : ys = ys' := by simpa using mem_unique hu hu'
        apply Sub.tuple ht hv (hl.trans hl') hi
        intro p hp
        obtain ⟨y, hy1, hy2⟩ := mem_zip_trans hl hp
        obtain ⟨b1, b2⟩ := zip_below (hC.below t _ ht) (hC.below u _ hu) hy1
        obtain ⟨-, b3⟩ := zip_below (hC.below u _ hu) (hC.below v _ hv) hy2
        exact ih p.1 y p.2 (by omega) (h _ hy1) (h' _ hy2)
      | arrow hu' _ hsu _ _ _ _ _ _ =>
        obtain rfl := mem_unique hu hu'
        cases hsu
    | @arrow _ _ st su callback fp gp fm gm fr gr frow grow ht hu hst hsu hl hp hm hr hw =>
      cases huv with
      | refl => exact .arrow ht hu hst hsu hl hp hm hr hw
      | bottom hb =>
        obtain rfl := mem_unique hu (hC.bottom u hb)
        cases hsu
      | nominal hu' _ _ => simp [nominal_arrow hu (by simp [hsu])] at hu'
      | tuple hu' _ _ _ _ =>
        obtain rfl := mem_unique hu hu'
        cases hsu
      | @arrow _ _ su' sv callback' gp' ep gm' em gr' er grow' erow hu' hv hsu' hsv hl' hp' hm' hr' hw' =>
        obtain rfl := mem_unique hu hu'
        obtain ⟨rfl, rfl, rfl, rfl, rfl⟩ : callback = callback' ∧ gp = gp' ∧ gm = gm' ∧ gr = gr' ∧
            grow = grow' := by simpa using hsu.symm.trans hsu'
        obtain ⟨bt, h1⟩ := hC.arrow_below ht hst
        obtain ⟨bu, h2⟩ := hC.arrow_below hu hsu
        obtain ⟨bv, h3⟩ := hC.arrow_below hv hsv
        apply Sub.arrow ht hv hst hsv (hl.trans hl')
        · intro p hpp
          obtain ⟨g, hg1, hg2⟩ := mem_zip_trans hl hpp
          obtain ⟨b1, b2⟩ := zip_below bt bu hg1
          obtain ⟨-, b3⟩ := zip_below bu bv hg2
          exact ih p.2 g p.1 (by omega) (hp' _ hg2) (hp _ hg1)
        · apply mutsFit_trans _ hm hm'
          rw [hC.marked t _ _ _ _ _ _ ht hst, hC.marked u _ _ _ _ _ _ hu hsu, hl]
        · exact ih fr gr er (by omega) hr hr'
        · exact ho _ _ _ hw hw'

theorem Sub.trans (hC : C.Formed) (hr : ∀ r s q, C.included r s → C.included s q → C.included r q) {t u v : ℕ}
    (h1 : C.Sub t u) (h2 : C.Sub u v) : C.Sub t v :=
  Sub.trans_aux hC hr (t + u + v) t u v (Nat.le_refl _) h1 h2

end Context

end LoomV4.Types
