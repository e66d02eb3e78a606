import LoomV4.Identity.Hashing

namespace LoomV4.Identity

open Lib Lib.Reader Bytecode List Option

@[simp] theorem need_ok {p : Prop} [Decidable p] {s : String} : need p s = .ok () ↔ p := by
  unfold need
  split_ifs <;> simp [*]

@[simp] theorem seq_ok {x y : Check} : (x >>= fun _ => y) = .ok () ↔ x = .ok () ∧ y = .ok () := by
  cases x with
  | error e => simp [bind, Except.bind]
  | ok u => simp [bind, Except.bind]

variable {α : Type}

@[simp] theorem each_ok {l : List α} {f : α → Check} : each l f = .ok () ↔ ∀ a ∈ l, f a = .ok () := by
  unfold each
  induction l with
  | nil => simp [pure, Except.pure]
  | cons a l ih =>
    rw [forall_mem_cons, ← ih]
    exact seq_ok

@[simp] theorem eachIdx_ok {l : List α} {f : ℕ → α → Check} :
    eachIdx l f = .ok () ↔ ∀ i a, l[i]? = some a → f i a = .ok () := by
  have h : eachIdx l f = each l.zipIdx fun p => f p.2 p.1 := rfl
  rw [h, each_ok]
  constructor
  · intro h i a ha
    exact h (a, i) (mem_zipIdx_iff_getElem?.mpr ha)
  · intro h p hp
    exact h p.2 p.1 (mem_zipIdx_iff_getElem?.mp hp)

def Every (P : Item → Prop) (items : List Item) : Prop := ∀ x ∈ items, P x

section

variable {P : Item → Prop} {x : Item} {xs ys : List Item} {α : Type} {l : List α}

@[simp] theorem every_nil : Every P [] := by simp [Every]

@[simp] theorem every_cons : Every P (x :: xs) ↔ P x ∧ Every P xs := by simp [Every]

@[simp] theorem every_append : Every P (xs ++ ys) ↔ Every P xs ∧ Every P ys := forall_mem_append

@[simp] theorem every_map {f : α → Item} : Every P (l.map f) ↔ ∀ a ∈ l, P (f a) := List.forall_mem_map

@[simp] theorem every_flatMap {f : α → List Item} : Every P (l.flatMap f) ↔ ∀ a ∈ l, Every P (f a) := by
  simp only [Every, mem_flatMap]
  exact ⟨fun h a ha x hx => h x ⟨a, ha, hx⟩, fun h x ⟨a, ha, hx⟩ => h a ha x hx⟩

@[simp] theorem every_ite {c : Prop} [Decidable c] :
    Every P (if c then xs else ys) ↔ (c → Every P xs) ∧ (¬c → Every P ys) := by
  split_ifs with h <;> simp [h]

end

variable (bundle : AbiBundle) (m : Module)

def RowOk (row : List BcRow) : Prop :=
  ∀ r ∈ row, match r with
    | .op i => i.toNat < bundle.operations.length
    | .group i => i.toNat < bundle.groupBits.length
    | .var _ => True

def InRange : Item → Prop
  | .raw _ => True
  | .type t => t < m.types.length
  | .app a => a < m.apps.length
  | .func f | .closure f => f < m.funcs.length
  | .classKey c => c < m.classes.length
  | .interfaceKey i | .interfaceHash i => i < m.interfaces.length
  | .selector s => s < m.selectors.length
  | .string s => s < m.strings.length
  | .blob b => b < m.bytes.length
  | .reflection r => r < m.reflections.length
  | .row row => RowOk bundle row
  | .absent => False

attribute [simp] word count text mark typeRef InRange

variable {bundle m} {what : String}

theorem checkRow_ok {row : List BcRow} : checkRow bundle what row = .ok () ↔ RowOk bundle row := by
  rw [checkRow, each_ok, RowOk]
  refine forall₂_congr fun r _ => ?_
  cases r <;> simp

theorem every_useItems {u : BcInterfaceUse} (h : checkUse bundle m what u = .ok ()) (contract : Bool) :
    Every (InRange bundle m) (useItems contract u) := by
  simp only [checkUse, seq_ok, need_ok, each_ok, checkRow_ok] at h
  simpa [useItems] using ⟨h.1, fun _ => h.1, h.2.1, h.2.2⟩

theorem every_boundsItems {bounds : TypeBounds} (h : checkBounds bundle m what bounds = .ok ())
    (contract : Bool) : Every (InRange bundle m) (boundsItems contract bounds) := by
  simp only [checkBounds, each_ok] at h
  simp only [boundsItems, boundItems, every_cons, every_flatMap, InRange, count, word, true_and]
  exact fun p hp u hu => every_useItems (h p hp u hu) contract

variable {idx : ℕ}

theorem every_interface {i : BcInterface} (h : checkInterface bundle m idx i = .ok ()) :
    Every (InRange bundle m) (interfaceLocalItems i) ∧
      ∀ u ∈ i.parents, ∀ contract, Every (InRange bundle m) (useItems contract u) := by
  simp only [checkInterface, seq_ok, need_ok, each_ok, checkRow_ok, forall_mem_append] at h
  obtain ⟨hp, hb, ha, hm⟩ := h
  refine ⟨?_, fun u hu contract => every_useItems (hp u hu) contract⟩
  simp only [interfaceLocalItems, boundItems, every_append, every_cons, every_map, every_flatMap, InRange, word, count,
    mark, text, every_nil, true_and, implies_true]
  refine ⟨⟨every_boundsItems hb false, fun a h u hu => every_useItems (ha a h u hu) false⟩, fun method h => ?_⟩
  obtain ⟨hs, ht, htb, hpr, hr, -⟩ := hm method h
  simp only [methodItems, premiseItems, boundItems, every_append, every_cons, every_map, every_flatMap, InRange, mark,
    word, count, typeRef, every_nil, and_true, true_and, implies_true]
  refine ⟨⟨⟨⟨hs, every_boundsItems htb false⟩, fun p hp => ?_⟩, ht.1⟩, ht.2 _ (by simp), hr⟩
  exact ⟨(hpr p hp).1, fun u hu => every_useItems ((hpr p hp).2 u hu) false⟩

variable (bundle m) in
def Earlier (t : ℕ) : Item → Prop
  | .type c => c < t
  | x => InRange bundle m x

attribute [simp] Earlier

section

variable {t : ℕ}

theorem Earlier.inRange {x : Item} (ht : t ≤ m.types.length) (h : Earlier bundle m t x) : InRange bundle m x := by
  cases x with
  | type c => exact lt_of_lt_of_le h ht
  | _ => exact h

theorem every_typeItems {ty : BcType} (h : checkType bundle m t ty = .ok ()) : Every (Earlier bundle m t) (typeItems ty) := by
  cases ty with
  | projection base interface assoc =>
    simp only [checkType, seq_ok, need_ok] at h
    obtain ⟨hb, hi⟩ := h
    cases hc : m.interfaces[interface.toNat]? with
    | none => simp [hc] at hi
    | some c => simpa [typeItems] using ⟨hb, (lt_of_getElem? hc)⟩
  | fn params muts ret row | callback params muts ret row =>
    simp only [checkType, seq_ok, need_ok, each_ok, checkRow_ok] at h
    simpa [typeItems, signatureItems] using h.2
  | _ => simp_all [typeItems, checkType]

end

theorem every_appItems {a : TypeApp} (h : checkApp bundle m idx a = .ok ()) :
    Every (InRange bundle m) (appItems a) := by
  simp only [checkApp, seq_ok, each_ok, need_ok, checkRow_ok] at h
  simpa [appItems] using h

theorem every_callableItems {slot : ℕ} {part : String} {c : BcCallableContract}
    (h : checkCallable bundle m slot part c = .ok ()) : Every (InRange bundle m) (callableItems c) := by
  simp only [checkCallable, seq_ok, each_ok, need_ok, checkRow_ok, forall_mem_append] at h
  obtain ⟨-, -, hb, ht, hr⟩ := h
  simp only [callableItems, every_append, every_cons, every_flatMap, InRange, word, count, mark, typeRef, every_nil,
    and_true, true_and]
  exact ⟨⟨every_boundsItems hb true, fun p hp => ht.1 p.1 (of_mem_zip hp).1⟩, ht.2 _ (by simp), hr⟩

def TargetOk (m : Module) : Option SlotTarget → Prop
  | none => True
  | some (.function f) => f.toNat < m.funcs.length
  | some (.class c constructor) => c.toNat < m.classes.length ∧ constructor.toNat < m.funcs.length

theorem every_contractItems {c : SlotContract} (h : checkContract bundle m idx c = .ok ()) (abi : Bool) :
    Every (InRange bundle m) (contractItems abi c) := by
  cases c with
  | function c | method c => simpa [contractItems] using every_callableItems h
  | «class» typeParams hash ty constructor =>
    simp only [checkContract, seq_ok, need_ok] at h
    simpa [contractItems] using ⟨h.1, every_callableItems h.2⟩
  | value ty | process message result => simpa [contractItems, checkContract] using h

def callableOf : SlotContract → Option BcCallableContract
  | .function c | .method c | .class _ _ _ c => some c
  | _ => none

theorem callable_types {s : SlotContract} (h : checkContract bundle m idx s = .ok ()) :
    ∀ c ∈ callableOf s, ∀ t ∈ c.params ++ [c.ret], t.toNat < m.types.length := by
  intro c hc
  have ha : ∃ part, checkCallable bundle m idx part c = .ok () := by
    cases s with
    | function d | method d =>
      cases hc
      exact ⟨_, h⟩
    | «class» typeParams hash ty d =>
      cases hc
      simp only [checkContract, seq_ok] at h
      exact ⟨_, h.2⟩
    | value ty | process message result => cases hc
  obtain ⟨part, h⟩ := ha
  simp only [checkCallable, seq_ok, each_ok, need_ok] at h
  exact h.2.2.2.1

theorem checkTarget_ok {t : Option SlotTarget} : checkTarget m idx t = .ok () ↔ TargetOk m t := by
  rcases t with - | (f | ⟨c, f⟩) <;> simp [checkTarget, TargetOk]

theorem every_slotItems {slot : ℕ} {spec : SlotSpec} (hs : m.slots[slot]? = some spec)
    (h : checkSlot bundle m slot spec = .ok ()) (abi : Bool) : Every (InRange bundle m) (slotItems m abi slot) := by
  simp only [checkSlot, seq_ok] at h
  simpa [slotItems, hs] using every_contractItems h.2.1 abi

section

variable (hs : ∀ s spec, m.slots[s]? = some spec → checkSlot bundle m s spec = .ok ())

include hs

variable {func : Func}

theorem every_operandItems {op : Op} {o : Operand} {v : ℕ}
    (h : checkOperand m idx func op o v = .ok ()) : Every (InRange bundle m) (operandItems m op o v) := by
  cases o with
  | index table =>
    simp only [checkOperand, need_ok] at h
    cases table with
    | slots =>
      have hv : v < m.slots.length := h
      exact every_slotItems (getElem?_eq_getElem hv) (hs v _ (getElem?_eq_getElem hv)) false
    | funcs =>
      simp only [operandItems, every_cons, every_nil, and_true]
      split_ifs <;> exact h
    | _ =>
      simp only [operandItems, every_cons, every_nil, and_true]
      exact h
  | optApp =>
    simp only [checkOperand, need_ok] at h
    simp only [operandItems, every_ite, every_cons, InRange, every_nil, and_true, true_and, implies_true]
    exact h.resolve_left
  | site =>
    simp only [checkOperand] at h
    cases hi : m.interfaces[v / 2 ^ 16]? with
    | none =>
      rw [hi] at h
      cases h
    | some c => simpa [operandItems] using (lt_of_getElem? hi)
  | pattern => simpa [operandItems, checkOperand] using h
  | _ => simp [operandItems]

theorem every_instrItems {i : Instr}
    (h : checkInstr m idx func i = .ok ()) : Every (InRange bundle m) (instrItems m i) := by
  simp only [checkInstr, each_ok] at h
  simp only [instrItems, every_cons, InRange, true_and, every_flatMap]
  exact fun p hp => every_operandItems hs (h p hp)

theorem every_funcItems {f : ℕ}
    (hb : ∃ bounds, m.funcBounds[f]? = some bounds ∧ checkBounds bundle m what bounds = .ok ())
    (h : checkFunc bundle m f func = .ok ()) : Every (InRange bundle m) (funcItems m f func) := by
  simp only [checkFunc, seq_ok, each_ok, need_ok, checkRow_ok, forall_mem_append] at h
  obtain ⟨-, ⟨⟨⟨hp, hc⟩, hl⟩, he⟩, hr, hi⟩ := h
  obtain ⟨bounds, hb, hbo⟩ := hb
  simp only [funcItems, signatureItems, boundsAt, hb, every_append, every_cons, every_map, every_flatMap, InRange,
    word, count, mark, typeRef, every_nil, true_and, and_true, implies_true]
  exact ⟨⟨⟨⟨every_boundsItems hbo true, hp, he _ (by simp), hr⟩, hc⟩, hl⟩,
    fun b hb' i hi' => every_instrItems hs (hi b hb' i hi')⟩

end

theorem every_conformanceItems {c : BcConformance} (h : checkConformance bundle m idx c = .ok ()) :
    Every (InRange bundle m) (conformanceItems c) := by
  unfold checkConformance at h
  cases hk : m.classes[c.class'.toNat]? with
  | none =>
    rw [hk] at h
    cases h
  | some k =>
    rw [hk] at h
    simp only [seq_ok, each_ok, need_ok] at h
    obtain ⟨hu, hp, ha⟩ := h
    simp only [conformanceItems, boundItems, every_append, every_cons, every_map, every_flatMap, InRange, word, count,
      mark, typeRef, true_and, and_true, implies_true]
    exact ⟨⟨every_useItems hu true, fun p h u hu => every_useItems ((hp p h).2 u hu) true⟩, ha⟩

theorem every_classItems {c : ℕ} {k : BcClass} {arms : List ℕ} (ha : ∀ a ∈ arms, a < m.classes.length)
    (hc : ∀ x ∈ m.conformances, Every (InRange bundle m) (conformanceItems x))
    (hb : ∃ bounds, m.classBounds[c]? = some bounds ∧ checkBounds bundle m what bounds = .ok ())
    (h : checkClass m c k = .ok ()) : Every (InRange bundle m) (classItems m arms c k) := by
  simp only [checkClass, seq_ok, each_ok, need_ok] at h
  obtain ⟨hp, hr, hf, hm⟩ := h
  obtain ⟨bounds, hb, hbo⟩ := hb
  simp only [classItems, boundsAt, hb, every_append, every_cons, every_map, every_flatMap, every_ite, InRange, word,
    count, mark, text, typeRef, every_nil, true_and, and_true, implies_true]
  refine ⟨⟨⟨⟨⟨every_boundsItems hbo true, fun hne => ⟨hp.resolve_left hne, hr⟩⟩, hf⟩, hm⟩, ?_⟩, fun _ => ha⟩
  intro x hx
  apply hc
  have hx := (mergeSort_perm _ _).mem_iff.mp hx
  exact (mem_filter.mp hx).1

theorem armsOf_lt {c a : ℕ} (h : a ∈ armsOf m c) : a < m.classes.length := by
  simp only [armsOf, List.mem_map, mem_filter] at h
  obtain ⟨p, ⟨hp, -⟩, rfl⟩ := h
  exact lt_of_getElem? (mem_zipIdx_iff_getElem?.mp hp)

variable (bundle m) in
structure Sound : Prop where
  types : ∀ (t : ℕ) (ty : BcType), m.types[t]? = some ty → Every (Earlier bundle m t) (typeItems ty)
  apps : ∀ (a : ℕ) (app : TypeApp), m.apps[a]? = some app → Every (InRange bundle m) (appItems app)
  interfaces : ∀ (i : ℕ) (c : BcInterface), m.interfaces[i]? = some c → Every (InRange bundle m) (interfaceLocalItems c)
  parents : ∀ (i : ℕ) (c : BcInterface), m.interfaces[i]? = some c →
    ∀ u ∈ c.parents, Every (InRange bundle m) (useItems false u)
  inheritance : ∃ rank : ℕ → ℕ, ∀ (i : ℕ) (c : BcInterface), m.interfaces[i]? = some c → rank i < m.interfaces.length ∧
    ∀ u ∈ c.parents, rank u.interface.toNat < rank i
  classes : ∀ (c : ℕ) (k : BcClass), m.classes[c]? = some k → Every (InRange bundle m) (classItems m (armsOf m c) c k)
  conformances : ∀ x ∈ m.conformances, Every (InRange bundle m) (conformanceItems x)
  funcs : ∀ (f : ℕ) (func : Func), m.funcs[f]? = some func → Every (InRange bundle m) (funcItems m f func)
  slots : ∀ (s : ℕ) (spec : SlotSpec), m.slots[s]? = some spec → (∀ abi, Every (InRange bundle m) (slotItems m abi s)) ∧
    TargetOk m spec.initial ∧ ∀ c ∈ callableOf spec.contract, ∀ t ∈ c.params ++ [c.ret], t.toNat < m.types.length
  classParents : ∀ k ∈ m.classes, (k.parent = noIndex ∨ k.parent.toNat < m.classes.length) ∧
    ∀ t ∈ k.parentArgs, t.toNat < m.types.length
  entry : m.entry.toNat < m.funcs.length
  imports : ∀ i ∈ m.imports, i.kind ≠ .constant →
    i.defn.toNat < if i.kind.isFunc then m.funcs.length else m.classes.length
  bindings : ∀ b ∈ m.bindings, b.func.toNat < m.funcs.length

theorem getElem?_of_length {β : Type} {l : List α} {l' : List β} (h : l'.length = l.length) {i : ℕ} {a : α}
    (ha : l[i]? = some a) : ∃ b, l'[i]? = some b :=
  ⟨_, getElem?_eq_getElem (h ▸ lt_of_getElem? ha)⟩

theorem kahn_of_preflight (h : preflight bundle m = some (.ok ())) :
    Kahn.check 128 (interfaceParents m) = some (.ok ()) := by
  rw [preflight] at h
  split at h
  · cases h
  · cases hk : Kahn.check 128 (interfaceParents m) with
    | none => simp [checkInheritance, hk] at h
    | some r =>
      rw [checkInheritance, hk] at h
      rcases r with (e | e) | ⟨⟩
      · simp at h
      · simp at h
      · rfl

theorem interfaceParents_length : (interfaceParents m).length = m.interfaces.length := by simp [interfaceParents]

theorem mem_interfaceParents {i : ℕ} {c : BcInterface} (hc : m.interfaces[i]? = some c) {u : BcInterfaceUse}
    (hu : u ∈ c.parents) : u.interface.toNat ∈ (interfaceParents m)[i]?.getD [] := by
  simp only [interfaceParents, getElem?_map, hc, map_some, getD_some]
  exact List.mem_map_of_mem hu

theorem sound_of_preflight (h : preflight bundle m = some (.ok ())) : Sound bundle m := by
  obtain ⟨rank, hr⟩ := Kahn.check_ok (kahn_of_preflight h)
  rw [interfaceParents_length] at hr
  unfold preflight at h
  cases ht : preflightTypes bundle m with
  | error e => simp [ht] at h
  | ok u =>
    cases u
    rw [ht] at h
    cases hi : checkInheritance m with
    | none => simp [hi] at h
    | some r =>
      rw [hi] at h
      simp only [map_some, Option.some.injEq, seq_ok] at h
      obtain ⟨rfl, hd⟩ := h
      simp only [preflightTypes, seq_ok, eachIdx_ok] at ht
      simp only [preflightDefinitions, seq_ok, eachIdx_ok, need_ok] at hd
      obtain ⟨hy, hp, hn⟩ := ht
      obtain ⟨⟨hcl, hfl⟩, hcb, hfb, ho, hl, hsl, hfu, he, hm, hg⟩ := hd
      have ho : ∀ x ∈ m.conformances, Every (InRange bundle m) (conformanceItems x) := by
        intro x hx
        obtain ⟨i, hi⟩ := mem_iff_getElem?.mp hx
        exact every_conformanceItems (ho i x hi)
      constructor
      · exact fun t ty hty => every_typeItems (hy t ty hty)
      · exact fun a app ha => every_appItems (hp a app ha)
      · exact fun i c hc => (every_interface (hn i c hc)).1
      · exact fun i c hc u hu => (every_interface (hn i c hc)).2 u hu false
      · refine ⟨rank, fun i c hc => ?_⟩
        obtain ⟨hlt, hp⟩ := hr i (lt_of_getElem? hc)
        exact ⟨hlt, fun u hu => hp _ (mem_interfaceParents hc hu)⟩
      · intro c k hk
        obtain ⟨bounds, hb⟩ := getElem?_of_length hcl hk
        exact every_classItems (fun a => armsOf_lt) ho ⟨bounds, hb, hcb c bounds hb⟩ (hl c k hk)
      · exact ho
      · intro f func hf
        obtain ⟨bounds, hb⟩ := getElem?_of_length hfl hf
        exact every_funcItems hsl ⟨bounds, hb, hfb f bounds hb⟩ (hfu f func hf)
      · intro s spec hs
        have h := hsl s spec hs
        refine ⟨every_slotItems hs h, ?_⟩
        simp only [checkSlot, seq_ok] at h
        exact ⟨checkTarget_ok.mp h.2.2, callable_types h.2.1⟩
      · intro k hk
        obtain ⟨c, hc⟩ := mem_iff_getElem?.mp hk
        have h := hl c k hc
        simp only [checkClass, seq_ok, each_ok, need_ok] at h
        exact ⟨h.1, h.2.1⟩
      · exact he
      · intro i hi hki
        obtain ⟨j, hj⟩ := mem_iff_getElem?.mp hi
        have h := hm j i hj
        simp only [checkImport, hki, if_false, seq_ok, need_ok] at h
        exact h.1
      · intro b hb
        obtain ⟨j, hj⟩ := mem_iff_getElem?.mp hb
        have h := hg j b hj
        simp only [checkBinding, seq_ok, need_ok] at h
        exact h.1

end LoomV4.Identity
