import LoomV4.Lib.Interaction

namespace LoomV4.Hir

open Lib (Tree)

abbrev TypeId := ℕ

def NEVER : TypeId := 4

abbrev Row := List ℕ

inductive Flow where
  | normal
  | never
  deriving DecidableEq, Repr

def Flow.strict (items : List Flow) : Flow :=
  if items.any (· = .never) then .never else .normal

inductive Lit where
  | unit
  | int (n : Int)
  | float (bits : ℕ)
  | char (c : Char)
  | str (s : String)
  | bytes (bs : List UInt8)
  | regex (s : String)
  | bool (b : Bool)
  deriving DecidableEq

inductive BinOp where
  | add | sub | mul | div | rem | eq | ne | lt | le | gt | ge
  | bitAnd | bitOr | bitXor | shl | shr | ushr
  deriving DecidableEq

inductive NativeOp where
  | listLen | listAt | listPush | listGet | mapLen | mapHas | mapAt | mapPut | mapPutText
  | mapGet | mapRemove | bytesNew | freeze | digest
  deriving DecidableEq

inductive Op where
  | not
  | neg
  | binary (op : BinOp) (operandTy : TypeId)
  | native (op : NativeOp)
  | intrinsic (slot : ℕ)
  deriving DecidableEq

inductive Circuit where
  | and
  | or
  deriving DecidableEq

def Circuit.stop : Circuit → Bool
  | .and => false
  | .or => true

/-- The kinds of expression no inline body may hold are told apart by a number. -/
inductive HExpr where
  | lit (c : Lit)
  | «local» (slot : ℕ) (ty : TypeId)
  | app (o : Op) (ty : TypeId) (args : List HExpr)
  | circuit (c : Circuit) (left right : HExpr)
  | call (func : ℕ) (ty : TypeId) (targs : List TypeId) (rowargs : List Row) (args : List HExpr)
  | other (kind : ℕ) (flow : Flow)

namespace HExpr

@[elab_as_elim, induction_eliminator]
theorem ind {motive : HExpr → Prop} (lit : ∀ c, motive (.lit c)) («local» : ∀ slot ty, motive (.local slot ty))
    (app : ∀ o ty args, (∀ e ∈ args, motive e) → motive (.app o ty args))
    (circuit : ∀ c l r, motive l → motive r → motive (.circuit c l r))
    (call : ∀ f ty targs rowargs args, (∀ e ∈ args, motive e) → motive (.call f ty targs rowargs args))
    (other : ∀ k flow, motive (.other k flow)) (e : HExpr) : motive e :=
  HExpr.rec lit «local» app circuit call other (fun _ h => absurd h List.not_mem_nil)
    (fun _ _ he hes _ h => (List.mem_cons.mp h).elim (· ▸ he) (hes _)) e

mutual

def flow : HExpr → Flow
  | .lit _ => .normal
  | .local _ ty => if ty = NEVER then .never else .normal
  | .app _ ty args => if ty = NEVER then .never else Flow.strict (flows args)
  | .circuit _ left _ => left.flow
  | .call _ ty _ _ args => if ty = NEVER then .never else Flow.strict (flows args)
  | .other _ flow => flow

def flows : List HExpr → List Flow
  | [] => []
  | e :: es => e.flow :: flows es

end

mutual

def reads : HExpr → List ℕ
  | .lit _ => []
  | .local slot _ => [slot]
  | .app _ _ args => readsAll args
  | .circuit _ left right => left.reads ++ right.reads
  | .call _ _ _ _ args => readsAll args
  | .other _ _ => []

def readsAll : List HExpr → List ℕ
  | [] => []
  | e :: es => e.reads ++ readsAll es

end

mutual

def subst (actuals : List HExpr) : HExpr → HExpr
  | .lit c => .lit c
  | .local slot ty => actuals[slot]?.getD (.local slot ty)
  | .app o ty args => .app o ty (substAll actuals args)
  | .circuit c left right => .circuit c (left.subst actuals) (right.subst actuals)
  | .call f ty targs rowargs args => .call f ty targs rowargs (substAll actuals args)
  | .other k flow => .other k flow

def substAll (actuals : List HExpr) : List HExpr → List HExpr
  | [] => []
  | e :: es => e.subst actuals :: substAll actuals es

end

@[simp] theorem readsAll_eq (es : List HExpr) : readsAll es = es.flatMap reads := by
  induction es with
  | nil => rfl
  | cons e es ih => simp [readsAll, ih]

@[simp] theorem substAll_eq (actuals es : List HExpr) : substAll actuals es = es.map (subst actuals) := by
  induction es with
  | nil => rfl
  | cons e es ih => simp [substAll, ih]

theorem subst_subst {inner outer : List HExpr} (e : HExpr) (h : ∀ i ∈ e.reads, i < inner.length) :
    e.subst (inner.map (subst outer)) = (e.subst inner).subst outer := by
  induction e with
  | lit c => rfl
  | «local» slot ty =>
    have hs : slot < inner.length := h slot (by simp [reads])
    simp [subst, hs]
  | app o ty args ih =>
    simp only [subst, substAll_eq, List.map_map, app.injEq, true_and]
    exact List.map_congr_left fun e he => ih e he fun i hi => h i (by
      simp only [reads, readsAll_eq, List.mem_flatMap]
      exact ⟨e, he, hi⟩)
  | circuit c l r ihl ihr =>
    simp only [subst, ihl fun i hi => h i (by simp [reads, hi]), ihr fun i hi => h i (by simp [reads, hi])]
  | call f ty targs rowargs args ih =>
    simp only [subst, substAll_eq, List.map_map, call.injEq, true_and]
    exact List.map_congr_left fun e he => ih e he fun i hi => h i (by
      simp only [reads, readsAll_eq, List.mem_flatMap]
      exact ⟨e, he, hi⟩)
  | other k flow => rfl

theorem reads_subst {actuals : List HExpr} (e : HExpr) (h : ∀ i ∈ e.reads, i < actuals.length) :
    (e.subst actuals).reads = e.reads.flatMap fun i => (actuals[i]?.map reads).getD [] := by
  induction e with
  | lit c => rfl
  | «local» slot ty =>
    have hs : slot < actuals.length := h slot (by simp [reads])
    simp [subst, reads, hs]
  | app o ty args ih =>
    simp only [subst, reads, readsAll_eq, substAll_eq, List.flatMap_map, List.flatMap_assoc]
    refine List.flatMap_congr fun e he => ih e he fun i hi => h i ?_
    simp only [reads, readsAll_eq, List.mem_flatMap]
    exact ⟨e, he, hi⟩
  | circuit c l r ihl ihr =>
    simp only [subst, reads, List.flatMap_append, ihl fun i hi => h i (by simp [reads, hi]),
      ihr fun i hi => h i (by simp [reads, hi])]
  | call f ty targs rowargs args ih =>
    simp only [subst, reads, readsAll_eq, substAll_eq, List.flatMap_map, List.flatMap_assoc]
    refine List.flatMap_congr fun e he => ih e he fun i hi => h i ?_
    simp only [reads, readsAll_eq, List.mem_flatMap]
    exact ⟨e, he, hi⟩
  | other k flow => rfl

end HExpr

inductive Eff where
  | lit (c : Lit)
  | op (o : Op)
  | call (func : ℕ) (targs : List TypeId) (rowargs : List Row)
  | construct (cls : ℕ) (targs : List TypeId)
  | method (selector : String) (targs : List TypeId) (rowargs : List Row)
  | other (kind : ℕ)
  | unset (slot : ℕ)
  | unreachable

/-- What a machine computes on its own: the literals it holds as values, the operators on the
operands where they neither fail nor touch the state, and the tests of a condition. -/
structure Values (ν : Type) where
  literal : Lit → Option ν
  value : Op → List ν → Option ν
  truth : ν → Bool
  ofBool : Bool → ν

namespace HExpr

variable {ν : Type} (D : Values ν)

def answer (eff : Eff) (vs : List ν) : Option ν → Tree Eff ν
  | some v => .ret v
  | none => .perform eff vs .ret

mutual

def tree : HExpr → Tree Eff ν
  | .lit c => answer (.lit c) [] (D.literal c)
  | .local slot _ => .read slot .ret
  | .app o _ args => .strict (trees args) fun vs => answer (.op o) vs (D.value o vs)
  | .circuit c left right => left.tree.andThen fun v =>
      if D.truth v = c.stop then .ret (D.ofBool c.stop) else right.tree
  | .call f _ targs rowargs args => .strict (trees args) fun vs =>
      .perform (.call f targs rowargs) vs .ret
  | .other k _ => .perform (.other k) [] .ret

def trees : List HExpr → List (Tree Eff ν)
  | [] => []
  | e :: es => e.tree :: trees es

end

@[simp] theorem trees_eq (es : List HExpr) : trees D es = es.map (tree D) := by
  induction es with
  | nil => rfl
  | cons e es ih => simp [trees, ih]

theorem plug_answer (inputs : ℕ → Tree Eff ν) (eff : Eff) (vs : List ν) (w : Option ν) :
    (answer eff vs w).plug inputs = answer eff vs w := by
  cases w <;> rfl

theorem tree_subst (actuals : List HExpr) (e : HExpr) : (e.subst actuals).tree D
      = (e.tree D).plug fun i => (actuals[i]?.map (tree D)).getD (.read i .ret) := by
  induction e with
  | lit c => simp [subst, tree, plug_answer]
  | «local» slot ty =>
    cases h : actuals[slot]? with
    | none => simp [subst, tree, Tree.plug, h, Tree.andThen]
    | some a => simp [subst, tree, Tree.plug, h, Tree.andThen_ret]
  | app o ty args ih =>
    simp only [subst, tree, trees_eq, substAll_eq, Tree.plug_strict, List.map_map, plug_answer]
    congr 1
    exact List.map_congr_left ih
  | circuit c l r ihl ihr =>
    simp only [subst, tree, ihl, ihr, Tree.plug_andThen]
    congr 1
    funext v
    split <;> rfl
  | call f ty targs rowargs args ih =>
    simp only [subst, tree, trees_eq, substAll_eq, Tree.plug_strict, List.map_map, Tree.plug]
    congr 1
    exact List.map_congr_left ih
  | other k flow => rfl

theorem ordered_answer (hi lo : ℕ) (eff : Eff) (vs : List ν) (w : Option ν) :
    Tree.Ordered hi lo (answer eff vs w) := by
  cases w with
  | none => exact .perform fun v => .ret _ _
  | some v => exact .ret _ _

theorem split_range' {xs ys : List ℕ} {lo n : ℕ} (h : xs ++ ys = List.range' lo n) :
    xs.length + ys.length = n ∧ xs = List.range' lo xs.length ∧ ys = List.range' (lo + xs.length) ys.length := by
  have hn : xs.length + ys.length = n := by simpa using congrArg List.length h
  subst hn
  rw [← List.range'_append_1] at h
  exact ⟨rfl, List.append_inj h (by simp)⟩

theorem ordered_strict {es : List HExpr} {lo n : ℕ} (h : es.flatMap reads = List.range' lo n)
    (ih : ∀ e ∈ es, ∀ lo n, e.reads = List.range' lo n → Tree.Ordered (lo + n) lo (e.tree D))
    {f : List ν → Tree Eff ν} (hf : ∀ vs, Tree.Ordered (lo + n) (lo + n) (f vs)) :
    Tree.Ordered (lo + n) lo (Tree.strict (es.map (tree D)) f) := by
  induction es generalizing lo n f with
  | nil =>
    obtain rfl : n = 0 := by simpa using (congrArg List.length h).symm
    exact hf []
  | cons e es ihs =>
    obtain ⟨rfl, he, hes⟩ := split_range' (by simpa using h)
    apply (ih e List.mem_cons_self lo _ he).andThen (by omega) (by omega)
    intro v
    have rest := ihs (f := fun vs => f (v :: vs)) hes
      (fun e' he' => ih e' (List.mem_cons_of_mem e he'))
      (fun vs => by simpa only [Nat.add_assoc] using hf (v :: vs))
    simpa only [Nat.add_assoc] using rest

theorem ordered_tree (e : HExpr) : ∀ lo n, e.reads = List.range' lo n → Tree.Ordered (lo + n) lo (e.tree D) := by
  induction e with
  | lit c =>
    intro lo n _
    exact ordered_answer _ _ _ _ _
  | «local» slot ty =>
    intro lo n h
    obtain rfl : n = 1 := by simpa [reads] using (congrArg List.length h).symm
    obtain rfl : slot = lo := by simpa [reads] using h
    exact .read (Nat.le_refl _) (by omega) fun v => .ret _ _
  | app o ty args ih =>
    intro lo n h
    simp only [tree, trees_eq]
    exact ordered_strict D (by simpa [reads] using h) ih fun vs => ordered_answer _ _ _ _ _
  | circuit c l r ihl ihr =>
    intro lo n h
    obtain ⟨rfl, hl, hr⟩ := split_range' h
    apply (ihl lo _ hl).andThen (by omega) (by omega)
    intro v
    split
    · exact .ret _ _
    · simpa only [Nat.add_assoc] using ihr _ _ hr
  | call f ty targs rowargs args ih =>
    intro lo n h
    simp only [tree, trees_eq]
    exact ordered_strict D (by simpa [reads] using h) ih fun vs => .perform fun v => .ret _ _
  | other k flow =>
    intro lo n _
    exact .perform fun v => .ret _ _

end HExpr

end LoomV4.Hir
