import LoomV4.Hir.Inline

namespace LoomV4.Hir

open List
open Lib (Tree)

inductive Target where
  | func (f : ℕ) (targs : List TypeId) (rowargs : List Row)
  | construct (cls : ℕ) (targs : List TypeId)
  | method (selector : String) (targs : List TypeId) (rowargs : List Row)

def Target.eff : Target → Eff
  | .func f targs rowargs => .call f targs rowargs
  | .construct cls targs => .construct cls targs
  | .method selector targs rowargs => .method selector targs rowargs

/-- The code of a call: the expansion of the callee, or the operands up to the first that
cannot complete, with the call behind them if all can. -/
inductive Code where
  | inline (e : HExpr)
  | operands (es : List HExpr) (complete : Bool) (eff : Eff)

def lowerOperands : List HExpr → List HExpr × Bool
  | [] => ([], true)
  | e :: es =>
    if e.flow = .normal then (e :: (lowerOperands es).1, (lowerOperands es).2)
    else ([e], false)

def lowerCall (funcs : List HirFunc) (target : Target) (args : List HExpr) : Code :=
  let direct := .operands (lowerOperands args).1 (lowerOperands args).2 target.eff
  match target with
  | .func f _ rowargs =>
    match expandCall funcs f rowargs args with
    | some e => .inline e
    | none => direct
  | _ => direct

section Lowered

variable {funcs : List HirFunc} {ν : Type} {D : Values ν} {σ ε : Type}

def Code.run (D : Values ν) (H : Eff → List ν → EStateM ε σ ν) (R : ℕ → EStateM ε σ ν) :
    Code → EStateM ε σ ν
  | .inline e => (e.tree D).run H R
  | .operands es complete eff => do
    let vs ← es.mapM fun e => (e.tree D).run H R
    H (if complete then eff else .unreachable) vs

def Target.text (funcs : List HirFunc) (n : ℕ) : Target → Option HExpr
  | .func f _ rowargs => expandCall funcs f rowargs (formals n)
  | _ => none

def Target.entered (funcs : List HirFunc) (D : Values ν) (H : Eff → List ν → EStateM ε σ ν)
    (target : Target) (vs : List ν) : EStateM ε σ ν :=
  match target.text funcs vs.length with
  | some e => (e.tree D).run H (parameters H vs)
  | none => H target.eff vs

/-- Expressions that cannot complete do not. -/
def NeverReturn (D : Values ν) (H : Eff → List ν → EStateM ε σ ν) (R : ℕ → EStateM ε σ ν)
    (es : List HExpr) : Prop :=
  ∀ e ∈ es, e.flow = .never → ∀ s, ∃ x s', (e.tree D).run H R s = .error x s'

theorem mapM_bind_congr {α β γ : Type} {xs : List α} {f : α → EStateM ε σ β}
    {g g' : List β → EStateM ε σ γ} (h : ∀ ys, ys.length = xs.length → g ys = g' ys) :
    xs.mapM f >>= g = xs.mapM f >>= g' := by
  induction xs generalizing g g' with
  | nil => simp [h [] rfl]
  | cons x xs ih =>
    simp only [mapM_cons, bind_assoc, pure_bind]
    congr 1
    funext y
    exact ih fun ys hys => h (y :: ys) (by simp [hys])

variable {H : Eff → List ν → EStateM ε σ ν} {R : ℕ → EStateM ε σ ν}

theorem mapM_bind_of_never {es : List HExpr} (law : NeverReturn D H R es) (hes : ¬ es.all (·.flow = .normal))
    (g g' : List ν → EStateM ε σ ν) :
    (es.mapM fun e => (e.tree D).run H R) >>= g = (es.mapM fun e => (e.tree D).run H R) >>= g' := by
  induction es generalizing g g' with
  | nil => simp at hes
  | cons e es ih =>
    simp only [mapM_cons, bind_assoc, pure_bind]
    cases hf : e.flow with
    | normal =>
      congr 1
      funext v
      exact ih (fun e he => law e (mem_cons_of_mem _ he)) (by simpa [hf] using hes) _ _
    | never =>
      funext s
      obtain ⟨x, s', hx⟩ := law e mem_cons_self hf s
      simp [bind, EStateM.bind, hx]

theorem run_operands {es : List HExpr} (law : NeverReturn D H R es) (eff : Eff) :
    (Code.operands (lowerOperands es).1 (lowerOperands es).2 eff).run D H R
      = (es.mapM fun e => (e.tree D).run H R) >>= H eff := by
  have behind : ∀ g : Bool → List ν → EStateM ε σ ν,
      ((lowerOperands es).1.mapM fun e => (e.tree D).run H R) >>= g (lowerOperands es).2
        = (es.mapM fun e => (e.tree D).run H R) >>= g true := by
    induction es with
    | nil => exact fun g => rfl
    | cons e es ih =>
      intro g
      cases hf : e.flow with
      | normal =>
        simp only [lowerOperands, hf, if_true, mapM_cons, bind_assoc, pure_bind]
        congr 1
        funext v
        exact ih (fun e he => law e (mem_cons_of_mem _ he)) fun b vs => g b (v :: vs)
      | never =>
        funext s
        obtain ⟨x, s', hx⟩ := law e mem_cons_self hf s
        simp [lowerOperands, hf, bind, EStateM.bind, hx]
  simpa [Code.run] using behind fun b vs => H (if b then eff else .unreachable) vs

theorem formals_normal (n : ℕ) : (formals n).all (·.flow = .normal) := by
  simp [formals, HExpr.flow, NEVER]

variable {args : List HExpr}

theorem exists_text (D : Values ν) {f : ℕ} {rowargs : List Row} {e : HExpr}
    (h : expandCall funcs f rowargs args = some e) :
    ∃ b : HExpr, b.reads = List.range' 0 args.length ∧ Uniform (b.tree D) ∧
      ∀ args', args'.length = args.length → args'.all (·.flow = .normal) →
        expandCall funcs f rowargs args' = some (b.subst args') := by
  obtain ⟨rfl, t, ht, he⟩ := exists_of_expandCall h
  obtain ⟨b, cost, -, o⟩ := exists_opening (D := D) he
  refine ⟨b, by simpa using o.reads, o.uniform, fun args' hl hf => ?_⟩
  simp [expandCall, hf, ht, instantiateInline,
    o.again _ args' 0 [] (Nat.le_refl _) hl (Nat.le_refl _) (Subset.refl _), hl]

theorem exists_target_text (D : Values ν) {target : Target} {n : ℕ} {e : HExpr} (h : target.text funcs n = some e) :
    ∃ b : HExpr, e = b.subst (formals n) ∧ b.reads = List.range' 0 n ∧ Uniform (b.tree D) ∧
      ∀ args, args.length = n → args.all (·.flow = .normal) →
        lowerCall funcs target args = .inline (b.subst args) := by
  have hl : (formals n).length = n := by simp [formals]
  cases target with
  | construct cls targs => cases h
  | method selector targs rowargs => cases h
  | func f targs rowargs =>
    obtain ⟨b, hr, hu, again⟩ := exists_text D h
    rw [hl] at hr again
    have hs := again (formals n) hl (formals_normal n)
    refine ⟨b, Option.some.inj (Eq.trans h.symm hs), hr, hu, fun args ha hf => ?_⟩
    simp only [lowerCall, again args ha hf]

theorem lowerCall_of_no_text {target : Target} (h : target.text funcs args.length = none) :
    lowerCall funcs target args
      = .operands (lowerOperands args).1 (lowerOperands args).2 target.eff := by
  cases target with
  | construct cls targs => rfl
  | method selector targs rowargs => rfl
  | func f targs rowargs =>
    cases he : expandCall funcs f rowargs args with
    | none => simp only [lowerCall, he]
    | some e =>
      obtain ⟨b, -, -, again⟩ := exists_text boolValues he
      have ht := again (formals args.length) (by simp [formals]) (formals_normal _)
      exact absurd (ht.symm.trans h) (by simp)

theorem lowerCall_of_never (target : Target) (h : ¬ args.all (·.flow = .normal)) :
    lowerCall funcs target args = .operands (lowerOperands args).1 (lowerOperands args).2 target.eff := by
  cases target with
  | construct cls targs => rfl
  | method selector targs rowargs => rfl
  | func f targs rowargs => simp [lowerCall, expandCall, h]

theorem run_lowerCall {target : Target} (law : NeverReturn D H R args)
    (first : ∀ e, target.text funcs args.length = some e → Tree.ReadsFirst args.length 0 (e.tree D)) :
    (lowerCall funcs target args).run D H R
      = (args.mapM fun a => (a.tree D).run H R) >>= target.entered funcs D H := by
  cases ht : target.text funcs args.length with
  | none =>
    rw [lowerCall_of_no_text ht, run_operands law]
    apply mapM_bind_congr
    intro vs hvs
    simp only [Target.entered, hvs, ht]
  | some e =>
    obtain ⟨b, rfl, hr, -, inline⟩ := exists_target_text D ht
    by_cases hf : args.all (·.flow = .normal)
    · have hb := first _ ht
      rw [tree_subst_formals] at hb
      rw [inline args rfl hf, Code.run, run_subst hr hb]
      apply mapM_bind_congr
      intro vs hvs
      simp only [Target.entered, hvs, ht, tree_subst_formals]
    · rw [lowerCall_of_never target hf, run_operands law]
      exact mapM_bind_of_never law hf _ _

end Lowered

end LoomV4.Hir
