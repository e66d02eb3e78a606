import LoomV4.Hir.Expr
import Mathlib.Logic.Relation

namespace LoomV4.Hir

open List Option HExpr Function

open Lib (Tree)

inductive HStmt where
  | expr (e : HExpr)
  | other (kind : ℕ)

structure HirFunc where
  imported : Bool
  core : Bool
  effectParams : ℕ
  params : List TypeId
  row : Row
  captures : List TypeId
  locals : List TypeId
  body : List HStmt

def INLINE_NODE_LIMIT : ℕ := 8

def inlineBody (func : HirFunc) : Option HExpr :=
  if (func.imported && !func.core) || func.effectParams ≠ 0 || !func.row.isEmpty
      || !func.captures.isEmpty || func.locals.length ≠ func.params.length then none
  else match func.body with
    | [.expr e] => some e
    | _ => none

def instantiateOperands (step : HExpr → ℕ → ℕ → Option (HExpr × ℕ × ℕ)) :
    List HExpr → ℕ → ℕ → Option (List HExpr × ℕ × ℕ)
  | [], next, nodes => some ([], next, nodes)
  | e :: es, next, nodes => do
    let (e', next, nodes) ← step e next nodes
    let (es', next, nodes) ← instantiateOperands step es next nodes
    some (e' :: es', next, nodes)

/-- Every visit counts a node, so the first argument never runs out before the node limit. -/
def instantiateInlineExpr (bodies : List (Option HExpr)) (fuel : ℕ) (expr : HExpr)
    (args : List HExpr) (next nodes : ℕ) (active : List ℕ) : Option (HExpr × ℕ × ℕ) :=
  match fuel with
  | 0 => none
  | fuel + 1 =>
    if INLINE_NODE_LIMIT < nodes + 1 then none
    else match expr with
      | .local slot _ =>
        if slot ≠ next then none
        else args[slot]?.map fun a => (a, next + 1, nodes + 1)
      | .lit c => some (.lit c, next, nodes + 1)
      | .app o ty operands => do
        let (operands, next, nodes) ← instantiateOperands
          (fun e next nodes => instantiateInlineExpr bodies fuel e args next nodes active)
          operands next (nodes + 1)
        some (.app o ty operands, next, nodes)
      | .circuit c left right => do
        let (left, next, nodes) ←
          instantiateInlineExpr bodies fuel left args next (nodes + 1) active
        let (right, next, nodes) ← instantiateInlineExpr bodies fuel right args next nodes active
        some (.circuit c left right, next, nodes)
      | .call func _ targs rowargs callArgs =>
        if !targs.isEmpty || !rowargs.isEmpty || active.contains func then none
        else do
          let (callArgs, next, nodes) ← instantiateOperands
            (fun e next nodes => instantiateInlineExpr bodies fuel e args next nodes active)
            callArgs next (nodes + 1)
          let template ← bodies[func]?.join
          let (expanded, calleeNext, nodes) ←
            instantiateInlineExpr bodies fuel template callArgs 0 nodes (func :: active)
          if calleeNext ≠ callArgs.length then none else some (expanded, next, nodes)
      | .other _ _ => none

def instantiateInline (template : HExpr) (args : List HExpr) (bodies : List (Option HExpr)) :
    Option HExpr := do
  let (expr, next, _) ←
    instantiateInlineExpr bodies (INLINE_NODE_LIMIT + 1) template args 0 0 []
  if next = args.length then some expr else none

def formals (n : ℕ) : List HExpr :=
  (List.range n).map fun i => .local i 0

section Meaning

variable (bodies : List (Option HExpr)) {ν : Type} (D : Values ν) {σ ε : Type}

/-- A call of the function with `n` arguments expands, and `e` is its text over the
parameters. -/
def Opens (f n : ℕ) (e : HExpr) : Prop :=
  ∃ t, bodies[f]?.join = some t ∧ instantiateInline t (formals n) bodies = some e

/-- Whatever the arguments are, a body that expands reads all of its parameters before it
asks anything else of the machine. -/
def ReadsParametersFirst : Prop :=
  ∀ f n e, Opens bodies f n e → Tree.ReadsFirst n 0 (e.tree D)

def parameters (H : Eff → List ν → EStateM ε σ ν) (vs : List ν) : ℕ → EStateM ε σ ν :=
  Tree.given (fun i => H (.unset i) []) vs

/-- A call of a function that can be expanded runs the body of the function. -/
def RunsBodies (H : Eff → List ν → EStateM ε σ ν) : Prop :=
  ∀ f t n e, bodies[f]?.join = some t → Opens bodies f n e →
    ∀ targs vs, H (.call f targs []) vs = (t.tree D).run H (parameters H vs)

def OnMachines (P : ∀ {σ ε : Type}, (Eff → List ν → EStateM ε σ ν) → Prop) : Prop :=
  ReadsParametersFirst bodies D →
    ∀ {σ ε : Type} (H : Eff → List ν → EStateM ε σ ν), RunsBodies bodies D H → P H

def Uniform (p : Tree Eff ν) : Prop :=
  ∀ {σ ε : Type} (H H' : Eff → List ν → EStateM ε σ ν) (R : ℕ → EStateM ε σ ν),
    (∀ c, H (.lit c) = H' (.lit c)) → (∀ o, H (.op o) = H' (.op o)) → p.run H R = p.run H' R

def closure (base : Eff → List ν → EStateM ε σ ν) : ℕ → Eff → List ν → EStateM ε σ ν
  | m + 1, .call f _ _, vs =>
    match bodies[f]?.join with
    | some t => (t.tree D).run (closure base m) (Tree.given (fun i => base (.unset i) []) vs)
    | none => base (.unset f) []
  | _, eff, vs => base eff vs

def Shallow (fuel : ℕ) (p : Tree Eff ν) : Prop :=
  ∀ {σ ε : Type} (base : Eff → List ν → EStateM ε σ ν) (m m' : ℕ) (R : ℕ → EStateM ε σ ν),
    fuel ≤ m → fuel ≤ m' → p.run (closure bodies D base m) R = p.run (closure bodies D base m') R

/-- The expression `e` of a template becomes the text `b` over the parameters: the expansion
puts arguments into that text, whatever they are, moves the read counter from `next` to
`next'` and counts `cost` nodes. -/
structure Opening (fuel : ℕ) (e : HExpr) (arity next nodes : ℕ) (active : List ℕ)
    (b : HExpr) (next' cost : ℕ) : Prop where
  le : next ≤ next'
  reads : b.reads = List.range' next (next' - next)
  below : ∀ i ∈ b.reads, i < arity
  again : ∀ fuel' args nodes' active', fuel ≤ fuel' → args.length = arity → nodes' ≤ nodes →
    active' ⊆ active → instantiateInlineExpr bodies fuel' e args next nodes' active'
      = some (b.subst args, next', nodes' + cost)
  meaning : OnMachines bodies D fun H => ∀ R, (b.tree D).run H R = (e.tree D).run H R
  uniform : Uniform (b.tree D)
  shallow : Shallow bodies D fuel (e.tree D)

structure OperandsOpening (fuel : ℕ) (es : List HExpr) (arity next nodes : ℕ) (active : List ℕ)
    (bs : List HExpr) (next' cost : ℕ) : Prop where
  le : next ≤ next'
  reads : bs.flatMap HExpr.reads = List.range' next (next' - next)
  below : ∀ i ∈ bs.flatMap HExpr.reads, i < arity
  again : ∀ fuel' args nodes' active', fuel ≤ fuel' → args.length = arity → nodes' ≤ nodes →
    active' ⊆ active → instantiateOperands
        (fun e next nodes => instantiateInlineExpr bodies fuel' e args next nodes active')
        es next nodes'
      = some (bs.map (HExpr.subst args), next', nodes' + cost)
  meaning : OnMachines bodies D fun H => ∀ R,
    bs.mapM (fun b => (b.tree D).run H R) = es.mapM fun e => (e.tree D).run H R
  uniform : ∀ b ∈ bs, Uniform (b.tree D)
  shallow : ∀ e ∈ es, Shallow bodies D fuel (e.tree D)

variable {bodies D}

theorem join_range' {lo mid hi : ℕ} (h1 : lo ≤ mid) (h2 : mid ≤ hi) :
    List.range' lo (mid - lo) ++ List.range' mid (hi - mid) = List.range' lo (hi - lo) := by
  have hm : lo + (mid - lo) = mid := by omega
  have hl : mid - lo + (hi - mid) = hi - lo := by omega
  rw [← hl, ← range'_append_1, hm]

def Shows (bodies : List (Option HExpr)) (D : Values ν) (fuel : ℕ) : Prop :=
  ∀ e args next nodes active r,
    instantiateInlineExpr bodies fuel e args next nodes active = some r →
    ∃ b cost, Opening bodies D fuel e args.length next nodes active b r.2.1 cost

variable {fuel next nodes cost : ℕ} {args : List HExpr} {active : List ℕ} {b : HExpr}

theorem Opening.result {e : HExpr} {r : HExpr × ℕ × ℕ}
    (o : Opening bodies D fuel e args.length next nodes active b r.2.1 cost)
    (h : instantiateInlineExpr bodies fuel e args next nodes active = some r) :
    r = (b.subst args, r.2.1, nodes + cost) :=
  some.inj (h.symm.trans
    (o.again fuel args nodes active (Nat.le_refl _) rfl (Nat.le_refl _) (Subset.refl _)))

variable {es bs : List HExpr}

theorem OperandsOpening.result {r : List HExpr × ℕ × ℕ}
    (os : OperandsOpening bodies D fuel es args.length next nodes active bs r.2.1 cost) (h : instantiateOperands
      (fun e next nodes => instantiateInlineExpr bodies fuel e args next nodes active)
      es next nodes = some r) : r = (bs.map (HExpr.subst args), r.2.1, nodes + cost) :=
  some.inj (h.symm.trans
    (os.again fuel args nodes active (Nat.le_refl _) rfl (Nat.le_refl _) (Subset.refl _)))

theorem Shows.operands (shows : Shows bodies D fuel) (args : List HExpr)
    (active : List ℕ) (es : List HExpr) : ∀ next nodes r, instantiateOperands
      (fun e next nodes => instantiateInlineExpr bodies fuel e args next nodes active)
      es next nodes = some r →
    ∃ bs cost, OperandsOpening bodies D fuel es args.length next nodes active bs r.2.1 cost := by
  induction es with
  | nil =>
    intro next nodes r h
    obtain rfl := some.inj h
    exact ⟨[], 0, by simp, by simp, by simp, fun _ _ _ _ _ _ _ _ => rfl, fun _ _ _ _ _ _ => rfl, by simp, by simp⟩
  | cons e es ih =>
    intro next nodes r h
    simp only [instantiateOperands, bind_eq_bind, bind_eq_some_iff] at h
    obtain ⟨⟨e', n1, c1⟩, h1, ⟨es', n2, c2⟩, h2, h3⟩ := h
    obtain rfl := some.inj h3
    obtain ⟨b, cost, o⟩ := shows e args next nodes active _ h1
    obtain ⟨rfl, rfl⟩ : e' = b.subst args ∧ c1 = nodes + cost := by
      simpa using o.result h1
    obtain ⟨bs, cost', os⟩ := ih n1 (nodes + cost) _ h2
    refine ⟨b :: bs, cost + cost', Nat.le_trans o.le os.le, ?_, ?_, ?_, ?_,
      forall_mem_cons.mpr ⟨o.uniform, os.uniform⟩, forall_mem_cons.mpr ⟨o.shallow, os.shallow⟩⟩
    · simp only [flatMap_cons, o.reads, os.reads]
      exact join_range' o.le os.le
    · intro i hi
      rw [flatMap_cons, mem_append] at hi
      exact hi.elim (o.below i) (os.below i)
    · intro fuel' args' nodes' active' hf ha hn hc
      simp only [instantiateOperands, o.again fuel' args' nodes' active' hf ha hn hc, bind_eq_bind, bind_some,
        os.again fuel' args' (nodes' + cost) active' hf ha (by omega) hc, map_cons, Nat.add_assoc]
    · intro first σ ε H law R
      simp only [mapM_cons, o.meaning first H law R, os.meaning first H law R]

theorem map_getElem? {α β : Type} (xs : List α) (f : α → β) (d : ℕ → β) :
    (List.range' 0 xs.length).map (fun i => (xs[i]?.map f).getD (d i)) = xs.map f := by
  apply ext_getElem (by simp)
  intro i h1 h2
  simp only [length_map] at h2
  simp [h2]

theorem tree_subst_formals (n : ℕ) (b : HExpr) : (b.subst (formals n)).tree D = b.tree D := by
  rw [tree_subst]
  have hin : (fun i => ((formals n)[i]?.map (HExpr.tree D)).getD (.read i .ret))
      = fun i => Tree.read i .ret := by
    funext i
    by_cases hi : i < n
    · simp [formals, hi, HExpr.tree]
    · simp [formals, hi]
  rw [hin, Tree.plug_read]

theorem run_subst (hb : b.reads = List.range' 0 args.length)
    (first : Tree.ReadsFirst args.length 0 (b.tree D)) (H : Eff → List ν → EStateM ε σ ν) (R : ℕ → EStateM ε σ ν) :
    ((b.subst args).tree D).run H R
      = args.mapM (fun a => (a.tree D).run H R) >>= fun vs => (b.tree D).run H (parameters H vs) := by
  have ho : Tree.Ordered (0 + args.length) 0 (b.tree D) := b.ordered_tree D 0 args.length hb
  rw [tree_subst, Tree.run_plug, Tree.run_of_readsFirst H _ (fun i => H (.unset i) [])
    length_nil ho first]
  have each := map_getElem? args (HExpr.tree D) fun i => .read i .ret
  have runs := congrArg (List.mapM (Tree.run H R)) each
  simp only [mapM_map, comp_def] at runs
  rw [runs]
  rfl

theorem uniform_answer {eff : Eff}
    (he : ∀ {σ ε : Type} {H H' : Eff → List ν → EStateM ε σ ν}, (∀ c, H (.lit c) = H' (.lit c)) →
      (∀ o, H (.op o) = H' (.op o)) → H eff = H' eff) (vs : List ν) (w : Option ν) :
    Uniform (HExpr.answer eff vs w) := by
  intro σ ε H H' R hl ho
  cases w with
  | none => simp only [HExpr.answer, Tree.run, he hl ho]
  | some v => rfl

theorem shallow_answer {eff : Eff} (he : ∀ f targs rowargs, eff ≠ .call f targs rowargs)
    (fuel : ℕ) (vs : List ν) (w : Option ν) : Shallow bodies D fuel (HExpr.answer eff vs w) := by
  intro σ ε base m m' R _ _
  have out : ∀ m, closure bodies D base m eff = base eff := by
    intro m
    funext ws
    cases eff with
    | call f targs rowargs => exact absurd rfl (he f targs rowargs)
    | _ => cases m <;> rfl
  cases w with
  | none => simp only [HExpr.answer, Tree.run, out]
  | some v => rfl

theorem mapM_congr {α β : Type} {xs : List α} {f g : α → EStateM ε σ β}
    (h : ∀ x ∈ xs, f x = g x) : xs.mapM f = xs.mapM g := by
  have each : (xs.map f).mapM id = (xs.map g).mapM id := by rw [map_congr_left h]
  simpa [mapM_map] using each

variable {f : List ν → Tree Eff ν}

theorem uniform_strict (h : ∀ b ∈ bs, Uniform (b.tree D)) (hf : ∀ vs, Uniform (f vs)) :
    Uniform (Tree.strict (bs.map (HExpr.tree D)) f) := by
  intro σ ε H H' R hl ho
  simp only [Tree.run_strict, mapM_map, comp_def, fun vs => hf vs H H' R hl ho]
  rw [mapM_congr fun b hb => h b hb H H' R hl ho]

theorem shallow_strict (h : ∀ e ∈ es, Shallow bodies D fuel (e.tree D))
    (hf : ∀ vs, Shallow bodies D (fuel + 1) (f vs)) :
    Shallow bodies D (fuel + 1) (Tree.strict (es.map (HExpr.tree D)) f) := by
  intro σ ε base m m' R hm hm'
  simp only [Tree.run_strict, mapM_map, comp_def, fun vs => hf vs base m m' R hm hm']
  rw [mapM_congr fun e he => h e he base m m' R (by omega) (by omega)]

variable {arity : ℕ}

section

variable (hn : ¬ INLINE_NODE_LIMIT < nodes + 1)

include hn

theorem Opening.lit {c : Lit} : Opening bodies D (fuel + 1) (.lit c) arity next nodes active (.lit c) next 1 where
  le := Nat.le_refl _
  reads := by simp [HExpr.reads]
  below := by simp [HExpr.reads]
  again := by
    intro fuel' args nodes' active' hf ha hle hc
    obtain ⟨fuel', rfl⟩ : ∃ m, fuel' = m + 1 := ⟨fuel' - 1, by omega⟩
    rw [instantiateInlineExpr, if_neg (by omega)]
    rfl
  meaning := fun _ _ _ _ _ _ => rfl
  uniform := uniform_answer (fun h _ => h c) _ _
  shallow := shallow_answer (by simp) _ _ _

theorem Opening.local {slot : ℕ} {ty : TypeId} (hs : slot < arity) :
    Opening bodies D (fuel + 1) (.local slot ty) arity slot nodes active (.local slot ty)
      (slot + 1) 1 where
  le := by omega
  reads := by simp [HExpr.reads]
  below := by simpa [HExpr.reads] using hs
  again := by
    intro fuel' args nodes' active' hf ha hle hc
    obtain ⟨fuel', rfl⟩ : ∃ m, fuel' = m + 1 := ⟨fuel' - 1, by omega⟩
    have hs' : slot < args.length := by omega
    rw [instantiateInlineExpr, if_neg (by omega)]
    simp [HExpr.subst, hs']
  meaning := fun _ _ _ _ _ _ => rfl
  uniform := fun _ _ _ _ _ => rfl
  shallow := fun _ _ _ _ _ _ => rfl

theorem Opening.app {o : Op} {ty : TypeId} {next' : ℕ}
    (os : OperandsOpening bodies D fuel es arity next (nodes + 1) active bs next' cost) :
    Opening bodies D (fuel + 1) (.app o ty es) arity next nodes active (.app o ty bs) next'
      (1 + cost) where
  le := os.le
  reads := by simpa [HExpr.reads] using os.reads
  below := by simpa [HExpr.reads] using os.below
  again := by
    intro fuel' args nodes' active' hf ha hle hc
    obtain ⟨fuel', rfl⟩ : ∃ m, fuel' = m + 1 := ⟨fuel' - 1, by omega⟩
    rw [instantiateInlineExpr, if_neg (by omega)]
    simp only [os.again fuel' args (nodes' + 1) active' (by omega) ha (by omega) hc,
      bind_eq_bind, bind_some, HExpr.subst, substAll_eq, Nat.add_assoc]
  meaning := by
    intro first σ ε H law R
    simp only [HExpr.tree, trees_eq, Tree.run_strict, mapM_map, comp_def, os.meaning first H law R]
  uniform := by
    simp only [HExpr.tree, trees_eq]
    exact uniform_strict os.uniform fun vs => uniform_answer (fun _ h => h o) _ _
  shallow := by
    simp only [HExpr.tree, trees_eq]
    exact shallow_strict os.shallow fun vs => shallow_answer (by simp) _ _ _

theorem Opening.circuit {c : Circuit} {l r : HExpr} {bl br : HExpr} {mid next' cl cr : ℕ}
    (ol : Opening bodies D fuel l arity next (nodes + 1) active bl mid cl)
    (or : Opening bodies D fuel r arity mid (nodes + 1 + cl) active br next' cr) :
    Opening bodies D (fuel + 1) (.circuit c l r) arity next nodes active (.circuit c bl br)
      next' (1 + cl + cr) where
  le := Nat.le_trans ol.le or.le
  reads := by
    simp only [HExpr.reads, ol.reads, or.reads]
    exact join_range' ol.le or.le
  below := fun i hi => (mem_append.mp hi).elim (ol.below i) (or.below i)
  again := by
    intro fuel' args nodes' active' hf ha hle hc
    obtain ⟨fuel', rfl⟩ : ∃ m, fuel' = m + 1 := ⟨fuel' - 1, by omega⟩
    rw [instantiateInlineExpr, if_neg (by omega)]
    simp only [ol.again fuel' args (nodes' + 1) active' (by omega) ha (by omega) hc,
      or.again fuel' args (nodes' + 1 + cl) active' (by omega) ha (by omega) hc, bind_eq_bind, bind_some, HExpr.subst]
    simp only [Nat.add_assoc]
  meaning := by
    intro first σ ε H law R
    simp only [HExpr.tree, Tree.run_andThen, ol.meaning first H law R]
    congr 1
    funext v
    split
    · rfl
    · exact or.meaning first H law R
  uniform := by
    intro σ ε H H' R hl ho
    simp only [HExpr.tree, Tree.run_andThen, ol.uniform H H' R hl ho]
    congr 1
    funext v
    split
    · rfl
    · exact or.uniform H H' R hl ho
  shallow := by
    intro σ ε base m m' R hm hm'
    simp only [HExpr.tree, Tree.run_andThen, ol.shallow base m m' R (by omega) (by omega)]
    congr 1
    funext v
    split
    · rfl
    · exact or.shallow base m m' R (by omega) (by omega)

end

variable {t : HExpr}

theorem Opening.opens {f n : ℕ} (hf : fuel ≤ INLINE_NODE_LIMIT + 1) (ht : bodies[f]?.join = some t)
    (o : Opening bodies D fuel t n 0 nodes active b n cost) : Opens bodies f n (b.subst (formals n)) := by
  refine ⟨t, ht, ?_⟩
  have hl : (formals n).length = n := by simp [formals]
  simp [instantiateInline, o.again _ (formals n) 0 [] hf hl (Nat.zero_le _)
    (nil_subset _), hl]

theorem Opening.readsFirst {f n : ℕ} (hf : fuel ≤ INLINE_NODE_LIMIT + 1) (ht : bodies[f]?.join = some t)
    (o : Opening bodies D fuel t n 0 nodes active b n cost)
    (first : ReadsParametersFirst bodies D) : Tree.ReadsFirst n 0 (b.tree D) :=
  tree_subst_formals (D := D) n b ▸ first f n _ (o.opens hf ht)

theorem Opening.run_call {f : ℕ} (hf : fuel ≤ INLINE_NODE_LIMIT + 1) (ht : bodies[f]?.join = some t)
    (o : Opening bodies D fuel t args.length 0 nodes active b args.length cost)
    (first : ReadsParametersFirst bodies D) (H : Eff → List ν → EStateM ε σ ν)
    (law : RunsBodies bodies D H) (R : ℕ → EStateM ε σ ν) (targs : List TypeId) : ((b.subst args).tree D).run H R
      = args.mapM (fun a => (a.tree D).run H R) >>= H (.call f targs []) := by
  rw [run_subst (by simpa using o.reads) (o.readsFirst hf ht first)]
  congr 1
  funext vs
  rw [o.meaning first H law, law f t _ _ ht (o.opens hf ht) targs vs]

theorem Opening.call {f : ℕ} {ty : TypeId} {next' cost' : ℕ}
    (hn : ¬ INLINE_NODE_LIMIT < nodes + 1) (hu : fuel ≤ INLINE_NODE_LIMIT + 1)
    (hc : f ∉ active) (ht : bodies[f]?.join = some t)
    (os : OperandsOpening bodies D fuel es arity next (nodes + 1) active bs next' cost)
    (o : Opening bodies D fuel t bs.length 0 (nodes + 1 + cost) (f :: active) b bs.length cost') :
    Opening bodies D (fuel + 1) (.call f ty [] [] es) arity next nodes active (b.subst bs)
      next' (1 + cost + cost') where
  le := os.le
  reads := by
    have each := map_getElem? bs HExpr.reads fun _ => []
    have hr : b.reads = List.range' 0 bs.length := by simpa using o.reads
    rw [reads_subst b o.below, hr, ← os.reads, flatMap_def, each]
    rfl
  below := by
    intro i hi
    rw [reads_subst b o.below, mem_flatMap] at hi
    obtain ⟨j, hj, hi⟩ := hi
    have hlt : j < bs.length := o.below j hj
    refine os.below i (mem_flatMap.mpr ⟨bs[j], getElem_mem hlt, ?_⟩)
    simpa [hlt] using hi
  again := by
    intro fuel' args nodes' active' hf ha hle hac
    obtain ⟨fuel', rfl⟩ : ∃ m, fuel' = m + 1 := ⟨fuel' - 1, by omega⟩
    have he : f ∉ active' := fun h => hc (hac h)
    have hs : f :: active' ⊆ f :: active := cons_subset_cons f hac
    rw [instantiateInlineExpr, if_neg (by omega)]
    simp only [isEmpty_nil, Bool.not_true, Bool.false_or, contains_iff_mem, he,
      if_false, os.again fuel' args (nodes' + 1) active' (by omega) ha (by omega) hac, ht, bind_eq_bind, bind_some,
      o.again fuel' (bs.map (HExpr.subst args)) (nodes' + 1 + cost) (f :: active') (by omega)
        (by simp) (by omega) hs, length_map, ne_eq, not_true_eq_false, subst_subst b o.below]
    simp only [Nat.add_assoc]
  meaning := by
    intro first σ ε H law R
    simp only [o.run_call hu ht first H law R [], os.meaning first H law R, HExpr.tree,
      trees_eq, Tree.run_strict, mapM_map, comp_def, Tree.run, bind_pure]
  uniform := by
    intro σ ε H H' R hl ho
    rw [tree_subst, Tree.run_plug, Tree.run_plug, o.uniform H H' _ hl ho]
    congr 1
    funext i
    cases hi : bs[i]? with
    | none => rfl
    | some a => exact os.uniform a (mem_of_getElem? hi) H H' R hl ho
  shallow := by
    simp only [HExpr.tree, trees_eq]
    refine shallow_strict os.shallow fun vs σ ε base m m' R hm hm' => ?_
    obtain ⟨m, rfl⟩ : ∃ k, m = k + 1 := ⟨m - 1, by omega⟩
    obtain ⟨m', rfl⟩ : ∃ k, m' = k + 1 := ⟨m' - 1, by omega⟩
    simp only [Tree.run, closure, ht, o.shallow base m m' _ (by omega) (by omega)]

/-- By the depth of the expansion; a node's text is put together from those of its parts. -/
theorem shows (fuel : ℕ) (hf : fuel ≤ INLINE_NODE_LIMIT + 1) : Shows bodies D fuel := by
  induction fuel with
  | zero =>
    intro e args next nodes active r h
    simp [instantiateInlineExpr] at h
  | succ fuel ih =>
    have shows := ih (by omega)
    intro e args next nodes active r h
    unfold instantiateInlineExpr at h
    split at h
    · cases h
    rename_i hn
    cases e with
    | lit c =>
      obtain rfl := some.inj h
      exact ⟨.lit c, 1, .lit hn⟩
    | «local» slot ty =>
      dsimp only at h
      split at h
      · cases h
      rename_i hs
      obtain rfl := not_ne_iff.mp hs
      obtain ⟨a, ha, rfl⟩ := map_eq_some_iff.mp h
      exact ⟨.local slot ty, 1, .local hn (List.getElem?_eq_some_iff.mp ha).1⟩
    | app o ty es =>
      simp only [bind_eq_bind, bind_eq_some_iff] at h
      obtain ⟨⟨es', n', c'⟩, h1, h2⟩ := h
      obtain rfl := some.inj h2
      obtain ⟨bs, cost, os⟩ := shows.operands args active es next (nodes + 1) _ h1
      exact ⟨_, _, .app hn os⟩
    | circuit c l r =>
      simp only [bind_eq_bind, bind_eq_some_iff] at h
      obtain ⟨⟨l', n1, c1⟩, h1, ⟨r', n2, c2⟩, h2, h3⟩ := h
      obtain rfl := some.inj h3
      obtain ⟨bl, cl, ol⟩ := shows l args next (nodes + 1) active _ h1
      obtain ⟨rfl, rfl⟩ : l' = bl.subst args ∧ c1 = nodes + 1 + cl := by
        simpa using ol.result h1
      obtain ⟨br, cr, or⟩ := shows r args n1 (nodes + 1 + cl) active _ h2
      exact ⟨_, _, .circuit hn ol or⟩
    | call f ty targs rowargs es =>
      dsimp only at h
      split at h
      · cases h
      rename_i hc
      simp only [Bool.or_eq_true, Bool.not_eq_true', isEmpty_eq_false_iff, not_or, ne_eq,
        not_not, contains_iff_mem] at hc
      obtain ⟨⟨rfl, rfl⟩, hi⟩ := hc
      simp only [bind_eq_bind, bind_eq_some_iff] at h
      obtain ⟨⟨es', n1, c1⟩, h1, t, ht, ⟨e', n2, c2⟩, h2, h3⟩ := h
      split at h3
      · cases h3
      rename_i hl
      obtain rfl := some.inj h3
      obtain ⟨bs, cost, os⟩ := shows.operands args active es next (nodes + 1) _ h1
      obtain ⟨rfl, rfl⟩ : es' = bs.map (HExpr.subst args) ∧ c1 = nodes + 1 + cost := by
        simpa using os.result h1
      obtain ⟨b, cost', o⟩ := shows t _ 0 _ (f :: active) _ h2
      obtain rfl : n2 = bs.length := by simpa using hl
      rw [length_map] at o
      exact ⟨_, _, .call hn (by omega) hi ht os o⟩
    | other k flow => cases h

theorem exists_opening {e : HExpr} (h : instantiateInline t args bodies = some e) : ∃ b cost, e = b.subst args ∧
      Opening bodies D (INLINE_NODE_LIMIT + 1) t args.length 0 0 [] b args.length cost := by
  simp only [instantiateInline, bind_eq_bind, bind_eq_some_iff] at h
  obtain ⟨⟨e', next, nodes⟩, h1, h2⟩ := h
  split at h2
  · rename_i he
    obtain rfl := some.inj h2
    obtain ⟨b, cost, o⟩ := shows (D := D) _ (Nat.le_refl _) t args 0 0 [] _ h1
    obtain ⟨rfl, -⟩ : e' = b.subst args ∧ nodes = 0 + cost := by simpa using o.result h1
    obtain rfl : next = args.length := he
    exact ⟨b, cost, rfl, o⟩
  · cases h2

end Meaning

def inlineBodies (funcs : List HirFunc) : List (Option HExpr) :=
  funcs.map inlineBody

def expandCall (funcs : List HirFunc) (func : ℕ) (rowargs : List Row) (args : List HExpr) :
    Option HExpr :=
  if rowargs.isEmpty && args.all (·.flow = .normal) then do
    let template ← (inlineBodies funcs)[func]?.join
    instantiateInline template args (inlineBodies funcs)
  else none

inductive Expands (funcs : List HirFunc) : HExpr → HExpr → Prop where
  | here {f ty targs rowargs args e} (h : expandCall funcs f rowargs args = some e) :
      Expands funcs (.call f ty targs rowargs args) e
  | app {o ty a a'} (before after : List HExpr) (h : Expands funcs a a') :
      Expands funcs (.app o ty (before ++ a :: after)) (.app o ty (before ++ a' :: after))
  | left {c l l' r} (h : Expands funcs l l') : Expands funcs (.circuit c l r) (.circuit c l' r)
  | right {c l r r'} (h : Expands funcs r r') : Expands funcs (.circuit c l r) (.circuit c l r')
  | call {f ty targs rowargs a a'} (before after : List HExpr) (h : Expands funcs a a') :
      Expands funcs (.call f ty targs rowargs (before ++ a :: after))
        (.call f ty targs rowargs (before ++ a' :: after))

section Expansion

variable {funcs : List HirFunc} {ν : Type} {D : Values ν} {σ ε : Type}

theorem exists_of_expandCall {f : ℕ} {rowargs : List Row} {args : List HExpr} {e : HExpr}
    (h : expandCall funcs f rowargs args = some e) : rowargs = [] ∧ ∃ t, (inlineBodies funcs)[f]?.join = some t ∧
        instantiateInline t args (inlineBodies funcs) = some e := by
  unfold expandCall at h
  split at h
  · rename_i hc
    simp only [Bool.and_eq_true, List.isEmpty_iff] at hc
    exact ⟨hc.1, by simpa [bind_eq_some_iff] using h⟩
  · cases h

theorem Expands.run (first : ReadsParametersFirst (inlineBodies funcs) D)
    (H : Eff → List ν → EStateM ε σ ν) (law : RunsBodies (inlineBodies funcs) D H)
    (R : ℕ → EStateM ε σ ν) {e e' : HExpr} (h : Expands funcs e e') : (e'.tree D).run H R = (e.tree D).run H R := by
  induction h with
  | @here f ty targs rowargs args e h =>
    obtain ⟨rfl, t, ht, he⟩ := exists_of_expandCall h
    obtain ⟨b, cost, rfl, o⟩ := exists_opening (D := D) he
    rw [o.run_call (Nat.le_refl _) ht first H law R targs]
    simp only [HExpr.tree, trees_eq, Tree.run_strict, mapM_map, comp_def, Tree.run, bind_pure]
  | app before after _ ih =>
    simp [HExpr.tree, Tree.run_strict, mapM_map, comp_def, ih]
  | left _ ih => simp only [HExpr.tree, Tree.run_andThen, ih]
  | right _ ih =>
    simp only [HExpr.tree, Tree.run_andThen]
    congr 1
    funext v
    split
    · rfl
    · exact ih
  | call before after _ ih =>
    simp [HExpr.tree, Tree.run_strict, mapM_map, comp_def, ih]

def unknowns (n : ℕ) : List HExpr :=
  (List.range n).map fun i => .other i .normal

theorem expandCall_unknowns {f n cost : ℕ} {t b : HExpr} (ht : (inlineBodies funcs)[f]?.join = some t)
    (o : Opening (inlineBodies funcs) D (INLINE_NODE_LIMIT + 1) t n 0 0 [] b n cost) :
    expandCall funcs f [] (unknowns n) = some (b.subst (unknowns n)) := by
  have hl : (unknowns n).length = n := by simp [unknowns]
  have hf : (unknowns n).all (·.flow = .normal) := by simp [unknowns, HExpr.flow]
  simp [expandCall, hf, ht, instantiateInline,
    o.again _ (unknowns n) 0 [] (Nat.le_refl _) hl (Nat.le_refl _) (Subset.refl _), hl]

def stopping (vs : ℕ → ν) (i : ℕ) : Eff → List ν → EStateM (Option ℕ) Unit ν
  | .other j, _ => Tree.upTo vs i j
  | _, _ => throw none

theorem mapM_upTo (vs : ℕ → ν) (k : ℕ) : ∀ lo n, k < n →
    (List.range' lo n).mapM (Tree.upTo vs (lo + k)) () = .error (some (lo + k)) () := by
  induction k with
  | zero =>
    intro lo n hn
    obtain ⟨n, rfl⟩ : ∃ m, n = m + 1 := ⟨n - 1, by omega⟩
    simp [range'_succ, Tree.upTo, bind, EStateM.bind, Tree.throw_eq]
  | succ k ih =>
    intro lo n hn
    obtain ⟨n, rfl⟩ : ∃ m, n = m + 1 := ⟨n - 1, by omega⟩
    have rest := ih (lo + 1) n (by omega)
    rw [show lo + 1 + k = lo + (k + 1) by omega] at rest
    have here : Tree.upTo vs (lo + (k + 1)) lo = pure (vs lo) := if_pos (by omega)
    simp only [range'_succ, mapM_cons, here, pure_bind]
    simp only [bind, EStateM.bind, rest]

theorem closure_runsBodies (base : Eff → List ν → EStateM ε σ ν) : RunsBodies (inlineBodies funcs) D
      (closure (inlineBodies funcs) D base (INLINE_NODE_LIMIT + 2)) := by
  rintro f t n e ht ⟨t', ht', he⟩ targs vs
  obtain rfl : t = t' := mem_unique ht ht'
  obtain ⟨b, cost, -, o⟩ := exists_opening (D := D) he
  conv_lhs => rw [closure, ht]
  exact o.shallow base _ _ _ (Nat.le_refl _) (Nat.le_succ _)

theorem stopping_uniform (bodies : List (Option HExpr)) (vs : ℕ → ν) (i m : ℕ) {p : Tree Eff ν}
    (hp : Uniform p) (R : ℕ → EStateM (Option ℕ) Unit ν) :
    p.run (closure bodies D (stopping vs i) m) R = p.run Tree.noOperation R :=
  hp _ _ R (fun c => by cases m <;> rfl) fun o => by cases m <;> rfl

theorem stops_of_preserves {f n cost : ℕ} {t b : HExpr}
    (preserves : ∀ {σ ε : Type} (H : Eff → List ν → EStateM ε σ ν),
      RunsBodies (inlineBodies funcs) D H → ∀ R e e', Relation.ReflTransGen (Expands funcs) e e' →
        (e'.tree D).run H R = (e.tree D).run H R)
    (ht : (inlineBodies funcs)[f]?.join = some t)
    (o : Opening (inlineBodies funcs) D (INLINE_NODE_LIMIT + 1) t n 0 0 [] b n cost)
    (vs : ℕ → ν) {i : ℕ} (hi : i < n) :
    (b.tree D).run Tree.noOperation (Tree.upTo vs i) () = .error (some i) () := by
  have ho : Tree.Ordered (0 + n) 0 (b.tree D) := b.ordered_tree D 0 n (by simpa using o.reads)
  have unknown : ∀ j R, ((HExpr.other j .normal).tree D).run
      (closure (inlineBodies funcs) D (stopping vs i) (INLINE_NODE_LIMIT + 2)) R
        = Tree.upTo vs i j := by
    intro j R
    simp [HExpr.tree, Tree.run, closure, stopping]
  have step : Expands funcs (.call f 0 [] [] (unknowns n)) (b.subst (unknowns n)) :=
    .here (expandCall_unknowns ht o)
  have same := preserves _ (closure_runsBodies (stopping vs i)) (fun _ => throw none) _ _
    (.single step)
  have ha : (unknowns n).mapM (fun a => (a.tree D).run
      (closure (inlineBodies funcs) D (stopping vs i) (INLINE_NODE_LIMIT + 2))
      (fun _ => throw none)) () = .error (some i) () := by
    simp only [unknowns, mapM_map, comp_def, unknown]
    simpa [range_eq_range'] using mapM_upTo vs i 0 n hi
  rw [tree_subst, Tree.run_plug, stopping_uniform _ vs i _ o.uniform] at same
  have inputs : (b.tree D).run Tree.noOperation (Tree.upTo vs i) = _ :=
    (ho.run_congr Tree.noOperation fun j _ hj => by
      simp [unknowns, show j < n by omega, unknown]).symm.trans same
  rw [inputs]
  simp only [HExpr.tree, trees_eq, Tree.run_strict, mapM_map, comp_def]
  simp only [bind, EStateM.bind, ha]

theorem inlining_preserves_iff (funcs : List HirFunc) (D : Values ν) :
    (∀ {σ ε : Type} (H : Eff → List ν → EStateM ε σ ν), RunsBodies (inlineBodies funcs) D H →
      ∀ R e e', Relation.ReflTransGen (Expands funcs) e e' → (e'.tree D).run H R = (e.tree D).run H R) ↔
    ReadsParametersFirst (inlineBodies funcs) D := by
  constructor
  · rintro preserves f n e ⟨t, ht, he⟩
    obtain ⟨b, cost, rfl, o⟩ := exists_opening (D := D) he
    have hlen : (formals n).length = n := by simp [formals]
    rw [hlen] at o
    rw [tree_subst_formals]
    have : Inhabited ν := ⟨D.ofBool true⟩
    have hord : Tree.Ordered (0 + n) 0 (b.tree D) := b.ordered_tree D 0 n (by simpa using o.reads)
    rw [Nat.zero_add] at hord
    exact (Tree.readsFirst_of_stops (q := id) (fun _ _ _ _ h => h) n (Nat.zero_add n)
      (Nat.le_refl 0) (Nat.zero_le n) (fun _ _ _ => Nat.zero_le _) hord
      fun vs i _ hi => stops_of_preserves preserves ht o vs hi).2.1
  · intro first σ ε H law R e e' h
    induction h with
    | refl => rfl
    | tail _ h ih => exact (h.run first H law R).trans ih

end Expansion

def pureFunc (body : HExpr) : HirFunc where
  imported := false
  core := false
  effectParams := 0
  params := [2, 2]
  row := []
  captures := []
  locals := [2, 2]
  body := [.expr body]

/-- `def both(a: Bool, b: Bool) -> Bool = a and b` -/
def both : HirFunc :=
  pureFunc (.circuit .and (.local 0 2) (.local 1 2))

def boolValues : Values Bool where
  literal := fun
    | .bool b => some b
    | _ => none
  value := fun _ _ => none
  truth := id
  ofBool := id

def falseThenFails : Eff → List Bool → EStateM ℕ Unit Bool :=
  closure (inlineBodies [both]) boolValues (fun
    | .other 0, _ => pure false
    | .other k, _ => throw k
    | _, _ => throw 0) (INLINE_NODE_LIMIT + 2)

theorem both_skips_argument : expandCall [both] 0 [] [.other 0 .normal, .other 1 .normal]
      = some (.circuit .and (.other 0 .normal) (.other 1 .normal)) ∧
    RunsBodies (inlineBodies [both]) boolValues falseThenFails ∧
    ((HExpr.circuit .and (.other 0 .normal) (.other 1 .normal)).tree boolValues).run
      falseThenFails (fun _ => throw 0) () = .ok false () ∧
    ((HExpr.call 0 2 [] [] [.other 0 .normal, .other 1 .normal]).tree boolValues).run
      falseThenFails (fun _ => throw 0) () = .error 1 () :=
  ⟨rfl, closure_runsBodies _, rfl, rfl⟩

/-- `def sum(a: Int, b: Int) -> Int = a + b` -/
def sum : HirFunc :=
  pureFunc (.app (.binary .add 2) 2 [.local 0 2, .local 1 2])

theorem readsParametersFirst_sum : ReadsParametersFirst (inlineBodies [sum]) boolValues := by
  rintro f n e ⟨t, ht, he⟩
  match f with
  | f + 1 => simp [inlineBodies] at ht
  | 0 =>
    obtain rfl := some.inj ht
    match n with
    | 0 => cases he
    | 1 => cases he
    | 2 =>
      obtain rfl := some.inj he
      exact ⟨_, rfl, fun _ => ⟨_, rfl, fun _ => trivial⟩⟩
    | n + 3 =>
      simp [instantiateInline, instantiateInlineExpr, instantiateOperands, formals, INLINE_NODE_LIMIT] at he

def trueThenFails : Eff → List Bool → EStateM ℕ Unit Bool :=
  closure (inlineBodies [sum]) boolValues (fun
    | .other 0, _ => pure true
    | .other k, _ => throw k
    | _, _ => throw 0) (INLINE_NODE_LIMIT + 2)

theorem inlining_preserves_sum :
    ((HExpr.app (.binary .add 2) 2 [.other 0 .normal, .other 1 .normal]).tree boolValues).run
        trueThenFails (fun _ => throw 0)
      = ((HExpr.call 0 2 [] [] [.other 0 .normal, .other 1 .normal]).tree boolValues).run
        trueThenFails (fun _ => throw 0) :=
  (inlining_preserves_iff [sum] boolValues).mpr readsParametersFirst_sum trueThenFails
    (closure_runsBodies _) _ _ _ (.single (.here rfl))

end LoomV4.Hir
