import LoomV4.Hir.Args
import LoomV4.Hir.Calls

namespace LoomV4.Hir

open List
open Lib (Tree)

structure CallShape where
  what : String
  names : List String
  labels : List (Option String)
  hasReceiver : Bool
  target : Target

namespace CallShape

variable {ν : Type}

/-- The lowered call evaluates the receiver and then each argument once, as they are written,
and enters its target with each value bound to the parameter of its position or label. -/
def InSourceOrder (funcs : List HirFunc) (D : Values ν) (c : CallShape) : Prop :=
  ∀ {σ ε : Type} (H : Eff → List ν → EStateM ε σ ν) (R : ℕ → EStateM ε σ ν)
    (receiver : Option HExpr) (es arranged : List HExpr), receiver.isSome = c.hasReceiver →
    c.labels.length = es.length → NeverReturn D H R (receiver.toList ++ es) →
    arrangeArgs (attach c.labels es) c.names c.what = .ok (some arranged) →
    (lowerCall funcs c.target (receiver.toList ++ arranged)).run D H R = do
      let rs ← receiver.toList.mapM fun e => (e.tree D).run H R
      let ws ← es.mapM fun e => (e.tree D).run H R
      c.target.entered funcs D H (rs ++ bindArgs c.names c.labels ws)

def arity (c : CallShape) : ℕ :=
  c.hasReceiver.toNat + c.labels.length

/-- Each label names the parameter of its own position, and the target, where its calls are
expanded, reads its parameters before anything else. -/
def Settled (funcs : List HirFunc) (D : Values ν) (c : CallShape) : Prop :=
  (∀ k label, c.labels[k]? = some (some label) → c.names.idxOf label = k) ∧
    ∀ e, c.target.text funcs c.arity = some e → Tree.ReadsFirst c.arity 0 (e.tree D)

variable {funcs : List HirFunc} {D : Values ν} {c : CallShape}

theorem place_eq_self (h : ∀ k label, c.labels[k]? = some (some label) → c.names.idxOf label = k)
    (j : ℕ) : place c.names c.labels j = j := by
  unfold place
  cases hj : c.labels[j]?.join with
  | none => rfl
  | some label => exact h j label (Option.join_eq_some_iff.mp hj)

theorem Settled.inSourceOrder (hn : c.names.length = c.labels.length ∨ c.names = [])
    (h : c.Settled funcs D) : c.InSourceOrder funcs D := by
  intro σ ε H R receiver es arranged hr hes law har
  have hs : ∀ {β : Type} (ws : List β), ws.length = es.length → bindArgs c.names c.labels ws = ws := fun ws hws =>
    bindArgs_eq_self (by omega) fun j _ => place_eq_self h.1 j
  obtain ⟨-, heq⟩ := arrangeArgs_eq (hn.imp_left (·.trans hes)) hes har
  obtain rfl : arranged = es := (Option.some.inj heq).trans (hs es rfl)
  have ha : (receiver.toList ++ arranged).length = c.arity := by
    cases receiver <;> simp [arity, ← hr, hes, Nat.add_comm]
  rw [run_lowerCall law (by rw [ha]; exact h.2)]
  simp only [mapM_append, bind_assoc, pure_bind]
  congr 1
  funext rs
  apply mapM_bind_congr
  intro ws hws
  rw [hs ws hws]

def source (c : CallShape) (j : ℕ) : ℕ :=
  if j < c.hasReceiver.toNat then j
  else c.hasReceiver.toNat + written c.names c.labels (j - c.hasReceiver.toNat)

theorem source_inj (h : Permutes c.names c.labels) {j j' : ℕ} (hj : j < c.arity)
    (hj' : j' < c.arity) (heq : c.source j = c.source j') : j = j' := by
  unfold arity at hj hj'
  unfold source at heq
  split at heq <;> split at heq
  · exact heq
  · omega
  · omega
  · have h1 := h.place_written (p := j - c.hasReceiver.toNat) (by omega)
    have h2 := h.place_written (p := j' - c.hasReceiver.toNat) (by omega)
    have heq' : written c.names c.labels (j - c.hasReceiver.toNat)
        = written c.names c.labels (j' - c.hasReceiver.toNat) := by omega
    rw [heq'] at h1
    omega

def unknownReceiver (c : CallShape) : Option HExpr :=
  if c.hasReceiver then some (.other 0 .normal) else none

def unknownArgs (c : CallShape) : List HExpr :=
  (List.range' c.hasReceiver.toNat c.labels.length).map fun i => .other i .normal

theorem unknown_operands (c : CallShape) : c.unknownReceiver.toList ++ c.unknownArgs = unknowns c.arity := by
  unfold unknownReceiver unknownArgs unknowns arity
  cases c.hasReceiver with
  | false => simp [range_eq_range']
  | true => simp [range_eq_range', range'_succ, Nat.add_comm 1]

theorem bindArgs_unknownArgs (h : Permutes c.names c.labels) :
    bindArgs c.names c.labels c.unknownArgs = (List.range c.labels.length).map fun p =>
      .other (c.hasReceiver.toNat + written c.names c.labels p) .normal := by
  have hl : c.labels.length = c.unknownArgs.length := by simp [unknownArgs]
  apply map_injective_iff.mpr (Option.some_injective HExpr)
  rw [h.map_bindArgs hl, ← hl, List.map_map]
  apply map_congr_left
  intro p hp
  have hw := h.written_lt (mem_range.mp hp)
  simp [unknownArgs, hw]

theorem arranged_operands (h : Permutes c.names c.labels) :
    c.unknownReceiver.toList ++ bindArgs c.names c.labels c.unknownArgs
      = (List.range c.arity).map fun j => .other (c.source j) .normal := by
  rw [bindArgs_unknownArgs h]
  unfold unknownReceiver arity source
  cases c.hasReceiver with
  | false => simp
  | true => simp [Nat.add_comm 1, range_succ_eq_map, Function.comp_def]

def bodyText (c : CallShape) (funcs : List HirFunc) : HExpr :=
  (c.target.text funcs c.arity).getD (.call 0 0 [] [] (formals c.arity))

theorem reads_formals (n : ℕ) : (formals n).flatMap HExpr.reads = List.range n := by
  simp [formals, flatMap_map, HExpr.reads]

theorem ordered_of_reads (D : Values ν) {n : ℕ} {b : HExpr} (h : b.reads = List.range' 0 n) :
    Tree.Ordered n 0 (b.tree D) := by
  simpa using b.ordered_tree D 0 n h

theorem run_other (vs : ℕ → ν) (i : ℕ) (R : ℕ → EStateM (Option ℕ) Unit ν) (k : ℕ) :
    ((HExpr.other k .normal).tree D).run (stopping vs i) R = Tree.upTo vs i k := by
  simp [HExpr.tree, Tree.run, stopping]

theorem ordered_bodyText (c : CallShape) (funcs : List HirFunc) (D : Values ν) :
    Tree.Ordered c.arity 0 ((c.bodyText funcs).tree D) := by
  cases ht : c.target.text funcs c.arity with
  | none =>
    apply ordered_of_reads
    simp [bodyText, ht, HExpr.reads, reads_formals, range_eq_range']
  | some e =>
    obtain ⟨b, rfl, hr, -, -⟩ := exists_target_text D ht
    simp only [bodyText, ht, Option.getD_some, tree_subst_formals]
    exact ordered_of_reads D hr

theorem stopping_lowerCall (D : Values ν) {q : ℕ → ℕ} {args : List HExpr}
    (ha : args = (List.range c.arity).map fun j => .other (q j) .normal) (vs : ℕ → ν) (i : ℕ)
    (R : ℕ → EStateM (Option ℕ) Unit ν) : (lowerCall funcs c.target args).run D (stopping vs i) R
      = ((c.bodyText funcs).tree D).run Tree.noOperation fun j => Tree.upTo vs i (q j) := by
  have hl : args.length = c.arity := by simp [ha]
  have hf : args.all (·.flow = .normal) := by simp [ha, HExpr.flow]
  cases ht : c.target.text funcs c.arity with
  | none =>
    have law : NeverReturn D (stopping vs i) R args := by
      intro e he hn
      have := List.all_eq_true.mp hf e he
      simp [hn] at this
    have hef : stopping vs i c.target.eff = Tree.noOperation (Eff.call 0 [] []) := by
      cases c.target <;> rfl
    rw [lowerCall_of_no_text (hl.symm ▸ ht), run_operands law, hef]
    simp only [bodyText, ht, Option.getD_none, HExpr.tree, HExpr.trees_eq, Tree.run_strict,
      ha, formals, mapM_map, Function.comp_def, Tree.run, bind_pure]
    rfl
  | some e =>
    obtain ⟨b, rfl, hr, hu, inline⟩ := exists_target_text D ht
    simp only [inline args hl hf, bodyText, ht, Option.getD_some, tree_subst_formals, Code.run]
    rw [HExpr.tree_subst, Tree.run_plug, hu (stopping vs i) Tree.noOperation _ (fun _ => rfl) fun _ => rfl]
    apply (ordered_of_reads D hr).run_congr
    intro j _ hj
    simp [ha, hj, run_other]

theorem error_of_mapM_append {α β γ σ ε : Type} {xs ys : List α} {f : α → EStateM ε σ β} {s s' : σ}
    {x : ε} {k : List β → List β → EStateM ε σ γ} (h : (xs ++ ys).mapM f s = .error x s') : (do
      let rs ← xs.mapM f
      let ws ← ys.mapM f
      k rs ws) s = .error x s' := by
  rw [mapM_append] at h
  simp only [bind, EStateM.bind] at h ⊢
  cases hx : xs.mapM f s with
  | error y t => simpa [hx] using h
  | ok rs t =>
    cases hy : ys.mapM f t with
    | error z t' => simpa [hx, hy] using h
    | ok ws t' => simp [hx, hy, pure, EStateM.pure] at h

theorem InSourceOrder.settled (hn : c.names.length = c.labels.length ∨ c.names = [])
    (ha : Accepts c.names c.what c.labels) (h : c.InSourceOrder funcs D) : c.Settled funcs D := by
  have hl : c.labels.length = c.unknownArgs.length := by simp [unknownArgs]
  obtain ⟨out, ho⟩ := ha.arrangeArgs_ok hl
  obtain ⟨hp, rfl⟩ := arrangeArgs_eq (hn.imp_left (·.trans hl)) hl ho
  have stops : ∀ (vs : ℕ → ν) (i : ℕ), 0 ≤ i → i < c.arity →
      ((c.bodyText funcs).tree D).run Tree.noOperation (fun j => Tree.upTo vs i (c.source j)) ()
        = .error (some i) () := by
    intro vs i _ hi
    have run := h (stopping vs i) (fun _ => throw none) c.unknownReceiver c.unknownArgs _
      (by cases hr : c.hasReceiver <;> simp [unknownReceiver, hr]) hl
      (by
        intro e he hv
        rw [unknown_operands] at he
        obtain ⟨j, -, rfl⟩ := List.mem_map.mp he
        cases hv) ho
    rw [stopping_lowerCall D (arranged_operands hp)] at run
    rw [run]
    apply error_of_mapM_append
    rw [unknown_operands]
    have operands : (fun e => (HExpr.tree D e).run (stopping vs i) fun _ => throw none) ∘
        (fun j => HExpr.other j .normal) = Tree.upTo vs i := funext (run_other (D := D) vs i _)
    rw [unknowns, mapM_map, operands]
    simpa [range_eq_range'] using mapM_upTo vs i 0 c.arity hi
  have : Inhabited ν := ⟨D.ofBool true⟩
  obtain ⟨-, first, hf⟩ := Tree.readsFirst_of_stops (q := c.source)
    (fun j j' hj hj' => source_inj hp hj hj') c.arity (Nat.zero_add _) (Nat.le_refl 0)
    (Nat.zero_le _) (fun _ _ _ => Nat.zero_le _) (ordered_bodyText c funcs D) stops
  constructor
  · intro k label hk
    obtain ⟨hkl, hb⟩ := List.getElem?_eq_some_iff.mp hk
    have hc : place c.names c.labels k = c.names.idxOf label := place_of_some hkl hb
    have hs := hf (c.hasReceiver.toNat + place c.names c.labels k) (Nat.zero_le _)
      (Nat.add_lt_add_left (hp.below k hkl) _)
    simp only [source, Nat.add_sub_cancel_left, hp.written_place hkl] at hs
    rw [if_neg (by omega)] at hs
    omega
  · intro e he
    simpa [bodyText, he] using first

theorem arguments_in_source_order_iff (funcs : List HirFunc) (D : Values ν) (c : CallShape)
    (hnames : c.names.length = c.labels.length ∨ c.names = []) (haccepts : Accepts c.names c.what c.labels) :
    c.InSourceOrder funcs D ↔ c.Settled funcs D :=
  ⟨InSourceOrder.settled hnames haccepts, Settled.inSourceOrder hnames⟩

/-- `f(b: ..., a: ...)` for `def f(a, b)` -/
def swapped : CallShape where
  what := "f"
  names := ["a", "b"]
  labels := [some "b", some "a"]
  hasReceiver := false
  target := .func 0 [] []

def logging : Eff → List Bool → EStateM Unit (List ℕ) Bool
  | .other k, _ => fun log => .ok true (log ++ [k])
  | _, _ => pure true

theorem swapped_evaluates_second_first :
    arrangeArgs (attach swapped.labels [HExpr.other 0 .normal, .other 1 .normal]) swapped.names
        swapped.what = .ok (some [.other 1 .normal, .other 0 .normal]) ∧
    (lowerCall [] swapped.target [.other 1 .normal, .other 0 .normal]).run boolValues logging
        (fun _ => pure true) [] = .ok true [1, 0] :=
  ⟨rfl, rfl⟩

/-- `f(x, b: ...)` for `def f(a, b)` -/
def aligned : CallShape :=
  { swapped with labels := [none, some "b"] }

theorem settled_aligned : aligned.Settled [] boolValues := by
  refine ⟨fun k label h => ?_, nofun⟩
  match k with
  | 0 => cases h
  | 1 =>
    obtain rfl := Option.some.inj (Option.some.inj h)
    decide
  | k + 2 => cases h

theorem aligned_in_source_order : aligned.InSourceOrder [] boolValues :=
  (arguments_in_source_order_iff [] boolValues aligned (.inl rfl) ⟨_, rfl⟩).mpr settled_aligned

end CallShape

end LoomV4.Hir
