import LoomV4.Identity.Bodies

namespace LoomV4.Identity

open Lib Bytecode List Option Env

section

variable (bundle : AbiBundle) (m : Module)

structure Setting (E : Env) (comps : List (List ℕ)) : Prop where
  sound : Sound bundle m
  module : E.module = m
  bundle : E.bundle = bundle
  built : Built m E.graph
  condensed : Scc.Condensed E.graph.succ (Space.of m).total comps E.compOf
  interfaces : E.interfaceHashes.length = m.interfaces.length

structure Hashed (E : Env) (k : ℕ) (state : HashState) : Prop where
  types : ∀ t < m.types.length, ∃ d, state.typeFinal t = some d
  apps : ∀ a < m.apps.length, ∃ d, state.appFinal a = some d
  externFuncs : ∀ f, externFuncs m f = true → (state.funcHash f).isSome
  externClasses : ∀ c, externClasses m c = true → (state.classHash c).isSome
  funcs : ∀ f j, E.compOf ((Space.of m).funcNode f) = some j → j < k → f < m.funcs.length →
    isClosureBody m f = false → (state.funcHash f).isSome
  classes : ∀ c j, E.compOf c = some j → j < k → c < m.classes.length → (state.classHash c).isSome
  bodies : ∀ f j, E.compOf ((Space.of m).funcNode f) = some j → j < k → f < m.funcs.length →
    isClosureBody m f = true → (state.bodyFinal f).isSome
  unhashed : ∀ f, isClosureBody m f = true → state.funcHash f = none

/-- A function of the component has a closure body of another component as a reflection pattern. -/
def PatternOutside (E : Env) (k : ℕ) : Prop :=
  ∃ f func, m.funcs[f]? = some func ∧ externFuncs m f = false ∧ E.compOf ((Space.of m).funcNode f) = some k ∧
    ∃ i ∈ Func.instrs func, ∃ p ∈ instrPatterns i, isClosureBody m p = true ∧
      E.compOf ((Space.of m).funcNode p) ≠ some k

/-- A closure body of the component has a closure body as a reflection pattern. -/
def PatternInBody (E : Env) (k : ℕ) : Prop :=
  ∃ f func, m.funcs[f]? = some func ∧ isClosureBody m f = true ∧ E.compOf ((Space.of m).funcNode f) = some k ∧
    ∃ i ∈ Func.instrs func, ∃ p ∈ instrPatterns i, isClosureBody m p = true

end

variable {bundle : AbiBundle} {m : Module} {E : Env} {comps : List (List ℕ)} {k : ℕ} {comp : List ℕ} {state : HashState}

theorem isClosureBody_own {f : ℕ} (h : isClosureBody m f = true) : externFuncs m f = false := by
  simp only [isClosureBody, decide_eq_true_eq, Bool.not_eq_true'] at h
  exact h.2.2

theorem not_closureBody_of_called {f : ℕ} (h : f ∈ called m) : isClosureBody m f = false := by
  simp [isClosureBody, h]

theorem calls_called {f g : ℕ} {func : Func} {i : Instr} (hf : m.funcs[f]? = some func) (ho : externFuncs m f = false)
    (hi : i ∈ Func.instrs func) (hg : g ∈ instrCalls i) : g ∈ called m := by
  have : g ∈ (ownFuncs m).flatMap fun f => (Func.instrs f).flatMap instrCalls :=
    mem_flatMap.mpr ⟨func, mem_ownFuncs.mpr ⟨f, hf, ho⟩, mem_flatMap.mpr ⟨i, hi, hg⟩⟩
  simp [called, this]

theorem methods_called {c : ℕ} {k : BcClass} {p : Index × Index} (hk : m.classes[c]? = some k)
    (ho : externClasses m c = false) (hp : p ∈ k.methods) : p.2.toNat ∈ called m := by
  have : p.2.toNat ∈ (ownClasses m).flatMap fun k => k.methods.map fun p => p.2.toNat :=
    mem_flatMap.mpr ⟨k, mem_ownClasses.mpr ⟨c, hk, ho⟩, List.mem_map.mpr ⟨p, hp, rfl⟩⟩
  simp [called, this]

namespace Setting

variable (h : Setting bundle m E comps)

include h

theorem space : E.graph.space = .of m := h.built.space

theorem mem_comp (hk : comps[k]? = some comp) {v : ℕ} : v ∈ comp ↔ E.compOf v = some k := by
  rw [h.condensed.comp]
  exact ⟨fun hv => ⟨comp, hk, hv⟩, fun ⟨l, hl, hv⟩ => by cases hk.symm.trans hl; exact hv⟩

theorem reach_tables {u v : ℕ} (hr : Scc.Reach E.graph.succ u v) (hu : m.classes.length + m.funcs.length ≤ u) :
    m.classes.length + m.funcs.length ≤ v := by
  induction hr with
  | refl => exact hu
  | tail _ he ih =>
    obtain ⟨vs, hvs, hv⟩ := he
    exact h.built.tables _ vs ih hvs _ hv

section

variable (hk : comps[k]? = some comp)

include hk

theorem comp_lt (hs : E.skips comp = false) : ∀ v ∈ comp, v < m.classes.length + m.funcs.length := by
  intro v hv
  by_contra hge
  simp only [Env.skips, Bool.or_eq_false_iff, List.all_eq_false, decide_eq_true_eq, h.space, Space.of] at hs
  obtain ⟨w, hw, hlt⟩ := hs.1
  exact hlt (h.reach_tables (h.condensed.joined v w k ((h.mem_comp hk).mp hv) ((h.mem_comp hk).mp hw)) (by omega))

theorem extern_single {v : ℕ} (hv : v ∈ comp) (hs : E.graph.succ[v]? = some []) : comp = [v] := by
  have ha : ∀ w ∈ comp, w = v := by
    intro w hw
    have hr := h.condensed.joined v w k ((h.mem_comp hk).mp hv) ((h.mem_comp hk).mp hw)
    rcases Relation.ReflTransGen.cases_head hr with rfl | ⟨x, ⟨vs, hvs, hx⟩, -⟩
    · rfl
    · cases hs.symm.trans hvs
      cases hx
  have hnd := (h.condensed.nodup comp (mem_of_getElem? hk)).2
  exact perm_singleton.mp ((perm_ext_iff_of_nodup hnd (nodup_singleton v)).mpr fun w =>
    ⟨fun hw => by simp [ha w hw], fun hw => by rw [mem_singleton.mp hw]; exact hv⟩)

theorem own_class {c : ℕ} (hs : E.skips comp = false) (hc : c ∈ comp)
    (hlt : c < m.classes.length) : externClasses m c = false := by
  by_contra he
  rw [Bool.not_eq_false] at he
  have hu := h.built.classes c _ (getElem?_eq_getElem hlt)
  rw [classEdges, if_pos he] at hu
  rw [h.extern_single hk hc hu] at hs
  simp [Env.skips, h.space, h.built.externClass, he, Space.of, hlt] at hs

theorem own_func {f : ℕ} (hs : E.skips comp = false)
    (hf : (Space.of m).funcNode f ∈ comp) (hlt : f < m.funcs.length) : externFuncs m f = false := by
  by_contra he
  rw [Bool.not_eq_false] at he
  have hu := h.built.funcs f _ (getElem?_eq_getElem hlt)
  rw [funcEdges, if_pos he] at hu
  rw [h.extern_single hk hf hu] at hs
  simp [Env.skips, h.space, h.built.externFunc, he, Space.of, Space.funcNode, hlt] at hs

end

end Setting

theorem mem_slice {base size v : ℕ} : v ∈ Env.slice base size comp ↔ base + v ∈ comp ∧ v < size := by
  simp only [Env.slice, sortNat, mem_mergeSort, List.mem_map, mem_filter, decide_eq_true_eq]
  constructor
  · rintro ⟨w, ⟨hw, hle, hlt⟩, rfl⟩
    rw [Nat.add_sub_cancel' hle]
    exact ⟨hw, by omega⟩
  · rintro ⟨hv, hlt⟩
    exact ⟨base + v, ⟨hv, by omega, by omega⟩, by omega⟩

theorem slice_eq_nil {base size : ℕ} (hlt : ∀ v ∈ comp, v < base) : Env.slice base size comp = [] := by
  refine eq_nil_iff_forall_not_mem.mpr fun v hv => ?_
  have := hlt _ (mem_slice.mp hv).1
  omega

namespace Setting

variable (h : Setting bundle m E comps)

include h

theorem mem_classes {c : ℕ} : c ∈ (E.parts comp).classes ↔ c ∈ comp ∧ c < m.classes.length := by
  simp [Env.parts, mem_slice, h.space, Space.of]

theorem mem_memberFuncs {f : ℕ} : f ∈ (E.parts comp).memberFuncs ↔
    (Space.of m).funcNode f ∈ comp ∧ f < m.funcs.length ∧ isClosureBody m f = false := by
  simp [Env.parts, mem_slice, h.space, h.built.closureBody, Space.of, Space.funcNode, and_assoc]

theorem mem_closureFuncs {f : ℕ} : f ∈ (E.parts comp).closureFuncs ↔
    (Space.of m).funcNode f ∈ comp ∧ f < m.funcs.length ∧ isClosureBody m f = true := by
  simp [Env.parts, mem_slice, h.space, h.built.closureBody, Space.of, Space.funcNode, and_assoc]

section

variable (hlt : ∀ v ∈ comp, v < m.classes.length + m.funcs.length)

include hlt

theorem types_nil : (E.parts comp).types = [] := by
  simp only [Env.parts, h.space, Space.of]
  exact slice_eq_nil hlt

theorem apps_nil : (E.parts comp).apps = [] := by
  simp only [Env.parts, h.space, Space.of]
  exact slice_eq_nil fun v hv => (hlt v hv).trans_le (Nat.le_add_right _ _)

theorem exists_memberOf {v : ℕ} (hv : v ∈ comp) :
    ∃ pos, E.memberOf (refineMembers (E.parts comp)) v = some pos ∧ pos < (refineMembers (E.parts comp)).length := by
  have hm : v ∈ (refineMembers (E.parts comp)).map (Env.node E.graph.space) := by
    simp only [refineMembers, map_append, List.map_map, mem_append, List.mem_map, Function.comp_apply, h.space]
    by_cases hc : v < m.classes.length
    · exact .inl (.inl ⟨v, h.mem_classes.mpr ⟨hv, hc⟩, rfl⟩)
    · have hn : (Space.of m).funcNode (v - m.classes.length) = v := by
        simp only [Space.funcNode, Space.of]
        omega
      have hf : v - m.classes.length < m.funcs.length := by
        have := hlt v hv
        omega
      cases hb : isClosureBody m (v - m.classes.length)
      · exact .inl (.inr ⟨_, h.mem_memberFuncs.mpr ⟨hn.symm ▸ hv, hf, hb⟩, hn⟩)
      · exact .inr ⟨_, h.mem_closureFuncs.mpr ⟨hn.symm ▸ hv, hf, hb⟩, hn⟩
  obtain ⟨pos, hp⟩ := isSome_iff_exists.mp (isSome_idxOf?.mpr hm)
  obtain ⟨hl, -⟩ := idxOf?_eq_some_iff.mp hp
  exact ⟨pos, hp, by simpa using hl⟩

end

variable {T A : ℕ → Option Hash}

section

variable (hk : comps[k]? = some comp)

include hk

theorem inComp (state : HashState) (T A : ℕ → Option Hash) (v : ℕ) :
    (E.compView state k T A).inComp v = true ↔ v ∈ comp := by
  rw [h.mem_comp hk]
  exact decide_eq_true_iff

theorem ready_comp (hs : E.skips comp = false) (hH : Hashed m E k state) :
    Ready bundle m (E.compView state k T A) := by
  have ho : ∀ v, m.classes.length + m.funcs.length ≤ v → (E.compView state k T A).inComp v = false := by
    intro v hv
    rw [Bool.eq_false_iff, Ne, h.inComp hk]
    intro hm
    have := h.comp_lt hk hs v hm
    omega
  refine ⟨h.module, h.bundle, fun t ht => ?_, fun a ha => ?_⟩
  · obtain ⟨d, hd⟩ := hH.types t ht
    refine ⟨d, ?_⟩
    rw [Resolver.typeDigest, ho _ (by simp [compView, finalView, h.space, Space.typeNode, Space.of])]
    exact hd
  · obtain ⟨d, hd⟩ := hH.apps a ha
    refine ⟨d, ?_⟩
    rw [Resolver.appDigest, ho _ (by
      simp only [compView, finalView, h.space, Space.appNode, Space.of]
      omega)]
    exact hd

theorem comp_ident {f j : ℕ} (hH : Hashed m E k state) (hf : f < m.funcs.length)
    (hj : E.compOf ((Space.of m).funcNode f) = some j) (hle : j ≤ k) (hb : isClosureBody m f = false ∨ j = k) :
    ∃ ps, (E.compView state k T A).funcIdent f = some ps := by
  have hin := h.inComp hk state T A ((Space.of m).funcNode f)
  simp only [Resolver.funcIdent, compView, finalView, h.space] at hin ⊢
  by_cases hjk : j = k
  · subst hjk
    exact ⟨_, if_pos (hin.mpr ((h.mem_comp hk).mpr hj))⟩
  · obtain ⟨d, hd⟩ := isSome_iff_exists.mp (hH.funcs f j hj (by omega) hf (hb.resolve_right hjk))
    rw [hd]
    split_ifs <;> exact ⟨_, rfl⟩

theorem comp_closure {f j : ℕ} (hH : Hashed m E k state) (hf : f < m.funcs.length)
    (hj : E.compOf ((Space.of m).funcNode f) = some j) (hle : j ≤ k) :
    ∃ ps, (E.compView state k T A).closureIdent f = some ps := by
  have hin := h.inComp hk state T A ((Space.of m).funcNode f)
  rw [Resolver.closureIdent]
  split_ifs with hb hp
  · exact ⟨_, rfl⟩
  · simp only [compView, finalView, h.space, h.built.closureBody, Bool.not_eq_true', Bool.eq_false_iff] at hb hin
    have hjk : j ≠ k := by
      rintro rfl
      exact hb.2 (hin.mpr ((h.mem_comp hk).mpr hj))
    obtain ⟨d, hd⟩ := isSome_iff_exists.mp (hH.bodies f j hj (by omega) hf hb.1)
    exact ⟨_, by simp only [Resolver.bodyDigest, compView, finalView, noDigest, hd]; rfl⟩
  · refine h.comp_ident hk hH hf hj hle ?_
    simp only [compView, finalView, h.space, h.built.closureBody, Bool.not_eq_true', not_and, Bool.not_eq_false] at hb hin
    by_cases hc : isClosureBody m f = true
    · have := (h.mem_comp hk).mp (hin.mp (hb hc))
      exact .inr (mem_unique hj this)
    · exact .inl (by simpa using hc)

theorem func_names {f : ℕ} {func : Func} (hf : m.funcs[f]? = some func)
    (hw : externFuncs m f = false) (hc : (Space.of m).funcNode f ∈ comp) :
    ∀ i ∈ Func.instrs func, ∀ g, g ∈ instrCalls i ∨ g ∈ instrPatterns i ∨ g ∈ instrMakes i →
      g < m.funcs.length ∧ ∃ j ≤ k, E.compOf ((Space.of m).funcNode g) = some j := by
  intro i hi g hg
  obtain ⟨d, hd, ho⟩ := h.condensed.closed _ k _ ((h.mem_comp hk).mp hc)
    (h.built.func_edge hf hw h.sound i hi g hg)
  obtain ⟨h1, h2, h3⟩ := funcOperands_lt h.sound hf i hi
  exact ⟨hg.elim (h1 g) fun hg => hg.elim (h2 g) (h3 g), d, hd, ho⟩

theorem func_pieces {f : ℕ} {func : Func} (hs : E.skips comp = false)
    (hH : Hashed m E k state) (hno : ¬PatternOutside m E k) (hf : m.funcs[f]? = some func)
    (hc : (Space.of m).funcNode f ∈ comp) {items : List Item} (ht : Every Early items)
    (hr : Every (InRange bundle m) items) :
    ∃ ps, (E.compView state k T A).pieces (items ++ funcItems m f func) = some ps := by
  have hw := h.own_func hk hs hc (lt_of_getElem? hf)
  have hn := h.func_names hk hf hw hc
  refine (h.ready_comp hk hs hH).pieces (every_append.mpr ⟨hr, h.sound.funcs f func hf⟩) h.interfaces
    (every_append.mpr ⟨fun x hx => ?_, names_funcItems.mpr fun i hi => ⟨fun g hg => ?_, fun g hg => ?_, fun g hg => ?_⟩⟩)
  · have := ht x hx
    cases x <;> first | exact this.elim | trivial
  · obtain ⟨hlt, j, hj, ho⟩ := hn i hi g (.inl hg)
    exact h.comp_ident hk hH hlt ho hj (.inl (not_closureBody_of_called (calls_called hf hw hi hg)))
  · obtain ⟨hlt, j, hj, ho⟩ := hn i hi g (.inr (.inl hg))
    refine h.comp_ident hk hH hlt ho hj ?_
    by_contra hb
    rw [not_or, Bool.not_eq_false] at hb
    refine hno ⟨f, func, hf, hw, (h.mem_comp hk).mp hc, i, hi, g, hg, hb.1, ?_⟩
    rw [ho]
    exact fun he => hb.2 (some.inj he)
  · obtain ⟨hlt, j, hj, ho⟩ := hn i hi g (.inr (.inr hg))
    exact h.comp_closure hk hH hlt ho hj

theorem class_pieces {c : ℕ} {cls : BcClass} (hs : E.skips comp = false)
    (hH : Hashed m E k state) (hl : m.classes[c]? = some cls) (hc : c ∈ comp) :
    ∃ ps, (E.compView state k T A).pieces (.raw [Kind.cls.byte] :: classItems m (armsOf m c) c cls) = some ps := by
  have hlt := lt_of_getElem? hl
  have ho := h.own_class hk hs hc hlt
  refine (h.ready_comp hk hs hH).pieces (every_cons.mpr ⟨trivial, h.sound.classes c cls hl⟩) h.interfaces
    (every_cons.mpr ⟨trivial, names_classItems.mpr fun p hp => ?_⟩)
  obtain ⟨j, hj, hm⟩ := h.condensed.closed _ k _ ((h.mem_comp hk).mp hc) (h.built.class_edge hl ho h.sound p hp)
  exact h.comp_ident hk hH (methods_lt h.sound hl p hp) hm hj (.inl (not_closureBody_of_called (methods_called hl ho hp)))

end

end Setting

end LoomV4.Identity
