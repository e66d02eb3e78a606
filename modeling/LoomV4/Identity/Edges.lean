import LoomV4.Identity.Ranges
import LoomV4.Lib.Traverse

namespace LoomV4.Identity

open Lib Bytecode List

def Within (n : ℕ) (o : Option (List ℕ)) : Prop := ∃ es, o = some es ∧ ∀ e ∈ es, e < n

section

variable {n : ℕ} {es : List ℕ} {o : Option (List ℕ)}

theorem within_some (h : ∀ e ∈ es, e < n) : Within n (some es) := ⟨es, rfl, h⟩

theorem Within.append (ho : Within n o) (h : ∀ e ∈ es, e < n) : Within n (o.map (es ++ ·)) := by
  obtain ⟨fs, rfl, hf⟩ := ho
  exact ⟨es ++ fs, rfl, forall_mem_append.mpr ⟨h, hf⟩⟩

theorem within_flat {l : List (Option (List ℕ))} (h : ∀ o ∈ l, Within n o) : Within n (flat l) := by
  obtain ⟨ess, hs⟩ : ∃ ess, l.mapM id = some ess := exists_mapM fun o ho => by
    obtain ⟨es, rfl, -⟩ := h o ho
    exact ⟨es, rfl⟩
  refine ⟨ess.flatten, by simp [flat, hs], fun e he => ?_⟩
  obtain ⟨es, hes, he⟩ := mem_flatten.mp he
  obtain ⟨o, ho, rfl⟩ := exists_of_mem_mapM hs hes
  obtain ⟨_, heq, hlt⟩ := h _ ho
  cases heq
  exact hlt e he

end

variable {bundle : AbiBundle} {m : Module}

variable {contract : Bool}

theorem useItems_types {u : BcInterfaceUse} (h : Every (InRange bundle m) (useItems contract u)) :
    u.interface.toNat < m.interfaces.length ∧ ∀ t ∈ u.types, t.toNat < m.types.length := by
  simp only [useItems, every_append, every_cons, every_map, InRange, typeRef] at h
  tauto

theorem boundItems_types {bounds : List BcInterfaceUse}
    (h : Every (InRange bundle m) (boundItems contract bounds)) : ∀ t ∈ useTypes bounds, t.toNat < m.types.length := by
  simp only [boundItems, every_cons, every_flatMap] at h
  intro t ht
  obtain ⟨u, hu, ht⟩ := mem_flatMap.mp ht
  exact (useItems_types (h.2 u hu)).2 t ht

theorem typeEdge_lt {t : Index} (h : t.toNat < m.types.length) : typeEdge m t < (Space.of m).total := by
  simp only [typeEdge, Space.typeNode, Space.total, Space.of]
  omega

theorem within_typeEdges {ts : List Index} (h : ∀ t ∈ ts, t.toNat < m.types.length) :
    ∀ e ∈ ts.map (typeEdge m), e < (Space.of m).total := by
  intro e he
  obtain ⟨t, ht, rfl⟩ := mem_map.mp he
  exact typeEdge_lt (h t ht)

section

variable (hm : Sound bundle m)

include hm

theorem within_interface {i : ℕ} (hi : i < m.interfaces.length) :
    Within (Space.of m).total (interfaceTypeEdges m i) := by
  have hc := List.getElem?_eq_getElem hi
  have h := hm.interfaces i _ hc
  rw [interfaceTypeEdges, hc]
  apply within_some
  apply within_typeEdges
  simp only [interfaceLocalItems, boundsItems, every_append, every_cons, every_flatMap] at h
  obtain ⟨⟨⟨-, -, hb⟩, -, ha⟩, -, hm⟩ := h
  intro t ht
  simp only [mem_append, mem_flatMap] at ht
  rcases ht with (⟨p, hp, ht⟩ | ⟨a, ha', ht⟩) | ⟨method, he, ht⟩
  · exact boundItems_types (hb p hp) t ht
  · exact boundItems_types (ha a ha').2 t ht
  · have he := hm method he
    simp only [methodItems, premiseItems, every_append, every_cons, every_map, every_flatMap, InRange, typeRef] at he
    obtain ⟨⟨⟨⟨-, hpr⟩, -, hr⟩, -⟩, hre, -⟩ := he
    rcases ht with (ht | ht) | ⟨p, hp, ht⟩
    · exact hr t ht
    · obtain rfl : t = method.ret := by simpa using ht
      exact hre
    · rcases mem_cons.mp ht with rfl | ht
      · exact (hpr p hp).1
      · exact boundItems_types (hpr p hp).2 t ht

theorem within_use {u : BcInterfaceUse}
    (h : Every (InRange bundle m) (useItems contract u)) : Within (Space.of m).total (useEdges m u) :=
  (within_interface hm (useItems_types h).1).append (within_typeEdges (useItems_types h).2)

theorem within_bound {bounds : List BcInterfaceUse}
    (h : Every (InRange bundle m) (boundItems contract bounds)) : Within (Space.of m).total (boundEdges m bounds) := by
  apply within_flat
  intro o ho
  obtain ⟨u, hu, rfl⟩ := mem_map.mp ho
  simp only [boundItems, every_cons, every_flatMap] at h
  exact within_use hm (h.2 u hu)

theorem within_bounds {bounds : TypeBounds}
    (h : Every (InRange bundle m) (boundsItems contract bounds)) : Within (Space.of m).total (boundsEdges m bounds) := by
  apply within_flat
  intro o ho
  obtain ⟨u, hu, rfl⟩ := mem_map.mp ho
  simp only [boundsItems, every_cons, every_flatMap] at h
  exact within_bound hm (h.2 u hu)

theorem within_callable {c : BcCallableContract} (ht : ∀ t ∈ c.params ++ [c.ret], t.toNat < m.types.length)
    (h : Every (InRange bundle m) (callableItems c)) : Within (Space.of m).total (callableEdges m c) := by
  simp only [callableItems, every_append] at h
  exact (within_bounds hm h.1.1.2).append (within_typeEdges ht)

theorem within_slot {slot : ℕ} (hs : slot < m.slots.length) :
    Within (Space.of m).total (slotEdges m slot) := by
  have hp := List.getElem?_eq_getElem hs
  obtain ⟨hi, -, ht⟩ := hm.slots slot _ hp
  have hi := hi false
  rw [slotItems, hp] at hi
  rw [slotEdges, hp, Option.bind_some]
  cases hc : m.slots[slot].contract with
  | function c | method c =>
    simp only [hc, contractItems, every_append, every_cons] at hi
    exact within_callable hm (ht c (by simp [hc, callableOf])) hi.2.2
  | «class» typeParams hash ty c =>
    simp only [hc, contractItems, every_append, every_cons, InRange, typeRef] at hi
    have hty : ∀ e ∈ [typeEdge m ty], e < (Space.of m).total := by simpa using typeEdge_lt hi.2.2.1
    exact (within_callable hm (ht c (by simp [hc, callableOf])) hi.2.2.2).append hty
  | value ty =>
    simp only [hc, contractItems, every_append, every_cons, InRange, typeRef] at hi
    exact within_some (by simpa using typeEdge_lt hi.2.2.1)
  | process message result =>
    simp only [hc, contractItems, every_append, every_cons, InRange, typeRef] at hi
    exact within_some (by simpa using ⟨typeEdge_lt hi.2.2.1, typeEdge_lt hi.2.2.2.1⟩)

end

theorem funcNode_lt {f : ℕ} (h : f < m.funcs.length) : (Space.of m).funcNode f < (Space.of m).total := by
  simp only [Space.funcNode, Space.total, Space.of]
  omega

theorem typeNode_lt {t : ℕ} (h : t < m.types.length) : (Space.of m).typeNode t < (Space.of m).total := by
  simp only [Space.typeNode, Space.total, Space.of]
  omega

theorem appNode_lt {a : ℕ} (h : a < m.apps.length) : (Space.of m).appNode a < (Space.of m).total := by
  simp only [Space.appNode, Space.total, Space.of]
  omega

theorem within_one {n e : ℕ} (h : e < n) : Within n (some [e]) := within_some (by simpa using h)

theorem within_operand (hm : Sound bundle m) {op : Op} {o : Operand} {v : ℕ}
    (h : Every (InRange bundle m) (operandItems m op o v)) : Within (Space.of m).total (operandEdges m op o v) := by
  cases o with
  | index table =>
    cases table with
    | slots =>
      apply within_slot hm
      by_contra hv
      simp only [operandItems, slotItems, List.getElem?_eq_none (not_lt.mp hv), every_cons] at h
      exact h.1
    | funcs =>
      simp only [operandItems, every_cons] at h
      refine within_one (funcNode_lt ?_)
      split_ifs at h <;> exact h.1
    | types =>
      simp only [operandItems, every_cons] at h
      simp only [operandEdges]
      split_ifs
      · exact within_some (by simp)
      · exact within_one (typeNode_lt h.1)
    | apps =>
      simp only [operandItems, every_cons] at h
      exact within_one (appNode_lt h.1)
    | _ => exact within_some (by simp)
  | pattern =>
    simp only [operandItems, every_cons] at h
    exact within_one (funcNode_lt h.1)
  | optApp =>
    simp only [operandEdges]
    split_ifs with hv
    · exact within_some (by simp)
    · simp only [operandItems, if_neg hv, every_cons] at h
      exact within_one (appNode_lt h.2.1)
  | _ => exact within_some (by simp)

theorem within_instrs (hm : Sound bundle m) {is : List Instr} (h : ∀ i ∈ is, Every (InRange bundle m) (instrItems m i)) :
    Within (Space.of m).total (flat (is.map (instrEdges m))) := by
  apply within_flat
  intro o ho
  obtain ⟨i, hi, rfl⟩ := mem_map.mp ho
  apply within_flat
  intro o ho
  obtain ⟨p, hp, rfl⟩ := mem_map.mp ho
  have h := h i hi
  simp only [instrItems, every_cons, every_flatMap] at h
  exact within_operand hm (h.2 p hp)

theorem within_boundsAt (hm : Sound bundle m) {table : List TypeBounds} {idx : ℕ}
    (h : Every (InRange bundle m) (boundsAt table idx)) :
    Within (Space.of m).total ((table[idx]?).bind (boundsEdges m)) := by
  cases hb : table[idx]? with
  | none =>
    simp only [boundsAt, hb, every_cons] at h
    exact h.1.elim
  | some bounds =>
    simp only [boundsAt, hb] at h
    exact within_bounds hm h

variable {func : Func}

theorem within_func (hm : Sound bundle m) {f : ℕ} (hf : m.funcs[f]? = some func) :
    Within (Space.of m).total (funcEdges m f func) := by
  have h := hm.funcs f func hf
  rw [funcEdges]
  split_ifs
  · exact within_some (by simp)
  · simp only [funcItems, signatureItems, every_append, every_cons, every_map, every_flatMap, InRange, typeRef] at h
    obtain ⟨⟨⟨⟨⟨-, hb⟩, ⟨⟨-, hp⟩, -⟩, hr, -⟩, -, hc⟩, -, hl⟩, -, hi⟩ := h
    obtain ⟨bs, hbs, hbl⟩ := within_boundsAt hm hb
    obtain ⟨es, hes, hel⟩ : Within (Space.of m).total (flat (func.blocks.flatten.map (instrEdges m))) := by
      apply within_instrs hm
      intro i hi'
      obtain ⟨b, hb, hib⟩ := mem_flatten.mp hi'
      exact (hi b hb).2 i hib
    simp only [hbs, hes, Option.bind_eq_bind, Option.bind_some]
    refine within_some ?_
    simp only [forall_mem_append]
    refine ⟨⟨within_typeEdges ?_, hbl⟩, hel⟩
    simp only [forall_mem_append]
    exact ⟨⟨⟨hp, by simpa using hr⟩, hc⟩, hl⟩

theorem within_conformance (hm : Sound bundle m) {c : BcConformance}
    (h : Every (InRange bundle m) (conformanceItems c)) : Within (Space.of m).total (conformanceEdges m c) := by
  simp only [conformanceItems, every_append, every_cons, every_map, every_flatMap, InRange, typeRef] at h
  obtain ⟨⟨⟨hu, -, hp⟩, -, ha⟩, -⟩ := h
  obtain ⟨es, hes, hel⟩ := within_use hm hu
  obtain ⟨fs, hfs, hfl⟩ : Within (Space.of m).total (flat (c.premises.map fun p => boundEdges m p.bounds)) := by
    apply within_flat
    intro o ho
    obtain ⟨p, hp', rfl⟩ := mem_map.mp ho
    exact within_bound hm (hp p hp').2
  rw [conformanceEdges]
  simp only [hes, hfs, Option.bind_eq_bind, Option.bind_some]
  refine within_some ?_
  simp only [forall_mem_append]
  exact ⟨⟨hel, hfl⟩, within_typeEdges ha⟩

variable {k : BcClass}

theorem within_class (hm : Sound bundle m) {c : ℕ} (hk : m.classes[c]? = some k) :
    Within (Space.of m).total (classEdges m c k) := by
  have h := hm.classes c k hk
  rw [classEdges]
  split_ifs
  · exact within_some (by simp)
  · simp only [classItems, every_append, every_cons, every_flatMap, InRange, typeRef] at h
    obtain ⟨⟨⟨⟨⟨⟨-, hb⟩, -⟩, -, hf⟩, -, he⟩, -⟩, -⟩ := h
    obtain ⟨bs, hbs, hbl⟩ := within_boundsAt hm hb
    obtain ⟨es, hes, hel⟩ : Within (Space.of m).total
        (flat ((m.conformances.filter fun x => x.class'.toNat = c).map (conformanceEdges m))) := by
      apply within_flat
      intro o ho
      obtain ⟨x, hx, rfl⟩ := mem_map.mp ho
      exact within_conformance hm (hm.conformances x (mem_filter.mp hx).1)
    simp only [hbs, hes, Option.bind_eq_bind, Option.bind_some]
    refine within_some ?_
    simp only [forall_mem_append]
    refine ⟨⟨⟨within_typeEdges ?_, hbl⟩, hel⟩, ?_⟩
    · simp only [forall_mem_append, forall_mem_map]
      exact ⟨(hm.classParents k (mem_of_getElem? hk)).2, fun p hp => (hf p hp).2.1⟩
    · simp only [forall_mem_map]
      exact fun p hp => funcNode_lt (he p hp).2.1

def Names (C K : ℕ → Prop) : Item → Prop
  | .func f => C f
  | .closure f => K f
  | _ => True

attribute [simp] Names

def instrPatterns (i : Instr) : List ℕ :=
  ((fields i).filter fun p => p.1 = .pattern ∨ i.op = .reflectionEnd ∧ p.1 = .index .funcs).map (·.2)

section

variable {C K : ℕ → Prop}

variable {f : ℕ}

@[simp] theorem names_useItems {contract : Bool} {u : BcInterfaceUse} : Every (Names C K) (useItems contract u) := by
  simp [useItems]

@[simp] theorem names_boundItems {contract : Bool} {b : List BcInterfaceUse} :
    Every (Names C K) (boundItems contract b) := by
  simp [boundItems]

@[simp] theorem names_boundsAt {table : List TypeBounds} {idx : ℕ} : Every (Names C K) (boundsAt table idx) := by
  unfold boundsAt
  split <;> simp [boundsItems]

@[simp] theorem names_callableItems {c : BcCallableContract} : Every (Names C K) (callableItems c) := by
  simp [callableItems, boundsItems]

@[simp] theorem names_slotItems {abi : Bool} {slot : ℕ} : Every (Names C K) (slotItems m abi slot) := by
  unfold slotItems
  split
  · simp
  · simp only [every_append, every_cons, Names, every_nil, true_and]
    unfold contractItems
    split <;> simp

@[simp] theorem names_conformanceItems {c : BcConformance} : Every (Names C K) (conformanceItems c) := by
  simp [conformanceItems]

theorem names_classItems {arms : List ℕ} {c : ℕ} {k : BcClass} :
    Every (Names C K) (classItems m arms c k) ↔ ∀ p ∈ k.methods, C p.2.toNat := by
  simp [classItems]

theorem op_of_funcs {op : Op} (h : .index .funcs ∈ op.operands) :
    op = .call ∨ op = .callG ∨ op = .functionCode ∨ op = .reflectionEnd ∨ makesClosure op := by
  cases op <;> first | (simp [Op.operands] at h; done) | simp [makesClosure]

variable {i : Instr}

theorem operand_mem {p : Operand × ℕ} (h : p ∈ fields i) : p.1 ∈ i.op.operands := (of_mem_zip h).1

theorem mem_instrCalls : f ∈ instrCalls i ↔
    (i.op = .call ∨ i.op = .callG ∨ i.op = .functionCode) ∧ (.index .funcs, f) ∈ fields i := by
  unfold instrCalls
  split_ifs with h <;> simp [h]

theorem mem_instrMakes : f ∈ instrMakes i ↔ makesClosure i.op ∧ (.index .funcs, f) ∈ fields i := by
  unfold instrMakes
  split_ifs with h <;> simp [h]

theorem mem_instrPatterns : f ∈ instrPatterns i ↔
    (.pattern, f) ∈ fields i ∨ i.op = .reflectionEnd ∧ (.index .funcs, f) ∈ fields i := by
  simp only [instrPatterns, mem_map, mem_filter, decide_eq_true_eq, Prod.exists, exists_eq_right]
  constructor
  · rintro ⟨o, h, rfl | ⟨hop, rfl⟩⟩
    · exact .inl h
    · exact .inr ⟨hop, h⟩
  · rintro (h | ⟨hop, h⟩)
    · exact ⟨_, h, .inl rfl⟩
    · exact ⟨_, h, .inr ⟨hop, rfl⟩⟩

theorem names_operandItems {op : Op} {o : Operand} {v : ℕ} : Every (Names C K) (operandItems m op o v) ↔
    (o = .pattern → C v) ∧ (o = .index .funcs → if makesClosure op then K v else C v) := by
  cases o with
  | index table =>
    cases table with
    | funcs =>
      simp only [operandItems, every_cons, every_nil, and_true, forall_const, reduceCtorEq, false_implies, true_and]
      split_ifs <;> rfl
    | slots => simp [operandItems]
    | _ => simp [operandItems, Names]
  | optApp =>
    simp only [operandItems]
    split_ifs <;> simp [Names]
  | _ => simp [operandItems]

theorem names_instrItems : Every (Names C K) (instrItems m i) ↔
    (∀ f ∈ instrCalls i, C f) ∧ (∀ f ∈ instrPatterns i, C f) ∧ ∀ f ∈ instrMakes i, K f := by
  simp only [instrItems, every_cons, Names, true_and, every_flatMap, names_operandItems, mem_instrCalls,
    mem_instrMakes, mem_instrPatterns, Prod.forall]
  have hn : makesClosure i.op = true → ¬(i.op = .call ∨ i.op = .callG ∨ i.op = .functionCode) ∧ i.op ≠ .reflectionEnd := by
    simp only [makesClosure, decide_eq_true_eq]
    rintro (h | h) <;> simp [h]
  constructor
  · intro h
    refine ⟨fun f hf => ?_, fun f hf => ?_, fun f hf => ?_⟩
    · have := (h _ f hf.2).2 rfl
      rwa [if_neg fun hk => (hn hk).1 hf.1] at this
    · rcases hf with hf | ⟨hop, hf⟩
      · exact (h _ f hf).1 rfl
      · have := (h _ f hf).2 rfl
        rwa [if_neg fun hk => (hn hk).2 hop] at this
    · have := (h _ f hf.2).2 rfl
      rwa [if_pos hf.1] at this
  · rintro ⟨hc, hp, hk⟩ o v hv
    refine ⟨?_, ?_⟩
    · rintro rfl
      exact hp v (.inl hv)
    · rintro rfl
      split_ifs with hmk
      · exact hk v ⟨hmk, hv⟩
      · rcases op_of_funcs (operand_mem hv) with h | h | h | h | h
        · exact hc v ⟨.inl h, hv⟩
        · exact hc v ⟨.inr (.inl h), hv⟩
        · exact hc v ⟨.inr (.inr h), hv⟩
        · exact hp v (.inr ⟨h, hv⟩)
        · exact absurd h hmk

theorem names_funcItems {func : Func} : Every (Names C K) (funcItems m f func) ↔
    ∀ i ∈ Func.instrs func, (∀ g ∈ instrCalls i, C g) ∧ (∀ g ∈ instrPatterns i, C g) ∧ ∀ g ∈ instrMakes i, K g := by
  simp only [funcItems, signatureItems, every_append, every_cons, every_map, every_flatMap, Names, word, count, mark,
    typeRef, names_boundsAt, every_nil, true_and, implies_true, names_instrItems, Func.instrs, mem_flatten]
  constructor
  · rintro h i ⟨b, hb, hi⟩
    exact h b hb i hi
  · exact fun h b hb i hi => h i ⟨b, hb, hi⟩

end

theorem InRange.names {x : Item} (h : InRange bundle m x) : Names (· < m.funcs.length) (· < m.funcs.length) x := by
  cases x <;> first | exact h | trivial

theorem funcOperands_lt (hm : Sound bundle m) {f : ℕ} (hf : m.funcs[f]? = some func) :
    ∀ i ∈ Func.instrs func, (∀ g ∈ instrCalls i, g < m.funcs.length) ∧ (∀ g ∈ instrPatterns i, g < m.funcs.length) ∧
      ∀ g ∈ instrMakes i, g < m.funcs.length :=
  names_funcItems.mp fun x hx => (hm.funcs f func hf x hx).names

theorem methods_lt (hm : Sound bundle m) {c : ℕ} (hk : m.classes[c]? = some k) :
    ∀ p ∈ k.methods, p.2.toNat < m.funcs.length :=
  names_classItems.mp fun x hx => (hm.classes c k hk x hx).names

theorem mem_ownFuncs : func ∈ ownFuncs m ↔ ∃ f, m.funcs[f]? = some func ∧ externFuncs m f = false := by
  simp only [ownFuncs, mem_map, mem_filter, Prod.exists, mem_zipIdx_iff_getElem?, Bool.not_eq_true']
  constructor
  · rintro ⟨a, f, h, rfl⟩
    exact ⟨f, h⟩
  · rintro ⟨f, h⟩
    exact ⟨func, f, h, rfl⟩

theorem mem_ownClasses : k ∈ ownClasses m ↔ ∃ c, m.classes[c]? = some k ∧ externClasses m c = false := by
  simp only [ownClasses, mem_map, mem_filter, Prod.exists, mem_zipIdx_iff_getElem?, Bool.not_eq_true']
  constructor
  · rintro ⟨a, f, h, rfl⟩
    exact ⟨f, h⟩
  · rintro ⟨f, h⟩
    exact ⟨k, f, h, rfl⟩

theorem called_lt (hm : Sound bundle m) : ∀ f ∈ called m ++ madeClosure m, f < m.funcs.length := by
  intro f hf
  simp only [called, madeClosure, mem_append, mem_flatMap, mem_map, mem_singleton] at hf
  rcases hf with ((((⟨k, hk, p, hp, rfl⟩ | ⟨func, hu, i, hi, hf⟩) | ⟨b, hb, rfl⟩) | ⟨spec, hs, hf⟩) | rfl) |
    ⟨func, hu, i, hi, hf⟩
  · obtain ⟨c, hc, -⟩ := mem_ownClasses.mp hk
    exact methods_lt hm hc p hp
  · obtain ⟨g, hg, -⟩ := mem_ownFuncs.mp hu
    exact (funcOperands_lt hm hg i hi).1 f hf
  · exact hm.bindings b hb
  · obtain ⟨s, hs⟩ := mem_iff_getElem?.mp hs
    have ht := (hm.slots s spec hs).2.1
    unfold slotTargets at hf
    split at hf
    · rename_i g hi
      obtain rfl : f = g.toNat := by simpa using hf
      rw [hi] at ht
      exact ht
    · rename_i c g hi
      obtain rfl : f = g.toNat := by simpa using hf
      rw [hi] at ht
      exact ht.2
    · cases hf
  · exact hm.entry
  · obtain ⟨g, hg, -⟩ := mem_ownFuncs.mp hu
    exact (funcOperands_lt hm hg i hi).2.2 f hf

theorem typeChildren_lt {t : ℕ} {ty : BcType} (h : Every (Earlier bundle m t) (typeItems ty)) :
    ∀ c ∈ typeChildren ty, c.toNat < t := by
  cases ty <;> simp_all [typeItems, signatureItems, typeChildren, or_imp]

variable (m) in
structure Built (g : Graph) : Prop where
  space : g.space = .of m
  closureBody : g.closureBody = isClosureBody m
  arms : g.arms = armsOf m
  externClass : g.externClass = externClasses m
  externFunc : g.externFunc = externFuncs m
  length : g.succ.length = (Space.of m).total
  within : ∀ vs ∈ g.succ, ∀ w ∈ vs, w < (Space.of m).total
  classes : ∀ (c : ℕ) (k : BcClass), m.classes[c]? = some k → g.succ[c]? = classEdges m c k
  funcs : ∀ (f : ℕ) (func : Func), m.funcs[f]? = some func → g.succ[(Space.of m).funcNode f]? = funcEdges m f func
  tables : ∀ v vs, m.classes.length + m.funcs.length ≤ v → g.succ[v]? = some vs →
    ∀ w ∈ vs, m.classes.length + m.funcs.length ≤ w

theorem exists_build (hm : Sound bundle m) : ∃ g, Graph.build m = some g ∧ Built m g := by
  obtain ⟨cs, hcs⟩ : ∃ cs, (m.classes.zipIdx.mapM fun p => classEdges m p.2 p.1) = some cs := exists_mapM fun p hp => by
    obtain ⟨es, hes, -⟩ := within_class hm (mem_zipIdx_iff_getElem?.mp hp)
    exact ⟨es, hes⟩
  obtain ⟨fs, hfs⟩ : ∃ fs, (m.funcs.zipIdx.mapM fun p => funcEdges m p.2 p.1) = some fs := exists_mapM fun p hp => by
    obtain ⟨es, hes, -⟩ := within_func hm (mem_zipIdx_iff_getElem?.mp hp)
    exact ⟨es, hes⟩
  have hr : ∀ p ∈ m.classes.zipIdx, isArm m p → p.1.parent.toNat < m.classes.length := by
    intro p hp h
    have hk := mem_of_getElem? (mem_zipIdx_iff_getElem?.mp hp)
    simp only [isArm, decide_eq_true_eq] at h
    exact (hm.classParents p.1 hk).1.resolve_left h.2.1
  have hl : cs.length = m.classes.length := by simpa using mapM_length hcs
  have hn : fs.length = m.funcs.length := by simpa using mapM_length hfs
  have hg := mapM_getElem? hcs
  have hfg := mapM_getElem? hfs
  refine ⟨_, by
    simp only [Graph.build, hcs, hfs, Option.bind_eq_bind, Option.bind_some, guard, if_pos (called_lt hm), if_pos hr,
      Option.pure_def]
    rfl, rfl, rfl, rfl, rfl, rfl, ?_, ?_, ?_, ?_, ?_⟩
  · simp only [length_append, length_map, hl, hn, Space.total, Space.of]
  · simp only [forall_mem_append, forall_mem_map]
    refine ⟨⟨⟨?_, ?_⟩, fun ty hty c hc => typeEdge_lt ?_⟩, fun a ha t ht => typeEdge_lt ?_⟩
    · intro es hes
      obtain ⟨p, hp, he⟩ := exists_of_mem_mapM hcs hes
      obtain ⟨_, he', hlt⟩ := within_class hm (mem_zipIdx_iff_getElem?.mp hp)
      cases he.symm.trans he'
      exact hlt
    · intro es hes
      obtain ⟨p, hp, he⟩ := exists_of_mem_mapM hfs hes
      obtain ⟨_, he', hlt⟩ := within_func hm (mem_zipIdx_iff_getElem?.mp hp)
      cases he.symm.trans he'
      exact hlt
    · obtain ⟨t, ht⟩ := mem_iff_getElem?.mp hty
      have hlt := lt_of_getElem? ht
      exact (typeChildren_lt (hm.types t ty ht) c hc).trans hlt
    · obtain ⟨i, hi⟩ := mem_iff_getElem?.mp ha
      have h := hm.apps i a hi
      simp only [appItems, every_append, every_cons, every_map, InRange, typeRef] at h
      exact h.1.2.2 t ht
  · intro c k hk
    have hlt : c < cs.length := hl ▸ lt_of_getElem? hk
    rw [append_assoc, append_assoc, List.getElem?_append_left hlt, hg]
    simp [hk]
  · intro f func hf
    have hlt : f < fs.length := hn ▸ lt_of_getElem? hf
    have ho : (Space.of m).funcNode f = cs.length + f := by simp [Space.funcNode, Space.of, hl]
    rw [ho, append_assoc, append_assoc, List.getElem?_append_right (by omega), Nat.add_sub_cancel_left,
      List.getElem?_append_left hlt, hfg]
    simp [hf]
  · intro v vs hv hvs w hw
    rw [append_assoc, List.getElem?_append_right (by simp; omega)] at hvs
    have hme := mem_of_getElem? hvs
    simp only [mem_append, mem_map] at hme
    rcases hme with ⟨ty, -, rfl⟩ | ⟨a, -, rfl⟩
    all_goals
      obtain ⟨t, -, rfl⟩ := mem_map.mp hw
      simp only [typeEdge, Space.typeNode, Space.of]
      omega

theorem Built.func_edge {g : Graph} (hg : Built m g) {f : ℕ} (hf : m.funcs[f]? = some func)
    (hw : externFuncs m f = false) (hm : Sound bundle m) :
    ∀ i ∈ Func.instrs func, ∀ h, h ∈ instrCalls i ∨ h ∈ instrPatterns i ∨ h ∈ instrMakes i →
      Scc.Edge g.succ ((Space.of m).funcNode f) ((Space.of m).funcNode h) := by
  intro i hi h hh
  obtain ⟨es, hes, -⟩ := within_func hm hf
  refine ⟨es, (hg.funcs f func hf).trans hes, ?_⟩
  simp only [funcEdges, hw, Bool.false_eq_true, if_false, Option.bind_eq_bind, Option.bind_eq_some_iff] at hes
  obtain ⟨bs, -, body, hb, hes⟩ := hes
  obtain rfl := Option.some.inj hes
  apply mem_append_right
  have he : ∃ o, (o, h) ∈ fields i ∧ (o = .index .funcs ∨ o = .pattern) := by
    simp only [mem_instrCalls, mem_instrPatterns, mem_instrMakes] at hh
    rcases hh with ⟨-, hh⟩ | (hh | ⟨-, hh⟩) | ⟨-, hh⟩
    · exact ⟨_, hh, .inl rfl⟩
    · exact ⟨_, hh, .inr rfl⟩
    · exact ⟨_, hh, .inl rfl⟩
    · exact ⟨_, hh, .inl rfl⟩
  obtain ⟨o, ho, hop⟩ := he
  simp only [flat, Option.map_eq_some_iff] at hb
  obtain ⟨ess, hs, rfl⟩ := hb
  obtain ⟨es', hes', hie⟩ := mem_mapM hs (mem_map_of_mem (f := instrEdges m) hi)
  refine mem_flatten.mpr ⟨es', hes', ?_⟩
  simp only [id, instrEdges, flat, Option.map_eq_some_iff] at hie
  obtain ⟨fss, hfss, rfl⟩ := hie
  obtain ⟨fs, hfs, hfe⟩ := mem_mapM hfss (mem_map_of_mem (f := fun p => operandEdges m i.op p.1 p.2) ho)
  refine mem_flatten.mpr ⟨fs, hfs, ?_⟩
  rcases hop with rfl | rfl
  · obtain rfl := Option.some.inj hfe
    simp
  · obtain rfl := Option.some.inj hfe
    simp

theorem Built.class_edge {g : Graph} (hg : Built m g) {c : ℕ} (hk : m.classes[c]? = some k)
    (ho : externClasses m c = false) (hm : Sound bundle m) :
    ∀ p ∈ k.methods, Scc.Edge g.succ c ((Space.of m).funcNode p.2.toNat) := by
  intro p hp
  obtain ⟨es, hes, -⟩ := within_class hm hk
  refine ⟨es, (hg.classes c k hk).trans hes, ?_⟩
  simp only [classEdges, ho, Bool.false_eq_true, if_false, Option.bind_eq_bind, Option.bind_eq_some_iff] at hes
  obtain ⟨bs, -, cs, -, hes⟩ := hes
  obtain rfl := Option.some.inj hes
  exact mem_append_right _ (mem_map_of_mem hp)

end LoomV4.Identity
