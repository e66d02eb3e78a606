import LoomV4.Identity.Edges

namespace LoomV4.Identity

open Lib Lib.Reader Bytecode List Option Resolver

variable {bundle : AbiBundle} {m : Module} {R : Resolver}

theorem exists_rowBytes {row : List BcRow} (h : RowOk bundle row) : ∃ bs, rowBytes bundle row = some bs := by
  have hop : ∀ r ∈ row, ∃ ops, rowOperations bundle r = some ops ∧ ∀ i ∈ ops, i < bundle.operations.length := by
    intro r hr
    have hr := h r hr
    cases r with
    | op i => exact ⟨_, rfl, by simpa using hr⟩
    | var v => exact ⟨_, rfl, by simp⟩
    | group i =>
      have hb := getElem?_eq_getElem hr
      refine ⟨_, by rw [rowOperations, Abi.BundleTables.groupOperations, hb]; rfl, fun j hj => ?_⟩
      obtain ⟨p, hp, rfl⟩ := List.mem_map.mp hj
      have hp := mem_zipIdx_iff_getElem?.mp (mem_filter.mp hp).1
      rw [← bundle.bits_length _ (getElem_mem hr)]
      exact lt_of_getElem? hp
  obtain ⟨ops, hops⟩ : ∃ ops, row.mapM (rowOperations bundle) = some ops := exists_mapM fun r hr => by
    obtain ⟨o, ho, -⟩ := hop r hr
    exact ⟨o, ho⟩
  obtain ⟨names, hn⟩ : ∃ names, ((sortNat ops.flatten.dedup).mapM fun i => bundle.operations[i]?) = some names := by
    apply exists_mapM
    intro i hi
    have hi := (mergeSort_perm _ _).mem_iff.mp hi
    obtain ⟨o, ho, hi⟩ := mem_flatten.mp (mem_dedup.mp hi)
    obtain ⟨r, hr, ho⟩ := exists_of_mem_mapM hops ho
    obtain ⟨_, ho', hlt⟩ := hop r hr
    cases ho.symm.trans ho'
    exact ⟨_, getElem?_eq_getElem (hlt i hi)⟩
  simp only [rowBytes, hops, hn, bind_eq_bind, bind_some]
  exact ⟨_, rfl⟩

variable (R) in
def Reads : Item → Prop
  | .type t => ∃ d, R.typeDigest t = some d
  | .app a => ∃ d, R.appDigest a = some d
  | .func f => ∃ ps, R.funcIdent f = some ps
  | .closure f => ∃ ps, R.closureIdent f = some ps
  | .interfaceHash i => i < R.interfaceHashes.length
  | _ => True

theorem exists_resolve (ho : R.module = m) (hb : R.bundle = bundle) {x : Item} (h : InRange bundle m x)
    (hx : Reads R x) : ∃ ps, R.resolve x = some ps := by
  have hg : ∀ {α : Type} {l : List α} {i : ℕ} {k : α → List Piece}, i < l.length → ∃ ps, (l[i]?).map k = some ps :=
    fun h => ⟨_, by rw [getElem?_eq_getElem h]; rfl⟩
  cases x with
  | raw bs => exact ⟨_, rfl⟩
  | type t =>
    obtain ⟨d, hd⟩ := hx
    exact ⟨_, by rw [Resolver.resolve, hd]; rfl⟩
  | app a =>
    obtain ⟨d, hd⟩ := hx
    exact ⟨_, by rw [Resolver.resolve, hd]; rfl⟩
  | func f => exact hx
  | closure f => exact hx
  | classKey c => exact hg (ho ▸ h)
  | interfaceKey i => exact hg (ho ▸ h)
  | interfaceHash i => exact hg hx
  | selector s => exact hg (ho ▸ h)
  | string s => exact hg (ho ▸ h)
  | blob b => exact hg (ho ▸ h)
  | reflection r => exact hg (ho ▸ h)
  | row row =>
    obtain ⟨bs, hbs⟩ := exists_rowBytes (hb ▸ h)
    exact ⟨_, by rw [Resolver.resolve, hbs]; rfl⟩
  | absent => exact h.elim

variable {items : List Item}

theorem exists_pieces (ho : R.module = m) (hb : R.bundle = bundle)
    (h : Every (InRange bundle m) items) (hx : Every (Reads R) items) : ∃ ps, R.pieces items = some ps := by
  obtain ⟨ps, hps⟩ := exists_mapM fun x hi => exists_resolve ho hb (h x hi) (hx x hi)
  exact ⟨_, by rw [Resolver.pieces, hps]; rfl⟩

variable (bundle m R) in
structure Ready : Prop where
  module : R.module = m
  bundle : R.bundle = bundle
  types : ∀ t < m.types.length, ∃ h, R.typeDigest t = some h
  apps : ∀ a < m.apps.length, ∃ h, R.appDigest a = some h

def Early : Item → Prop
  | .func _ | .closure _ | .interfaceHash _ | .app _ => False
  | _ => True

attribute [simp] Early

theorem Ready.pieces (hR : Ready bundle m R) (h : Every (InRange bundle m) items)
    (hi : R.interfaceHashes.length = m.interfaces.length)
    (hn : Every (Names (fun f => ∃ ps, R.funcIdent f = some ps) fun f => ∃ ps, R.closureIdent f = some ps) items) :
    ∃ ps, R.pieces items = some ps := by
  refine exists_pieces hR.module hR.bundle h fun x hx => ?_
  have hr := h x hx
  have hn := hn x hx
  cases x with
  | type t => exact hR.types t hr
  | app a => exact hR.apps a hr
  | func f => exact hn
  | closure f => exact hn
  | interfaceHash i => exact lt_of_lt_of_eq hr hi.symm
  | _ => trivial

variable {ps : List Piece}

theorem resolve_pieces {x : Item} (h : R.resolve x = some ps) :
    ∀ p ∈ ps, (∃ bs, p = .raw bs) ∨ ∃ v, p = .member v ∧ R.inComp v = true := by
  have hf : ∀ f ps, R.funcIdent f = some ps → ∀ p ∈ ps, (∃ bs, p = .raw bs) ∨ ∃ v, p = .member v ∧ R.inComp v = true := by
    intro f ps h
    rw [funcIdent] at h
    split_ifs at h with hin
    · obtain rfl := some.inj h
      simpa using hin
    · obtain ⟨d, -, rfl⟩ := map_eq_some_iff.mp h
      simp
  cases x with
  | raw bs =>
    obtain rfl := some.inj h
    simp
  | func f => exact hf f ps h
  | closure f =>
    simp only [Resolver.resolve, closureIdent] at h
    split_ifs at h
    · obtain rfl := some.inj h
      simp
    · obtain ⟨d, -, rfl⟩ := map_eq_some_iff.mp h
      simp
    · exact hf f ps h
  | absent => cases h
  | _ =>
    obtain ⟨d, -, rfl⟩ := map_eq_some_iff.mp h
    simp

theorem mem_pieces (h : R.pieces items = some ps) :
    ∀ p ∈ ps, (∃ bs, p = .raw bs) ∨ ∃ v, p = .member v ∧ R.inComp v = true := by
  obtain ⟨pss, hs, rfl⟩ := map_eq_some_iff.mp h
  intro p hp
  obtain ⟨qs, hqs, hp⟩ := mem_flatten.mp hp
  obtain ⟨x, -, hx⟩ := exists_of_mem_mapM hs hqs
  exact resolve_pieces hx p hp

theorem reads_of_pieces (h : R.pieces items = some ps) :
    Every (Names (fun f => ∃ ps, R.funcIdent f = some ps) fun f => ∃ ps, R.closureIdent f = some ps) items := by
  obtain ⟨pss, hp, -⟩ := map_eq_some_iff.mp h
  intro x hx
  obtain ⟨qs, -, hqs⟩ := mem_mapM hp hx
  cases x with
  | func f => exact ⟨qs, hqs⟩
  | closure f => exact ⟨qs, hqs⟩
  | _ => trivial

theorem exists_render {place : ℕ → Option Bytes}
    (h : ∀ p ∈ ps, (∃ bs, p = .raw bs) ∨ ∃ v bs, p = .member v ∧ place v = some bs) : ∃ bs, render place ps = some bs := by
  obtain ⟨bss, hb⟩ : ∃ bss, ps.mapM (Piece.render place) = some bss := exists_mapM fun p hp => by
    rcases h p hp with ⟨bs, rfl⟩ | ⟨v, bs, rfl, hv⟩
    · exact ⟨bs, rfl⟩
    · exact ⟨bs, hv⟩
  exact ⟨_, by rw [render, hb]; rfl⟩

theorem exists_plain (hc : R.comp = none) (h : R.pieces items = some ps) : ∃ bs, R.plain items = some bs := by
  obtain ⟨bs, hbs⟩ : ∃ bs, render (fun _ => none) ps = some bs := by
    apply exists_render
    intro p hp
    rcases mem_pieces h p hp with hp | ⟨v, -, hv⟩
    · exact .inl hp
    · simp [inComp, hc] at hv
  exact ⟨bs, by rw [Resolver.plain, h, bind_some, hbs]⟩

theorem plain_of_early (ho : R.module = m) (hb : R.bundle = bundle) (hc : R.comp = none)
    (h : Every (InRange bundle m) items) (he : Every Early items)
    (ht : ∀ t, .type t ∈ items → ∃ d, R.typeDigest t = some d) : ∃ bs, R.plain items = some bs := by
  obtain ⟨ps, hps⟩ : ∃ ps, R.pieces items = some ps := by
    refine exists_pieces ho hb h fun x hx => ?_
    have he := he x hx
    cases x with
    | type t => exact ht t hx
    | app | func | closure | interfaceHash => exact he.elim
    | _ => trivial
  exact exists_plain hc hps

theorem Ready.plain (hR : Ready bundle m R) (hc : R.comp = none)
    (h : Every (InRange bundle m) items) (he : Every Early items) : ∃ bs, R.plain items = some bs :=
  plain_of_early hR.module hR.bundle hc h he fun t ht => hR.types t (h _ ht)

section

@[simp] theorem early_useItems {u : BcInterfaceUse} : Every Early (useItems false u) := by simp [useItems]

theorem early_interfaceLocalItems {i : BcInterface} : Every Early (interfaceLocalItems i) := by
  simp [interfaceLocalItems, boundsItems, boundItems, methodItems, premiseItems]

theorem early_typeItems {ty : BcType} : Every Early (typeItems ty) := by
  cases ty <;> simp [typeItems, signatureItems]

theorem early_appItems {a : TypeApp} : Every Early (appItems a) := by simp [appItems]

end

section

variable (hash256 : Bytes → Hash) (hm : Sound bundle m) (hR : Ready bundle m R) (hc : R.comp = none)

include hash256 hm hR hc

theorem Ready.interfaceLocalDigest {i : ℕ}
    (hi : i < m.interfaces.length) : ∃ d, R.interfaceLocalDigest hash256 i = some d := by
  have hg := getElem?_eq_getElem hi
  obtain ⟨bs, hbs⟩ := hR.plain hc (hm.interfaces i _ hg) early_interfaceLocalItems
  exact ⟨_, by rw [Resolver.interfaceLocalDigest, hR.module, hg, bind_some, hbs]; rfl⟩

end

section

variable {E : Env} (hash256 : Bytes → Hash)

theorem prefix_range {xs : List ℕ} {x n : ℕ} (h : xs ++ [x] <+: List.range n) : xs = List.range x ∧ x < n := by
  have hl := h.length_le
  simp only [length_append, length_singleton, length_range] at hl
  have heq := prefix_iff_eq_take.mp h
  rw [take_range, Nat.min_eq_left (by simpa using hl)] at heq
  simp only [length_append, length_singleton, range_succ] at heq
  obtain ⟨hxs, hx⟩ := append_inj' heq rfl
  obtain rfl := singleton_inj.mp hx
  exact ⟨hxs, by omega⟩

theorem typeDigest_eq (hc : R.comp = none) (t : ℕ) : R.typeDigest t = R.state.typeFinal t := by
  simp [typeDigest, inComp, hc]

theorem exists_typeDigestOf (hm : Sound bundle m) (ho : R.module = m) (hb : R.bundle = bundle)
    (hc : R.comp = none) {t : ℕ} (ht : t < m.types.length) (h : ∀ c < t, ∃ d, R.state.typeFinal c = some d) :
    ∃ d, R.typeDigestOf hash256 t = some d := by
  have hg := getElem?_eq_getElem ht
  have hi := hm.types t _ hg
  obtain ⟨bs, hbs⟩ : ∃ bs, R.plain (.raw tagType :: typeItems m.types[t]) = some bs := by
    refine plain_of_early ho hb hc (every_cons.mpr ⟨trivial, fun x hx => (hi x hx).inRange ht.le⟩)
      (every_cons.mpr ⟨trivial, early_typeItems⟩) fun c hx => ?_
    rw [typeDigest_eq hc]
    have hx : .type c ∈ typeItems m.types[t] := by simpa using hx
    exact h c (hi _ hx)
  exact ⟨_, by rw [typeDigestOf, ho, hg, bind_some, hbs]; rfl⟩

theorem exists_appDigestOf (hm : Sound bundle m) (ho : R.module = m) (hb : R.bundle = bundle)
    (hc : R.comp = none) {a : ℕ} (ha : a < m.apps.length)
    (h : ∀ t < m.types.length, ∃ d, R.state.typeFinal t = some d) : ∃ d, R.appDigestOf hash256 a = some d := by
  have hg := getElem?_eq_getElem ha
  have hi := hm.apps a _ hg
  obtain ⟨bs, hbs⟩ : ∃ bs, R.plain (appItems m.apps[a]) = some bs := by
    refine plain_of_early ho hb hc hi early_appItems fun c hx => ?_
    rw [typeDigest_eq hc]
    exact h c (hi _ hx)
  exact ⟨_, by rw [appDigestOf, ho, hg, bind_some, hbs]; rfl⟩

structure Tables (m : Module) (state : HashState) : Prop where
  types : ∀ t < m.types.length, ∃ d, state.typeFinal t = some d
  apps : ∀ a < m.apps.length, ∃ d, state.appFinal a = some d
  funcs : state.funcHash = noDigest
  classes : state.classHash = noDigest
  bodies : state.bodyFinal = noDigest

theorem exists_tableDigests (hm : Sound bundle m) (ho : E.module = m) (hb : E.bundle = bundle) :
    ∃ state, tableDigests hash256 m E = some state ∧ Tables m state := by
  let P : List ℕ → HashState → Prop := fun ts state => (∀ t ∈ ts, ∃ d, state.typeFinal t = some d) ∧
    state.funcHash = noDigest ∧ state.classHash = noDigest ∧ state.bodyFinal = noDigest
  obtain ⟨s1, hs1, hP1⟩ := @exists_foldlM _ _ (List.range m.types.length) (fun state t =>
      ((E.finalView state).typeDigestOf hash256 t).map fun h =>
        { state with typeFinal := Function.update state.typeFinal t (some h) }) P .start (by
    intro ts t state hp ⟨hts, hs⟩
    have hr := prefix_range hp
    obtain ⟨d, hd⟩ : ∃ d, (E.finalView state).typeDigestOf hash256 t = some d :=
      exists_typeDigestOf hash256 hm ho hb rfl hr.2 fun c hc => hts c (hr.1 ▸ mem_range.mpr hc)
    refine ⟨{ state with typeFinal := Function.update state.typeFinal t (some d) }, by rw [hd]; rfl, fun u hu => ?_, hs⟩
    by_cases hut : u = t
    · exact ⟨d, by simp [hut]⟩
    · rw [mem_append, mem_singleton] at hu
      obtain ⟨e, he⟩ := hts u (hu.resolve_right hut)
      exact ⟨e, by simpa [hut] using he⟩) ⟨by simp, rfl, rfl, rfl⟩
  let Q : List ℕ → HashState → Prop := fun as state => P (List.range m.types.length) state ∧
    ∀ a ∈ as, ∃ d, state.appFinal a = some d
  obtain ⟨s2, hs2, hP2, hap⟩ := @exists_foldlM _ _ (List.range m.apps.length) (fun state a =>
      ((E.finalView state).appDigestOf hash256 a).map fun h =>
        { state with appFinal := Function.update state.appFinal a (some h) }) Q s1 (by
    intro as a state hp ⟨hP, has⟩
    have hr := prefix_range hp
    obtain ⟨d, hd⟩ : ∃ d, (E.finalView state).appDigestOf hash256 a = some d :=
      exists_appDigestOf hash256 hm ho hb rfl hr.2 fun t ht => hP.1 t (mem_range.mpr ht)
    refine ⟨{ state with appFinal := Function.update state.appFinal a (some d) }, by rw [hd]; rfl, hP, fun u hu => ?_⟩
    by_cases hua : u = a
    · exact ⟨d, by simp [hua]⟩
    · rw [mem_append, mem_singleton] at hu
      obtain ⟨e, he⟩ := has u (hu.resolve_right hua)
      exact ⟨e, by simpa [hua] using he⟩) ⟨hP1, by simp⟩
  refine ⟨s2, by rw [tableDigests, hs1]; exact hs2, fun t ht => hP2.1 t (mem_range.mpr ht),
    fun a ha => hap a (mem_range.mpr ha), hP2.2.1, hP2.2.2.1, hP2.2.2.2⟩

end

end LoomV4.Identity
