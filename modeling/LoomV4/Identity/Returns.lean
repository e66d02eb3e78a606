import LoomV4.Identity.Colours
import LoomV4.Identity.Scheduled

namespace LoomV4.Identity

open Lib Bytecode List Option Env Resolver

variable {bundle : AbiBundle} {m : Module} {E : Env} {comps : List (List ℕ)} {k : ℕ} {comp : List ℕ}
  {state : HashState} {p p' : Env.Progress}

theorem lookup_zip {α β : Type} [BEq α] [LawfulBEq α] {xs : List α} {ys : List β} (hl : xs.length = ys.length) {x : α} :
    ((xs.zip ys).lookup x).isSome ↔ x ∈ xs := by
  induction xs generalizing ys with
  | nil => simp
  | cons a xs ih =>
    cases ys with
    | nil => simp at hl
    | cons y ys =>
      rw [zip_cons_cons, List.lookup_cons, mem_cons]
      by_cases hxa : x = a
      · simp [hxa]
      · have hne : (x == a) = false := by simpa using hxa
        simp [hne, hxa, ih (by simpa using hl)]

structure Named (m : Module) (comp : List ℕ) (state state' : HashState) : Prop where
  types : state'.typeFinal = state.typeFinal
  apps : state'.appFinal = state.appFinal
  bodies : state'.bodyFinal = state.bodyFinal
  keptFuncs : ∀ f, (state.funcHash f).isSome → (state'.funcHash f).isSome
  keptClasses : ∀ c, (state.classHash c).isSome → (state'.classHash c).isSome
  funcs : ∀ f < m.funcs.length, (Space.of m).funcNode f ∈ comp → isClosureBody m f = false → (state'.funcHash f).isSome
  classes : ∀ c < m.classes.length, c ∈ comp → (state'.classHash c).isSome
  unhashed : ∀ f, isClosureBody m f = true → state'.funcHash f = state.funcHash f

namespace Setting

variable (h : Setting bundle m E comps)

include h

theorem named_withMembers {colours : List ℕ} {hash : Hash}
    (hl : colours.length = (refineMembers (E.parts comp)).length) :
    Named m comp state (E.withMembers state comp (refineMembers (E.parts comp)) colours hash) := by
  have hu : ∀ f, (((refineMembers (E.parts comp)).zip colours).lookup (.func, f)).isSome ↔
      f ∈ (E.parts comp).memberFuncs := by
    intro f
    rw [lookup_zip hl.symm]
    simp [refineMembers]
  have hs : ∀ c, (((refineMembers (E.parts comp)).zip colours).lookup (.cls, c)).isSome ↔
      c ∈ (E.parts comp).classes := by
    intro c
    rw [lookup_zip hl.symm]
    simp [refineMembers]
  refine ⟨rfl, rfl, rfl, fun f hf => ?_, fun c hc => ?_, fun f hlt hf hb => ?_, fun c hlt hc => ?_, fun f hb => ?_⟩
  · simp only [withMembers]
    split
    · rfl
    · exact hf
  · simp only [withMembers]
    split
    · rfl
    · exact hc
  · obtain ⟨d, hd⟩ := isSome_iff_exists.mp ((hu f).mpr (h.mem_memberFuncs.mpr ⟨hf, hlt, hb⟩))
    simp [withMembers, hd]
  · obtain ⟨d, hd⟩ := isSome_iff_exists.mp ((hs c).mpr (h.mem_classes.mpr ⟨hc, hlt⟩))
    simp [withMembers, hd]
  · have hn : ((refineMembers (E.parts comp)).zip colours).lookup (.func, f) = none := by
      rw [← not_isSome_iff_eq_none, hu, h.mem_memberFuncs, hb]
      simp
    simp [withMembers, hn]

variable (hk : comps[k]? = some comp) (hs : E.skips comp = false) (hH : Hashed m E k p.state)

include hk hs hH in
theorem member_pieces {T A : ℕ → Option Hash} (hno : ¬PatternOutside m E k) :
    ∀ r ∈ refineMembers (E.parts comp), ∃ ps, (E.compView p.state k T A).pieces (E.memberItems r) = some ps := by
  intro r hr
  simp only [refineMembers, mem_append, List.mem_map] at hr
  have hb : ∀ f kind, kind ≠ .cls → (Space.of m).funcNode f ∈ comp → f < m.funcs.length →
      ∃ ps, (E.compView p.state k T A).pieces (E.memberItems (kind, f)) = some ps := by
    intro f kind hi hf hlt
    have hg := getElem?_eq_getElem hlt
    obtain ⟨ps, hps⟩ : ∃ ps, (E.compView p.state k T A).pieces
        ((.raw [kind.byte] :: if kind = .body then [.raw tagBody] else []) ++ funcItems m f m.funcs[f]) = some ps :=
      h.func_pieces hk hs hH hno hg hf (by simp) (by simp)
    refine ⟨ps, hps ▸ ?_⟩
    cases kind with
    | cls => exact absurd rfl hi
    | func | body => simp only [memberItems, h.module, hg]
  rcases hr with (⟨c, hc, rfl⟩ | ⟨f, hf, rfl⟩) | ⟨f, hf, rfl⟩
  · obtain ⟨hc, hlt⟩ := h.mem_classes.mp hc
    have hg := getElem?_eq_getElem hlt
    simp only [memberItems, h.module, hg, h.built.arms]
    exact h.class_pieces hk hs hH hg hc
  · obtain ⟨hf, hlt, -⟩ := h.mem_memberFuncs.mp hf
    exact hb f .func (by simp) hf hlt
  · obtain ⟨hf, hlt, -⟩ := h.mem_closureFuncs.mp hf
    exact hb f .body (by simp) hf hlt

theorem exists_componentHash {serials : List (List Piece)} {colours : List ℕ}
    (hlt : ∀ v ∈ comp, v < m.classes.length + m.funcs.length)
    (hn : colours.length = (refineMembers (E.parts comp)).length)
    (hl : serials.length = (refineMembers (E.parts comp)).length)
    (hs : ∀ s ∈ serials, ∀ q ∈ s, (∃ bs, q = .raw bs) ∨ ∃ v ∈ comp, q = .member v) :
    ∃ hash, E.componentHash serials (refineMembers (E.parts comp)) colours = some hash := by
  obtain ⟨bytes, hb⟩ : ∃ bytes, serials.mapM (render (E.coloured (refineMembers (E.parts comp)) colours)) = some bytes := by
    refine exists_mapM fun s hm => exists_render fun q hq => ?_
    rcases hs s hm q hq with hq | ⟨v, hv, rfl⟩
    · exact .inl hq
    · obtain ⟨pos, hp, ht⟩ := h.exists_memberOf hlt hv
      have hc := getElem?_eq_getElem (hn.symm ▸ ht)
      exact .inr ⟨v, _, rfl, by rw [Env.coloured, hp, bind_some, hc]; rfl⟩
  have he : bytes.length = (refineMembers (E.parts comp)).length := (mapM_length hb).trans hl
  obtain ⟨sorted, ho⟩ : ∃ sorted, (((List.range (refineMembers (E.parts comp)).length).mergeSort fun a b =>
      decide (colours.getD a 0 ≤ colours.getD b 0)).mapM fun i => bytes[i]?) = some sorted := by
    refine exists_mapM fun i hi => ?_
    rw [mem_mergeSort, mem_range, ← he] at hi
    exact ⟨_, getElem?_eq_getElem hi⟩
  simp only [componentHash, hb, bind_eq_bind, bind_some]
  rw [ho]
  exact ⟨_, rfl⟩

include hk hs hH in
theorem exists_hashMembers (hno : ¬PatternOutside m E k) :
    ∃ r, E.hashMembers k comp p = some r ∧ ∀ p', r = .ok p' → Named m comp p.state p'.state := by
  have hlt := h.comp_lt hk hs
  obtain ⟨serials, he⟩ : ∃ serials, ((refineMembers (E.parts comp)).mapM fun r =>
      (E.compView p.state k noDigest noDigest).pieces (E.memberItems r)) = some serials :=
    exists_mapM (h.member_pieces hk hs hH hno)
  have hl := mapM_length he
  have hp : ∀ s ∈ serials, ∀ q ∈ s, (∃ bs, q = .raw bs) ∨ ∃ v ∈ comp, q = .member v := by
    intro s hm q hq
    obtain ⟨r, -, hr⟩ := exists_of_mem_mapM he hm
    rcases mem_pieces hr q hq with hq | ⟨v, rfl, hv⟩
    · exact .inl hq
    · exact .inr ⟨v, (h.inComp hk _ _ _ v).mp hv, rfl⟩
  obtain ⟨base, ha⟩ : ∃ base, serials.mapM (render (E.placeholder (refineMembers (E.parts comp)))) = some base := by
    refine exists_mapM fun s hm => exists_render fun q hq => ?_
    rcases hp s hm q hq with hq | ⟨v, hv, rfl⟩
    · exact .inl hq
    · obtain ⟨pos, ho, -⟩ := h.exists_memberOf hlt hv
      exact .inr ⟨v, _, rfl, by rw [Env.placeholder, ho]; rfl⟩
  have hb : ∀ s ∈ serials, ∀ v ∈ members s, v ∈ comp := by
    intro s hm v hv
    obtain ⟨q, hq, hv⟩ := mem_filterMap.mp hv
    rcases hp s hm q hq with ⟨bs, rfl⟩ | ⟨w, hw, rfl⟩
    · cases hv
    · cases hv
      exact hw
  obtain ⟨refs, hf⟩ : ∃ refs, (serials.mapM fun s => (members s).mapM (E.memberOf (refineMembers (E.parts comp)))) =
      some refs := by
    refine exists_mapM fun s hm => exists_mapM fun v hv => ?_
    obtain ⟨pos, ho, -⟩ := h.exists_memberOf hlt (hb s hm v hv)
    exact ⟨pos, ho⟩
  have hn : refs.length = (refineMembers (E.parts comp)).length := (mapM_length hf).trans hl
  have hbl : base.length = (refineMembers (E.parts comp)).length := (mapM_length ha).trans hl
  have hg : ∀ rs ∈ refs, ∀ r ∈ rs, r < refs.length := by
    intro rs hrs r hr
    obtain ⟨s, hm, hs⟩ := exists_of_mem_mapM hf hrs
    obtain ⟨v, hv, ho⟩ := exists_of_mem_mapM hs hr
    obtain ⟨pos, ho', ht⟩ := h.exists_memberOf hlt (hb s hm v hv)
    cases ho.symm.trans ho'
    exact hn ▸ ht
  obtain ⟨refined, hi, hcl⟩ := @exists_refineColours base refs p.budget (hbl.trans hn.symm) hg
  rw [hashMembers, h.types_nil hlt, h.apps_nil hlt]
  simp only [intraDigests, foldlM_nil, Option.pure_def, bind_eq_bind, bind_some, he, ha, hf, hi]
  rcases refined with e | ⟨colours, rounds, work⟩
  · exact ⟨_, rfl, fun p' hp' => by cases hp'⟩
  · have hc := (hcl colours rounds work rfl).trans hbl
    obtain ⟨hash, hh⟩ := h.exists_componentHash hlt hc hl hp
    dsimp only
    rw [hh]
    refine ⟨_, rfl, fun p' hp' => ?_⟩
    cases hp'
    exact h.named_withMembers hc

include hk hs hH in
theorem hashMembers_eq_none (hno : PatternOutside m E k) : E.hashMembers k comp p = none := by
  obtain ⟨f, func, hf, hw, ho, i, hi, q, hq, hd, hu⟩ := hno
  have hlt := h.comp_lt hk hs
  have hl := lt_of_getElem? hf
  have hm := (h.mem_comp hk).mpr ho
  rw [eq_none_iff_forall_ne_some]
  intro r hr
  rw [hashMembers, h.types_nil hlt, h.apps_nil hlt] at hr
  simp only [intraDigests, foldlM_nil, Option.pure_def, bind_eq_bind, bind_some, bind_eq_some_iff] at hr
  obtain ⟨serials, he, -⟩ := hr
  obtain ⟨kind, hn, hkm⟩ : ∃ kind : Kind, kind ≠ .cls ∧ (kind, f) ∈ refineMembers (E.parts comp) := by
    cases hb : isClosureBody m f
    · exact ⟨.func, by simp, by simp [refineMembers, h.mem_memberFuncs, hm, hl, hb]⟩
    · exact ⟨.body, by simp, by simp [refineMembers, h.mem_closureFuncs, hm, hl, hb]⟩
  obtain ⟨ps, -, hps⟩ := mem_mapM he hkm
  have ha := reads_of_pieces hps
  obtain ⟨items, ht⟩ : ∃ items, E.memberItems (kind, f) = items ++ funcItems m f func := by
    cases kind with
    | cls => exact absurd rfl hn
    | func | body => exact ⟨_, by simp only [memberItems, h.module, hf]; rfl⟩
  rw [ht, every_append] at ha
  obtain ⟨ps', hps'⟩ := (names_funcItems.mp ha.2 i hi).2.1 q hq
  have hin := h.inComp hk p.state noDigest noDigest ((Space.of m).funcNode q)
  rw [h.mem_comp hk] at hin
  rw [funcIdent] at hps'
  split_ifs at hps' with hc
  · simp only [compView, finalView, h.space] at hc hin
    exact hu (hin.mp hc)
  · simp [compView, finalView, hH.unhashed q hd] at hps'

include hk hH in
theorem final_ident {f j : ℕ} (hN : Named m comp p.state state)
    (hf : f < m.funcs.length) (hj : E.compOf ((Space.of m).funcNode f) = some j) (hle : j ≤ k)
    (hb : isClosureBody m f = false) : (state.funcHash f).isSome := by
  by_cases hjk : j = k
  · subst hjk
    exact hN.funcs f hf ((h.mem_comp hk).mpr hj) hb
  · exact hN.keptFuncs f (hH.funcs f j hj (by omega) hf hb)

include hk hH in
theorem walkable (hN : Named m comp p.state p'.state) (hno : ¬PatternInBody m E k) :
    Env.Walkable E p'.state (E.parts comp).closureFuncs (· ∈ (E.parts comp).closureFuncs) := by
  have hm : ∀ f func, m.funcs[f]? = some func → E.makes f = some ((Func.instrs func).flatMap instrMakes) := by
    intro f func hf
    rw [Env.makes, h.module, hf]
    rfl
  refine ⟨fun f hf => ?_, fun f t hf ht => ?_, fun f b hf hw => ?_⟩
  all_goals obtain ⟨hme, hlt, hb⟩ := h.mem_closureFuncs.mp hf
  all_goals have he := getElem?_eq_getElem hlt
  all_goals have hn := h.func_names hk he (isClosureBody_own hb) hme
  · exact ⟨_, hm f _ he⟩
  · obtain ⟨ts, hts, htm, hcb, hfi⟩ := ht
    cases (hm f _ he).symm.trans hts
    obtain ⟨i, hi, htm⟩ := mem_flatMap.mp htm
    obtain ⟨htl, j, hj, hc⟩ := hn i hi t (.inr (.inr htm))
    rw [h.built.closureBody] at hcb
    refine h.mem_closureFuncs.mpr ⟨(h.mem_comp hk).mpr ?_, htl, hcb⟩
    by_cases hjk : j = k
    · exact hjk ▸ hc
    · have := hH.bodies t j hc (by omega) htl hcb
      rw [hN.bodies] at hfi
      simp [hfi] at this
  · have hu : ∀ g, (p'.state.funcHash g).isSome → ∃ ps, ({ E.finalView p'.state with
        bodyIntra := b.done, onPath := b.visiting, closureList := (E.parts comp).closureFuncs } : Resolver).funcIdent g =
        some ps := by
      intro g hg
      obtain ⟨d, hd⟩ := isSome_iff_exists.mp hg
      exact ⟨_, by simp only [funcIdent, Resolver.inComp, finalView, hd]; rfl⟩
    have hr : Ready bundle m { E.finalView p'.state with
        bodyIntra := b.done, onPath := b.visiting, closureList := (E.parts comp).closureFuncs } := by
      refine ⟨h.module, h.bundle, fun t ht => ?_, fun a ha => ?_⟩
      · obtain ⟨d, hd⟩ := hH.types t ht
        exact ⟨d, by simpa [Resolver.typeDigest, Resolver.inComp, finalView, hN.types] using hd⟩
      · obtain ⟨d, hd⟩ := hH.apps a ha
        exact ⟨d, by simpa [Resolver.appDigest, Resolver.inComp, finalView, hN.apps] using hd⟩
    have hp : ∃ ps, ({ E.finalView p'.state with
        bodyIntra := b.done, onPath := b.visiting, closureList := (E.parts comp).closureFuncs } : Resolver).pieces
        (funcItems m f m.funcs[f]) = some ps := by
      refine hr.pieces (h.sound.funcs f _ he) h.interfaces
        (names_funcItems.mpr fun i hi => ⟨fun g hg => ?_, fun g hg => ?_, fun g hg => ?_⟩)
      · obtain ⟨hl, j, hj, hc⟩ := hn i hi g (.inl hg)
        exact hu g (h.final_ident hk hH hN hl hc hj
          (not_closureBody_of_called (calls_called he (isClosureBody_own hb) hi hg)))
      · obtain ⟨hl, j, hj, hc⟩ := hn i hi g (.inr (.inl hg))
        refine hu g (h.final_ident hk hH hN hl hc hj ?_)
        by_contra hba
        rw [Bool.not_eq_false] at hba
        exact hno ⟨f, _, he, hb, (h.mem_comp hk).mp hme, i, hi, g, hg, hba⟩
      · obtain ⟨hl, j, hj, hc⟩ := hn i hi g (.inr (.inr hg))
        rw [closureIdent]
        split_ifs with hcb hh
        · exact ⟨_, rfl⟩
        · have hbd : ∃ d, (b.done g).or (p'.state.bodyFinal g) = some d := by
            cases hfi : p'.state.bodyFinal g with
            | some d => cases b.done g <;> exact ⟨_, rfl⟩
            | none =>
              have := (hw g ⟨_, hm f _ he, mem_flatMap.mpr ⟨i, hi, hg⟩, hcb.1, hfi⟩).resolve_right hh
              obtain ⟨d, hd⟩ := isSome_iff_exists.mp this
              exact ⟨d, by simp [hd]⟩
          obtain ⟨d, hd⟩ := hbd
          exact ⟨_, by simp only [bodyDigest, finalView, hd]; rfl⟩
        · refine hu g (h.final_ident hk hH hN hl hc hj ?_)
          simpa [finalView, h.built.closureBody, Resolver.inComp] using hcb
    obtain ⟨ps, hps⟩ := hp
    obtain ⟨bs, hbs⟩ := exists_plain rfl hps
    simp [bodyDigestOf, h.module, he, hbs]

include hk hs hH in
theorem exists_finishMembers (hN : Named m comp p.state p'.state) (hno : ¬PatternInBody m E k) :
    ∃ p'', E.finishMembers comp p' = some p'' ∧ Hashed m E (k + 1) p''.state := by
  have hlt := h.comp_lt hk hs
  obtain ⟨done, hd⟩ := exists_closureBodyDigests (h.walkable hk hH hN hno) fun f hf => hf
  refine ⟨{ p' with state := { p'.state with bodyFinal := fun f => (done f).or (p'.state.bodyFinal f) } }, ?_, ?_⟩
  · rw [finishMembers, h.types_nil hlt, h.apps_nil hlt]
    simp only [foldlM_nil, Option.pure_def, bind_eq_bind, bind_some, hd]
  · refine ⟨fun t ht => hN.types ▸ hH.types t ht, fun a ha => hN.apps ▸ hH.apps a ha,
      fun f hf => hN.keptFuncs f (hH.externFuncs f hf), fun c hc => hN.keptClasses c (hH.externClasses c hc),
      fun f j hj hlt' hf hb => ?_, fun c j hj hlt' hc => ?_,
      fun f j hj hlt' hf hb => ?_, fun f hb => (hN.unhashed f hb).trans (hH.unhashed f hb)⟩
    · have := h.final_ident hk hH hN hf hj (by omega) hb
      exact this
    · by_cases hjk : j = k
      · subst hjk
        exact hN.classes c hc ((h.mem_comp hk).mpr hj)
      · exact hN.keptClasses c (hH.classes c j hj (by omega) hc)
    · simp only [isSome_or, Bool.or_eq_true]
      by_cases hjk : j = k
      · subst hjk
        exact .inl (closureBodyDigests_done hd f (h.mem_closureFuncs.mpr ⟨(h.mem_comp hk).mpr hj, hf, hb⟩)).1
      · exact .inr (hN.bodies ▸ hH.bodies f j hj (by omega) hf hb)

include hk hs hH in
theorem finishMembers_eq_none (hN : Named m comp p.state p'.state) (hno : PatternInBody m E k) :
    E.finishMembers comp p' = none := by
  obtain ⟨f, func, hf, hb, hc, i, hi, q, hq, hqb⟩ := hno
  have hlt := h.comp_lt hk hs
  rw [eq_none_iff_forall_ne_some]
  intro r hr
  rw [finishMembers, h.types_nil hlt, h.apps_nil hlt] at hr
  simp only [foldlM_nil, Option.pure_def, bind_eq_bind, bind_some, bind_eq_some_iff] at hr
  obtain ⟨done, ho, -⟩ := hr
  have hm := h.mem_closureFuncs.mpr ⟨(h.mem_comp hk).mpr hc, lt_of_getElem? hf, hb⟩
  obtain ⟨-, b, d, hd⟩ := closureBodyDigests_done ho f hm
  simp only [bodyDigestOf, h.module, hf, bind_eq_bind, bind_some, bind_eq_some_iff, Resolver.plain] at hd
  obtain ⟨bs, ⟨ps, hps, -⟩, -⟩ := hd
  obtain ⟨ps', hps'⟩ := (names_funcItems.mp (reads_of_pieces hps) i hi).2.1 q hq
  have hn : p'.state.funcHash q = none := (hN.unhashed q hqb).trans (hH.unhashed q hqb)
  simp [funcIdent, Resolver.inComp, finalView, hn] at hps'

theorem skipped_cases (hk : comps[k]? = some comp) (hs : E.skips comp = true) :
    (∀ c < m.classes.length, E.compOf c = some k → externClasses m c = true) ∧
      ∀ f < m.funcs.length, E.compOf ((Space.of m).funcNode f) = some k → externFuncs m f = true := by
  simp only [Env.skips, Bool.or_eq_true, List.all_eq_true, decide_eq_true_eq, h.space, Space.of] at hs
  simp only [← h.mem_comp hk, Space.funcNode, Space.of]
  rcases hs with hs | hs
  · refine ⟨fun c hc hv => ?_, fun f hf hv => ?_⟩
    all_goals
      have := hs _ hv
      omega
  · rcases comp with - | ⟨w, - | ⟨w', rest⟩⟩
    · cases hs
    · simp only [Bool.or_eq_true, Bool.and_eq_true, decide_eq_true_eq, h.built.externClass, h.built.externFunc] at hs
      simp only [mem_singleton]
      refine ⟨?_, ?_⟩
      · rintro c hc rfl
        exact hs.elim (·.2) fun hs => absurd hs.1.1 (not_le.mpr hc)
      · rintro f hf rfl
        rcases hs with hs | hs
        · exact absurd hs.1 (by omega)
        · simpa using hs.2
    · cases hs

theorem hashed_skip (hk : comps[k]? = some comp) (hs : E.skips comp = true) (hH : Hashed m E k state) :
    Hashed m E (k + 1) state := by
  obtain ⟨hcl, hfu⟩ := h.skipped_cases hk hs
  refine ⟨hH.types, hH.apps, hH.externFuncs, hH.externClasses, fun f j hj hlt hf hb => ?_, fun c j hj hlt hc => ?_,
    fun f j hj hlt hf hb => ?_, hH.unhashed⟩
  all_goals obtain hlt | rfl := Nat.lt_succ_iff_lt_or_eq.mp hlt
  · exact hH.funcs f j hj hlt hf hb
  · exact hH.externFuncs f (hfu f hf hj)
  · exact hH.classes c j hj hlt hc
  · exact hH.externClasses c (hcl c hc hj)
  · exact hH.bodies f j hj hlt hf hb
  · cases (isClosureBody_own hb).symm.trans (hfu f hf hj)

end Setting

end LoomV4.Identity
