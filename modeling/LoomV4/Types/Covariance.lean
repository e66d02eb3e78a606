import LoomV4.Types.Coincide

namespace LoomV4.Types

open List Option Context

namespace TypeStore

variable (S : TypeStore)

inductive Asked : Context.Memo → Prop
  | nil : Asked []
  | query {memo : Context.Memo} (expected found : ℕ) (h : Asked memo) :
      Asked (S.compatible expected found memo).2

def loweredSubtype (V : Ctx) (found expected : ℕ) : Option Bool :=
  let lowered : (ℕ × ℕ) × Table := (do return (← S.bcTy found, ← S.bcTy expected)) V.types
  { V with types := lowered.2 }.isSubtype lowered.1.1 lowered.1.2

/-- The checker and the verifier decide one relation, which is the specified one. -/
structure Specified : Prop where
  coincide : ∀ V, S.LowersTo V → ∀ memo, S.Asked memo → ∀ t u, S.NeverFree t → S.NeverFree u →
    ((S.compatible u t memo).1 = true ↔ S.loweredSubtype V t u = some true)
  refl : ∀ memo, S.Asked memo → ∀ t, (S.compatible t t memo).1 = true
  trans : ∀ memo, S.Asked memo → ∀ t u v, (S.compatible u t memo).1 = true →
    (S.compatible v u memo).1 = true → (S.compatible v t memo).1 = true
  covariant : ∀ memo, S.Asked memo → ∀ (t u : ℕ) xs ys, S.types[t]? = some (.tuple xs) →
    S.types[u]? = some (.tuple ys) →
    List.Forall₂ (fun x y => (S.compatible y x memo).1 = true) xs ys →
    (S.compatible u t memo).1 = true

variable {S}

variable {memo : Context.Memo}

theorem Formed.holds_of_asked (hS : S.Formed) (h : S.Asked memo) :
    Context.Holds S.context memo := by
  induction h with
  | nil => nofun
  | query expected found _ ih => exact (decides_compatible hS.context _ _ _ ih).2

theorem Formed.compatible_iff (hS : S.Formed) (h : S.Asked memo) (u t : ℕ) :
    (S.compatible u t memo).1 = true ↔ S.context.Sub t u :=
  (decides_compatible hS.context u t memo (hS.holds_of_asked h)).1

theorem NeverFree.lt_length {t : ℕ} (h : S.NeverFree t) : t < S.types.length := by
  obtain ⟨hs, -, -⟩ := h
  exact Lib.lt_of_getElem? hs

theorem Formed.loweredSubtype_iff (hS : S.Formed) {V : Ctx} (hV : S.LowersTo V) {t u : ℕ}
    (ht : S.NeverFree t) (hu : S.NeverFree u) : S.loweredSubtype V t u = some true ↔ S.context.Sub t u := by
  obtain ⟨hp, hn, hi⟩ := hS.grows_bcTy ht.lt_length V.types hV.types
  obtain ⟨hp', hn', hj⟩ := hS.grows_bcTy hu.lt_length _ hn
  have hV' := hV.grow (hp.trans hp') hn'
  obtain ⟨b, hb, hs⟩ := isSubtype_spec (hS.context_lowered hV') (fun _ => nofun)
    (S.bcTy t V.types).1 (S.bcTy u (S.bcTy t V.types).2).1
  have hr : S.loweredSubtype V t u = some b := hb
  rw [hr, Option.some.injEq, hs]
  exact ⟨fun h => hS.sub_of_lowered hV' h (hi.mono hp') hj, fun h => hS.sub_lowered hV' h ht hu (hi.mono hp') hj⟩

theorem rowElemIncluded_op {n : ℕ} {sup : List RowElem} : S.rowElemIncluded (.op n) sup ↔
    ∃ name m name', S.rowNames[n]? = some name ∧ RowElem.op m ∈ sup ∧ S.rowNames[m]? = some name' ∧
      S.bundle.rowNameIncluded name name' := by
  simp only [rowElemIncluded]
  split
  · rename_i hn
    simp [hn]
  · rename_i name hn
    rw [List.any_eq_true]
    constructor
    · rintro ⟨e, he, h⟩
      cases e with
      | var v => cases h
      | op m =>
        cases hm : S.rowNames[m]? with
        | none => simp [hm] at h
        | some name' => exact ⟨name, m, name', hn, he, hm, by simpa [hm] using h⟩
    · rintro ⟨name0, m, name', hn', he, hm, hi⟩
      obtain rfl := mem_unique hn hn'
      exact ⟨.op m, he, by simp [hm, hi]⟩

theorem rowElemIncluded_trans {e : RowElem} {r q : List RowElem}
    (h : S.rowElemIncluded e r) (hr : S.rowIncluded r q) : S.rowElemIncluded e q := by
  rw [rowIncluded, List.all_eq_true] at hr
  cases e with
  | var v =>
    have hv : RowElem.var v ∈ r := by simpa [rowElemIncluded] using h
    exact hr _ hv
  | op n =>
    obtain ⟨name, m, name', hn, hm, ha', hi⟩ := rowElemIncluded_op.mp h
    obtain ⟨_, k, name'', hm', hk, ha'', hi'⟩ := rowElemIncluded_op.mp (hr _ hm)
    obtain rfl := mem_unique ha' hm'
    exact rowElemIncluded_op.mpr ⟨name, k, name'', hn, hk, ha'', Abi.AbiBundle.rowNameIncluded_trans hi hi'⟩

theorem Formed.sub_trans (hS : S.Formed) {t u v : ℕ} (htu : S.context.Sub t u)
    (huv : S.context.Sub u v) : S.context.Sub t v := by
  apply Context.Sub.trans hS.context _ htu huv
  intro r s q hrs hsq
  have hrs : ∀ e ∈ r, S.rowElemIncluded e s := List.all_eq_true.mp hrs
  exact List.all_eq_true.mpr fun e he => rowElemIncluded_trans (hrs e he) hsq

theorem Formed.sub_tuple (hS : S.Formed) (hi : ∀ n, 0 < n → S.pins.tuple n = none) {t u : ℕ}
    {xs ys : List ℕ} (ht : S.types[t]? = some (.tuple xs)) (hu : S.types[u]? = some (.tuple ys))
    (h : List.Forall₂ S.context.Sub xs ys) : S.context.Sub t u := by
  cases h with
  | nil =>
    have hlt := Lib.lt_of_getElem? ht
    rw [(getElem?_inj hlt hS.nodup).mp (ht.trans hu.symm)]
    exact .refl u
  | cons hx hxs =>
    refine .tuple ht hu (by simp [hxs.length_eq]) (hi _ (Nat.succ_pos _)) fun p hp => ?_
    exact (forall₂_iff_zip.mp (.cons hx hxs)).2 hp

theorem Formed.specified (hS : S.Formed) (hp : ∀ n, 0 < n → S.pins.tuple n = none) : S.Specified where
  coincide V hV memo hm t u ht hu := by
    rw [hS.compatible_iff hm, hS.loweredSubtype_iff hV ht hu]
  refl memo hm t := (hS.compatible_iff hm t t).mpr (.refl t)
  trans memo hm t u v := by
    simp only [hS.compatible_iff hm]
    exact hS.sub_trans
  covariant memo hm t u xs ys ht hu := by
    simp only [hS.compatible_iff hm]
    exact hS.sub_tuple hp ht hu

def builtins : List (Shape RowElem) :=
  [.unit, .bool, .int, .string, .never, .fault, .request, .policyTable, .vm, .digest, .vmSnapshot,
    .bytes, .fileHandle, .resourceHandle, .hostResource, .float]

def noNames : AbiBundle := ⟨[], [], [], .replicate 32 0, by decide⟩

def tupled (pins : Pins) (classes : List ClassMeta) (x y : Shape RowElem) (n : ℕ) : TypeStore where
  bundle := noNames
  types := builtins ++ [x] ++ [y] ++ [.tuple (List.replicate n 16)] ++ [.tuple (List.replicate n 17)]
  classes := classes
  rowNames := []
  pins := pins

structure Plain (x : Shape RowElem) : Prop where
  new : x ∉ builtins
  children : ∀ c ∈ x.children, c < 16
  marked : ∀ callback params muts ret row, x.arrow? = some (callback, params, muts, ret, row) →
    muts.length = params.length
  rows : ∀ r ∈ x.rows, r = []
  tuple : ∀ es, x ≠ .tuple es

variable {pins : Pins} {classes : List ClassMeta} {x y : Shape RowElem} {n : ℕ}

theorem interned_builtins : Interned builtins where
  nodup := by decide
  below i s hs c hc := by
    have plain : ∀ s ∈ builtins, s.children = [] := by decide
    simp [plain s (mem_of_getElem? hs)] at hc
  marked i s callback params muts ret row hs ha := by
    have plain : ∀ s ∈ builtins, s.arrow? = none := by decide
    simp [plain s (mem_of_getElem? hs)] at ha

theorem interned_tupled (hx : Plain x) (hy : Plain y) (hne : y ≠ x) (hn : 0 < n) :
    Interned (tupled pins classes x y n).types := by
  have ht : ∀ es, Shape.tuple es ∉ builtins := by simp [builtins]
  have hx' := fun es => (hx.tuple es).symm
  have hy' := fun es => (hy.tuple es).symm
  have h16 : List.replicate n 17 ≠ List.replicate n 16 := by
    simp [replicate_inj]
    omega
  have one := interned_builtins.concat hx.new hx.children hx.marked
  have two := one.concat (by simp [hy.new, hne])
    (fun c hc => Nat.lt_succ_of_lt (hy.children c hc)) hy.marked
  have three := @Interned.concat _ _ two (.tuple (List.replicate n 16)) (by simp [ht, hx', hy'])
    (fun c hc => by simp [eq_of_mem_replicate hc, builtins]) nofun
  exact @Interned.concat _ _ three (.tuple (List.replicate n 17)) (by simp [ht, hx', hy', h16])
    (fun c hc => by simp [eq_of_mem_replicate hc, builtins]) nofun

theorem rows_tupled (hx : Plain x) (hy : Plain y) {t : ℕ} {s : Shape RowElem}
    (hs : (tupled pins classes x y n).types[t]? = some s) : ∀ r ∈ s.rows, r = [] := by
  have plain : ∀ s ∈ builtins, s.rows = [] := by decide
  have hm := mem_of_getElem? hs
  simp only [tupled, mem_append, mem_singleton] at hm
  rcases hm with (((hm | rfl) | rfl) | rfl) | rfl
  · simp [plain s hm]
  · exact hx.rows
  · exact hy.rows
  · nofun
  · nofun

theorem tupled_formed (hc : Acyclic classes) (hx : Plain x) (hy : Plain y) (hne : y ≠ x)
    (hn : 0 < n) : (tupled pins classes x y n).Formed := by
  have h := @interned_tupled pins classes x y n hx hy hne hn
  refine ⟨⟨h.below, h.marked, hc, ?_⟩,
    h.nodup, nodup_nil, fun t s hs r hr => ?_, fun t s hs r hr => ?_⟩
  · intro t ht
    obtain rfl : t = NEVER := eq_of_beq ht
    rfl
  · rw [rows_tupled hx hy hs r hr]
    rfl
  · rw [rows_tupled hx hy hs r hr]
    nofun

theorem eq_of_sub_pinned {S : TypeStore} {t u c : ℕ} {xs ys : List ℕ}
    (ht : S.types[t]? = some (.tuple xs)) (hu : S.types[u]? = some (.tuple ys))
    (hl : xs.length = ys.length) (hp : S.pins.tuple xs.length = some c)
    (hb : ¬ S.context.bottom t) (h : S.context.Sub t u) : xs = ys := by
  have hnt : S.context.nominal t = some (c, xs) := by
    rw [nominal_tuple ht, TypeStore.context, hp, map_some]
  have hnu : S.context.nominal u = some (c, ys) := by
    rw [nominal_tuple hu, TypeStore.context, ← hl, hp, map_some]
  cases h with
  | refl => simpa using mem_unique ht hu
  | bottom h => exact absurd h hb
  | nominal ht' hu' ha =>
    obtain ⟨rfl, rfl⟩ := Prod.mk.inj (mem_unique hnt ht')
    obtain ⟨rfl, rfl⟩ := Prod.mk.inj (mem_unique hnu hu')
    rw [Context.ancestorArgs, ancestorArgsFrom_self] at ha
    exact some.inj ha
  | tuple ht' _ _ hp' _ =>
    obtain rfl : xs = _ := by simpa using mem_unique ht ht'
    cases hp.symm.trans hp'
  | arrow ht' _ hst _ _ _ _ _ _ =>
    rw [nominal_arrow ht' (by simp [hst])] at hnt
    cases hnt

theorem not_specified_tupled (hl : Acyclic classes) (hx : Plain x) (hy : Plain y)
    (hne : y ≠ x) (hn : 0 < n) (hi : pins.tuple n ≠ none) (hs : (tupled pins classes x y n).context.Sub 16 17) :
    ¬ (tupled pins classes x y n).Specified := by
  intro h
  have hS := @tupled_formed pins classes x y n hl hx hy hne hn
  have h16 : (tupled pins classes x y n).types[18]? = some (.tuple (List.replicate n 16)) := rfl
  have h17 : (tupled pins classes x y n).types[19]? = some (.tuple (List.replicate n 17)) := rfl
  have ho := h.covariant [] .nil 18 19 _ _ h16 h17 (by
    refine forall₂_iff_zip.mpr ⟨by simp, fun hp => ?_⟩
    rw [zip_replicate'] at hp
    obtain ⟨rfl, rfl⟩ := Prod.mk.inj (eq_of_mem_replicate hp)
    exact (hS.compatible_iff .nil 17 16).mpr hs)
  obtain ⟨c, hc⟩ := ne_none_iff_exists'.mp hi
  have heq := eq_of_sub_pinned h16 h17 (by simp) (by rw [length_replicate]; exact hc) nofun
    ((hS.compatible_iff .nil 19 18).mp ho)
  simp [replicate_inj] at heq
  omega

/-- The subtype relation is the specified one just where no tuple class is pinned. -/
theorem specified_iff_unpinned (pins : Pins) : (∀ S : TypeStore, S.Formed → S.pins = pins → S.Specified) ↔
      ∀ n, 0 < n → pins.tuple n = none := by
  constructor
  · intro h n hn
    by_contra hpin
    have hsub : (tupled pins [] (.fn [2] [false] 2 []) (.fn [2] [true] 2 []) n).context.Sub 16 17 :=
      .arrow rfl rfl rfl rfl rfl (by simp; exact .refl 2) rfl (.refl 2) rfl
    have hx : ∀ b, Plain (.fn [2] [b] 2 []) := fun b =>
      ⟨by simp [builtins], by simp [Shape.children], by grind [Shape.arrow?], by simp [Shape.rows], by simp⟩
    have hclasses : Acyclic [] := ⟨fun _ => 0, by simp, by simp⟩
    exact not_specified_tupled hclasses (hx false) (hx true) (by simp) hn hpin hsub
      (h _ (tupled_formed hclasses (hx false) (hx true) (by simp) hn) rfl)
  · rintro h S hS rfl
    exact hS.specified h

/-- The names of two effects were interned in the other order than a row lists them in. -/
def effects : TypeStore where
  bundle := ⟨[⟨"Fs", []⟩, ⟨"Io", []⟩], ["Fs.Open", "Io.Print"], [[true, false], [false, true]], .replicate 32 0, by decide⟩
  types := builtins ++ [.fn [] [] 2 [.op 1, .op 0], .fn [] [] 2 [.op 1], .tuple [16, 16], .tuple [17, 17]]
  classes := []
  rowNames := ["Io", "Fs"]
  pins := ⟨none, none, none, none, none, none, none, none, none, []⟩

theorem effects_formed : effects.Formed where
  context :=
    { below := fun t s hs => by
        have hall : ∀ p ∈ effects.types.zipIdx, ∀ c ∈ p.1.children, c < p.2 := by decide
        exact hall (s, t) (mk_mem_zipIdx_iff_getElem?.mpr hs)
      marked := fun t s callback params muts ret row hs ha => by
        have hall : ∀ s ∈ effects.types, ∀ a ∈ s.arrow?, a.2.2.1.length = a.2.1.length := by decide
        exact hall s (mem_of_getElem? hs) _ ha
      acyclic := ⟨fun _ => 0, fun _ => Nat.zero_le _, fun c cls p hc => by cases hc⟩
      bottom := fun t ht => by
        obtain rfl : t = NEVER := eq_of_beq ht
        rfl }
  nodup := by decide
  names := by decide
  canonical := fun t s hs => by
    have hall : ∀ s ∈ effects.types, ∀ r ∈ s.rows, effects.canonicalRow r = r := by decide +kernel
    exact hall s (mem_of_getElem? hs)
  known := fun t s hs => by
    have hall : ∀ s ∈ effects.types, ∀ r ∈ s.rows, ∀ e ∈ r, (effects.bcRowElem e).isSome := by decide +kernel
    exact hall s (mem_of_getElem? hs)

/-- A pair of functions with one effect fits where a pair with both is expected. -/
theorem specified_iff_unpinned_effects : effects.Formed ∧ effects.Specified ∧ (effects.compatible 18 19 []).1 = true := by
  have hs : effects.Specified :=
    (specified_iff_unpinned effects.pins).mpr (fun n _ => rfl) effects effects_formed rfl
  refine ⟨effects_formed, hs, hs.covariant [] .nil 19 18 [17, 17] [16, 16] rfl rfl ?_⟩
  have hone : (effects.compatible 16 17 []).1 = true := by decide +kernel
  exact .cons hone (.cons hone .nil)

/-- `Dog` under `Animal`, with a class for pairs. -/
def pets : TypeStore :=
  tupled ⟨none, none, none, none, none, none, none, none, none, [none, none, some 2]⟩
    [⟨none, [], 0⟩, ⟨some 0, [], 0⟩, ⟨none, [], 2⟩] (.class 1) (.class 0) 2

/-- A dog is an animal, but a pair of dogs is no pair of animals. -/
theorem pair_of_dogs_rejected : pets.Formed ∧ (pets.compatible 17 16 []).1 = true ∧
    (pets.compatible 19 18 []).1 = false := by
  have hx : ∀ c, Plain (.class c) := fun c =>
    ⟨by simp [builtins], by simp [Shape.children], by simp [Shape.arrow?], by simp [Shape.rows], nofun⟩
  refine ⟨tupled_formed ⟨fun c => if c = 1 then 1 else 0, ?_, ?_⟩ (hx 1) (hx 0) (by simp) (by simp),
    by decide, by decide⟩
  · intro c
    dsimp only
    split <;> simp
  · intro c cls p hcls hp
    rcases c with _ | _ | _ | c <;> simp_all
    · cases hcls; cases hp
    · cases hcls; cases hp; decide
    · cases hcls; cases hp

/-- Types that are lowered one after the other go into one table, which only grows. Each keeps its index through the
later ones, and no two share one. -/
theorem lowering_run_injective (hS : S.Formed) {table : Table} (ht : Interned table) {ts : List ℕ}
    (hts : ∀ t ∈ ts, t < S.types.length) :
    let lowered := ts.mapM S.bcTy table
    table <+: lowered.2 ∧ Interned lowered.2 ∧ lowered.1.length = ts.length ∧
      (∀ a ∈ ts.zip lowered.1, S.Lowered lowered.2 a.1 a.2) ∧
      ∀ a ∈ ts.zip lowered.1, ∀ b ∈ ts.zip lowered.1, a.2 = b.2 ↔ a.1 = b.1 := by
  intro lowered
  obtain ⟨hp, hn, hl⟩ := grows_mapM (fun t h => hS.grows_bcTy (hts t h)) table ht
  obtain ⟨he, hl⟩ := forall₂_iff_zip.mp hl
  refine ⟨hp, hn, he.symm, fun a ha => hl ha, fun a ha b hb => ⟨fun hab => ?_, fun hab => ?_⟩⟩
  · exact (hS.lowered_inj (hl ha) (hab ▸ hl hb)).symm
  · exact (hl ha).unique hn.nodup (hab ▸ hl hb)

theorem lowering_run_injective_effects :
    let lowered := [18, 16, 19, 18].mapM effects.bcTy []
    lowered.1 = [2, 1, 4, 2] ∧ Interned lowered.2 ∧
      ∀ a ∈ [18, 16, 19, 18].zip lowered.1, ∀ b ∈ [18, 16, 19, 18].zip lowered.1, a.2 = b.2 ↔ a.1 = b.1 := by
  intro lowered
  obtain ⟨-, hn, -, -, hi⟩ := lowering_run_injective effects_formed ⟨nodup_nil, by simp, by simp⟩
    (by decide : ∀ t ∈ [18, 16, 19, 18], t < effects.types.length)
  exact ⟨by decide +kernel, hn, hi⟩

end TypeStore

end LoomV4.Types
