import LoomV4.Boundary.Sound

namespace LoomV4.Boundary

open Abi Bytecode Closed Lib Graph List

namespace Graph

section Writes

variable (G : Graph) (A : ObjRef → Option Ty) (J : Goal → Prop)

inductive Writes (S : Ty) : Object → Object → Prop
  | list {items items' : List Value} {epoch epoch' : UInt32} {e : Ty} (hS : S = .mk .list [e])
      (h : ∀ x ∈ items', x ∈ items ∨ J (x, e)) : Writes S (.list items epoch) (.list items' epoch')
  | map {entries entries' : List MapEntry} {index index' : MapIndex} {k w : Ty} (hS : S = .mk .map [k, w])
      (h : ∀ n ∈ entries', n.isLive → n ∈ entries ∨ J (n.key, k) ∧ J (n.value, w)) :
      Writes S (.map entries index) (.map entries' index')
  | inst {c : Index} {fields fields' : List Value} {env : UInt32} {layout : BcClass} {args : List Ty}
      (hS : S = instTy c args) (hl : G.module.classes[c.toNat]? = some layout)
      (hlen : fields'.length = fields.length)
      (h : ∀ p ∈ fields'.zip (layout.fields.map Prod.snd), p.1 ≠ .uninit →
        p ∈ fields.zip (layout.fields.map Prod.snd) ∨ ∃ U, G.module.Closes ⟨args, []⟩ p.2 U ∧ J (p.1, U)) :
      Writes S (.inst c fields env) (.inst c fields' env)

def Written (heap : Heap) : Prop :=
  ∃ r S o o', A r = some S ∧ G.Shows r o ∧ { G with heap }.Shows r o' ∧ G.Writes J S o o' ∧
    ∀ r', r' ≠ r → heap.textViews.get r' = G.heap.textViews.get r' ∧ heap.tryGet r' = G.heap.tryGet r'

end Writes

variable {G : Graph} {A : ObjRef → Option Ty} {J : Goal → Prop}

variable {o o' : Object} {S : Ty}

theorem Writes.held (h : G.Writes J S o o') (ho : G.Held J S o) : G.Held J S o' := by
  cases h with
  | list hS h =>
    obtain ⟨e, hS', hx⟩ := ho
    cases hS.symm.trans hS'
    exact ⟨_, hS, fun x he => (h x he).elim (hx x) id⟩
  | map hS h =>
    obtain ⟨k, w, hS', hn⟩ := ho
    cases hS.symm.trans hS'
    exact ⟨_, _, hS, fun n he hl => (h n he hl).elim (fun hm => hn n hm hl) id⟩
  | inst hS hl hle h =>
    obtain ⟨layout, args, hl', hS', ⟨hle', hf⟩, hr⟩ := ho
    cases hl.symm.trans hl'
    obtain rfl := (instTy_inj (hS.symm.trans hS')).2
    exact ⟨_, _, hl, hS, ⟨hle.trans hle', fun p hp hv => (h p hp hv).elim (fun hm => hf p hm hv) id⟩, hr⟩

theorem Writes.kindOf (h : G.Writes J S o o') : kindOf o' = kindOf o := by
  cases h <;> rfl

variable {heap : Heap} {r : ObjRef}

theorem objectHas_heap {T : Ty} {o : Object} : { G with heap }.ObjectHas A J T r o ↔ G.ObjectHas A J T r o := by
  cases o <;> rfl

theorem Writes.has {S T : Ty} (h : G.Writes J S o o') (ho : G.ObjectHas A J T r o) : G.ObjectHas A J T r o' := by
  cases h <;> exact ho

theorem Typed.written (h : G.Typed A J) (hw : G.Written A J heap) : { G with heap }.Typed A J := by
  obtain ⟨r, S, o, o', hA, ho, ho', hwr, hs⟩ := hw
  have shows : ∀ r' x, r' ≠ r → G.Shows r' x → { G with heap }.Shows r' x := by
    intro r' x hne hx
    obtain ⟨ht, hg⟩ := hs r' hne
    exact ⟨ht.trans hx.1, hg.trans hx.2⟩
  refine ⟨fun v T hJ => ?_, fun r' S' hA' => ?_⟩
  · have hv := h.value v T hJ
    unfold Judged at hv ⊢
    dsimp only at hv ⊢
    split at hv
    · exact hv
    · exact hv
    · exact hv
    · obtain ⟨r', rfl, ⟨hc, hk⟩ | ⟨x, hx, hk, hj⟩⟩ := hv
      · have hne : r' ≠ r := by
          rintro rfl
          exact ho.not_compact hc
        refine ⟨r', rfl, .inl ⟨?_, hk⟩⟩
        unfold Compact at hc ⊢
        rw [(hs r' hne).1]
        exact hc
      · by_cases hne : r' = r
        · subst hne
          obtain rfl := hx.unique ho
          exact ⟨r', rfl, .inr ⟨o', ho', hwr.kindOf ▸ hk, objectHas_heap.mpr (hwr.has hj)⟩⟩
        · exact ⟨r', rfl, .inr ⟨x, shows r' x hne hx, hk, objectHas_heap.mpr hj⟩⟩
  · obtain ⟨x, hx, hh⟩ := h.held r' S' hA'
    by_cases hne : r' = r
    · subst hne
      obtain rfl := hx.unique ho
      cases hA.symm.trans hA'
      exact ⟨o', ho', hwr.held hh⟩
    · exact ⟨x, shows r' x hne hx, hh⟩

end Graph

section Settled

variable (C : BoundaryContext) (E : TypeEnvs) (v : Value) (replyTy : Index) (envId : UInt32)

def Answers (out : Except FaultCode Unit) : Prop :=
  ∃ E', (C.checkBoundaryValue v replyTy envId).on E = some (out, E')

def Expected (T : Ty) : Prop := ∃ held, E.envs[envId.toNat]? = some held ∧ C.module.Closes held replyTy T

/-- A value that is accepted has a consistent typing exactly when no two paths disagree about an object, and well-typed
writes keep every typing it has. A value that is rejected has none, unless a table was full. -/
structure Settled : Prop where
  accepted : Answers C E v replyTy envId (.ok ()) → ∃ T, Expected C E replyTy envId T ∧
    ((C.graph E).Consistent (v, T) ↔ ¬ (C.graph E).Conflict (v, T)) ∧
    ∀ A J, (C.graph E).Typed A J → J (v, T) → ∀ heap,
      Relation.ReflTransGen (fun heap heap' => { C with heap }.graph E |>.Written A J heap') C.heap heap →
      ({ C with heap }.graph E).Typed A J
  rejected : Stocked C E → Answers C E v replyTy envId (.error .typeMismatch) → ∀ T, Expected C E replyTy envId T →
    ¬ (C.graph E).Consistent (v, T)

variable {C E v replyTy envId}

theorem typed_writes {A : ObjRef → Option Ty} {J : Goal → Prop} (h : (C.graph E).Typed A J) {heap : Heap}
    (hw : Relation.ReflTransGen (fun heap heap' => { C with heap }.graph E |>.Written A J heap')
      C.heap heap) : ({ C with heap }.graph E).Typed A J := by
  induction hw with
  | refl => exact h
  | tail _ hw ih => exact ih.written hw

variable {out : Except FaultCode Unit}

theorem exists_held (h : Answers C E v replyTy envId out)
    (hne : out ≠ .error .malformedState) : ∃ held, E.envs[envId.toNat]? = some held := by
  obtain ⟨E', h⟩ := h
  by_contra hno
  have hn : E.envs[envId.toNat]? = none := by
    cases hh : E.envs[envId.toNat]? with
    | none => rfl
    | some held => exact absurd ⟨held, hh⟩ hno
  unfold BoundaryContext.checkBoundaryValue at h
  split at h
  · cases h
    exact hne rfl
  · rw [Exec.on_bind, BoundaryContext.env, Exec.on_read, hn] at h
    cases h
    exact hne rfl

theorem tests_of_answers (hM : Verified C.module) (htab : FormedTables C.module E) (hn : Named (C.graph E))
    (hv : NamedValue E v) (h : Answers C E v replyTy envId out) (hne : out ≠ .error .malformedState) :
    ∃ held, E.envs[envId.toNat]? = some held ∧ Tests C E
      (fun _ => ∃ T, C.module.Closes held replyTy T ∧ ¬ (C.graph E).Misfit (v, T))
      (∃ T, C.module.Closes held replyTy T ∧ ¬ (C.graph E).Misfit (v, T)) out := by
  obtain ⟨held, hh⟩ := exists_held h hne
  obtain ⟨E', h⟩ := h
  exact ⟨held, hh, (runs_checkBoundaryValue hM htab hn hv hh E .refl out E' h).2⟩

theorem Expected.unique {T U : Ty} (h : Expected C E replyTy envId T) (h' : Expected C E replyTy envId U) :
    T = U := by
  obtain ⟨held, hh, hT⟩ := h
  obtain ⟨held', hh', hU⟩ := h'
  cases hh.symm.trans hh'
  exact hT.unique hU

end Settled

def intTy : Ty := .mk .int []

def boolTy : Ty := .mk .bool []

def listOf (e : Ty) : Ty := .mk .list [e]

section Shelf

/-- A list `[7]`, an instance of `Shelf` with the field 8, and the pair of both. -/
def shelfHeap : Heap :=
  { capBytes := 4096
    live := 3
    objects :=
      { cells := [⟨1, some ⟨Heap.headerOf (.list [.int 7] 0), .list [.int 7] 0⟩⟩,
          ⟨1, some ⟨Heap.headerOf (.inst 1 [.int 8] 0), .inst 1 [.int 8] 0⟩⟩,
          ⟨1, some ⟨Heap.headerOf (.tuple [.obj ⟨0, 1⟩, .obj ⟨1, 1⟩]), .tuple [.obj ⟨0, 1⟩, .obj ⟨1, 1⟩]⟩⟩]
        generations := [1, 1, 1]
        slots := 3 } }

def holder (typeParams : UInt32) (parent : Index) (parentArgs : List Index) (field : Index) : BcClass where
  name := .empty
  key := .empty
  typeParams := typeParams
  parent := parent
  parentArgs := parentArgs
  fields := [(.empty, field)]
  methods := []
  isFinal := false
  isFrozen := false
  kind := .normal
  fieldDefaults := [false]
  ownStart := 0
  hasInit := false

/-- The classes `Box[T]` and `Shelf`, which inherits `Box[Int]`, and the types `Int`, `Bool`, `List[Int]`, `Box[Int]`,
`(List[Int], Box[Int])`, `List[Bool]` and `T`. -/
def shelfContext : BoundaryContext where
  module := ⟨[.int, .bool, .list 0, .inst 0 [0], .tuple [2, 3], .list 1, .var 0],
    [holder 1 noIndex [] 6, holder 0 0 [0] 0], [], [], fun _ => noIndex, fun _ => []⟩
  heap := shelfHeap
  fuel := 8

def shelfEnvs : TypeEnvs := ⟨[intTy], [⟨[], []⟩], 64, 64⟩

theorem shelf_class {c : ℕ} {entry : BcClass} (h : shelfContext.module.classes[c]? = some entry) :
    entry = holder 1 noIndex [] 6 ∨ entry = holder 0 0 [0] 0 := by
  have hm := mem_of_getElem? h
  simpa [shelfContext] using hm

theorem shelf_verified : Verified shelfContext.module := by
  refine ⟨?_, ?_, ?_, ?_, ?_, ?_⟩
  · intro c entry he hk
    rcases shelf_class he with rfl | rfl <;> cases hk
  · intro c entry he hk
    rcases shelf_class he with rfl | rfl <;> cases hk
  · intro c entry he _ hp
    rcases shelf_class he with rfl | rfl
    · exact absurd rfl hp
    · rfl
  · intro c entry he _ hp
    rcases shelf_class he with rfl | rfl
    · exact absurd rfl hp
    · exact ⟨holder 1 noIndex [] 6, rfl, rfl⟩
  · intro i c hi
    have hm := mem_of_getElem? hi
    simp [shelfContext] at hm
  · intro i c args hi entry he
    have hm := mem_of_getElem? hi
    simp only [shelfContext, mem_cons, reduceCtorEq, BcType.inst.injEq, false_or, or_false, not_mem_nil] at hm
    obtain ⟨rfl, rfl⟩ := hm
    obtain rfl := Option.some.inj he
    rfl

theorem shelf_formed : FormedTables shelfContext.module shelfEnvs := by
  refine ⟨fun t ht => ?_, fun env he => ?_⟩
  · obtain rfl := mem_singleton.mp ht
    refine .mk (fun c args h => ?_) fun t ht => ?_
    · cases h
    · cases ht
  · obtain rfl := mem_singleton.mp he
    intro t ht
    cases ht

theorem shelf_stocked : Stocked shelfContext shelfEnvs := by
  intro entry he ty hty
  obtain ⟨i, hi⟩ := getElem?_of_mem he
  rcases shelf_class hi with rfl | rfl
  · cases hty
  · obtain rfl := mem_singleton.mp hty
    exact ⟨intTy, shelfEnvs, rfl, .refl⟩

theorem shelf_shows {r : ObjRef} {o : Object} (h : (shelfContext.graph shelfEnvs).Shows r o) :
    r = ⟨0, 1⟩ ∧ o = .list [.int 7] 0 ∨ r = ⟨1, 1⟩ ∧ o = .inst 1 [.int 8] 0 ∨
      r = ⟨2, 1⟩ ∧ o = .tuple [.obj ⟨0, 1⟩, .obj ⟨1, 1⟩] := by
  obtain ⟨e, hc, rfl⟩ := h.cell
  obtain ⟨slot, generation⟩ := r
  rcases slot with - | - | - | slot
  · cases hc
    exact .inl ⟨rfl, rfl⟩
  · cases hc
    exact .inr (.inl ⟨rfl, rfl⟩)
  · cases hc
    exact .inr (.inr ⟨rfl, rfl⟩)
  · cases hc

theorem shelf_named : Named (shelfContext.graph shelfEnvs) := by
  intro r o h
  rcases shelf_shows h with ⟨-, rfl⟩ | ⟨-, rfl⟩ | ⟨-, rfl⟩
  · intro x hx ty arm hv
    obtain rfl := mem_singleton.mp hx
    cases hv
  · intro x hx ty arm hv
    obtain rfl := mem_singleton.mp hx
    cases hv
  · intro x hx ty arm hv
    simp only [mem_cons, not_mem_nil, or_false] at hx
    rcases hx with rfl | rfl <;> cases hv

def boxTy : Ty := .mk (.inst 0) [intTy]

theorem shelf_expected : Expected shelfContext shelfEnvs 4 0 (.mk .tuple [listOf intTy, boxTy]) :=
  ⟨⟨[], []⟩, rfl, 8, shelfEnvs, _, rfl⟩

theorem not_asks_int {G : Graph} {x : Value} {g : Goal} : ¬ G.Asks (x, intTy) g := by
  unfold intTy
  intro h
  cases h with
  | payload hT _ => cases hT
  | elem hT _ _ _ => cases hT
  | key hT _ _ _ _ => cases hT
  | value hT _ _ _ _ => cases hT
  | field hT _ _ _ _ _ => cases hT
  | dyn hT _ _ => cases hT

/-- The places that the check of the pair comes to. -/
theorem shelf_reaches {g : Goal}
    (h : (shelfContext.graph shelfEnvs).Reaches (.obj ⟨2, 1⟩, .mk .tuple [listOf intTy, boxTy]) g) :
    g = (.obj ⟨2, 1⟩, .mk .tuple [listOf intTy, boxTy]) ∨ g = (.obj ⟨0, 1⟩, listOf intTy) ∨
      g = (.obj ⟨1, 1⟩, boxTy) ∨ g.2 = intTy := by
  induction h with
  | refl => exact .inl rfl
  | @tail b g _ ha ih =>
    rcases ih with rfl | rfl | rfl | hint
    · cases ha with
      | payload hT _ => cases hT
      | elem hT _ _ _ => cases hT
      | key hT _ _ _ _ => cases hT
      | value hT _ _ _ _ => cases hT
      | item hr hp =>
        rcases shelf_shows hr with ⟨hr, -⟩ | ⟨hr, -⟩ | ⟨-, ho⟩
        · cases hr
        · cases hr
        · cases ho
          simp only [zip_cons_cons, zip_nil_left, mem_cons, not_mem_nil, or_false] at hp
          rcases hp with rfl | rfl
          · exact .inr (.inl rfl)
          · exact .inr (.inr (.inl rfl))
      | field hT _ _ _ _ _ => cases hT
      | dyn hT _ _ => cases hT
    · cases ha with
      | payload hT _ => cases hT
      | elem _ _ he _ =>
        cases he
        exact .inr (.inr (.inr rfl))
      | key hT _ _ _ _ => cases hT
      | value hT _ _ _ _ => cases hT
      | field hT _ _ _ _ _ => cases hT
      | dyn hT _ _ => cases hT
    · cases ha with
      | payload hT _ => cases hT
      | elem hT _ _ _ => cases hT
      | key hT _ _ _ _ => cases hT
      | value hT _ _ _ _ => cases hT
      | field _ hr hi hp _ hU =>
        rcases shelf_shows hr with ⟨hr, -⟩ | ⟨-, ho⟩ | ⟨hr, -⟩
        · cases hr
        · cases ho
          cases hi.found
          obtain rfl := length_eq_zero_iff.mp hi.arity
          obtain rfl := mem_singleton.mp hp
          have hint : shelfContext.module.Closes ⟨[], []⟩ 0 intTy := ⟨1, shelfEnvs, shelfEnvs, rfl⟩
          exact .inr (.inr (.inr (hU.unique hint)))
        · cases hr
      | dyn hT _ _ => cases hT
    · obtain ⟨x, T⟩ := b
      obtain rfl : T = intTy := hint
      exact absurd ha not_asks_int

theorem shelf_not_conflict :
    ¬ (shelfContext.graph shelfEnvs).Conflict (.obj ⟨2, 1⟩, .mk .tuple [listOf intTy, boxTy]) := by
  have place : ∀ {r T S}, (shelfContext.graph shelfEnvs).Reaches (.obj ⟨2, 1⟩, .mk .tuple [listOf intTy, boxTy])
      (.obj r, T) → (shelfContext.graph shelfEnvs).Own r T S →
      r = ⟨0, 1⟩ ∧ S = listOf intTy ∨ r = ⟨1, 1⟩ ∧ S = instTy 1 [] := by
    intro r T S hr ho
    rcases shelf_reaches hr with heq | heq | heq | heq
    · cases heq
      cases ho with
      | list hT _ _ => cases hT
      | map hT _ _ _ => cases hT
      | inst hT _ _ => cases hT
    · cases heq
      cases ho with
      | list _ _ he =>
        cases he
        exact .inl ⟨rfl, rfl⟩
      | map hT _ _ _ => cases hT
      | inst hT _ _ => cases hT
    · cases heq
      cases ho with
      | list hT _ _ => cases hT
      | map hT _ _ _ => cases hT
      | inst _ hs hi =>
        rcases shelf_shows hs with ⟨hr, -⟩ | ⟨-, ho⟩ | ⟨hr, -⟩
        · cases hr
        · cases ho
          cases hi.found
          obtain rfl := length_eq_zero_iff.mp hi.arity
          exact .inr ⟨rfl, rfl⟩
        · cases hr
    · obtain rfl : T = intTy := heq
      cases ho with
      | list hT _ _ => cases hT
      | map hT _ _ _ => cases hT
      | inst hT _ _ => cases hT
  rintro (⟨r, U, U', S, S', hr, hr', ho, ho', hne⟩ | ⟨r, U, c, fields, env, layout, args, -, hs, -, hi, hg, -⟩)
  · rcases place hr ho with ⟨rfl, rfl⟩ | ⟨rfl, rfl⟩ <;> rcases place hr' ho' with ⟨hr, rfl⟩ | ⟨hr, rfl⟩
    · exact hne rfl
    · cases hr
    · cases hr
    · exact hne rfl
  · rcases shelf_shows hs with ⟨-, ho⟩ | ⟨-, ho⟩ | ⟨-, ho⟩
    · cases ho
    · cases ho
      cases hi.found
      exact hg rfl
    · cases ho

end Shelf

section Aliased

def aliasedHeap : Heap :=
  { capBytes := 4096
    live := 2
    objects :=
      { cells := [⟨1, some ⟨Heap.headerOf (.list [] 0), .list [] 0⟩⟩,
          ⟨1, some ⟨Heap.headerOf (.tuple [.obj ⟨0, 1⟩, .obj ⟨0, 1⟩]), .tuple [.obj ⟨0, 1⟩, .obj ⟨0, 1⟩]⟩⟩]
        generations := [1, 1]
        slots := 2 } }

/-- The types `Int`, `Bool`, `List[Int]`, `List[Bool]` and `(List[Int], List[Bool])`. -/
def aliasedContext : BoundaryContext where
  module := ⟨[.int, .bool, .list 0, .list 1, .tuple [2, 3]], [], [], [], fun _ => noIndex, fun _ => []⟩
  heap := aliasedHeap
  fuel := 8

def aliasedEnvs : TypeEnvs := ⟨[], [⟨[], []⟩], 64, 64⟩

theorem aliased_verified : Verified aliasedContext.module := by
  refine ⟨nofun, nofun, nofun, nofun, ?_, ?_⟩
  · intro i c _ entry he
    cases he
  · intro i c args _ entry he
    cases he

theorem aliased_formed : FormedTables aliasedContext.module aliasedEnvs := by
  refine ⟨fun t ht => (by cases ht), fun env he => ?_⟩
  obtain rfl := mem_singleton.mp he
  intro t ht
  cases ht

theorem aliased_list : (aliasedContext.graph aliasedEnvs).Shows ⟨0, 1⟩ (.list [] 0) := ⟨rfl, rfl⟩

theorem aliased_tuple :
    (aliasedContext.graph aliasedEnvs).Shows ⟨1, 1⟩ (.tuple [.obj ⟨0, 1⟩, .obj ⟨0, 1⟩]) := ⟨rfl, rfl⟩

theorem aliased_named : Named (aliasedContext.graph aliasedEnvs) := by
  intro r o h
  obtain ⟨e, hc, rfl⟩ := h.cell
  have hm := mem_of_getElem? hc
  simp only [BoundaryContext.graph, aliasedContext, aliasedHeap, mem_cons, Cell.mk.injEq,
    Option.some.injEq, not_mem_nil, or_false] at hm
  obtain ⟨-, rfl⟩ | ⟨-, rfl⟩ := hm
  · intro x hx
    cases hx
  · intro x hx
    simp only [mem_cons, not_mem_nil, or_false, or_self] at hx
    subst hx
    intro ty arm hv
    cases hv

end Aliased

end LoomV4.Boundary
