import LoomV4.Boundary.Check
import LoomV4.Closed.Laws
import Mathlib.Logic.Relation

namespace LoomV4.Boundary

open Abi Bytecode Closed Lib Option

structure Graph where
  module : NamespaceRuntime
  heap : Heap
  envs : TypeEnvs

/-- What the verifier asks of the parents of classes and of the types that name classes. -/
structure Verified (M : NamespaceRuntime) : Prop where
  abstract : ∀ (c : ℕ) entry, M.classes[c]? = some entry → entry.kind = .abstract →
    entry.parent = noIndex
  case : ∀ (c : ℕ) entry, M.classes[c]? = some entry → entry.kind = .case → entry.parentArgs = [] ∧
    ∃ parent, M.classes[entry.parent.toNat]? = some parent ∧ parent.kind = .abstract ∧
      parent.typeParams = entry.typeParams
  normal : ∀ (c : ℕ) entry, M.classes[c]? = some entry → entry.kind = .normal →
    entry.parent ≠ noIndex → entry.typeParams = 0
  parent_arity : ∀ (c : ℕ) entry, M.classes[c]? = some entry → entry.kind = .normal → entry.parent ≠ noIndex →
    ∃ parent, M.classes[entry.parent.toNat]? = some parent ∧ entry.parentArgs.length = parent.typeParams.toNat
  class_arity : ∀ (i : ℕ) (c : Index), M.types[i]? = some (.class c) → ∀ entry, M.classes[c.toNat]? = some entry →
    0 = entry.typeParams.toNat
  inst_arity : ∀ (i : ℕ) (c : Index) args, M.types[i]? = some (.inst c args) → ∀ entry, M.classes[c.toNat]? = some entry →
    args.length = entry.typeParams.toNat

inductive Sub (M : NamespaceRuntime) : Ty → Ty → Prop
  | refl (t : Ty) : Sub M t t
  | nominal {f e : Ty} {c parent : Index} {args expectedArgs : List Ty} (hf : asInstance f = some (c, args))
      (he : asInstance e = some (parent, expectedArgs)) (h : M.Ancestor c args parent expectedArgs) :
      Sub M f e
  | structural {f e : Ty} {pairs : List (Ty × Ty)} (h : structuralStep f e = some pairs)
      (hp : ∀ p ∈ pairs, Sub M p.1 p.2) : Sub M f e

def instTy (c : Index) (args : List Ty) : Ty :=
  if args = [] then .mk (.class c) [] else .mk (.inst c) args

structure InstanceAt (M : NamespaceRuntime) (c : Index) (T : Ty) (layout : BcClass) (args : List Ty) : Prop where
  found : M.classes[c.toNat]? = some layout
  arity : args.length = layout.typeParams.toNat
  ancestor : ∃ want wantArgs, asInstance T = some (want, wantArgs) ∧
    M.Ancestor c args want wantArgs

variable {M : NamespaceRuntime}

theorem ancestor_generic (hM : Verified M) {c want : Index} {layout : BcClass}
    {args result : List Ty} (hl : M.classes[c.toNat]? = some layout) (hg : layout.typeParams ≠ 0)
    (h : M.Ancestor c args want result) : result = args := by
  obtain ⟨fuel, E, E', h⟩ := h
  obtain ⟨-, h⟩ | ⟨n, entry, args', E1, -, he, hp, hr, h⟩ := NamespaceRuntime.ancestorFrom_ok h
  · exact h
  · obtain rfl := mem_unique hl he
    cases hi : layout.kind with
    | normal => exact absurd (hM.normal _ layout hl hi hp) hg
    | abstract => exact absurd (hM.abstract _ layout hl hi) hp
    | case =>
      obtain ⟨hn, parent, ha, hk, hm⟩ := hM.case _ layout hl hi
      have hr' : args' = args := by
        simp only [NamespaceRuntime.parentArgs, hn, ha, ne_eq, not_true_eq_false, if_false,
          any_some, hm, hg, decide_false, Bool.false_eq_true] at hr
        cases hr
        rfl
      obtain ⟨-, h⟩ | ⟨_, entry, _, _, -, he', hp', -, -⟩ := NamespaceRuntime.ancestorFrom_ok h
      · rw [h, hr']
      · obtain rfl := mem_unique ha he'
        exact absurd (hM.abstract _ parent ha hk) hp'

theorem InstanceAt.unique (hM : Verified M) {c : Index} {T : Ty} {layout layout' : BcClass}
    {args args' : List Ty} (h : InstanceAt M c T layout args) (h' : InstanceAt M c T layout' args') :
    layout = layout' ∧ args = args' := by
  obtain ⟨hl, he, want, wantArgs, hT, ha⟩ := h
  obtain ⟨hl', he', want', wantArgs', hT', ha'⟩ := h'
  obtain rfl := mem_unique hl hl'
  obtain ⟨rfl, rfl⟩ := Prod.mk.inj (mem_unique hT hT')
  refine ⟨rfl, ?_⟩
  by_cases hg : layout.typeParams = 0
  · rw [hg] at he he'
    rw [List.length_eq_zero_iff.mp he, List.length_eq_zero_iff.mp he']
  · rw [← ancestor_generic hM hl hg ha, ← ancestor_generic hM hl hg ha']

namespace Graph

variable (G : Graph)

def Compact (r : ObjRef) : Prop := (G.heap.textViews.get r).isSome

def Shows (r : ObjRef) (o : Object) : Prop := G.heap.textViews.get r = none ∧ G.heap.tryGet r = some o

def NoneOf (v : Value) (T : Ty) : Prop :=
  ∃ ty c args, v = .emptyCase ty 1 ∧ T = .mk (.inst c) args ∧
    G.envs.types[ty.toNat]? = some (.mk (.inst (G.module.coreRoles roleOption)) args)

def Callable (func envId : UInt32) (T : Ty) : Prop :=
  ∃ code held params result, G.module.funcs[func.toNat]? = some code ∧
    G.envs.envs[envId.toNat]? = some held ∧ held.types.length = code.typeParams.toNat ∧
    held.rows.length = code.effectParams.toNat ∧
    List.Forall₂ (G.module.Closes held) code.params params ∧ G.module.Closes held code.ret result ∧
    Sub G.module (.mk (.fn code.paramMuts (G.module.closeRow code.row held)) (params ++ [result])) T

/-- Every field that has a value has one that `N` allows at the type of the field. -/
def FieldsTyped (N : Goal → Prop) (args : List Ty) (fields : List Value) (layout : BcClass) : Prop :=
  fields.length = layout.fields.length ∧
    ∀ p ∈ fields.zip (layout.fields.map Prod.snd), p.1 ≠ .uninit →
      ∃ U, G.module.Closes ⟨args, []⟩ p.2 U ∧ N (p.1, U)

/-- The value passes the check at the type, but for the objects that `judge` decides about. -/
def Judged (judge : ObjRef → Object → Prop) (N : Goal → Prop) (v : Value) (T : Ty) : Prop :=
  match resolve G.module T with
  | .scalar tag => scalarFits v tag
  | .callback => ∃ r, v = .callback r
  | .option payload case => G.NoneOf v T ∧ case ≠ some true ∨
      ¬ G.NoneOf v T ∧ case ≠ some false ∧ N (v, payload)
  | .heap kind => ∃ r, v = .obj r ∧ (G.Compact r ∧ (kind = .text ∨ kind = .substring) ∨
      ∃ o, G.Shows r o ∧ kindFits (kindOf o) kind ∧ judge r o)

def ObjectPasses (N : Goal → Prop) (T : Ty) : Object → Prop
  | .list items _ => ∃ e, childOf G.module T 0 = .ok e ∧ ∀ x ∈ items, N (x, e)
  | .map entries _ => ∃ k w, childOf G.module T 0 = .ok k ∧ childOf G.module T 1 = .ok w ∧
      ∀ n ∈ entries, n.isLive → N (n.key, k) ∧ N (n.value, w)
  | .inst c fields _ => ∃ layout args, InstanceAt G.module c T layout args ∧ G.FieldsTyped N args fields layout
  | .tuple items => ∃ elems, T = .mk .tuple elems ∧ items.length = elems.length ∧
      ∀ p ∈ items.zip elems, N p
  | .closure func _ envId => G.Callable func envId T
  | .dynValue value ty => ∃ t, G.envs.types[ty.toNat]? = some t ∧ N (value, t)
  | _ => True

def Passes (N : Goal → Prop) (g : Goal) : Prop :=
  G.Judged (fun _ o => G.ObjectPasses N g.2 o) N g.1 g.2

section Assignment

variable (A : ObjRef → Option Ty) (J : Goal → Prop)

/-- A list, map or instance has its assigned type wherever it is expected. -/
def ObjectHas (T : Ty) (r : ObjRef) : Object → Prop
  | .list _ _ => ∃ e, A r = some (.mk .list [e]) ∧ childOf G.module T 0 = .ok e
  | .map _ _ => ∃ k w, A r = some (.mk .map [k, w]) ∧ childOf G.module T 0 = .ok k ∧
      childOf G.module T 1 = .ok w
  | .inst c _ _ => ∃ layout args, A r = some (instTy c args) ∧ InstanceAt G.module c T layout args
  | o => G.ObjectPasses J T o

def Held (S : Ty) : Object → Prop
  | .list items _ => ∃ e, S = .mk .list [e] ∧ ∀ x ∈ items, J (x, e)
  | .map entries _ => ∃ k w, S = .mk .map [k, w] ∧
      ∀ n ∈ entries, n.isLive → J (n.key, k) ∧ J (n.value, w)
  | .inst c fields env => ∃ layout args, G.module.classes[c.toNat]? = some layout ∧ S = instTy c args ∧
      G.FieldsTyped J args fields layout ∧
      (layout.typeParams ≠ 0 → G.envs.envs[env.toNat]? = some ⟨args, []⟩)
  | _ => False

/-- One type for each list, map and instance, under which the values of `J` have their types. -/
structure Typed : Prop where
  value : ∀ v T, J (v, T) → G.Judged (G.ObjectHas A J T) J v T
  held : ∀ r S, A r = some S → ∃ o, G.Shows r o ∧ G.Held J S o

end Assignment

def Consistent (g : Goal) : Prop := ∃ A J, G.Typed A J ∧ J g

/-- The value is next on a path from the other, at the type the path gives it. -/
inductive Asks : Goal → Goal → Prop
  | payload {v : Value} {T payload : Ty} {case : Option Bool} (h : resolve G.module T = .option payload case)
      (hv : ¬ G.NoneOf v T) : Asks (v, T) (v, payload)
  | elem {r : ObjRef} {T e : Ty} {items : List Value} {epoch : UInt32} {x : Value}
      (h : resolve G.module T = .heap .list) (hr : G.Shows r (.list items epoch))
      (he : childOf G.module T 0 = .ok e) (hx : x ∈ items) : Asks (.obj r, T) (x, e)
  | key {r : ObjRef} {T k : Ty} {entries : List MapEntry} {index : MapIndex} {n : MapEntry}
      (h : resolve G.module T = .heap .map) (hr : G.Shows r (.map entries index))
      (hk : childOf G.module T 0 = .ok k) (hn : n ∈ entries) (hl : n.isLive) : Asks (.obj r, T) (n.key, k)
  | value {r : ObjRef} {T w : Ty} {entries : List MapEntry} {index : MapIndex} {n : MapEntry}
      (h : resolve G.module T = .heap .map) (hr : G.Shows r (.map entries index))
      (hw : childOf G.module T 1 = .ok w) (hn : n ∈ entries) (hl : n.isLive) :
      Asks (.obj r, T) (n.value, w)
  | item {r : ObjRef} {items : List Value} {elems : List Ty} {p : Goal}
      (hr : G.Shows r (.tuple items)) (hp : p ∈ items.zip elems) : Asks (.obj r, .mk .tuple elems) p
  | field {r : ObjRef} {T U : Ty} {c : Index} {fields : List Value} {env : UInt32} {layout : BcClass}
      {args : List Ty} {p : Value × Index} (h : resolve G.module T = .heap .inst)
      (hr : G.Shows r (.inst c fields env)) (ha : InstanceAt G.module c T layout args)
      (hp : p ∈ fields.zip (layout.fields.map Prod.snd)) (hv : p.1 ≠ .uninit)
      (hU : G.module.Closes ⟨args, []⟩ p.2 U) : Asks (.obj r, T) (p.1, U)
  | dyn {r : ObjRef} {T t : Ty} {value : Value} {ty : UInt32} (h : resolve G.module T = .heap .dynValue)
      (hr : G.Shows r (.dynValue value ty)) (ht : G.envs.types[ty.toNat]? = some t) :
      Asks (.obj r, T) (value, t)

def Reaches (g g' : Goal) : Prop := Relation.ReflTransGen G.Asks g g'

/-- The type that a list, map or instance is expected to have of its own, where it is found. -/
inductive Own : ObjRef → Ty → Ty → Prop
  | list {r : ObjRef} {T e : Ty} {items : List Value} {epoch : UInt32}
      (h : resolve G.module T = .heap .list) (hr : G.Shows r (.list items epoch))
      (he : childOf G.module T 0 = .ok e) : Own r T (.mk .list [e])
  | map {r : ObjRef} {T k w : Ty} {entries : List MapEntry} {index : MapIndex}
      (h : resolve G.module T = .heap .map) (hr : G.Shows r (.map entries index))
      (hk : childOf G.module T 0 = .ok k) (hw : childOf G.module T 1 = .ok w) : Own r T (.mk .map [k, w])
  | inst {r : ObjRef} {T : Ty} {c : Index} {fields : List Value} {env : UInt32} {layout : BcClass}
      {args : List Ty} (h : resolve G.module T = .heap .inst)
      (hr : G.Shows r (.inst c fields env)) (ha : InstanceAt G.module c T layout args) : Own r T (instTy c args)

/-- Some value on a path from here fails its own test. -/
def Misfit (g : Goal) : Prop := ∃ g', G.Reaches g g' ∧ ∀ N, ¬ G.Passes N g'

/-- Two paths from here find a list, map or instance at different types of its own, or a generic
instance is found at other arguments than it was made with. -/
def Conflict (g : Goal) : Prop :=
  (∃ r T T' S S', G.Reaches g (.obj r, T) ∧ G.Reaches g (.obj r, T') ∧ G.Own r T S ∧ G.Own r T' S' ∧
    S ≠ S') ∨
  ∃ r T c fields env layout args, G.Reaches g (.obj r, T) ∧ G.Shows r (.inst c fields env) ∧
    resolve G.module T = .heap .inst ∧ InstanceAt G.module c T layout args ∧ layout.typeParams ≠ 0 ∧
    G.envs.envs[env.toNat]? ≠ some ⟨args, []⟩

variable {G}

theorem Shows.unique {r : ObjRef} {o o' : Object} (h : G.Shows r o) (h' : G.Shows r o') : o = o' :=
  mem_unique h.2 h'.2

theorem Shows.not_compact {r : ObjRef} {o : Object} (h : G.Shows r o) : ¬ G.Compact r := by
  simp [Compact, h.1]

section Judged

variable {judge judge' : ObjRef → Object → Prop} {N N' : Goal → Prop} {v : Value} {T : Ty}

theorem judged_heap {kind : Kind} (h : resolve G.module T = .heap kind) :
    G.Judged judge N v T ↔ ∃ r, v = .obj r ∧ (G.Compact r ∧ (kind = .text ∨ kind = .substring) ∨
      ∃ o, G.Shows r o ∧ kindFits (kindOf o) kind ∧ judge r o) := by
  simp only [Judged, h]

theorem judged_option {payload : Ty} {case : Option Bool} (h : resolve G.module T = .option payload case) :
    G.Judged judge N v T ↔ G.NoneOf v T ∧ case ≠ some true ∨ ¬ G.NoneOf v T ∧ case ≠ some false ∧ N (v, payload) := by
  simp only [Judged, h]

theorem Judged.object {kind : Kind} {r : ObjRef} {o : Object} (h : G.Judged judge N (.obj r) T)
    (hk : resolve G.module T = .heap kind) (ho : G.Shows r o) : judge r o := by
  obtain ⟨r', hr, hc | ⟨o', ho', _, hj⟩⟩ := (judged_heap hk).mp h
  · cases hr
    exact absurd hc.1 ho.not_compact
  · cases hr
    exact ho.unique ho' ▸ hj

theorem Judged.imp (h : G.Judged judge N v T)
    (hN : ∀ payload case, resolve G.module T = .option payload case → ¬ G.NoneOf v T → N (v, payload) →
      N' (v, payload))
    (hj : ∀ kind r o, resolve G.module T = .heap kind → v = .obj r → G.Shows r o →
      kindFits (kindOf o) kind → judge r o → judge' r o) : G.Judged judge' N' v T := by
  unfold Judged at h ⊢
  split at h <;> rename_i hT
  · exact h
  · exact h
  · obtain h | ⟨hn, hc, hp⟩ := h
    · exact .inl h
    · exact .inr ⟨hn, hc, hN _ _ hT hn hp⟩
  · obtain ⟨r, rfl, hc | ⟨o, ho, hk, hjo⟩⟩ := h
    · exact ⟨r, rfl, .inl hc⟩
    · exact ⟨r, rfl, .inr ⟨o, ho, hk, hj _ r o hT rfl ho hk hjo⟩⟩

end Judged

theorem asInstance_instTy (c : Index) (args : List Ty) : asInstance (instTy c args) = some (c, args) := by
  unfold instTy
  split_ifs with h
  · rw [h]
    rfl
  · rfl

theorem instTy_inj {c c' : Index} {args args' : List Ty} (h : instTy c args = instTy c' args') :
    c = c' ∧ args = args' := by
  have := congrArg asInstance h
  rw [asInstance_instTy, asInstance_instTy] at this
  exact Prod.mk.inj (some.inj this)

section Kinds

variable {kind : Kind}

theorem eq_list (h : kindFits .list kind) : kind = .list := by
  cases kind <;> first | rfl | cases h

theorem eq_map (h : kindFits .map kind) : kind = .map := by
  cases kind <;> first | rfl | cases h

theorem eq_instance (h : kindFits .inst kind) : kind = .inst := by
  cases kind <;> first | rfl | cases h

theorem eq_dynValue (h : kindFits .dynValue kind) : kind = .dynValue := by
  cases kind <;> first | rfl | cases h

end Kinds

theorem Passes.asks (hM : Verified G.module) {N : Goal → Prop} {g g' : Goal} (h : G.Passes N g)
    (ha : G.Asks g g') : N g' := by
  cases ha with
  | payload hT hv =>
    obtain ⟨hn, -⟩ | ⟨-, -, hN⟩ := (judged_option hT).mp h
    · exact absurd hn hv
    · exact hN
  | elem hT hr he hx =>
    obtain ⟨e', he', hN⟩ := h.object hT hr
    cases he.symm.trans he'
    exact hN _ hx
  | key hT hr hk hn hl =>
    obtain ⟨k', w', hk', -, hN⟩ := h.object hT hr
    cases hk.symm.trans hk'
    exact (hN _ hn hl).1
  | value hT hr hw hn hl =>
    obtain ⟨k', w', -, hw', hN⟩ := h.object hT hr
    cases hw.symm.trans hw'
    exact (hN _ hn hl).2
  | item hr hp =>
    obtain ⟨elems', he, -, hN⟩ := h.object rfl hr
    cases he
    exact hN _ hp
  | field hT hr hi hp hv hU =>
    obtain ⟨layout', args', hi', -, hN⟩ := h.object hT hr
    obtain ⟨rfl, rfl⟩ := hi.unique hM hi'
    obtain ⟨U', hU', hN⟩ := hN _ hp hv
    rwa [hU.unique hU']
  | dyn hT hr ht =>
    obtain ⟨t', ht', hN⟩ := h.object hT hr
    cases ht.symm.trans ht'
    exact hN

theorem Passes.of_asks {N N' : Goal → Prop} {g : Goal} (h : G.Passes N g)
    (hN : ∀ g', G.Asks g g' → N' g') : G.Passes N' g := by
  refine Judged.imp h (fun payload case hT hv _ => hN _ (.payload hT hv)) ?_
  intro kind r o hT hr ho hk hj
  obtain ⟨v, T⟩ := g
  dsimp only at hr
  subst hr
  cases o with
  | list items epoch =>
    obtain rfl := eq_list hk
    obtain ⟨e, he, -⟩ := hj
    exact ⟨e, he, fun x hx => hN _ (.elem hT ho he hx)⟩
  | map entries index =>
    obtain rfl := eq_map hk
    obtain ⟨k, w, hk, hw, -⟩ := hj
    exact ⟨k, w, hk, hw, fun n hn hl => ⟨hN _ (.key hT ho hk hn hl), hN _ (.value hT ho hw hn hl)⟩⟩
  | inst c fields env =>
    obtain rfl := eq_instance hk
    obtain ⟨layout, args, hi, hle, hf⟩ := hj
    refine ⟨layout, args, hi, hle, fun p hp hv => ?_⟩
    obtain ⟨U, hU, -⟩ := hf p hp hv
    exact ⟨U, hU, hN _ (.field hT ho hi hp hv hU)⟩
  | tuple items =>
    obtain ⟨elems, rfl, hle, -⟩ := hj
    exact ⟨elems, rfl, hle, fun p hp => hN _ (.item ho hp)⟩
  | dynValue value ty =>
    obtain rfl := eq_dynValue hk
    obtain ⟨t, ht, -⟩ := hj
    exact ⟨t, ht, hN _ (.dyn hT ho ht)⟩
  | _ => exact hj

theorem reaches_mem (hM : Verified G.module) {N : Goal → Prop} (hN : ∀ g, N g → G.Passes N g)
    {g g' : Goal} (hg : N g) (h : G.Reaches g g') : N g' := by
  induction h with
  | refl => exact hg
  | tail _ ha ih => exact (hN _ ih).asks hM ha

theorem passes_reaches {g g' : Goal} (h : ¬ G.Misfit g) (hr : G.Reaches g g') : G.Passes (G.Reaches g) g' := by
  obtain ⟨N, hN⟩ : ∃ N, G.Passes N g' := by
    by_contra hno
    exact h ⟨g', hr, fun N hN => hno ⟨N, hN⟩⟩
  exact hN.of_asks fun g'' ha => hr.tail ha

section Typed

variable {A : ObjRef → Option Ty} {J : Goal → Prop}

theorem Typed.passes (h : G.Typed A J) {g : Goal} (hg : J g) : G.Passes J g := by
  refine Judged.imp (h.value g.1 g.2 hg) (fun _ _ _ _ hp => hp) ?_
  intro kind r o _ _ ho _ hj
  cases o with
  | list items epoch =>
    obtain ⟨e, hA, he⟩ := hj
    obtain ⟨o, ho', hh⟩ := h.held r _ hA
    obtain rfl := ho.unique ho'
    obtain ⟨e', heq, hx⟩ := hh
    cases heq
    exact ⟨e, he, hx⟩
  | map entries index =>
    obtain ⟨k, w, hA, hk, hw⟩ := hj
    obtain ⟨o, ho', hh⟩ := h.held r _ hA
    obtain rfl := ho.unique ho'
    obtain ⟨k', w', heq, hn⟩ := hh
    cases heq
    exact ⟨k, w, hk, hw, hn⟩
  | inst c fields env =>
    obtain ⟨layout, args, hA, hi⟩ := hj
    obtain ⟨o, ho', hh⟩ := h.held r _ hA
    obtain rfl := ho.unique ho'
    obtain ⟨layout', args', hl, heq, hf, -⟩ := hh
    obtain rfl := (instTy_inj heq).2
    obtain rfl := mem_unique hi.found hl
    exact ⟨layout, args, hi, hf⟩
  | _ => exact hj

theorem Typed.own (hM : Verified G.module) (h : G.Typed A J) {r : ObjRef} {T S : Ty}
    (hg : J (.obj r, T)) (ho : G.Own r T S) : A r = some S := by
  cases ho with
  | list hT hr he =>
    obtain ⟨e', hA, he'⟩ := (h.value _ _ hg).object hT hr
    cases he.symm.trans he'
    exact hA
  | map hT hr hk hw =>
    obtain ⟨k', w', hA, hk', hw'⟩ := (h.value _ _ hg).object hT hr
    cases hk.symm.trans hk'
    cases hw.symm.trans hw'
    exact hA
  | inst hT hr hi =>
    obtain ⟨layout', args', hA, hi'⟩ := (h.value _ _ hg).object hT hr
    rw [(hi.unique hM hi').2]
    exact hA

theorem Typed.not_conflict (hM : Verified G.module) (h : G.Typed A J) {g : Goal} (hg : J g) : ¬ G.Conflict g := by
  have reached : ∀ g', G.Reaches g g' → J g' := fun g' => reaches_mem hM (fun _ => h.passes) hg
  rintro (⟨r, T, T', S, S', hr, hr', ho, ho', hne⟩ |
    ⟨r, T, c, fields, env, layout, args, hr, ho, hT, hi, hg, he⟩)
  · have hS := h.own hM (reached _ hr) ho
    have hS' := h.own hM (reached _ hr') ho'
    exact hne (mem_unique hS hS')
  · have hA := h.own hM (reached _ hr) (.inst hT ho hi)
    obtain ⟨o, ho', hh⟩ := h.held r _ hA
    obtain rfl := ho.unique ho'
    obtain ⟨layout', args', hl, heq, -, hc⟩ := hh
    obtain rfl := (instTy_inj heq).2
    obtain rfl := mem_unique hi.found hl
    exact he (hc hg)

end Typed

section Assign

open Classical in
noncomputable def assign (G : Graph) (g : Goal) (r : ObjRef) : Option Ty :=
  if h : ∃ S T, G.Reaches g (.obj r, T) ∧ G.Own r T S then some h.choose else none

variable {g : Goal} {r : ObjRef} {T S : Ty}

theorem exists_of_assign (h : G.assign g r = some S) : ∃ T, G.Reaches g (.obj r, T) ∧ G.Own r T S := by
  unfold assign at h
  split_ifs at h with hex
  obtain rfl := some.inj h
  exact hex.choose_spec

theorem assign_eq (hc : ¬ G.Conflict g) (hr : G.Reaches g (.obj r, T)) (ho : G.Own r T S) :
    G.assign g r = some S := by
  have hex : ∃ S T, G.Reaches g (.obj r, T) ∧ G.Own r T S := ⟨S, T, hr, ho⟩
  have h : G.assign g r = some hex.choose := dif_pos hex
  obtain ⟨T', hr', ho'⟩ := hex.choose_spec
  rw [h]
  by_contra hne
  exact hc (.inl ⟨r, T, T', S, _, hr, hr', ho, ho', fun heq => hne (congrArg some heq.symm)⟩)

theorem typed_assign (hM : Verified G.module) (hm : ¬ G.Misfit g) (hc : ¬ G.Conflict g) :
    G.Typed (G.assign g) (G.Reaches g) where
  value v T hJ := by
    refine Judged.imp (passes_reaches hm hJ) (fun _ _ _ _ hp => hp) ?_
    intro kind r o hT hv ho hk hj
    subst hv
    cases o with
    | list items epoch =>
      obtain rfl := eq_list hk
      obtain ⟨e, he, -⟩ := hj
      exact ⟨e, assign_eq hc hJ (.list hT ho he), he⟩
    | map entries index =>
      obtain rfl := eq_map hk
      obtain ⟨k, w, hk, hw, -⟩ := hj
      exact ⟨k, w, assign_eq hc hJ (.map hT ho hk hw), hk, hw⟩
    | inst c fields env =>
      obtain rfl := eq_instance hk
      obtain ⟨layout, args, hi, -⟩ := hj
      exact ⟨layout, args, assign_eq hc hJ (.inst hT ho hi), hi⟩
    | _ => exact hj
  held r S hA := by
    obtain ⟨T, hr, ho⟩ := exists_of_assign hA
    have hp := passes_reaches hm hr
    cases ho with
    | list hT hs he =>
      obtain ⟨e', he', hx⟩ := hp.object hT hs
      cases he.symm.trans he'
      exact ⟨_, hs, _, rfl, hx⟩
    | map hT hs hk hw =>
      obtain ⟨k', w', hk', hw', hn⟩ := hp.object hT hs
      cases hk.symm.trans hk'
      cases hw.symm.trans hw'
      exact ⟨_, hs, _, _, rfl, hn⟩
    | inst hT hs hi =>
      obtain ⟨layout', args', hi', hf⟩ := hp.object hT hs
      obtain ⟨rfl, rfl⟩ := hi.unique hM hi'
      refine ⟨_, hs, _, _, hi.found, rfl, hf, fun hg => ?_⟩
      by_contra hne
      exact hc (.inr ⟨r, T, _, _, _, _, _, hr, hs, hT, hi, hg, hne⟩)

end Assign

theorem consistent_iff (hM : Verified G.module) (g : Goal) : G.Consistent g ↔ ¬ G.Misfit g ∧ ¬ G.Conflict g := by
  constructor
  · rintro ⟨A, J, h, hg⟩
    refine ⟨?_, h.not_conflict hM hg⟩
    rintro ⟨g', hr, hno⟩
    exact hno J (h.passes (reaches_mem hM (fun _ => h.passes) hg hr))
  · rintro ⟨hm, hc⟩
    exact ⟨_, _, typed_assign hM hm hc, .refl⟩

end Graph

end LoomV4.Boundary
