import LoomV4.World.Literals

/-!
The literal cache of a machine while its code tables grow and while it is restored from snapshots.
-/

namespace LoomV4.Vm

open Abi Lib List Option

namespace LiteralTables

structure Grown (t t' : LiteralTables) : Prop where
  strings : t.strings <+: t'.strings
  bytes : t.bytes <+: t'.bytes

def relocateLiteralIndex (t t' : LiteralTables) (stringMap byteMap : ℕ → Option ℕ) (source : ℕ) : Option ℕ :=
  if source < t.strings.length then stringMap source
  else if source < t.strings.length + t.bytes.length then
    (byteMap (source - t.strings.length)).map (t'.strings.length + ·)
  else if source - (t.strings.length + t.bytes.length) < t.strings.length then
    (stringMap (source - (t.strings.length + t.bytes.length))).map (t'.strings.length + t'.bytes.length + ·)
  else none

structure Relocates (t t' : LiteralTables) (stringMap byteMap : ℕ → Option ℕ) : Prop where
  strings : ∀ i j, stringMap i = some j → t'.strings[j]? = t.strings[i]?
  bytes : ∀ i j, byteMap i = some j → t'.bytes[j]? = t.bytes[i]?

/-- The comparison that admission makes for one cached literal. -/
def holdsPooled (t : LiteralTables) (idx : ℕ) : Object → Bool
  | .str text => decide (t.strings[idx]? = some text.asBytes)
  | .bytes bytes => decide (t.strings.length ≤ idx ∧ idx < t.strings.length + t.bytes.length ∧
      t.bytes[idx - t.strings.length]? = some bytes.asBytes)
  | .nativeRegex regex => decide (t.strings.length + t.bytes.length ≤ idx ∧
      t.strings[idx - (t.strings.length + t.bytes.length)]? = some (patternOf regex))
  | _ => false

theorem holdsPooled_content {t : LiteralTables} {idx : ℕ} {o : Object} (h : t.holdsPooled idx o = true) :
    ∃ lit c, t.cacheIndex lit = idx ∧ t.pooled lit = some c ∧ literalOf o = some c := by
  cases o with
  | str text => exact ⟨.str idx, .str text.asBytes, rfl, by rw [pooled, of_decide_eq_true h]; rfl, rfl⟩
  | bytes bytes =>
    obtain ⟨hle, -, hb⟩ := of_decide_eq_true h
    exact ⟨.bytes (idx - t.strings.length), .bytes bytes.asBytes, Nat.add_sub_cancel' hle, by rw [pooled, hb]; rfl, rfl⟩
  | nativeRegex regex =>
    obtain ⟨hle, hs⟩ := of_decide_eq_true h
    exact ⟨.regex (idx - (t.strings.length + t.bytes.length)), .regex (patternOf regex), Nat.add_sub_cancel' hle,
      by rw [pooled, hs]; rfl, rfl⟩
  | _ => cases h

end LiteralTables

/-- The part of a machine in a snapshot that its literals are in. -/
structure LiteralImage where
  literals : List (Option ℕ)
  objects : List Object

namespace LiteralImage

def admitFrom (t : LiteralTables) (vm : VmId) (objects : List Object) : List (Option ℕ × ℕ) → Except String Unit
  | [] => .ok ()
  | (none, _) :: rest => admitFrom t vm objects rest
  | (some ordinal, idx) :: rest =>
    match objects[ordinal]? with
    | none => .error s!"machine {vm}: literal {idx} names no object"
    | some object =>
      if t.holdsPooled idx object = true then admitFrom t vm objects rest
      else .error s!"machine {vm}: literal {idx} does not hold its pooled value"

def admitLiterals (t : LiteralTables) (vm : VmId) (image : LiteralImage) : Except String Unit :=
  if t.strings.length + t.bytes.length + t.strings.length < image.literals.length then
    .error s!"machine {vm}: the literal table is longer than the module literal pools"
  else admitFrom t vm image.objects image.literals.zipIdx

theorem admitFrom_mem {t : LiteralTables} {vm : VmId} {objects : List Object} {items : List (Option ℕ × ℕ)}
    (h : admitFrom t vm objects items = .ok ()) {ordinal idx : ℕ} (hm : (some ordinal, idx) ∈ items) :
    ∃ object, objects[ordinal]? = some object ∧ t.holdsPooled idx object = true := by
  induction items with
  | nil => cases hm
  | cons item rest ih =>
    obtain ⟨literal, at'⟩ := item
    cases literal with
    | none => exact ih h ((mem_cons.mp hm).resolve_left fun he => by cases he)
    | some first =>
      unfold admitFrom at h
      split at h
      · cases h
      · next object ho =>
        split at h
        · next hp =>
          rcases mem_cons.mp hm with he | hm
          · cases he
            exact ⟨object, ho, hp⟩
          · exact ih h hm
        · cases h

theorem admit_content {t : LiteralTables} {vm : VmId} {image : LiteralImage} (h : image.admitLiterals t vm = .ok ())
    {ordinal idx : ℕ} (hi : image.literals[idx]? = some (some ordinal)) : ∃ object lit c,
      image.objects[ordinal]? = some object ∧ t.cacheIndex lit = idx ∧ t.pooled lit = some c ∧ literalOf object = some c := by
  unfold admitLiterals at h
  split at h
  · cases h
  · obtain ⟨object, ho, hp⟩ := admitFrom_mem h (mem_zipIdx_iff_getElem?.mpr hi)
    obtain ⟨lit, c, hl⟩ := LiteralTables.holdsPooled_content hp
    exact ⟨object, lit, c, ho, hl⟩

end LiteralImage

/-- The tables of the machine's own namespace, and the newest ones, which its loads read. -/
structure LiteralCode where
  own : LiteralTables
  execution : LiteralTables

namespace Machine

variable {m m' : Machine} {t t' : LiteralTables} {k k' : LiteralCode} {refs : ℕ → ObjRef}

def SameCache (m m' : Machine) : Prop :=
  ∀ (i : ℕ) r', m'.vm.literals[i]? = some (.obj r') →
    ∃ r, m.vm.literals[i]? = some (.obj r) ∧ ∀ c, m.Holds r c → m'.Holds r' c

def restoreLiterals (refs : ℕ → ObjRef) (literals : List (Option ℕ)) : List Value :=
  literals.map fun slot =>
    match slot with
    | some ordinal => .obj (refs ordinal)
    | none => .uninit

def relocateLiterals (index : ℕ → Option ℕ) (refs : ℕ → ObjRef) :
    List (Option ℕ × ℕ) → List Value → Option (List Value)
  | [], out => some out
  | (none, _) :: rest, out => relocateLiterals index refs rest out
  | (some ordinal, i) :: rest, out =>
    match index i with
    | none => none
    | some j => relocateLiterals index refs rest
        ((out ++ List.replicate (j + 1 - out.length) Value.uninit).set j (.obj (refs ordinal)))

/-- The restored heap holds the objects of the snapshot. -/
structure Restored (image : LiteralImage) (refs : ℕ → ObjRef) (m : Machine) : Prop where
  formed : m.Formed
  holds : ∀ (i : ℕ) object c, image.objects[i]? = some object → literalOf object = some c → m.Holds (refs i) c

/-- What happens to a machine and its code. A restore takes an image that was admitted under the tables of its own
namespace and lays the cache out by those of the namespace that it goes to; loads read the execution tables. -/
inductive LiteralStep (ok : LiteralTables → LiteralTables → Machine → Prop) :
    LiteralCode × Machine → LiteralCode × Machine → Prop
  | load {k : LiteralCode} {m m' : Machine} {out : Except FaultCode Value} (key : ℕ) (unique room : Bool) (lit : Literal) :
      ok k.execution k.execution m → m.loadLiteral k.execution key unique room lit = some (out, m') →
      LiteralStep ok (k, m) (k, m')
  | guest {k : LiteralCode} {m m' : Machine} : m'.Formed → SameCache m m' → LiteralStep ok (k, m) (k, m')
  | publish {k k' : LiteralCode} {m : Machine} : k.execution.Grown k'.execution → k'.own.Grown k'.execution →
      ok k.execution k'.execution m → LiteralStep ok (k, m) (k', m)
  | restore {k k' : LiteralCode} {m m' : Machine} {image : LiteralImage} {source : LiteralTables} {vm : VmId}
      (refs : ℕ → ObjRef) :
      image.admitLiterals source vm = .ok () → Restored image refs m' → source.Grown k'.execution →
      k'.own.Grown k'.execution → ok source k'.execution m' →
      m'.vm.literals = restoreLiterals refs image.literals → LiteralStep ok (k, m) (k', m')
  | relocate {k k' : LiteralCode} {m m' : Machine} {image : LiteralImage} {source : LiteralTables} {vm : VmId}
      {stringMap byteMap : ℕ → Option ℕ} (refs : ℕ → ObjRef) :
      image.admitLiterals source vm = .ok () → Restored image refs m' → source.Relocates k'.own stringMap byteMap →
      k'.own.Grown k'.execution → ok k'.own k'.execution m' →
      relocateLiterals (source.relocateLiteralIndex k'.own stringMap byteMap) refs image.literals.zipIdx [] =
        some m'.vm.literals → LiteralStep ok (k, m) (k', m')

def LayoutKept (t t' : LiteralTables) (m : Machine) : Prop :=
  ∀ (i : ℕ) r, m.vm.literals[i]? = some (.obj r) → (t.strings.length ≤ i → t'.strings.length = t.strings.length) ∧
    (t.strings.length + t.bytes.length ≤ i → t'.bytes.length = t.bytes.length)

/-- What is cached under the tables is in the same place under those that the next loads read. -/
def InPlace (t t' : LiteralTables) (m : Machine) : Prop := m.vm.heap.Small ∧ LayoutKept t t' m

theorem relocateLiterals_obj {index : ℕ → Option ℕ} {P : ℕ → ObjRef → Prop}
    {items : List (Option ℕ × ℕ)} {out out' : List Value} (h : relocateLiterals index refs items out = some out')
    (ho : ∀ (j : ℕ) r, out[j]? = some (.obj r) → P j r)
    (hi : ∀ ordinal i j, (some ordinal, i) ∈ items → index i = some j → P j (refs ordinal)) :
    ∀ (j : ℕ) r, out'[j]? = some (.obj r) → P j r := by
  induction items generalizing out with
  | nil =>
    cases h
    exact ho
  | cons item rest ih =>
    obtain ⟨slot, i⟩ := item
    have hr : ∀ ordinal i j, (some ordinal, i) ∈ rest → index i = some j → P j (refs ordinal) :=
      fun ordinal i j hm => hi ordinal i j (mem_cons_of_mem _ hm)
    cases slot with
    | none => exact ih h ho hr
    | some ordinal =>
      rw [relocateLiterals] at h
      cases hj : index i with
      | none =>
        rw [hj] at h
        cases h
      | some j =>
        rw [hj] at h
        refine ih h (fun k r' hk => ?_) hr
        rw [getElem?_set] at hk
        split at hk
        · next hjk =>
          split at hk
          · cases hk
            subst hjk
            exact hi ordinal i j mem_cons_self hj
          · cases hk
        · rw [getElem?_append] at hk
          split at hk
          · exact ho k r' hk
          · rw [getElem?_replicate] at hk
            split at hk <;> cases hk

theorem Cached.same (h : Cached t m) (hf : m'.Formed) (hs : SameCache m m') : Cached t m' := by
  refine ⟨hf, fun i r' hi => ?_⟩
  obtain ⟨r, hr, hk⟩ := hs i r' hi
  obtain ⟨lit, c, hn, he, hold⟩ := h.holds i r hr
  exact ⟨lit, c, hn, he, hk c hold⟩

theorem Cached.tables (h : Cached t m) (hg : t.Grown t') (hk : LayoutKept t t' m) : Cached t' m := by
  refine ⟨h.formed, fun i r hi => ?_⟩
  obtain ⟨lit, c, hn, he, hold⟩ := h.holds i r hi
  obtain ⟨hs, hb⟩ := hk i r hi
  have hp : ∀ {l l' : List (List UInt8)} {f : List UInt8 → LiteralContent} {k : ℕ}, l <+: l' →
      l[k]?.map f = some c → l'[k]?.map f = some c := by
    rintro l l' f k ⟨more, rfl⟩ hk
    obtain ⟨x, hx, hc⟩ := map_eq_some_iff.mp hk
    rw [getElem?_append_left (lt_of_getElem? hx), hx]
    exact congrArg some hc
  cases lit with
  | str k => exact ⟨.str k, c, hn, hp hg.strings he, hold⟩
  | bytes k =>
    simp only [LiteralTables.cacheIndex] at hn
    refine ⟨.bytes k, c, ?_, hp hg.bytes he, hold⟩
    rw [LiteralTables.cacheIndex, hs (by omega), hn]
  | regex k =>
    simp only [LiteralTables.cacheIndex] at hn
    refine ⟨.regex k, c, ?_, hp hg.strings he, hold⟩
    rw [LiteralTables.cacheIndex, hs (by omega), hb (by omega), hn]

section Restore

variable {image : LiteralImage} {vm : VmId} (ha : image.admitLiterals t vm = .ok ()) (hr : Restored image refs m)

include ha hr

theorem Restored.cached (hl : m.vm.literals = restoreLiterals refs image.literals) : Cached t m := by
  refine ⟨hr.formed, fun i r hi => ?_⟩
  rw [hl, restoreLiterals, getElem?_map] at hi
  obtain ⟨slot, hs, he⟩ := map_eq_some_iff.mp hi
  cases slot with
  | none => cases he
  | some ordinal =>
    cases he
    obtain ⟨object, lit, c, ho, hn, hc, hco⟩ := LiteralImage.admit_content ha hs
    exact ⟨lit, c, hn, hc, hr.holds ordinal object c ho hco⟩

theorem Restored.relocated {stringMap byteMap : ℕ → Option ℕ} (hre : t.Relocates t' stringMap byteMap)
    (hl : relocateLiterals (t.relocateLiteralIndex t' stringMap byteMap) refs image.literals.zipIdx [] =
      some m.vm.literals) : Cached t' m := by
  refine ⟨hr.formed, relocateLiterals_obj hl (fun j r hj => by cases hj) fun ordinal i j hm hj => ?_⟩
  obtain ⟨object, lit, c, ho, rfl, he, hco⟩ := LiteralImage.admit_content ha (mem_zipIdx_iff_getElem?.mp hm)
  have hold := hr.holds ordinal object c ho hco
  have hlt : ∀ {l : List (List UInt8)} {k : ℕ} {f : List UInt8 → LiteralContent}, l[k]?.map f = some c → k < l.length := by
    intro l k f hk
    obtain ⟨x, hx, -⟩ := map_eq_some_iff.mp hk
    exact lt_of_getElem? hx
  refine (?_ : ∃ lit' c', t'.cacheIndex lit' = j ∧ t'.pooled lit' = some c' ∧ m.Holds (refs ordinal) c')
  cases lit with
  | str k =>
    rw [LiteralTables.cacheIndex, LiteralTables.relocateLiteralIndex, if_pos (hlt he)] at hj
    refine ⟨.str j, c, rfl, ?_, hold⟩
    rw [LiteralTables.pooled, hre.strings k j hj]
    exact he
  | bytes k =>
    have hk := hlt he
    rw [LiteralTables.cacheIndex, LiteralTables.relocateLiteralIndex, if_neg (by omega), if_pos (by omega),
      Nat.add_sub_cancel_left] at hj
    obtain ⟨j', hj', rfl⟩ := map_eq_some_iff.mp hj
    refine ⟨.bytes j', c, rfl, ?_, hold⟩
    rw [LiteralTables.pooled, hre.bytes k j' hj']
    exact he
  | regex k =>
    rw [LiteralTables.cacheIndex, LiteralTables.relocateLiteralIndex, if_neg (by omega), if_neg (by omega),
      Nat.add_sub_cancel_left, if_pos (hlt he)] at hj
    obtain ⟨j', hj', rfl⟩ := map_eq_some_iff.mp hj
    refine ⟨.regex j', c, rfl, ?_, hold⟩
    rw [LiteralTables.pooled, hre.strings k j' hj']
    exact he

end Restore

theorem LiteralStep.cached {s s' : LiteralCode × Machine} (h : LiteralStep InPlace s s')
    (hc : Cached s.1.execution s.2) : Cached s'.1.execution s'.2 := by
  cases h with
  | load _ _ _ _ hk hl => exact (hc.load hk.1 hl).1
  | guest hf hs => exact hc.same hf hs
  | publish hg _ hk => exact hc.tables hg hk.2
  | restore refs ha hr hg _ hk hl => exact (hr.cached ha hl).tables hg hk.2
  | relocate refs ha hr hre hg hk hl => exact (hr.relocated ha hre hl).tables hg hk.2

structure Unloaded (m : Machine) : Prop where
  formed : m.Formed
  literals : m.vm.literals = []

theorem Unloaded.cached (h : Unloaded m) : Cached t m := by
  refine ⟨h.formed, fun i r hi => ?_⟩
  rw [h.literals] at hi
  cases hi

theorem run_cached {s₀ s : LiteralCode × Machine} (h₀ : Unloaded s₀.2)
    (h : Relation.ReflTransGen (LiteralStep InPlace) s₀ s) : Cached s.1.execution s.2 := by
  induction h with
  | refl => exact h₀.cached
  | tail _ hs ih => exact hs.cached ih

section Shifted

def plainTables (strings bytes : List (List UInt8)) : LiteralTables := ⟨strings, bytes, [], fun _ _ h => by cases h⟩

def plainCode (strings bytes : List (List UInt8)) : LiteralCode := ⟨plainTables strings bytes, plainTables strings bytes⟩

def newMachine : Machine :=
  { vm := { heap := .new 4096, state := .running }, config := ⟨.unbounded, 4096, 1, 100⟩ }

theorem newMachine_unloaded : Unloaded newMachine :=
  ⟨⟨Heap.slotted_new 4096, rfl, fun native hn => by cases hn⟩, rfl⟩

/-- What the load answers, with the content of the object that it pushes. -/
def answer (x : Except FaultCode Value × Machine) : Option (ObjRef × LiteralContent) :=
  match x.1 with
  | .ok (.obj r) => ((x.2.vm.heap.node r).bind fun n => literalOf n.2).map fun c => (r, c)
  | _ => none

theorem answer_some {x : Except FaultCode Value × Machine} {r : ObjRef} {c : LiteralContent} (h : answer x = some (r, c)) :
    x.1 = .ok (.obj r) ∧ x.2.Holds r c := by
  obtain ⟨out, m⟩ := x
  unfold answer at h
  split at h
  · next r' ho =>
    obtain ⟨c', hc, he⟩ := map_eq_some_iff.mp h
    cases he
    obtain ⟨n, hn, hl⟩ := bind_eq_some_iff.mp hc
    exact ⟨ho, n, hn, hl⟩
  · cases h

def twoLiterals : LiteralImage := ⟨[some 0, some 1], [.str ⟨⟨0, 1, [97]⟩, 0, 1⟩, .bytes ⟨⟨0, 1, [1]⟩, 0, 1⟩]⟩

def loadedBoth : Machine :=
  (((newMachine.loadLiteral (plainTables [[98], [97]] [[1]]) 0 true true (.str 1)).bind fun x =>
    x.2.loadLiteral (plainTables [[98], [97]] [[1]]) 0 true true (.bytes 0)).map Prod.snd).getD newMachine

theorem loadedBoth_literals : loadedBoth.vm.literals = [.uninit, .obj ⟨0, 0⟩, .obj ⟨1, 0⟩] := by decide +kernel

theorem loadedBoth_restored : Restored twoLiterals (fun i => ⟨i, 0⟩) loadedBoth := by
  have hsome : ((newMachine.loadLiteral (plainTables [[98], [97]] [[1]]) 0 true true (.str 1)).bind fun x =>
      x.2.loadLiteral (plainTables [[98], [97]] [[1]]) 0 true true (.bytes 0)).isSome = true := by
    decide +kernel
  have hsmall : (newMachine.loadLiteral (plainTables [[98], [97]] [[1]]) 0 true true (.str 1)).map
      (fun x => decide x.2.vm.heap.Small) = some true := by
    decide +kernel
  have hholds : (loadedBoth.vm.heap.node ⟨0, 0⟩).bind (fun n => literalOf n.2) = some (.str [97]) ∧
      (loadedBoth.vm.heap.node ⟨1, 0⟩).bind (fun n => literalOf n.2) = some (.bytes [1]) := by
    decide +kernel
  refine ⟨?_, fun i object c ho hc => ?_⟩
  · obtain ⟨⟨out, m⟩, hm⟩ := isSome_iff_exists.mp hsome
    obtain ⟨⟨out', m'⟩, hm', hload⟩ := bind_eq_some_iff.mp hm
    rw [hm', map_some] at hsmall
    have hc := newMachine_unloaded.cached (t := plainTables [[98], [97]] [[1]]) |>.load (by decide) hm' |>.1
    have hl := (hc.load (of_decide_eq_true (Option.some.inj hsmall)) hload).1.formed
    rwa [loadedBoth, hm, map_some, getD_some]
  · rcases i with _ | _ | i
    · cases ho
      cases hc
      exact bind_eq_some_iff.mp hholds.1
    · cases ho
      cases hc
      exact bind_eq_some_iff.mp hholds.2
    · cases ho

end Shifted

end Machine

end LoomV4.Vm
