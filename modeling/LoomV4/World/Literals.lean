import LoomV4.World.Shown

namespace LoomV4.Vm

open Abi Lib List Option

def patternOf (regex : Regex) : List UInt8 := regex.source.toUTF8.data.toList

/-- The literal tables of a code namespace. Each compiled regular expression is that of the string at its index. -/
structure LiteralTables where
  strings : List (List UInt8)
  bytes : List (List UInt8)
  regexes : List (Option Regex)
  compiled : ∀ (i : ℕ) regex, (regexes[i]?).join = some regex → strings[i]? = some (patternOf regex)

inductive Literal
  | str (i : ℕ)
  | bytes (i : ℕ)
  | regex (i : ℕ)

/-- The content of a literal; that of a regular expression is its source. -/
inductive LiteralContent
  | str (content : List UInt8)
  | bytes (content : List UInt8)
  | regex (pattern : List UInt8)
deriving DecidableEq

def literalOf : Object → Option LiteralContent
  | .str text => some (.str text.asBytes)
  | .bytes bytes => some (.bytes bytes.asBytes)
  | .nativeRegex r => some (.regex (patternOf r))
  | _ => none

namespace LiteralTables

def pooled (t : LiteralTables) : Literal → Option LiteralContent
  | .str i => t.strings[i]?.map .str
  | .bytes i => t.bytes[i]?.map .bytes
  | .regex i => t.strings[i]?.map .regex

def object (t : LiteralTables) (key : ℕ) : Literal → Option Object
  | .str i => t.strings[i]?.map fun content => .str ⟨⟨key, content.length, content⟩, 0, content.length⟩
  | .bytes i => t.bytes[i]?.map fun content => .bytes ⟨⟨key, content.length, content⟩, 0, content.length⟩
  | .regex i => (t.regexes[i]?).join.map .nativeRegex

def cacheIndex (t : LiteralTables) : Literal → ℕ
  | .str i => i
  | .bytes i => t.strings.length + i
  | .regex i => t.strings.length + t.bytes.length + i

theorem object_content {t : LiteralTables} {key : ℕ} {lit : Literal} {o : Object} (h : t.object key lit = some o) :
    ∃ c, t.pooled lit = some c ∧ literalOf o = some c := by
  cases lit with
  | str i =>
    obtain ⟨content, hc, rfl⟩ := map_eq_some_iff.mp h
    exact ⟨.str content, by rw [pooled, hc]; rfl, by simp [literalOf, Span.asBytes]⟩
  | bytes i =>
    obtain ⟨content, hc, rfl⟩ := map_eq_some_iff.mp h
    exact ⟨.bytes content, by rw [pooled, hc]; rfl, by simp [literalOf, Span.asBytes]⟩
  | regex i =>
    obtain ⟨r, hr, rfl⟩ := map_eq_some_iff.mp h
    exact ⟨.regex (patternOf r), by rw [pooled, t.compiled i r hr]; rfl, rfl⟩

end LiteralTables

namespace Machine

variable {m m' : Machine} {t t' : LiteralTables}

def reserveLiteral (at' : ℕ) (m : Machine) : Machine :=
  { m with vm.literals := m.vm.literals ++ List.replicate (at' + 1 - m.vm.literals.length) .uninit }

def pushLiteral (room : Bool) (v : Value) (m : Machine) : Except FaultCode Value × Machine :=
  ((m.push room v).1.map fun _ => v, (m.push room v).2)

/-- `ConstStr`, `ConstBytes` and `ConstRegex`: the first load allocates one object, and a later load reuses it. A
string outside the table panics. -/
def loadLiteral (t : LiteralTables) (key : ℕ) (unique room : Bool) (lit : Literal) (m : Machine) :
    Option (Except FaultCode Value × Machine) :=
  let m := m.reserveLiteral (t.cacheIndex lit)
  match m.vm.literals[t.cacheIndex lit]? with
  | some (.obj r) => some (m.pushLiteral room (.obj r))
  | some .uninit =>
    match t.object key lit with
    | none =>
      match lit with
      | .str _ => none
      | _ => some (.error .malformedState, m)
    | some object =>
      match m.alloc object unique with
      | none => none
      | some (.error e, m) => some (.error e, m)
      | some (.ok r, m) =>
        some ({ m with vm.literals := m.vm.literals.set (t.cacheIndex lit) (.obj r) }.pushLiteral room (.obj r))
  | _ => some (.error .malformedState, m)

def Holds (m : Machine) (r : ObjRef) (c : LiteralContent) : Prop :=
  ∃ n, m.vm.heap.node r = some n ∧ literalOf n.2 = some c

structure Cached (t : LiteralTables) (m : Machine) : Prop where
  formed : m.Formed
  holds : ∀ i r, m.vm.literals[i]? = some (.obj r) → ∃ lit c, t.cacheIndex lit = i ∧ t.pooled lit = some c ∧ m.Holds r c

variable {r : ObjRef}

theorem getElem?_reserve {i at' : ℕ} (h : (m.reserveLiteral at').vm.literals[i]? = some (.obj r)) :
    m.vm.literals[i]? = some (.obj r) := by
  rw [reserveLiteral, getElem?_append] at h
  split at h
  · exact h
  · rw [getElem?_replicate] at h
    split at h <;> cases h

theorem Cached.reserve (h : Cached t m) (at' : ℕ) : Cached t (m.reserveLiteral at') :=
  ⟨⟨h.formed.slotted, h.formed.hostRoots, h.formed.native⟩, fun i r hi => h.holds i r (getElem?_reserve hi)⟩

theorem push_vm (room : Bool) (v : Value) (m : Machine) :
    (m.push room v).2.vm.heap = m.vm.heap ∧ (m.push room v).2.vm.literals = m.vm.literals := by
  have hm : m.materialize.2.vm.heap = m.vm.heap ∧ m.materialize.2.vm.literals = m.vm.literals := by
    unfold materialize
    split
    · exact ⟨rfl, rfl⟩
    · split <;> exact ⟨rfl, rfl⟩
  unfold push
  split
  · next m1 he =>
    rw [he] at hm
    exact hm
  · next m1 he =>
    rw [he] at hm
    split <;> exact hm

theorem Cached.push (h : Cached t m) (room : Bool) (v : Value) : Cached t (m.push room v).2 := by
  obtain ⟨hh, hl⟩ := push_vm room v m
  refine ⟨h.formed.push.1, fun i r hi => ?_⟩
  rw [hl] at hi
  obtain ⟨lit, c, hd, he, n, hn, hc⟩ := h.holds i r hi
  exact ⟨lit, c, hd, he, n, by rw [hh]; exact hn, hc⟩

theorem mem_gcRoots_of_literal {i : ℕ} (h : m.vm.literals[i]? = some (.obj r)) : r ∈ m.gcRoots [] := by
  rw [mem_gcRoots, otherRoots]
  have hm : r ∈ rootsOf m.vm.literals := mem_filterMap.mpr ⟨.obj r, mem_of_getElem? h, rfl⟩
  exact .inr (.inr (.inl (mem_append_right _ hm)))

variable {unique : Bool}

theorem Formed.alloc_node {object : Object} {out : Except FaultCode ObjRef} (h : m.Formed) (hsm : m.vm.heap.Small)
    (ha : m.alloc object unique = some (out, m')) : (∃ heap, m' = { m with vm.heap := heap }) ∧
      (∀ r ∈ m.gcRoots [], m.vm.heap.node r ≠ none → m'.vm.heap.node r = m.vm.heap.node r) ∧
      ∀ r, out = .ok r → ∃ frozen, m'.vm.heap.node r = some (frozen, object) := by
  have ho : ∀ ok heap, m.allocRoom object unique = some (ok, heap) → heap.Slotted ∧ heap.objects.Numbered ∧
      ∀ r ∈ m.gcRoots [], m.vm.heap.node r ≠ none → heap.node r = m.vm.heap.node r := by
    intro ok heap hr
    unfold allocRoom at hr
    split at hr
    · obtain ⟨heap', hco, he⟩ := map_eq_some_iff.mp hr
      cases he
      have hc := collect_collected h.slotted hco
      refine ⟨hc.slotted, hsm.numbered_of_within (hc.within _ (Heap.within_length h.slotted.tabled)),
        fun r hr hl => hc.kept r ⟨reachable_root ?_, hl⟩⟩
      rw [gcRoots_append]
      exact mem_append_left _ (mem_append_left _ hr)
    · cases hr
      exact ⟨h.slotted, hsm.numbered_of_within (Heap.within_length h.slotted.tabled), fun _ _ _ => rfl⟩
  unfold Machine.alloc at ha
  split at ha
  · cases ha
  · next heap hr =>
    cases ha
    exact ⟨⟨heap, rfl⟩, (ho _ _ hr).2.2, nofun⟩
  · next heap hr =>
    obtain ⟨x, hx, he⟩ := map_eq_some_iff.mp ha
    cases he
    obtain ⟨hs, hnum, hk⟩ := ho _ _ hr
    refine ⟨⟨x.2, rfl⟩, fun r hr hl => ?_, fun r he => ?_⟩
    · rw [Heap.node_alloc hs hx, ← hk r hr hl]
      split
      · next heq =>
        have hf := Heap.node_alloc_fresh hs hnum hx
        rw [← heq, hk r hr hl] at hf
        exact absurd hf hl
      · rfl
    · cases he
      exact ⟨_, by rw [Heap.node_alloc hs hx, if_pos rfl]⟩

theorem cacheIndex_inj {a b : Literal} {ca cb : LiteralContent} (ha : t.pooled a = some ca) (hb : t.pooled b = some cb)
    (h : t.cacheIndex a = t.cacheIndex b) : a = b := by
  have hlt : ∀ {α β : Type} {l : List α} {i : ℕ} {f : α → β} {c : β}, l[i]?.map f = some c → i < l.length := by
    intro α β l i f c hi
    obtain ⟨x, hx, -⟩ := map_eq_some_iff.mp hi
    exact lt_of_getElem? hx
  cases a with
  | str i =>
    have hi := hlt ha
    cases b with
    | str j => exact congrArg _ h
    | bytes j =>
      simp only [LiteralTables.cacheIndex] at h
      omega
    | regex j =>
      simp only [LiteralTables.cacheIndex] at h
      omega
  | bytes i =>
    have hi := hlt ha
    cases b with
    | str j =>
      have hj := hlt hb
      simp only [LiteralTables.cacheIndex] at h
      omega
    | bytes j => exact congrArg _ (Nat.add_left_cancel h)
    | regex j =>
      simp only [LiteralTables.cacheIndex] at h
      omega
  | regex i =>
    cases b with
    | str j =>
      have hj := hlt hb
      simp only [LiteralTables.cacheIndex] at h
      omega
    | bytes j =>
      have hj := hlt hb
      simp only [LiteralTables.cacheIndex] at h
      omega
    | regex j => exact congrArg _ (Nat.add_left_cancel h)

variable {c : LiteralContent}

theorem Holds.of_push (h : m.Holds r c) (room : Bool) (v : Value) : (m.push room v).2.Holds r c := by
  obtain ⟨n, hn, hc⟩ := h
  exact ⟨n, by rw [(push_vm room v m).1]; exact hn, hc⟩

variable {key : ℕ} {lit : Literal}

theorem Cached.alloc {object : Object} (h : Cached t m) (hsm : m.vm.heap.Small) (hc : t.pooled lit = some c)
    (ho' : literalOf object = some c) (ha : m.alloc object unique = some (.ok r, m')) :
    Cached t { m' with vm.literals := m'.vm.literals.set (t.cacheIndex lit) (.obj r) } ∧ m'.Holds r c := by
  obtain ⟨heap1, -, hf, -⟩ := h.formed.alloc ha
  obtain ⟨⟨heap, rfl⟩, hk, hw⟩ := h.formed.alloc_node hsm ha
  obtain ⟨frozen, ho⟩ := hw r rfl
  refine ⟨⟨⟨hf.slotted, hf.hostRoots, hf.native⟩, fun i r' hi => ?_⟩, _, ho, ho'⟩
  rw [getElem?_set] at hi
  split at hi
  · next hat =>
    split at hi
    · cases hi
      exact ⟨lit, c, hat, hc, _, ho, ho'⟩
    · cases hi
  · obtain ⟨lit', c', hd, he, n, hn, hn'⟩ := h.holds i r' hi
    refine ⟨lit', c', hd, he, n, ?_, hn'⟩
    rw [← hn]
    exact hk r' (mem_gcRoots_of_literal hi) (by rw [hn]; exact nofun)

theorem Cached.failed {e : FaultCode} {object : Object} (h : Cached t m) (hsm : m.vm.heap.Small)
    (ha : m.alloc object unique = some (.error e, m')) : Cached t m' := by
  obtain ⟨heap1, -, hf, -⟩ := h.formed.alloc ha
  obtain ⟨⟨heap, rfl⟩, hk, -⟩ := h.formed.alloc_node hsm ha
  refine ⟨hf, fun i r hi => ?_⟩
  obtain ⟨lit, c, hd, he, n, hn, hn'⟩ := h.holds i r hi
  refine ⟨lit, c, hd, he, n, ?_, hn'⟩
  rw [← hn]
  exact hk r (mem_gcRoots_of_literal hi) (by rw [hn]; exact nofun)

theorem Cached.load {room : Bool} {out : Except FaultCode Value} (h : Cached t m) (hsm : m.vm.heap.Small)
    (hl : m.loadLiteral t key unique room lit = some (out, m')) : Cached t m' ∧
      ∀ c v, t.pooled lit = some c → out = .ok v → ∃ r, v = .obj r ∧ m'.Holds r c := by
  have hr := h.reserve (t.cacheIndex lit)
  have hp : ∀ (m1 : Machine) r c, m1.Holds r c → ∀ v, (m1.pushLiteral room (.obj r)).1 = .ok v →
      ∃ r', v = .obj r' ∧ (m1.push room (.obj r)).2.Holds r' c := by
    intro m1 r c hold v hv
    refine ⟨r, ?_, hold.of_push room _⟩
    rw [pushLiteral] at hv
    cases ho : (m1.push room (.obj r)).1 with
    | error e =>
      rw [ho] at hv
      cases hv
    | ok _ =>
      rw [ho] at hv
      exact (Except.ok.inj hv).symm
  unfold loadLiteral at hl
  dsimp only at hl
  split at hl
  · next r hi =>
    obtain ⟨rfl, rfl⟩ := Prod.mk.inj (some.inj hl)
    refine ⟨hr.push room _, fun c v hc hv => ?_⟩
    obtain ⟨lit', c', hn, he, hold⟩ := hr.holds _ r hi
    obtain rfl := cacheIndex_inj he hc hn
    obtain rfl := mem_unique hc he
    exact hp _ r c hold v hv
  · next hi =>
    split at hl
    · split at hl
      · cases hl
      · obtain ⟨rfl, rfl⟩ := Prod.mk.inj (some.inj hl)
        exact ⟨hr, fun _ _ _ => nofun⟩
    · next object hob =>
      obtain ⟨c, hc, hco⟩ := LiteralTables.object_content hob
      have hsm' : (m.reserveLiteral (t.cacheIndex lit)).vm.heap.Small := hsm
      split at hl
      · cases hl
      · next ha =>
        obtain ⟨rfl, rfl⟩ := Prod.mk.inj (some.inj hl)
        exact ⟨hr.failed hsm' ha, fun _ _ _ => nofun⟩
      · next r m1 ha =>
        obtain ⟨rfl, rfl⟩ := Prod.mk.inj (some.inj hl)
        obtain ⟨hh, hold⟩ := hr.alloc hsm' hc hco ha
        refine ⟨hh.push room _, fun c' v hc' hv => ?_⟩
        obtain rfl := mem_unique hc hc'
        exact hp { m1 with vm.literals := m1.vm.literals.set (t.cacheIndex lit) (.obj r) } r c hold v hv
  · obtain ⟨rfl, rfl⟩ := Prod.mk.inj (some.inj hl)
    exact ⟨hr, fun _ _ _ => nofun⟩

end Machine

end LoomV4.Vm
