import LoomV4.Heap.Value
import Mathlib.Data.List.Sort

/-!
An operation bundle: its groups, the standard ones and the extension groups that a builder adds to them, and the tables
that a row of effects is read with.
-/

namespace LoomV4.Abi

open List

structure GroupSpec where
  name : String
  members : List String
deriving DecidableEq

structure BundleGroup where
  name : String
  members : List String
deriving DecidableEq

structure AbiBundle (β : Type) where
  groups : List BundleGroup
  rest : β

/-- What completes the groups: the names of the operations, and for each group one bit for each operation. -/
structure BundleTables where
  operations : List String
  groupBits : List (List Bool)
  digest : Hash
  bits_length : ∀ row ∈ groupBits, row.length = operations.length

def BundleTables.groupOperations (tables : BundleTables) (group : ℕ) : Option (List ℕ) :=
  tables.groupBits[group]?.map fun row => (row.zipIdx.filter fun p => p.1).map (·.2)

def standardGroups : List BundleGroup :=
  [⟨"Io", []⟩, ⟨"Fs", []⟩, ⟨"Clock", []⟩, ⟨"Rand", []⟩, ⟨"Net", []⟩, ⟨"Proc", []⟩, ⟨"Vm", []⟩, ⟨"Compiler", []⟩,
    ⟨"Reflect", []⟩, ⟨"Wait", []⟩, ⟨"Dns", []⟩, ⟨"Tcp", []⟩,
    ⟨"Tcp.Stream", ["Tcp.Read", "Tcp.Write", "Tcp.Shutdown", "Tcp.LocalAddress", "Tcp.PeerAddress", "Tcp.Close"]⟩,
    ⟨"Tcp.Listener", ["Tcp.Listen", "Tcp.Accept", "Tcp.LocalAddress", "Tcp.Close"]⟩,
    ⟨"Tcp.Client", ["Tcp.Connect", "Tcp.Stream"]⟩, ⟨"Tcp.Server", ["Tcp.Listener", "Tcp.Stream"]⟩,
    ⟨"Http.CleartextClient", ["Dns.Resolve", "Tcp.Client"]⟩, ⟨"Tls", []⟩,
    ⟨"Tls.Stream", ["Tls.Read", "Tls.Write", "Tls.Shutdown", "Tls.LocalAddress", "Tls.PeerAddress", "Tls.Close"]⟩,
    ⟨"Tls.Client", ["Tls.Handshake", "Tls.Stream"]⟩, ⟨"Http.Client", ["Dns.Resolve", "Tcp.Client", "Tls.Client"]⟩,
    ⟨"Choose", []⟩, ⟨"Env", []⟩, ⟨"Args", []⟩, ⟨"Entropy", []⟩, ⟨"Tty", []⟩, ⟨"Signal", []⟩, ⟨"Pipe", []⟩,
    ⟨"Exec", []⟩, ⟨"Tls.Server", ["Tls.ServerHandshake", "Tls.Stream"]⟩, ⟨"Udp", ["Udp.Bind", "Udp.Socket"]⟩,
    ⟨"Udp.Socket", ["Udp.SendTo", "Udp.RecvFrom", "Udp.LocalAddress", "Udp.Close"]⟩]

def validateQualifiedName (name what : String) : Except String Unit :=
  if name = "" ∨ (name.toList.splitOn '.').any (fun part => part.isEmpty || !part.all (fun ch =>
      ch.isAlphanum || ch = '_')) then .error ("the " ++ what ++ " name `" ++ name ++ "` is invalid")
  else .ok ()

def addGroups : List GroupSpec → List BundleGroup → Except String (List BundleGroup)
  | [], groups => .ok groups
  | group :: rest, groups => do
    validateQualifiedName group.name "group"
    if group.name ∈ groups.map BundleGroup.name then
      .error ("the ABI bundle repeats group `" ++ group.name ++ "`")
    else addGroups rest (groups ++ [⟨group.name, group.members⟩])

/-- The steps of `build` after the groups read them and keep them as they are: `later` is any of these. -/
def build {β : Type} (later : List BundleGroup → Except String β) (groups : List GroupSpec) :
    Except String (AbiBundle β) := do
  let groups ← addGroups (groups.insertionSort fun left right => left.name ≤ right.name) standardGroups
  let rest ← later groups
  .ok ⟨groups, rest⟩

def groupSurfaceName (name : String) : String :=
  .ofList (name.toList.zipIdx.flatMap fun (ch, index) =>
    if ch = '.' then ['_']
    else if ch.isUpper then (if index ≠ 0 then ['_'] else []) ++ [ch.toLower]
    else [ch])

namespace AbiBundle

variable {β : Type}

def surfaceGroup (bundle : AbiBundle β) (surface : String) : Option String :=
  (bundle.groups.find? fun group => groupSurfaceName group.name = surface).map BundleGroup.name

def Nameable (bundle : AbiBundle β) : Prop :=
  ∀ group ∈ bundle.groups, bundle.surfaceGroup (groupSurfaceName group.name) = some group.name

theorem addGroups_spec {specs : List GroupSpec} {groups out : List BundleGroup}
    (hn : (groups.map BundleGroup.name).Nodup) (h : addGroups specs groups = .ok out) :
    out.map BundleGroup.name = groups.map BundleGroup.name ++ specs.map GroupSpec.name ∧
      (out.map BundleGroup.name).Nodup := by
  induction specs generalizing groups with
  | nil =>
    cases h
    exact ⟨(append_nil _).symm, hn⟩
  | cons spec specs ih =>
    unfold addGroups at h
    cases hv : validateQualifiedName spec.name "group" with
    | error e =>
      rw [hv] at h
      cases h
    | ok _ =>
      rw [hv] at h
      dsimp only [bind, Except.bind] at h
      split at h
      · cases h
      · next hs =>
        obtain ⟨ho, hd⟩ := ih (by simpa using nodup_append.mpr ⟨hn, nodup_singleton spec.name, by simpa using hs⟩) h
        refine ⟨?_, hd⟩
        rw [ho, map_append, append_assoc]
        rfl

theorem find?_iff_nodup {α γ : Type} [DecidableEq γ] {l : List α} (f : α → γ) (hn : l.Nodup) :
    (∀ x ∈ l, l.find? (fun y => f y = f x) = some x) ↔ (l.map f).Nodup := by
  constructor
  · intro h
    refine hn.map_on fun x hx y hy he => ?_
    have hf := h x hx
    rw [he, h y hy] at hf
    exact (Option.some.inj hf).symm
  · intro h x hx
    have hs : (l.find? fun y => f y = f x).isSome := find?_isSome.mpr ⟨x, hx, decide_eq_true rfl⟩
    obtain ⟨y, hy⟩ := Option.isSome_iff_exists.mp hs
    have hf := find?_some hy
    rw [hy, inj_on_of_nodup_map h (mem_of_find?_eq_some hy) hx (of_decide_eq_true hf)]

/-- Each group can be named exactly when no two group names are folded into one surface name. -/
theorem nameable_iff {later : List BundleGroup → Except String β} {specs : List GroupSpec} {bundle : AbiBundle β}
    (h : build later specs = .ok bundle) : bundle.Nameable ↔
      ((standardGroups.map BundleGroup.name ++ specs.map GroupSpec.name).map groupSurfaceName).Nodup := by
  unfold build at h
  cases ha : addGroups (specs.insertionSort fun left right => left.name ≤ right.name) standardGroups with
  | error e =>
    rw [ha] at h
    cases h
  | ok groups =>
    cases hl : later groups with
    | error e =>
      simp only [ha, hl, bind, Except.bind] at h
      cases h
    | ok rest =>
      simp only [ha, hl, bind, Except.bind] at h
      cases h
      obtain ⟨hm, hn⟩ := addGroups_spec (by decide) ha
      have hp := ((perm_insertionSort (fun left right : GroupSpec => left.name ≤ right.name) specs).map
        GroupSpec.name).append_left (standardGroups.map BundleGroup.name)
      rw [← (hp.map groupSurfaceName).nodup_iff, ← hm, ← find?_iff_nodup groupSurfaceName hn]
      simp only [Nameable, surfaceGroup, forall_mem_map, find?_map]
      rfl

def telemetry : List GroupSpec := [⟨"Telemetry", []⟩]

theorem nameable_iff_telemetry : ∃ bundle, build (fun _ => .ok ()) telemetry = .ok bundle ∧ bundle.Nameable :=
  ⟨_, rfl, (nameable_iff (show build (fun _ => .ok ()) telemetry = .ok _ from rfl)).mpr (by decide)⟩

def folded : List GroupSpec := [⟨"a.b", []⟩, ⟨"a_b", []⟩]

/-- The surface name of `a_b` names `a.b`. -/
theorem folded_not_nameable : ∃ bundle, build (fun _ => .ok ()) folded = .ok bundle ∧ ⟨"a_b", []⟩ ∈ bundle.groups ∧
    bundle.surfaceGroup (groupSurfaceName "a_b") = some "a.b" :=
  ⟨_, rfl, by decide, by decide⟩

section Rows

variable (bundle : AbiBundle BundleTables)

/-- A name is in a table once: `build` refuses a repeated one. -/
def opByName (name : String) : Option ℕ := bundle.rest.operations.idxOf? name

def opName (slot : ℕ) : Option String := bundle.rest.operations[slot]?

def groupByName (name : String) : Option ℕ := (bundle.groups.map BundleGroup.name).idxOf? name

def groupName (slot : ℕ) : Option String := (bundle.groups.map BundleGroup.name)[slot]?

def rowNameOperations (name : String) : Option (List ℕ) :=
  match bundle.opByName name with
  | some operation => some [operation]
  | none => (bundle.groupByName name).bind bundle.rest.groupOperations

/-- A group without operations is included in no other name. -/
def rowNameIncluded (name expected : String) : Bool :=
  name = expected || (bundle.rowNameOperations name).any fun actual =>
    (bundle.rowNameOperations expected).any fun required =>
      !actual.isEmpty && !required.isEmpty && actual.all (· ∈ required)

variable {bundle} {name : String} {slot : ℕ}

theorem getElem?_of_idxOf? {l : List String} (h : l.idxOf? name = some slot) : l[slot]? = some name := by
  obtain ⟨hi, he, -⟩ := findIdx?_eq_some_iff_getElem.mp h
  rw [getElem?_eq_getElem hi, eq_of_beq he]

theorem opName_of_opByName (h : bundle.opByName name = some slot) : bundle.opName slot = some name :=
  getElem?_of_idxOf? h

theorem groupName_of_groupByName (h : bundle.groupByName name = some slot) : bundle.groupName slot = some name :=
  getElem?_of_idxOf? h

theorem rowNameIncluded_iff {expected : String} : bundle.rowNameIncluded name expected ↔ name = expected ∨
    ∃ actual required, bundle.rowNameOperations name = some actual ∧ bundle.rowNameOperations expected = some required ∧
      actual ≠ [] ∧ required ≠ [] ∧ actual ⊆ required := by
  simp only [rowNameIncluded, Bool.or_eq_true, decide_eq_true_eq, Option.any_eq_true, Bool.and_eq_true, Bool.not_eq_true',
    isEmpty_eq_false_iff, all_eq_true, subset_def]
  grind

theorem rowNameIncluded_trans {a b c : String} (hab : bundle.rowNameIncluded a b) (hbc : bundle.rowNameIncluded b c) :
    bundle.rowNameIncluded a c := by
  rw [rowNameIncluded_iff] at hab hbc ⊢
  obtain rfl | ⟨xs, ys, hx, hy, hnx, -, hxy⟩ := hab
  · exact hbc
  · obtain rfl | ⟨ys', zs, hy', hz, -, hnz, hyz⟩ := hbc
    · exact .inr ⟨xs, ys, hx, hy, hnx, fun h => hnx (subset_nil.mp (h ▸ hxy)), hxy⟩
    · obtain rfl := Option.some.inj (hy.symm.trans hy')
      exact .inr ⟨xs, zs, hx, hz, hnx, hnz, List.Subset.trans hxy hyz⟩

end Rows

end AbiBundle

end LoomV4.Abi
