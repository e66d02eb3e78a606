import Mathlib.Data.List.Lex
import LoomV4.Bytecode.Decode

namespace LoomV4.Bytecode

open Lib Lib.Reader

structure ArtifactDependency where
  path : Text
  artifact : Hash
deriving DecidableEq

structure LinkUnit where
  id : Hash
  bundleDigest : Hash
  path : Text
  module : Module
  dependencies : List ArtifactDependency

structure Artifact where
  root : Hash
  units : List LinkUnit

def order (bs : Bytes) : List ℕ := bs.map UInt8.toNat

def idOrder (id : Hash) : List ℕ := order id.toList

def ArtifactDependency.Before (a b : ArtifactDependency) : Prop :=
  order a.path.bytes < order b.path.bytes ∨ a.path = b.path ∧ idOrder a.artifact < idOrder b.artifact

instance : DecidableRel ArtifactDependency.Before := fun a b => inferInstanceAs (Decidable
  (order a.path.bytes < order b.path.bytes ∨ a.path = b.path ∧ idOrder a.artifact < idOrder b.artifact))

inductive ArtifactError (υ : Type)
  | invalidModulePath (path : Text)
  | duplicateModulePath (path : Text)
  | surface (error : υ)

inductive ArtifactGraphError (γ : Type)
  | duplicateUnit (id : Hash)
  | duplicateModulePath (path : Text)
  | graph (error : γ)

inductive ArtifactDecodeError (δ υ γ : Type)
  | truncated
  | badMagic
  | badVersion (found : ℕ)
  | badBundle (expected found : Hash)
  | badLength
  | badUtf8
  | nonCanonicalUnits
  | nonCanonicalDependencies
  | trailingBytes
  | limit (name : String)
  | module (error : DecodeError δ)
  | unit (error : ArtifactError υ)
  | identityMismatch (stored computed : Hash)
  | graph (error : ArtifactGraphError γ)

structure ArtifactLimits where
  maxBytes : ℕ
  maxUnits : ℕ
  maxDependenciesPerUnit : ℕ
  maxModuleBytes : ℕ
  maxCodeBytes : ℕ
  maxModulePathBytes : ℕ

/-- What surrounds the container: the identity that a module, its interface and its dependencies give a unit, and the
check of the graph of the units. -/
structure Package (υ γ : Type) where
  identity : Text → Module → List ArtifactDependency → Except υ Hash
  validateGraph : Hash → List LinkUnit → Except γ Unit

def isLetter (b : UInt8) : Bool := (0x41 ≤ b && b ≤ 0x5a) || (0x61 ≤ b && b ≤ 0x7a)

def isDigit (b : UInt8) : Bool := 0x30 ≤ b && b ≤ 0x39

/-- One part of a module path: a letter or `_`, then letters, digits, `_` and `-`. -/
def validPart : Bytes → Bool
  | [] => false
  | b :: bs => (isLetter b || b == 0x5f) && bs.all fun c => isLetter c || isDigit c || c == 0x5f || c == 0x2d

def validModulePath (path : Text) : Bool := !path.bytes.isEmpty && (path.bytes.splitOn 0x2e).all validPart

variable {δ ι υ γ : Type}

def validateModulePath (path : Text) : Except (ArtifactError υ) Unit :=
  if validModulePath path then .ok () else .error (.invalidModulePath path)

def validateUnitPath (path : Text) : Except (ArtifactError υ) Unit :=
  if path.bytes = [] then .ok () else validateModulePath path

def repeated {α : Type} [DecidableEq α] : List α → Option α
  | a :: b :: l => if a = b then some a else repeated (b :: l)
  | _ => none

def occurred {α : Type} [DecidableEq α] : List α → List α → Option α
  | _, [] => none
  | before, a :: l => if a ∈ before then some a else occurred (a :: before) l

def canonicalizeDependencies (l : List ArtifactDependency) : Except (ArtifactError υ) (List ArtifactDependency) :=
  match l.findSome? (fun d => if validModulePath d.path then none else some d.path) with
  | some path => .error (.invalidModulePath path)
  | none =>
    let l := l.mergeSort fun a b => !decide (b.Before a)
    match repeated (l.map ArtifactDependency.path) with
    | some path => .error (.duplicateModulePath path)
    | none => .ok l

def LinkUnit.fromModule (pkg : Package υ γ) (digest : Hash) (path : Text) (module : Module)
    (dependencies : List ArtifactDependency) : Except (ArtifactError υ) LinkUnit := do
  validateUnitPath path
  let dependencies ← canonicalizeDependencies dependencies
  match pkg.identity path module dependencies with
  | .error e => .error (.surface e)
  | .ok id => .ok { id, bundleDigest := digest, path, module, dependencies }

def Artifact.fromUnits (pkg : Package υ γ) (root : Hash) (units : List LinkUnit) :
    Except (ArtifactGraphError γ) Artifact :=
  let units := units.mergeSort fun a b => !decide (idOrder b.id < idOrder a.id)
  match repeated (units.map LinkUnit.id) with
  | some id => .error (.duplicateUnit id)
  | none =>
    match occurred [] (units.map LinkUnit.path) with
    | some path => .error (.duplicateModulePath path)
    | none =>
      match pkg.validateGraph root units with
      | .error e => .error (.graph e)
      | .ok _ => .ok { root, units }

inductive ArtifactEncodeError
  | lengthOverflow
  | bundleMismatch (unit expected found : Hash)

def artifactMagic : Bytes := [0x4c, 0x4d, 0x41, 0x52]

def formatVersion : ℕ := 3

def encodeDependency (d : ArtifactDependency) : Bytes := writeText d.path ++ d.artifact.toList

def encodeUnit (u : LinkUnit) (payload : Bytes) : Bytes :=
  u.id.toList ++ writeText u.path ++ writeTable encodeDependency u.dependencies ++ writeBytes payload

def encodeUnits (digest : Hash) (a : Artifact) : Bytes :=
  artifactMagic ++ leBytes 2 formatVersion ++ digest.toList ++ a.root.toList
    ++ writeTable (fun u => encodeUnit u (encode digest u.module)) a.units

def LinkUnit.writable (digest : Hash) (u : LinkUnit) : Bool :=
  decide (u.path.bytes.length < 2 ^ 32 ∧ u.dependencies.length < 2 ^ 32 ∧
    (∀ d ∈ u.dependencies, d.path.bytes.length < 2 ^ 32) ∧ (encode digest u.module).length < 2 ^ 32)

def encodeArtifact (digest : Hash) (a : Artifact) : Except ArtifactEncodeError Bytes :=
  match a.units.find? (fun u => u.bundleDigest ≠ digest) with
  | some u => .error (.bundleMismatch u.id digest u.bundleDigest)
  | none =>
    if a.units.length < 2 ^ 32 ∧ a.units.all (LinkUnit.writable digest) then .ok (encodeUnits digest a)
    else .error .lengthOverflow

abbrev ArtifactCursor (δ υ γ α : Type) := Reader (ArtifactDecodeError δ υ γ) α

section

variable (host : Host δ ι) (pkg : Package υ γ) (limits : ArtifactLimits)

def pathText : ArtifactCursor δ υ γ Text := do
  let count ← uint .truncated 4
  ensure (count ≤ limits.maxModulePathBytes) (.limit "module path byte")
  let bs ← take .truncated count
  if h : validUtf8 bs = true then pure ⟨bs, h⟩ else fail .badUtf8

def countOf (most least : ℕ) (name : String) : ArtifactCursor δ υ γ ℕ := do
  let count ← uint .truncated 4
  ensure (count ≤ most) (.limit name)
  let left ← remaining
  ensure (count ≤ left / least) .badLength
  pure count

def id32 : ArtifactCursor δ υ γ Hash := takeVector .truncated 32

def decodeDependency (previous : Option ArtifactDependency) :
    ArtifactCursor δ υ γ (ArtifactDependency × Option ArtifactDependency) := do
  let path ← pathText limits
  let artifact ← id32
  let d : ArtifactDependency := { path, artifact }
  ensure (previous.all fun p => p.Before d) .nonCanonicalDependencies
  ofExcept .unit (validateModulePath path)
  pure (d, some d)

def decodePayload (lenient : Bool) (code : ℕ) : ArtifactCursor δ υ γ (Module × ℕ) := do
  let count ← length .truncated .badLength
  ensure (count ≤ limits.maxModuleBytes) (.limit "module byte")
  ensure (code + count ≤ limits.maxCodeBytes) (.limit "decoded code byte")
  let bs ← take .truncated count
  let m ← ofExcept .module (decodeWith host lenient bs)
  pure (m, code + count)

def minUnitBytes : ℕ := 32 + 4 + 1 + 4 + 4

def minDependencyBytes : ℕ := 4 + 1 + 32

def decodeUnit (lenient : Bool) (previous : Option Hash × ℕ) :
    ArtifactCursor δ υ γ (LinkUnit × Option Hash × ℕ) := do
  let stored ← id32
  ensure (previous.1.all fun p => decide (idOrder p < idOrder stored)) .nonCanonicalUnits
  let path ← pathText limits
  let count ← countOf limits.maxDependenciesPerUnit minDependencyBytes "direct dependency"
  let dependencies ← timesFrom (decodeDependency limits) count none
  let payload ← decodePayload host limits lenient previous.2
  let u ← ofExcept .unit (LinkUnit.fromModule pkg host.digest path payload.1 dependencies.1)
  ensure (u.id = stored) (.identityMismatch stored u.id)
  pure (u, some stored, payload.2)

def unitsReader (lenient : Bool) : ArtifactCursor δ υ γ (Hash × List LinkUnit) := do
  let found ← take .truncated 4
  ensure (found = artifactMagic) .badMagic
  let found ← uint .truncated 2
  ensure (found = formatVersion) (.badVersion found)
  let found ← id32
  ensure (found = host.digest) (.badBundle host.digest found)
  let root ← id32
  let count ← countOf limits.maxUnits minUnitBytes "unit"
  let units ← timesFrom (decodeUnit host pkg limits lenient) count (none, 0)
  pure (root, units.1)

def decodeArtifactWith (lenient : Bool) (bs : Bytes) : Except (ArtifactDecodeError δ υ γ) Artifact :=
  if limits.maxBytes < bs.length then .error (.limit "total byte")
  else
    match whole .trailingBytes (unitsReader host pkg limits lenient) bs with
    | .error e => .error e
    | .ok (root, units) =>
      match Artifact.fromUnits pkg root units with
      | .error e => .error (.graph e)
      | .ok a => .ok a

def decodeArtifact (bs : Bytes) : Except (ArtifactDecodeError δ υ γ) Artifact :=
  decodeArtifactWith host pkg limits true bs

def decodeArtifactStrict (bs : Bytes) : Except (ArtifactDecodeError δ υ γ) Artifact :=
  decodeArtifactWith host pkg limits false bs

end

end LoomV4.Bytecode
