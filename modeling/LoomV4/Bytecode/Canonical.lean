import LoomV4.Bytecode.ArtifactCodec

namespace LoomV4.Bytecode

open Lib Lib.Reader

variable {δ ι υ γ : Type}

variable {host : Host δ ι} {bs : Bytes}

theorem encode_eq_iff_strict {m : Module} (h : decode host bs = .ok m) :
    encode host.digest m = bs ↔ decodeStrict host bs = .ok m := by
  constructor
  · rintro rfl
    exact decodeWith_encode (decodeWith_ok h).1
  · intro hs
    exact (decodeWith_ok hs).2.2.resolve_left (by decide)

theorem encodeArtifact_eq_iff_strict {pkg : Package υ γ} {limits : ArtifactLimits}
    {a : Artifact} (h : decodeArtifact host pkg limits bs = .ok a) :
    encodeArtifact host.digest a = .ok bs ↔ decodeArtifactStrict host pkg limits bs = .ok a := by
  have hf := (decodeArtifactWith_ok h).1
  rw [hf.encodeArtifact_eq]
  constructor
  · intro hbs
    obtain rfl := Except.ok.inj hbs
    exact decodeArtifactWith_encode hf
  · intro hs
    rw [(decodeArtifactWith_ok hs).2.2.resolve_left (by decide)]

/-- The two laws of the two codecs. Acceptance gives the bytes back exactly for what the strict decoder accepts. -/
theorem codec_canonical (host : Host δ ι) (pkg : Package υ γ) (limits : ArtifactLimits) :
    (∀ bs m, decode host bs = .ok m → (encode host.digest m = bs ↔ decodeStrict host bs = .ok m)) ∧
    (∀ m : Module, m.Fits host → decode host (encode host.digest m) = .ok m) ∧
    (∀ bs a, decodeArtifact host pkg limits bs = .ok a →
      (encodeArtifact host.digest a = .ok bs ↔ decodeArtifactStrict host pkg limits bs = .ok a)) ∧
    (∀ a : Artifact, a.Fits host pkg limits →
      ∃ bs, encodeArtifact host.digest a = .ok bs ∧ decodeArtifact host pkg limits bs = .ok a) := by
  refine ⟨fun bs m => encode_eq_iff_strict, fun m => decodeWith_encode, fun bs a => encodeArtifact_eq_iff_strict, ?_⟩
  intro a ha
  exact ⟨encodeUnits host.digest a, ha.encodeArtifact_eq, decodeArtifactWith_encode ha⟩

/-- Writing what was read is a normal form: it is no longer than the input, and both decoders read the same from it. -/
theorem reencoded_normal (host : Host δ ι) (pkg : Package υ γ) (limits : ArtifactLimits) :
    (∀ bs m, decode host bs = .ok m → (encode host.digest m).length ≤ bs.length ∧
      decode host (encode host.digest m) = .ok m ∧ decodeStrict host (encode host.digest m) = .ok m) ∧
    ∀ bs a, decodeArtifact host pkg limits bs = .ok a → ∃ out, encodeArtifact host.digest a = .ok out ∧
      out.length ≤ bs.length ∧ decodeArtifact host pkg limits out = .ok a ∧
      decodeArtifactStrict host pkg limits out = .ok a := by
  constructor
  · intro bs m h
    obtain ⟨hf, hs⟩ := decodeWith_ok h
    exact ⟨hs.1, decodeWith_encode hf, decodeWith_encode hf⟩
  · intro bs a h
    obtain ⟨hf, hs⟩ := decodeArtifactWith_ok h
    exact ⟨_, hf.encodeArtifact_eq, hs.1, decodeArtifactWith_encode hf, decodeArtifactWith_encode hf⟩

def plainHost : Host Unit Unit where
  digest := Vector.replicate 32 0
  size := fun _ => 1
  decodeDebug := fun bs => if bs = [] then .ok () else .error ()
  validateDebug := fun _ _ => .ok ()
  encodeDebug := fun _ => []
  nonCanonical := ()

def boolModule : Module where
  strings := []
  bytes := []
  types := [.bool]
  selectors := []
  apps := []
  interfaces := []
  conformances := []
  classBounds := []
  funcBounds := [[]]
  imports := []
  slots := []
  coreRoles := Vector.replicate coreRoleCount noIndex
  reflections := []
  classes := []
  funcs := [{ name := .empty, typeParams := 0, effectParams := 0, params := [], paramMuts := [], ret := 0, row := [],
              captures := [], localTypes := [], blocks := [[⟨.constBool, [1]⟩, ⟨.ret, []⟩]], paramNames := [] }]
  entry := 0
  exports := []
  bindings := []
  debug := []

def boolBytes : Bytes := encode plainHost.digest boolModule

def looseBytes : Bytes := boolBytes.set 1240 2

theorem exists_of_toOption_map {ε α β : Type} {e : Except ε α} {f : α → β} {b : β} (h : e.toOption.map f = some b) :
    ∃ a, e = .ok a ∧ f a = b := by
  cases e with
  | error => cases h
  | ok a => exact ⟨a, rfl, Option.some.inj h⟩

theorem decode_looseBytes : ∃ m, decode plainHost looseBytes = .ok m ∧ encode plainHost.digest m ≠ looseBytes ∧
    decode plainHost boolBytes = .ok m ∧ boolBytes ≠ looseBytes := by
  have hread : (decode plainHost looseBytes).toOption.map (encode plainHost.digest) = some boolBytes := by decide +kernel
  have hne : boolBytes ≠ looseBytes := by decide +kernel
  obtain ⟨m, hm, hbytes⟩ := exists_of_toOption_map hread
  refine ⟨m, hm, ?_, ?_, hne⟩
  · rw [hbytes]
    exact hne
  · rw [← hbytes]
    exact decodeWith_encode (decodeWith_ok hm).1

def plainPackage : Package Unit Unit where
  identity := fun _ _ _ => .ok (Vector.replicate 32 0)
  validateGraph := fun _ _ => .ok ()

theorem codec_canonical_boolBytes : ∃ m, decode plainHost boolBytes = .ok m ∧ decodeStrict plainHost boolBytes = .ok m ∧
    encode plainHost.digest m = boolBytes := by
  have hread : (decode plainHost boolBytes).toOption.map (encode plainHost.digest) = some boolBytes := by decide +kernel
  obtain ⟨m, hm, hbytes⟩ := exists_of_toOption_map hread
  exact ⟨m, hm, ((codec_canonical plainHost plainPackage ⟨0, 0, 0, 0, 0, 0⟩).1 boolBytes m hm).mp hbytes, hbytes⟩

end LoomV4.Bytecode
