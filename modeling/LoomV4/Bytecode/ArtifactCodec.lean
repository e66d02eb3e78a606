import LoomV4.Bytecode.Artifact
import LoomV4.Bytecode.AcceptedModule

namespace LoomV4.Bytecode

open Lib Lib.Reader Option

section

variable {δ ι υ γ : Type} (host : Host δ ι) (pkg : Package υ γ) (limits : ArtifactLimits)

def PathFits (t : Text) : Prop := t.bytes.length < 2 ^ 32 ∧ t.bytes.length ≤ limits.maxModulePathBytes

def DependencyFits (previous : Option ArtifactDependency) (d : ArtifactDependency) (next : Option ArtifactDependency) :
    Prop :=
  PathFits limits d.path ∧ (∀ p ∈ previous, p.Before d) ∧ validModulePath d.path = true ∧ next = some d

structure LinkUnit.Fits (u : LinkUnit) : Prop where
  path : PathFits limits u.path
  count : u.dependencies.length < 2 ^ 32 ∧ u.dependencies.length ≤ limits.maxDependenciesPerUnit
  dependencies : ∃ last, Chain (DependencyFits limits) none u.dependencies last
  module : u.module.Fits host
  size : (encode host.digest u.module).length < 2 ^ 32 ∧ (encode host.digest u.module).length ≤ limits.maxModuleBytes
  made : LinkUnit.fromModule pkg host.digest u.path u.module u.dependencies = .ok u

def UnitFits (previous : Option Hash × ℕ) (u : LinkUnit) (next : Option Hash × ℕ) : Prop :=
  u.Fits host pkg limits ∧ (∀ p ∈ previous.1, idOrder p < idOrder u.id) ∧ next.1 = some u.id ∧
    next.2 = previous.2 + (encode host.digest u.module).length ∧ next.2 ≤ limits.maxCodeBytes

structure Artifact.Fits (a : Artifact) : Prop where
  count : a.units.length < 2 ^ 32 ∧ a.units.length ≤ limits.maxUnits
  units : ∃ last, Chain (UnitFits host pkg limits) (none, 0) a.units last
  made : Artifact.fromUnits pkg a.root a.units = .ok a
  bytes : (encodeUnits host.digest a).length ≤ limits.maxBytes

variable {host pkg limits} {loose : Prop} {lenient : Bool}

theorem codes_pathText : Codes (pathText limits : ArtifactCursor δ υ γ Text) writeText (PathFits limits) := by
  refine .of_laws ((codes_uint 4).reads.bind fun count hc => Reads.ensure fun hle =>
    (codes_take count).reads.bind fun bs hbs => ?_) ?_
  · subst hbs
    split
    · exact Reads.pure ⟨hc, of_decide_eq_true hle⟩ rfl
    · exact Reads.fail
  · rintro t rest ⟨hlt, hle⟩
    rw [writeText, writeBytes, List.append_assoc, pathText, (codes_uint 4).inverts.bind hlt,
      ensure_bind (decide_eq_true hle)]
    refine ((codes_take _).inverts.bind (a := t.bytes) rfl rest).trans ?_
    rw [dif_pos t.valid]
    rfl

theorem reads_countOf {most least : ℕ} {name : String} :
    Reads loose (countOf most least name : ArtifactCursor δ υ γ ℕ) [] (leBytes 4) (fun n => n < 2 ^ 32 ∧ n ≤ most) :=
  (codes_uint 4).reads.bind fun _ hc => Reads.ensure fun hle => Reads.remaining fun _ => Reads.ensure fun _ =>
    Reads.pure ⟨hc, of_decide_eq_true hle⟩ rfl

theorem codes_dependency (previous : Option ArtifactDependency) :
    Codes (decodeDependency limits previous : ArtifactCursor δ υ γ _) (fun x => encodeDependency x.1)
      (fun x => DependencyFits limits previous x.1 x.2) := by
  have hv : ∀ (path : Text) u, (validateModulePath path : Except (ArtifactError υ) Unit) = .ok u ↔
      validModulePath path = true := by
    intro path u
    simp [validateModulePath]
  rintro bs ⟨⟨path, artifact⟩, next⟩ rest
  simp [decodeDependency, encodeDependency, codes_pathText, id32, hv, DependencyFits]
  cases previous <;> simp <;> tauto

variable {d : ArtifactDependency}

theorem reads_payload (code : ℕ) : Reads (lenient = true) (decodePayload host limits lenient code : ArtifactCursor δ υ γ _) []
    (fun x => writeBytes (encode host.digest x.1))
    (fun x => x.1.Fits host ∧ (encode host.digest x.1).length < 2 ^ 32 ∧
      (encode host.digest x.1).length ≤ limits.maxModuleBytes ∧ code + (encode host.digest x.1).length ≤ x.2 ∧
      x.2 ≤ limits.maxCodeBytes) := by
  refine reads_length.bind fun count hu => Reads.ensure fun ho => Reads.ensure fun hc =>
    (codes_take count).reads.bind fun bs hbs => Reads.ofExcept fun m hm => ?_
  subst hbs
  obtain ⟨hf, hle, heq⟩ := decodeWith_ok hm
  have ho := of_decide_eq_true ho
  have hc := of_decide_eq_true hc
  -- The payload is written anew, with the length that it then has.
  intro rest v rest' h
  cases h
  refine ⟨⟨hf, hle.trans_lt hu, hle.trans ho, Nat.add_le_add_left hle code, hc⟩, [], rfl, ?_, ?_⟩
  · simp only [length_writeBytes, List.length_append, length_leBytes, List.length_nil, id_eq]
    omega
  · refine heq.imp_right (fun heq => ?_)
    dsimp only
    rw [heq, writeBytes]
    simp

theorem ArtifactDependency.Before.asymm {a b : ArtifactDependency} (h : a.Before b) : ¬b.Before a := by
  rcases h with h | ⟨h, h'⟩
  · rintro (hb | ⟨hb, -⟩)
    · exact absurd h hb.asymm
    · rw [hb] at h
      exact lt_irrefl _ h
  · rintro (hb | ⟨-, hb⟩)
    · rw [h] at hb
      exact lt_irrefl _ hb
    · exact absurd h' hb.asymm

theorem ArtifactDependency.Before.trans {a b c : ArtifactDependency} (h : a.Before b) (h' : b.Before c) : a.Before c := by
  rcases h with h | ⟨h, hid⟩
  · rcases h' with h' | ⟨h', -⟩
    · exact .inl (h.trans h')
    · exact .inl (h' ▸ h)
  · rcases h' with h' | ⟨h', hid'⟩
    · exact .inl (h ▸ h')
    · exact .inr ⟨h.trans h', hid.trans hid'⟩

theorem pairwise_of_chain {α σ : Type} {R : σ → α → σ → Prop} {lt : α → α → Prop} (above : σ → α → Prop)
    (hs : ∀ s a s', R s a s' → above s a ∧ ∀ b, above s' b → lt a b ∧ above s b) (l : List α) :
    ∀ s s', Chain R s l s' → (∀ a ∈ l, above s a) ∧ l.Pairwise lt := by
  induction l with
  | nil => exact fun _ _ _ => ⟨fun _ h => absurd h List.not_mem_nil, .nil⟩
  | cons a l ih =>
    rintro s s' ⟨mid, ha, hl⟩
    obtain ⟨ho, hlt⟩ := ih mid s' hl
    obtain ⟨hh, ht⟩ := hs s a mid ha
    refine ⟨List.forall_mem_cons.mpr ⟨hh, fun b hb => (ht b (ho b hb)).2⟩, ?_⟩
    exact .cons (fun b hb => (ht b (ho b hb)).1) hlt

theorem dependencies_sorted {l : List ArtifactDependency} {last : Option ArtifactDependency}
    (h : Chain (DependencyFits limits) none l last) : l.Pairwise ArtifactDependency.Before := by
  refine (pairwise_of_chain (fun s b => ∀ p ∈ s, p.Before b) ?_ l none last h).2
  rintro s a s' ⟨-, he, -, rfl⟩
  refine ⟨he, fun b hb => ⟨hb a rfl, fun p hp => ?_⟩⟩
  exact (he p hp).trans (hb a rfl)

variable {u : LinkUnit}

theorem fromModule_ok {path : Text} {m : Module} {l : List ArtifactDependency}
    (hl : l.Pairwise ArtifactDependency.Before) (h : LinkUnit.fromModule pkg host.digest path m l = .ok u) :
    u.path = path ∧ u.module = m ∧ u.dependencies = l ∧ u.bundleDigest = host.digest := by
  obtain ⟨_, -, h⟩ := bind_eq_ok h
  obtain ⟨l', hs, hm⟩ := bind_eq_ok h
  have hl' : l' = l := by
    unfold canonicalizeDependencies at hs
    split at hs
    · cases hs
    · dsimp only at hs
      split at hs
      · cases hs
      · rw [← Except.ok.inj hs]
        apply List.mergeSort_of_pairwise
        exact hl.imp fun hab => by simpa using hab.asymm
  subst hl'
  split at hm
  · cases hm
  · cases hm
    exact ⟨rfl, rfl, rfl, rfl⟩

def UnitRead (host : Host δ ι) (pkg : Package υ γ) (limits : ArtifactLimits) (previous : Option Hash × ℕ) (u : LinkUnit)
    (next : Option Hash × ℕ) : Prop :=
  u.Fits host pkg limits ∧ (∀ p ∈ previous.1, idOrder p < idOrder u.id) ∧ next.1 = some u.id ∧
    previous.2 + (encode host.digest u.module).length ≤ next.2 ∧ next.2 ≤ limits.maxCodeBytes

theorem reads_unit (previous : Option Hash × ℕ) : Reads (lenient = true)
    (decodeUnit host pkg limits lenient previous : ArtifactCursor δ υ γ _) []
    (fun x => encodeUnit x.1 (encode host.digest x.1.module)) (fun x => UnitRead host pkg limits previous x.1 x.2) := by
  refine (codes_takeVector 32).reads.bind fun stored _ => Reads.ensure fun hb => codes_pathText.reads.bind fun path hh =>
    reads_countOf.bind fun count hn => (Codes.timesFrom codes_dependency count none).reads.bind fun deps he =>
    (reads_payload previous.2).bind fun payload ha => Reads.ofExcept fun u hu => Reads.ensure fun hid => ?_
  obtain ⟨rfl, hc⟩ := he
  obtain ⟨ho, hs, ht, hd, hr⟩ := ha
  obtain ⟨rfl, hm, hl, hi⟩ := fromModule_ok (dependencies_sorted hc) hu
  obtain rfl : u.id = stored := of_decide_eq_true hid
  rw [← hm] at ho hs ht hd
  refine Reads.pure ⟨⟨hh, ?_, ⟨deps.2, ?_⟩, ho, ⟨hs, ht⟩, ?_⟩, ?_, rfl, hd, hr⟩ ?_
  · rw [hl]
    exact hn
  · rw [hl]
    exact hc
  · rw [hm, hl]
    exact hu
  · intro p hp
    rw [mem_def.mp hp] at hb
    exact of_decide_eq_true hb
  · dsimp only
    rw [encodeUnit, hl, hm, writeTable, ← List.append_assoc]
    rfl

variable {l : List LinkUnit}

theorem units_of_read : ∀ {s s' t : Option Hash × ℕ}, Chain (UnitRead host pkg limits) s l s' →
    t.1 = s.1 → t.2 ≤ s.2 → ∃ t', Chain (UnitFits host pkg limits) t l t' := by
  induction l with
  | nil => exact fun {_ _ t} _ _ _ => ⟨t, rfl⟩
  | cons u l ih =>
    rintro s s' t ⟨mid, ⟨hf, hb, hn, hc, hr⟩, hl⟩ hid hle
    obtain ⟨t', ht'⟩ := ih (t := (some u.id, t.2 + (encode host.digest u.module).length)) hl hn.symm (by
      dsimp only
      omega)
    refine ⟨t', _, ⟨hf, ?_, rfl, rfl, ?_⟩, ht'⟩
    · rw [hid]
      exact hb
    · dsimp only
      omega

theorem reads_units : Reads (lenient = true) (unitsReader host pkg limits lenient : ArtifactCursor δ υ γ _) []
    (fun x => encodeUnits host.digest { root := x.1, units := x.2 })
    (fun x => (x.2.length < 2 ^ 32 ∧ x.2.length ≤ limits.maxUnits) ∧
      ∃ last, Chain (UnitFits host pkg limits) (none, 0) x.2 last) := by
  refine (codes_take 4).reads.bind fun found _ => Reads.ensure fun hm => ?_
  obtain rfl : found = artifactMagic := of_decide_eq_true hm
  refine (codes_uint 2).reads.bind fun found _ => Reads.ensure fun hv => ?_
  obtain rfl : found = formatVersion := of_decide_eq_true hv
  refine (codes_takeVector 32).reads.bind fun found _ => Reads.ensure fun hd => ?_
  obtain rfl : found = host.digest := of_decide_eq_true hd
  refine (codes_takeVector 32).reads.bind fun root _ => reads_countOf.bind fun count hc =>
    (Reads.timesFrom (w := fun u => encodeUnit u (encode host.digest u.module)) (R := UnitRead host pkg limits)
      reads_unit count (none, 0)).bind fun units hu => ?_
  obtain ⟨rfl, hh⟩ := hu
  exact Reads.pure ⟨hc, units_of_read hh rfl (le_refl _)⟩ (List.append_assoc _ _ _).symm

theorem units_sorted {last : Option Hash × ℕ} (h : Chain (UnitFits host pkg limits) (none, 0) l last) :
    l.Pairwise (fun a b => idOrder a.id < idOrder b.id) := by
  refine (pairwise_of_chain (fun s (b : LinkUnit) => ∀ p ∈ s.1, idOrder p < idOrder b.id) ?_ l _ last h).2
  rintro s a ⟨_, _⟩ ⟨-, he, rfl, -⟩
  exact ⟨he, fun b hb => ⟨hb a.id rfl, fun p hp => (he p hp).trans (hb a.id rfl)⟩⟩

variable {a : Artifact}

theorem fromUnits_ok {root : Hash} (hl : l.Pairwise fun a b => idOrder a.id < idOrder b.id)
    (h : Artifact.fromUnits pkg root l = .ok a) : a = { root, units := l } := by
  have hs : l.mergeSort (fun a b => !decide (idOrder b.id < idOrder a.id)) = l := by
    apply List.mergeSort_of_pairwise
    exact hl.imp fun hab => by simpa using le_of_lt hab
  unfold Artifact.fromUnits at h
  dsimp only at h
  rw [hs] at h
  split at h
  · cases h
  · split at h
    · cases h
    · split at h
      · cases h
      · exact (Except.ok.inj h).symm

theorem decodeArtifactWith_ok {bs : Bytes} (h : decodeArtifactWith host pkg limits lenient bs = .ok a) :
    a.Fits host pkg limits ∧ Spells (lenient = true) (encodeUnits host.digest a) bs := by
  unfold decodeArtifactWith at h
  split at h
  · cases h
  · next hb =>
    split at h
    · cases h
    · next root units hr =>
      split at h
      · cases h
      · next made hm =>
        obtain rfl := Except.ok.inj h
        obtain ⟨⟨ho, last, hc⟩, hs⟩ := reads_units.whole hr
        have ha := fromUnits_ok (units_sorted hc) hm
        subst ha
        exact ⟨⟨ho, ⟨last, hc⟩, hm, hs.1.trans (not_lt.mp hb)⟩, hs⟩

theorem run_countOf {most least count : ℕ} {name : String} {rest : Bytes} (hlt : count < 2 ^ 32) (hm : count ≤ most)
    (hp : 0 < least) (hr : count * least ≤ rest.length) :
    (countOf most least name : ArtifactCursor δ υ γ ℕ).run (leBytes 4 count ++ rest) = .ok (count, rest) := by
  rw [countOf, (codes_uint 4).inverts.bind hlt, ensure_bind (decide_eq_true hm), bind_ok (run_remaining _),
    ensure_bind (decide_eq_true ((Nat.le_div_iff_mul_le hp).mpr hr))]
  rfl

theorem run_decodePayload (code : ℕ) (m : Module) (rest : Bytes) (h : m.Fits host)
    (hs : (encode host.digest m).length < 2 ^ 32) (hm : (encode host.digest m).length ≤ limits.maxModuleBytes)
    (hc : code + (encode host.digest m).length ≤ limits.maxCodeBytes) :
    (decodePayload host limits lenient code : ArtifactCursor δ υ γ _).run (writeBytes (encode host.digest m) ++ rest) =
      .ok ((m, code + (encode host.digest m).length), rest) := by
  rw [writeBytes, List.append_assoc, decodePayload, bind_ok (run_length.mpr ⟨hs, by simp, rfl⟩),
    ensure_bind (decide_eq_true hm), ensure_bind (decide_eq_true hc)]
  refine ((codes_take _).inverts.bind (a := encode host.digest m) rfl rest).trans ?_
  rw [decodeWith_encode h]
  rfl

theorem minDependencyBytes_le {previous next : Option ArtifactDependency}
    (h : DependencyFits limits previous d next) : minDependencyBytes ≤ (encodeDependency d).length := by
  obtain ⟨-, -, hv, -⟩ := h
  have hne : d.path.bytes ≠ [] := by
    intro hn
    rw [validModulePath, hn] at hv
    cases hv
  have hp := List.length_pos_iff.mpr hne
  simp only [encodeDependency, writeText, List.length_append, length_writeBytes, Vector.length_toList, minDependencyBytes]
  omega

theorem chain_mem {α σ : Type} {R : σ → α → σ → Prop} {l : List α} : ∀ {s s' : σ}, Chain R s l s' → ∀ a ∈ l,
    ∃ t t', R t a t' := by
  induction l with
  | nil => exact fun _ a ha => absurd ha List.not_mem_nil
  | cons b l ih =>
    rintro s s' ⟨mid, hb, hl⟩ a ha
    rcases List.mem_cons.mp ha with rfl | ha
    · exact ⟨s, mid, hb⟩
    · exact ih hl a ha

theorem inverts_unit (previous : Option Hash × ℕ) : Inverts
    (decodeUnit host pkg limits lenient previous : ArtifactCursor δ υ γ _)
    (fun x => encodeUnit x.1 (encode host.digest x.1.module)) id (fun x => UnitFits host pkg limits previous x.1 x.2) := by
  rintro ⟨u, next⟩ rest h
  obtain ⟨hf, hb, hid, ho, hr⟩ : UnitFits host pkg limits previous u next := h
  obtain ⟨last, hc⟩ := hf.dependencies
  have hok : previous.1.all (fun p => decide (idOrder p < idOrder u.id)) = true := by
    cases hp : previous.1 with
    | none => rfl
    | some p => exact decide_eq_true (hb p hp)
  have hl : u.dependencies.length * minDependencyBytes ≤ (u.dependencies.flatMap encodeDependency).length := by
    apply mul_le_length_flatMap
    intro d hd
    obtain ⟨t, t', ht⟩ := chain_mem hc d hd
    exact minDependencyBytes_le ht
  have hu : ∀ rest, (countOf limits.maxDependenciesPerUnit minDependencyBytes "direct dependency" :
      ArtifactCursor δ υ γ ℕ).run (leBytes 4 u.dependencies.length ++ (u.dependencies.flatMap encodeDependency ++ rest)) =
      .ok (u.dependencies.length, u.dependencies.flatMap encodeDependency ++ rest) := by
    intro rest
    apply run_countOf hf.count.1 hf.count.2 (by decide)
    rw [List.length_append]
    omega
  simp only [encodeUnit, writeTable, List.append_assoc]
  rw [decodeUnit, id32, (codes_takeVector 32).inverts.bind trivial, ensure_bind hok,
    codes_pathText.inverts.bind hf.path, bind_ok (hu _)]
  refine ((Codes.timesFrom codes_dependency _ none).inverts.bind (a := (u.dependencies, last)) ⟨rfl, hc⟩ _).trans ?_
  rw [bind_ok (run_decodePayload _ _ _ hf.module hf.size.1 hf.size.2 (by omega))]
  dsimp only
  rw [hf.made]
  refine (ensure_bind (decide_eq_true rfl)).trans ?_
  obtain ⟨next1, next2⟩ := next
  dsimp only at hid ho
  subst hid ho
  rfl

theorem minUnitBytes_le (digest : Hash) (u : LinkUnit) : minUnitBytes ≤ (encodeUnit u (encode digest u.module)).length := by
  simp only [encodeUnit, List.length_append, length_writeTable, length_writeBytes, Vector.length_toList, encode,
    encodeContainer, length_encodeHeader, minUnitBytes, headerLen]
  omega

theorem run_unitsReader (h : a.Fits host pkg limits) (rest : Bytes) :
    (unitsReader host pkg limits lenient : ArtifactCursor δ υ γ _).run (encodeUnits host.digest a ++ rest) =
      .ok ((a.root, a.units), rest) := by
  obtain ⟨last, hc⟩ := h.units
  have ho : (countOf limits.maxUnits minUnitBytes "unit" : ArtifactCursor δ υ γ ℕ).run
      (leBytes 4 a.units.length ++ (a.units.flatMap (fun u => encodeUnit u (encode host.digest u.module)) ++ rest)) =
      .ok (a.units.length, a.units.flatMap (fun u => encodeUnit u (encode host.digest u.module)) ++ rest) := by
    have hl := mul_le_length_flatMap fun u (_ : u ∈ a.units) => minUnitBytes_le host.digest u
    apply run_countOf h.count.1 h.count.2 (by decide)
    rw [List.length_append]
    omega
  simp only [encodeUnits, writeTable, List.append_assoc]
  refine ((codes_take 4).inverts.bind (a := artifactMagic) rfl _).trans ?_
  rw [ensure_bind (decide_eq_true rfl), (codes_uint 2).inverts.bind (by decide), ensure_bind (decide_eq_true rfl), id32,
    (codes_takeVector 32).inverts.bind trivial, ensure_bind (decide_eq_true rfl),
    (codes_takeVector 32).inverts.bind trivial, bind_ok ho]
  exact (Inverts.timesFrom inverts_unit _ (none, 0)).bind (a := (a.units, last)) ⟨rfl, hc⟩ rest

theorem decodeArtifactWith_encode (h : a.Fits host pkg limits) :
    decodeArtifactWith host pkg limits lenient (encodeUnits host.digest a) = .ok a := by
  have hr : (unitsReader host pkg limits lenient).run (encodeUnits host.digest a ++ []) = .ok ((a.root, a.units), []) :=
    run_unitsReader h []
  rw [List.append_nil] at hr
  rw [decodeArtifactWith, if_neg (Nat.not_lt.mpr h.bytes), whole, hr]
  dsimp only
  rw [h.made]

theorem LinkUnit.Fits.bundleDigest_eq (h : u.Fits host pkg limits) : u.bundleDigest = host.digest := by
  obtain ⟨last, hc⟩ := h.dependencies
  exact (fromModule_ok (dependencies_sorted hc) h.made).2.2.2

theorem LinkUnit.Fits.isWritable (h : u.Fits host pkg limits) : u.writable host.digest = true := by
  obtain ⟨last, hc⟩ := h.dependencies
  apply decide_eq_true
  refine ⟨h.path.1, h.count.1, fun d hd => ?_, h.size.1⟩
  obtain ⟨_, _, ht⟩ := chain_mem hc d hd
  exact ht.1.1

theorem Artifact.Fits.encodeArtifact_eq (h : a.Fits host pkg limits) :
    encodeArtifact host.digest a = .ok (encodeUnits host.digest a) := by
  obtain ⟨last, hc⟩ := h.units
  have hn : ∀ u ∈ a.units, u.Fits host pkg limits := by
    intro u hu
    obtain ⟨_, _, ht⟩ := chain_mem hc u hu
    exact ht.1
  have hf : a.units.find? (fun u => u.bundleDigest ≠ host.digest) = none := by
    simp only [List.find?_eq_none, decide_eq_true_eq, not_not]
    exact fun u hu => (hn u hu).bundleDigest_eq
  have ha : a.units.all (LinkUnit.writable host.digest) = true :=
    List.all_eq_true.mpr fun u hu => (hn u hu).isWritable
  rw [encodeArtifact, hf, if_pos ⟨h.count.1, ha⟩]

end

end LoomV4.Bytecode
