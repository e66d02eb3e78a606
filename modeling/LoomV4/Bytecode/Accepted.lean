import LoomV4.Bytecode.Decode

namespace LoomV4.Bytecode

open Lib Lib.Reader Nat

section

variable {δ ι : Type} (host : Host δ ι) {α : Type}

def Host.Table (e : Elem) (good : α → Prop) (l : List α) : Prop :=
  l.length < 2 ^ 32 ∧ host.vec e l.length = none ∧ ∀ a ∈ l, good a

abbrev Host.Plain (e : Elem) (l : List α) : Prop := host.Table e (fun _ => True) l

def Host.Markers (n : ℕ) (l : List Bool) : Prop := l.length = n ∧ host.Plain .flag l

def Host.Rows (l : List (List BcRow)) : Prop := host.Table .rows (host.Plain .row) l

def Text.Fits (t : Text) : Prop := t.bytes.length < 2 ^ 32

def TypeApp.Fits (a : TypeApp) : Prop := host.Plain .index a.types ∧ host.Rows a.rows

def BcInterfaceUse.Fits (u : BcInterfaceUse) : Prop := host.Plain .index u.types ∧ host.Rows u.rows

def Host.Bounds (l : List BcInterfaceUse) : Prop := host.Table .interfaceUse (BcInterfaceUse.Fits host) l

def Host.TypeBounds (l : TypeBounds) : Prop := host.Table .bounds host.Bounds l

def Host.Signature (params : List Index) (muts : List Bool) (row : List BcRow) : Prop :=
  host.Plain .index params ∧ host.Markers params.length muts ∧ host.Plain .row row

def BcType.Fits : BcType → Prop
  | .inst _ args => host.Plain .index args
  | .tuple elems => host.Plain .index elems
  | .fn params muts _ row | .callback params muts _ row => host.Signature params muts row
  | _ => True

def Operand.Holds : Operand → ℕ → Prop
  | .truth, v | .flag, v => v < 2
  | .numeric, v => v < 80
  | .reflectionKind, v => v < 6
  | .word, v => v < 2 ^ 64
  | .pattern, v => v < 2 ^ 29
  | _, v => v < 2 ^ 32

def Instr.Fits (i : Instr) : Prop :=
  List.Forall₂ Operand.Holds i.op.operands (i.op.unpack i.args) ∧ i.op.pack (i.op.unpack i.args) = some i.args

def BcAssociated.Fits (a : BcAssociated) : Prop := a.name.Fits ∧ host.Bounds a.bounds

def BcTypePremise.Fits (p : BcTypePremise) : Prop := host.Bounds p.bounds

def BcInterfaceMethod.Fits (m : BcInterfaceMethod) : Prop :=
  host.TypeBounds m.typeBounds ∧ host.Table .typePremise (BcTypePremise.Fits host) m.premises ∧
    host.Signature m.params m.paramMuts m.row

def BcInterface.Fits (i : BcInterface) : Prop :=
  host.Plain .flag i.genericIsEffect ∧ host.Bounds i.parents ∧ host.TypeBounds i.typeBounds ∧
    host.Table .associated (BcAssociated.Fits host) i.associated ∧
    host.Table .method (BcInterfaceMethod.Fits host) i.methods

def BcConformancePremise.Fits (p : BcConformancePremise) : Prop := host.Bounds p.bounds

def BcConformance.Fits (c : BcConformance) : Prop :=
  c.application.Fits host ∧ host.Table .conformancePremise (BcConformancePremise.Fits host) c.premises ∧
    host.Plain .index c.associated ∧ host.Plain .flag c.methodOverrides

def Import.Fits (i : Import) : Prop := i.module.Fits ∧ i.name.Fits

def BcCallableContract.Fits (c : BcCallableContract) : Prop :=
  host.TypeBounds c.typeBounds ∧ host.Signature c.params c.paramMuts c.row

def SlotContract.Fits : SlotContract → Prop
  | .function callable | .method callable | .class _ _ _ callable => callable.Fits host
  | _ => True

def SlotSpec.Fits (s : SlotSpec) : Prop := s.contract.Fits host

def BcClass.Fits (c : BcClass) : Prop :=
  host.Plain .index c.parentArgs ∧ host.Table .field (fun f => f.1.Fits) c.fields ∧ host.Plain .methodEntry c.methods

def ReflectionModule.Fits (r : ReflectionModule) : Prop := r.name.Fits

def Func.Fits (f : Func) : Prop :=
  host.Signature f.params f.paramMuts f.row ∧ host.Plain .index f.captures ∧ host.Plain .index f.localTypes ∧
    host.Table .block (host.Table .instr Instr.Fits) f.blocks

def BcInterfaceMethod.blank (m : BcInterfaceMethod) : BcInterfaceMethod := { m with paramNames := [] }

def BcInterface.blank (i : BcInterface) : BcInterface :=
  { i with name := .empty, key := .empty, methods := i.methods.map BcInterfaceMethod.blank }

def BcClass.blank (c : BcClass) : BcClass :=
  { c with name := .empty, key := .empty, fieldDefaults := [], ownStart := 0, hasInit := false }

def Func.blank (f : Func) : Func := { f with name := .empty, paramNames := [] }

def SlotSpec.blank (s : SlotSpec) : SlotSpec := { s with binding := .empty, late := false }

variable {host} {loose : Prop} {w : α → Bytes} {good : α → Prop} {p : Cursor δ α} {least : ℕ} {e : Elem}
  {mismatch : DecodeError δ} {lenient : Bool}

theorem reads_tableOf (hp : Reads loose p [] w good) :
    Reads loose (tableOf host e least p) [] (writeTable w) (host.Table e good) := hp.table

theorem inverts_tableOf (hp : Inverts p w id good) (ho : 0 < least) (hw : ∀ a, least ≤ (w a).length) :
    Inverts (tableOf host e least p) (writeTable w) id (host.Table e good) := hp.table ho fun a _ => hw a

theorem codes_tableOf (hp : Codes p w good) (ho : 0 < least) (hw : ∀ a, least ≤ (w a).length) :
    Codes (tableOf host e least p) (writeTable w) (host.Table e good) := hp.table ho fun a _ => hw a

theorem vecOf_eq_none {n count : ℕ} :
    host.vecOf e n mismatch count = none ↔ count = n ∧ host.vec e count = none := by
  unfold Host.vecOf
  split <;> simp [*]

theorem codes_tableOfSize {n : ℕ} (hp : Codes p w good) (ho : 0 < least) (hw : ∀ a, least ≤ (w a).length) :
    Codes (table .truncated .badLength least (host.vecOf e n mismatch) p) (writeTable w)
      (fun l => l.length = n ∧ host.Table e good l) := by
  intro bs l rest
  simp only [hp.table ho fun a _ => hw a, vecOf_eq_none, Host.Table]
  tauto

@[simp] theorem length_writeFlag (b : Bool) : (writeFlag b).length = 1 := rfl

@[simp] theorem length_writeU32 (v : Index) : (writeU32 v).length = 4 := length_leBytes 4 _

@[simp] theorem length_writeTable (l : List α) : (writeTable w l).length = 4 + (l.flatMap w).length := by
  rw [writeTable, List.length_append, length_leBytes]

@[simp] theorem length_writeBytes (bs : Bytes) : (writeBytes bs).length = 4 + bs.length := by
  rw [writeBytes, List.length_append, length_leBytes]

@[simp] theorem codes_tag : Codes (tag : Cursor δ ℕ) pushTag (fun n => n < 256) := codes_uint 1

@[simp] theorem tag_bind {k : ℕ → Cursor δ α} {n : ℕ} {rest : Bytes} (h : n < 256) :
    (tag >>= k).run (pushTag n ++ rest) = (k n).run rest := codes_tag.inverts.bind h rest

@[simp] theorem codes_index : Codes (index : Cursor δ Index) writeU32 (fun _ => True) := codes_u32

@[simp] theorem codes_hash : Codes (hash : Cursor δ Hash) Vector.toList (fun _ => True) := codes_takeVector 32

@[simp] theorem codes_flag : Codes (flag : Cursor δ Bool) writeFlag (fun _ => True) := by
  refine .of_laws (codes_byte.reads.bind fun b _ => ?_) fun b rest _ => by cases b <;> rfl
  split
  · exact Reads.pure trivial rfl
  · exact Reads.pure trivial rfl
  · exact Reads.fail

@[simp] theorem codes_blob : Codes (blob : Cursor δ Bytes) writeBytes (fun bs => bs.length < 2 ^ 32) := by
  intro bs v rest
  simp [blob, writeBytes]

@[simp] theorem codes_string : Codes (string : Cursor δ Text) writeText Text.Fits := by
  refine .of_laws (codes_blob.reads.bind fun bs hbs => ?_) fun t rest ht => ?_
  · split
    · exact Reads.pure hbs rfl
    · exact Reads.fail
  · refine (codes_blob.inverts.bind ht rest).trans ?_
    rw [dif_pos t.valid]
    rfl

@[simp] theorem codes_indices (hp : 0 < least) (hle : least ≤ 4) :
    Codes (indices host least) writeIndices (host.Plain .index) := codes_tableOf codes_index hp fun _ => by simpa using hle

@[simp] theorem codes_flags : Codes (flags host) writeMarkers (host.Plain .flag) :=
  codes_tableOf codes_flag one_pos fun _ => le_refl 1

@[simp] theorem codes_markers (n : ℕ) : Codes (markers host n) writeMarkers (host.Markers n) :=
  codes_tableOfSize codes_flag one_pos fun _ => le_refl 1

theorem codes_rowElem : Codes (decodeRowElem : Cursor δ BcRow) encodeRowElem (fun _ => True) := by
  refine .of_laws (codes_tag.reads.bind fun tag _ => ?_) fun row rest _ => ?_
  · unfold decodeRowElemBody
    split
    · exact codes_index.reads.bind fun _ _ => Reads.pure trivial rfl
    · exact codes_index.reads.bind fun _ _ => Reads.pure trivial rfl
    · exact codes_index.reads.bind fun _ _ => Reads.pure trivial rfl
    · exact Reads.fail
  · cases row <;> simp [encodeRowElem, decodeRowElem, decodeRowElemBody]

@[simp] theorem codes_row : Codes (decodeRow host) encodeRow (host.Plain .row) :=
  codes_tableOf codes_rowElem one_pos fun row => by cases row <;> simp [encodeRowElem]

@[simp] theorem codes_rows : Codes (decodeRows host) (writeTable encodeRow) host.Rows :=
  codes_tableOf codes_row one_pos fun row => by simp [encodeRow]; omega

theorem codes_typeApp : Codes (decodeTypeApp host) encodeTypeApp (TypeApp.Fits host) := by
  rintro bs ⟨⟩ rest
  simp [decodeTypeApp, encodeTypeApp, TypeApp.Fits]
  tauto

theorem codes_interfaceUse : Codes (decodeInterfaceUse host) encodeInterfaceUse (BcInterfaceUse.Fits host) := by
  rintro bs ⟨⟩ rest
  simp [decodeInterfaceUse, encodeInterfaceUse, BcInterfaceUse.Fits]
  tauto

@[simp] theorem codes_bounds (hp : 0 < least) (hle : least ≤ 12) :
    Codes (decodeBounds host least) encodeBounds host.Bounds := codes_tableOf codes_interfaceUse hp fun u => by
  simp [encodeInterfaceUse, writeIndices]
  omega

@[simp] theorem codes_typeBounds : Codes (decodeTypeBounds host) encodeTypeBounds host.TypeBounds :=
  codes_tableOf (codes_bounds one_pos (by decide)) one_pos fun l => by simp [encodeBounds]; omega

theorem codes_signature : Codes (decodeSignature host) encodeSignature
    (fun s => host.Signature s.1 s.2.1 s.2.2.2) := by
  rintro bs ⟨params, muts, ret, row⟩ rest
  simp [decodeSignature, encodeSignature, Host.Signature]
  tauto

theorem reads_type : Reads loose (decodeType host) [] encodeType (BcType.Fits host) := by
  refine codes_tag.reads.bind fun tag _ => ?_
  unfold decodeTypeBody
  split
  all_goals first
    | exact Reads.pure trivial rfl
    | exact codes_index.reads.bind fun _ _ => Reads.pure trivial rfl
    | exact codes_index.reads.bind fun _ _ => codes_index.reads.bind fun _ _ => Reads.pure trivial rfl
    | exact codes_index.reads.bind fun _ _ => codes_index.reads.bind fun _ _ =>
        codes_index.reads.bind fun _ _ => Reads.pure trivial rfl
    | exact (codes_indices one_pos (by decide)).reads.bind fun _ h => Reads.pure h rfl
    | exact codes_index.reads.bind fun _ _ => (codes_indices one_pos (by decide)).reads.bind fun _ h => Reads.pure h rfl
    | exact codes_signature.reads.bind fun _ h => Reads.pure h rfl
    | exact Reads.fail

theorem codes_type : Codes (decodeType host) encodeType (BcType.Fits host) := by
  refine .of_laws reads_type fun ty rest hty => ?_
  cases ty with
  | inst c args | tuple elems =>
    have hargs : host.Plain .index _ := hty
    simp [encodeType, decodeType, decodeTypeBody, hargs]
  | fn params muts ret row | callback params muts ret row =>
    simp [encodeType, decodeType, decodeTypeBody, codes_signature.inverts.bind (a := (params, muts, ret, row)) hty]
  | _ => simp [encodeType, decodeType, decodeTypeBody]

theorem codes_below {n k : ℕ} {e : DecodeError δ} (hk : k ≤ 256 ^ n) : Codes (do
      let v ← uint .truncated n
      ensure (v < k) e
      pure v) (leBytes n) (fun v => v < k) := by
  intro bs v rest
  have hv : v < k → v < 256 ^ n := fun h => h.trans_le hk
  simp
  tauto

theorem reads_optionalIndex : Reads (lenient = true) (decodeOptionalIndex lenient : Cursor δ ℕ) [] encodeOptionalIndex
    (fun v => v < 2 ^ 32) := by
  refine codes_flag.reads.bind fun present _ => ?_
  cases present with
  | true =>
    refine (codes_uint 4).reads.bind fun v hv => Reads.ensure fun hok => ?_
    -- A lenient reader may have read the sentinel, which the writer spells in another way.
    intro bs v' rest h
    cases h
    refine ⟨hv, [], rfl, ?_⟩
    unfold encodeOptionalIndex
    split
    · next hno =>
      cases lenient with
      | true => exact ⟨by simp [writeFlag], .inl rfl⟩
      | false => exact absurd hno (by simpa using hok)
    · exact .of_eq (by simp [writeFlag])
  | false => exact Reads.pure (by decide) rfl

theorem inverts_optionalIndex : Inverts (decodeOptionalIndex lenient : Cursor δ ℕ) encodeOptionalIndex id
    (fun v => v < 2 ^ 32) := by
  intro v rest hv
  unfold encodeOptionalIndex
  split
  · next hno =>
    rw [hno]
    rfl
  · next hne =>
    refine (codes_flag.inverts.bind (a := true) trivial (leBytes 4 v ++ rest)).trans ?_
    rw [if_pos rfl, (codes_uint 4).inverts.bind hv, ensure_bind (by simp [hne])]
    rfl

theorem eq_zero_or_one {v : ℕ} (hv : v < 2) : v = 0 ∨ v = 1 := le_one_iff_eq_zero_or_eq_one.mp (le_of_lt_succ hv)

theorem reads_truth : Reads (lenient = true) (Operand.truth.read lenient : Cursor δ ℕ) [] Operand.truth.write
    (fun v => v < 2) := by
  refine codes_byte.reads.bind fun b _ => Reads.ensure fun hok => ?_
  intro bs v rest h
  cases h
  refine ⟨by split <;> decide, [], rfl, ?_⟩
  cases lenient with
  | true => exact ⟨le_refl 1, .inl rfl⟩
  | false =>
    have hle : b ≤ 1 := by simpa using hok
    have hb : b = 0 ∨ b = 1 := by
      rw [UInt8.le_iff_toNat_le] at hle
      rw [← UInt8.toNat_inj, ← UInt8.toNat_inj]
      exact le_one_iff_eq_zero_or_eq_one.mp hle
    rcases hb with rfl | rfl <;> exact .of_eq rfl

theorem inverts_truth : Inverts (Operand.truth.read lenient : Cursor δ ℕ) Operand.truth.write id (fun v => v < 2) := by
  intro v rest hv
  rcases eq_zero_or_one hv with rfl | rfl
  · refine (bind_ok rfl).trans ?_
    rw [ensure_bind (by simp)]
    rfl
  · refine (bind_ok rfl).trans ?_
    rw [ensure_bind (by simp)]
    rfl

theorem operand_laws (o : Operand) : Reads (lenient = true) (o.read lenient : Cursor δ ℕ) [] o.write o.Holds ∧
    Inverts (o.read lenient : Cursor δ ℕ) o.write id o.Holds := by
  cases o with
  | truth => exact ⟨reads_truth, inverts_truth⟩
  | flag =>
    refine ⟨codes_flag.reads.bind fun b _ => Reads.pure b.toNat_lt (by cases b <;> rfl), fun v rest hv => ?_⟩
    rcases eq_zero_or_one hv with rfl | rfl
    · exact codes_flag.inverts.bind (a := false) trivial rest
    · exact codes_flag.inverts.bind (a := true) trivial rest
  | numeric => exact (codes_below (by decide)).laws
  | reflectionKind => exact (codes_below (by decide)).laws
  | word => exact (codes_uint 8).laws
  | pattern => exact (codes_below (by decide)).laws
  | optApp => exact ⟨reads_optionalIndex, inverts_optionalIndex⟩
  | half => exact (codes_uint 4).laws
  | site => exact (codes_uint 4).laws
  | number => exact (codes_uint 4).laws
  | index t => exact (codes_uint 4).laws

theorem inverts_operands (l : List Operand) (vs : List ℕ) (rest : Bytes) (h : List.Forall₂ Operand.Holds l vs) :
    (each (Operand.read lenient) l : Cursor δ (List ℕ)).run ((List.zipWith Operand.write l vs).flatten ++ rest) =
      .ok (vs, rest) := by
  induction h with
  | nil => rfl
  | @cons o v l vs ho _ ih =>
    rw [List.zipWith_cons_cons, List.flatten_cons, List.append_assoc, each, (operand_laws o).2.bind ho, bind_ok ih]
    rfl

theorem codes_op : Codes (decodeOp : Cursor δ Op) (fun op => op.code.bytes) (fun _ => True) := by
  refine .of_laws (codes_byte.reads.bind fun b _ => ?_) fun op rest _ => ?_
  · split
    · next hb =>
      subst hb
      refine codes_byte.reads.bind fun sub _ => ?_
      split
      · next op hop => exact Reads.pure trivial (by rw [code_op hop]; rfl)
      · exact Reads.fail
    · split
      · next op hop => exact Reads.pure trivial (by rw [code_op hop]; rfl)
      · exact Reads.fail
  · obtain ⟨hne, hop⟩ := op_code op
    cases hc : op.code with
    | main b =>
      rw [hc] at hne hop
      have hb : b ≠ opExtension := fun h => hne (by rw [h])
      refine (codes_byte.inverts.bind (a := b) trivial rest).trans ?_
      rw [if_neg hb, hop]
      rfl
    | extension b =>
      rw [hc] at hop
      refine (codes_byte.inverts.bind (a := opExtension) trivial (b :: rest)).trans ?_
      rw [if_pos rfl]
      refine (codes_byte.inverts.bind (a := b) trivial rest).trans ?_
      rw [hop]
      rfl

theorem unpack_pack {op : Op} {wire args : List ℕ} (hw : List.Forall₂ Operand.Holds op.operands wire)
    (h : op.pack wire = some args) : op.unpack args = wire := by
  unfold Op.pack at h
  split at h
  · next operation argc ty =>
    split at h
    · next hi =>
      obtain rfl := Option.some.inj h
      have hl : (operation + argc * 2 ^ 16) % 2 ^ 16 = operation := by omega
      have hh : (operation + argc * 2 ^ 16) / 2 ^ 16 = argc := by omega
      rw [Op.unpack, hl, hh]
    · cases h
  · next kind function target =>
    obtain rfl := Option.some.inj h
    simp only [Op.operands, List.forall₂_cons, Operand.Holds] at hw
    have hk : min ((kind * 2 ^ 29 + function) / 2 ^ 29) 5 = kind := by omega
    have hf : (kind * 2 ^ 29 + function) % 2 ^ 29 = function := by omega
    rw [Op.unpack, hk, hf]
  · next pattern types effects =>
    split at h
    · next hi =>
      obtain rfl := Option.some.inj h
      have hl : (types + effects * 2 ^ 16) % 2 ^ 16 = types := by omega
      have hh : (types + effects * 2 ^ 16) / 2 ^ 16 = effects := by omega
      rw [Op.unpack, hl, hh]
    · cases h
  · cases h
  · cases h
  · cases h
  · next h1 h2 h3 _ _ _ =>
    obtain rfl := Option.some.inj h
    unfold Op.unpack
    split
    · exact absurd rfl h1
    · exact absurd rfl h2
    · exact absurd rfl h3
    · rfl

theorem reads_instr : Reads (lenient = true) (decodeInstr lenient : Cursor δ Instr) [] encodeInstr Instr.Fits := by
  refine codes_op.reads.bind fun op _ => (Reads.each (fun o => (operand_laws o).1) op.operands).bind fun wire hw => ?_
  split
  · next args ha =>
    have hun := unpack_pack hw ha
    refine Reads.pure ⟨?_, ?_⟩ ?_
    · dsimp only
      rw [hun]
      exact hw
    · dsimp only
      rw [hun]
      exact ha
    · rw [encodeInstr]
      dsimp only
      rw [hun]
      rfl
  · exact Reads.fail

theorem inverts_instr : Inverts (decodeInstr lenient : Cursor δ Instr) encodeInstr id Instr.Fits := by
  rintro i rest ⟨hh, hp⟩
  rw [encodeInstr, List.append_assoc, decodeInstr, codes_op.inverts.bind trivial,
    bind_ok (inverts_operands _ _ _ hh), hp]
  rfl

theorem one_le_encodeInstr (i : Instr) : 1 ≤ (encodeInstr i).length := by
  have hc : 1 ≤ i.op.code.bytes.length := by cases i.op.code <;> simp [Code.bytes]
  rw [encodeInstr, List.length_append]
  omega

theorem table_fixed {f : α → α} {l : List α} :
    host.Table e (fun a => good a ∧ f a = a) l ↔ host.Table e good l ∧ l.map f = l := by
  have hm : l.map f = l ↔ ∀ a ∈ l, f a = a := by simpa using List.map_inj_left (f := f) (g := id) (l := l)
  simp only [Host.Table, hm, forall_and]
  tauto

theorem codes_associated : Codes (decodeAssociated host) encodeAssociated (BcAssociated.Fits host) := by
  rintro bs ⟨⟩ rest
  simp [decodeAssociated, encodeAssociated, BcAssociated.Fits]
  tauto

theorem codes_typePremise : Codes (decodeTypePremise host) encodeTypePremise (BcTypePremise.Fits host) := by
  rintro bs ⟨⟩ rest
  simp [decodeTypePremise, encodeTypePremise, BcTypePremise.Fits]
  tauto

theorem codes_method : Codes (decodeMethod host) encodeMethod (fun m => m.Fits host ∧ m.blank = m) := by
  have hp : ∀ t, 1 ≤ (encodeTypePremise t).length := fun t => by simp [encodeTypePremise]; omega
  rintro bs ⟨⟩ rest
  simp [decodeMethod, encodeMethod, codes_tableOf codes_typePremise one_pos hp, BcInterfaceMethod.Fits,
    BcInterfaceMethod.blank, Host.Signature, -Bool.exists_bool]
  tauto

theorem codes_interface : Codes (decodeInterface host) encodeInterface (fun i => i.Fits host ∧ i.blank = i) := by
  have ha : ∀ a, 1 ≤ (encodeAssociated a).length := fun a => by simp [encodeAssociated, writeText]; omega
  have hm : ∀ m, 1 ≤ (encodeMethod m).length := fun m => by simp [encodeMethod]; omega
  rintro bs ⟨⟩ rest
  simp [decodeInterface, encodeInterface, codes_tableOf codes_associated one_pos ha,
    codes_tableOf codes_method one_pos hm, table_fixed, BcInterface.Fits, BcInterface.blank]
  tauto

theorem codes_conformancePremise : Codes (decodeConformancePremise host) encodeConformancePremise
    (BcConformancePremise.Fits host) := by
  rintro bs ⟨⟩ rest
  simp [decodeConformancePremise, encodeConformancePremise, BcConformancePremise.Fits]
  tauto

theorem codes_conformance : Codes (decodeConformance host) encodeConformance (BcConformance.Fits host) := by
  have hp : ∀ t, 8 ≤ (encodeConformancePremise t).length := fun t => by
    simp [encodeConformancePremise, encodeBounds]
    omega
  rintro bs ⟨⟩ rest
  simp [decodeConformance, encodeConformance, codes_interfaceUse,
    codes_tableOf codes_conformancePremise (by decide : 0 < 8) hp, BcConformance.Fits]
  tauto

theorem codes_tagged {ofTag : UInt8 → Option α} {tag : α → UInt8} {bad : UInt8 → DecodeError δ}
    (h : ∀ b a, ofTag b = some a ↔ tag a = b) : Codes (tagged ofTag bad) (fun a => [tag a]) (fun _ => True) := by
  refine .of_laws (codes_byte.reads.bind fun b _ => ?_) fun a rest _ => ?_
  · split
    · next a ha => exact Reads.pure trivial (by rw [(h b a).mp ha]; rfl)
    · exact Reads.fail
  · refine (codes_byte.inverts.bind (a := tag a) trivial rest).trans ?_
    rw [(h _ a).mpr rfl]
    rfl

theorem ImportKind.ofTag_iff (b : UInt8) (k : ImportKind) : ofTag b = some k ↔ k.tag = b := by
  constructor
  · intro h
    unfold ofTag at h
    split at h <;> cases h <;> rfl
  · rintro rfl
    cases k <;> rfl

theorem BcClassKind.ofTag_iff (b : UInt8) (k : BcClassKind) : ofTag b = some k ↔ k.tag = b := by
  constructor
  · intro h
    unfold ofTag at h
    split at h <;> cases h <;> rfl
  · rintro rfl
    cases k <;> rfl

theorem ExportKind.ofTag_iff (b : UInt8) (k : ExportKind) : ofTag b = some k ↔ k.tag = b := by
  constructor
  · intro h
    unfold ofTag at h
    split at h <;> cases h <;> rfl
  · rintro rfl
    cases k <;> rfl

theorem codes_import : Codes (decodeImport : Cursor δ Import) encodeImport Import.Fits := by
  rintro bs ⟨⟩ rest
  simp [decodeImport, encodeImport, codes_tagged ImportKind.ofTag_iff, Import.Fits]
  tauto

@[simp] theorem codes_callableContract : Codes (decodeCallableContract host) encodeCallableContract
    (BcCallableContract.Fits host) := by
  rintro bs ⟨⟩ rest
  simp [decodeCallableContract, encodeCallableContract, BcCallableContract.Fits, Host.Signature]
  tauto

theorem codes_slotContract : Codes (decodeSlotContract host) encodeSlotContract (SlotContract.Fits host) := by
  refine .of_laws (codes_tag.reads.bind fun tag _ => ?_) fun c rest hc => ?_
  · unfold decodeSlotContractBody
    split
    · exact codes_callableContract.reads.bind fun _ h => Reads.pure h rfl
    · exact codes_callableContract.reads.bind fun _ h => Reads.pure h rfl
    · exact codes_index.reads.bind fun _ _ => codes_hash.reads.bind fun _ _ => codes_index.reads.bind fun _ _ =>
        codes_callableContract.reads.bind fun _ h => Reads.pure h rfl
    · exact codes_index.reads.bind fun _ _ => Reads.pure trivial rfl
    · exact codes_index.reads.bind fun _ _ => codes_index.reads.bind fun _ _ => Reads.pure trivial rfl
    · exact Reads.fail
  · cases c with
    | function callable | method callable | «class» typeParams abi ty callable =>
      have hc : callable.Fits host := hc
      simp [encodeSlotContract, decodeSlotContract, decodeSlotContractBody, hc]
    | value ty | process message result => simp [encodeSlotContract, decodeSlotContract, decodeSlotContractBody]

theorem codes_initial : Codes (decodeInitial : Cursor δ (Option SlotTarget)) encodeInitial (fun _ => True) := by
  refine .of_laws (codes_tag.reads.bind fun tag _ => ?_) fun initial rest _ => ?_
  · unfold decodeInitialBody
    split
    · exact Reads.pure trivial rfl
    · exact codes_index.reads.bind fun _ _ => Reads.pure trivial rfl
    · exact codes_index.reads.bind fun _ _ => codes_index.reads.bind fun _ _ => Reads.pure trivial rfl
    · exact Reads.fail
  · rcases initial with _ | (func | ⟨c, constructor⟩) <;> simp [encodeInitial, decodeInitial, decodeInitialBody]

theorem codes_slot : Codes (decodeSlot host) encodeSlot (fun s => s.Fits host ∧ s.blank = s) := by
  rintro bs ⟨⟩ rest
  simp [decodeSlot, encodeSlot, codes_slotContract, codes_initial, SlotSpec.Fits, SlotSpec.blank]
  tauto

theorem codes_field : Codes (decodeField : Cursor δ (Text × Index)) encodeField (fun f => f.1.Fits) := by
  rintro bs ⟨⟩ rest
  simp [decodeField, encodeField]

theorem codes_methodEntry : Codes (decodeMethodEntry : Cursor δ (Index × Index)) encodeMethodEntry
    (fun _ => True) := by
  rintro bs ⟨⟩ rest
  simp [decodeMethodEntry, encodeMethodEntry]

theorem codes_class : Codes (decodeClass host) encodeClass (fun c => c.Fits host ∧ c.blank = c) := by
  have hf : ∀ f, 1 ≤ (encodeField f).length := fun f => by simp [encodeField]
  have hm : ∀ m, 1 ≤ (encodeMethodEntry m).length := fun m => by simp [encodeMethodEntry]
  rintro bs ⟨⟩ rest
  simp [decodeClass, encodeClass, codes_tagged BcClassKind.ofTag_iff, codes_tableOf codes_field one_pos hf,
    codes_tableOf codes_methodEntry one_pos hm, BcClass.Fits, BcClass.blank, -Bool.exists_bool]
  grind

theorem codes_reflection : Codes (decodeReflection : Cursor δ ReflectionModule) encodeReflection
    ReflectionModule.Fits := by
  rintro bs ⟨⟩ rest
  simp [decodeReflection, encodeReflection, ReflectionModule.Fits]

theorem block_laws : Reads (lenient = true) (decodeBlock host lenient) [] encodeBlock (host.Table .instr Instr.Fits) ∧
    Inverts (decodeBlock host lenient) encodeBlock id (host.Table .instr Instr.Fits) :=
  ⟨reads_tableOf reads_instr, inverts_tableOf inverts_instr one_pos one_le_encodeInstr⟩

theorem reads_func : Reads (lenient = true) (decodeFunc host lenient) [] encodeFunc
    (fun f => f.Fits host ∧ f.blank = f) := by
  refine codes_index.reads.bind fun _ _ => codes_index.reads.bind fun _ _ =>
    (codes_indices one_pos (by decide)).reads.bind fun params hp => (codes_markers params.length).reads.bind fun _ hm =>
    codes_index.reads.bind fun _ _ => codes_row.reads.bind fun _ hr =>
    (codes_indices one_pos (by decide)).reads.bind fun _ hc =>
    (codes_indices (by decide) (le_refl 4)).reads.bind fun _ hl =>
    (reads_tableOf block_laws.1).bind fun _ hb => ?_
  exact Reads.pure ⟨⟨⟨hp, hm, hr⟩, hc, hl, hb⟩, rfl⟩ rfl

theorem inverts_func : Inverts (decodeFunc host lenient) encodeFunc id (fun f => f.Fits host ∧ f.blank = f) := by
  rintro f rest ⟨⟨⟨hp, hm, hr⟩, hc, hl, hb⟩, hf⟩
  have ho : ∀ b, 1 ≤ (encodeBlock b).length := fun b => by simp [encodeBlock]; omega
  simp only [encodeFunc, List.append_assoc]
  rw [decodeFunc, codes_index.inverts.bind trivial, codes_index.inverts.bind trivial,
    (codes_indices one_pos (by decide)).inverts.bind hp, (codes_markers _).inverts.bind hm,
    codes_index.inverts.bind trivial, codes_row.inverts.bind hr, (codes_indices one_pos (by decide)).inverts.bind hc,
    (codes_indices (by decide) (le_refl 4)).inverts.bind hl, (inverts_tableOf block_laws.2 one_pos ho).bind hb]
  exact congrArg (fun f => Except.ok (f, rest)) hf

end

end LoomV4.Bytecode
