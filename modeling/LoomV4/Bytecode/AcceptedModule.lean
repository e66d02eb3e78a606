import LoomV4.Bytecode.Accepted

namespace LoomV4.Bytecode

open Lib Lib.Reader List Nat

section

variable {δ ι : Type} (host : Host δ ι)

structure Module.SemanticFits (m : Module) : Prop where
  strings : host.Table .string Text.Fits m.strings
  bytes : host.Table .blob (fun bs => bs.length < 2 ^ 32) m.bytes
  types : host.Table .type (BcType.Fits host) m.types
  selectors : host.Table .string Text.Fits m.selectors
  apps : host.Table .app (TypeApp.Fits host) m.apps
  interfaces : host.Table .interface (BcInterface.Fits host) m.interfaces
  conformances : host.Table .conformance (BcConformance.Fits host) m.conformances
  classBounds : host.Table .typeBounds host.TypeBounds m.classBounds
  funcBounds : host.Table .typeBounds host.TypeBounds m.funcBounds
  imports : host.Table .import Import.Fits m.imports
  slots : host.Table .slot (SlotSpec.Fits host) m.slots
  classes : host.Table .class (BcClass.Fits host) m.classes
  reflections : host.Table .reflection ReflectionModule.Fits m.reflections
  funcs : host.Table .func (Func.Fits host) m.funcs
  aligned : m.classBounds.length = m.classes.length ∧ m.funcBounds.length = m.funcs.length

def Module.blank (m : Module) : Module :=
  { m with
    interfaces := m.interfaces.map BcInterface.blank, slots := m.slots.map SlotSpec.blank
    classes := m.classes.map BcClass.blank, funcs := m.funcs.map Func.blank, exports := [], bindings := [], debug := [] }

/-- The nesting and the reservations that a constant passes through. -/
def ConstFits : ℕ → ℕ → ConstValue → ℕ → Prop
  | 0, _, _, _ => False
  | depth + 1, allocation, .tuple items, after =>
    items.length < 2 ^ 32 ∧ allocation + items.length * max (host.size .constValue) 1 ≤ maxDecodeVectorBytes ∧
      host.vec .constValue items.length = none ∧
      Chain (ConstFits depth) (allocation + items.length * max (host.size .constValue) 1) items after
  | _ + 1, allocation, .string t, after => after = allocation ∧ t.Fits
  | _ + 1, allocation, .bytes bs, after => after = allocation ∧ bs.length < 2 ^ 32
  | _ + 1, allocation, _, after => after = allocation

def BcInterfaceMethod.NamesFit (m : BcInterfaceMethod) : Prop :=
  m.paramNames.length = m.params.length ∧ host.Table .string Text.Fits m.paramNames

def BcInterface.NamesFit (i : BcInterface) : Prop :=
  i.name.Fits ∧ i.key.Fits ∧ ∀ m ∈ i.methods, m.NamesFit host

def BcClass.NamesFit (c : BcClass) : Prop :=
  c.name.Fits ∧ c.key.Fits ∧ c.fieldDefaults.length = c.fields.length ∧ host.Plain .flag c.fieldDefaults

def Func.NamesFit (f : Func) : Prop :=
  f.name.Fits ∧ f.paramNames.length < 2 ^ 32 ∧ host.paramNames f.params.length f.paramNames.length = none ∧
    ∀ t ∈ f.paramNames, t.Fits

def SlotSpec.NamesFit (s : SlotSpec) : Prop := s.binding.Fits

def FuncBinding.Fits (m : Module) (b : FuncBinding) : Prop :=
  b.key.Fits ∧ b.func.toNat < m.funcs.length ∧ (b.class' = noIndex ∨ b.class'.toNat < m.classes.length)

def ConstantFits (m : Module) (allocation : ℕ) : Option Constant → ℕ → Prop
  | none, after => after = allocation
  | some c, after => c.ty.toNat < m.types.length ∧ ConstFits host maxTypeDepth allocation c.value after

def Export.Fits (m : Module) (allocation : ℕ) (e : Export) (after : ℕ) : Prop :=
  e.name.Fits ∧ ConstantFits host m allocation e.constant after ∧ exportOk m e = true

structure Module.ExportsFit (m : Module) : Prop where
  interfaces : m.interfaces.length < 2 ^ 32 ∧ ∀ i ∈ m.interfaces, i.NamesFit host
  classes : m.classes.length < 2 ^ 32 ∧ ∀ c ∈ m.classes, c.NamesFit host
  funcs : m.funcs.length < 2 ^ 32 ∧ ∀ f ∈ m.funcs, f.NamesFit host
  slots : m.slots.length < 2 ^ 32 ∧ ∀ s ∈ m.slots, s.NamesFit
  bindings : host.Table .binding (FuncBinding.Fits m.blank) m.bindings
  exports : m.exports.length < 2 ^ 32 ∧ host.vec .export m.exports.length = none ∧
    ∃ after, Chain (Export.Fits host m.blank) 0 m.exports after

variable {host} {loose : Prop} {lenient : Bool} {α : Type}

theorem codes_roles (n : ℕ) : Codes (vector (index : Cursor δ Index) n) (fun v => v.toList.flatMap writeU32)
    (fun _ => True) := codes_index.vector n

theorem reads_semantic : Reads (lenient = true) (semanticReader host lenient) [] encodeSemantic
    (fun m => m.SemanticFits host ∧ m.blank = m) := by
  refine (reads_tableOf codes_string.reads).bind fun _ ht => (reads_tableOf codes_blob.reads).bind fun _ hb =>
    (reads_tableOf codes_type.reads).bind fun _ hy => (reads_tableOf codes_string.reads).bind fun _ he =>
    (reads_tableOf codes_typeApp.reads).bind fun _ hp => (reads_tableOf codes_interface.reads).bind fun _ hn =>
    (reads_tableOf codes_conformance.reads).bind fun _ ho =>
    (reads_tableOf codes_typeBounds.reads).bind fun _ hclassBounds =>
    (reads_tableOf codes_typeBounds.reads).bind fun _ hfuncBounds =>
    (reads_tableOf codes_import.reads).bind fun _ hm => (reads_tableOf codes_slot.reads).bind fun _ hsl =>
    (codes_roles coreRoleCount).reads.bind fun _ _ => (reads_tableOf codes_class.reads).bind fun _ hl =>
    (reads_tableOf codes_reflection.reads).bind fun _ hr => (reads_tableOf reads_func).bind fun _ hu =>
    Reads.ensure fun ha => codes_index.reads.bind fun _ _ => Reads.pure ⟨?_, ?_⟩ rfl
  · exact ⟨ht, hb, hy, he, hp, (table_fixed.mp hn).1, ho, hclassBounds, hfuncBounds, hm, (table_fixed.mp hsl).1,
      (table_fixed.mp hl).1, hr, (table_fixed.mp hu).1, of_decide_eq_true ha⟩
  · rw [Module.blank]
    dsimp only
    rw [(table_fixed.mp hn).2, (table_fixed.mp hsl).2, (table_fixed.mp hl).2, (table_fixed.mp hu).2]

theorem one_le_writeText (t : Text) : 1 ≤ (writeText t).length := by
  simp [writeText]
  omega

theorem one_le_encodeType (ty : BcType) : 1 ≤ (encodeType ty).length := by
  cases ty <;> simp [encodeType, pushTag]

theorem one_le_encodeSlotContract (c : SlotContract) : 1 ≤ (encodeSlotContract c).length := by
  cases c <;> simp [encodeSlotContract, pushTag]

theorem one_le_encodeInitial (t : Option SlotTarget) : 1 ≤ (encodeInitial t).length := by
  rcases t with _ | (_ | _) <;> simp [encodeInitial, pushTag]

theorem sixtySix_le_encodeSlot (s : SlotSpec) : 66 ≤ (encodeSlot s).length := by
  have hc := one_le_encodeSlotContract s.contract
  have hi := one_le_encodeInitial s.initial
  simp only [encodeSlot, List.length_append, Vector.length_toList]
  omega

theorem inverts_semantic : Inverts (semanticReader host lenient) encodeSemantic id
    (fun m => m.SemanticFits host ∧ m.blank = m) := by
  rintro m rest ⟨h, hk⟩
  have ho : ∀ bs : Bytes, 4 ≤ (writeBytes bs).length := fun bs => by simp
  have ha : ∀ a, 1 ≤ (encodeTypeApp a).length := fun a => by simp [encodeTypeApp, writeIndices]; omega
  have hi : ∀ i, 1 ≤ (encodeInterface i).length := fun i => by simp [encodeInterface]; omega
  have hc : ∀ c, 1 ≤ (encodeConformance c).length := fun c => by simp [encodeConformance]; omega
  have hb : ∀ b, 1 ≤ (encodeTypeBounds b).length := fun b => by simp [encodeTypeBounds]; omega
  have hm : ∀ i, 1 ≤ (encodeImport i).length := fun i => by simp [encodeImport]; omega
  have hl : ∀ c, 1 ≤ (encodeClass c).length := fun c => by simp [encodeClass]; omega
  have hr : ∀ r, 1 ≤ (encodeReflection r).length := fun r => by simp [encodeReflection]
  have hf : ∀ f, 1 ≤ (encodeFunc f).length := fun f => by simp [encodeFunc]; omega
  have hin : m.interfaces.map BcInterface.blank = m.interfaces := congrArg Module.interfaces hk
  have hsl : m.slots.map SlotSpec.blank = m.slots := congrArg Module.slots hk
  have hcl : m.classes.map BcClass.blank = m.classes := congrArg Module.classes hk
  have hfu : m.funcs.map Func.blank = m.funcs := congrArg Module.funcs hk
  simp only [encodeSemantic, append_assoc]
  rw [semanticReader, (codes_tableOf codes_string one_pos one_le_writeText).inverts.bind h.strings,
    (codes_tableOf codes_blob (by decide) ho).inverts.bind h.bytes,
    (codes_tableOf codes_type one_pos one_le_encodeType).inverts.bind h.types,
    (codes_tableOf codes_string one_pos one_le_writeText).inverts.bind h.selectors,
    (codes_tableOf codes_typeApp one_pos ha).inverts.bind h.apps,
    (codes_tableOf codes_interface one_pos hi).inverts.bind (table_fixed.mpr ⟨h.interfaces, hin⟩),
    (codes_tableOf codes_conformance one_pos hc).inverts.bind h.conformances,
    (codes_tableOf codes_typeBounds one_pos hb).inverts.bind h.classBounds,
    (codes_tableOf codes_typeBounds one_pos hb).inverts.bind h.funcBounds,
    (codes_tableOf codes_import one_pos hm).inverts.bind h.imports,
    (codes_tableOf codes_slot (by decide) sixtySix_le_encodeSlot).inverts.bind (table_fixed.mpr ⟨h.slots, hsl⟩),
    (codes_roles coreRoleCount).inverts.bind trivial,
    (codes_tableOf codes_class one_pos hl).inverts.bind (table_fixed.mpr ⟨h.classes, hcl⟩),
    (codes_tableOf codes_reflection one_pos hr).inverts.bind h.reflections,
    (inverts_tableOf inverts_func one_pos hf).bind (table_fixed.mpr ⟨h.funcs, hfu⟩),
    ensure_bind (by simpa using h.aligned), codes_index.inverts.bind trivial]
  rw [Module.blank, hin, hsl, hcl, hfu] at hk
  exact congrArg (fun m => Except.ok (m, rest)) hk

theorem encodeConstValues_eq (items : List ConstValue) : encodeConstValues items = items.flatMap encodeConstValue := by
  induction items with
  | nil => rfl
  | cons v vs ih => rw [encodeConstValues, ih, flatMap_cons]

theorem toNat_word {v : ℕ} (h : v < 256 ^ 8) : (UInt64.ofNat v).toNat = v := by
  rw [UInt64.toNat_ofNat']
  exact Nat.mod_eq_of_lt h

theorem one_le_encodeConstValue (v : ConstValue) : 1 ≤ (encodeConstValue v).length := by
  cases v <;> simp [encodeConstValue, pushTag]

theorem codes_constValue (depth allocation : ℕ) : Codes (decodeConstValue host depth allocation)
    (fun x => encodeConstValue x.1) (fun x => ConstFits host depth allocation x.1 x.2) := by
  induction depth generalizing allocation with
  | zero => exact .of_laws Reads.fail fun _ _ h => h.elim
  | succ depth ih =>
    refine .of_laws (codes_tag.reads.bind fun tag _ => ?_) ?_
    · unfold decodeConstBody
      split
      · exact Reads.pure rfl rfl
      · exact codes_flag.reads.bind fun _ _ => Reads.pure rfl rfl
      · refine (codes_uint 8).reads.bind (fun v hv => Reads.pure rfl ?_)
        rw [encodeConstValue, toNat_word hv]
        rfl
      · refine (codes_uint 8).reads.bind (fun v hv => Reads.pure rfl ?_)
        rw [encodeConstValue, toNat_word hv]
        rfl
      · refine (codes_uint 4).reads.bind (fun v hv => ?_)
        by_cases hc : v.isValidChar
        · rw [dif_pos hc]
          exact Reads.pure rfl rfl
        · rw [dif_neg hc]
          exact Reads.fail
      · exact codes_string.reads.bind fun _ ht => Reads.pure ⟨rfl, ht⟩ rfl
      · refine reads_length.bind (fun count hc => (codes_take count).reads.bind fun bs hbs => ?_)
        subst hbs
        exact Reads.pure ⟨rfl, hc⟩ rfl
      · refine reads_length.bind (fun count hc => Reads.ensure fun hr => Reads.permit fun he =>
          (Codes.timesFrom ih count _).reads.bind fun items hi => ?_)
        obtain ⟨rfl, hh⟩ := hi
        refine Reads.pure ⟨hc, of_decide_eq_true hr, he, hh⟩ ?_
        rw [encodeConstValue, encodeConstValues_eq]
        rfl
      · exact Reads.fail
    · rintro ⟨v, after⟩ rest h
      dsimp only
      cases v with
      | unit =>
        obtain rfl : after = allocation := h
        rw [encodeConstValue, decodeConstValue, tag_bind (by decide)]
        rfl
      | bool b =>
        obtain rfl : after = allocation := h
        rw [encodeConstValue, append_assoc, decodeConstValue, tag_bind (by decide), decodeConstBody,
          codes_flag.inverts.bind trivial]
        rfl
      | int v | float v =>
        obtain rfl : after = allocation := h
        rw [encodeConstValue, append_assoc, decodeConstValue, tag_bind (by decide), decodeConstBody,
          (codes_uint 8).inverts.bind v.toNat_lt, UInt64.ofNat_toNat]
        rfl
      | char c =>
        obtain rfl : after = allocation := h
        have hv : c.toNat.isValidChar := c.valid
        have hlt : c.toNat < 256 ^ 4 := c.val.toNat_lt
        rw [encodeConstValue, append_assoc, decodeConstValue, tag_bind (by decide), decodeConstBody,
          (codes_uint 4).inverts.bind hlt, dif_pos hv]
        rfl
      | string t =>
        obtain ⟨rfl, ht⟩ := h
        rw [encodeConstValue, append_assoc, decodeConstValue, tag_bind (by decide), decodeConstBody,
          codes_string.inverts.bind ht]
        rfl
      | bytes bs =>
        obtain ⟨rfl, hbs⟩ := h
        rw [encodeConstValue, writeBytes, append_assoc, append_assoc, decodeConstValue, tag_bind (by decide),
          decodeConstBody, len, bind_ok (run_length.mpr ⟨hbs, by simp, rfl⟩)]
        exact (codes_take _).inverts.bind (a := bs) rfl rest
      | tuple items =>
        obtain ⟨hc, hr, he, hh⟩ := h
        have ho : items.length ≤ (items.flatMap encodeConstValue ++ rest).length := by
          have hl := mul_le_length_flatMap fun v (_ : v ∈ items) => one_le_encodeConstValue v
          rw [length_append]
          omega
        rw [encodeConstValue, encodeConstValues_eq, append_assoc, append_assoc, decodeConstValue,
          tag_bind (by decide), decodeConstBody, len, bind_ok (run_length.mpr ⟨hc, ho, rfl⟩)]
        dsimp only
        rw [ensure_bind (decide_eq_true hr), he]
        exact (Codes.timesFrom ih items.length _).inverts.bind (a := (items, after)) ⟨rfl, hh⟩ rest

theorem codes_nameMethod (m : BcInterfaceMethod) : Codes (nameMethod host m) encodeMethodNames
    (fun m' => m'.blank = m.blank ∧ m'.NamesFit host) := by
  rintro bs ⟨⟩ rest
  cases m
  simp [nameMethod, encodeMethodNames, codes_tableOfSize codes_string one_pos one_le_writeText,
    BcInterfaceMethod.NamesFit, BcInterfaceMethod.blank]
  grind

section

variable {name : α → Cursor δ α} {w : α → Bytes} {blank : α → α} {fits : α → Prop}

theorem codes_each (hk : ∀ a, Codes (name a) w fun b => blank b = blank a ∧ fits b) (l : List α) :
    Codes (each name l) (fun l' => l'.flatMap w) (fun l' => l'.map blank = l.map blank ∧ ∀ b ∈ l', fits b) := by
  induction l with
  | nil =>
    intro bs v rest
    cases v <;> simp [each]
  | cons a l ih =>
    intro bs v rest
    cases v with
    | nil => simp [each, hk, ih]
    | cons b v =>
      simp [each, hk, ih]
      tauto

theorem codes_names (hk : ∀ a, Codes (name a) w fun b => blank b = blank a ∧ fits b) (hw : ∀ a, 1 ≤ (w a).length)
    (l : List α) : Codes (names name l) (writeTable w)
      (fun l' => l'.map blank = l.map blank ∧ l'.length < 2 ^ 32 ∧ ∀ b ∈ l', fits b) := by
  intro bs v rest
  have hr : v.length ≤ (v.flatMap w ++ rest).length := by
    have he := mul_le_length_flatMap fun a (_ : a ∈ v) => hw a
    rw [length_append]
    omega
  have he : v.map blank = l.map blank → v.length = l.length := fun h => by simpa using congrArg List.length h
  simp [names, len, codes_each hk, writeTable] at hr ⊢
  grind

end

theorem codes_nameInterface (i : BcInterface) : Codes (nameInterface host i) encodeInterfaceNames
    (fun i' => i'.blank = i.blank ∧ i'.NamesFit host) := by
  rintro bs ⟨⟩ rest
  cases i
  simp [nameInterface, encodeInterfaceNames, codes_each codes_nameMethod, BcInterface.NamesFit, BcInterface.blank]
  tauto

theorem codes_nameClass (c : BcClass) : Codes (nameClass host c) encodeClassNames
    (fun c' => c'.blank = c.blank ∧ c'.NamesFit host) := by
  rintro bs ⟨⟩ rest
  cases c
  simp [nameClass, encodeClassNames, codes_tableOfSize codes_flag one_pos fun _ => le_refl 1, writeMarkers,
    BcClass.NamesFit, BcClass.blank, -Bool.exists_bool]
  grind

theorem codes_nameFunc (f : Func) : Codes (nameFunc host f) encodeFuncNames
    (fun f' => f'.blank = f.blank ∧ f'.NamesFit host) := by
  rintro bs ⟨⟩ rest
  cases f
  simp [nameFunc, encodeFuncNames, codes_string.table one_pos fun t _ => one_le_writeText t, Func.NamesFit, Func.blank]
  grind

theorem codes_nameSlot (s : SlotSpec) : Codes (nameSlot s : Cursor δ SlotSpec) encodeSlotNames
    (fun s' => s'.blank = s.blank ∧ s'.NamesFit) := by
  rintro bs ⟨⟩ rest
  cases s
  simp [nameSlot, encodeSlotNames, SlotSpec.NamesFit, SlotSpec.blank, -Bool.exists_bool]
  tauto

theorem codes_binding (m : Module) : Codes (decodeBinding m : Cursor δ FuncBinding) encodeBinding
    (FuncBinding.Fits m) := by
  rintro bs ⟨⟩ rest
  simp [decodeBinding, encodeBinding, FuncBinding.Fits]
  tauto

theorem codes_constant (m : Module) (allocation : ℕ) : Codes (decodeConstant host m allocation)
    (fun x => encodeConstant x.1) (fun x => ConstantFits host m allocation x.1 x.2) := by
  refine .of_laws (codes_tag.reads.bind fun tag _ => ?_) ?_
  · unfold decodeConstantBody
    split
    · exact Reads.pure rfl rfl
    · exact codes_index.reads.bind fun _ _ => Reads.ensure fun hty =>
        (codes_constValue maxTypeDepth allocation).reads.bind fun _ hv => Reads.pure ⟨of_decide_eq_true hty, hv⟩ rfl
    · exact Reads.fail
  · rintro ⟨_ | c, after⟩ rest h
    · obtain rfl : after = allocation := h
      simp [encodeConstant, decodeConstant, decodeConstantBody]
    · obtain ⟨hty, hv⟩ := h
      cases c
      simp [encodeConstant, decodeConstant, decodeConstantBody, codes_constValue]
      exact ⟨hty, hv⟩

theorem codes_export (m : Module) (allocation : ℕ) : Codes (decodeExport host m allocation)
    (fun x => encodeExport x.1) (fun x => x.1.Fits host m allocation x.2) := by
  rintro bs ⟨⟨⟩, after⟩ rest
  simp [decodeExport, encodeExport, codes_tagged ExportKind.ofTag_iff, codes_constant, Export.Fits, -Bool.exists_bool]
  tauto

theorem one_le_encodeInterfaceNames (i : BcInterface) : 1 ≤ (encodeInterfaceNames i).length := by
  have hn := one_le_writeText i.name
  simp only [encodeInterfaceNames, length_append]
  omega

theorem one_le_encodeClassNames (c : BcClass) : 1 ≤ (encodeClassNames c).length := by
  simp [encodeClassNames]
  omega

theorem one_le_encodeFuncNames (f : Func) : 1 ≤ (encodeFuncNames f).length := by
  simp [encodeFuncNames]
  omega

theorem one_le_encodeSlotNames (s : SlotSpec) : 1 ≤ (encodeSlotNames s).length := by
  simp [encodeSlotNames]

theorem twelve_le_encodeBinding (b : FuncBinding) : 12 ≤ (encodeBinding b).length := by
  simp [encodeBinding, writeText]

theorem one_le_encodeExport (e : Export) : 1 ≤ (encodeExport e).length := by
  simp [encodeExport]

theorem codes_exports {m : Module} (hm : m.blank = m) : Codes (exportsReader host m) encodeExports
    (fun m' => m'.blank = m ∧ m'.debug = [] ∧ m'.ExportsFit host) := by
  refine .of_laws ?_ ?_
  · refine (codes_names codes_nameInterface one_le_encodeInterfaceNames m.interfaces).reads.bind fun interfaces hi =>
      (codes_names codes_nameClass one_le_encodeClassNames m.classes).reads.bind fun classes hc =>
      (codes_names codes_nameFunc one_le_encodeFuncNames m.funcs).reads.bind fun funcs hf =>
      (codes_names codes_nameSlot one_le_encodeSlotNames m.slots).reads.bind fun slots hs =>
      (reads_tableOf (codes_binding m).reads).bind fun bindings hn => reads_length.bind fun count ho =>
      Reads.permit fun hv => (Codes.timesFrom (codes_export m) count 0).reads.bind fun exports he => ?_
    obtain ⟨rfl, hh⟩ := he
    have hb : Module.blank { m with interfaces, classes, funcs, slots, bindings, exports := exports.1 } = m := by
      rw [Module.blank]
      dsimp only
      rw [hi.1, hc.1, hf.1, hs.1]
      exact hm
    have hd : m.debug = [] := by rw [← hm, Module.blank]
    refine Reads.pure ⟨hb, hd, hi.2, hc.2, hf.2, hs.2, ?_, ho, hv, exports.2, ?_⟩ (append_assoc _ _ _).symm
    · rw [hb]
      exact hn
    · rw [hb]
      exact hh
  · rintro v rest ⟨rfl, hd, h⟩
    obtain ⟨ho, hv, after, hh⟩ := h.exports
    have hr : v.exports.length ≤ (v.exports.flatMap encodeExport ++ rest).length := by
      have hl := mul_le_length_flatMap fun e (_ : e ∈ v.exports) => one_le_encodeExport e
      rw [length_append]
      omega
    simp only [encodeExports, append_assoc]
    rw [exportsReader, (codes_names codes_nameInterface one_le_encodeInterfaceNames _).inverts.bind
        ⟨congrArg Module.interfaces hm.symm, h.interfaces⟩,
      (codes_names codes_nameClass one_le_encodeClassNames _).inverts.bind
        ⟨congrArg Module.classes hm.symm, h.classes⟩,
      (codes_names codes_nameFunc one_le_encodeFuncNames _).inverts.bind ⟨congrArg Module.funcs hm.symm, h.funcs⟩,
      (codes_names codes_nameSlot one_le_encodeSlotNames _).inverts.bind ⟨congrArg Module.slots hm.symm, h.slots⟩,
      (codes_tableOf (codes_binding v.blank) (by decide) twelve_le_encodeBinding).inverts.bind h.bindings,
      writeTable, append_assoc, len, bind_ok (run_length.mpr ⟨ho, hr, rfl⟩), hv]
    refine ((Codes.timesFrom (codes_export v.blank) _ 0).inverts.bind (a := (v.exports, after)) ⟨rfl, hh⟩ rest).trans ?_
    have ha : { v with debug := [] } = v := by rw [← hd]
    exact congrArg (fun v => Except.ok (v, rest)) ha

theorem writeTable_map {w : α → Bytes} {f : α → α} (h : ∀ a, w (f a) = w a) (l : List α) :
    writeTable w (l.map f) = writeTable w l := by
  rw [writeTable, writeTable, length_map, flatMap_map]
  congr 1
  exact flatMap_congr fun a _ => h a

theorem encodeInterface_blank (i : BcInterface) : encodeInterface i.blank = encodeInterface i := by
  have hm := writeTable_map (fun m : BcInterfaceMethod => (rfl : encodeMethod m.blank = encodeMethod m)) i.methods
  rw [encodeInterface, encodeInterface]
  dsimp only [BcInterface.blank]
  rw [hm]

theorem encodeSemantic_blank (m : Module) : encodeSemantic m.blank = encodeSemantic m := by
  have hi := writeTable_map encodeInterface_blank m.interfaces
  have hs := writeTable_map (fun s : SlotSpec => (rfl : encodeSlot s.blank = encodeSlot s)) m.slots
  have hc := writeTable_map (fun c : BcClass => (rfl : encodeClass c.blank = encodeClass c)) m.classes
  have hf := writeTable_map (fun f : Func => (rfl : encodeFunc f.blank = encodeFunc f)) m.funcs
  rw [encodeSemantic, encodeSemantic]
  dsimp only [Module.blank]
  rw [hi, hs, hc, hf]

theorem table_map {e : Elem} {good : α → Prop} {f : α → α} {l : List α} (h : ∀ a, good (f a) ↔ good a) :
    host.Table e good (l.map f) ↔ host.Table e good l := by
  simp [Host.Table, h]

theorem BcInterface.fits_blank (i : BcInterface) : i.blank.Fits host ↔ i.Fits host := by
  have hm : ∀ m : BcInterfaceMethod, m.blank.Fits host ↔ m.Fits host := fun _ => Iff.rfl
  simp only [BcInterface.Fits, BcInterface.blank, table_map hm]

variable {m : Module}

theorem Module.semanticFits_blank : m.blank.SemanticFits host ↔ m.SemanticFits host := by
  have hs : ∀ s : SlotSpec, s.blank.Fits host ↔ s.Fits host := fun _ => Iff.rfl
  have hc : ∀ c : BcClass, c.blank.Fits host ↔ c.Fits host := fun _ => Iff.rfl
  have hf : ∀ f : Func, f.blank.Fits host ↔ f.Fits host := fun _ => Iff.rfl
  constructor
  · intro h
    exact { h with
      interfaces := (table_map BcInterface.fits_blank).mp h.interfaces, slots := (table_map hs).mp h.slots
      classes := (table_map hc).mp h.classes, funcs := (table_map hf).mp h.funcs
      aligned := by simpa [Module.blank] using h.aligned }
  · intro h
    exact { h with
      interfaces := (table_map BcInterface.fits_blank).mpr h.interfaces, slots := (table_map hs).mpr h.slots
      classes := (table_map hc).mpr h.classes, funcs := (table_map hf).mpr h.funcs
      aligned := by simpa [Module.blank] using h.aligned }

theorem blank_blank (m : Module) : m.blank.blank = m.blank := by
  simp [Module.blank, BcInterface.blank, BcInterfaceMethod.blank, SlotSpec.blank, BcClass.blank, Func.blank,
    Function.comp_def]

theorem claims_blank (m : Module) : (claims m.blank : Except (DecodeError δ) Unit) = claims m := by
  simp [claims, Module.blank, Function.comp_def]

variable (host) in
/-- The rules of the decoder: the tables fit, the indices name entries, the debug section is canonical, and the sections
lie below 4 GiB. -/
structure Module.Fits (m : Module) : Prop where
  semantic : m.SemanticFits host
  claims : (claims m : Except (DecodeError δ) Unit) = .ok ()
  exports : m.ExportsFit host
  debug : checkDebug host { m with debug := [] } m.debug = .ok ()
  sections : headerLen + (encodeSemantic m).length + (encodeExports m).length < 2 ^ 32 ∧ m.debug.length < 2 ^ 32

theorem codes_section (total expected : ℕ) : Codes (header.sectionLen total expected : Cursor δ ℕ)
    (sectionEntry expected) (fun count => expected < 2 ^ 32 ∧ count < 2 ^ 32 ∧ expected + count ≤ total) := by
  intro bs count rest
  simp [header.sectionLen, sectionEntry]
  tauto

theorem codes_header (total : ℕ) : Codes (header host total) (fun x => encodeHeader host.digest x.1 x.2.1 x.2.2)
    (fun x => headerLen + x.1 + x.2.1 + x.2.2 = total ∧ headerLen + x.1 + x.2.1 < 2 ^ 32 ∧ x.2.2 < 2 ^ 32) := by
  rintro bs ⟨semantic, exports, debug⟩ rest
  have hm : magic.length = 4 := rfl
  have hv : version < 65536 := by decide
  simp [header, encodeHeader, codes_section, hm, hv]
  grind

theorem length_encodeHeader (digest : Hash) (semantic exports debug : ℕ) :
    (encodeHeader digest semantic exports debug).length = headerLen := by
  simp [encodeHeader, sectionEntry, magic, headerLen]

theorem encodeContainer_spells {s s' e e' : Bytes} (hs : Spells loose s s') (he : Spells loose e e') (digest : Hash)
    (debug : Bytes) : Spells loose (encodeContainer digest s e debug) (encodeContainer digest s' e' debug) := by
  refine ⟨?_, ?_⟩
  · have hs := hs.1
    have he := he.1
    simp only [encodeContainer, length_append, length_encodeHeader]
    omega
  · rcases hs.2, he.2 with ⟨hl | rfl, hl' | rfl⟩
    · exact .inl hl
    · exact .inl hl
    · exact .inl hl'
    · exact .inr rfl

theorem encodeContainer_sections {digest : Hash} {semantic exports debug : ℕ} {bs rest : Bytes}
    (hbs : bs = encodeHeader digest semantic exports debug ++ rest)
    (ht : headerLen + semantic + exports + debug = bs.length) :
    (rest.take semantic).length = semantic ∧ ((rest.drop semantic).take exports).length = exports ∧
      ((rest.drop semantic).drop exports).length = debug ∧
      encodeContainer digest (rest.take semantic) ((rest.drop semantic).take exports)
        ((rest.drop semantic).drop exports) = bs := by
  have hn : rest.length = semantic + exports + debug := by
    have hl := congrArg List.length hbs
    rw [length_append, length_encodeHeader] at hl
    omega
  have hs : (rest.take semantic).length = semantic := by
    rw [length_take]
    omega
  have he : ((rest.drop semantic).take exports).length = exports := by
    rw [length_take, length_drop]
    omega
  have hd : ((rest.drop semantic).drop exports).length = debug := by
    rw [length_drop, length_drop]
    omega
  refine ⟨hs, he, hd, ?_⟩
  rw [encodeContainer, hs, he, hd, hbs, append_assoc, append_assoc, take_append_drop, take_append_drop]

theorem bind_eq_ok {ε β γ : Type} {x : Except ε β} {k : β → Except ε γ} {c : γ} (h : (x >>= k) = .ok c) :
    ∃ b, x = .ok b ∧ k b = .ok c := by
  cases x with
  | error e => cases h
  | ok b => exact ⟨b, rfl, h⟩

theorem decodeSemantic_ok {bs : Bytes} {m : Module} (h : decodeSemantic host lenient bs = .ok m) :
    m.SemanticFits host ∧ m.blank = m ∧ (claims m : Except (DecodeError δ) Unit) = .ok () ∧
      Spells (lenient = true) (encodeSemantic m) bs := by
  obtain ⟨m', hr, h⟩ := bind_eq_ok h
  obtain ⟨u, hc, h⟩ := bind_eq_ok h
  obtain rfl : m' = m := Except.ok.inj h
  obtain ⟨⟨hf, hb⟩, hs⟩ := reads_semantic.whole hr
  exact ⟨hf, hb, hc, hs⟩

theorem Module.ExportsFit.withDebug (h : m.ExportsFit host) (debug : Bytes) :
    Module.ExportsFit host { m with debug } :=
  ⟨h.interfaces, h.classes, h.funcs, h.slots, h.bindings, h.exports⟩

theorem decodeWith_ok {bs : Bytes} (h : decodeWith host lenient bs = .ok m) :
    m.Fits host ∧ Spells (lenient = true) (encode host.digest m) bs := by
  unfold decodeWith at h
  split at h
  · cases h
  · next semantic exports debug rest hh =>
    obtain ⟨⟨ht, hof, hu⟩, hbs⟩ := (codes_header bs.length bs _ rest).mp hh
    dsimp only at ht hof hu hbs
    obtain ⟨m0, hm, h⟩ := bind_eq_ok h
    obtain ⟨m1, hx, h⟩ := bind_eq_ok h
    obtain ⟨u, hk, h⟩ := bind_eq_ok h
    obtain ⟨hf, hb, hl, hp⟩ := decodeSemantic_ok hm
    obtain ⟨⟨hb', hn, hf'⟩, hp'⟩ : _ ∧ Spells (lenient = true) _ _ := (codes_exports hb).reads.whole hx
    obtain ⟨hs, he, hd, hc⟩ := encodeContainer_sections hbs ht
    obtain rfl := Except.ok.inj h
    have hp : Spells (lenient = true) (encodeSemantic m1) (rest.take semantic) := by
      rw [← encodeSemantic_blank, hb']
      exact hp
    constructor
    · constructor
      · rw [← hb'] at hf
        exact Module.semanticFits_blank.mp hf
      · rw [← claims_blank]
        rw [← hb'] at hl
        exact hl
      · exact hf'.withDebug _
      · have ha : { m1 with debug := [] } = m1 := by rw [← hn]
        dsimp only
        rw [ha]
        exact hk
      · have hle := hp.1
        have hle' := hp'.1
        rw [hs] at hle
        rw [he] at hle'
        refine ⟨?_, ?_⟩
        · change headerLen + (encodeSemantic m1).length + (encodeExports m1).length < 2 ^ 32
          omega
        · dsimp only
          rw [hd]
          exact hu
    · have ho := encodeContainer_spells hp hp' host.digest ((rest.drop semantic).drop exports)
      rw [hc] at ho
      exact ho

theorem ok_bind {ε β γ : Type} {x : Except ε β} {k : β → Except ε γ} {b : β} (h : x = .ok b) : (x >>= k) = k b := by
  rw [h]
  rfl

theorem decodeSemantic_encode (h : m.Fits host) :
    decodeSemantic host lenient (encodeSemantic m) = .ok m.blank := by
  have hc : (claims m.blank : Except (DecodeError δ) Unit) = .ok () := (claims_blank m).trans h.claims
  have hr : Reader.whole .trailingBytes (semanticReader host lenient) (encodeSemantic m) = .ok m.blank :=
    encodeSemantic_blank m ▸ inverts_semantic.whole ⟨Module.semanticFits_blank.mpr h.semantic, blank_blank m⟩
  unfold decodeSemantic
  rw [ok_bind hr, ok_bind hc]
  rfl

theorem decodeExports_encode (h : m.ExportsFit host) :
    decodeExports host m.blank (encodeExports m) = .ok { m with debug := [] } :=
  (codes_exports (blank_blank m)).inverts.whole (a := { m with debug := [] }) ⟨rfl, rfl, h.withDebug []⟩

theorem decodeWith_encode (h : m.Fits host) : decodeWith host lenient (encode host.digest m) = .ok m := by
  have hl : (encode host.digest m).length =
      headerLen + (encodeSemantic m).length + (encodeExports m).length + m.debug.length := by
    simp only [encode, encodeContainer, length_append, length_encodeHeader]
  have hh : (header host (encode host.digest m).length).run (encode host.digest m) =
      .ok (((encodeSemantic m).length, (encodeExports m).length, m.debug.length),
        encodeSemantic m ++ (encodeExports m ++ m.debug)) := by
    rw [hl, encode, encodeContainer, append_assoc, append_assoc, codes_header]
    dsimp only
    exact ⟨⟨rfl, h.sections⟩, rfl⟩
  rw [decodeWith, hh]
  dsimp only
  rw [take_left, drop_left, take_left, drop_left, ok_bind (decodeSemantic_encode h),
    ok_bind (decodeExports_encode h.exports), ok_bind h.debug]
  rfl

end

end LoomV4.Bytecode
