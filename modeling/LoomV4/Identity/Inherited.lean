import LoomV4.Identity.Reads

/-!
The bytes that `interface_digest` writes for one interface, counted along the paths of its inheritance.
-/

namespace LoomV4.Identity

open Lib Lib.Reader Bytecode List Option Resolver

variable (bundle : AbiBundle) (m : Module)

def parentsOf (i : ℕ) : List BcInterfaceUse := ((m.interfaces[i]?).map BcInterface.parents).getD []

def keySize (i : ℕ) : ℕ := ((m.interfaces[i]?).map fun c => c.key.bytes.length).getD 0

/-- The bytes of one use without the key of the interface it names: the two marks, the digest, three counts, the types
and the rows. -/
def useSize (u : BcInterfaceUse) : ℕ :=
  46 + 32 * u.types.length + (u.rows.map fun row => ((rowBytes bundle row).map List.length).getD 0).sum

/-- The bytes of an interface and of all that it inherits, once for each path. -/
def inheritedSize : ℕ → ℕ → ℕ
  | 0, _ => 0
  | depth + 1, i =>
    keySize m i + ((parentsOf m i).map fun u => useSize bundle u + inheritedSize depth u.interface.toNat).sum

def interfaceSize (i : ℕ) : ℕ :=
  48 + ((parentsOf m i).map fun u => useSize bundle u + inheritedSize bundle m m.interfaces.length u.interface.toNat).sum

variable {bundle m} {R : Resolver} {bs : Bytes}

def Piece.width : Piece → ℕ
  | .raw bs => bs.length
  | .member _ => 0

theorem render_length {ps : List Piece} (h : render (fun _ => none) ps = some bs) :
    bs.length = (ps.map Piece.width).sum := by
  obtain ⟨bss, hb, rfl⟩ := map_eq_some_iff.mp h
  clear h
  rw [mapM_eq_some_iff] at hb
  induction hb with
  | nil => rfl
  | @cons p b ps bss hp _ ih =>
    cases p with
    | member v => cases hp
    | raw bs =>
      cases hp
      simpa [Piece.width] using ih

theorem plain_length {items : List Item} {w : Item → ℕ} (h : R.plain items = some bs)
    (hw : ∀ x ∈ items, ∀ ps, R.resolve x = some ps → (ps.map Piece.width).sum = w x) :
    bs.length = (items.map w).sum := by
  obtain ⟨ps, hps, hr⟩ := bind_eq_some_iff.mp h
  obtain ⟨pss, hp, rfl⟩ := map_eq_some_iff.mp hps
  rw [render_length hr]
  clear hr h hps
  rw [mapM_eq_some_iff] at hp
  induction hp with
  | nil => rfl
  | @cons x qs items pss hx _ ih =>
    rw [flatten_cons, map_append, sum_append, map_cons, sum_cons, hw x mem_cons_self qs hx,
      ih fun y hy => hw y (mem_cons_of_mem _ hy)]

/-- The bytes of one item of a use. -/
def itemSize (bundle : AbiBundle) (m : Module) : Item → ℕ
  | .raw bs => bs.length
  | .type _ => 32
  | .interfaceKey i => 4 + keySize m i
  | .row row => ((rowBytes bundle row).map List.length).getD 0
  | _ => 0

theorem use_plain_length (hR : Ready bundle m R) {u : BcInterfaceUse} (h : R.plain (useItems false u) = some bs) :
    bs.length + 34 = useSize bundle u + keySize m u.interface.toNat := by
  have hw : ∀ x ∈ useItems false u, ∀ ps, R.resolve x = some ps → (ps.map Piece.width).sum = itemSize bundle m x := by
    intro x hx ps hps
    simp only [useItems, Bool.false_eq_true, if_false, append_nil, mem_append, mem_cons, List.mem_map,
      not_mem_nil, or_false] at hx
    rcases hx with (rfl | rfl | ⟨t, -, rfl⟩) | rfl | ⟨row, -, rfl⟩
    · obtain ⟨k, hk, rfl⟩ := map_eq_some_iff.mp hps
      rw [hR.module] at hk
      simp [Piece.width, itemSize, keySize, hk, writeText, writeBytes]
    · cases hps
      simp [Piece.width, itemSize]
    · obtain ⟨d, -, rfl⟩ := map_eq_some_iff.mp hps
      simp [Piece.width, itemSize, typeRef]
    · cases hps
      simp [Piece.width, itemSize]
    · obtain ⟨rb, hrb, rfl⟩ := map_eq_some_iff.mp hps
      rw [hR.bundle] at hrb
      simp [Piece.width, itemSize, hrb]
  have htypes : (u.types.map (itemSize bundle m ∘ typeRef)).sum = 32 * u.types.length := by
    have hconst : itemSize bundle m ∘ typeRef = fun _ => 32 := rfl
    rw [hconst, map_const', sum_replicate, smul_eq_mul, mul_comm]
  rw [plain_length h hw]
  simp only [useItems, Bool.false_eq_true, if_false, append_nil, map_append, map_cons, map_nil, sum_append, sum_cons,
    sum_nil, useSize, List.map_map]
  have hcount : ∀ {α : Type} (l : List α), itemSize bundle m (count l) = 4 := fun l => length_leBytes _ _
  have hrows : (u.rows.map (itemSize bundle m ∘ Item.row)) =
      u.rows.map fun row => ((rowBytes bundle row).map List.length).getD 0 := rfl
  rw [hcount, hcount, hrows, htypes]
  simp only [itemSize]
  omega

section

variable (hash256 : Bytes → Hash) (hm : Sound bundle m) (hR : Ready bundle m R) (hc : R.comp = none)

include hm hR hc

/-- The walk ends for uses of any rank below the depth, and writes what their paths hold. -/
theorem Ready.interfaceWalk {rank : ℕ → ℕ}
    (hr : ∀ (i : ℕ) (c : BcInterface), m.interfaces[i]? = some c → ∀ u ∈ c.parents, rank u.interface.toNat < rank i) :
    ∀ (depth : ℕ) (us : List BcInterfaceUse) (stack : List Resolver.Step) (fuel : ℕ) (rest : Bytes),
      (∀ u ∈ us, rank u.interface.toNat < depth ∧ Every (InRange bundle m) (useItems false u)) →
      R.interfaceWalk hash256 fuel stack = some rest →
      ∃ bs, R.interfaceWalk hash256 ((us.map fun u => span m depth u.interface.toNat).sum + fuel)
          (us.map .enter ++ stack) = some bs ∧
        bs.length = (us.map fun u => useSize bundle u + inheritedSize bundle m depth u.interface.toNat).sum
          + rest.length := by
  intro depth
  induction depth with
  | zero =>
    intro us stack fuel rest hus h
    cases us with
    | nil => exact ⟨rest, by simpa using h, by simp⟩
    | cons u us => exact absurd (hus u mem_cons_self).1 (Nat.not_lt_zero _)
  | succ depth ih =>
    intro us
    induction us with
    | nil =>
      intro stack fuel rest _ h
      exact ⟨rest, by simpa using h, by simp⟩
    | cons u us ihs =>
      intro stack fuel rest hus h
      obtain ⟨hd, hu⟩ := hus u mem_cons_self
      have hlt := (useItems_types hu).1
      have hg := getElem?_eq_getElem hlt
      obtain ⟨use, hue⟩ := hR.plain hc hu early_useItems
      obtain ⟨d, hd'⟩ := hR.interfaceLocalDigest hash256 hm hc hlt
      obtain ⟨behind, he, hbehind⟩ := ihs stack fuel rest (fun v hv => hus v (mem_cons_of_mem _ hv)) h
      obtain ⟨all, ha, hall⟩ := ih m.interfaces[u.interface.toNat].parents
        (.leave :: (us.map .enter ++ stack)) ((us.map fun u => span m (depth + 1) u.interface.toNat).sum + fuel + 1)
        (0 :: behind) (fun v hv => ⟨by have := hr _ _ hg v hv; omega, hm.parents _ _ hg v hv⟩)
        (by rw [Resolver.interfaceWalk, he]; rfl)
      refine ⟨1 :: use ++ d.toList ++ all, ?_, ?_⟩
      · have hs : ((u :: us).map fun u => span m (depth + 1) u.interface.toNat).sum + fuel =
            (m.interfaces[u.interface.toNat].parents.map fun v => span m depth v.interface.toNat).sum
              + ((us.map fun u => span m (depth + 1) u.interface.toNat).sum + fuel + 1) + 1 := by
          simp only [map_cons, sum_cons, span, hg, map_some, getD_some]
          omega
        rw [hs]
        simp only [map_cons, cons_append, Resolver.interfaceWalk, hue, hd', hR.module, hg, bind_eq_bind, bind_some, ha]
      · have huse := use_plain_length hR hue
        have hdigest : d.toList.length = 32 := d.length_toList
        have hparents : parentsOf m u.interface.toNat = m.interfaces[u.interface.toNat].parents := by simp [parentsOf, hg]
        simp only [length_append, length_cons, map_cons, sum_cons, hdigest, hall, hbehind, inheritedSize, hparents]
        omega

theorem Ready.interfaceBytes {i : ℕ} (hi : i < m.interfaces.length) :
    ∃ out, R.interfaceBytes hash256 i = some out ∧ out.length = interfaceSize bundle m i := by
  obtain ⟨rank, hr⟩ := hm.inheritance
  have hg := getElem?_eq_getElem hi
  obtain ⟨d, hd⟩ := hR.interfaceLocalDigest hash256 hm hc hi
  obtain ⟨bs, hbs, hlen⟩ := hR.interfaceWalk hash256 hm hc (fun i c hc => (hr i c hc).2) m.interfaces.length
    m.interfaces[i].parents [] 0 []
    (fun u hu => ⟨((hr i _ hg).2 u hu).trans (hr i _ hg).1, hm.parents i _ hg u hu⟩)
    (by rw [Resolver.interfaceWalk])
  rw [Nat.add_zero, append_nil] at hbs
  refine ⟨tagInterface ++ d.toList ++ bs, ?_, ?_⟩
  · simp only [Resolver.interfaceBytes, hR.module, hg, hd, hbs, bind_eq_bind, bind_some]
  · have htag : tagInterface.length = 16 := by decide
    have hdigest : d.toList.length = 32 := d.length_toList
    have hparents : parentsOf m i = m.interfaces[i].parents := by simp [parentsOf, hg]
    rw [length_append, length_append, htag, hdigest, hlen, interfaceSize, hparents, length_nil, add_zero]

theorem Ready.interfaceDigest_isSome {i : ℕ} (hi : i < m.interfaces.length) :
    (R.interfaceDigest hash256 i).isSome ↔ interfaceSize bundle m i ≤ isizeMax := by
  obtain ⟨out, ho, hlen⟩ := hR.interfaceBytes hash256 hm hc hi
  rw [Resolver.interfaceDigest, ho, ← hlen]
  simp only [bind_eq_bind, bind_some]
  split <;> simp_all

end

end LoomV4.Identity
