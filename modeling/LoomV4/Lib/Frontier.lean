import LoomV4.Lib.Walk
import Mathlib.Data.List.TakeWhile

/-!
A search over a graph with a work list, in any order: what has been seen, and what is still to do.
-/

namespace LoomV4.Lib

open List

variable {ρ : Type} {succ : ρ → Option (List ρ)} {roots work work' seen next : List ρ} {r : ρ}

theorem nodup_append_singleton (hn : seen.Nodup) (hr : r ∉ seen) : (seen ++ [r]).Nodup := by
  rw [nodup_append]
  refine ⟨hn, nodup_singleton r, ?_⟩
  rintro a ha b hb rfl
  exact hr (mem_singleton.mp hb ▸ ha)

theorem forall_append_singleton {P : ρ → Prop} (hs : ∀ x ∈ seen, P x) (hr : P r) : ∀ x ∈ seen ++ [r], P x := by
  intro x hx
  rcases mem_append.mp hx with hx | hx
  · exact hs x hx
  · exact mem_singleton.mp hx ▸ hr

structure Frontier (succ : ρ → Option (List ρ)) (roots work seen : List ρ) : Prop where
  nodup : seen.Nodup
  started : ∀ r ∈ roots, r ∈ seen ∨ r ∈ work
  closed : ∀ r ∈ seen, ∃ next, succ r = some next ∧ ∀ x ∈ next, x ∈ seen ∨ x ∈ work
  sound : ∀ r, r ∈ seen ∨ r ∈ work → Reachable succ roots r

namespace Frontier

theorem start (succ : ρ → Option (List ρ)) (hw : ∀ r, r ∈ work ↔ r ∈ roots) : Frontier succ roots work [] := by
  refine ⟨nodup_nil, fun r hr => .inr ((hw r).mpr hr), fun r hr => absurd hr not_mem_nil, ?_⟩
  rintro r (hr | hr)
  · cases hr
  · exact ⟨r, (hw r).mp hr, .refl⟩

theorem skip (h : Frontier succ roots work seen) (hw : ∀ x ∈ work', x ∈ work)
    (hs : ∀ x ∈ work, x ∈ work' ∨ x ∈ seen) : Frontier succ roots work' seen := by
  have keep : ∀ x, x ∈ seen ∨ x ∈ work → x ∈ seen ∨ x ∈ work' := by
    rintro x (hx | hx)
    · exact .inl hx
    · exact (hs x hx).symm
  refine ⟨h.nodup, fun r hr => keep r (h.started r hr), fun r hr => ?_, fun r hr => h.sound r (hr.imp_right (hw r))⟩
  obtain ⟨next, hn, hx⟩ := h.closed r hr
  exact ⟨next, hn, fun x hm => keep x (hx x hm)⟩

theorem drop [DecidableEq ρ] (h : Frontier succ roots work seen)
    (hd : work.dropWhile (fun x => decide (x ∈ seen)) = work') : Frontier succ roots work' seen := by
  subst hd
  refine h.skip (fun x hx => (dropWhile_sublist _).subset hx) fun x hx => ?_
  rw [← takeWhile_append_dropWhile (p := fun x => decide (x ∈ seen)) (l := work)] at hx
  rcases mem_append.mp hx with hx | hx
  · have hin := mem_takeWhile_imp hx
    exact .inr (of_decide_eq_true hin)
  · exact .inl hx

theorem enter (h : Frontier succ roots (r :: work) seen) (hn : r ∉ seen) (hs : succ r = some next)
    (hw : ∀ x ∈ work', x ∈ work ∨ x ∈ next) (hk : ∀ x, x ∈ work ∨ x ∈ next → x ∈ seen ++ [r] ∨ x ∈ work') :
    Frontier succ roots work' (seen ++ [r]) := by
  have old : ∀ x, x ∈ seen ∨ x ∈ r :: work → x ∈ seen ++ [r] ∨ x ∈ work' := by
    rintro x (hx | hx)
    · exact .inl (mem_append_left _ hx)
    · rcases mem_cons.mp hx with rfl | hx
      · exact .inl (mem_append_right _ (mem_singleton_self x))
      · exact hk x (.inl hx)
  have reach : ∀ x ∈ next, Reachable succ roots x := by
    intro x hx
    obtain ⟨root, hr, hp⟩ := h.sound r (.inr mem_cons_self)
    exact ⟨root, hr, hp.tail ⟨next, hs, hx⟩⟩
  refine ⟨nodup_append_singleton h.nodup hn, fun x hx => old x (h.started x hx), fun x hx => ?_, fun x hx => ?_⟩
  · cases mem_append.mp hx with
    | inl hx =>
      obtain ⟨next', hn', hx'⟩ := h.closed x hx
      exact ⟨next', hn', fun y hy => old y (hx' y hy)⟩
    | inr hx =>
      rw [mem_singleton.mp hx]
      exact ⟨next, hs, fun y hy => hk y (.inr hy)⟩
  · rcases hx with hx | hx
    · cases mem_append.mp hx with
      | inl hx => exact h.sound x (.inl hx)
      | inr hx =>
        rw [mem_singleton.mp hx]
        exact h.sound r (.inr mem_cons_self)
    · cases hw x hx with
      | inl hx => exact h.sound x (.inr (mem_cons_of_mem r hx))
      | inr hx => exact reach x hx

theorem enter_leaf (h : Frontier succ roots (r :: work) seen) (hn : r ∉ seen) (hs : succ r = some []) :
    Frontier succ roots work (seen ++ [r]) :=
  h.enter hn hs (fun _ hx => .inl hx) fun _ hx => .inr (hx.resolve_right not_mem_nil)

theorem finish (h : Frontier succ roots [] seen) : r ∈ seen ↔ Reachable succ roots r := by
  have done : ∀ {x : ρ}, x ∈ seen ∨ x ∈ ([] : List ρ) → x ∈ seen := fun hx =>
    hx.elim id fun hx => absurd hx not_mem_nil
  refine ⟨fun hr => h.sound r (.inl hr), ?_⟩
  rintro ⟨root, ho, hp⟩
  induction hp with
  | refl => exact done (h.started root ho)
  | tail _ hc ih =>
    obtain ⟨next, hn, hx⟩ := h.closed _ ih
    obtain ⟨next', hn', hm⟩ := hc
    rw [hn] at hn'
    cases hn'
    exact done (hx _ hm)

end Frontier

end LoomV4.Lib
