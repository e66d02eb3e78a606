import Mathlib.Data.List.Nodup
import Mathlib.Logic.Relation

/-!
The preorder walk of a graph with an explicit stack. Nodes are told apart by a key.
-/

namespace LoomV4.Lib

open List Option

section

variable {ρ κ : Type} (key : ρ → κ) (succ : ρ → Option (List ρ))

/-- The walk from this stack, with these nodes entered already, ends with `out` entered in this order. -/
inductive Walked : List ρ → List ρ → List ρ → Prop
  | done {seen : List ρ} : Walked [] seen seen
  | skip {r : ρ} {stack seen out : List ρ} (hs : key r ∈ seen.map key) (h : Walked stack seen out) :
      Walked (r :: stack) seen out
  | enter {r : ρ} {children stack seen out : List ρ} (hs : key r ∉ seen.map key)
      (hc : succ r = some children) (h : Walked (children ++ stack) (seen ++ [r]) out) :
      Walked (r :: stack) seen out

def Child (a b : ρ) : Prop := ∃ children, succ a = some children ∧ b ∈ children

def Reachable (roots : List ρ) (r : ρ) : Prop := ∃ root ∈ roots, Relation.ReflTransGen (Child succ) root r

end

namespace Walked

variable {ρ κ : Type} {key : ρ → κ} {succ : ρ → Option (List ρ)} {stack seen out : List ρ}

section

variable (h : Walked key succ stack seen out)

include h

theorem subset {r : ρ} (hr : r ∈ seen) : r ∈ out := by
  induction h with
  | done => exact hr
  | skip _ _ ih => exact ih hr
  | enter _ _ _ ih => exact ih (mem_append_left _ hr)

theorem nodup (hn : (seen.map key).Nodup) : (out.map key).Nodup := by
  induction h with
  | done => exact hn
  | skip _ _ ih => exact ih hn
  | enter hs _ _ ih =>
    apply ih
    rw [map_append, map_singleton, nodup_append]
    refine ⟨hn, nodup_singleton _, ?_⟩
    intro a ha b hb
    rw [mem_singleton.mp hb]
    exact fun he => hs (he ▸ ha)

theorem stack_seen {r : ρ} (hr : r ∈ stack) : key r ∈ out.map key := by
  induction h with
  | done => cases hr
  | skip hs hw ih =>
    cases mem_cons.mp hr with
    | inl he =>
      obtain ⟨x, hx, hk⟩ := List.mem_map.mp (he ▸ hs)
      exact List.mem_map.mpr ⟨x, hw.subset hx, hk⟩
    | inr hm => exact ih hm
  | @enter r' _ _ _ _ _ _ hw ih =>
    cases mem_cons.mp hr with
    | inl he =>
      have hm := hw.subset (mem_append_right _ (mem_singleton.mpr rfl))
      exact List.mem_map.mpr ⟨r', hm, by rw [he]⟩
    | inr hm => exact ih (mem_append_right _ hm)

theorem closed {r : ρ} (hr : r ∈ out) :
    r ∈ seen ∨ ∃ children, succ r = some children ∧ ∀ c ∈ children, key c ∈ out.map key := by
  induction h with
  | done => exact .inl hr
  | skip _ _ ih => exact ih hr
  | @enter r' children stack seen out _ hc hw ih =>
    cases ih hr with
    | inr hx => exact .inr hx
    | inl hx =>
      cases mem_append.mp hx with
      | inl hs => exact .inl hs
      | inr he =>
        rw [mem_singleton.mp he]
        exact .inr ⟨children, hc, fun c hm => hw.stack_seen (mem_append_left _ hm)⟩

theorem reachable {r : ρ} (hr : r ∈ out) : r ∈ seen ∨ Reachable succ stack r := by
  induction h with
  | done => exact .inl hr
  | skip _ _ ih =>
    obtain hs | ⟨root, ho, hp⟩ := ih hr
    · exact .inl hs
    · exact .inr ⟨root, mem_cons_of_mem _ ho, hp⟩
  | @enter r' children stack seen out _ hc _ ih =>
    obtain hs | ⟨root, ho, hp⟩ := ih hr
    · cases mem_append.mp hs with
      | inl hs => exact .inl hs
      | inr he => exact .inr ⟨r', mem_cons_self, mem_singleton.mp he ▸ .refl⟩
    · cases mem_append.mp ho with
      | inl hm => exact .inr ⟨r', mem_cons_self, .head ⟨children, hc, hm⟩ hp⟩
      | inr hm => exact .inr ⟨root, mem_cons_of_mem _ hm, hp⟩

end

theorem complete (h : Walked key succ stack [] out)
    (hi : ∀ a b, succ a ≠ none → succ b ≠ none → key a = key b → a = b)
    {r : ρ} (hr : Reachable succ stack r) (hl : succ r ≠ none) : r ∈ out := by
  obtain ⟨root, ho, hp⟩ := hr
  have entered : ∀ {x : ρ}, key x ∈ out.map key → succ x ≠ none → x ∈ out := by
    intro x hk hx
    obtain ⟨y, hy, he⟩ := List.mem_map.mp hk
    obtain hs | ⟨children, hc, -⟩ := h.closed hy
    · cases hs
    · exact hi y x (by rw [hc]; exact some_ne_none _) hx he ▸ hy
  induction hp with
  | refl => exact entered (h.stack_seen ho) hl
  | tail _ hh ih =>
    obtain ⟨children, hc, hm⟩ := hh
    obtain hs | ⟨children', hc', hk⟩ := h.closed (ih (by rw [hc]; exact some_ne_none _))
    · cases hs
    · rw [hc] at hc'
      cases hc'
      exact entered (hk _ hm) hl

end Walked

end LoomV4.Lib
