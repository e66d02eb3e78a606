import LoomV4.Lib.Walk

/-!
Rooted graphs whose nodes carry a label and an ordered list of children.
-/

namespace LoomV4.Lib

variable {ρ σ Λ : Type}

def childrenOf (graph : ρ → Option (Λ × List ρ)) (r : ρ) : Option (List ρ) := (graph r).map Prod.snd

/-- The map carries one rooted graph to the other: labels, the order of the children, sharing and cycles. -/
structure GraphIso (graph : ρ → Option (Λ × List ρ)) (graph' : σ → Option (Λ × List σ)) (root : ρ) (root' : σ)
    (f : ρ → σ) : Prop where
  start : f root = root'
  node : ∀ r, Reachable (childrenOf graph) [root] r →
    ∃ label children, graph r = some (label, children) ∧ graph' (f r) = some (label, children.map f)
  injective : ∀ a b, Reachable (childrenOf graph) [root] a → Reachable (childrenOf graph) [root] b → f a = f b → a = b
  surjective : ∀ y, Reachable (childrenOf graph') [root'] y → ∃ r, Reachable (childrenOf graph) [root] r ∧ f r = y

variable {graph : ρ → Option (Λ × List ρ)} {graph' : σ → Option (Λ × List σ)} {root r : ρ} {root' : σ} {f : ρ → σ}

theorem Reachable.child {succ : ρ → Option (List ρ)} {roots : List ρ} {x : ρ} (h : Reachable succ roots r)
    (hc : Child succ r x) : Reachable succ roots x := by
  obtain ⟨top, ht, hp⟩ := h
  exact ⟨top, ht, hp.tail hc⟩

theorem reachable_root {succ : ρ → Option (List ρ)} {roots : List ρ} (h : r ∈ roots) : Reachable succ roots r :=
  ⟨r, h, .refl⟩

theorem GraphIso.of_node (ho : f root = root') (hn : ∀ r, Reachable (childrenOf graph) [root] r →
      ∃ label children, graph r = some (label, children) ∧ graph' (f r) = some (label, children.map f))
    (hi : ∀ a b, Reachable (childrenOf graph) [root] a → Reachable (childrenOf graph) [root] b → f a = f b → a = b) :
    GraphIso graph graph' root root' f := by
  refine ⟨ho, hn, hi, ?_⟩
  rintro y ⟨top, ht, hp⟩
  rw [List.mem_singleton.mp ht] at hp
  induction hp with
  | refl => exact ⟨root, reachable_root (List.mem_singleton_self root), ho⟩
  | tail _ hc ih =>
    obtain ⟨r, hr, rfl⟩ := ih
    obtain ⟨label, children, hg, hg'⟩ := hn r hr
    obtain ⟨children', hc', hy⟩ := hc
    rw [childrenOf, hg', Option.map_some] at hc'
    cases hc'
    obtain ⟨x, hx, rfl⟩ := List.mem_map.mp hy
    exact ⟨x, hr.child ⟨children, by rw [childrenOf, hg]; rfl, hx⟩, rfl⟩

end LoomV4.Lib
