import LoomV4.Bytecode.Basic
import LoomV4.Lib.Lex

namespace LoomV4.Identity

open Lib Lib.Reader

def refineWorkBudget : ℕ := 2 ^ 24

def moduleRefineWorkBudget : ℕ := 2 ^ 25

def rankFrom (values : List Bytes) : Bytes → ℕ → List ℕ → List (ℕ × ℕ)
  | _, _, [] => []
  | last, colour, idx :: rest =>
    let value := values.getD idx []
    let colour := if value = last then colour else colour + 1
    (idx, colour) :: rankFrom values value colour rest

def rankTable (values : List Bytes) : List (ℕ × ℕ) :=
  match (List.range values.length).mergeSort fun a b => bytesLe (values.getD a []) (values.getD b []) with
  | [] => []
  | first :: rest => (first, 0) :: rankFrom values (values.getD first []) 0 rest

/-- `rank`: the colours of the values by content, and how many there are. -/
def rank (values : List Bytes) : List ℕ × ℕ :=
  ((List.range values.length).map fun i => ((rankTable values).lookup i).getD 0,
    (((rankTable values).getLast?).map fun p => p.2 + 1).getD 0)

def signature (colours : List ℕ) (colour : ℕ) (refs : List ℕ) : Option Bytes :=
  (refs.mapM fun r => colours[r]?).map fun cs => leBytes 4 colour ++ cs.flatMap (leBytes 4)

def signatures (colours : List ℕ) (refs : List (List ℕ)) : Option (List Bytes) :=
  (colours.zip refs).mapM fun p => signature colours p.1 p.2

def refineRounds (refs : List (List ℕ)) (componentRounds moduleRounds : ℕ) :
    ℕ → ℕ → List ℕ → ℕ → Option (Except String (List ℕ × ℕ))
  | 0, round, colours, _ => some (.ok (colours, round))
  | left + 1, round, colours, distinct =>
    if distinct = refs.length then some (.ok (colours, round))
    else if componentRounds ≤ round then
      some (.error "the component needs more refinement rounds than the budget allows")
    else if moduleRounds ≤ round then some (.error "the module needs more refinement work than the budget allows")
    else
      (signatures colours refs).bind fun sigs =>
        let next := rank sigs
        if next.2 = distinct then some (.ok (next.1, round + 1))
        else refineRounds refs componentRounds moduleRounds left (round + 1) next.1 next.2

/-- `refine_colours`: the colours, the rounds and the work. -/
def refineColours (base : List Bytes) (refs : List (List ℕ)) (remaining : ℕ) :
    Option (Except String (List ℕ × ℕ × ℕ)) :=
  if base.length ≤ 1 then some (.ok (List.replicate base.length 0, 0, 0))
  else
    let first := rank base
    let perRound := max (base.length + (refs.map List.length).sum) 1
    (refineRounds refs (max (refineWorkBudget / perRound) 1) (remaining / perRound) base.length 0 first.1 first.2).map
      fun r => r.map fun p => (p.1, p.2, p.2 * perRound)

end LoomV4.Identity
