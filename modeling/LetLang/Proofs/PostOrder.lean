import LetLang.Proofs.Tracking
import Mathlib

/-! # Nodes are numbered in post order

The numbers of a parsed program count its nodes from 0 on, each of them once.  A node has a larger
number than all that is inside it, and of two nodes that stand side by side, the one whose tokens
come first has the smaller number.

* `Arranged.side_by_side`     two nodes are nested, or one stands before the other
* `ids_count_in_post_order`   what the numbers of a parsed program tell -/

namespace LetLang

section Numbered

variable {nodes : List Node} (hids : nodes.map Node.id = List.range nodes.length)

include hids

/-- Ids grow along the listing. -/
private theorem pairwise_id_lt : nodes.Pairwise fun m n => m.id < n.id := by
  rw [← List.pairwise_map, hids]
  exact List.pairwise_lt_range

/-- What is inside a node was numbered before it. -/
private theorem Closed.id_lt (h : Closed nodes) {m n : Node} (hn : n ∈ nodes) (hm : m ∈ n.inside) :
    m.id < n.id := by
  have hsubtree := (pairwise_id_lt hids).sublist (h n hn)
  exact (List.pairwise_append.mp hsubtree).2.2 m hm n (List.mem_singleton.mpr rfl)

/-- Two nodes are nested or stand side by side, and the first of them was numbered first. -/
theorem Arranged.side_by_side {i j : Nat} {ps : List Place} (h : Arranged i j nodes ps)
    {p q : Place} (hp : p ∈ ps) (hq : q ∈ ps) (hne : p ≠ q) (hpq : p.node ∉ q.node.inside)
    (hqp : q.node ∉ p.node.inside) :
    p.stop ≤ q.start ∧ p.node.id < q.node.id ∨ q.stop ≤ p.start ∧ q.node.id < p.node.id := by
  have hlt : ps.Pairwise fun p q => p.node.id < q.node.id := by
    have := pairwise_id_lt hids
    rwa [← h.nodes_eq, List.pairwise_map] at this
  -- One of the two comes first in the list, and what holds of them then is symmetric.
  have hpair : ps.Pairwise fun p q =>
      (p.node ∈ q.node.inside ∨ p.stop ≤ q.start) ∧ p.node.id < q.node.id ∨
        (q.node ∈ p.node.inside ∨ q.stop ≤ p.start) ∧ q.node.id < p.node.id :=
    (h.ordered.and hlt).imp Or.inl
  have hboth := @List.Pairwise.forall _ _ _ ⟨fun _ _ => Or.symm⟩ hpair _ hp _ hq hne
  simpa only [hpq, hqp, false_or] using hboth

end Numbered

/-- The nodes of a parsed program are numbered in post order.  All of them stand somewhere among
    the tokens, and wherever they do, those that are not nested stand in the order of their
    numbers. -/
theorem ids_count_in_post_order {tokens : List Token} {source : Source}
    (h : parse tokens = .ok source) :
    source.allNodes.map Node.id = List.range source.allNodes.length ∧
    (∀ n ∈ source.allNodes, ∀ m ∈ n.inside, m.id < n.id) ∧
    (∃ places, source.Stands tokens places) ∧
    ∀ places, source.Stands tokens places →
      places.map Place.node = source.allNodes ∧
      (∀ p ∈ places, p.start < p.stop ∧ p.stop ≤ tokens.length) ∧
      ∀ p ∈ places, ∀ q ∈ places, p ≠ q → p.node ∉ q.node.inside → q.node ∉ p.node.inside →
        p.stop ≤ q.start ∧ p.node.id < q.node.id ∨ q.stop ≤ p.start ∧ q.node.id < p.node.id := by
  -- The listing of the nodes is the order in which the parser has drawn the ids.
  have hids : source.allNodes.map Node.id = List.range source.allNodes.length := by
    rw [← List.length_map (f := Node.id), source.map_id_allNodes]
    exact ids_parse h
  refine ⟨hids, fun n hn m hm => source.closed_allNodes.id_lt hids hn hm,
    Source.stands_of_parse h, fun places hplaces => ?_⟩
  have harranged := hplaces.arranged
  refine ⟨harranged.nodes_eq, fun p hp => (harranged.within p hp).2, ?_⟩
  intro p hp q hq hne hpq hqp
  exact harranged.side_by_side hids hp hq hne hpq hqp

/-- The tokens of `LET a = f(1, (2)); DEF g() DO IF a DO ELSE END RETURN a.b; END`. -/
def gradedTokens : List Token :=
  [⟨.identifier, "LET", 0⟩, ⟨.identifier, "a", 4⟩, ⟨.operator, "=", 6⟩, ⟨.identifier, "f", 8⟩,
    ⟨.operator, "(", 9⟩, ⟨.integer, "1", 10⟩, ⟨.operator, ",", 11⟩, ⟨.operator, "(", 13⟩,
    ⟨.integer, "2", 14⟩, ⟨.operator, ")", 15⟩, ⟨.operator, ")", 16⟩, ⟨.operator, ";", 17⟩,
    ⟨.identifier, "DEF", 19⟩, ⟨.identifier, "g", 23⟩, ⟨.operator, "(", 24⟩, ⟨.operator, ")", 25⟩,
    ⟨.identifier, "DO", 27⟩, ⟨.identifier, "IF", 30⟩, ⟨.identifier, "a", 33⟩,
    ⟨.identifier, "DO", 35⟩, ⟨.identifier, "ELSE", 38⟩, ⟨.identifier, "END", 43⟩,
    ⟨.identifier, "RETURN", 47⟩, ⟨.identifier, "a", 54⟩, ⟨.operator, ".", 55⟩,
    ⟨.identifier, "b", 56⟩, ⟨.operator, ";", 57⟩, ⟨.identifier, "END", 59⟩]

/-- What they are read as. -/
def graded : Source :=
  ⟨[⟨4, "a", none,
      some (.call 3 "f" [.literal 0 (.integer 1), .group 2 (.literal 1 (.integer 2))])⟩],
    [⟨8, "g", [], none, [.ifElse (.var 5 "a") [] [], .returns (.field 7 (.var 6 "a") "b")]⟩]⟩

theorem graded_counts_in_post_order :
    parse gradedTokens = .ok graded ∧ graded.allNodes.map Node.id = [0, 1, 2, 3, 4, 5, 6, 7, 8] ∧
      (∀ n ∈ graded.allNodes, ∀ m ∈ n.inside, m.id < n.id) ∧
      ∃ places, graded.Stands gradedTokens places ∧ places.map Place.node = graded.allNodes := by
  have hparse : parse gradedTokens = .ok graded := by cbv
  obtain ⟨hids, hinside, ⟨places, hplaces⟩, hall⟩ := ids_count_in_post_order hparse
  exact ⟨hparse, hids, hinside, places, hplaces, (hall places hplaces).1⟩

end LetLang
