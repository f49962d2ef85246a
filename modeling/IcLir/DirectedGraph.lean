/-
  Directed graphs as a library offers them. Nodes are numbered in the order in which they are
  added, and the neighbours of a node are listed from the newest edge to the oldest one.
  `LawfulDirectedGraph` is all that is relied on; `EdgeList` is a library that keeps to it.
-/

namespace IcLir

inductive Direction where
  | incoming
  | outgoing

class DirectedGraph (G : Type → Type) where
  empty {ν : Type} : G ν
  nodes {ν : Type} : G ν → List ν
  neighbours {ν : Type} : G ν → Direction → Nat → List Nat
  /-- The number of the new node comes with the graph. -/
  addNode {ν : Type} : G ν → ν → Nat × G ν
  addEdge {ν : Type} : G ν → Nat → Nat → G ν
  modify {ν : Type} : G ν → Nat → (ν → ν) → G ν

open DirectedGraph

/-- Edges and changes of nodes are asked for only at nodes that are there. -/
class LawfulDirectedGraph (G : Type → Type) [DirectedGraph G] : Prop where
  nodes_empty {ν : Type} : nodes (empty : G ν) = []
  nodes_addNode {ν : Type} (g : G ν) (v : ν) : nodes (addNode g v).2 = nodes g ++ [v]
  nodes_addEdge {ν : Type} (g : G ν) {a b : Nat} : a < (nodes g).length → b < (nodes g).length →
    nodes (addEdge g a b) = nodes g
  nodes_modify {ν : Type} (g : G ν) {a : Nat} (f : ν → ν) : a < (nodes g).length →
    nodes (modify g a f) = (nodes g).modify a f
  addNode_fst {ν : Type} (g : G ν) (v : ν) : (addNode g v).1 = (nodes g).length
  neighbours_empty {ν : Type} (d : Direction) (c : Nat) : neighbours (empty : G ν) d c = []
  neighbours_addNode {ν : Type} (g : G ν) (v : ν) : neighbours (addNode g v).2 = neighbours g
  incoming_addEdge {ν : Type} (g : G ν) {a b : Nat} (c : Nat) : a < (nodes g).length →
    b < (nodes g).length → neighbours (addEdge g a b) .incoming c =
      if c = b then a :: neighbours g .incoming c else neighbours g .incoming c
  outgoing_addEdge {ν : Type} (g : G ν) {a b : Nat} (c : Nat) : a < (nodes g).length →
    b < (nodes g).length → neighbours (addEdge g a b) .outgoing c =
      if c = a then b :: neighbours g .outgoing c else neighbours g .outgoing c
  neighbours_modify {ν : Type} (g : G ν) {a : Nat} (f : ν → ν) : a < (nodes g).length →
    neighbours (modify g a f) = neighbours g

/-- A graph as its nodes and, newest first, its edges. -/
structure EdgeList (ν : Type) where
  nodes : List ν
  edges : List (Nat × Nat)

namespace EdgeList

instance : DirectedGraph EdgeList where
  empty := ⟨[], []⟩
  nodes := EdgeList.nodes
  neighbours g
    | .incoming, c => (g.edges.filter (·.2 = c)).map Prod.fst
    | .outgoing, c => (g.edges.filter (·.1 = c)).map Prod.snd
  addNode g v := (g.nodes.length, { g with nodes := g.nodes ++ [v] })
  addEdge g a b := { g with edges := (a, b) :: g.edges }
  modify g a f := { g with nodes := g.nodes.modify a f }

instance : LawfulDirectedGraph EdgeList where
  nodes_empty := rfl
  nodes_addNode _ _ := rfl
  nodes_addEdge _ _ _ _ _ := rfl
  nodes_modify _ _ _ _ := rfl
  addNode_fst _ _ := rfl
  neighbours_empty d _ := by cases d <;> rfl
  neighbours_addNode _ _ := rfl
  incoming_addEdge g a b c _ _ := by
    by_cases h : c = b <;> simp [neighbours, addEdge, h, eq_comm]
  outgoing_addEdge g a b c _ _ := by
    by_cases h : c = a <;> simp [neighbours, addEdge, h, eq_comm]
  neighbours_modify _ _ _ _ := rfl

end EdgeList

end IcLir
