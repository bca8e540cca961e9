import FactGraph.Walk.Basic

/-! # Graphs of facts

A graph holds facts of types. Every fact names its predecessors in roles; the facts that name it are
its successors. Specifications and walks are read against graphs of any size; a store of facts is a
finite one. -/

namespace FactGraph

/-- Typed facts, and the edges by which they name each other. -/
structure Graph (Node : Type) where
  type : Node → String
  /-- The first fact names the second one in a role. -/
  edge : Node → String → Node → Prop

/-- A step in a direction through a role leads from one fact to another. -/
def Graph.Along {Node : Type} (G : Graph Node) : Direction → String → Node → Node → Prop
  | .predecessor, role, f, g => G.edge f role g
  | .successor, role, f, g => G.edge g role f

end FactGraph
