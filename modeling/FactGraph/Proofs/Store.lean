import FactGraph.Proofs.Graph
import FactGraph.Reference
import Mathlib.Data.List.Nodup

/-! # Stores of facts

A store holds finitely many facts under numbers of their own, at most one of each type and hash, and
the edges between them. Its facts and edges are a graph. -/

namespace FactGraph

/-- A fact that is stored under a number. -/
structure StoredFact where
  id : Int
  reference : FactReference
  deriving DecidableEq, Repr

/-- An edge that is stored between the numbers of two facts. -/
structure StoredEdge where
  successor : Int
  role : String
  predecessor : Int
  deriving DecidableEq, Repr

/-- A store of facts. -/
structure Store where
  facts : List StoredFact
  edges : List StoredEdge
  ids_nodup : (facts.map StoredFact.id).Nodup
  references_nodup : (facts.map StoredFact.reference).Nodup
  edges_stored : ∀ edge ∈ edges, edge.successor ∈ facts.map StoredFact.id ∧
    edge.predecessor ∈ facts.map StoredFact.id

namespace Store

variable {store : Store}

/-- The facts of a store. -/
abbrev Node (store : Store) : Type := { fact : StoredFact // fact ∈ store.facts }

/-- The hash of a fact. -/
def hash (store : Store) (f : store.Node) : String := f.val.reference.hash

/-- The graph of the stored facts and edges. -/
def graph (store : Store) : Graph store.Node where
  type f := f.val.reference.type
  edge f role g := ⟨f.val.id, role, g.val.id⟩ ∈ store.edges

instance {f g : store.Node} {role : String} : Decidable (store.graph.edge f role g) :=
  inferInstanceAs (Decidable (_ ∈ store.edges))

/-- **A fact is known by its type and hash.** -/
theorem eq_of_reference_eq {f g : store.Node} (ht : store.graph.type f = store.graph.type g)
    (hh : store.hash f = store.hash g) : f = g := by
  have hr : f.val.reference = g.val.reference := by
    obtain ⟨⟨_, ⟨_, _⟩⟩, _⟩ := f
    obtain ⟨⟨_, ⟨_, _⟩⟩, _⟩ := g
    exact congrArg₂ FactReference.mk ht hh
  exact Subtype.ext (List.inj_on_of_nodup_map store.references_nodup f.property g.property hr)

end Store

end FactGraph
