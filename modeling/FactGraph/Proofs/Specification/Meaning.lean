import FactGraph.Proofs.Graph
import FactGraph.Proofs.Specification.Scope
import FactGraph.Specification.Vocabulary

/-! # What specifications mean

Against a graph of facts, the matches of a specification are satisfied by the facts that can be bound
to their unknowns, one after the other. A path condition is satisfied if the roles of both its sides
lead up to the same fact; an existential condition, if its block is satisfied by some facts, or by
none. -/

namespace FactGraph

/-- The facts that names are bound to, the latest first. -/
abbrev Environment (Node : Type) : Type := List (String × Node)

variable {Node : Type} (G : Graph Node)

/-- Roles lead up from a fact of a type to another fact, through facts of their target types. -/
def Graph.Climbs : (type : String) → (f : Node) → List Role → (top : Node) → Prop
  | type, f, [], top => G.type f = type ∧ f = top
  | type, f, role :: rest, top =>
    G.type f = type ∧ ∃ g, G.edge f role.name g ∧ Graph.Climbs role.target g rest top

/-- A path condition on an unknown is satisfied. -/
def PathCondition.Holds (env : Environment Node) (unknown : Label) (path : PathCondition) : Prop :=
  ∃ f g top, env.lookup unknown.name = some f ∧ env.lookup path.labelRight = some g ∧
    G.Climbs unknown.type f path.rolesLeft top ∧ G.Climbs (G.type g) g path.rolesRight top

mutual

/-- A condition on an unknown is satisfied. -/
def Condition.Holds (env : Environment Node) (unknown : Label) : Condition → Prop
  | .path path => path.Holds G env unknown
  | .existential holds block => holds = true ↔ ∃ facts, Match.SatisfiedBy env block facts

/-- Facts can be bound to the unknowns of matches. -/
def Match.SatisfiedBy (env : Environment Node) : List Match → List Node → Prop
  | [], facts => facts = []
  | ⟨unknown, conditions⟩ :: rest, facts => ∃ f others, facts = f :: others ∧
      G.type f = unknown.type ∧ Condition.AllHold ((unknown.name, f) :: env) unknown conditions ∧
      Match.SatisfiedBy ((unknown.name, f) :: env) rest others

/-- All of some conditions on an unknown are satisfied. -/
def Condition.AllHold (env : Environment Node) (unknown : Label) : List Condition → Prop
  | [] => True
  | condition :: rest => condition.Holds env unknown ∧ Condition.AllHold env unknown rest

end

/-- Binds facts to the unknowns of matches, the latest first. -/
def Environment.bindAll (env : Environment Node) : List Match → List Node → Environment Node
  | m :: rest, f :: others => Environment.bindAll ((m.unknown.name, f) :: env) rest others
  | _, _ => env

/-- The edges of the roles that are mentioned lead to facts of the target types. -/
def Graph.Obeys (mentions : List Mention) : Prop :=
  ∀ definition, .role definition ∈ mentions → ∀ f g, G.edge f definition.name g →
    G.type f = definition.definingType → G.type g = definition.target

/-! ### Elementary facts -/

variable {G}

theorem Graph.obeys_append {a b : List Mention} :
    G.Obeys (a ++ b) ↔ G.Obeys a ∧ G.Obeys b := by
  simp only [Graph.Obeys, List.mem_append]
  exact ⟨fun h => ⟨fun d hd => h d (Or.inl hd), fun d hd => h d (Or.inr hd)⟩,
    fun h d hd => hd.elim (h.1 d) (h.2 d)⟩

theorem Graph.obeys_roles {start : String} {role : Role} {rest : List Role}
    (h : G.Obeys (mentionedInRoles start (role :: rest))) :
    (∀ f g, G.edge f role.name g → G.type f = start → G.type g = role.target) ∧
      G.Obeys (mentionedInRoles role.target rest) := by
  refine ⟨h ⟨start, role.name, role.target⟩ (by simp [mentionedInRoles]), fun d hd => h d ?_⟩
  simp only [mentionedInRoles, List.mem_cons]
  exact Or.inr (Or.inr hd)

theorem Graph.Climbs.type_start {type : String} {f top : Node} {roles : List Role}
    (h : G.Climbs type f roles top) : G.type f = type := by
  cases roles <;> exact h.1

theorem Graph.Climbs.type_end : ∀ {roles : List Role} {type : String} {f top : Node},
    G.Climbs type f roles top → G.type top = endType type roles
  | [], _, _, _, h => by
    rw [← h.2]
    exact h.1
  | role :: rest, _, _, _, ⟨_, _, _, h⟩ => by
    rw [endType_cons, Graph.Climbs.type_end h]

theorem Match.satisfiedBy_cons_iff {env : Environment Node} {unknown : Label}
    {conditions : List Condition} {rest : List Match} {f : Node} {others : List Node} :
    Match.SatisfiedBy G env (⟨unknown, conditions⟩ :: rest) (f :: others) ↔
      (G.type f = unknown.type ∧
        Condition.AllHold G ((unknown.name, f) :: env) unknown conditions) ∧
      Match.SatisfiedBy G ((unknown.name, f) :: env) rest others := by
  rw [Match.SatisfiedBy, and_assoc]
  constructor
  · rintro ⟨f', others', he, h⟩
    cases he
    exact h
  · exact fun h => ⟨f, others, rfl, h⟩

theorem Match.length_of_satisfiedBy : ∀ {matches' : List Match} {env : Environment Node}
    {facts : List Node}, Match.SatisfiedBy G env matches' facts → facts.length = matches'.length
  | [], _, _, h => by
    cases h
    rfl
  | ⟨_, _⟩ :: rest, _, _, ⟨_, _, he, _, _, h⟩ => by
    rw [he, List.length_cons, List.length_cons, Match.length_of_satisfiedBy h]

end FactGraph
