import FactGraph.Catalog
import FactGraph.Specification.Scope

/-! # The vocabulary of a specification

The fact types and roles that a specification mentions, in the order in which they first appear. A
catalog that knows exactly these can be inferred: it numbers the types, and the roles, from 1. -/

namespace FactGraph

/-- A role together with the type that declares it. -/
structure RoleDefinition where
  definingType : String
  name : String
  target : String
  deriving DecidableEq, Repr

/-- Something that a specification mentions. -/
inductive Mention where
  | type (name : String)
  | role (definition : RoleDefinition)
  deriving DecidableEq, Repr

/-- What roles mention that lead up from a type. -/
def mentionedInRoles (start : String) : List Role → List Mention
  | [] => []
  | role :: rest =>
    .type role.target :: .role ⟨start, role.name, role.target⟩ :: mentionedInRoles role.target rest

/-- What a path condition mentions; the roles behind a label that is not visible do not count. -/
def PathCondition.mentions (scope : Scope) (unknown : Label) (path : PathCondition) :
    List Mention :=
  mentionedInRoles unknown.type path.rolesLeft ++
    match scope.type? path.labelRight with
    | some type => mentionedInRoles type path.rolesRight
    | none => []

mutual

/-- What a condition on a visible unknown mentions. -/
def Condition.mentions (scope : Scope) (unknown : Label) : Condition → List Mention
  | .path path => path.mentions scope unknown
  | .existential _ block => Match.mentionsAll scope block

/-- What a match mentions. -/
def Match.mentions (scope : Scope) : Match → List Mention
  | ⟨unknown, conditions⟩ =>
    .type unknown.type :: Condition.mentionsAll (scope.bind unknown) unknown conditions

/-- What matches mention, each of which sees the unknowns of those before it. -/
def Match.mentionsAll (scope : Scope) : List Match → List Mention
  | [] => []
  | m :: rest => m.mentions scope ++ Match.mentionsAll (scope.bind m.unknown) rest

def Condition.mentionsAll (scope : Scope) (unknown : Label) : List Condition → List Mention
  | [] => []
  | condition :: rest =>
    condition.mentions scope unknown ++ Condition.mentionsAll scope unknown rest

end

/-- Makes the unknowns of matches visible. -/
def Scope.bindAll (scope : Scope) (labels : List Label) : Scope := labels.foldl Scope.bind scope

mutual

/-- What a projection mentions. Only nested projections mention anything. -/
def Projection.mentions (scope : Scope) : Projection → List Mention
  | .nested _ block projections =>
    Match.mentionsAll scope block ++
      Projection.mentionsAll (scope.bindAll (block.map Match.unknown)) projections
  | _ => []

def Projection.mentionsAll (scope : Scope) : List Projection → List Mention
  | [] => []
  | projection :: rest => projection.mentions scope ++ Projection.mentionsAll scope rest

end

namespace Specification

/-- Everything that a specification mentions, as often as it does. -/
def mentions (spec : Specification) : List Mention :=
  let given := Scope.bindAll [] spec.given
  spec.given.map (fun label => .type label.type) ++ Match.mentionsAll given spec.body ++
    Projection.mentionsAll (given.bindAll spec.unknowns) spec.projections

/-- The fact types of a specification, each of them once. -/
def factTypes (spec : Specification) : List String :=
  (spec.mentions.filterMap fun
    | .type name => some name
    | .role _ => none).eraseDups

/-- The roles of a specification, each of them once. -/
def roles (spec : Specification) : List RoleDefinition :=
  (spec.mentions.filterMap fun
    | .type _ => none
    | .role definition => some definition).eraseDups

/-- The catalog that numbers the fact types and the roles of a specification from 1. -/
def inferCatalog (spec : Specification) : Except CatalogError Catalog := do
  let types ← (spec.factTypes.zipIdx 1).foldlM
    (fun catalog (name, id) => catalog.insertFactType name id) Catalog.empty
  (spec.roles.zipIdx 1).foldlM
    (fun catalog (role, id) => catalog.insertRole role.definingType role.name id) types

end Specification

end FactGraph
