/-! # Specifications

A specification describes a traversal of a graph of facts. Facts point to their predecessors through
roles. From given facts the traversal binds unknowns one after the other: a match introduces an
unknown and ties it to a label bound before it, by a path condition; existential conditions demand
that further unknowns can, or cannot, be bound from there. Projections name what is reported. -/

namespace FactGraph

/-! ### The parts of a match -/

/-- A name bound to facts of a type. -/
structure Label where
  name : String
  type : String
  deriving DecidableEq, Repr

/-- A step from a fact up to the predecessor that a role names. -/
structure Role where
  name : String
  target : String
  deriving DecidableEq, Repr

/-- The fact at which the roles of a list arrive from the unknown is the one at which the other
roles arrive from another label. -/
structure PathCondition where
  rolesLeft : List Role
  labelRight : String
  rolesRight : List Role
  deriving DecidableEq, Repr

mutual

/-- A condition on the unknown of a match. -/
inductive Condition where
  | path (condition : PathCondition)
  /-- The matches of the block can be bound, if it `holds`; they cannot, if it does not. -/
  | existential (holds : Bool) (block : List Match)

/-- Introduces an unknown and the conditions on it. -/
structure Match where
  unknown : Label
  conditions : List Condition

end

/-- The type at which a list of roles arrives. -/
def endType (start : String) (roles : List Role) : String :=
  (roles.getLast?.map Role.target).getD start

namespace Match

/-- The path conditions of a match, in their order. -/
def paths (m : Match) : List PathCondition :=
  m.conditions.filterMap fun
    | .path condition => some condition
    | .existential _ _ => none

/-- The existential conditions of a match, in their order. -/
def existentials (m : Match) : List (Bool × List Match) :=
  m.conditions.filterMap fun
    | .path _ => none
    | .existential holds block => some (holds, block)

/-- The only path condition of a match that has exactly one. -/
def path? (m : Match) : Option PathCondition :=
  match m.paths with
  | [condition] => some condition
  | _ => none

end Match

/-! ### Projections and specifications -/

/-- What is reported under a name. A projection that stands alone may have the empty name. -/
inductive Projection where
  /-- A field of the fact that a label is bound to. -/
  | field (name label field : String)
  /-- The hash of the fact that a label is bound to. -/
  | hash (name label : String)
  /-- The fact that a label is bound to. -/
  | fact (name label : String)
  /-- What further matches find from the facts bound so far. -/
  | nested (name : String) (block : List Match) (projections : List Projection)

/-- The name under which a projection reports. -/
def Projection.name : Projection → String
  | field name _ _ => name
  | hash name _ => name
  | fact name _ => name
  | nested name _ _ => name

/-- A traversal of the graph from given facts. -/
structure Specification where
  given : List Label
  body : List Match
  projections : List Projection

namespace Specification

/-- The first given label of a name. -/
def given? (spec : Specification) (name : String) : Option Label :=
  spec.given.find? fun label => label.name == name

/-- The labels that the matches introduce, without those of nested blocks. -/
def unknowns (spec : Specification) : List Label := spec.body.map Match.unknown

end Specification

/-! ### Equality -/

mutual

def Condition.decideEq : (a b : Condition) → Decidable (a = b)
  | .path p, .path q => if h : p = q then .isTrue (h ▸ rfl) else .isFalse (by simpa using h)
  | .existential s a, .existential t b =>
    if hs : s = t then
      match Match.decideEqList a b with
      | .isTrue h => .isTrue (by rw [hs, h])
      | .isFalse h => .isFalse (by simp [h])
    else .isFalse (by simp [hs])
  | .path _, .existential _ _ => .isFalse (by simp)
  | .existential _ _, .path _ => .isFalse (by simp)

def Match.decideEq : (a b : Match) → Decidable (a = b)
  | ⟨l, a⟩, ⟨r, b⟩ =>
    if hl : l = r then
      match Condition.decideEqList a b with
      | .isTrue h => .isTrue (by rw [hl, h])
      | .isFalse h => .isFalse (by simp [h])
    else .isFalse (by simp [hl])

def Match.decideEqList : (a b : List Match) → Decidable (a = b)
  | [], [] => .isTrue rfl
  | [], _ :: _ => .isFalse (by simp)
  | _ :: _, [] => .isFalse (by simp)
  | a :: as, b :: bs =>
    match Match.decideEq a b, Match.decideEqList as bs with
    | .isTrue h, .isTrue hs => .isTrue (by rw [h, hs])
    | .isFalse h, _ => .isFalse (by simp [h])
    | _, .isFalse hs => .isFalse (by simp [hs])

def Condition.decideEqList : (a b : List Condition) → Decidable (a = b)
  | [], [] => .isTrue rfl
  | [], _ :: _ => .isFalse (by simp)
  | _ :: _, [] => .isFalse (by simp)
  | a :: as, b :: bs =>
    match Condition.decideEq a b, Condition.decideEqList as bs with
    | .isTrue h, .isTrue hs => .isTrue (by rw [h, hs])
    | .isFalse h, _ => .isFalse (by simp [h])
    | _, .isFalse hs => .isFalse (by simp [hs])

end

instance : DecidableEq Condition := Condition.decideEq

instance : DecidableEq Match := Match.decideEq

mutual

def Projection.decideEq : (a b : Projection) → Decidable (a = b)
  | .field n l f, .field n' l' f' =>
    if h : n = n' ∧ l = l' ∧ f = f' then .isTrue (by simp [h]) else .isFalse (by simpa using h)
  | .hash n l, .hash n' l' =>
    if h : n = n' ∧ l = l' then .isTrue (by simp [h]) else .isFalse (by simpa using h)
  | .fact n l, .fact n' l' =>
    if h : n = n' ∧ l = l' then .isTrue (by simp [h]) else .isFalse (by simpa using h)
  | .nested n b ps, .nested n' b' ps' =>
    if h : n = n' ∧ b = b' then
      match Projection.decideEqList ps ps' with
      | .isTrue hs => .isTrue (by simp [h, hs])
      | .isFalse hs => .isFalse (by simp [hs])
    else .isFalse (by simp; intro hn hb; exact absurd ⟨hn, hb⟩ h)
  | .field _ _ _, .hash _ _ | .field _ _ _, .fact _ _ | .field _ _ _, .nested _ _ _
  | .hash _ _, .field _ _ _ | .hash _ _, .fact _ _ | .hash _ _, .nested _ _ _
  | .fact _ _, .field _ _ _ | .fact _ _, .hash _ _ | .fact _ _, .nested _ _ _
  | .nested _ _ _, .field _ _ _ | .nested _ _ _, .hash _ _ | .nested _ _ _, .fact _ _ =>
    .isFalse (by simp)

def Projection.decideEqList : (a b : List Projection) → Decidable (a = b)
  | [], [] => .isTrue rfl
  | [], _ :: _ => .isFalse (by simp)
  | _ :: _, [] => .isFalse (by simp)
  | a :: as, b :: bs =>
    match Projection.decideEq a b, Projection.decideEqList as bs with
    | .isTrue h, .isTrue hs => .isTrue (by rw [h, hs])
    | .isFalse h, _ => .isFalse (by simp [h])
    | _, .isFalse hs => .isFalse (by simp [hs])

end

instance : DecidableEq Projection := Projection.decideEq

deriving instance DecidableEq for Specification

end FactGraph
