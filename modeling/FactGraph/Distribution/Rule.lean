import FactGraph.Walk.Derive

/-! # Distribution rules

A rule permits a specification to everyone, or to the users that a second specification selects from
the same given. Rules are compiled to walks when they are registered, and keep their order. -/

namespace FactGraph

/-- The users that a rule is restricted to. -/
structure UserConstraint where
  specification : Specification
  walk : Walk
  deriving DecidableEq

/-- A specification that may be distributed. -/
structure DistributionRule where
  specification : Specification
  walk : Walk
  /-- The restriction to certain users, if there is one. -/
  user : Option UserConstraint
  deriving DecidableEq

/-- Why a rule cannot be registered. -/
inductive RuleError where
  | walk (cause : WalkError)
  /-- The users are selected from a given of another type. -/
  | userGiven (rule user : String)
  deriving DecidableEq, Repr

def RuleError.message : RuleError → String
  | walk cause => cause.message
  | userGiven rule user =>
    "User specification starts from " ++ user ++ ", but the rule starts from " ++ rule

/-- The walk of a specification that a rule names. -/
def Specification.ruleWalk (spec : Specification) : Except RuleError Walk :=
  spec.walk.mapError .walk

namespace DistributionRule

/-- Permits a specification to everyone. -/
def everyone (spec : Specification) : Except RuleError DistributionRule := do
  return ⟨spec, ← spec.ruleWalk, none⟩

/-- Permits a specification to the users that another one selects. -/
def only (spec user : Specification) : Except RuleError DistributionRule := do
  let walk ← spec.ruleWalk
  let userWalk ← user.ruleWalk
  if walk.type = userWalk.type then return ⟨spec, walk, some ⟨user, userWalk⟩⟩
  else .error (.userGiven walk.type userWalk.type)

/-- Permits a specification to the users that another one selects, if there is another one, and
otherwise to everyone. -/
def make (spec : Specification) : Option Specification → Except RuleError DistributionRule
  | none => everyone spec
  | some user => only spec user

end DistributionRule

/-- Registered rules, in the order of registration. -/
abbrev DistributionRules : Type := List DistributionRule

end FactGraph
