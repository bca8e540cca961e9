import FactGraph.Distribution.Coverage
import FactGraph.Distribution.Rule
import FactGraph.Reference

/-! # The distribution engine

Decides, without looking at stored facts, whether a specification may be sent to a user. Without
rules everything may be. Otherwise some rule has to permit it: the rule's users include the user,
and its walk covers the walk of the specification.

Only a verifier knows whether a user is among those of a rule. It runs in a monad of its own, and is
asked about a rule only if no rule before it permits the specification. -/

namespace FactGraph

/-- Tells whether a constraint selects a user from start facts. -/
abbrev UserVerifier (m : Type → Type) : Type :=
  UserConstraint → List FactReference → FactReference → m Bool

/-- Rules and, if one is installed, the verifier for their users. -/
structure DistributionEngine (m : Type → Type) where
  rules : DistributionRules
  verifier : Option (UserVerifier m)

namespace DistributionEngine

variable {m : Type → Type} [Monad m]

def describe (engine : DistributionEngine m) : String :=
  "DistributionEngine \x7b rules: " ++ toString engine.rules.length ++ ", verifier: " ++
    (if engine.verifier.isSome then "true" else "false") ++ " \x7d"

/-- How a user is called in a denial. -/
def subject (user : Option FactReference) : String :=
  if user.isSome then "The user" else "An unauthenticated user"

/-- Whether a user is among those of a constraint. Nobody is, without a user or a verifier. -/
def verified (engine : DistributionEngine m) (constraint : UserConstraint)
    (start : List FactReference) (user : Option FactReference) : m Bool :=
  match user, engine.verifier with
  | some user, some verify => verify constraint start user
  | _, _ => pure false

/-- Assesses a walk by a single rule. -/
def assessRule (engine : DistributionEngine m) (target : Walk) (start : List FactReference)
    (user : Option FactReference) (rule : DistributionRule) : m Assessment := do
  let allowed ← match rule.user with
    | none => pure true
    | some constraint => engine.verified constraint start user
  if allowed then return target.assess (subject user) 0 rule.walk
  else return .deny (subject user ++ " is not among the users this rule permits.") 0

/-- Assesses by further rules until one permits, when `best` is the best denial so far. -/
def assessRules (engine : DistributionEngine m) (target : Walk) (start : List FactReference)
    (user : Option FactReference) (best : Assessment) : List DistributionRule → m Assessment
  | [] => pure best
  | rule :: rest =>
    if best.isPermit then pure best
    else do
      let assessment ← engine.assessRule target start user rule
      engine.assessRules target start user (best.prefer assessment) rest

/-- Assesses whether a specification that starts from some facts may be sent to a user. It has to
have a walk, unless there are no rules. -/
def assess (engine : DistributionEngine m) (spec : Specification) (start : List FactReference)
    (user : Option FactReference) : Except WalkError (m Assessment) :=
  match engine.rules with
  | [] => .ok (pure .permit)
  | rule :: rest => do
    let target ← spec.walk
    return do
      let first ← engine.assessRule target start user rule
      engine.assessRules target start user first rest

end DistributionEngine

end FactGraph
