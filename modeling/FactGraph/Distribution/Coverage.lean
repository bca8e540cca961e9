import FactGraph.Distribution.Assessment
import FactGraph.Walk.Basic

/-! # Coverage

A candidate walk covers a target walk when the target takes no step that the candidate does not
take, and imposes every obligation of the candidate on the facts it reaches. The target's own
obligations look at facts as well: their steps must be steps, or obligations, of the candidate.
Otherwise the target is denied with a sentence about the `subject` of the assessment. -/

namespace FactGraph

/-! ### Obligations -/

mutual

/-- Whether `outer` takes the step `inner`, and every step behind it. -/
def Step.coveredBy : (inner : Step) → (outer : Step) → Bool
  | ⟨direction, role, ⟨type, steps, _⟩⟩, outer =>
    outer.direction == direction && outer.role == role && outer.next.type == type &&
      Step.allCoveredBy steps outer.next.steps

/-- Whether each of the `inner` steps is covered by one of the `outer` ones. -/
def Step.allCoveredBy : (inner : List Step) → (outer : List Step) → Bool
  | [], _ => true
  | step :: rest, outer => outer.any step.coveredBy && Step.allCoveredBy rest outer

end

namespace Obligation

/-- Whether an imposed obligation implies a required one: a longer chain that exists implies the
shorter one, and a shorter chain that is absent implies that the longer one is. -/
def implies (imposed required : Obligation) : Bool :=
  imposed.holds == required.holds &&
    if required.holds then required.step.coveredBy imposed.step
    else imposed.step.coveredBy required.step

/-- An obligation in words, on a fact of a type. -/
def describe (type : String) (obligation : Obligation) : String :=
  type ++ " has " ++ (if obligation.holds then "a" else "no") ++ " " ++
    obligation.step.direction.name ++ " " ++ obligation.step.declaringType type ++ "." ++
    obligation.step.role

end Obligation

namespace Walk

/-- The obligations at the start of a rule's walk that a target does not impose there. -/
def unmet (target rule : Walk) : List Obligation :=
  rule.obligations.filter fun required =>
    !target.obligations.any fun imposed => imposed.implies required

/-- The steps of a walk and those of the obligations at its start. -/
def examined (walk : Walk) : List Step := walk.steps ++ walk.obligations.map Obligation.step

/-- The obligations in words that a step to the rule's walk leaves unmet. -/
def describeUnmet (target rule : Walk) : String :=
  " and ".intercalate ((target.unmet rule).map (Obligation.describe rule.type))

end Walk

namespace Step

/-- The beginning of the sentence that a step from a fact of a type is denied. -/
def cannotFollow (subject type : String) (step : Step) : String :=
  subject ++ " cannot follow " ++ step.direction.name ++ " of " ++ type ++ " " ++
    step.declaringType type ++ "." ++ step.role

/-- The candidates that go through the role of a step in its direction. -/
def along (step : Step) (candidates : List Step) : List Step :=
  candidates.filter fun candidate =>
    candidate.direction == step.direction && candidate.role == step.role

end Step

/-! ### The assessment -/

mutual

/-- Assesses whether a candidate covers a target that is `depth` steps deep, which is a word. -/
def Walk.assess (subject : String) (depth : Nat) :
    (target : Walk) → (candidate : Walk) → Assessment
  | ⟨type, steps, obligations⟩, candidate =>
    if type = candidate.type then
      let assessments := Step.assessAll subject depth depth type candidate.steps steps ++
        Obligation.assessAll subject depth type candidate.examined obligations
      match assessments.filter fun assessment => !assessment.isPermit with
      | [] => .permit
      | denials => .summarize denials
    else
      .deny (subject ++ " cannot reach " ++ type ++ " from a rule starting at " ++
        candidate.type ++ ".") depth
termination_by structural target => target

/-- Assesses a step from a fact of a type against the candidates for it. A missing candidate is a
denial at the depth `missing`. -/
def Step.assess (subject : String) (depth missing : Nat) (type : String)
    (candidates : List Step) : Step → Assessment
  | ⟨direction, role, next⟩ =>
    let step : Step := ⟨direction, role, next⟩
    match step.along candidates with
    | [] => .deny (step.cannotFollow subject type ++ ".") missing
    | reachable =>
      match reachable.filter fun candidate => (next.unmet candidate.next).isEmpty with
      | [] =>
        let reasons := reachable.map fun candidate => next.describeUnmet candidate.next
        .deny (step.cannotFollow subject type ++ " unless " ++ ", or ".intercalate reasons ++ ".")
          (Assessment.deeper depth)
      | qualifying =>
        .summarize <| qualifying.map fun candidate =>
          Walk.assess subject (Assessment.deeper depth) next candidate.next
termination_by structural step => step

/-- Assesses each of some steps. -/
def Step.assessAll (subject : String) (depth missing : Nat) (type : String)
    (candidates : List Step) : List Step → List Assessment
  | [] => []
  | step :: rest =>
    step.assess subject depth missing type candidates ::
      Step.assessAll subject depth missing type candidates rest
termination_by structural steps => steps

/-- Assesses the step of each of some obligations, which counts as one level deeper when it has no
candidate. -/
def Obligation.assessAll (subject : String) (depth : Nat) (type : String)
    (candidates : List Step) : List Obligation → List Assessment
  | [] => []
  | ⟨_, step⟩ :: rest =>
    step.assess subject depth (Assessment.deeper depth) type candidates ::
      Obligation.assessAll subject depth type candidates rest
termination_by structural obligations => obligations

end

end FactGraph
