/-! # Walks

A walk is the shape of a traversal: from a fact of some type it takes steps, up to predecessors and
down to successors, and goes on from the facts it reaches. Facts on the way may carry obligations: a
step that must be possible from them, or must not. A walk says nothing about stored facts; walks are
compared with each other. -/

namespace FactGraph

inductive Direction where
  /-- From a fact up to the one that its role names. -/
  | predecessor
  /-- From a fact down to those that name it in a role. -/
  | successor
  deriving DecidableEq, Repr

def Direction.name : Direction → String
  | predecessor => "predecessor"
  | successor => "successor"

mutual

/-- A traversal from a fact of a type. -/
structure Walk where
  type : String
  steps : List Step
  /-- What the fact at which the walk starts has to satisfy. -/
  obligations : List Obligation

/-- A step through a role, and the walk that goes on behind it. -/
structure Step where
  direction : Direction
  role : String
  next : Walk

/-- A step that must be possible, if it `holds`, or must not. -/
structure Obligation where
  holds : Bool
  step : Step

end

/-- The type that declares the role of a step which starts from a fact of type `start`. -/
def Step.declaringType (start : String) (step : Step) : String :=
  match step.direction with
  | .predecessor => start
  | .successor => step.next.type

namespace Walk

/-! ### Building walks -/

/-- The walk that stays at a fact of a type. -/
def ofType (type : String) : Walk := ⟨type, [], []⟩

def addStep (walk : Walk) (step : Step) : Walk := { walk with steps := walk.steps ++ [step] }

/-- Adds a step down to successors. -/
def successor (walk : Walk) (role : String) (next : Walk) : Walk :=
  walk.addStep ⟨.successor, role, next⟩

/-- Adds a step up to a predecessor. -/
def predecessor (walk : Walk) (role : String) (next : Walk) : Walk :=
  walk.addStep ⟨.predecessor, role, next⟩

def oblige (walk : Walk) (obligation : Obligation) : Walk :=
  { walk with obligations := walk.obligations ++ [obligation] }

end Walk

/-! ### Obligations on the way -/

mutual

/-- Whether a fact on the way carries an obligation. The steps of obligations are not on the way. -/
def Walk.hasObligations : Walk → Bool
  | ⟨_, steps, obligations⟩ => !obligations.isEmpty || Step.anyObligations steps

/-- Whether a fact behind one of some steps carries an obligation. -/
def Step.anyObligations : List Step → Bool
  | [] => false
  | ⟨_, _, next⟩ :: rest => next.hasObligations || Step.anyObligations rest

end

/-! ### Equality -/

mutual

def Walk.decideEq : (a b : Walk) → Decidable (a = b)
  | ⟨type, steps, obligations⟩, ⟨type', steps', obligations'⟩ =>
    if ht : type = type' then
      match Step.decideEqList steps steps', Obligation.decideEqList obligations obligations' with
      | .isTrue hs, .isTrue ho => .isTrue (by rw [ht, hs, ho])
      | .isFalse hs, _ => .isFalse (by simp [hs])
      | _, .isFalse ho => .isFalse (by simp [ho])
    else .isFalse (by simp [ht])

def Step.decideEq : (a b : Step) → Decidable (a = b)
  | ⟨direction, role, next⟩, ⟨direction', role', next'⟩ =>
    if h : direction = direction' ∧ role = role' then
      match Walk.decideEq next next' with
      | .isTrue hn => .isTrue (by rw [h.1, h.2, hn])
      | .isFalse hn => .isFalse (by simp [hn])
    else .isFalse (by simp; intro hd hr; exact absurd ⟨hd, hr⟩ h)

def Obligation.decideEq : (a b : Obligation) → Decidable (a = b)
  | ⟨holds, step⟩, ⟨holds', step'⟩ =>
    if h : holds = holds' then
      match Step.decideEq step step' with
      | .isTrue hs => .isTrue (by rw [h, hs])
      | .isFalse hs => .isFalse (by simp [hs])
    else .isFalse (by simp [h])

def Step.decideEqList : (a b : List Step) → Decidable (a = b)
  | [], [] => .isTrue rfl
  | [], _ :: _ => .isFalse (by simp)
  | _ :: _, [] => .isFalse (by simp)
  | a :: as, b :: bs =>
    match Step.decideEq a b, Step.decideEqList as bs with
    | .isTrue h, .isTrue hs => .isTrue (by rw [h, hs])
    | .isFalse h, _ => .isFalse (by simp [h])
    | _, .isFalse hs => .isFalse (by simp [hs])

def Obligation.decideEqList : (a b : List Obligation) → Decidable (a = b)
  | [], [] => .isTrue rfl
  | [], _ :: _ => .isFalse (by simp)
  | _ :: _, [] => .isFalse (by simp)
  | a :: as, b :: bs =>
    match Obligation.decideEq a b, Obligation.decideEqList as bs with
    | .isTrue h, .isTrue hs => .isTrue (by rw [h, hs])
    | .isFalse h, _ => .isFalse (by simp [h])
    | _, .isFalse hs => .isFalse (by simp [hs])

end

instance : DecidableEq Walk := Walk.decideEq

instance : DecidableEq Step := Step.decideEq

instance : DecidableEq Obligation := Obligation.decideEq

end FactGraph
