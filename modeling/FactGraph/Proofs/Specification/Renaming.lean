import FactGraph.Proofs.Specification.Scope
import Mathlib.Logic.Embedding.Basic

/-! # Labels under other names

What a specification says does not depend on how its labels are called. Labels get other names by a
renaming, which keeps different names different; it changes the given labels, the unknowns and what
refers to them, but not the names under which projections report. Whatever looks a label up finds
the same under the new name, so the checks find the same things wrong.

* `lookup_relabel`: looking up a label under its new name.
* `Match.checkAll_relabel`, `Projection.checkAll_relabel`: the checks, one constructor after the
  other.
* `Specification.check_relabel`: the check of a specification. -/

namespace FactGraph

/-- Other names for labels, different ones for different names. -/
abbrev Renaming : Type := String ↪ String

/-! ### Specifications under other names -/

section Relabel

variable (rename : String → String)

def Label.relabel (label : Label) : Label := { label with name := rename label.name }

def PathCondition.relabel (path : PathCondition) : PathCondition :=
  { path with labelRight := rename path.labelRight }

mutual

/-- A condition whose labels have other names. -/
def Condition.relabel : Condition → Condition
  | .path path => .path (path.relabel rename)
  | .existential holds block => .existential holds (Match.relabelAll block)

/-- A match whose labels have other names. -/
def Match.relabel : Match → Match
  | ⟨unknown, conditions⟩ => ⟨unknown.relabel rename, Condition.relabelAll conditions⟩

def Match.relabelAll : List Match → List Match
  | [] => []
  | m :: rest => m.relabel :: Match.relabelAll rest

def Condition.relabelAll : List Condition → List Condition
  | [] => []
  | condition :: rest => condition.relabel :: Condition.relabelAll rest

end

mutual

/-- A projection whose labels have other names. It reports under the same name. -/
def Projection.relabel : Projection → Projection
  | .field name label part => .field name (rename label) part
  | .hash name label => .hash name (rename label)
  | .fact name label => .fact name (rename label)
  | .nested name block projections =>
    .nested name (Match.relabelAll rename block) (Projection.relabelAll projections)

def Projection.relabelAll : List Projection → List Projection
  | [] => []
  | projection :: rest => projection.relabel :: Projection.relabelAll rest

end

/-- A specification whose labels have other names. -/
def Specification.relabel (spec : Specification) : Specification :=
  ⟨spec.given.map (Label.relabel rename), Match.relabelAll rename spec.body,
    Projection.relabelAll rename spec.projections⟩

/-- What is wrong when labels have other names. -/
def SpecificationError.relabel : SpecificationError → SpecificationError
  | expected position rules => expected position rules
  | unrelatedPath position unknown => unrelatedPath position (rename unknown)
  | pathConditionCount unknown count => pathConditionCount (rename unknown) count
  | unknownLabel name => unknownLabel (rename name)
  | duplicateLabel name => duplicateLabel (rename name)
  | pathTypeMismatch unknown left right => pathTypeMismatch (rename unknown) left right
  | selfReference unknown => selfReference (rename unknown)

/-- Labels under other names, of the same types. -/
def Scope.relabel (scope : Scope) : Scope := scope.map (Prod.map rename id)

end Relabel

@[simp]
theorem Label.relabel_name (rename : String → String) (label : Label) :
    (label.relabel rename).name = rename label.name := rfl

@[simp]
theorem PathCondition.relabel_labelRight (rename : String → String) (path : PathCondition) :
    (path.relabel rename).labelRight = rename path.labelRight := rfl

theorem Condition.relabelAll_eq (rename : String → String) : ∀ conditions : List Condition,
    Condition.relabelAll rename conditions = conditions.map (Condition.relabel rename)
  | [] => rfl
  | condition :: rest => by rw [Condition.relabelAll, Condition.relabelAll_eq rename rest, List.map]

theorem Match.paths_relabel (rename : String → String) (m : Match) :
    (m.relabel rename).paths = m.paths.map (PathCondition.relabel rename) := by
  obtain ⟨unknown, conditions⟩ := m
  rw [Match.relabel, Match.paths, Match.paths, Condition.relabelAll_eq, List.filterMap_map,
    List.map_filterMap]
  congr 1
  funext condition
  cases condition <;> rfl

/-! ### The names as they are -/

mutual

theorem Condition.relabel_id : ∀ condition : Condition, condition.relabel id = condition
  | .path _ => rfl
  | .existential _ block => by rw [Condition.relabel, Match.relabelAll_id block]

theorem Match.relabelAll_id : ∀ block : List Match, Match.relabelAll id block = block
  | [] => rfl
  | ⟨unknown, conditions⟩ :: rest => by
    rw [Match.relabelAll, Match.relabel, Condition.relabelAll_id conditions,
      Match.relabelAll_id rest]
    rfl

theorem Condition.relabelAll_id : ∀ conditions : List Condition,
    Condition.relabelAll id conditions = conditions
  | [] => rfl
  | condition :: rest => by
    rw [Condition.relabelAll, Condition.relabel_id condition, Condition.relabelAll_id rest]

end

mutual

theorem Projection.relabel_id : ∀ projection : Projection, projection.relabel id = projection
  | .field _ _ _ => rfl
  | .hash _ _ => rfl
  | .fact _ _ => rfl
  | .nested name block projections => by
    rw [Projection.relabel, Match.relabelAll_id block, Projection.relabelAll_id projections]

theorem Projection.relabelAll_id : ∀ projections : List Projection,
    Projection.relabelAll id projections = projections
  | [] => rfl
  | projection :: rest => by
    rw [Projection.relabelAll, Projection.relabel_id projection, Projection.relabelAll_id rest]

end

theorem Specification.relabel_id (spec : Specification) : spec.relabel id = spec := by
  have hgiven : spec.given.map (Label.relabel id) = spec.given := List.map_id _
  rw [Specification.relabel, hgiven, Match.relabelAll_id, Projection.relabelAll_id]

/-! ### The checks -/

variable {f : Renaming}

open Except (bind_eq_bimap)

/-- **A label is found under its new name.** -/
theorem lookup_relabel {α β : Type} (f : Renaming) (g : α → β) (name : String) :
    ∀ entries : List (String × α),
      (entries.map (Prod.map f g)).lookup (f name) = (entries.lookup name).map g
  | [] => rfl
  | (key, value) :: rest => by
    rw [List.map_cons, Prod.map_apply, List.lookup_cons, List.lookup_cons]
    by_cases h : name = key
    · simp [h]
    -- different names stay different, so the same entries are passed over
    · have hf : f name ≠ f key := f.injective.ne h
      rw [beq_false_of_ne h, beq_false_of_ne hf]
      exact lookup_relabel f g name rest

namespace Scope

variable {scope : Scope}

theorem type?_relabel (name : String) : (scope.relabel f).type? (f name) = scope.type? name :=
  (lookup_relabel f id name scope).trans Option.map_id'

theorem declare_relabel (label : Label) : (scope.relabel f).declare (label.relabel f) =
    (scope.declare label).bimap (SpecificationError.relabel f) (Scope.relabel f) := by
  unfold declare
  rw [Label.relabel_name, type?_relabel]
  cases scope.type? label.name <;> rfl

theorem declareAll_relabel : ∀ {labels : List Label} {scope : Scope},
    (scope.relabel f).declareAll (labels.map (Label.relabel f)) =
      (scope.declareAll labels).bimap (SpecificationError.relabel f) (Scope.relabel f)
  | [], _ => rfl
  | label :: _, _ => bind_eq_bimap (declare_relabel label) fun _ => declareAll_relabel

theorem checkLabel_relabel (name : String) : (scope.relabel f).checkLabel (f name) =
    (scope.checkLabel name).bimap (SpecificationError.relabel f) id := by
  unfold checkLabel
  rw [type?_relabel]
  cases scope.type? name <;> rfl

end Scope

theorem PathCondition.check_relabel {scope : Scope} {unknown : Label} {path : PathCondition} :
    (path.relabel f).check (scope.relabel f) (unknown.relabel f) =
      (path.check scope unknown).bimap (SpecificationError.relabel f) id := by
  have hname : f path.labelRight = f unknown.name ↔ path.labelRight = unknown.name :=
    f.injective.eq_iff
  unfold PathCondition.check
  rw [PathCondition.relabel_labelRight, Label.relabel_name, Scope.type?_relabel]
  by_cases hself : path.labelRight = unknown.name
  · rw [if_pos hself, if_pos (hname.mpr hself)]
    rfl
  · rw [if_neg hself, if_neg (hname.not.mpr hself)]
    rcases scope.type? path.labelRight with _ | type
    · rfl
    · show (if endType unknown.type path.rolesLeft = endType type path.rolesRight then _ else _) =
        Except.bimap _ _ (if endType unknown.type path.rolesLeft = endType type path.rolesRight
          then _ else _)
      split_ifs <;> rfl

mutual

theorem Condition.check_relabel : ∀ {condition : Condition} {scope : Scope} {unknown : Label},
    (condition.relabel f).check (scope.relabel f) (unknown.relabel f) =
      (condition.check scope unknown).bimap (SpecificationError.relabel f) id
  | .path _, _, _ => PathCondition.check_relabel
  | .existential _ _, _, _ => bind_eq_bimap Match.checkAll_relabel fun _ => rfl

/-- **A match is checked alike under other names.** -/
theorem Match.check_relabel : ∀ {m : Match} {scope : Scope},
    (m.relabel f).check (scope.relabel f) =
      (m.check scope).bimap (SpecificationError.relabel f) (Scope.relabel f)
  | ⟨unknown, conditions⟩, scope => by
    have hcount : (Match.relabel f ⟨unknown, conditions⟩).paths.length =
        (Match.paths ⟨unknown, conditions⟩).length := by
      rw [Match.paths_relabel, List.length_map]
    rw [Match.relabel] at hcount ⊢
    rw [Match.check, Match.check]
    refine bind_eq_bimap (Scope.declare_relabel unknown) fun inner => ?_
    simp only [hcount]
    split_ifs
    · rfl
    · exact bind_eq_bimap Condition.checkAll_relabel fun _ => rfl

theorem Match.checkAll_relabel : ∀ {block : List Match} {scope : Scope},
    Match.checkAll (scope.relabel f) (Match.relabelAll f block) =
      (Match.checkAll scope block).bimap (SpecificationError.relabel f) (Scope.relabel f)
  | [], _ => rfl
  | _ :: _, _ => bind_eq_bimap Match.check_relabel fun _ => Match.checkAll_relabel

theorem Condition.checkAll_relabel : ∀ {conditions : List Condition} {scope : Scope}
    {unknown : Label},
    Condition.checkAll (scope.relabel f) (unknown.relabel f) (Condition.relabelAll f conditions) =
      (Condition.checkAll scope unknown conditions).bimap (SpecificationError.relabel f) id
  | [], _, _ => rfl
  | _ :: _, _, _ => bind_eq_bimap Condition.check_relabel fun _ => Condition.checkAll_relabel

end

mutual

theorem Projection.check_relabel : ∀ {projection : Projection} {scope : Scope},
    (projection.relabel f).check (scope.relabel f) =
      (projection.check scope).bimap (SpecificationError.relabel f) id
  | .field _ label _, _ => Scope.checkLabel_relabel label
  | .hash _ label, _ => Scope.checkLabel_relabel label
  | .fact _ label, _ => Scope.checkLabel_relabel label
  | .nested _ _ _, _ => bind_eq_bimap Match.checkAll_relabel fun _ => Projection.checkAll_relabel

theorem Projection.checkAll_relabel : ∀ {projections : List Projection} {scope : Scope},
    Projection.checkAll (scope.relabel f) (Projection.relabelAll f projections) =
      (Projection.checkAll scope projections).bimap (SpecificationError.relabel f) id
  | [], _ => rfl
  | _ :: _, _ => bind_eq_bimap Projection.check_relabel fun _ => Projection.checkAll_relabel

end

/-- **A specification is well formed under other names** if it is under its own. -/
theorem Specification.check_relabel (spec : Specification) :
    (spec.relabel f).check = spec.check.bimap (SpecificationError.relabel f) id :=
  bind_eq_bimap (@Scope.declareAll_relabel f spec.given []) fun _ =>
    bind_eq_bimap Match.checkAll_relabel fun _ => Projection.checkAll_relabel

end FactGraph
