import FactGraph.Proofs.Specification.Renaming
import FactGraph.Walk.Derive

/-! # Walks under other names

A walk names types and roles only; labels are just the keys under which walks are kept until the
matches in front of them are reached. So a specification has the same walk however its labels are
called, or it has none for the same reason.

* `Continuations.insert_relabel`, `Continuations.without_relabel`: walks under new names.
* `Match.walks_relabel`: the walks of matches, one constructor after the other.
* `Specification.walk_relabel`: the walk of a specification. -/

namespace FactGraph

/-- Why there is no walk when labels have other names. -/
def WalkError.relabel (rename : String → String) : WalkError → WalkError
  | givenCount count => givenCount count
  | pathConditionCount unknown count => pathConditionCount (rename unknown) count
  | unknownLabel name => unknownLabel (rename name)
  | detachedCondition unknown => detachedCondition (rename unknown)
  | nestedCondition unknown => nestedCondition (rename unknown)
  | typeConflict left right => typeConflict left right

/-- The same walks from labels under other names. -/
def Continuations.relabel (rename : String → String) (walks : Continuations) : Continuations :=
  walks.map (Prod.map rename id)

open Except (bind_eq_bimap)

variable {f : Renaming}

namespace Continuations

variable {walks : Continuations}

theorem walk?_relabel (label : String) : (walks.relabel f).walk? (f label) = walks.walk? label :=
  (lookup_relabel f id label walks).trans Option.map_id'

theorem without_relabel (label : String) :
    (walks.relabel f).without (f label) = (walks.without label).relabel f := by
  rw [without, without, relabel, relabel, List.filter_map]
  congr 2
  funext entry
  simp [bne]

theorem insert_relabel (label : String) (walk : Walk) :
    (walks.relabel f).insert (f label) walk = (walks.insert label walk).relabel f := by
  rw [insert, without_relabel]
  rfl

end Continuations

theorem Match.onlyPath_relabel (m : Match) : (m.relabel f).onlyPath =
    m.onlyPath.bimap (WalkError.relabel f) (PathCondition.relabel f) := by
  obtain ⟨unknown, conditions⟩ := m
  unfold Match.onlyPath Match.path?
  rw [Match.paths_relabel]
  rcases Match.paths ⟨unknown, conditions⟩ with _ | ⟨path, _ | ⟨other, rest⟩⟩
  · rfl
  · rfl
  · simp [Except.bimap, WalkError.relabel, Match.relabel, Label.relabel]

theorem Walk.merge_relabel (left right : Walk) :
    left.merge right = (left.merge right).bimap (WalkError.relabel f) id := by
  unfold Walk.merge
  split_ifs <;> rfl

theorem PathCondition.lead_relabel {scope : Scope} {path : PathCondition} {next : Walk}
    {walks : Continuations} : (path.relabel f).lead (scope.relabel f) next (walks.relabel f) =
      (path.lead scope next walks).bimap (WalkError.relabel f) (Continuations.relabel f) := by
  unfold PathCondition.lead
  simp only [PathCondition.relabel_labelRight, Scope.type?_relabel, Continuations.walk?_relabel,
    Continuations.insert_relabel]
  rcases scope.type? path.labelRight with _ | type
  · rfl
  · rcases walks.walk? path.labelRight with _ | other
    · rfl
    · exact bind_eq_bimap (Walk.merge_relabel _ other) fun _ => rfl

mutual

/-- **Matches lead along the same walks under other names.** -/
theorem Match.walks_relabel : ∀ {block : List Match} {scope : Scope},
    Match.walks (scope.relabel f) (Match.relabelAll f block) =
      (Match.walks scope block).bimap (WalkError.relabel f) (Continuations.relabel f)
  | [], _ => rfl
  | ⟨unknown, conditions⟩ :: rest, scope => by
    rw [Match.relabelAll, Match.relabel, Match.walks, Match.walks]
    refine bind_eq_bimap (@Match.walks_relabel rest (scope.bind unknown)) fun walks => ?_
    refine bind_eq_bimap (Match.onlyPath_relabel ⟨unknown, conditions⟩) fun path => ?_
    rw [Label.relabel_name, Continuations.walk?_relabel, Continuations.without_relabel]
    exact bind_eq_bimap (@Condition.obligeAll_relabel conditions (scope.bind unknown) unknown.name _)
      fun next => @PathCondition.lead_relabel f (scope.bind unknown) path next _

theorem Condition.oblige_relabel : ∀ {condition : Condition} {scope : Scope} {unknown : String}
    {walk : Walk}, (condition.relabel f).oblige (scope.relabel f) (f unknown) walk =
      (condition.oblige scope unknown walk).bimap (WalkError.relabel f) id
  | .path _, _, _, _ => rfl
  | .existential holds block, scope, unknown, walk => by
    rw [Condition.relabel, Condition.oblige, Condition.oblige]
    refine bind_eq_bimap Match.walks_relabel fun walks => ?_
    rw [Continuations.walk?_relabel]
    rcases walks.walk? unknown with _ | child
    · rfl
    · dsimp only
      split_ifs <;> rfl

theorem Condition.obligeAll_relabel : ∀ {conditions : List Condition} {scope : Scope}
    {unknown : String} {walk : Walk},
    Condition.obligeAll (scope.relabel f) (f unknown) walk (Condition.relabelAll f conditions) =
      (Condition.obligeAll scope unknown walk conditions).bimap (WalkError.relabel f) id
  | [], _, _, _ => rfl
  | _ :: _, _, _, _ => bind_eq_bimap Condition.oblige_relabel fun _ => Condition.obligeAll_relabel

end

/-- **A specification has the same walk under other names.** -/
theorem Specification.walk_relabel (spec : Specification) :
    (spec.relabel f).walk = spec.walk.bimap (WalkError.relabel f) id := by
  obtain ⟨given, body, projections⟩ := spec
  rcases given with _ | ⟨given, _ | ⟨other, rest⟩⟩
  · rfl
  · refine bind_eq_bimap (@Match.walks_relabel f body (Scope.bind [] given)) fun walks => ?_
    exact congrArg (fun walk : Option Walk => Except.ok (walk.getD (Walk.ofType given.type)))
      (Continuations.walk?_relabel given.name)
  · simp [Specification.walk, Specification.relabel, Except.bimap, WalkError.relabel]

end FactGraph
