import FactGraph.Proofs.Specification.Contexts
import FactGraph.Proofs.Specification.Scope

/-! # Intermediate facts

A path condition can be cut behind some of the roles of one of its sides. A match of its own then
leads to the fact at the cut, under a new label, and the path goes on from that label. It leads to
the same facts as the whole path does.

* `Specification.Naming`: a specification with a path condition to be cut.
* `PathCondition.Cut.Meets`: what a well-formed path condition says about its parts. -/

namespace FactGraph

/-! ### Path conditions with a cut -/

/-- A path condition that is cut behind the first roles of one of its sides. -/
inductive PathCondition.Cut where
  | left (roles others : List Role) (labelRight : String) (rolesRight : List Role)
  | right (rolesLeft : List Role) (labelRight : String) (roles others : List Role)

namespace PathCondition.Cut

/-- The path condition without the cut. -/
def whole : Cut → PathCondition
  | left roles others labelRight rolesRight => ⟨roles ++ others, labelRight, rolesRight⟩
  | right rolesLeft labelRight roles others => ⟨rolesLeft, labelRight, roles ++ others⟩

/-- The roles in front of the cut. -/
def roles : Cut → List Role
  | left roles _ _ _ => roles
  | right _ _ roles _ => roles

/-- The path condition on the fact at the cut. -/
def near : Cut → PathCondition
  | left _ others labelRight rolesRight => ⟨others, labelRight, rolesRight⟩
  | right _ labelRight roles _ => ⟨[], labelRight, roles⟩

/-- The path condition that goes on from the fact at the cut, under some name. -/
def far (name : String) : Cut → PathCondition
  | left roles _ _ _ => ⟨roles, name, []⟩
  | right rolesLeft _ _ others => ⟨rolesLeft, name, others⟩

variable {cut : Cut} {name : String}

@[simp]
theorem near_labelRight : cut.near.labelRight = cut.whole.labelRight := by cases cut <;> rfl

@[simp]
theorem far_labelRight : (cut.far name).labelRight = name := by cases cut <;> rfl

end PathCondition.Cut

/-! ### Types at the end of roles -/

theorem endType_append (start : String) (roles others : List Role) :
    endType start (roles ++ others) = endType (endType start roles) others := by
  induction roles generalizing start with
  | nil => rfl
  | cons role roles ih => rw [List.cons_append, endType_cons, endType_cons, ih]

/-- Where roles arrive does not depend on where they start, unless there are none. -/
theorem endType_congr {roles : List Role} (h : roles ≠ []) (start start' : String) :
    endType start roles = endType start' roles := by
  cases roles with
  | nil => exact absurd rfl h
  | cons role roles => rw [endType_cons, endType_cons]

/-- The path condition of an unknown meets the roles from a label of a type, and so do its parts at
the type at the cut. -/
structure PathCondition.Cut.Meets (cut : Cut) (unknown type middle : String) : Prop where
  near : endType middle cut.near.rolesLeft = endType type cut.near.rolesRight
  far : ∀ name, endType unknown (cut.far name).rolesLeft = endType middle (cut.far name).rolesRight

theorem PathCondition.Cut.Meets.of_whole {cut : Cut} {unknown type : String}
    (hne : cut.roles ≠ [])
    (h : endType unknown cut.whole.rolesLeft = endType type cut.whole.rolesRight) :
    cut.Meets unknown type (endType unknown cut.roles) := by
  cases cut with
  | left roles others labelRight rolesRight =>
    rw [whole, endType_append] at h
    exact ⟨h, fun _ => rfl⟩
  | right rolesLeft labelRight roles others =>
    rw [whole, endType_append] at h
    have hmiddle : endType unknown roles = endType type roles := endType_congr hne _ _
    exact ⟨hmiddle, fun _ => h.trans (congrArg (endType · others) hmiddle.symm)⟩

/-! ### Labels that are mentioned -/

mutual

/-- The labels that a condition mentions. -/
def Condition.labels : Condition → List String
  | .path path => [path.labelRight]
  | .existential _ block => Match.labelsAll block

/-- The labels that matches mention, be it as an unknown or in a path condition. -/
def Match.labelsAll : List Match → List String
  | [] => []
  | ⟨unknown, conditions⟩ :: rest =>
    unknown.name :: (Condition.labelsAll conditions ++ Match.labelsAll rest)

def Condition.labelsAll : List Condition → List String
  | [] => []
  | condition :: rest => condition.labels ++ Condition.labelsAll rest

end

theorem Condition.labelsAll_append (conditions others : List Condition) :
    Condition.labelsAll (conditions ++ others) =
      Condition.labelsAll conditions ++ Condition.labelsAll others := by
  induction conditions with
  | nil => rfl
  | cons condition conditions ih =>
    rw [List.cons_append, Condition.labelsAll, Condition.labelsAll, ih, List.append_assoc]

theorem Match.not_mem_labelsAll_cons {name : String} {unknown : Label}
    {conditions : List Condition} {rest : List Match} :
    name ∉ Match.labelsAll (⟨unknown, conditions⟩ :: rest) ↔ name ≠ unknown.name ∧
      name ∉ Condition.labelsAll conditions ∧ name ∉ Match.labelsAll rest := by
  rw [Match.labelsAll, List.mem_cons, List.mem_append, not_or, not_or]

/-- A label that the conditions around an existential one do not mention, nor its block. -/
theorem Condition.not_mem_labelsAll_around {name : String} {before after : List Condition}
    {holds : Bool} {block : List Match} :
    name ∉ Condition.labelsAll (before ++ .existential holds block :: after) ↔
      name ∉ Condition.labelsAll before ∧ name ∉ Match.labelsAll block ∧
        name ∉ Condition.labelsAll after := by
  rw [Condition.labelsAll_append, Condition.labelsAll, Condition.labels, List.mem_append,
    List.mem_append, not_or, not_or]

/-! ### Specifications with an intermediate fact -/

namespace Specification

/-- A specification with a match that begins with its path condition, where the path condition is
cut, and a name for the fact at the cut. -/
structure Naming where
  context : Context
  unknown : Label
  cut : PathCondition.Cut
  conditions : List Condition
  name : String

namespace Naming

variable (n : Naming)

/-- The label of the fact at the cut. -/
def label : Label := ⟨n.name, endType n.unknown.type n.cut.roles⟩

/-- The match with the whole path condition. -/
def direct : Match := ⟨n.unknown, .path n.cut.whole :: n.conditions⟩

/-- The match of the fact at the cut, and the match that goes on from there. -/
def split : List Match :=
  [⟨n.label, [.path n.cut.near]⟩, ⟨n.unknown, .path (n.cut.far n.name) :: n.conditions⟩]

/-- The specification without a label for the fact at the cut. -/
def unnamed : Specification := n.context.fill [n.direct]

/-- The specification with a label for the fact at the cut. -/
def named : Specification := n.context.fill n.split

/-- Some roles are in front of the cut, and the name is new among the labels of the specification. -/
structure Proper : Prop where
  roles : n.cut.roles ≠ []
  given : n.name ∉ n.unnamed.given.map Label.name
  body : n.name ∉ Match.labelsAll n.unnamed.body

variable {n} {scope inner : Scope} {rest : List Match}

/-- What the check of the match with the whole path condition says. -/
structure Checked (n : Naming) (scope : Scope) (rest : List Match) (inner : Scope) (type : String) :
    Prop where
  fresh : scope.type? n.unknown.name = none
  ne : n.cut.whole.labelRight ≠ n.unknown.name
  type? : scope.type? n.cut.whole.labelRight = some type
  whole : endType n.unknown.type n.cut.whole.rolesLeft = endType type n.cut.whole.rolesRight
  meets : n.cut.Meets n.unknown.type type n.label.type
  paths : Match.paths ⟨n.unknown, n.conditions⟩ = []
  conditions : Condition.checkAll (scope.bind n.unknown) n.unknown n.conditions = .ok ()
  rest : Match.checkAll (scope.bind n.unknown) rest = .ok inner

theorem Checked.of_checkAll (hne : n.cut.roles ≠ [])
    (hc : Match.checkAll scope (n.direct :: rest) = .ok inner) :
    ∃ type, Checked n scope rest inner type := by
  obtain ⟨hfresh, hone, hc, hrest⟩ := Match.checkAll_cons_eq_ok_iff.mp hc
  obtain ⟨hpath, hconditions⟩ := Except.bind_unit_eq_ok_iff.mp hc
  obtain ⟨hself, type, htype, hmeets⟩ := PathCondition.check_eq_ok_iff.mp hpath
  rw [Scope.type?_bind_of_ne hself] at htype
  have hpaths : Match.paths ⟨n.unknown, n.conditions⟩ = [] := by
    simpa [direct, Match.paths] using hone
  exact ⟨type, hfresh, hself, htype, hmeets, .of_whole hne hmeets, hpaths, hconditions, hrest⟩

end Naming

end Specification

end FactGraph
