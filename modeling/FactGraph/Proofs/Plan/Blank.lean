import FactGraph.Proofs.Plan.Views

/-! # Plans without values

The numbers and hashes that a compilation finds end up in the parameters of its plans. Nothing else
depends on them: two compilations whose catalogs know the same names, from start facts of the same
types, join the same plans up to the values of parameters, or fail in the same way.

* `Plan.view_blank`: the operations on plans.
* `Specification.plans_blank`: the plans of a specification. -/

namespace FactGraph

/-! ### Blanks -/

/-- A parameter of the same kind without its value. -/
def Parameter.blank : Parameter → Parameter
  | .integer _ => .integer 0
  | .text _ => .text ""
  | .integers _ => .integers []

/-- A reference without its hash. -/
def FactReference.blank (ref : FactReference) : FactReference := { ref with hash := "" }

namespace Plan

/-- An input without the number of its type and without its hash. -/
def Input.blank (input : Input) : Input :=
  { input with typeId := input.typeId.map fun _ => 0, hash := "" }

/-- A plan without the values of its inputs and parameters. -/
def blank (plan : Plan) : Plan :=
  { plan with
    inputs := plan.inputs.map Input.blank
    parameters := plan.parameters.map Parameter.blank }

end Plan

/-- Two catalogs know the same types and roles. -/
structure Schema.Alike (schema schema' : Schema) : Prop where
  types : ∀ type, (schema.factTypeId type).isSome = (schema'.factTypeId type).isSome
  roles : ∀ type role, (schema.roleOf type role).isSome = (schema'.roleOf type role).isSome

/-! ### Operations on plans -/

namespace Plan

theorem addParameter_blank (plan : Plan) (parameter : Parameter) :
    (plan.addParameter parameter).map blank id = plan.blank.addParameter parameter.blank := by
  simp [addParameter, blank]

theorem addEdge_blank (plan : Plan) (predecessor successor role : Nat) (path : List Nat) :
    (plan.addEdge predecessor successor role path).map blank =
      plan.blank.addEdge predecessor successor role path := by
  unfold addEdge
  split_ifs
  · rfl
  · exact Except.map_bind (Group.modify _ plan.groups path) _ blank

theorem addGroup_blank (plan : Plan) (path : List Nat) :
    (plan.addGroup path).map (Prod.map blank id) = plan.blank.addGroup path := by
  unfold addGroup
  split_ifs
  · rfl
  · refine (Except.map_bind (Group.at? plan.groups path) _ _).trans
      (congrArg _ (funext fun outer => ?_))
    exact Except.map_bind (Group.modify _ plan.groups path) _ _

theorem input?_blank (plan : Plan) (label : String) :
    (plan.input? label).map Input.blank = plan.blank.input? label := by
  rw [input?, input?, blank, List.find?_map]
  rfl

theorem addInputParameters_blank (plan : Plan) (label : String) :
    (plan.addInputParameters label).map blank = plan.blank.addInputParameters label := by
  have hposition : plan.blank.inputs.findIdx? (fun input => input.label == label) =
      plan.inputs.findIdx? fun input => input.label == label := by
    rw [blank, List.findIdx?_map]
    rfl
  have hget : ∀ position : Nat, plan.blank.inputs[position]? =
      plan.inputs[position]?.map Input.blank := fun position => List.getElem?_map
  unfold addInputParameters
  simp only [hposition, hget, Option.bind_eq_bind]
  generalize List.findIdx? _ plan.inputs = found
  rcases found with _ | position
  · rfl
  simp only [Option.bind_some]
  rcases plan.inputs[position]? with _ | input
  · rfl
  simp only [Option.map_some, Option.bind_some, Input.blank]
  rcases input.typeId with _ | typeId
  · rfl
  · simp [addParameter, blank, Parameter.blank, Input.blank, List.map_set]

theorem useInput_blank (plan : Plan) (label : String) :
    (plan.useInput label).map blank = plan.blank.useInput label := by
  unfold useInput
  rw [← input?_blank]
  rcases plan.input? label with _ | input
  · rfl
  · show Option.map blank (if input.typeParameter.isNone then _ else _) =
      if input.typeParameter.isNone then _ else _
    split_ifs
    · exact addInputParameters_blank plan label
    · rfl

theorem addFact_blank (plan : Plan) (type : String) :
    (plan.addFact type).map blank id = plan.blank.addFact type := by
  simp [addFact, blank]

/-- **Values are left out by all operations**, whichever numbers catalogs give to the same names. -/
theorem view_blank {schema schema' : Schema} (hs : schema.Alike schema') :
    View blank schema schema' fun _ _ => True where
  roles type role := by
    have hknown := hs.roles type role
    rcases hr : schema.roleOf type role with _ | number <;>
      rcases hr' : schema'.roleOf type role with _ | number' <;> simp_all
  useInput h label := by rw [useInput_blank, useInput_blank, h]
  addParameter h _ := by
    rw [addParameter_blank, addParameter_blank, h]
    rfl
  addFact h type := by rw [addFact_blank, addFact_blank, h]
  addEdge h predecessor successor role path := by rw [addEdge_blank, addEdge_blank, h]
  addGroup h path := by rw [addGroup_blank, addGroup_blank, h]

theorem selectsAlike_blank (stem : String) : SelectsAlike blank stem stem :=
  fun h name type slot => congrArg (fun plan => plan.addOutput (stem ++ name) type slot) h

end Plan

/-! ### Specifications -/

variable {schema schema' : Schema}

theorem Branch.compiled_blank {branch branch' : Branch}
    {next next' : Joined → Except PlanError (List Plan)}
    (h : branch.under Plan.blank = branch'.under Plan.blank)
    (hn : ∀ joined joined' : Joined, joined.under Plan.blank = joined'.under Plan.blank →
      (next joined).map (List.map Plan.blank) = (next' joined').map (List.map Plan.blank)) :
    Except.map (List.map Plan.blank) (match branch.last with
      | none => return branch.completed
      | some last => do
        let deeper ← next last
        return branch.completed ++ last.plan :: deeper) =
      Except.map (List.map Plan.blank) (match branch'.last with
      | none => return branch'.completed
      | some last => do
        let deeper ← next' last
        return branch'.completed ++ last.plan :: deeper) := by
  obtain ⟨completed, last⟩ := branch
  obtain ⟨completed', last'⟩ := branch'
  obtain ⟨hcompleted, hlast⟩ := Branch.mk.inj h
  rcases option_cases_of_map_eq hlast with ⟨rfl, rfl⟩ | ⟨joined, joined', rfl, rfl, hjoined⟩
  · exact congrArg Except.ok hcompleted
  · refine Except.map_bind_congr (hn joined joined' hjoined) fun deeper deeper' hd => ?_
    have hplan : joined.plan.blank = joined'.plan.blank := (Joined.mk.inj hjoined).1
    show Except.ok (List.map Plan.blank (completed ++ joined.plan :: deeper)) =
      Except.ok (List.map Plan.blank (completed' ++ joined'.plan :: deeper'))
    rw [List.map_append, List.map_append, List.map_cons, List.map_cons, hcompleted, hplan, hd]

mutual

theorem Projection.plans_blank (hs : schema.Alike schema') : ∀ {projection : Projection}
    {stem : String} {joined joined' : Joined}, joined.under Plan.blank = joined'.under Plan.blank →
      (projection.plans schema stem joined).map (List.map Plan.blank) =
        (projection.plans schema' stem joined').map (List.map Plan.blank)
  | .nested name block projections, stem, joined, joined', h => by
    rw [Projection.plans, Projection.plans]
    exact Except.map_bind_congr (Match.joinAll_view (Plan.view_blank hs)
      (Plan.selectsAlike_blank _) h) fun branch branch' hb =>
      Branch.compiled_blank hb fun _ _ hj => Projection.plansAll_blank hs hj
  | .field _ _ _, _, _, _, _ => rfl
  | .hash _ _, _, _, _, _ => rfl
  | .fact _ _, _, _, _, _ => rfl

theorem Projection.plansAll_blank (hs : schema.Alike schema') : ∀ {projections : List Projection}
    {stem : String} {joined joined' : Joined}, joined.under Plan.blank = joined'.under Plan.blank →
      (Projection.plansAll schema stem joined projections).map (List.map Plan.blank) =
        (Projection.plansAll schema' stem joined' projections).map (List.map Plan.blank)
  | [], _, _, _, _ => rfl
  | projection :: rest, stem, joined, joined', h => by
    rw [Projection.plansAll, Projection.plansAll]
    refine Except.map_bind_congr (Projection.plans_blank hs h) fun plans plans' hp => ?_
    refine Except.map_bind_congr (Projection.plansAll_blank hs h) fun others others' ho => ?_
    show Except.ok (List.map Plan.blank (plans ++ others)) =
      Except.ok (List.map Plan.blank (plans' ++ others'))
    rw [List.map_append, List.map_append, hp, ho]

end

namespace Specification

variable {spec : Specification} {start start' : List FactReference}

theorem checkStart_blank (spec : Specification) (start : List FactReference) :
    spec.checkStart (start.map FactReference.blank) = spec.checkStart start := by
  simp only [checkStart, List.length_map, List.zip_map_left, List.zipIdx_map, List.find?_map,
    Function.comp_def, Prod.map_fst, Prod.map_snd, FactReference.blank, id]
  split_ifs
  · rfl
  · rcases List.find? _ (start.zip spec.given).zipIdx with _ | entry <;> rfl

theorem inputs_blank (hs : schema.Alike schema') (spec : Specification)
    (start : List FactReference) :
    (spec.inputs schema start).map Plan.Input.blank =
      (spec.inputs schema' (start.map FactReference.blank)).map Plan.Input.blank := by
  have htype : ∀ type : String, (schema.factTypeId type).map (fun _ => (0 : Int)) =
      (schema'.factTypeId type).map fun _ => (0 : Int) := by
    intro type
    have hknown := hs.types type
    rcases ht : schema.factTypeId type with _ | number <;>
      rcases ht' : schema'.factTypeId type with _ | number' <;> simp_all
  unfold inputs
  rw [List.zip_map_right, List.zipIdx_map, List.map_map, List.map_map, List.map_map]
  refine List.map_congr_left fun ⟨⟨label, fact⟩, slot⟩ _ => ?_
  simp only [Function.comp_apply, Plan.Input.blank, htype]
  rfl

/-- **The plans of a specification are alike**, or fail alike, for catalogs that know the same names
and start facts of the same types. -/
theorem plans_blank (hs : schema.Alike schema')
    (ht : start.map FactReference.type = start'.map FactReference.type) :
    (spec.plans schema start).map (List.map Plan.blank) =
      (spec.plans schema' start').map (List.map Plan.blank) := by
  have hstart : start.map FactReference.blank = start'.map FactReference.blank := by
    have hblank := congrArg (List.map fun type => FactReference.mk type "") ht
    rwa [List.map_map, List.map_map] at hblank
  have hcheck : (spec.checkStart start).map id = (spec.checkStart start').map id := by
    rw [← checkStart_blank, hstart, checkStart_blank]
  have hinputs : (spec.inputs schema start).map Plan.Input.blank =
      (spec.inputs schema' start').map Plan.Input.blank := by
    rw [inputs_blank hs, hstart, ← inputs_blank ⟨fun _ => rfl, fun _ _ => rfl⟩]
  have hinitial : (spec.initial schema start).under Plan.blank =
      (spec.initial schema' start').under Plan.blank :=
    congrArg (fun inputs => Joined.mk (Plan.start inputs spec.givenFacts) _) hinputs
  refine Except.map_bind_congr hcheck fun _ _ _ => ?_
  exact Except.map_bind_congr (Match.joinAll_view (Plan.view_blank hs)
    (Plan.selectsAlike_blank _) hinitial) fun branch branch' hb =>
    Branch.compiled_blank hb fun _ _ hj => Projection.plansAll_blank hs hj

end Specification

end FactGraph
