import FactGraph.Plan.Compile
import FactGraph.Proofs.Specification.Renaming

/-! # Plans under other names

A compilation looks labels up and puts their names behind the prefixes of its projections, and does
nothing else with them. So there is one compilation for all renamings: what it leaves open are the
names in the headings of its plans, and whichever names the labels get, its plans with these names
filled in are the plans of the specification.

* `Uniform`: one computation for all renamings.
* `Condition.join_relabel`, `Match.joinAll_relabel`: what is joined, one constructor after the other.
* `Specification.plans_relabel`: the plans of a specification. -/

namespace FactGraph

/-! ### Prefixes -/

mutual

/-- The prefixes that a projection and the projections inside of it put in front of labels. -/
def Projection.stems (stem : String) : Projection → List String
  | .nested name _ projections =>
    (stem ++ name ++ ".") :: Projection.stemsAll (stem ++ name ++ ".") projections
  | _ => []

def Projection.stemsAll (stem : String) : List Projection → List String
  | [] => []
  | projection :: rest => projection.stems stem ++ Projection.stemsAll stem rest

end

/-- The prefixes of a specification: none for its own matches, and those of its projections. -/
def Specification.stems (spec : Specification) : List String :=
  "" :: Projection.stemsAll "" spec.projections

/-! ### Plans whose labels have no names yet -/

/-- A slot that is selected under one of some prefixes and the name of a label. -/
structure Heading (stems : List String) where
  stem : String
  known : stem ∈ stems
  name : String
  type : String
  slot : Nat

/-- The output of a heading when labels have other names. -/
def Heading.output {stems : List String} (rename : String → String) (heading : Heading stems) :
    Plan.Output :=
  ⟨heading.stem ++ rename heading.name, heading.type, heading.slot⟩

/-- A plan with headings in the place of its outputs, which do not count. -/
structure HeadedPlan (stems : List String) where
  headings : List (Heading stems)
  plan : Plan

/-- What a compilation goes on from, before labels have names. -/
structure HeadedJoined (stems : List String) where
  headed : HeadedPlan stems
  bindings : Bindings

/-- Where a compilation has come, before labels have names. -/
structure HeadedBranch (stems : List String) where
  completed : List (HeadedPlan stems)
  last : Option (HeadedJoined stems)

section Relabel

variable {stems : List String} (rename : String → String)

def Plan.Input.relabel (input : Plan.Input) : Plan.Input :=
  { input with label := rename input.label }

/-- A plan whose labels have other names, and which selects what headings say. -/
def Plan.relabel (headings : List (Heading stems)) (plan : Plan) : Plan :=
  { plan with
    inputs := plan.inputs.map (Plan.Input.relabel rename)
    outputs := headings.map (Heading.output rename) }

def HeadedPlan.named (headed : HeadedPlan stems) : Plan :=
  headed.plan.relabel rename headed.headings

def HeadedJoined.named (joined : HeadedJoined stems) : Joined :=
  ⟨joined.headed.named rename, joined.bindings.map (Prod.map rename id)⟩

def HeadedBranch.named (branch : HeadedBranch stems) : Branch :=
  ⟨branch.completed.map (HeadedPlan.named rename), branch.last.map (HeadedJoined.named rename)⟩

/-- Why there are no plans when labels have other names. -/
def PlanError.relabel : PlanError → PlanError
  | unknownLabel name => unknownLabel (rename name)
  | error => error

end Relabel

/-! ### One computation for all renamings -/

section Uniform

open Except (bind_eq_bimap)

variable {α β γ δ : Type} {named : (String → String) → β → α} {named' : (String → String) → δ → γ}

/-- What goes wrong in a computation, if anything, names no label. -/
def Nameless (x : Except PlanError α) : Prop :=
  ∀ rename, x = x.bimap (PlanError.relabel rename) id

theorem Nameless.bind {x : Except PlanError α} {next : α → Except PlanError γ} (h : Nameless x)
    (hn : ∀ a, Nameless (next a)) : Nameless (x >>= next) :=
  fun rename => bind_eq_bimap (h rename) fun a => hn a rename

theorem Nameless.map {x : Except PlanError α} (h : Nameless x) (next : α → γ) :
    Nameless (x >>= fun a => pure (next a)) :=
  h.bind fun _ _ => rfl

/-- A computation gives the same result for all renamings, up to names that are filled in. -/
def Uniform (named : (String → String) → β → α) (run : Renaming → Except PlanError α) : Prop :=
  ∃ result : Except PlanError β, ∀ f : Renaming, run f =
    result.bimap (PlanError.relabel f) (named f)

theorem Uniform.ok {run : Renaming → Except PlanError α} (b : β)
    (h : ∀ f, run f = .ok (named f b)) : Uniform named run :=
  ⟨.ok b, h⟩

theorem Uniform.bind {run : Renaming → Except PlanError α}
    {next : Renaming → α → Except PlanError γ} (h : Uniform named run)
    (hn : ∀ b, Uniform named' fun f => next f (named f b)) :
    Uniform named' fun f => run f >>= next f := by
  obtain ⟨result, hresult⟩ := h
  rcases result with e | b
  · exact ⟨.error e, fun f => congrArg (· >>= next f) (hresult f)⟩
  · obtain ⟨result, hnext⟩ := hn b
    exact ⟨result, fun f => (congrArg (· >>= next f) (hresult f)).trans (hnext f)⟩

/-- Computations for the elements of a list are uniform together if each of them is. -/
theorem Uniform.mapM {next : Renaming → α → Except PlanError γ}
    (hn : ∀ b, Uniform named' fun f => next f (named f b)) : ∀ bs : List β,
    Uniform (fun rename => List.map (named' rename)) fun f => (bs.map (named f)).mapM (next f)
  | [] => .ok [] fun _ => rfl
  | b :: rest => by
    simp only [List.map_cons, List.mapM_cons]
    exact (hn b).bind fun d => (Uniform.mapM hn rest).bind fun ds => .ok (d :: ds) fun _ => rfl

end Uniform

/-! ### Operations on plans -/

namespace Plan

open Except (bind_eq_bimap)

variable {stems : List String} {rename : String → String} {headings : List (Heading stems)}

theorem Group.nameless_at? : ∀ {path : List Nat} {groups : List Group},
    Nameless (Group.at? groups path)
  | [], _, _ => rfl
  | index :: path, groups, rename => by
    rw [Group.at?]
    rcases groups[index]? with _ | group
    · rfl
    · dsimp only
      split_ifs
      · rfl
      · exact Group.nameless_at? rename

theorem Group.nameless_modify {change : Group → Group} : ∀ {path : List Nat}
    {groups : List Group}, Nameless (Group.modify change groups path)
  | [], _, _ => rfl
  | index :: path, groups, rename => by
    rw [Group.modify]
    rcases groups[index]? with _ | group
    · rfl
    · dsimp only
      split_ifs
      · rfl
      · exact Group.nameless_modify.map _ rename

theorem addParameter_relabel (plan : Plan) (parameter : Parameter) :
    (plan.relabel rename headings).addParameter parameter =
      (plan.addParameter parameter).map (Plan.relabel rename headings) id := rfl

theorem nextSlot_relabel {α : Type} (plan : Plan) (type : String) (unknown : Option Fact)
    (rest : List α) : nextSlot (plan.relabel rename headings) type unknown rest =
      (nextSlot plan type unknown rest).map (Plan.relabel rename headings) id := by
  unfold nextSlot
  split <;> rfl

theorem addEdge_relabel {plan : Plan} {predecessor successor role : Nat} {path : List Nat} :
    (plan.relabel rename headings).addEdge predecessor successor role path =
      (plan.addEdge predecessor successor role path).bimap (PlanError.relabel rename)
        (Plan.relabel rename headings) := by
  unfold addEdge
  dsimp only
  split_ifs
  · rfl
  · exact bind_eq_bimap (Group.nameless_modify rename) fun _ => rfl

theorem addGroup_relabel {plan : Plan} {path : List Nat} :
    (plan.relabel rename headings).addGroup path =
      (plan.addGroup path).bimap (PlanError.relabel rename)
        (Prod.map (Plan.relabel rename headings) id) := by
  unfold addGroup
  split_ifs
  · rfl
  · exact bind_eq_bimap (Group.nameless_at? rename) fun _ =>
      bind_eq_bimap (Group.nameless_modify rename) fun _ => rfl

theorem addOutput_relabel {plan : Plan} {stem name type : String} {slot : Nat}
    (h : stem ∈ stems) :
    (plan.relabel rename headings).addOutput (stem ++ rename name) type slot =
      plan.relabel rename (headings ++ [⟨stem, h, name, type, slot⟩]) := by
  simp [addOutput, relabel, Heading.output]

variable {f : Renaming}

theorem input?_relabel (plan : Plan) (label : String) :
    (plan.relabel f headings).input? (f label) = (plan.input? label).map (Input.relabel f) := by
  rw [input?, input?, relabel, List.find?_map]
  congr 2
  funext input
  simp [Input.relabel]

theorem addInputParameters_relabel (plan : Plan) (label : String) :
    (plan.relabel f headings).addInputParameters (f label) =
      (plan.addInputParameters label).map (Plan.relabel f headings) := by
  have hposition : (plan.relabel f headings).inputs.findIdx? (fun input => input.label == f label) =
      plan.inputs.findIdx? fun input => input.label == label := by
    rw [relabel, List.findIdx?_map]
    congr 1
    funext input
    simp [Input.relabel]
  have hget : ∀ position : Nat, (plan.relabel f headings).inputs[position]? =
      plan.inputs[position]?.map (Input.relabel f) := fun position => List.getElem?_map
  unfold addInputParameters
  simp only [hposition, hget, Option.bind_eq_bind]
  generalize List.findIdx? _ plan.inputs = found
  rcases found with _ | position
  · rfl
  simp only [Option.bind_some]
  rcases plan.inputs[position]? with _ | input
  · rfl
  simp only [Option.map_some, Option.bind_some, Input.relabel]
  rcases input.typeId with _ | typeId
  · rfl
  · simp [addParameter, relabel, Input.relabel, List.map_set]

theorem useInput_relabel (plan : Plan) (label : String) :
    (plan.relabel f headings).useInput (f label) =
      (plan.useInput label).map (Plan.relabel f headings) := by
  unfold useInput
  rw [input?_relabel]
  rcases plan.input? label with _ | input
  · rfl
  · show (if input.typeParameter.isNone then _ else _) =
      Option.map _ (if input.typeParameter.isNone then _ else _)
    split_ifs
    · exact addInputParameters_relabel plan label
    · rfl

end Plan

/-! ### Joins -/

section Joins

open Except (bind_eq_bimap)

variable {stems : List String} {schema : Schema} {path : List Nat} {unknown : Option Plan.Fact}
  {rename : String → String} {headings : List (Heading stems)}

theorem ascend_relabel : ∀ {roles : List Role} {plan : Plan} {slot : Nat} {type : String},
    ascend schema path unknown (plan.relabel rename headings) slot type roles =
      (ascend schema path unknown plan slot type roles).bimap (PlanError.relabel rename)
        (Option.map (Prod.map (Plan.relabel rename headings) id))
  | [], _, _, _ => rfl
  | role :: rest, plan, slot, type => by
    rw [ascend, ascend]
    rcases schema.roleOf type role.name with _ | number
    · rfl
    · simp only [Plan.addParameter_relabel, Prod.map_fst, Prod.map_snd, Plan.nextSlot_relabel]
      exact bind_eq_bimap Plan.addEdge_relabel fun _ => ascend_relabel

theorem descend_relabel : ∀ {ids : List (Int × String)} {plan : Plan} {slot : Nat},
    descend path unknown (plan.relabel rename headings) slot ids =
      (descend path unknown plan slot ids).bimap (PlanError.relabel rename)
        (Prod.map (Plan.relabel rename headings) id)
  | [], _, _ => rfl
  | (number, type) :: rest, plan, slot => by
    rw [descend, descend]
    simp only [Plan.addParameter_relabel, Prod.map_fst, Prod.map_snd, Plan.nextSlot_relabel]
    exact bind_eq_bimap Plan.addEdge_relabel fun _ => descend_relabel

theorem uniform_ascend (headings : List (Heading stems)) (plan : Plan) (slot : Nat) (type : String)
    (roles : List Role) :
    Uniform (fun rename => Option.map (Prod.map (Plan.relabel rename headings) id)) fun f =>
      ascend schema path unknown (plan.relabel f headings) slot type roles :=
  ⟨_, fun _ => ascend_relabel⟩

theorem uniform_descend (headings : List (Heading stems)) (plan : Plan) (slot : Nat)
    (ids : List (Int × String)) :
    Uniform (fun rename => Prod.map (Plan.relabel rename headings) id) fun f =>
      descend path unknown (plan.relabel f headings) slot ids :=
  ⟨_, fun _ => descend_relabel⟩

theorem uniform_addGroup (headings : List (Heading stems)) (plan : Plan) (path : List Nat) :
    Uniform (fun rename => Prod.map (Plan.relabel rename headings) id) fun f =>
      (plan.relabel f headings).addGroup path :=
  ⟨_, fun _ => Plan.addGroup_relabel⟩

/-- **A path condition is joined alike under all names.** -/
theorem PathCondition.join_relabel {stem : String} (hs : stem ∈ stems) {unknown : Label}
    {condition : PathCondition} (joined : HeadedJoined stems) :
    Uniform (@HeadedBranch.named stems) fun f =>
      (condition.relabel f).join schema stem path (unknown.relabel f) (joined.named f) := by
  obtain ⟨⟨headings, plan⟩, bindings⟩ := joined
  have huse : ∀ f : Renaming, (plan.relabel f headings).useInput (f condition.labelRight) =
      (plan.useInput condition.labelRight).map (Plan.relabel f headings) :=
    fun f => Plan.useInput_relabel plan condition.labelRight
  have hlookup : ∀ (f : Renaming) (name : String),
      (bindings.map (Prod.map f id)).lookup (f name) = bindings.lookup name :=
    fun f name => (lookup_relabel f id name bindings).trans Option.map_id'
  simp only [PathCondition.join, PathCondition.relabel, Label.relabel, HeadedJoined.named,
    HeadedPlan.named, huse, hlookup]
  rcases plan.useInput condition.labelRight with _ | used
  · exact .ok ⟨[], none⟩ fun _ => rfl
  rcases bindings.lookup condition.labelRight with _ | right
  · exact ⟨.error (.unknownLabel condition.labelRight), fun _ => rfl⟩
  refine (uniform_ascend headings used _ _ _).bind fun up => ?_
  rcases up with _ | ⟨middle, slot⟩
  · exact .ok ⟨[], none⟩ fun _ => rfl
  rcases resolveRoles schema unknown.type condition.rolesLeft with _ | ids
  · exact .ok ⟨[], none⟩ fun _ => rfl
  refine (uniform_descend headings middle _ _).bind fun ⟨final, slot⟩ => ?_
  rcases bindings.lookup unknown.name with _ | bound
  -- a new unknown is selected if no group is around, and the name in its heading is left open
  · have hselect : ∀ f : Renaming, (final.relabel f headings).addOutput (stem ++ f unknown.name)
        unknown.type slot = final.relabel f
          (headings ++ [⟨stem, hs, unknown.name, unknown.type, slot⟩]) :=
      fun f => Plan.addOutput_relabel hs
    rcases path.isEmpty
    · exact .ok ⟨[], some ⟨⟨headings, final⟩, (unknown.name, ⟨slot, unknown.type⟩) :: bindings⟩⟩
        fun _ => rfl
    · refine .ok ⟨[], some ⟨⟨headings ++ [⟨stem, hs, unknown.name, unknown.type, slot⟩], final⟩,
        (unknown.name, ⟨slot, unknown.type⟩) :: bindings⟩⟩ fun f => ?_
      exact congrArg (fun plan => Except.ok (Branch.continued ⟨plan, _⟩)) (hselect f)
  · exact .ok ⟨[], some ⟨⟨headings, final⟩, bindings⟩⟩ fun _ => rfl

/-! ### Matches -/

theorem HeadedBranch.andThen_named {next : Renaming → Joined → Except PlanError Branch}
    (hn : ∀ joined : HeadedJoined stems,
      Uniform (@HeadedBranch.named stems) fun f => next f (joined.named f)) :
    ∀ branch : HeadedBranch stems,
      Uniform (@HeadedBranch.named stems) fun f => (branch.named f).andThen (next f)
  | ⟨completed, none⟩ => .ok ⟨completed, none⟩ fun _ => rfl
  | ⟨completed, some joined⟩ => (hn joined).bind fun rest =>
      .ok ⟨completed ++ rest.completed, rest.last⟩ fun f => by
        simp [HeadedBranch.named, pure, Except.pure]

mutual

/-- **A condition is joined alike under all names.** -/
theorem Condition.join_relabel {stem : String} (hs : stem ∈ stems) {unknown : Label} :
    ∀ {condition : Condition} {path : List Nat} (joined : HeadedJoined stems),
    Uniform (@HeadedBranch.named stems) fun f =>
      (condition.relabel f).join schema stem path (unknown.relabel f) (joined.named f)
  | .path condition, path, joined => by
    simp only [Condition.relabel, Condition.join]
    exact PathCondition.join_relabel hs joined
  | .existential true block, path, joined => by
    simp only [Condition.relabel, Condition.join]
    refine (Match.joinAll_relabel hs joined).bind fun inner => ?_
    refine .ok ⟨inner.completed, inner.last.map fun last => ⟨last.headed, joined.bindings⟩⟩
      fun f => ?_
    simp [HeadedBranch.named, HeadedJoined.named, pure, Except.pure, Function.comp_def]
  | .existential false block, path, ⟨⟨headings, plan⟩, bindings⟩ => by
    simp only [Condition.relabel, Condition.join]
    refine (Match.joinAll_relabel hs _).bind fun failing => ?_
    refine (uniform_addGroup headings plan path).bind fun ⟨opened, inner⟩ => ?_
    refine (Match.joinAll_relabel hs ⟨⟨headings, opened⟩, bindings⟩).bind fun absent => ?_
    rcases absent with ⟨completed, _ | last⟩
    · exact .ok ⟨[], some ⟨⟨headings, plan⟩, bindings⟩⟩ fun _ => rfl
    · refine .ok ⟨failing.completed ++ (failing.last.map HeadedJoined.headed).toList ++ completed,
        some ⟨last.headed, bindings⟩⟩ fun f => ?_
      rcases failing with ⟨failed, _ | joined⟩ <;>
        simp [HeadedBranch.named, HeadedJoined.named, pure, Except.pure]

/-- **Matches are joined alike under all names.** -/
theorem Match.joinAll_relabel {stem : String} (hs : stem ∈ stems) :
    ∀ {block : List Match} {path : List Nat} (joined : HeadedJoined stems),
    Uniform (@HeadedBranch.named stems) fun f =>
      Match.joinAll schema stem path (joined.named f) (Match.relabelAll f block)
  | [], _, joined => .ok ⟨[], some joined⟩ fun _ => rfl
  | ⟨unknown, conditions⟩ :: rest, path, joined => by
    simp only [Match.relabelAll, Match.relabel, Match.joinAll, Match.join]
    exact (Condition.joinAll_relabel hs joined).bind
      (HeadedBranch.andThen_named fun next => Match.joinAll_relabel hs next)

theorem Condition.joinAll_relabel {stem : String} (hs : stem ∈ stems) {unknown : Label} :
    ∀ {conditions : List Condition} {path : List Nat} (joined : HeadedJoined stems),
    Uniform (@HeadedBranch.named stems) fun f =>
      Condition.joinAll schema stem path (unknown.relabel f) (joined.named f)
        (Condition.relabelAll f conditions)
  | [], _, joined => .ok ⟨[], some joined⟩ fun _ => rfl
  | condition :: rest, path, joined => by
    simp only [Condition.relabelAll, Condition.joinAll]
    exact (Condition.join_relabel hs joined).bind
      (HeadedBranch.andThen_named fun next => Condition.joinAll_relabel hs next)

end

/-! ### Projections -/

theorem HeadedBranch.compiled_named {next : Renaming → Joined → Except PlanError (List Plan)}
    (hn : ∀ joined : HeadedJoined stems,
      Uniform (fun rename => List.map (@HeadedPlan.named stems rename))
        fun f => next f (joined.named f)) :
    ∀ branch : HeadedBranch stems,
      Uniform (fun rename => List.map (@HeadedPlan.named stems rename)) fun f =>
        match (branch.named f).last with
        | none => return (branch.named f).completed
        | some last => do
          let deeper ← next f last
          return (branch.named f).completed ++ last.plan :: deeper
  | ⟨completed, none⟩ => .ok completed fun _ => rfl
  | ⟨completed, some last⟩ => (hn last).bind fun deeper =>
      .ok (completed ++ last.headed :: deeper) fun f => by
        simp [HeadedBranch.named, HeadedJoined.named, pure, Except.pure]

mutual

/-- **A projection has the same plans under all names**, up to the names in their headings. -/
theorem Projection.plans_relabel : ∀ {projection : Projection} {stem : String}
    (_ : ∀ s ∈ projection.stems stem, s ∈ stems) (joined : HeadedJoined stems),
    Uniform (fun rename => List.map (@HeadedPlan.named stems rename)) fun f =>
      (projection.relabel f).plans schema stem (joined.named f)
  | .nested name block projections, stem, hs, joined => by
    obtain ⟨hstem, hs⟩ := List.forall_mem_cons.mp hs
    simp only [Projection.relabel, Projection.plans]
    exact (Match.joinAll_relabel hstem joined).bind
      (HeadedBranch.compiled_named fun last => Projection.plansAll_relabel hs last)
  | .field _ _ _, _, _, _ => .ok [] fun _ => rfl
  | .hash _ _, _, _, _ => .ok [] fun _ => rfl
  | .fact _ _, _, _, _ => .ok [] fun _ => rfl

theorem Projection.plansAll_relabel : ∀ {projections : List Projection} {stem : String}
    (_ : ∀ s ∈ Projection.stemsAll stem projections, s ∈ stems) (joined : HeadedJoined stems),
    Uniform (fun rename => List.map (@HeadedPlan.named stems rename)) fun f =>
      Projection.plansAll schema stem (joined.named f) (Projection.relabelAll f projections)
  | [], _, _, _ => .ok [] fun _ => rfl
  | projection :: rest, stem, hs, joined => by
    obtain ⟨hfirst, hrest⟩ := List.forall_mem_append.mp hs
    simp only [Projection.relabelAll, Projection.plansAll]
    refine (Projection.plans_relabel hfirst joined).bind fun plans => ?_
    refine (Projection.plansAll_relabel hrest joined).bind fun others => ?_
    exact .ok (plans ++ others) fun f => congrArg Except.ok (List.map_append ..).symm

end

end Joins

/-! ### Specifications -/

namespace Specification

variable {rename : String → String}

theorem checkStart_relabel (spec : Specification) (start : List FactReference) :
    (spec.relabel rename).checkStart start =
      (spec.checkStart start).bimap (PlanError.relabel rename) id := by
  simp only [checkStart, relabel, List.length_map, List.zip_map_right, List.zipIdx_map,
    List.find?_map, Function.comp_def, Prod.map_fst, Prod.map_snd, Label.relabel, id]
  split_ifs
  · rfl
  · rcases List.find? _ (start.zip spec.given).zipIdx with _ | entry <;> rfl

theorem inputs_relabel (spec : Specification) (schema : Schema) (start : List FactReference) :
    (spec.relabel rename).inputs schema start =
      (spec.inputs schema start).map (Plan.Input.relabel rename) := by
  simp only [inputs, relabel, List.zip_map_left, List.zipIdx_map, List.map_map]
  rfl

theorem givenFacts_relabel (spec : Specification) :
    (spec.relabel rename).givenFacts = spec.givenFacts := by
  simp only [givenFacts, relabel, List.zipIdx_map, List.map_map]
  rfl

/-- What a compilation starts from, before labels have names. -/
def headedInitial (spec : Specification) (schema : Schema) (start : List FactReference)
    (stems : List String) : HeadedJoined stems :=
  ⟨⟨[], Plan.start (spec.inputs schema start) spec.givenFacts⟩,
    (spec.initial schema start).bindings⟩

theorem initial_relabel (spec : Specification) (schema : Schema) (start : List FactReference)
    (stems : List String) : (spec.relabel rename).initial schema start =
      (spec.headedInitial schema start stems).named rename := by
  have hnames : (spec.given.map (Label.relabel rename)).map Label.name =
      (spec.given.map Label.name).map rename := by
    rw [List.map_map, List.map_map]
    rfl
  rw [initial, inputs_relabel, givenFacts_relabel]
  simp only [headedInitial, initial, HeadedJoined.named, List.map_reverse, relabel, hnames,
    List.zip_map_left]
  rfl

/-- **A specification has the same plans under all names**, up to the names in their headings. -/
theorem plans_relabel (spec : Specification) (schema : Schema) (start : List FactReference) :
    Uniform (fun rename => List.map (@HeadedPlan.named spec.stems rename)) fun f =>
      (spec.relabel f).plans schema start := by
  have hcheck : Uniform (fun _ => id) fun f => (spec.relabel f).checkStart start :=
    ⟨_, fun _ => checkStart_relabel spec start⟩
  have hstems : ∀ s ∈ Projection.stemsAll "" spec.projections, s ∈ spec.stems :=
    fun s => List.mem_cons_of_mem ""
  simp only [plans, initial_relabel spec schema start spec.stems]
  refine hcheck.bind fun _ => ?_
  exact (Match.joinAll_relabel List.mem_cons_self _).bind
    (HeadedBranch.compiled_named fun last => Projection.plansAll_relabel hstems last)

end Specification

end FactGraph
