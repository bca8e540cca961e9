import FactGraph.Proofs.Plan.Parameters
import FactGraph.Proofs.Rows
import FactGraph.Proofs.Specification.RoundTrip

/-! # Roles that are known by their numbers

An edge is of its role if it has the role's number, whatever the types of the facts at its ends. So
the edges of a plan tell two roles apart only if the catalog has numbered them apart. A catalog
keeps the roles of one type apart; nothing keeps apart those of different types.

* `Plan.Allotted.tellsApart_iff_numbers`: when the edges of a plan tell its roles apart.
* `Catalog.tellsApart_iff`: the catalogs for which they do so in the plans of every well-formed
  specification. -/

namespace FactGraph

/-! ### Catalogs -/

namespace Catalog

/-- A catalog comes about by registrations that are not refused. -/
inductive Built : Catalog → Prop where
  | empty : Built empty
  | factType {catalog next : Catalog} {name : String} {id : Int} :
    Built catalog → catalog.insertFactType name id = .ok next → Built next
  | role {catalog next : Catalog} {type role : String} {id : Int} :
    Built catalog → catalog.insertRole type role id = .ok next → Built next

/-- Different fact types have different numbers. -/
def NumbersTypes (catalog : Catalog) : Prop := (catalog.factTypes.map Prod.snd).Nodup

/-- Different roles of one fact type have different numbers. -/
def NumbersRoles (catalog : Catalog) : Prop := ∀ type role role' id,
  catalog.schema.roleOf type role = some id → catalog.schema.roleOf type role' = some id →
    role = role'

/-- Roles of different fact types have different numbers, too. -/
def NumbersAcrossTypes (catalog : Catalog) : Prop := ∀ type type' role role' id,
  catalog.schema.roleOf type role = some id → catalog.schema.roleOf type' role' = some id →
    type = type'

end Catalog

/-! ### Plans -/

/-- A role, by its declaring type and its name. -/
def RoleDefinition.key (role : RoleDefinition) : String × String := (role.definingType, role.name)

/-- **The edges of a plan tell its roles apart**: those of different roles, in whatever branches,
hold different numbers. -/
def TracedPlan.TellsApart (traced : TracedPlan) : Prop :=
  ∀ edge ∈ traced.plan.edgesWithin, ∀ edge' ∈ traced.plan.edgesWithin, ∀ role role',
    Plan.roleAt traced.roles edge.index = some role →
    Plan.roleAt traced.roles edge'.index = some role' → role.key ≠ role'.key →
      Plan.parameterAt traced.plan.parameters edge.roleParameter ≠
        Plan.parameterAt traced.plan.parameters edge'.roleParameter

namespace Plan

variable {plan : Plan} {schema : Schema} {inputs : List Input} {roles : List RoleDefinition}

theorem Allotted.exists_edge (h : plan.Allotted schema inputs roles) {role : RoleDefinition}
    (hm : role ∈ roles) : ∃ edge ∈ plan.edgesWithin, roleAt roles edge.index = some role := by
  obtain ⟨position, hlt, rfl⟩ := List.getElem_of_mem hm
  have hindex : position + 1 ∈ plan.edgesWithin.map Edge.index :=
    h.indices.mem_iff.mpr (List.mem_range'_1.mpr ⟨by omega, by omega⟩)
  obtain ⟨edge, he, hi⟩ := List.mem_map.mp hindex
  refine ⟨edge, he, ?_⟩
  rw [hi, roleAt, List.getElem?_eq_getElem hlt]

/-- **The edges of a plan tell its roles apart exactly if the catalog numbers them apart.** -/
theorem Allotted.tellsApart_iff_numbers (h : plan.Allotted schema inputs roles) :
    TracedPlan.TellsApart ⟨plan, roles⟩ ↔ ∀ role ∈ roles, ∀ role' ∈ roles, role.key ≠ role'.key →
      schema.roleOf role.definingType role.name ≠ schema.roleOf role'.definingType role'.name := by
  -- the parameter of an edge holds the number that the catalog gives the edge's role
  have hnumber : ∀ edge ∈ plan.edgesWithin, ∀ role, roleAt roles edge.index = some role →
      parameterAt plan.parameters edge.roleParameter =
        (schema.roleOf role.definingType role.name).map Parameter.integer := by
    intro edge he role hr
    obtain ⟨found, id, hfound, hid, hparameter⟩ := h.holds edge he
    obtain rfl : role = found := Option.some_inj.mp (hr.symm.trans hfound)
    rw [hparameter, hid]
    rfl
  have hinjective : Function.Injective (Option.map Parameter.integer) :=
    Option.map_injective fun _ _ he => Parameter.integer.inj he
  constructor
  · intro hall role hm role' hm' hne heq
    obtain ⟨edge, he, hr⟩ := h.exists_edge hm
    obtain ⟨edge', he', hr'⟩ := h.exists_edge hm'
    refine hall edge he edge' he' role role' hr hr' hne ?_
    show parameterAt plan.parameters edge.roleParameter =
      parameterAt plan.parameters edge'.roleParameter
    rw [hnumber edge he role hr, hnumber edge' he' role' hr', heq]
  · intro hall edge he edge' he' role role' hr hr' hne heq
    have heq : parameterAt plan.parameters edge.roleParameter =
      parameterAt plan.parameters edge'.roleParameter := heq
    rw [hnumber edge he role hr, hnumber edge' he' role' hr'] at heq
    have hmem : ∀ {index : Nat} {role : RoleDefinition}, roleAt roles index = some role →
        role ∈ roles := by
      intro index role hr
      rcases index with _ | index
      · cases hr
      · exact List.mem_of_getElem? hr
    exact hall role (hmem hr) role' (hmem hr') hne (hinjective heq)

end Plan

/-! ### Facts that name one fact -/

namespace Specification

/-- Facts of two types that name one fact, each in a role of its own. -/
def referrers (target type role type' role' : String) : Specification :=
  ⟨[⟨"root", target⟩],
    [referring "a" type role "root" target, referring "b" type' role' "root" target], []⟩

/-- The plan for facts that name one fact. -/
def referrersPlan (type type' : String) (target : String) (typeId id id' : Int) : Plan where
  inputs := [⟨"root", 1, some typeId, "r", some 1, some 2⟩]
  parameters := [.integer typeId, .text "r", .integer id, .integer id']
  outputs := [⟨"a", type, 2⟩, ⟨"b", type', 3⟩]
  facts := [⟨1, target⟩, ⟨2, type⟩, ⟨3, type'⟩]
  edges := [⟨1, 1, 2, 3⟩, ⟨2, 1, 3, 4⟩]
  groups := []

variable {target type role type' role' : String} {schema : Schema} {typeId id id' : Int}

theorem check_referrers : (referrers target type role type' role').check = .ok () := by
  simp [referrers, referring, check, Scope.declareAll, Scope.declare, Scope.bind, Scope.type?,
    Match.checkAll, Match.check, Match.paths, Condition.checkAll, Condition.check,
    PathCondition.check, Projection.checkAll, endType, List.lookup_cons, bind, Except.bind, pure,
    Except.pure]

theorem tracedPlans_referrers (ht : schema.factTypeId target = some typeId)
    (hr : schema.roleOf type role = some id) (hr' : schema.roleOf type' role' = some id') :
    (referrers target type role type' role').tracedPlans schema [⟨target, "r"⟩] =
      .ok [⟨referrersPlan type type' target typeId id id',
        [⟨type, role, target⟩, ⟨type', role', target⟩]⟩] := by
  simp [referrers, referrersPlan, referring, tracedPlans, checkStart, initial, inputs, givenFacts,
    Match.traceAll, Condition.traceAll, Condition.trace, TracedBranch.andThen,
    TracedBranch.continued, Traced.toPlan, Projection.tracedPlansAll, PathCondition.join,
    PathCondition.traversed, rolesFrom, ascend, descend, resolveRoles, nextSlot, Branch.continued,
    Plan.start, Plan.useInput, Plan.input?, Plan.addInputParameters, Plan.addFact,
    Plan.addParameter, Plan.addEdge, Plan.edgeCount, Plan.Group.edgeCountAll, Plan.addOutput,
    List.findIdx?, List.findIdx?.go, List.lookup_cons, ht, hr, hr', bind, Except.bind, pure,
    Except.pure]

theorem ne_of_tellsApart_referrers (h : TracedPlan.TellsApart
      ⟨referrersPlan type type' target typeId id id',
        [⟨type, role, target⟩, ⟨type', role', target⟩]⟩)
    (hne : (type, role) ≠ (type', role')) : id ≠ id' := by
  intro he
  refine h ⟨1, 1, 2, 3⟩ ?_ ⟨2, 1, 3, 4⟩ ?_ _ _ rfl rfl hne ?_
  · exact List.mem_cons_self
  · exact List.mem_cons_of_mem _ List.mem_cons_self
  · rw [he]
    rfl

end Specification

/-! ### Catalogs that number roles apart -/

namespace Catalog

/-- **The edges of all plans tell roles apart exactly if the catalog numbers roles apart across
types**, if it does so for the roles of each type. -/
theorem tellsApart_iff {catalog : Catalog} (hr : catalog.NumbersRoles) :
    (∀ (spec : Specification) (start : List FactReference) (plans : List TracedPlan),
      spec.check = .ok () → spec.tracedPlans catalog.schema start = .ok plans →
        ∀ traced ∈ plans, traced.TellsApart) ↔ catalog.NumbersAcrossTypes := by
  constructor
  · intro hall type type' role role' id htype htype'
    by_contra hne
    obtain ⟨typeId, ht, -⟩ := Option.bind_eq_some_iff.mp htype
    have happart := hall _ _ _ Specification.check_referrers
      (Specification.tracedPlans_referrers ht htype htype') _ List.mem_cons_self
    have hpairs : (type, role) ≠ (type', role') := fun he => hne (Prod.mk.inj he).1
    exact Specification.ne_of_tellsApart_referrers happart hpairs rfl
  · intro hacross spec start plans _ hp traced hm
    have hallotted := Specification.allotted_of_mem_tracedPlans hp traced hm
    refine hallotted.tellsApart_iff_numbers.mpr fun role hrole role' hrole' hne heq => ?_
    obtain ⟨edge, he, hedge⟩ := hallotted.exists_edge hrole
    obtain ⟨found, id, hfound, hid, -⟩ := hallotted.holds edge he
    obtain rfl : role = found := Option.some_inj.mp (hedge.symm.trans hfound)
    have hid' : catalog.schema.roleOf role'.definingType role'.name = some id := heq ▸ hid
    have htype : role.definingType = role'.definingType := hacross _ _ _ _ _ hid hid'
    have hname : role.name = role'.name := hr _ _ _ _ hid (htype ▸ hid')
    exact hne (Prod.ext htype hname)

/-- Projects and events of roots. The role of projects has the number 1, and that of events may have
the same one. -/
def projectsAndEvents (event : Int) : Catalog :=
  ⟨[("Root", 1), ("Project", 2), ("Event", 3)], [(2, [("root", 1)]), (3, [("root", event)])]⟩

theorem built_projectsAndEvents (event : Int) : (projectsAndEvents event).Built := by
  have hroot : empty.insertFactType "Root" 1 = .ok ⟨[("Root", 1)], []⟩ := rfl
  have hproject : insertFactType ⟨[("Root", 1)], []⟩ "Project" 2 =
      .ok ⟨[("Root", 1), ("Project", 2)], []⟩ := rfl
  have hevent : insertFactType ⟨[("Root", 1), ("Project", 2)], []⟩ "Event" 3 =
      .ok ⟨[("Root", 1), ("Project", 2), ("Event", 3)], []⟩ := rfl
  have htypes := ((Built.empty.factType hroot).factType hproject).factType hevent
  have hrole : insertRole ⟨[("Root", 1), ("Project", 2), ("Event", 3)], []⟩ "Project" "root" 1 =
      .ok ⟨[("Root", 1), ("Project", 2), ("Event", 3)], [(2, [("root", 1)])]⟩ := rfl
  have hrole' : insertRole ⟨[("Root", 1), ("Project", 2), ("Event", 3)], [(2, [("root", 1)])]⟩
      "Event" "root" event = .ok (projectsAndEvents event) := rfl
  exact (htypes.role hrole).role hrole'

theorem exists_of_roleOf {catalog : Catalog} {type role : String} {id : Int}
    (h : catalog.schema.roleOf type role = some id) :
    ∃ typeId, (type, typeId) ∈ catalog.factTypes ∧ ((typeId, role), id) ∈ catalog.roles := by
  obtain ⟨typeId, ht, hr⟩ := Option.bind_eq_some_iff.mp h
  exact ⟨typeId, mem_of_lookup ht, mem_roles_of_roleId hr⟩

theorem roleOf_projectsAndEvents {event id : Int} {type role : String}
    (h : (projectsAndEvents event).schema.roleOf type role = some id) :
    type = "Project" ∧ role = "root" ∧ id = 1 ∨ type = "Event" ∧ role = "root" ∧ id = event := by
  obtain ⟨typeId, ht, hr⟩ := exists_of_roleOf h
  have hroles : ((typeId, role), id) ∈ [((2, "root"), 1), ((3, "root"), event)] := hr
  simp only [projectsAndEvents, List.mem_cons, Prod.mk.injEq, List.not_mem_nil, or_false]
    at ht hroles
  rcases hroles with ⟨⟨rfl, rfl⟩, rfl⟩ | ⟨⟨rfl, rfl⟩, rfl⟩
  · simp_all
  · simp_all

theorem numbersRoles_projectsAndEvents (event : Int) :
    (projectsAndEvents event).NumbersRoles := by
  intro type role role' id h h'
  rcases roleOf_projectsAndEvents h with ⟨-, rfl, -⟩ | ⟨-, rfl, -⟩ <;>
    rcases roleOf_projectsAndEvents h' with ⟨-, rfl, -⟩ | ⟨-, rfl, -⟩ <;> rfl

theorem numbersAcrossTypes_projectsAndEvents : (projectsAndEvents 2).NumbersAcrossTypes := by
  intro type type' role role' id h h'
  rcases roleOf_projectsAndEvents h with ⟨rfl, -, rfl⟩ | ⟨rfl, -, rfl⟩ <;>
    rcases roleOf_projectsAndEvents h' with ⟨rfl, -, he⟩ | ⟨rfl, -, he⟩
  · rfl
  · cases he
  · cases he
  · rfl

theorem tellsApart_projectsAndEvents : ∃ plans,
    (Specification.referrers "Root" "Project" "root" "Event" "root").tracedPlans
      (projectsAndEvents 2).schema [⟨"Root", "r"⟩] = .ok plans ∧
    plans.length = 1 ∧ ∀ traced ∈ plans, traced.TellsApart := by
  have hplans := @Specification.tracedPlans_referrers "Root" "Project" "root" "Event" "root"
    (projectsAndEvents 2).schema 1 1 2 rfl rfl rfl
  have happart := (tellsApart_iff (numbersRoles_projectsAndEvents 2)).mpr
    numbersAcrossTypes_projectsAndEvents
  exact ⟨_, hplans, rfl, happart _ _ _ Specification.check_referrers hplans⟩

/-- **Not every catalog that numbers the roles of each type numbers roles apart.** -/
theorem not_forall_tellsApart : ¬ ∀ (catalog : Catalog) (spec : Specification)
    (start : List FactReference) (plans : List TracedPlan), catalog.Built → catalog.NumbersTypes →
    catalog.NumbersRoles → spec.Accepted → spec.tracedPlans catalog.schema start = .ok plans →
      ∀ traced ∈ plans, traced.TellsApart := by
  intro h
  have haccepted :
      (Specification.referrers "Root" "Project" "root" "Event" "root").Accepted :=
    Specification.accepted_of_isPrintable Specification.check_referrers rfl
  have htypes : ([1, 2, 3] : List Int).Nodup := by decide
  have happart := h _ _ _ _ (built_projectsAndEvents 1) htypes
    (numbersRoles_projectsAndEvents 1) haccepted
    (Specification.tracedPlans_referrers rfl rfl rfl) _ List.mem_cons_self
  exact Specification.ne_of_tellsApart_referrers happart (by decide) rfl

end Catalog

end FactGraph
