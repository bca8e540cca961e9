import FactGraph.Proofs.Plan.Matches
import FactGraph.Proofs.Plan.Start

/-! # Compilations as runs

However deep a specification is, few kinds of steps lead from one plan to the next: a path condition
binds a label behind a chain of new edges, the labels of a block are forgotten, and what is joined
inside a new group becomes a group of the branch around it. `Joined.Reaches` is made of these steps,
so what each of them preserves holds of every plan of a specification.

A specification is direct if every match lists its path first, with at least one role, and every
existential condition has a match. Then no group is left without edges.

* `Match.joinAll_runs`: a join runs through such steps.
* `Specification.arrivesAt_of_mem_plans`: every plan of a well-formed specification is reached from
  its start, and every group of it has edges if the specification is direct. -/

namespace FactGraph

/-! ### Chains of numbered edges -/

namespace Plan

/-- Edges have been appended to the branch of a path, which take the next numbers and lead from a
slot through new slots. -/
inductive Chained (path : List Nat) : Plan → Nat → Plan → Nat → List Edge → Prop
  | nil (plan : Plan) (slot : Nat) : Chained path plan slot plan slot []
  | cons {old middle new : Plan} {slot last : Nat} {role : Int} {edge : Edge} {edges : List Edge}
      (joins : Joins path old slot role middle edge) (index : edge.index = old.edgeCount + 1)
      (outputs : middle.outputs = old.outputs)
      (rest : Chained path middle (old.facts.length + 1) new last edges) :
      Chained path old slot new last (edge :: edges)

variable {path : List Nat}

theorem Chained.trans {a b c : Plan} {slot middle last : Nat} {edges edges' : List Edge}
    (h : Chained path a slot b middle edges) (h' : Chained path b middle c last edges') :
    Chained path a slot c last (edges ++ edges') := by
  induction h with
  | nil => exact h'
  | cons joins index outputs _ ih => exact .cons joins index outputs (ih h')

theorem outputs_of_addEdge {plan plan' : Plan} {predecessor successor role : Nat}
    (h : plan.addEdge predecessor successor role path = .ok plan') :
    plan'.outputs = plan.outputs := by
  unfold addEdge at h
  split_ifs at h
  · cases h
    rfl
  · obtain ⟨groups, -, hg⟩ := Except.bind_eq_ok_iff.mp h
    cases hg
    rfl

theorem outputs_of_addGroup {plan plan' : Plan} {path' : List Nat}
    (h : plan.addGroup path = .ok (plan', path')) : path' ≠ [] ∧ plan'.outputs = plan.outputs := by
  unfold addGroup at h
  split_ifs at h
  · cases h
    exact ⟨List.cons_ne_nil _ _, rfl⟩
  · obtain ⟨outer, -, h⟩ := Except.bind_eq_ok_iff.mp h
    obtain ⟨groups, -, hg⟩ := Except.bind_eq_ok_iff.mp h
    cases hg
    exact ⟨by simp, rfl⟩

end Plan

section

variable {schema : Schema} {path : List Nat}

theorem ascend_chained : ∀ {roles : List Role} {plan new : Plan} {slot last : Nat} {type : String},
    ascend schema path none plan slot type roles = .ok (some (new, last)) →
    ∃ edges, Plan.Chained path plan slot new last edges ∧ edges.length = roles.length
  | [], plan, _, slot, _, _, h => by
    cases h
    exact ⟨[], .nil plan slot, rfl⟩
  | role :: rest, plan, new, slot, last, type, h => by
    rw [ascend] at h
    rcases hr : schema.roleOf type role.name with _ | id <;> simp only [hr] at h
    · cases h
    · rw [nextSlot_none] at h
      obtain ⟨middle, hadd, hrest⟩ := Except.bind_eq_ok_iff.mp h
      obtain ⟨edges, hc, hlen⟩ := ascend_chained hrest
      exact ⟨_, .cons (Plan.joins_of_addEdge hadd (Or.inr ⟨rfl, rfl⟩)) rfl
        ((Plan.outputs_of_addEdge hadd).trans rfl) hc,
        by rw [List.length_cons, List.length_cons, hlen]⟩

theorem descend_chained : ∀ {ids : List (Int × String)} {plan new : Plan} {slot last : Nat},
    descend path none plan slot ids = .ok (new, last) →
    ∃ edges, Plan.Chained path plan slot new last edges ∧ edges.length = ids.length
  | [], plan, _, slot, _, h => by
    cases h
    exact ⟨[], .nil plan slot, rfl⟩
  | (id, type) :: rest, plan, new, slot, last, h => by
    rw [descend] at h
    simp only [nextSlot_none] at h
    obtain ⟨middle, hadd, hrest⟩ := Except.bind_eq_ok_iff.mp h
    obtain ⟨edges, hc, hlen⟩ := descend_chained hrest
    exact ⟨_, .cons (Plan.joins_of_addEdge hadd (Or.inl ⟨rfl, rfl⟩)) rfl
      ((Plan.outputs_of_addEdge hadd).trans rfl) hc,
      by rw [List.length_cons, List.length_cons, hlen]⟩

theorem length_of_resolveRoles : ∀ {roles : List Role} {type : String} {ids : List (Int × String)},
    resolveRoles schema type roles = some ids → ids.length = roles.length
  | [], _, _, h => by
    cases h
    rfl
  | role :: rest, type, ids, h => by
    simp only [resolveRoles, Option.bind_eq_bind, Option.bind_eq_some_iff] at h
    obtain ⟨id, -, others, ho, h⟩ := h
    cases h
    rw [List.length_cons, List.length_cons, length_of_resolveRoles ho]

end

/-! ### Groups with edges -/

namespace Plan.Group

mutual

/-- A group and every group inside of it has edges of its own. -/
def Solid : Group → Prop
  | ⟨edges, groups⟩ => edges ≠ [] ∧ AllSolid groups

/-- Some groups and every group inside of them have edges of their own. -/
def AllSolid : List Group → Prop
  | [] => True
  | group :: rest => group.Solid ∧ AllSolid rest

end

theorem solid_iff {group : Group} : group.Solid ↔ group.edges ≠ [] ∧ AllSolid group.groups := by
  obtain ⟨edges, groups⟩ := group
  rfl

theorem allSolid_append : ∀ {a b : List Group}, AllSolid (a ++ b) ↔ AllSolid a ∧ AllSolid b
  | [], b => by simp [AllSolid]
  | group :: rest, b => by
    rw [List.cons_append, AllSolid, AllSolid, allSolid_append, and_assoc]

theorem allSolid_singleton {group : Group} : AllSolid [group] ↔ group.Solid := by
  simp only [AllSolid, and_true]

/-- Every group in a part has edges, and so has the part itself if it `leads`. -/
structure Filled (leads : Prop) (part : Group) : Prop where
  groups : AllSolid part.groups
  edges : leads → part.edges ≠ []

variable {leads leads' : Prop} {first second part : Group}

theorem Filled.append (h : first.Filled leads) (h' : second.Filled leads') :
    (first ++ second).Filled leads where
  groups := allSolid_append.mpr ⟨h.groups, h'.groups⟩
  edges hl hn := h.edges hl (List.append_eq_nil_iff.mp hn).1

theorem Filled.weaken (h : part.Filled leads) (hl : leads' → leads) : part.Filled leads' :=
  ⟨h.groups, fun hleads => h.edges (hl hleads)⟩

theorem Filled.group (h : part.Filled leads) (hl : leads) :
    (⟨[], [part]⟩ : Group).Filled False where
  groups := allSolid_singleton.mpr (solid_iff.mpr ⟨h.edges hl, h.groups⟩)
  edges := False.elim

theorem filled_empty : empty.Filled False := ⟨trivial, False.elim⟩

end Plan.Group

/-! ### Runs -/

namespace Joined

/-- **A compilation goes on to another plan and other labels**, and appends a part to the branch of
a path. -/
inductive Reaches : List Nat → Joined → Joined → Plan.Group → Prop
  | refl {path : List Nat} (joined : Joined) : Reaches path joined joined Plan.Group.empty
  | trans {path : List Nat} {a b c : Joined} {first second : Plan.Group} :
      Reaches path a b first → Reaches path b c second → Reaches path a c (first ++ second)
  /-- A new label is bound behind a chain, and selected in the unconditional branch. -/
  | bind {path : List Nat} {a : Joined} {used new : Plan} {right : Plan.Fact} {last : Nat}
      {edges : List Plan.Edge} {label : String} (name : String) (unknown : Label)
      (use : a.plan.useInput label = some used) (start : a.bindings.lookup label = some right)
      (fresh : a.bindings.lookup unknown.name = none)
      (chained : Plan.Chained path used right.slot new last edges) :
      Reaches path a
        ⟨if path.isEmpty then new.addOutput name unknown.type last else new,
          (unknown.name, ⟨last, unknown.type⟩) :: a.bindings⟩ ⟨edges, []⟩
  /-- Labels are forgotten. -/
  | forget {path : List Nat} {a b : Joined} {added : Plan.Group} :
      Reaches path a b added → Reaches path a ⟨b.plan, a.bindings⟩ added
  /-- What is joined inside a new group makes that group, and its labels are forgotten. -/
  | group {path path' : List Nat} {a b : Joined} {opened : Plan} {added : Plan.Group} :
      a.plan.addGroup path = .ok (opened, path') →
      Reaches path' ⟨opened, a.bindings⟩ b added →
      Reaches path a ⟨b.plan, a.bindings⟩ ⟨[], [added]⟩

end Joined

/-- A branch runs on from a plan, with parts that are filled if it is `direct`. -/
structure Branch.Runs (path : List Nat) (old : Joined) (branch : Branch) (direct leads : Prop) :
    Prop where
  completed : ∀ plan ∈ branch.completed, ∃ bindings added,
    old.Reaches path ⟨plan, bindings⟩ added ∧ (direct → added.Filled leads)
  last : ∀ new ∈ branch.last, ∃ added, old.Reaches path new added ∧ (direct → added.Filled leads)

namespace Branch

variable {path path' : List Nat} {old : Joined} {branch : Branch}
  {direct direct' leads leads' : Prop}

theorem Runs.continued (joined : Joined) :
    (Branch.continued joined).Runs path joined direct False := by
  refine ⟨fun _ hm => absurd hm List.not_mem_nil, fun new hm => ?_⟩
  cases hm
  exact ⟨_, .refl joined, fun _ => Plan.Group.filled_empty⟩

theorem Runs.weaken (h : branch.Runs path old direct leads) (hd : direct' → direct)
    (hl : direct' → leads' → leads) : branch.Runs path old direct' leads' where
  completed plan hm := by
    obtain ⟨bindings, added, hr, hf⟩ := h.completed plan hm
    exact ⟨bindings, added, hr, fun hdirect => (hf (hd hdirect)).weaken (hl hdirect)⟩
  last new hm := by
    obtain ⟨added, hr, hf⟩ := h.last new hm
    exact ⟨added, hr, fun hdirect => (hf (hd hdirect)).weaken (hl hdirect)⟩

theorem Runs.andThen {next : Joined → Except PlanError Branch} {whole : Branch}
    (h : branch.Runs path old direct leads)
    (hn : ∀ b ∈ branch.last, ∀ rest, next b = .ok rest → rest.Runs path b direct leads')
    (hw : branch.andThen next = .ok whole) : whole.Runs path old direct leads := by
  obtain ⟨completed, _ | b⟩ := branch
  · cases hw
    exact h
  · obtain ⟨rest, hr, hw⟩ := Except.bind_eq_ok_iff.mp hw
    cases hw
    obtain ⟨first, hfirst, hfilled⟩ := h.last b rfl
    have hrest := hn b rfl rest hr
    refine ⟨fun plan hm => ?_, fun new hm => ?_⟩
    · rcases List.mem_append.mp hm with hm | hm
      · exact h.completed plan hm
      · obtain ⟨bindings, second, hs, hf⟩ := hrest.completed plan hm
        exact ⟨bindings, _, .trans hfirst hs, fun hd => (hfilled hd).append (hf hd)⟩
    · obtain ⟨second, hs, hf⟩ := hrest.last new hm
      exact ⟨_, .trans hfirst hs, fun hd => (hfilled hd).append (hf hd)⟩

theorem Runs.reaches (h : branch.Runs path old direct leads) :
    ∀ plan ∈ branch.completed ++ (branch.last.map Joined.plan).toList, ∃ bindings added,
      old.Reaches path ⟨plan, bindings⟩ added ∧ (direct → added.Filled leads) := by
  intro plan hm
  rcases List.mem_append.mp hm with hm | hm
  · exact h.completed plan hm
  · obtain ⟨new, hnew, rfl⟩ := Option.map_eq_some_iff.mp (Option.mem_toList.mp hm)
    obtain ⟨added, hr, hf⟩ := h.last new hnew
    exact ⟨new.bindings, added, hr, hf⟩

/-- What holds wherever the second part of a branch arrives holds where the branch does. -/
theorem forall_last_of_andThen {next : Joined → Except PlanError Branch} {whole : Branch}
    {P : Joined → Prop} (hw : branch.andThen next = .ok whole)
    (hn : ∀ b ∈ branch.last, ∀ rest, next b = .ok rest → ∀ new ∈ rest.last, P new) :
    ∀ new ∈ whole.last, P new := by
  intro new hnew
  obtain ⟨hnone, hnext⟩ := andThen_eq_ok hw
  rcases hb : branch.last with _ | b
  · rw [hnone hb] at hnew
    cases hnew
  · obtain ⟨rest, hr, hl⟩ := hnext b hb
    exact hn b hb rest hr new (hl ▸ hnew)

theorem Runs.positive (h : branch.Runs path old direct leads) :
    Runs path old ⟨branch.completed, branch.last.map fun last => ⟨last.plan, old.bindings⟩⟩
      direct leads := by
  refine ⟨h.completed, fun new hm => ?_⟩
  obtain ⟨last, hl, rfl⟩ := Option.map_eq_some_iff.mp hm
  obtain ⟨added, hr, hf⟩ := h.last last hl
  exact ⟨added, .forget hr, hf⟩

/-- A negative existential condition runs through its block, and then through its group. -/
theorem Runs.negative {opened : Plan} {failing absent : Branch} {last : Joined}
    (hg : old.plan.addGroup path = .ok (opened, path')) (hleads : direct → leads)
    (hf : failing.Runs path old direct leads)
    (ha : absent.Runs path' ⟨opened, old.bindings⟩ direct leads) (hl : absent.last = some last) :
    Runs path old ⟨failing.completed ++ (failing.last.map Joined.plan).toList ++ absent.completed,
      some ⟨last.plan, old.bindings⟩⟩ direct False := by
  refine ⟨fun plan hm => ?_, fun new hm => ?_⟩
  · rcases List.mem_append.mp hm with hm | hm
    · obtain ⟨bindings, added, hr, hfilled⟩ := hf.reaches plan hm
      exact ⟨bindings, added, hr, fun hd => (hfilled hd).weaken False.elim⟩
    · obtain ⟨bindings, added, hr, hfilled⟩ := ha.completed plan hm
      exact ⟨old.bindings, _, .group hg hr, fun hd => (hfilled hd).group (hleads hd)⟩
  · cases hm
    obtain ⟨added, hr, hfilled⟩ := ha.last last hl
    exact ⟨_, .group hg hr, fun hd => (hfilled hd).group (hleads hd)⟩

end Branch

/-! ### Direct specifications -/

/-- Some conditions begin with a path condition. -/
def Condition.startsWithPath : List Condition → Bool
  | .path _ :: _ => true
  | _ => false

mutual

/-- A path condition has a role; an existential condition has matches, all of them direct. -/
def Condition.direct : Condition → Bool
  | .path condition => !(condition.rolesLeft.isEmpty && condition.rolesRight.isEmpty)
  | .existential _ block => !block.isEmpty && Match.allDirect block

/-- Every match begins with its path condition, and its conditions are direct. -/
def Match.allDirect : List Match → Bool
  | [] => true
  | ⟨_, conditions⟩ :: rest =>
    Condition.startsWithPath conditions && Condition.allDirect conditions && Match.allDirect rest

def Condition.allDirect : List Condition → Bool
  | [] => true
  | condition :: rest => condition.direct && Condition.allDirect rest

end

mutual

def Projection.direct : Projection → Bool
  | .nested _ block projections => Match.allDirect block && Projection.allDirect projections
  | .field _ _ _ | .hash _ _ | .fact _ _ => true

def Projection.allDirect : List Projection → Bool
  | [] => true
  | projection :: rest => projection.direct && Projection.allDirect rest

end

/-- **A specification is direct**: every match begins with its path condition, every path condition
has a role, and every existential condition has a match. -/
def Specification.direct (spec : Specification) : Bool :=
  Match.allDirect spec.body && Projection.allDirect spec.projections

/-! ### What a join runs through -/

variable {schema : Schema} {stem : String} {path : List Nat} {scope : Scope} {unknown : Label}
  {joined : Joined}

theorem Branch.runs_dropped {direct leads : Prop} :
    Branch.dropped.Runs path joined direct leads :=
  ⟨fun _ hm => absurd hm List.not_mem_nil, fun _ hm => by cases hm⟩

theorem PathCondition.completed_of_join {condition : PathCondition} {branch : Branch}
    (h : condition.join schema stem path unknown joined = .ok branch) : branch.completed = [] := by
  unfold PathCondition.join at h
  rcases hn : joined.plan.useInput condition.labelRight with _ | used <;> simp only [hn] at h
  · cases h
    rfl
  rcases hr : joined.bindings.lookup condition.labelRight with _ | right <;> simp only [hr] at h
  · cases h
  obtain ⟨up, -, h⟩ := Except.bind_eq_ok_iff.mp h
  rcases up with _ | ⟨middle, slot⟩
  · cases h
    rfl
  rcases hl : resolveRoles schema unknown.type condition.rolesLeft with _ | roles <;>
    simp only [hl] at h
  · cases h
    rfl
  obtain ⟨down, -, h⟩ := Except.bind_eq_ok_iff.mp h
  rcases hu : joined.bindings.lookup unknown.name with _ | fact <;> simp only [hu] at h <;>
    cases h <;> rfl

/-- **A path condition on a new label binds it behind a chain**, or is dropped. -/
theorem PathCondition.join_runs {condition : PathCondition} {branch : Branch}
    (hfresh : joined.bindings.lookup unknown.name = none)
    (h : condition.join schema stem path unknown joined = .ok branch) :
    branch.Runs path joined (Condition.direct (.path condition) = true) True ∧
      ∀ new ∈ branch.last, ∃ last,
        new.bindings = (unknown.name, ⟨last, unknown.type⟩) :: joined.bindings := by
  have hcompleted := completed_of_join h
  obtain ⟨completed, last⟩ := branch
  obtain rfl : completed = [] := hcompleted
  rcases huse : joined.plan.useInput condition.labelRight with _ | used
  · unfold PathCondition.join at h
    rw [huse] at h
    cases h
    exact ⟨Branch.runs_dropped, fun _ hm => by cases hm⟩
  obtain ⟨right, hright, hcases⟩ := join_eq_ok huse hfresh h
  rcases hcases with ⟨hnone, -⟩ | ⟨middle, slot, roles, final, slot', hup, hleft, hdown, hlast⟩
  · obtain rfl : last = none := hnone
    exact ⟨Branch.runs_dropped, fun _ hm => by cases hm⟩
  obtain ⟨edges, hc, hlen⟩ := ascend_chained hup
  obtain ⟨edges', hc', hlen'⟩ := descend_chained hdown
  rw [List.length_reverse, length_of_resolveRoles hleft] at hlen'
  refine ⟨⟨fun _ hm => absurd hm List.not_mem_nil, fun new hm => ?_⟩, fun new hm => ?_⟩
  · obtain rfl := Option.some_inj.mp (hlast.symm.trans hm)
    refine ⟨_, .bind _ unknown huse hright hfresh (hc.trans hc'),
      fun hd => ⟨trivial, fun _ hn => ?_⟩⟩
    -- a chain without edges would have no roles
    obtain ⟨hn, hn'⟩ := List.append_eq_nil_iff.mp hn
    rw [hn, List.length_nil, eq_comm, List.length_eq_zero_iff] at hlen
    rw [hn', List.length_nil, eq_comm, List.length_eq_zero_iff] at hlen'
    simp [Condition.direct, hlen, hlen'] at hd
  · obtain rfl := Option.some_inj.mp (hlast.symm.trans hm)
    exact ⟨slot', rfl⟩

mutual

theorem Condition.join_runs : ∀ (condition : Condition) {path : List Nat} {scope : Scope}
    {unknown : Label} {joined : Joined} {branch : Branch}, joined.Within scope →
    scope.type? unknown.name = some unknown.type →
    (Match.paths ⟨unknown, [condition]⟩ ≠ [] → joined.bindings.lookup unknown.name = none) →
    condition.check scope unknown = .ok () →
    condition.join schema stem path unknown joined = .ok branch →
    branch.Runs path joined (condition.direct = true)
        (Condition.startsWithPath [condition] = true) ∧
      ∀ new ∈ branch.last, new.Within scope ∧ joined.Binds unknown [condition] new
  | .path condition, path, scope, unknown, joined, branch, hw, hu, hfresh, _, h => by
    have hpaths : Match.paths ⟨unknown, [.path condition]⟩ ≠ [] := by simp [Match.paths]
    obtain ⟨hruns, hbound⟩ := PathCondition.join_runs (hfresh hpaths) h
    refine ⟨hruns.weaken id fun _ _ => trivial, fun new hm => ?_⟩
    obtain ⟨last, hb⟩ := hbound new hm
    obtain ⟨plan, bindings⟩ := new
    obtain rfl : bindings = _ := hb
    refine ⟨hw.cons hu, ?_⟩
    rw [Joined.Binds, if_neg hpaths]
    exact ⟨_, rfl⟩
  | .existential true block, path, scope, unknown, joined, branch, hw, _, _, hc, h => by
    obtain ⟨inner, hc⟩ := Condition.check_existential_eq_ok_iff.mp hc
    obtain ⟨found, hf, h⟩ := Except.bind_eq_ok_iff.mp h
    cases h
    obtain ⟨hruns, -⟩ := Match.joinAll_runs block hw hc hf
    refine ⟨hruns.positive.weaken (fun hd => (Bool.and_eq_true_iff.mp hd).2) (by rintro _ ⟨⟩),
      fun new hm => ?_⟩
    obtain ⟨last, -, rfl⟩ := Option.map_eq_some_iff.mp hm
    exact ⟨hw, rfl⟩
  | .existential false block, path, scope, unknown, joined, branch, hw, _, _, hc, h => by
    obtain ⟨inner, hc⟩ := Condition.check_existential_eq_ok_iff.mp hc
    obtain ⟨failing, hf, h⟩ := Except.bind_eq_ok_iff.mp h
    obtain ⟨⟨opened, path'⟩, hg, h⟩ := Except.bind_eq_ok_iff.mp h
    obtain ⟨absent, ha, h⟩ := Except.bind_eq_ok_iff.mp h
    obtain ⟨hfailing, -⟩ := Match.joinAll_runs block hw hc hf
    obtain ⟨habsent, -⟩ := @Match.joinAll_runs block path' scope inner ⟨opened, joined.bindings⟩
      absent hw hc ha
    have hdirect : Condition.direct (.existential false block) = true →
        Match.allDirect block = true := fun hd => (Bool.and_eq_true_iff.mp hd).2
    have hblock : Condition.direct (.existential false block) = true → block ≠ [] := fun hd =>
      by simpa using (Bool.and_eq_true_iff.mp hd).1
    rcases hl : absent.last with _ | last <;> simp only [hl] at h <;> cases h
    · refine ⟨(Branch.Runs.continued joined).weaken id (by rintro _ ⟨⟩), fun new hm => ?_⟩
      cases hm
      exact ⟨hw, rfl⟩
    · refine ⟨(Branch.Runs.negative hg hblock (hfailing.weaken hdirect fun _ => id)
        (habsent.weaken hdirect fun _ => id) hl).weaken id (by rintro _ ⟨⟩), fun new hm => ?_⟩
      cases hm
      exact ⟨hw, rfl⟩

theorem Condition.joinAll_runs : ∀ (conditions : List Condition) {path : List Nat} {scope : Scope}
    {unknown : Label} {joined : Joined} {branch : Branch}, joined.Within scope →
    scope.type? unknown.name = some unknown.type →
    (Match.paths ⟨unknown, conditions⟩).length ≤ 1 →
    (Match.paths ⟨unknown, conditions⟩ ≠ [] → joined.bindings.lookup unknown.name = none) →
    Condition.checkAll scope unknown conditions = .ok () →
    Condition.joinAll schema stem path unknown joined conditions = .ok branch →
    branch.Runs path joined (Condition.allDirect conditions = true)
        (Condition.startsWithPath conditions = true) ∧
      ∀ new ∈ branch.last, new.Within scope
  | [], path, scope, unknown, joined, branch, hw, _, _, _, _, h => by
    cases h
    refine ⟨(Branch.Runs.continued joined).weaken id (by rintro _ ⟨⟩), fun new hm => ?_⟩
    cases hm
    exact hw
  | condition :: rest, path, scope, unknown, joined, branch, hw, hu, hone, hfresh, hc, h => by
    obtain ⟨hc, hcrest⟩ := Except.bind_unit_eq_ok_iff.mp hc
    obtain ⟨middle, hm, h⟩ := Except.bind_eq_ok_iff.mp h
    obtain ⟨hfirst, hbinds⟩ := Condition.join_runs condition hw hu
      (fun hne => hfresh fun hnil => hne (Match.paths_cons_eq_nil_iff.mp hnil).1) hc hm
    have hlength : (Match.paths ⟨unknown, rest⟩).length ≤ 1 := by
      rw [Match.paths_cons, List.length_append] at hone
      omega
    have hothers : ∀ b ∈ middle.last, ∀ found,
        Condition.joinAll schema stem path unknown b rest = .ok found →
        found.Runs path b (Condition.allDirect rest = true)
            (Condition.startsWithPath rest = true) ∧ ∀ new ∈ found.last, new.Within scope :=
      fun b hb found hf => Condition.joinAll_runs rest (hbinds b hb).1 hu hlength
        (fun hne => (hbinds b hb).2.lookup_eq_none hone hne
          (hfresh fun hnil => hne (Match.paths_cons_eq_nil_iff.mp hnil).2)) hcrest hf
    have hstarts : Condition.startsWithPath (condition :: rest) =
        Condition.startsWithPath [condition] := by cases condition <;> rfl
    refine ⟨?_, Branch.forall_last_of_andThen h fun b hb found hf => (hothers b hb found hf).2⟩
    rw [hstarts]
    exact (hfirst.weaken (fun hd => (Bool.and_eq_true_iff.mp hd).1) fun _ => id).andThen
      (fun b hb found hf => (hothers b hb found hf).1.weaken
        (fun hd => (Bool.and_eq_true_iff.mp hd).2) fun _ => id) h

/-- **Matches that are joined run on.** -/
theorem Match.joinAll_runs : ∀ (block : List Match) {path : List Nat} {scope scope' : Scope}
    {joined : Joined} {branch : Branch}, joined.Within scope →
    Match.checkAll scope block = .ok scope' →
    Match.joinAll schema stem path joined block = .ok branch →
    branch.Runs path joined (Match.allDirect block = true) (block ≠ []) ∧
      ∀ new ∈ branch.last, new.Within scope'
  | [], path, scope, scope', joined, branch, hw, hc, h => by
    cases hc
    cases h
    refine ⟨(Branch.Runs.continued joined).weaken id fun _ => absurd rfl, fun new hm => ?_⟩
    cases hm
    exact hw
  | ⟨unknown, conditions⟩ :: rest, path, scope, scope', joined, branch, hw, hc, h => by
    obtain ⟨hnew, hone, hc, hcrest⟩ := Match.checkAll_cons_eq_ok_iff.mp hc
    obtain ⟨middle, hm, h⟩ := Except.bind_eq_ok_iff.mp h
    obtain ⟨hfirst, hwithin⟩ := Condition.joinAll_runs conditions (hw.bind hnew)
      Scope.type?_bind_self (Nat.le_of_eq hone) (fun _ => hw.lookup_eq_none hnew) hc hm
    have hothers : ∀ b ∈ middle.last, ∀ found, Match.joinAll schema stem path b rest = .ok found →
        found.Runs path b (Match.allDirect rest = true) (rest ≠ []) ∧
          ∀ new ∈ found.last, new.Within scope' :=
      fun b hb found hf => Match.joinAll_runs rest (hwithin b hb) hcrest hf
    refine ⟨?_, Branch.forall_last_of_andThen h fun b hb found hf => (hothers b hb found hf).2⟩
    have hdirect : Match.allDirect (⟨unknown, conditions⟩ :: rest) = true →
        (Condition.startsWithPath conditions = true ∧ Condition.allDirect conditions = true) ∧
          Match.allDirect rest = true := by
      simp only [Match.allDirect, Bool.and_eq_true, imp_self]
    exact (hfirst.weaken (fun hd => (hdirect hd).1.2) fun hd _ => (hdirect hd).1.1).andThen
      (fun b hb found hf => (hothers b hb found hf).1.weaken (fun hd => (hdirect hd).2)
        fun _ => id) h

end

/-! ### The plans of a specification -/

/-- A compilation of the unconditional branch arrives at a plan, in which every new group has edges
if it is `direct`. -/
def Joined.ArrivesAt (old : Joined) (direct : Prop) (plan : Plan) : Prop :=
  ∃ bindings added, old.Reaches [] ⟨plan, bindings⟩ added ∧
    (direct → Plan.Group.AllSolid added.groups)

/-- What is compiled behind a branch is compiled behind what comes before the branch. -/
theorem Branch.Runs.arrivesAt {old : Joined} {branch : Branch} {direct direct' leads : Prop}
    {next : Joined → Except PlanError (List Plan)} {plans : List Plan}
    (h : branch.Runs [] old direct leads)
    (hn : ∀ last ∈ branch.last, ∀ deeper, next last = .ok deeper →
      ∀ plan ∈ deeper, last.ArrivesAt direct' plan)
    (hp : (match branch.last with
      | none => return branch.completed
      | some last => do
        let deeper ← next last
        return branch.completed ++ last.plan :: deeper) = Except.ok plans) :
    ∀ plan ∈ plans, old.ArrivesAt (direct ∧ direct') plan := by
  have hreached : ∀ plan ∈ branch.completed ++ (branch.last.map Joined.plan).toList,
      old.ArrivesAt (direct ∧ direct') plan := by
    intro plan hm
    obtain ⟨bindings, added, hr, hf⟩ := h.reaches plan hm
    exact ⟨bindings, added, hr, fun hd => (hf hd.1).groups⟩
  intro plan hm
  rcases hl : branch.last with _ | last <;> simp only [hl] at hp hreached
  · cases hp
    exact hreached plan (List.mem_append_left _ hm)
  · obtain ⟨deeper, hd, hp⟩ := Except.bind_eq_ok_iff.mp hp
    cases hp
    rw [List.append_cons] at hm
    rcases List.mem_append.mp hm with hm | hm
    · exact hreached plan hm
    · obtain ⟨first, hfirst, hfilled⟩ := h.last last hl
      obtain ⟨bindings, second, hr, hsolid⟩ := hn last hl deeper hd plan hm
      exact ⟨bindings, _, .trans hfirst hr, fun hd =>
        Plan.Group.allSolid_append.mpr ⟨(hfilled hd.1).groups, hsolid hd.2⟩⟩

theorem Joined.ArrivesAt.weaken {old : Joined} {direct direct' : Prop} {plan : Plan}
    (h : old.ArrivesAt direct plan) (hd : direct' → direct) : old.ArrivesAt direct' plan := by
  obtain ⟨bindings, added, hr, hsolid⟩ := h
  exact ⟨bindings, added, hr, fun hdirect => hsolid (hd hdirect)⟩

mutual

theorem Projection.arrivesAt : ∀ (projection : Projection) {stem : String} {scope : Scope}
    {joined : Joined} {plans : List Plan}, joined.Within scope → projection.check scope = .ok () →
    projection.plans schema stem joined = .ok plans →
    ∀ plan ∈ plans, joined.ArrivesAt (projection.direct = true) plan
  | .nested name block projections, stem, scope, joined, plans, hw, hc, h => by
    obtain ⟨inner, hblock, hc⟩ := Except.bind_eq_ok_iff.mp hc
    rw [Projection.plans] at h
    obtain ⟨branch, hj, h⟩ := Except.bind_eq_ok_iff.mp h
    obtain ⟨hruns, hwithin⟩ := Match.joinAll_runs block hw hblock hj
    exact fun plan hm => (hruns.arrivesAt (fun last hl deeper hd =>
      Projection.all_arriveAt projections (hwithin last hl) hc hd) h plan hm).weaken
        Bool.and_eq_true_iff.mp
  | .field _ _ _, _, _, _, _, _, _, h => by
    cases h
    exact fun _ hm => absurd hm List.not_mem_nil
  | .hash _ _, _, _, _, _, _, _, h => by
    cases h
    exact fun _ hm => absurd hm List.not_mem_nil
  | .fact _ _, _, _, _, _, _, _, h => by
    cases h
    exact fun _ hm => absurd hm List.not_mem_nil

theorem Projection.all_arriveAt : ∀ (projections : List Projection) {stem : String}
    {scope : Scope} {joined : Joined} {plans : List Plan}, joined.Within scope →
    Projection.checkAll scope projections = .ok () →
    Projection.plansAll schema stem joined projections = .ok plans →
    ∀ plan ∈ plans, joined.ArrivesAt (Projection.allDirect projections = true) plan
  | [], _, _, _, _, _, _, h => by
    cases h
    exact fun _ hm => absurd hm List.not_mem_nil
  | projection :: rest, stem, scope, joined, plans, hw, hc, h => by
    obtain ⟨hc, hcrest⟩ := Except.bind_unit_eq_ok_iff.mp hc
    obtain ⟨first, hp, h⟩ := Except.bind_eq_ok_iff.mp h
    obtain ⟨others, ho, h⟩ := Except.bind_eq_ok_iff.mp h
    cases h
    intro plan hm
    rcases List.mem_append.mp hm with hm | hm
    · exact (Projection.arrivesAt projection hw hc hp plan hm).weaken fun hd =>
        (Bool.and_eq_true_iff.mp hd).1
    · exact (Projection.all_arriveAt rest hw hcrest ho plan hm).weaken fun hd =>
        (Bool.and_eq_true_iff.mp hd).2

end

/-- **Every plan of a well-formed specification is reached from its start**, and every group of it
has edges if the specification is direct. -/
theorem Specification.arrivesAt_of_mem_plans {spec : Specification} {start : List FactReference}
    {plans : List Plan} (hc : spec.check = .ok ()) (h : spec.plans schema start = .ok plans) :
    ∀ plan ∈ plans, (spec.initial schema start).ArrivesAt (spec.direct = true) plan := by
  obtain ⟨given, hgiven, hc⟩ := Except.bind_eq_ok_iff.mp hc
  obtain ⟨scope, hbody, hc⟩ := Except.bind_eq_ok_iff.mp hc
  obtain ⟨-, h⟩ := Except.bind_unit_eq_ok_iff.mp h
  obtain ⟨branch, hj, h⟩ := Except.bind_eq_ok_iff.mp h
  obtain ⟨hruns, hwithin⟩ := Match.joinAll_runs spec.body (within_initial hgiven) hbody hj
  exact fun plan hm => (hruns.arrivesAt (fun last hl deeper hd =>
    Projection.all_arriveAt spec.projections (hwithin last hl) hc hd) h plan hm).weaken
      Bool.and_eq_true_iff.mp

end FactGraph
