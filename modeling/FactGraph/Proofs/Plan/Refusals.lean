import FactGraph.Proofs.Plan.Branches

/-! # Paths that lead to no branch

An edge or a group is refused exactly where the path leads to no branch of the plan. Then the path
strays: it leads to some branch, and goes on with an index that names no group of that branch. The
operations report what is left of the path there, and not the path that they were given.

* `Plan.Group.leads_or_strays`: every path leads to a branch or strays.
* `Plan.reportsPath_iff`: a refusal reports the whole path exactly if its first index names no
  group. -/

namespace FactGraph.Plan

/-! ### Straying from a group -/

namespace Group

variable {path rest : List Nat} {index : Nat} {group inner : Group}

/-- A path leads to a branch, from which its rest goes on to a group that is not there. -/
def Strays (path : List Nat) (group : Group) (rest : List Nat) : Prop :=
  ∃ front index behind branch, path = front ++ rest ∧ rest = index :: behind ∧
    Leads front group branch ∧ branch.groups.length ≤ index

theorem not_strays_nil : ¬ Strays [] group rest := by
  rintro ⟨front, index, behind, branch, hpath, rfl, -⟩
  simp at hpath

theorem strays_cons_iff : Strays (index :: path) group rest ↔
    group.groups[index]? = none ∧ rest = index :: path ∨
      ∃ inner ∈ group.groups[index]?, Strays path inner rest := by
  constructor
  · rintro ⟨_ | ⟨first, front⟩, index', behind, branch, hpath, hrest, hl, hlt⟩
    · cases hl
      rw [hrest] at hpath
      cases hpath
      exact Or.inl ⟨List.getElem?_eq_none hlt, hrest⟩
    · obtain ⟨inner, hi, hl⟩ := hl
      obtain ⟨rfl, htail⟩ := List.cons.inj hpath
      exact Or.inr ⟨inner, hi, front, index', behind, branch, htail, hrest, hl, hlt⟩
  · rintro (⟨hi, rfl⟩ | ⟨inner, hi, front, index', behind, branch, hpath, hrest, hl, hlt⟩)
    · exact ⟨[], index, path, group, rfl, rfl, rfl, List.getElem?_eq_none_iff.mp hi⟩
    · exact ⟨index :: front, index', behind, branch, congrArg _ hpath, hrest, ⟨inner, hi, hl⟩, hlt⟩

/-- **Every path leads to a branch or strays.** -/
theorem leads_or_strays : ∀ (path : List Nat) (group : Group),
    (∃ branch, Leads path group branch) ∨ ∃ rest, Strays path group rest
  | [], group => Or.inl ⟨group, rfl⟩
  | index :: path, group => by
    rcases hi : group.groups[index]? with _ | inner
    · exact Or.inr ⟨_, strays_cons_iff.mpr (Or.inl ⟨hi, rfl⟩)⟩
    · rcases leads_or_strays path inner with ⟨branch, hl⟩ | ⟨rest, hs⟩
      · exact Or.inl ⟨branch, inner, hi, hl⟩
      · exact Or.inr ⟨rest, strays_cons_iff.mpr (Or.inr ⟨inner, hi, hs⟩)⟩

theorem at?_of_strays : ∀ {path : List Nat} {edges : List Edge} {groups : List Group},
    Strays path ⟨edges, groups⟩ rest → at? groups path = .error (.unknownBranch rest)
  | [], _, _, h => absurd h not_strays_nil
  | index :: path, edges, groups, h => by
    rw [at?]
    rcases strays_cons_iff.mp h with ⟨hi, rfl⟩ | ⟨⟨innerEdges, innerGroups⟩, hi, h⟩
    · rw [show groups[index]? = none from hi]
    · rw [show groups[index]? = some _ from hi]
      have hne : path ≠ [] := fun he => not_strays_nil (he ▸ h)
      simp only [List.isEmpty_iff, hne, if_false]
      exact at?_of_strays h

theorem modify_of_strays {change : Group → Group} : ∀ {path : List Nat} {edges : List Edge}
    {groups : List Group}, Strays path ⟨edges, groups⟩ rest →
      modify change groups path = .error (.unknownBranch rest)
  | [], _, _, h => absurd h not_strays_nil
  | index :: path, edges, groups, h => by
    rw [modify]
    rcases strays_cons_iff.mp h with ⟨hi, rfl⟩ | ⟨⟨innerEdges, innerGroups⟩, hi, h⟩
    · rw [show groups[index]? = none from hi]
    · rw [show groups[index]? = some _ from hi]
      have hne : path ≠ [] := fun he => not_strays_nil (he ▸ h)
      simp only [List.isEmpty_iff, hne, if_false, modify_of_strays h]
      rfl

end Group

/-! ### Refused operations -/

variable {plan : Plan} {path rest : List Nat}

/-- A path strays from the branches of a plan, with the rest of it. -/
def Strays (plan : Plan) (path rest : List Nat) : Prop := Group.Strays path plan.trunk rest

theorem Strays.ne_nil (h : plan.Strays path rest) : path ≠ [] :=
  fun he => Group.not_strays_nil (he ▸ h)

theorem addEdge_of_strays (h : plan.Strays path rest) (predecessor successor role : Nat) :
    plan.addEdge predecessor successor role path = .error (.unknownBranch rest) := by
  simp only [addEdge, List.isEmpty_iff, h.ne_nil, if_false, Group.modify_of_strays h]
  rfl

theorem addGroup_of_strays (h : plan.Strays path rest) :
    plan.addGroup path = .error (.unknownBranch rest) := by
  simp only [addGroup, List.isEmpty_iff, h.ne_nil, if_false, Group.at?_of_strays h]
  rfl

theorem not_hasBranch_of_strays (h : plan.Strays path rest) : ¬ plan.HasBranch path := by
  intro hb
  obtain ⟨plan', hok, -⟩ := exists_addEdge hb 0 0 0
  cases (addEdge_of_strays h 0 0 0).symm.trans hok

/-- A path strays with all of itself if and only if its first index names no group. -/
theorem strays_self_iff :
    plan.Strays path path ↔ ∃ index ∈ path.head?, plan.groups.length ≤ index := by
  constructor
  · rintro ⟨front, index, behind, branch, hfront, rfl, hl, hlt⟩
    obtain rfl := List.self_eq_append_left.mp hfront
    cases hl
    exact ⟨index, rfl, hlt⟩
  · rintro ⟨index, hhead, hlt⟩
    obtain ⟨behind, rfl⟩ := List.head?_eq_some_iff.mp hhead
    exact ⟨[], index, behind, plan.trunk, rfl, rfl, rfl, hlt⟩

section Reports

variable {α : Type} {result : Except PlanError α}

/-- An operation at a path succeeds on the branches of the plan, and otherwise reports the path as
it was given. -/
def ReportsPath (plan : Plan) (path : List Nat) (result : Except PlanError α) : Prop :=
  (plan.HasBranch path → ∃ a, result = .ok a) ∧
    (¬ plan.HasBranch path → result = .error (.unknownBranch path))

/-- An operation at a path succeeds on the branches of the plan, and otherwise reports the rest of
the path, from the index on that names no group. -/
def ReportsRest (plan : Plan) (path : List Nat) (result : Except PlanError α) : Prop :=
  (plan.HasBranch path → ∃ a, result = .ok a) ∧
    ∀ rest, plan.Strays path rest → result = .error (.unknownBranch rest)

/-- Both reports are the same if the path leads to a branch, or strays with all of itself. -/
theorem ReportsRest.reportsPath_iff_strays (h : plan.ReportsRest path result) :
    plan.ReportsPath path result ↔ plan.HasBranch path ∨ plan.Strays path path := by
  constructor
  · intro hp
    rcases Group.leads_or_strays path plan.trunk with hb | ⟨rest, hs⟩
    · exact Or.inl hb
    · -- the rest is what is reported, so it is the path
      have herror := hp.2 (not_hasBranch_of_strays hs)
      rw [h.2 rest hs] at herror
      cases herror
      exact Or.inr hs
  · rintro (hb | hs)
    · exact ⟨h.1, fun hn => absurd hb hn⟩
    · exact ⟨h.1, fun _ => h.2 path hs⟩

end Reports

theorem reportsRest_addEdge (plan : Plan) (path : List Nat) (predecessor successor role : Nat) :
    plan.ReportsRest path (plan.addEdge predecessor successor role path) := by
  refine ⟨fun hb => ?_, fun rest hs => addEdge_of_strays hs predecessor successor role⟩
  obtain ⟨plan', hok, -⟩ := exists_addEdge hb predecessor successor role
  exact ⟨plan', hok⟩

theorem reportsRest_addGroup (plan : Plan) (path : List Nat) :
    plan.ReportsRest path (plan.addGroup path) := by
  refine ⟨fun hb => ?_, fun rest hs => addGroup_of_strays hs⟩
  obtain ⟨plan', path', hok, -⟩ := exists_addGroup hb
  exact ⟨_, hok⟩

/-- **A refused path is reported from the index on that names no group.** Every path leads to a
branch, where edges and groups are taken, or strays, and then both are refused with what is left of
the path. That is the path as it was given exactly if its first index is the one that names no
group. -/
theorem reportsPath_iff (plan : Plan) (path : List Nat) (predecessor successor role : Nat) :
    (plan.HasBranch path ∨ ∃ rest, plan.Strays path rest) ∧
      plan.ReportsRest path (plan.addEdge predecessor successor role path) ∧
      plan.ReportsRest path (plan.addGroup path) ∧
      (plan.ReportsPath path (plan.addEdge predecessor successor role path) ∧
          plan.ReportsPath path (plan.addGroup path) ↔
        plan.HasBranch path ∨ ∃ index ∈ path.head?, plan.groups.length ≤ index) := by
  have hedge := reportsRest_addEdge plan path predecessor successor role
  have hgroup := reportsRest_addGroup plan path
  refine ⟨Group.leads_or_strays path plan.trunk, hedge, hgroup, ?_⟩
  rw [hedge.reportsPath_iff_strays, hgroup.reportsPath_iff_strays, and_self, strays_self_iff]

/-- A plan with one group and nothing inside of it. -/
def oneGroup : Plan := { start [] [] with groups := [Group.empty] }

/-- **Not every refusal reports the path as it was given.** -/
theorem not_forall_reportsPath :
    ¬ ∀ (plan : Plan) (path : List Nat) (predecessor successor role : Nat),
      plan.ReportsPath path (plan.addEdge predecessor successor role path) ∧
        plan.ReportsPath path (plan.addGroup path) := by
  intro h
  have hs : oneGroup.Strays [0, 5] [5] :=
    ⟨[0], 5, [], Group.empty, rfl, rfl, ⟨Group.empty, rfl, rfl⟩, by decide⟩
  have hpath := (h oneGroup [0, 5] 1 2 1).1.2 (not_hasBranch_of_strays hs)
  rw [addEdge_of_strays hs] at hpath
  cases hpath

end FactGraph.Plan
