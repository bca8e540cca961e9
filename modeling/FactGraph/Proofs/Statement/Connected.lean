import FactGraph.Proofs.Plan.Layout
import FactGraph.Proofs.Statement.Scope

/-! # Plans that have statements

A statement selects from one slot, and reaches from there whatever its edges lead to. So an input
that some edge meets has to be the slot to select from, and a subquery has to have an edge to select
from. `Plan.Connected` says so, and nothing more is needed.

* `joinEdges_succeeds`, `Plan.Group.subquery_succeeds`: the edges and groups that can be joined,
  and the tables that they introduce.
* `Plan.Layout.statement_succeeds`: a plan that selects something has a statement exactly if it is
  connected. -/

namespace FactGraph

namespace Plan

/-! ### What is joined -/

/-- Of the inputs in `starts`, the slots contain no other one than the root. -/
def Rooted (starts : List Nat) (root : Nat) (slots : List Nat) : Prop :=
  ∀ s ∈ slots, s ∈ starts → s = root

/-- The slots that are joined are those that are seen, without the inputs other than the root. -/
def JoinsFrom (starts : List Nat) (root : Nat) (seen joined : List Nat) : Prop :=
  ∀ s, s ∈ joined ↔ s ∈ seen ∧ (s ∈ starts → s = root)

/-- The tables of some edges and their own slots. -/
def tablesOf (count : Nat) (indices : List Nat) : List Alias :=
  indices.flatMap fun i => [.edge i, .fact (count + i)]

variable {count root : Nat} {starts seen joined : List Nat} {edge : Edge}

theorem rooted_append {a b : List Nat} :
    Rooted starts root (a ++ b) ↔ Rooted starts root a ∧ Rooted starts root b :=
  List.forall_mem_append

theorem JoinsFrom.start (h : root ∈ starts) : JoinsFrom starts root starts [root] := by
  intro s
  rw [List.mem_singleton]
  constructor
  · rintro rfl
    exact ⟨h, fun _ => rfl⟩
  · exact fun ⟨hs, hr⟩ => hr hs

theorem JoinsFrom.joinedAfter (hj : JoinsFrom starts root seen joined)
    (hr : Rooted starts root edge.slots) :
    JoinsFrom starts root (seen ++ edge.slots) (edge.joinedAfter joined) := by
  intro s
  have hmem : s ∈ edge.joinedAfter joined ↔ s ∈ edge.slots ∨ s ∈ joined := by
    simp [Edge.joinedAfter, Edge.slots, or_assoc]
  rw [hmem, List.mem_append, hj s]
  have := hr s
  tauto

/-- Of an edge that opens its slot, exactly one end is joined before it if it is rooted, and none if
it is not. -/
theorem Edge.Opens.joined_cases (ho : edge.Opens count seen) (hs : starts ⊆ seen)
    (hj : JoinsFrom starts root seen joined) :
    Rooted starts root edge.slots ∧
        (edge.predecessor ∈ joined ∧ edge.successor ∉ joined ∧
            edge.successor = count + edge.index ∨
          edge.predecessor ∉ joined ∧ edge.successor ∈ joined ∧
            edge.predecessor = count + edge.index) ∨
      ¬ Rooted starts root edge.slots ∧ edge.predecessor ∉ joined ∧ edge.successor ∉ joined := by
  have hrooted : Rooted starts root edge.slots ↔
      (edge.predecessor ∈ starts → edge.predecessor = root) ∧
        (edge.successor ∈ starts → edge.successor = root) := by
    simp [Rooted, Edge.slots]
  have hfar : ∀ s ∉ seen, s ∉ joined ∧ s ∉ starts := fun s hn =>
    ⟨fun hm => hn ((hj s).mp hm).1, fun hm => hn (hs hm)⟩
  have hnear : ∀ s ∈ seen, s ∈ joined ↔ (s ∈ starts → s = root) := fun s hm => by
    rw [hj s, and_iff_right hm]
  rw [hrooted]
  cases ho with
  | up near own fresh =>
    obtain ⟨hp, hp'⟩ := hfar _ fresh
    by_cases hq : edge.successor ∈ joined
    · exact Or.inl ⟨⟨(absurd · hp'), (hnear _ near).mp hq⟩, Or.inr ⟨hp, hq, own⟩⟩
    · exact Or.inr ⟨fun hr => hq ((hnear _ near).mpr hr.2), hp, hq⟩
  | down near own fresh =>
    obtain ⟨hq, hq'⟩ := hfar _ fresh
    by_cases hp : edge.predecessor ∈ joined
    · exact Or.inl ⟨⟨(hnear _ near).mp hp, (absurd · hq')⟩, Or.inl ⟨hp, hq, own⟩⟩
    · exact Or.inr ⟨fun hr => hp ((hnear _ near).mpr hr.1), hp, hq⟩

theorem tablesOf_append {a b : List Nat} :
    tablesOf count (a ++ b) = tablesOf count a ++ tablesOf count b :=
  List.flatMap_append

/-! ### Joins of edges -/

/-- **An edge that opens its slot is joined exactly if it is rooted**, and introduces itself and its
slot. -/
theorem Edge.Opens.joins_succeeds (ho : edge.Opens count seen) (hs : starts ⊆ seen)
    (hj : JoinsFrom starts root seen joined) :
    (edge.joins joined).Succeeds (Rooted starts root edge.slots) fun joins =>
      joins.map Join.source = tablesOf count [edge.index] ∧
        JoinsFrom starts root (seen ++ edge.slots) (edge.joinedAfter joined) := by
  obtain ⟨hr, ⟨hp, hq, hown⟩ | ⟨hp, hq, hown⟩⟩ | ⟨hr, hp, hq⟩ := ho.joined_cases hs hj
  · refine .of_ok (a := [⟨.edge edge.index, [edge.meetsPredecessor, edge.hasRole]⟩,
      edge.joinSuccessor]) (by simp [Edge.joins, hp, hq]) hr ⟨?_, hj.joinedAfter hr⟩
    simp [tablesOf, Edge.joinSuccessor, hown]
  · refine .of_ok (a := [⟨.edge edge.index, [edge.meetsSuccessor, edge.hasRole]⟩,
      edge.joinPredecessor]) (by simp [Edge.joins, hp, hq]) hr ⟨?_, hj.joinedAfter hr⟩
    simp [tablesOf, Edge.joinPredecessor, hown]
  · exact .of_error (e := .disconnectedEdge edge.index) (by simp [Edge.joins, hp, hq]) hr

end Plan

open Plan

variable {count root : Nat} {starts : List Nat}

/-- **Edges that open their slots are joined exactly if they are rooted.** They introduce themselves
and their slots, and their ends are joined then. -/
theorem joinEdges_succeeds : ∀ {edges : List Edge} {seen joined : List Nat},
    AllOpen count seen edges → starts ⊆ seen → JoinsFrom starts root seen joined →
    (joinEdges joined edges).Succeeds (Rooted starts root (ends edges)) fun result =>
      result.1.map Join.source = tablesOf count (edges.map Edge.index) ∧
        JoinsFrom starts root (seen ++ ends edges) result.2
  | [], seen, joined, _, _, hj => by
    refine .of_ok rfl (fun _ hm => absurd hm List.not_mem_nil) ⟨rfl, ?_⟩
    rwa [ends, List.flatMap_nil, List.append_nil]
  | edge :: rest, seen, joined, ⟨ho, hrest⟩, hs, hj => by
    have hends : ends (edge :: rest) = edge.slots ++ ends rest := rfl
    have htables : tablesOf count ((edge :: rest).map Edge.index) =
        tablesOf count [edge.index] ++ tablesOf count (rest.map Edge.index) :=
      @tablesOf_append count [edge.index] _
    rw [hends, rooted_append, ← List.append_assoc, htables]
    refine (ho.joins_succeeds hs hj).bind ?_
    rintro first ⟨hfirst, hafter⟩
    have hs' := List.subset_append_of_subset_left edge.slots hs
    refine ((joinEdges_succeeds hrest hs' hafter).bind ?_).congr (and_iff_left trivial)
      fun _ h => h
    rintro ⟨others, last⟩ ⟨hothers, hlast⟩
    exact .of_ok rfl trivial ⟨by rw [List.map_append, hfirst, hothers], hlast⟩

/-! ### Subqueries of groups -/

namespace Plan.Group

/-- A group is entered from one end of its first edge, which leads to the other end. -/
theorem exists_subquery_cons {edge : Edge} {seen joined : List Nat} (ho : edge.Opens count seen)
    (hs : starts ⊆ seen) (hj : JoinsFrom starts root seen joined)
    (hr : Rooted starts root edge.slots) (edges : List Edge) (groups : List Group) :
    ∃ far tests, far.source = .fact (count + edge.index) ∧
      subquery joined ⟨edge :: edges, groups⟩ = (do
        let (joins, joined) ← joinEdges (edge.joinedAfter joined) edges
        let absent ← subqueries joined groups
        return ⟨.edge edge.index, far :: joins, tests, absent⟩) := by
  obtain ⟨-, ⟨hp, hq, hown⟩ | ⟨hp, hq, hown⟩⟩ | ⟨hn, -, -⟩ := ho.joined_cases hs hj
  · have hq : joined.contains edge.successor = false := by simpa using hq
    exact ⟨edge.joinSuccessor, [edge.meetsPredecessor, edge.hasRole], congrArg Alias.fact hown, by
      rw [subquery, List.contains_iff_mem.mpr hp, hq]; rfl⟩
  · have hp : joined.contains edge.predecessor = false := by simpa using hp
    exact ⟨edge.joinPredecessor, [edge.meetsSuccessor, edge.hasRole], congrArg Alias.fact hown, by
      rw [subquery, List.contains_iff_mem.mpr hq, hp]; rfl⟩
  · exact absurd hr hn

theorem subquery_cons_eq_error {edge : Edge} {seen joined : List Nat} (ho : edge.Opens count seen)
    (hs : starts ⊆ seen) (hj : JoinsFrom starts root seen joined)
    (hr : ¬ Rooted starts root edge.slots) (edges : List Edge) (groups : List Group) :
    subquery joined ⟨edge :: edges, groups⟩ = .error (.disconnectedEdge edge.index) := by
  obtain ⟨hp, hq⟩ := ((ho.joined_cases hs hj).resolve_left fun h => hr h.1).2
  have hp : joined.contains edge.predecessor = false := by simpa using hp
  have hq : joined.contains edge.successor = false := by simpa using hq
  rw [subquery, hp, hq]
  rfl

mutual

/-- **A linked group has a subquery exactly if it is solid and rooted**, which introduces its edges
and their slots. -/
theorem subquery_succeeds : ∀ {group : Group} {seen joined : List Nat},
    group.Linked count seen → starts ⊆ seen → JoinsFrom starts root seen joined →
    (group.subquery joined).Succeeds (group.Solid ∧ Rooted starts root group.slots)
      fun subquery => subquery.introduced = tablesOf count group.indices
  | ⟨[], groups⟩, _, _, _, _, _ => .of_error rfl fun h => h.1.1 rfl
  | ⟨edge :: edges, groups⟩, seen, joined, ⟨⟨ho, hopen⟩, hgroups⟩, hs, hj => by
    have hcond : (Group.Solid ⟨edge :: edges, groups⟩ ∧
          Rooted starts root (Group.slots ⟨edge :: edges, groups⟩)) ↔
        Rooted starts root edge.slots ∧ Rooted starts root (ends edges) ∧
          (AllSolid groups ∧ Rooted starts root (slotsAll groups)) ∧ True := by
      have hslots : Group.slots ⟨edge :: edges, groups⟩ =
          edge.slots ++ (ends edges ++ slotsAll groups) := by
        rw [slots_eq, ← List.append_assoc]
        rfl
      rw [hslots, rooted_append, rooted_append, Solid, and_iff_right (List.cons_ne_nil _ _), and_true,
        and_left_comm, and_left_comm (a := AllSolid groups)]
    rw [hcond]
    by_cases hr : Rooted starts root edge.slots
    · obtain ⟨far, tests, hfar, hsub⟩ := exists_subquery_cons ho hs hj hr edges groups
      rw [hsub]
      have hs' := List.subset_append_of_subset_left edge.slots hs
      refine ((joinEdges_succeeds hopen hs' (hj.joinedAfter hr)).bind ?_).congr
        (and_iff_right hr).symm fun _ h => h
      rintro ⟨joins, joined'⟩ ⟨hjoins, hj'⟩
      have hends : seen ++ ends (edge :: edges) = seen ++ edge.slots ++ ends edges := by
        rw [List.append_assoc]
        rfl
      rw [hends] at hgroups
      refine (subqueries_succeeds hgroups (List.subset_append_of_subset_left _ hs') hj').bind ?_
      intro absent habsent
      refine .of_ok rfl trivial ?_
      rw [Subquery.introduced, List.map_cons, hjoins, habsent, hfar, indices_eq, List.map_cons]
      simp [tablesOf]
    · exact .of_error (subquery_cons_eq_error ho hs hj hr edges groups) fun h => hr h.1

theorem subqueries_succeeds : ∀ {groups : List Group} {seen joined : List Nat},
    AllLinked count seen groups → starts ⊆ seen → JoinsFrom starts root seen joined →
    (subqueries joined groups).Succeeds (AllSolid groups ∧ Rooted starts root (slotsAll groups))
      fun absent => Subquery.introducedAll absent = tablesOf count (indicesAll groups)
  | [], _, _, _, _, _ => .of_ok rfl ⟨trivial, fun _ hm => absurd hm List.not_mem_nil⟩ rfl
  | group :: rest, seen, joined, ⟨hlinked, hrest⟩, hs, hj => by
    have hcond : ((group.Solid ∧ Rooted starts root group.slots) ∧
          (AllSolid rest ∧ Rooted starts root (slotsAll rest)) ∧ True) ↔
        AllSolid (group :: rest) ∧ Rooted starts root (slotsAll (group :: rest)) := by
      rw [AllSolid, slotsAll, rooted_append]
      tauto
    refine ((subquery_succeeds hlinked hs hj).bind fun first hfirst =>
      (subqueries_succeeds hrest hs hj).bind fun others hothers => .of_ok rfl trivial ?_).congr
        hcond fun _ h => h
    rw [Subquery.introducedAll, hfirst, hothers, indicesAll, tablesOf_append]

end

end Plan.Group

/-! ### Whole statements -/

namespace Plan

/-- **A plan is connected**: every group has edges, and of the inputs the edges only meet the one to
select from. -/
structure Connected (plan : Plan) (root : Nat) : Prop where
  root_eq : plan.root = .ok root
  solid : Group.AllSolid plan.groups
  meets : ∀ input ∈ plan.inputs, input.slot ∈ plan.trunk.slots → input.slot = root

/-- What the statement of a plan consists of, and which tables it introduces. -/
structure StatedBy (count : Nat) (plan : Plan) (root : Nat) (statement : Statement) : Prop where
  slots : statement.slots = plan.outputs.map Output.slot
  root_eq : statement.root = root
  tests : statement.tests = plan.inputs.flatMap Input.pins
  tables : statement.tables = .fact root :: tablesOf count (plan.edges.map Edge.index)
  introduced : statement.introduced = .fact root :: tablesOf count plan.trunk.indices
  joins : JoinsScoped [.fact root] statement.joins
  absent : Subquery.AllScoped statement.tables statement.absent

variable {plan : Plan} {inputs : List Input}

theorem rooted_iff : Rooted (plan.inputs.map Input.slot) root plan.trunk.slots ↔
    ∀ input ∈ plan.inputs, input.slot ∈ plan.trunk.slots → input.slot = root := by
  constructor
  · exact fun h input hi hs => h _ hs (List.mem_map_of_mem hi)
  · intro h s hs hm
    obtain ⟨input, hi, rfl⟩ := List.mem_map.mp hm
    exact h input hi hs

namespace Layout

theorem exists_pinned (h : plan.Layout inputs) {s : Nat} (hs : s ∈ inputs.map Input.slot)
    (hset : plan.Settles s) :
    ∃ input ∈ plan.inputs, input.slot = s ∧ input.typeParameter.isSome = true := by
  rw [← h.derives.map_slot] at hs
  obtain ⟨input, hi, rfl⟩ := List.mem_map.mp hs
  exact ⟨input, hi, rfl, hset input hi rfl⟩

theorem exists_pinned_root (h : plan.Layout inputs) (hr : plan.root = .ok root) :
    ∃ input ∈ plan.inputs, input.slot = root ∧ input.typeParameter.isSome = true := by
  have hlinked := Group.linked_iff.mp h.linked
  have hslots := h.derives.map_slot
  unfold Plan.root at hr
  split at hr
  · rename_i edge rest hedges
    have hends : ∀ s ∈ edge.slots, plan.Settles s := fun s hs => h.settled s <| by
      rw [Group.slots_eq]
      exact List.mem_append_left _ (by rw [trunk, hedges]; exact List.mem_append_left _ hs)
    have hopen : AllOpen inputs.length (inputs.map Input.slot) (edge :: rest) := hedges ▸ hlinked.1
    have hany : (plan.inputs.any fun input => input.slot == edge.predecessor) = true ↔
        edge.predecessor ∈ inputs.map Input.slot := by
      rw [← hslots]
      simp
    split_ifs at hr with hp <;> cases hr
    · exact h.exists_pinned (hany.mp hp) (hends _ edge.predecessor_mem_slots)
    · refine h.exists_pinned ?_ (hends _ edge.successor_mem_slots)
      cases hopen.1 with
      | up near _ _ => exact near
      | down near _ _ => exact absurd (hany.mpr near) hp
  · split at hr
    · rename_i input hfind
      cases hr
      exact ⟨input, List.mem_of_find?_eq_some hfind, rfl, by simpa using List.find?_some hfind⟩
    · cases hr

theorem exists_root (h : plan.Layout inputs) (ho : plan.outputs ≠ []) :
    ∃ root, plan.root = .ok root := by
  unfold Plan.root
  split
  · split_ifs
    · exact ⟨_, rfl⟩
    · exact ⟨_, rfl⟩
  · rename_i hedges
    obtain ⟨output, hm⟩ := List.exists_mem_of_ne_nil _ ho
    obtain ⟨hs, hset⟩ := h.selects output hm
    rw [hedges] at hs
    obtain ⟨input, hi, -, ht⟩ := h.exists_pinned (hs.resolve_right List.not_mem_nil) hset
    have hsome : (plan.inputs.find? fun input => input.typeParameter.isSome).isSome = true :=
      List.find?_isSome.mpr ⟨input, hi, ht⟩
    obtain ⟨found, hf⟩ := Option.isSome_iff_exists.mp hsome
    exact ⟨found.slot, by rw [hf]⟩

/-- **A plan that selects something has a statement exactly if it is connected.** -/
theorem statement_succeeds (h : plan.Layout inputs) (ho : plan.outputs ≠ [])
    (hr : plan.root = .ok root) (bookmark : FactBookmark) :
    (plan.statement bookmark).Succeeds (plan.Connected root)
      (plan.StatedBy inputs.length root) := by
  have heq : plan.statement bookmark = (do
      let (joins, joined) ← joinEdges [root] plan.edges
      let absent ← Group.subqueries joined plan.groups
      return {
        slots := plan.outputs.map Output.slot
        root := root
        joins := joins
        tests := plan.inputs.flatMap Input.pins
        absent := absent
        bookmark := if bookmark.isStart then none else some (plan.parameters.length + 1)
        limit := if bookmark.isStart then plan.parameters.length + 1
          else plan.parameters.length + 1 + 1 }) := by
    simp only [statement, List.isEmpty_iff, ho, if_false, hr]
    rfl
  obtain ⟨input, hi, hslot, -⟩ := h.exists_pinned_root hr
  have hstart : root ∈ inputs.map Input.slot := by
    rw [← h.derives.map_slot, ← hslot]
    exact List.mem_map_of_mem hi
  obtain ⟨hopen, hgroups⟩ := Group.linked_iff.mp h.linked
  have hcond : (Rooted (inputs.map Input.slot) root (ends plan.edges) ∧
        (Group.AllSolid plan.groups ∧
          Rooted (inputs.map Input.slot) root (Group.slotsAll plan.groups)) ∧ True) ↔
      plan.Connected root := by
    have hrooted := @rooted_iff root plan
    rw [h.derives.map_slot, Group.slots_eq, rooted_append] at hrooted
    rw [and_true, and_left_comm]
    exact ⟨fun hc => ⟨hr, hc.1, by rw [Group.slots_eq]; exact hrooted.mp hc.2⟩, fun hc =>
      ⟨hc.solid, hrooted.mpr (by rw [← Group.slots_eq]; exact hc.meets)⟩⟩
  rw [heq]
  have hedges := joinEdges_succeeds hopen (List.Subset.refl _) (.start hstart)
  refine (hedges.and_eq.bind ?_).congr hcond fun _ hq => hq
  rintro ⟨joins, joined⟩ ⟨hjoins, hsources, hj⟩
  refine (Group.subqueries_succeeds hgroups (List.subset_append_left _ _) hj).and_eq.bind ?_
  rintro absent ⟨habsent, hintroduced⟩
  have hscope : ∀ s ∈ [root], Alias.fact s ∈ [Alias.fact root] := by simp
  obtain ⟨hscoped, htables⟩ := joinEdges_scoped hscope hjoins
  refine .of_ok rfl trivial
    ⟨rfl, rfl, rfl, ?_, ?_, hscoped, Group.subqueries_scoped htables habsent⟩
  · exact congrArg (Alias.fact root :: ·) hsources
  · rw [Statement.introduced, Statement.tables, hsources, hintroduced, Group.indices_eq,
      tablesOf_append]
    rfl

end Layout

end Plan

end FactGraph
