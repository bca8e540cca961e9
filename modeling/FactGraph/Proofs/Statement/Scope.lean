import FactGraph.Proofs.Except
import FactGraph.Statement.OfPlan

/-! # Tables in scope

A statement may refer to a table from where it is introduced: by the `FROM` of the statement or of a
subquery, or by a join, whose own tests see it already. A subquery sees all tables of the statements
around it; its own tables are seen by nothing outside of it.

* `joinEdges_scoped`, `Plan.Group.subquery_scoped`: the joins and subqueries of any plan only refer
  to tables in scope. -/

namespace FactGraph

/-! ### Scopes -/

/-- The tables that a test refers to. -/
def Test.aliases : Test → List Alias
  | .same a b => [a.source, b.source]
  | .is cell _ => [cell.source]

/-- Tests refer to no tables but these. -/
def TestsScoped (tables : List Alias) (tests : List Test) : Prop :=
  ∀ test ∈ tests, ∀ a ∈ test.aliases, a ∈ tables

/-- The tests of every join refer to tables that are introduced before it, or to its own. -/
def JoinsScoped : (tables : List Alias) → List Join → Prop
  | _, [] => True
  | tables, join :: rest =>
    TestsScoped (tables ++ [join.source]) join.tests ∧ JoinsScoped (tables ++ [join.source]) rest

namespace Subquery

mutual

/-- A subquery, and every subquery inside of it, refers to the tables around it and its own. -/
def Scoped (outer : List Alias) : Subquery → Prop
  | ⟨source, joins, tests, absent⟩ =>
    JoinsScoped (outer ++ [source]) joins ∧
      TestsScoped (outer ++ [source] ++ joins.map Join.source) tests ∧
      AllScoped (outer ++ [source] ++ joins.map Join.source) absent

def AllScoped (outer : List Alias) : List Subquery → Prop
  | [] => True
  | subquery :: rest => subquery.Scoped outer ∧ AllScoped outer rest

end

mutual

/-- The tables that a subquery and the subqueries inside of it introduce. -/
def introduced : Subquery → List Alias
  | ⟨source, joins, _, absent⟩ => source :: joins.map Join.source ++ introducedAll absent

def introducedAll : List Subquery → List Alias
  | [] => []
  | subquery :: rest => subquery.introduced ++ introducedAll rest

end

end Subquery

namespace Statement

/-- The tables that a statement introduces outside of its subqueries. -/
def tables (statement : Statement) : List Alias :=
  .fact statement.root :: statement.joins.map Join.source

/-- All tables that a statement introduces. -/
def introduced (statement : Statement) : List Alias :=
  statement.tables ++ Subquery.introducedAll statement.absent

/-- The tables that a statement selects from, orders by and tests outside of its joins and
subqueries. -/
def mentions (statement : Statement) : List Alias :=
  statement.slots.map Alias.fact ++ statement.tests.flatMap Test.aliases

/-- **Every reference to a table is in scope.** -/
structure Scoped (statement : Statement) : Prop where
  mentions : ∀ a ∈ statement.mentions, a ∈ statement.tables
  joins : JoinsScoped [.fact statement.root] statement.joins
  absent : Subquery.AllScoped statement.tables statement.absent

end Statement

/-! ### Joins of edges -/

theorem joinsScoped_append : ∀ {a b : List Join} {tables : List Alias},
    JoinsScoped tables (a ++ b) ↔
      JoinsScoped tables a ∧ JoinsScoped (tables ++ a.map Join.source) b
  | [], b, tables => by simp [JoinsScoped]
  | join :: rest, b, tables => by
    rw [List.cons_append, JoinsScoped, JoinsScoped, joinsScoped_append, and_assoc, List.map_cons,
      List.append_assoc]
    rfl

variable {joined joined' : List Nat} {tables : List Alias}

namespace Plan.Edge

variable {edge : Plan.Edge}

theorem meetsPredecessor_scoped (he : .edge edge.index ∈ tables)
    (hp : .fact edge.predecessor ∈ tables) :
    TestsScoped tables [edge.meetsPredecessor, edge.hasRole] := by
  simp [TestsScoped, meetsPredecessor, hasRole, Test.aliases, he, hp]

theorem meetsSuccessor_scoped (he : .edge edge.index ∈ tables)
    (hs : .fact edge.successor ∈ tables) :
    TestsScoped tables [edge.meetsSuccessor, edge.hasRole] := by
  simp [TestsScoped, meetsSuccessor, hasRole, Test.aliases, he, hs]

theorem joinPredecessor_scoped (he : .edge edge.index ∈ tables) :
    TestsScoped (tables ++ [.fact edge.predecessor]) edge.joinPredecessor.tests := by
  simp [TestsScoped, joinPredecessor, Test.aliases, he]

theorem joinSuccessor_scoped (he : .edge edge.index ∈ tables) :
    TestsScoped (tables ++ [.fact edge.successor]) edge.joinSuccessor.tests := by
  simp [TestsScoped, joinSuccessor, Test.aliases, he]

theorem forall_mem_joinedAfter {P : Nat → Prop} : (∀ s ∈ edge.joinedAfter joined, P s) ↔
    P edge.predecessor ∧ P edge.successor ∧ ∀ s ∈ joined, P s := by
  simp [joinedAfter]

/-- The joins of an edge refer to its ends and to the edge, and introduce what is joined by it. -/
theorem joins_scoped {joins : List Join} (hj : ∀ s ∈ joined, .fact s ∈ tables)
    (h : edge.joins joined = .ok joins) :
    JoinsScoped tables joins ∧
      ∀ s ∈ edge.joinedAfter joined, .fact s ∈ tables ++ joins.map Join.source := by
  have hwider : ∀ more, ∀ s ∈ joined, Alias.fact s ∈ tables ++ more := fun _ s hs =>
    List.mem_append_left _ (hj s hs)
  have hedge : Alias.edge edge.index ∈ tables ++ [.edge edge.index] := by simp
  rw [forall_mem_joinedAfter]
  unfold Plan.Edge.joins at h
  split at h
  · rename_i hp hs
    cases h
    have hp := hwider [.edge edge.index] _ (List.contains_iff_mem.mp hp)
    have hs := hwider [.edge edge.index] _ (List.contains_iff_mem.mp hs)
    refine ⟨⟨fun test ht => ?_, trivial⟩, hp, hs, hwider _⟩
    rcases List.mem_cons.mp ht with rfl | ht
    · exact meetsPredecessor_scoped hedge hp _ List.mem_cons_self
    · exact meetsSuccessor_scoped hedge hs _ ht
  · rename_i hp _
    cases h
    have hp := List.contains_iff_mem.mp hp
    refine ⟨⟨meetsPredecessor_scoped hedge (hwider _ _ hp), joinSuccessor_scoped hedge, trivial⟩,
      hwider _ _ hp, ?_, hwider _⟩
    simp [joinSuccessor]
  · rename_i _ hs
    cases h
    have hs := List.contains_iff_mem.mp hs
    refine ⟨⟨meetsSuccessor_scoped hedge (hwider _ _ hs), joinPredecessor_scoped hedge, trivial⟩,
      ?_, hwider _ _ hs, hwider _⟩
    simp [joinPredecessor]
  · cases h

end Plan.Edge

/-- **The joins of edges only refer to tables in scope**, and introduce what is joined. -/
theorem joinEdges_scoped : ∀ {edges : List Plan.Edge} {joined joined' : List Nat}
    {tables : List Alias} {joins : List Join}, (∀ s ∈ joined, .fact s ∈ tables) →
    joinEdges joined edges = .ok (joins, joined') →
    JoinsScoped tables joins ∧ ∀ s ∈ joined', .fact s ∈ tables ++ joins.map Join.source
  | [], _, _, _, _, hj, h => by
    cases h
    exact ⟨trivial, by simpa using hj⟩
  | edge :: rest, joined, joined', tables, joins, hj, h => by
    obtain ⟨first, he, h⟩ := Except.bind_eq_ok_iff.mp h
    obtain ⟨⟨others, last⟩, hr, h⟩ := Except.bind_eq_ok_iff.mp h
    cases h
    obtain ⟨hfirst, hafter⟩ := edge.joins_scoped hj he
    obtain ⟨hothers, hlast⟩ := joinEdges_scoped hafter hr
    refine ⟨joinsScoped_append.mpr ⟨hfirst, hothers⟩, fun s hs => ?_⟩
    rw [List.map_append, ← List.append_assoc]
    exact hlast s hs

/-! ### Subqueries of groups -/

/-- The first edge of a group is joined to a slot outside at its one end; its other end is joined
inside. -/
theorem Plan.Group.subquery_cons_eq_ok_iff {edge : Plan.Edge} {edges : List Plan.Edge}
    {groups : List Plan.Group} {subquery : Subquery} :
    Plan.Group.subquery joined ⟨edge :: edges, groups⟩ = .ok subquery ↔
      ∃ joins joined', joinEdges (edge.joinedAfter joined) edges = .ok (joins, joined') ∧
        ∃ absent, Plan.Group.subqueries joined' groups = .ok absent ∧
          (edge.predecessor ∈ joined ∧ edge.successor ∉ joined ∧
              subquery = ⟨.edge edge.index, edge.joinSuccessor :: joins,
                [edge.meetsPredecessor, edge.hasRole], absent⟩ ∨
            edge.predecessor ∉ joined ∧ edge.successor ∈ joined ∧
              subquery = ⟨.edge edge.index, edge.joinPredecessor :: joins,
                [edge.meetsSuccessor, edge.hasRole], absent⟩) := by
  rw [Plan.Group.subquery]
  by_cases hp : edge.predecessor ∈ joined <;> by_cases hs : edge.successor ∈ joined <;>
    simp [hp, hs, -bind_pure_comp, @eq_comm _ subquery]

mutual

/-- **The subquery of a group only refers to tables in scope.** -/
theorem Plan.Group.subquery_scoped : ∀ {group : Plan.Group} {joined : List Nat}
    {tables : List Alias} {subquery : Subquery}, (∀ s ∈ joined, .fact s ∈ tables) →
    group.subquery joined = .ok subquery → subquery.Scoped tables
  | ⟨[], _⟩, _, _, _, _, h => by cases h
  | ⟨edge :: edges, groups⟩, joined, tables, subquery, hj, h => by
    obtain ⟨joins, joined', hjoins, absent, hgroups, hcases⟩ := subquery_cons_eq_ok_iff.mp h
    -- both ends are joined behind the edge and its far end
    have hafter : ∀ far : Join, (∀ s ∈ edge.joinedAfter joined,
          .fact s ∈ tables ++ [.edge edge.index] ++ [far.source]) →
        TestsScoped (tables ++ [.edge edge.index] ++ [far.source]) far.tests →
        ∀ tests, TestsScoped (tables ++ [.edge edge.index]) tests →
          Subquery.Scoped tables ⟨.edge edge.index, far :: joins, tests, absent⟩ := by
      intro far hends hfar tests htests
      obtain ⟨hscoped, hlast⟩ := joinEdges_scoped hends hjoins
      rw [List.append_assoc _ [far.source], List.singleton_append, ← List.map_cons] at hlast
      exact ⟨⟨hfar, hscoped⟩, fun test ht a ha => List.mem_append_left _ (htests test ht a ha),
        subqueries_scoped hlast hgroups⟩
    have hedge : Alias.edge edge.index ∈ tables ++ [.edge edge.index] := by simp
    have hwider : ∀ more, ∀ s ∈ joined, Alias.fact s ∈ tables ++ [.edge edge.index] ++ more :=
      fun _ s hs => List.mem_append_left _ (List.mem_append_left _ (hj s hs))
    obtain ⟨hp, -, rfl⟩ | ⟨-, hs, rfl⟩ := hcases
    · refine hafter _ (Edge.forall_mem_joinedAfter.mpr ⟨hwider _ _ hp, ?_, hwider _⟩)
        (Edge.joinSuccessor_scoped hedge) _
        (Edge.meetsPredecessor_scoped hedge (List.mem_append_left _ (hj _ hp)))
      simp [Edge.joinSuccessor]
    · refine hafter _ (Edge.forall_mem_joinedAfter.mpr ⟨?_, hwider _ _ hs, hwider _⟩)
        (Edge.joinPredecessor_scoped hedge) _
        (Edge.meetsSuccessor_scoped hedge (List.mem_append_left _ (hj _ hs)))
      simp [Edge.joinPredecessor]

theorem Plan.Group.subqueries_scoped : ∀ {groups : List Plan.Group} {joined : List Nat}
    {tables : List Alias} {absent : List Subquery}, (∀ s ∈ joined, .fact s ∈ tables) →
    Plan.Group.subqueries joined groups = .ok absent → Subquery.AllScoped tables absent
  | [], _, _, _, _, h => by
    cases h
    trivial
  | group :: rest, joined, tables, absent, hj, h => by
    obtain ⟨first, hf, h⟩ := Except.bind_eq_ok_iff.mp h
    obtain ⟨others, ho, h⟩ := Except.bind_eq_ok_iff.mp h
    cases h
    exact ⟨subquery_scoped hj hf, subqueries_scoped hj ho⟩

end

end FactGraph
