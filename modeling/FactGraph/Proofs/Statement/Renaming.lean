import FactGraph.Proofs.Plan.Renaming
import FactGraph.Proofs.Statement.Prepared
import FactGraph.Proofs.Walk.Renaming

/-! # Statements under other names

A statement refers to facts by their slots. The names of labels only stand in front of the columns
of its result, behind the prefixes of the projections; the text and the parameters are the same for
all names. Together with the checks and the walk, which know labels by their names only as long as
they look them up, this says that it does not matter how labels are called.

* `Plan.page_relabel`: the page of a plan.
* `Specification.pages_relabel`: the pages of a specification.
* `Specification.alike_relabel`: everything that is made of a specification. -/

namespace FactGraph

open Except (bind_eq_bimap)

/-! ### Joins and subqueries -/

theorem Plan.Edge.nameless_joins {edge : Plan.Edge} {joined : List Nat} :
    Nameless (edge.joins joined) := by
  intro rename
  unfold Plan.Edge.joins
  split <;> rfl

theorem nameless_joinEdges : ∀ {edges : List Plan.Edge} {joined : List Nat},
    Nameless (joinEdges joined edges)
  | [], _ => fun _ => rfl
  | _ :: _, _ => Plan.Edge.nameless_joins.bind fun _ => nameless_joinEdges.map _

mutual

theorem Plan.Group.nameless_subquery : ∀ {group : Plan.Group} {joined : List Nat},
    Nameless (group.subquery joined)
  | ⟨[], _⟩, _ => fun _ => rfl
  | ⟨edge :: edges, groups⟩, joined => by
    rw [Plan.Group.subquery]
    rcases joined.contains edge.predecessor <;> rcases joined.contains edge.successor
    · exact fun _ => rfl
    · exact nameless_joinEdges.bind fun _ => Plan.Group.nameless_subqueries.map _
    · exact nameless_joinEdges.bind fun _ => Plan.Group.nameless_subqueries.map _
    · exact fun _ => rfl

theorem Plan.Group.nameless_subqueries : ∀ {groups : List Plan.Group} {joined : List Nat},
    Nameless (Plan.Group.subqueries joined groups)
  | [], _ => fun _ => rfl
  | _ :: _, _ => Plan.Group.nameless_subquery.bind fun _ => Plan.Group.nameless_subqueries.map _

end

/-! ### Pages -/

/-- A page of a result before labels have names. -/
structure HeadedQuery (stems : List String) where
  sql : String
  parameters : List Parameter
  headings : List (Heading stems)

/-- The column of a heading when labels have other names: the prefix and the name of the label. -/
def Heading.column {stems : List String} (rename : String → String) (heading : Heading stems) :
    ResultColumn :=
  ⟨heading.stem ++ rename heading.name, heading.type, Statement.hashColumn heading.slot⟩

def HeadedQuery.named {stems : List String} (rename : String → String) (query : HeadedQuery stems) :
    SqlQuery :=
  ⟨query.sql, query.parameters, query.headings.map (Heading.column rename)⟩

namespace Plan

variable {stems : List String} {headings : List (Heading stems)} {rename : String → String}

theorem nameless_root (plan : Plan) : Nameless plan.root := by
  intro rename
  unfold root
  split
  · split_ifs <;> rfl
  · split <;> rfl

theorem statement_relabel (plan : Plan) (bookmark : FactBookmark) :
    (plan.relabel rename headings).statement bookmark =
      (plan.relabel id headings).statement bookmark := by
  have hslots : ∀ rename, (plan.relabel rename headings).outputs.map Output.slot =
      headings.map Heading.slot := fun rename => List.map_map
  have hplace : ∀ rename, (plan.relabel rename headings).inputs.map Input.place =
      plan.inputs.map Input.place := fun rename => List.map_map
  -- a statement takes only slots from outputs, and only slots and positions from inputs
  refine statement_congr rfl rfl ?_ ?_ rfl rfl
  · rw [hslots, hslots]
  · rw [hplace, hplace]

theorem nameless_statement (plan : Plan) (bookmark : FactBookmark) :
    Nameless (plan.statement bookmark) := by
  unfold statement
  rcases plan.outputs.isEmpty
  · exact (nameless_root plan).bind fun _ => nameless_joinEdges.bind fun _ =>
      Group.nameless_subqueries.map _
  · exact fun _ => rfl

/-- **The page of a plan is the same under all names**, up to the names in front of its columns. -/
theorem page_relabel (headed : HeadedPlan stems) (bookmark : FactBookmark) (limit : Nat) :
    Uniform (@HeadedQuery.named stems) fun f => (headed.named f).page bookmark limit := by
  have hstatement : Uniform (fun _ => id) fun f => (headed.named f).statement bookmark :=
    ⟨_, fun f => (statement_relabel headed.plan bookmark).trans (nameless_statement _ _ f)⟩
  refine hstatement.bind fun statement => ?_
  refine .ok ⟨statement.render, headed.plan.pageParameters bookmark limit, headed.headings⟩
    fun f => ?_
  have hcolumns : (headed.named f).columns = headed.headings.map (Heading.column f) := List.map_map
  rw [hcolumns]
  rfl

end Plan

namespace Specification

/-- **A specification has the same pages under all names**, up to the names in front of their
columns. -/
theorem pages_relabel (spec : Specification) (schema : Schema) (start : List FactReference)
    (bookmarks : List FactBookmark) (limit : Nat) :
    Uniform (fun rename => List.map (@HeadedQuery.named spec.stems rename)) fun f =>
      (spec.relabel f).pages schema start bookmarks limit := by
  have hselecting : ∀ (f : Renaming) (plans : List (HeadedPlan spec.stems)),
      ((plans.map (HeadedPlan.named f)).filter fun plan => !plan.outputs.isEmpty).zipIdx =
        (plans.filter fun headed => !headed.headings.isEmpty).zipIdx.map
          (Prod.map (HeadedPlan.named f) id) := by
    intro f plans
    have hempty : (fun plan : Plan => !plan.outputs.isEmpty) ∘ HeadedPlan.named f =
        fun headed : HeadedPlan spec.stems => !headed.headings.isEmpty :=
      funext fun headed => congrArg not List.isEmpty_map
    rw [List.filter_map, hempty, List.zipIdx_map]
  refine (plans_relabel spec schema start).bind fun plans => ?_
  simp only [hselecting]
  exact @Uniform.mapM _ _ _ _ (fun rename => Prod.map (@HeadedPlan.named spec.stems rename) id) _ _
    (fun entry => Plan.page_relabel entry.1 (bookmarks.getD entry.2 .start) limit) _

/-- **It does not matter how labels are called.** Under other names a specification is well formed
if it is under its own, and otherwise the same is wrong with it. It has the same walk, or none for
the same reason. And it has the same pages, or none for the same reason: there is one list of pages
for all names, with the prefix of a projection and a label in front of each column. -/
theorem alike_relabel (spec : Specification) :
    (∀ f : Renaming, (spec.relabel f).check =
      spec.check.bimap (SpecificationError.relabel f) id) ∧
    (∀ f : Renaming, (spec.relabel f).walk = spec.walk.bimap (WalkError.relabel f) id) ∧
    ∀ schema start bookmarks limit, ∃ pages : Except PlanError (List (HeadedQuery spec.stems)),
      spec.pages schema start bookmarks limit = pages.map (List.map (HeadedQuery.named id)) ∧
      ∀ f : Renaming, (spec.relabel f).pages schema start bookmarks limit =
        pages.bimap (PlanError.relabel f) (List.map (HeadedQuery.named f)) := by
  refine ⟨fun f => check_relabel spec, fun f => walk_relabel spec, ?_⟩
  intro schema start bookmarks limit
  obtain ⟨pages, hpages⟩ := pages_relabel spec schema start bookmarks limit
  refine ⟨pages, ?_, hpages⟩
  have hid : (spec.relabel id).pages schema start bookmarks limit =
      pages.bimap (PlanError.relabel id) (List.map (HeadedQuery.named id)) :=
    hpages (Function.Embedding.refl String)
  rw [relabel_id] at hid
  rcases pages with e | queries
  · rw [hid]
    cases e <;> rfl
  · exact hid

example : ((membersOfProjects.relabel (· ++ "2")).pages Schema.single [⟨"Root", "r"⟩] [] 10).map
    (List.map fun query => query.columns.map ResultColumn.name) =
      .ok [["p2", "d2"], ["p2"], ["p2", "members.E2"]] := by
  decide +kernel

end Specification

end FactGraph
