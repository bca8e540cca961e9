import FactGraph.Plan.Compile
import FactGraph.Statement.Basic

/-! # Statements of join plans

A statement selects from the slot at the input end of the first edge and joins one edge after the
other, with the slot at its other end if that has not been joined yet. Every group becomes a
subquery that starts from its first edge, exactly one end of which must be joined outside. Inputs
with parameters are pinned by type and hash. -/

namespace FactGraph

/-! ### Joins -/

namespace Plan.Edge

/-- The test that the lower end of an edge is the fact in a slot. -/
def meetsPredecessor (edge : Edge) : Test :=
  .same ⟨.edge edge.index, .predecessorFactId⟩ ⟨.fact edge.predecessor, .factId⟩

/-- The test that the upper end of an edge is the fact in a slot. -/
def meetsSuccessor (edge : Edge) : Test :=
  .same ⟨.edge edge.index, .successorFactId⟩ ⟨.fact edge.successor, .factId⟩

/-- The test that an edge is of its role. -/
def hasRole (edge : Edge) : Test := .is ⟨.edge edge.index, .roleId⟩ edge.roleParameter

/-- The join of the slot at the predecessor's end of a joined edge. -/
def joinPredecessor (edge : Edge) : Join :=
  ⟨.fact edge.predecessor,
    [.same ⟨.fact edge.predecessor, .factId⟩ ⟨.edge edge.index, .predecessorFactId⟩]⟩

/-- The join of the slot at the successor's end of a joined edge. -/
def joinSuccessor (edge : Edge) : Join :=
  ⟨.fact edge.successor,
    [.same ⟨.fact edge.successor, .factId⟩ ⟨.edge edge.index, .successorFactId⟩]⟩

/-- The joins for an edge when the slots `joined` have been joined. -/
def joins (edge : Edge) (joined : List Nat) : Except PlanError (List Join) :=
  match joined.contains edge.predecessor, joined.contains edge.successor with
  | true, true =>
    .ok [⟨.edge edge.index, [edge.meetsPredecessor, edge.meetsSuccessor, edge.hasRole]⟩]
  | true, false =>
    .ok [⟨.edge edge.index, [edge.meetsPredecessor, edge.hasRole]⟩, edge.joinSuccessor]
  | false, true =>
    .ok [⟨.edge edge.index, [edge.meetsSuccessor, edge.hasRole]⟩, edge.joinPredecessor]
  | false, false => .error (.disconnectedEdge edge.index)

/-- The joined slots after an edge has been joined. -/
def joinedAfter (edge : Edge) (joined : List Nat) : List Nat :=
  edge.predecessor :: edge.successor :: joined

end Plan.Edge

/-- The joins for edges one after the other, and the slots that are joined then. -/
def joinEdges (joined : List Nat) : List Plan.Edge → Except PlanError (List Join × List Nat)
  | [] => .ok ([], joined)
  | edge :: rest => do
    let first ← edge.joins joined
    let (others, joined) ← joinEdges (edge.joinedAfter joined) rest
    return (first ++ others, joined)

mutual

/-- The subquery for a group when the slots `joined` have been joined around it. -/
def Plan.Group.subquery (joined : List Nat) : Plan.Group → Except PlanError Subquery
  | ⟨[], _⟩ => .error .emptyGroup
  | ⟨edge :: edges, groups⟩ => do
    let (far, tests) ←
      match joined.contains edge.predecessor, joined.contains edge.successor with
      | true, false => .ok (edge.joinSuccessor, [edge.meetsPredecessor, edge.hasRole])
      | false, true => .ok (edge.joinPredecessor, [edge.meetsSuccessor, edge.hasRole])
      | _, _ => .error (.disconnectedEdge edge.index)
    let (joins, joined) ← joinEdges (edge.joinedAfter joined) edges
    let absent ← Plan.Group.subqueries joined groups
    return ⟨.edge edge.index, far :: joins, tests, absent⟩

/-- The subqueries for groups that stand beside each other. -/
def Plan.Group.subqueries (joined : List Nat) : List Plan.Group → Except PlanError (List Subquery)
  | [] => .ok []
  | group :: rest => do
    let subquery ← group.subquery joined
    return subquery :: (← Plan.Group.subqueries joined rest)

end

/-! ### Whole statements -/

/-- A column of the result that holds the hashes of selected facts. -/
structure ResultColumn where
  name : String
  type : String
  column : String
  deriving DecidableEq, Repr

/-- A statement's text with the values of its parameters and the columns of its result. -/
structure SqlQuery where
  sql : String
  parameters : List Parameter
  columns : List ResultColumn
  deriving DecidableEq, Repr

namespace Plan

/-- The slot to select from: the predecessor's end of the first edge, if that is an input, and
otherwise the successor's end; without edges, the first input that has parameters. -/
def root (plan : Plan) : Except PlanError Nat :=
  match plan.edges with
  | edge :: _ =>
    if plan.inputs.any fun input => input.slot == edge.predecessor then .ok edge.predecessor
    else .ok edge.successor
  | [] =>
    match plan.inputs.find? fun input => input.typeParameter.isSome with
    | some input => .ok input.slot
    | none => .error .noEdges

/-- The tests that pin an input, if it has parameters. -/
def Input.pins (input : Input) : List Test :=
  match input.typeParameter, input.hashParameter with
  | some typeParameter, some hashParameter =>
    [.is ⟨.fact input.slot, .factTypeId⟩ typeParameter, .is ⟨.fact input.slot, .hash⟩ hashParameter]
  | _, _ => []

/-- The parameters of a plan, followed by the bookmark, unless it stands before the first row, and
the limit. -/
def pageParameters (plan : Plan) (bookmark : FactBookmark) (limit : Nat) : List Parameter :=
  plan.parameters ++ (if bookmark.isStart then [] else [.integers bookmark.factIds]) ++
    [.integer limit]

/-- The statement of a plan, which goes on behind a bookmark. -/
def statement (plan : Plan) (bookmark : FactBookmark) : Except PlanError Statement := do
  if plan.outputs.isEmpty then .error .noOutputs
  let root ← plan.root
  let (joins, joined) ← joinEdges [root] plan.edges
  let absent ← Group.subqueries joined plan.groups
  let next := plan.parameters.length + 1
  return {
    slots := plan.outputs.map Output.slot
    root := root
    joins := joins
    tests := plan.inputs.flatMap Input.pins
    absent := absent
    bookmark := if bookmark.isStart then none else some next
    limit := if bookmark.isStart then next else next + 1 }

def columns (plan : Plan) : List ResultColumn :=
  plan.outputs.map fun output => ⟨output.label, output.type, Statement.hashColumn output.slot⟩

/-- The page of a plan's result that follows a bookmark and has at most `limit` rows. -/
def page (plan : Plan) (bookmark : FactBookmark) (limit : Nat) : Except PlanError SqlQuery := do
  let statement ← plan.statement bookmark
  return ⟨statement.render, plan.pageParameters bookmark limit, plan.columns⟩

end Plan

namespace Specification

/-- The pages that answer a specification, one for every plan that selects something. The bookmarks
belong to the pages in their order; further pages start before the first row. -/
def pages (spec : Specification) (schema : Schema) (start : List FactReference)
    (bookmarks : List FactBookmark) (limit : Nat) : Except PlanError (List SqlQuery) := do
  let plans ← spec.plans schema start
  let selecting := plans.filter fun plan => !plan.outputs.isEmpty
  selecting.zipIdx.mapM fun (plan, index) => plan.page (bookmarks.getD index .start) limit

end Specification

end FactGraph
