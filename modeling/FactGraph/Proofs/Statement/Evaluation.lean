import FactGraph.Proofs.Statement.Placeholders
import Mathlib.Data.Int.Order.Basic
import Mathlib.Data.List.Lex

/-! # What statements answer

A database evaluates a statement from the inside: every join extends the rows found so far by the
rows of its table for which its tests hold, a condition is met if its tests hold and none of its
subqueries has a row, and what is left is put in order and cut off at the limit. A test on a column
that no row in scope has does not hold.

* `Statement.rows_congr`: what a statement selects depends on the parameters that its cells are tied
  to.
* `cursor_eq_iff`: rows share their cursor if they consist of the same ids. -/

namespace FactGraph

/-! ### Tables -/

/-- A row of the table of facts. -/
structure FactRow where
  id : Int
  typeId : Int
  hash : String
  deriving DecidableEq, Repr

/-- A row of the table of edges. -/
structure EdgeRow where
  predecessor : Int
  successor : Int
  roleId : Int
  deriving DecidableEq, Repr

/-- The rows of both tables. -/
structure Database where
  facts : List FactRow
  edges : List EdgeRow

/-- Facts have ids of their own, no fact and no edge is stored twice, and edges lead from stored
facts to stored facts. -/
structure Database.Consistent (db : Database) : Prop where
  ids : (db.facts.map FactRow.id).Nodup
  facts : (db.facts.map fun fact => (fact.typeId, fact.hash)).Nodup
  edges : db.edges.Nodup
  ends : ∀ edge ∈ db.edges, edge.predecessor ∈ db.facts.map FactRow.id ∧
    edge.successor ∈ db.facts.map FactRow.id

/-- A row of one of the tables. -/
inductive Row where
  | fact (row : FactRow)
  | edge (row : EdgeRow)
  deriving DecidableEq, Repr

/-- The value that a row has in a column of its table. -/
def Row.value : Row → Column → Option Parameter
  | fact row, .factId => some (.integer row.id)
  | fact row, .factTypeId => some (.integer row.typeId)
  | fact row, .hash => some (.text row.hash)
  | edge row, .predecessorFactId => some (.integer row.predecessor)
  | edge row, .successorFactId => some (.integer row.successor)
  | edge row, .roleId => some (.integer row.roleId)
  | _, _ => none

/-- The rows of an aliased table. -/
def Database.table (db : Database) : Alias → List Row
  | .fact _ => db.facts.map .fact
  | .edge _ => db.edges.map .edge

/-- The rows that stand for the tables in scope, the innermost first. -/
abbrev Combination : Type := List (Alias × Row)

/-! ### Conditions -/

/-- The value of a cell, if its table is in scope and has the column. -/
def Cell.value (combination : Combination) (cell : Cell) : Option Parameter :=
  (combination.lookup cell.source).bind fun row => row.value cell.column

/-- A test compares two values; one that is missing equals nothing. -/
def Test.holds (parameters : List Parameter) (combination : Combination) : Test → Bool
  | .same a b => (a.value combination).isSome && a.value combination == b.value combination
  | .is cell position => (cell.value combination).isSome &&
    cell.value combination == Plan.parameterAt parameters position

/-- All tests hold. -/
def allHold (parameters : List Parameter) (tests : List Test) (combination : Combination) : Bool :=
  tests.all fun test => test.holds parameters combination

variable (db : Database) (parameters : List Parameter)

/-- A combination is extended by every row of a table for which the tests of the join hold. -/
def Join.extend (join : Join) (combination : Combination) : List Combination :=
  ((db.table join.source).map fun row => (join.source, row) :: combination).filter
    (allHold parameters join.tests)

/-- A combination is extended by one join after the other. -/
def extendAll : List Join → Combination → List Combination
  | [], combination => [combination]
  | join :: rest, combination =>
    (join.extend db parameters combination).flatMap (extendAll rest)

mutual

/-- A subquery has a row, beside the rows around it. -/
def Subquery.hasRow : Subquery → Combination → Bool
  | ⟨source, joins, tests, absent⟩, combination =>
    (extendAll db parameters (⟨source, []⟩ :: joins) combination).any fun inner =>
      allHold parameters tests inner && Subquery.noneHasRow absent inner

/-- None of some subqueries has a row. -/
def Subquery.noneHasRow : List Subquery → Combination → Bool
  | [], _ => true
  | subquery :: rest, combination =>
    !subquery.hasRow combination && Subquery.noneHasRow rest combination

end

/-! ### Rows and pages -/

/-- The ids of the facts in some slots. -/
def idsOf (slots : List Nat) (combination : Combination) : Option (List Int) :=
  slots.mapM fun slot =>
    match Cell.value combination ⟨.fact slot, .factId⟩ with
    | some (.integer id) => some id
    | _ => none

/-- The cursor of a row: its ids from the greatest to the least. -/
def cursor (row : List Int) : List Int := row.mergeSort fun a b => b ≤ a

namespace Statement

/-- What a statement selects, without bookmark, order and limit: the ids of every combination of
rows that meets its conditions. -/
def rows (statement : Statement) : List (List Int) :=
  ((extendAll db parameters (⟨.fact statement.root, []⟩ :: statement.joins) []).filter
    fun combination => allHold parameters statement.tests combination &&
      Subquery.noneHasRow db parameters statement.absent combination).filterMap
    (idsOf statement.slots)

/-- A row stands behind the bookmark of a statement, if there is one. -/
def isBehind (statement : Statement) (row : List Int) : Bool :=
  match statement.bookmark with
  | none => true
  | some position =>
    match Plan.parameterAt parameters position with
    | some (.integers ids) => ids < cursor row
    | _ => false

/-- **A database answers a statement** with the first rows behind the bookmark in the order of their
cursors, as many as the limit allows. -/
def Answers (statement : Statement) (page : List (List Int)) : Prop :=
  ∃ (ordered : List (List Int)) (limit : Int),
    ordered.Perm ((statement.rows db parameters).filter (statement.isBehind parameters)) ∧
    ordered.Pairwise (fun row row' => cursor row ≤ cursor row') ∧
    Plan.parameterAt parameters statement.limit = some (.integer limit) ∧
    page = ordered.take limit.toNat

end Statement

/-! ### Parameters that do not matter -/

variable {db : Database} {parameters parameters' : List Parameter}

/-- Two lists of parameters agree where cells are tied to them. -/
def AgreeAt (parameters parameters' : List Parameter) (pins : List (Cell × Nat)) : Prop :=
  ∀ pin ∈ pins, Plan.parameterAt parameters pin.2 = Plan.parameterAt parameters' pin.2

theorem agreeAt_append {pins pins' : List (Cell × Nat)} :
    AgreeAt parameters parameters' (pins ++ pins') ↔
      AgreeAt parameters parameters' pins ∧ AgreeAt parameters parameters' pins' :=
  List.forall_mem_append

theorem allHold_congr : ∀ {tests : List Test},
    AgreeAt parameters parameters' (tests.filterMap Test.pin?) →
      allHold parameters tests = allHold parameters' tests
  | [], _ => rfl
  | .same a b :: rest, h => by
    have htests : AgreeAt parameters parameters' (rest.filterMap Test.pin?) := h
    funext combination
    have hrest := congrFun (allHold_congr htests) combination
    show (_ && allHold parameters rest combination) = (_ && allHold parameters' rest combination)
    rw [hrest]
    rfl
  | .is cell position :: rest, h => by
    obtain ⟨hfirst, hrest⟩ := List.forall_mem_cons.mp h
    funext combination
    have hrest := congrFun (allHold_congr hrest) combination
    show (_ && allHold parameters rest combination) = (_ && allHold parameters' rest combination)
    rw [hrest]
    simp only [Test.holds, show Plan.parameterAt parameters position = _ from hfirst]

theorem extendAll_congr : ∀ {joins : List Join},
    AgreeAt parameters parameters' (joins.flatMap Join.pins) →
      extendAll db parameters joins = extendAll db parameters' joins
  | [], _ => rfl
  | join :: rest, h => by
    obtain ⟨hfirst, hrest⟩ := agreeAt_append.mp h
    funext combination
    rw [extendAll, extendAll, extendAll_congr hrest, Join.extend, Join.extend, allHold_congr hfirst]

mutual

theorem Subquery.hasRow_congr : ∀ {subquery : Subquery},
    AgreeAt parameters parameters' subquery.pins →
      subquery.hasRow db parameters = subquery.hasRow db parameters'
  | ⟨source, joins, tests, absent⟩, h => by
    obtain ⟨hfirst, habsent⟩ := agreeAt_append.mp h
    obtain ⟨hjoins, htests⟩ := agreeAt_append.mp hfirst
    have hextend : extendAll db parameters (⟨source, []⟩ :: joins) =
        extendAll db parameters' (⟨source, []⟩ :: joins) := extendAll_congr hjoins
    funext combination
    rw [hasRow, hasRow, hextend, allHold_congr htests, Subquery.noneHasRow_congr habsent]

theorem Subquery.noneHasRow_congr : ∀ {absent : List Subquery},
    AgreeAt parameters parameters' (pinsAll absent) →
      noneHasRow db parameters absent = noneHasRow db parameters' absent
  | [], _ => rfl
  | subquery :: rest, h => by
    obtain ⟨hfirst, hrest⟩ := agreeAt_append.mp h
    funext combination
    rw [noneHasRow, noneHasRow, Subquery.hasRow_congr hfirst, Subquery.noneHasRow_congr hrest]

end

/-- **What a statement selects depends on the parameters that its cells are tied to.** -/
theorem Statement.rows_congr {statement : Statement}
    (h : AgreeAt parameters parameters' statement.pins) :
    statement.rows db parameters = statement.rows db parameters' := by
  obtain ⟨hfirst, habsent⟩ := agreeAt_append.mp h
  obtain ⟨hjoins, htests⟩ := agreeAt_append.mp hfirst
  have hextend : extendAll db parameters (⟨.fact statement.root, []⟩ :: statement.joins) =
      extendAll db parameters' (⟨.fact statement.root, []⟩ :: statement.joins) :=
    extendAll_congr hjoins
  rw [rows, rows, hextend, allHold_congr htests, Subquery.noneHasRow_congr habsent]

/-! ### Cursors -/

theorem cursor_perm (row : List Int) : (cursor row).Perm row := List.mergeSort_perm _ _

/-- **Rows share their cursor if they consist of the same ids.** -/
theorem cursor_eq_iff {row row' : List Int} : cursor row = cursor row' ↔ row.Perm row' := by
  constructor
  · intro h
    exact (cursor_perm row).symm.trans (h ▸ cursor_perm row')
  · intro h
    have hsorted : ∀ row : List Int, (cursor row).Pairwise fun a b => b ≤ a := by
      intro row
      refine (List.pairwise_mergeSort ?_ ?_ row).imp of_decide_eq_true
      · intro a b c hab hbc
        exact decide_eq_true ((of_decide_eq_true hbc).trans (of_decide_eq_true hab))
      · intro a b
        simpa using le_total b a
    refine List.Perm.eq_of_pairwise (fun a b _ _ hab hba => le_antisymm hba hab) (hsorted row)
      (hsorted row') ?_
    exact (cursor_perm row).trans (h.trans (cursor_perm row').symm)

theorem nil_lt_cursor {row : List Int} (h : row ≠ []) : [] < cursor row := by
  rcases hc : cursor row with _ | ⟨id, rest⟩
  · have hnil := cursor_perm row
    rw [hc] at hnil
    exact absurd hnil.symm.eq_nil h
  · exact List.nil_lt_cons _ _

end FactGraph
