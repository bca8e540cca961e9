import FactGraph.Plan.Basic

/-! # Statements

Stored facts stand in the table `public.fact (fact_id, fact_type_id, hash)`, stored edges in
`public.edge (predecessor_fact_id, successor_fact_id, role_id)`. A statement reads them under
aliases: slot `n` of a plan is `f<n>`, edge `n` is `e<n>`. Values are not part of a statement; it
refers to them by position, as `$1`, `$2` and so on. -/

namespace FactGraph

/-- A table under the alias that a plan gives it. -/
inductive Alias where
  | fact (slot : Nat)
  | edge (index : Nat)
  deriving DecidableEq, Repr

/-- A column of one of the two tables. -/
inductive Column where
  | factId
  | factTypeId
  | hash
  | predecessorFactId
  | successorFactId
  | roleId
  deriving DecidableEq, Repr

/-- A column of an aliased table. -/
structure Cell where
  source : Alias
  column : Column
  deriving DecidableEq, Repr

inductive Test where
  | same (a b : Cell)
  /-- The cell holds the value of a parameter. -/
  | is (cell : Cell) (parameter : Nat)
  deriving DecidableEq, Repr

/-- A table joined on some tests. -/
structure Join where
  source : Alias
  tests : List Test
  deriving DecidableEq, Repr

/-- A query of which only matters whether it has a row. -/
structure Subquery where
  source : Alias
  joins : List Join
  tests : List Test
  absent : List Subquery

structure Statement where
  /-- The slots whose facts are selected. -/
  slots : List Nat
  /-- The slot to select from. -/
  root : Nat
  joins : List Join
  tests : List Test
  absent : List Subquery
  /-- The position of the bookmark behind which the rows start, if there is one. -/
  bookmark : Option Nat
  /-- The position of the greatest number of rows. -/
  limit : Nat

/-! ### Text -/

def Alias.render : Alias → String
  | fact slot => "f" ++ toString slot
  | edge index => "e" ++ toString index

def Alias.table : Alias → String
  | fact _ => "public.fact"
  | edge _ => "public.edge"

def Column.render : Column → String
  | factId => "fact_id"
  | factTypeId => "fact_type_id"
  | hash => "hash"
  | predecessorFactId => "predecessor_fact_id"
  | successorFactId => "successor_fact_id"
  | roleId => "role_id"

/-- A column behind its alias. -/
def Cell.render (cell : Cell) : String := cell.source.render ++ "." ++ cell.column.render

/-- A reference to a parameter. -/
def placeholder (position : Nat) : String := "$" ++ toString position

/-- A test as it stands in a condition. -/
def Test.render : Test → String
  | same a b => a.render ++ " = " ++ b.render
  | is cell parameter => cell.render ++ " = " ++ placeholder parameter

/-- Tests that must all hold. -/
def renderTests (tests : List Test) : String := " AND ".intercalate (tests.map Test.render)

def Alias.declare (source : Alias) : String := source.table ++ " " ++ source.render

/-- A join with the blank in front of it. -/
def Join.render (join : Join) : String :=
  " JOIN " ++ join.source.declare ++ " ON " ++ renderTests join.tests

def renderJoins (joins : List Join) : String := String.join (joins.map Join.render)

mutual

/-- A subquery without its parentheses. -/
def Subquery.render : Subquery → String
  | ⟨source, joins, tests, absent⟩ =>
    "SELECT 1 FROM " ++ source.declare ++ renderJoins joins ++ " WHERE " ++ renderTests tests ++
      Subquery.renderAbsent absent

/-- The conditions that subqueries have no rows. -/
def Subquery.renderAbsent : List Subquery → String
  | [] => ""
  | subquery :: rest =>
    " AND NOT EXISTS (" ++ subquery.render ++ ")" ++ Subquery.renderAbsent rest

end

namespace Statement

/-- The selected ids of a row, from the greatest to the least. -/
def sortedIds (slots : List Nat) : String :=
  "sort(array[" ++
    ", ".intercalate (slots.map fun slot => Cell.render ⟨.fact slot, .factId⟩) ++ "], 'desc')"

/-- The column of the result that holds the hash of a slot. -/
def hashColumn (slot : Nat) : String := "hash" ++ toString slot

def render (statement : Statement) : String :=
  let hashes := ", ".intercalate <| statement.slots.map fun slot =>
    Cell.render ⟨.fact slot, .hash⟩ ++ " as " ++ hashColumn slot
  let ids := sortedIds statement.slots
  let behind := match statement.bookmark with
    | none => ""
    | some position => " AND " ++ ids ++ " > " ++ placeholder position
  "SELECT " ++ hashes ++ ", " ++ ids ++ " as bookmark FROM " ++
    (Alias.fact statement.root).declare ++ renderJoins statement.joins ++ " WHERE " ++
    renderTests statement.tests ++ Subquery.renderAbsent statement.absent ++ behind ++
    " ORDER BY bookmark ASC LIMIT " ++ placeholder statement.limit

end Statement

end FactGraph
