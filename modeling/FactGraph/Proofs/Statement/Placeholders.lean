import FactGraph.Proofs.Plan.Parameters
import FactGraph.Proofs.Statement.Mentions

/-! # Placeholders of statements

The text of a statement refers to parameters by placeholders: a dollar sign and the digits behind
it. The text is read for them without a look at how it was made.

* `Statement.placeholdersIn_render`: the text of a statement has the placeholders of its tests, of
  its bookmark and of its limit, and no others.
* `Plan.Allotted.pins_perm`: a statement pins every edge of its plan, in whatever branch, and every
  input that has parameters.
* `Specification.placeholders_of_pages`: every page has one placeholder for each of its parameters,
  which holds what the placeholder stands for. -/

namespace FactGraph

/-! ### Reading placeholders -/

/-- The placeholders in a text: every dollar sign with the digits behind it. -/
def placeholdersIn : List Char → List String
  | [] => []
  | c :: rest =>
    if c = '$' then ("$" ++ String.ofList (rest.takeWhile Char.isDigit)) :: placeholdersIn rest
    else placeholdersIn rest

/-- A text does not go on with a digit. -/
def NoDigit (text : List Char) : Prop := ∀ c ∈ text.head?, c.isDigit = false

/-- A text writes the placeholders of some positions. Neither does it end within the last of them,
nor does it go on with the digits of what stands before it. -/
structure Writes (text : String) (positions : List Nat) : Prop where
  reads : ∀ rest, NoDigit rest → placeholdersIn (text.toList ++ rest) =
    positions.map placeholder ++ placeholdersIn rest
  noDigit : ∀ rest, NoDigit rest → NoDigit (text.toList ++ rest)

theorem placeholdersIn_append_of_not_mem {rest : List Char} : ∀ {text : List Char}, '$' ∉ text →
    placeholdersIn (text ++ rest) = placeholdersIn rest
  | [], _ => rfl
  | c :: others, h => by
    obtain ⟨hc, hothers⟩ := not_or.mp (mt List.mem_cons.mpr h)
    rw [List.cons_append, placeholdersIn, if_neg (Ne.symm hc),
      placeholdersIn_append_of_not_mem hothers]

theorem isDigit_of_mem_toString {position : Nat} {c : Char} (h : c ∈ (toString position).toList) :
    c.isDigit = true := by
  rw [Nat.toString_eq_repr, Nat.repr_eq_ofList_toDigits, String.toList_ofList] at h
  exact Nat.isDigit_of_mem_toDigits (Nat.succ_pos 9) le_rfl h

namespace Writes

variable {text text' : String} {positions positions' : List Nat}

theorem empty : Writes "" [] := ⟨fun _ _ => rfl, fun _ h => h⟩

theorem of_not_mem {c : Char} {others : List Char} (ht : text.toList = c :: others)
    (hc : c.isDigit = false) (h : '$' ∉ text.toList) : Writes text [] := by
  refine ⟨fun rest _ => placeholdersIn_append_of_not_mem h, fun rest _ => ?_⟩
  rw [ht]
  rintro _ ⟨⟩
  exact hc

theorem numbered {c : Char} {others : List Char} (ht : text.toList = c :: others)
    (hc : c.isDigit = false) (h : '$' ∉ text.toList) (number : Nat) :
    Writes (text ++ toString number) [] := by
  have htext : (text ++ toString number).toList = c :: (others ++ (toString number).toList) := by
    rw [String.toList_append, ht, List.cons_append]
  refine of_not_mem htext hc fun hm => ?_
  rw [String.toList_append] at hm
  rcases List.mem_append.mp hm with hm | hm
  · exact h hm
  · exact absurd (isDigit_of_mem_toString hm) (by decide)

theorem placeholder (position : Nat) : Writes (placeholder position) [position] := by
  have htext : (FactGraph.placeholder position).toList = '$' :: (toString position).toList := by
    rw [FactGraph.placeholder, String.toList_append]
    rfl
  refine ⟨fun rest hr => ?_, fun rest _ => ?_⟩ <;> rw [htext]
  · have hdollar : '$' ∉ (toString position).toList := fun hm =>
      absurd (isDigit_of_mem_toString hm) (by decide)
    have hrest : rest.takeWhile Char.isDigit = [] := by
      rcases rest with _ | ⟨c, others⟩
      · rfl
      · rw [List.takeWhile_cons_of_neg]
        rw [hr c rfl]
        exact Bool.false_ne_true
    have htake : ((toString position).toList ++ rest).takeWhile Char.isDigit =
        (toString position).toList := by
      rw [List.takeWhile_append_of_pos fun c hc => isDigit_of_mem_toString hc, hrest,
        List.append_nil]
    rw [List.cons_append, placeholdersIn, if_pos rfl, htake, String.ofList_toList,
      placeholdersIn_append_of_not_mem hdollar]
    rfl
  · rintro _ ⟨⟩
    decide

theorem append (h : Writes text positions) (h' : Writes text' positions') :
    Writes (text ++ text') (positions ++ positions') := by
  refine ⟨fun rest hr => ?_, fun rest hr => ?_⟩ <;> rw [String.toList_append, List.append_assoc]
  · rw [h.reads _ (h'.noDigit rest hr), h'.reads rest hr, List.map_append, List.append_assoc]
  · exact h.noDigit _ (h'.noDigit rest hr)

theorem before (h : Writes text []) (h' : Writes text' positions) :
    Writes (text ++ text') positions :=
  h.append h'

theorem behind (h : Writes text positions) (h' : Writes text' []) :
    Writes (text ++ text') positions := by
  have happend := h.append h'
  rwa [List.append_nil] at happend

variable {α : Type} {f : α → String} {g : α → List Nat}

theorem join (h : ∀ a, Writes (f a) (g a)) : ∀ as : List α,
    Writes (String.join (as.map f)) (as.flatMap g)
  | [] => empty
  | a :: rest => by
    rw [List.map_cons, String.join_cons, List.flatMap_cons]
    exact (h a).append (join h rest)

theorem intercalate {separator : String} (hs : Writes separator []) (h : ∀ a, Writes (f a) (g a)) :
    ∀ as : List α, Writes (separator.intercalate (as.map f)) (as.flatMap g)
  | [] => empty
  | [a] => by
    rw [List.map_singleton, String.intercalate_singleton, List.flatMap_singleton]
    exact h a
  | a :: b :: rest => by
    rw [List.map_cons, List.map_cons, String.intercalate_cons_cons, List.flatMap_cons]
    exact ((h a).behind hs).append (intercalate hs h (b :: rest))

theorem intercalate_nil {separator : String} (hs : Writes separator []) (h : ∀ a, Writes (f a) [])
    (as : List α) : Writes (separator.intercalate (as.map f)) [] := by
  have hall := intercalate hs h as
  rwa [List.flatMap_eq_nil_iff.mpr fun _ _ => rfl] at hall

end Writes

/-! ### The text of a statement -/

/-- The cell that a test ties to a parameter, and the parameter's position. -/
def Test.pin? : Test → Option (Cell × Nat)
  | .same _ _ => none
  | .is cell parameter => some (cell, parameter)

/-- The cells that a join ties to parameters. -/
def Join.pins (join : Join) : List (Cell × Nat) := join.tests.filterMap Test.pin?

mutual

/-- The cells that a subquery and the subqueries inside of it tie to parameters. -/
def Subquery.pins : Subquery → List (Cell × Nat)
  | ⟨_, joins, tests, absent⟩ =>
    joins.flatMap Join.pins ++ tests.filterMap Test.pin? ++ Subquery.pinsAll absent

def Subquery.pinsAll : List Subquery → List (Cell × Nat)
  | [] => []
  | subquery :: rest => subquery.pins ++ Subquery.pinsAll rest

end

namespace Statement

/-- The cells that a statement ties to parameters, in the order of its text. -/
def pins (statement : Statement) : List (Cell × Nat) :=
  statement.joins.flatMap Join.pins ++ statement.tests.filterMap Test.pin? ++
    Subquery.pinsAll statement.absent

/-- The positions that a statement refers to, in the order of its text. -/
def positions (statement : Statement) : List Nat :=
  statement.pins.map Prod.snd ++ statement.bookmark.toList ++ [statement.limit]

end Statement

theorem Alias.writes_render : ∀ source : Alias, Writes source.render []
  | .fact slot => .numbered rfl rfl (by decide) slot
  | .edge index => .numbered rfl rfl (by decide) index

theorem Alias.writes_declare (source : Alias) : Writes source.declare [] := by
  have htable : Writes source.table [] := by
    rcases source with slot | index
    · exact @Writes.of_not_mem "public.fact" _ _ rfl rfl (by decide)
    · exact @Writes.of_not_mem "public.edge" _ _ rfl rfl (by decide)
  have hblank : Writes " " [] := .of_not_mem rfl rfl (by decide)
  exact (htable.append hblank).append source.writes_render

theorem Cell.writes_render (cell : Cell) : Writes cell.render [] := by
  have hcolumn : Writes cell.column.render [] := by
    cases cell.column <;> exact .of_not_mem rfl rfl (by decide)
  have hdot : Writes "." [] := .of_not_mem rfl rfl (by decide)
  exact (cell.source.writes_render.append hdot).append hcolumn

theorem Test.writes_render : ∀ test : Test, Writes test.render (test.pin?.toList.map Prod.snd)
  | .same a b => (a.writes_render.append (.of_not_mem rfl rfl (by decide))).append b.writes_render
  | .is cell parameter =>
    (cell.writes_render.append (.of_not_mem rfl rfl (by decide))).append (.placeholder parameter)

theorem writes_renderTests (tests : List Test) :
    Writes (renderTests tests) ((tests.filterMap Test.pin?).map Prod.snd) := by
  have hpins : (tests.filterMap Test.pin?).map Prod.snd =
      tests.flatMap fun test => test.pin?.toList.map Prod.snd := by
    rw [List.filterMap_eq_flatMap_toList, List.map_flatMap]
  rw [hpins]
  exact .intercalate (.of_not_mem rfl rfl (by decide)) Test.writes_render tests

theorem Join.writes_render (join : Join) : Writes join.render (join.pins.map Prod.snd) :=
  (((.of_not_mem rfl rfl (by decide) : Writes " JOIN " []).append join.source.writes_declare).append
    (.of_not_mem rfl rfl (by decide))).append (writes_renderTests join.tests)

theorem writes_renderJoins (joins : List Join) :
    Writes (renderJoins joins) ((joins.flatMap Join.pins).map Prod.snd) := by
  rw [List.map_flatMap]
  exact .join Join.writes_render joins

mutual

theorem Subquery.writes_render : ∀ subquery : Subquery,
    Writes subquery.render (subquery.pins.map Prod.snd)
  | ⟨source, joins, tests, absent⟩ => by
    have hselect : Writes "SELECT 1 FROM " [] := .of_not_mem rfl rfl (by decide)
    have hwhere : Writes " WHERE " [] := .of_not_mem rfl rfl (by decide)
    rw [Subquery.pins, List.map_append, List.map_append]
    exact ((((hselect.append source.writes_declare).before (writes_renderJoins joins)).behind
      hwhere).append (writes_renderTests tests)).append (Subquery.writes_renderAbsent absent)

theorem Subquery.writes_renderAbsent : ∀ absent : List Subquery,
    Writes (Subquery.renderAbsent absent) ((Subquery.pinsAll absent).map Prod.snd)
  | [] => .empty
  | subquery :: rest => by
    have hopen : Writes " AND NOT EXISTS (" [] := .of_not_mem rfl rfl (by decide)
    have hclose : Writes ")" [] := .of_not_mem rfl rfl (by decide)
    rw [Subquery.pinsAll, List.map_append]
    exact ((hopen.before (Subquery.writes_render subquery)).behind hclose).append
      (Subquery.writes_renderAbsent rest)

end

namespace Statement

theorem writes_sortedIds (slots : List Nat) : Writes (sortedIds slots) [] := by
  have hopen : Writes "sort(array[" [] := .of_not_mem rfl rfl (by decide)
  have hcomma : Writes ", " [] := .of_not_mem rfl rfl (by decide)
  have hclose : Writes "], 'desc')" [] := .of_not_mem rfl rfl (by decide)
  exact (hopen.append (.intercalate_nil hcomma (fun _ => Cell.writes_render _) slots)).append hclose

theorem writes_hashes (slots : List Nat) : Writes (", ".intercalate (slots.map fun slot =>
    Cell.render ⟨.fact slot, .hash⟩ ++ " as " ++ hashColumn slot)) [] := by
  have hcomma : Writes ", " [] := .of_not_mem rfl rfl (by decide)
  have has : Writes " as " [] := .of_not_mem rfl rfl (by decide)
  refine .intercalate_nil hcomma (fun slot => ?_) slots
  exact ((Cell.writes_render ⟨.fact slot, .hash⟩).append has).append
    (.numbered rfl rfl (by decide) slot)

theorem writes_render (statement : Statement) :
    Writes statement.render statement.positions := by
  have hselect : Writes "SELECT " [] := .of_not_mem rfl rfl (by decide)
  have hcomma : Writes ", " [] := .of_not_mem rfl rfl (by decide)
  have hfrom : Writes " as bookmark FROM " [] := .of_not_mem rfl rfl (by decide)
  have hwhere : Writes " WHERE " [] := .of_not_mem rfl rfl (by decide)
  have hand : Writes " AND " [] := .of_not_mem rfl rfl (by decide)
  have hgreater : Writes " > " [] := .of_not_mem rfl rfl (by decide)
  have hlimit : Writes " ORDER BY bookmark ASC LIMIT " [] := .of_not_mem rfl rfl (by decide)
  obtain ⟨slots, root, joins, tests, absent, bookmark, limit⟩ := statement
  have hcolumns := (hselect.append (writes_hashes slots)).append hcomma
  have hbegin := ((hcolumns.append (writes_sortedIds slots)).append hfrom).append
    (Alias.fact root).writes_declare
  have hpins := (((hbegin.before (writes_renderJoins joins)).behind hwhere).append
    (writes_renderTests tests)).append (Subquery.writes_renderAbsent absent)
  rw [positions, pins, List.map_append, List.map_append]
  rcases bookmark with _ | position
  · exact ((hpins.append .empty).behind hlimit).append (.placeholder limit)
  · exact ((hpins.append (((hand.append (writes_sortedIds slots)).append hgreater).append
      (.placeholder position))).behind hlimit).append (.placeholder limit)

/-- **The placeholders in the text of a statement** are those of the cells it ties to parameters, of
its bookmark and of its limit. -/
theorem placeholdersIn_render (statement : Statement) :
    placeholdersIn statement.render.toList = statement.positions.map placeholder := by
  have hreads := statement.writes_render.reads [] fun _ h => by cases h
  rwa [List.append_nil, placeholdersIn, List.append_nil] at hreads

theorem exists_render_eq (statement : Statement) :
    ∃ text, statement.render = text ++ " LIMIT " ++ placeholder statement.limit := by
  obtain ⟨text, ht⟩ : ∃ text, statement.render =
      text ++ " ORDER BY bookmark ASC LIMIT " ++ placeholder statement.limit := ⟨_, rfl⟩
  have hlimit : " ORDER BY bookmark ASC LIMIT " = " ORDER BY bookmark ASC" ++ " LIMIT " := rfl
  refine ⟨text ++ " ORDER BY bookmark ASC", ?_⟩
  rw [ht, hlimit, ← String.append_assoc]

end Statement

/-! ### What a statement pins -/

namespace Plan

/-- The cell of an edge's role and the parameter that it is tied to. -/
def Edge.pin (edge : Edge) : Cell × Nat := (⟨.edge edge.index, .roleId⟩, edge.roleParameter)

theorem Edge.pins_of_joins {edge : Edge} {joined : List Nat} {joins : List Join}
    (h : edge.joins joined = .ok joins) : joins.flatMap Join.pins = [edge.pin] := by
  unfold Edge.joins at h
  split at h <;> cases h <;> rfl

theorem pins_of_joinEdges : ∀ {edges : List Edge} {joined joined' : List Nat} {joins : List Join},
    joinEdges joined edges = .ok (joins, joined') →
      joins.flatMap Join.pins = edges.map Edge.pin
  | [], _, _, _, h => by
    cases h
    rfl
  | edge :: rest, joined, joined', joins, h => by
    obtain ⟨first, he, h⟩ := Except.bind_eq_ok_iff.mp h
    obtain ⟨⟨others, last⟩, hr, h⟩ := Except.bind_eq_ok_iff.mp h
    cases h
    rw [List.flatMap_append, edge.pins_of_joins he, pins_of_joinEdges hr]
    rfl

mutual

/-- **A subquery pins the edges of its group and of the groups inside of it.** -/
theorem Group.pins_of_subquery : ∀ {group : Group} {joined : List Nat} {subquery : Subquery},
    group.subquery joined = .ok subquery →
      subquery.pins.Perm (group.edgesWithin.map Edge.pin)
  | ⟨[], _⟩, _, _, h => by cases h
  | ⟨edge :: edges, groups⟩, joined, subquery, h => by
    obtain ⟨joins, joined', hjoins, absent, habsent, hcases⟩ := subquery_cons_eq_ok_iff.mp h
    -- the first edge is pinned behind the joins, whichever of its ends is joined outside
    have hpins : subquery.pins =
        joins.flatMap Join.pins ++ [edge.pin] ++ Subquery.pinsAll absent := by
      obtain ⟨-, -, rfl⟩ | ⟨-, -, rfl⟩ := hcases <;> rfl
    rw [hpins, pins_of_joinEdges hjoins, edgesWithin, List.map_append]
    exact List.Perm.append List.perm_append_comm (pins_of_subqueries habsent)

theorem Group.pins_of_subqueries : ∀ {groups : List Group} {joined : List Nat}
    {absent : List Subquery}, Group.subqueries joined groups = .ok absent →
      (Subquery.pinsAll absent).Perm ((edgesWithinAll groups).map Edge.pin)
  | [], _, _, h => by
    cases h
    exact List.Perm.refl _
  | group :: rest, joined, absent, h => by
    obtain ⟨first, hf, h⟩ := Except.bind_eq_ok_iff.mp h
    obtain ⟨others, ho, h⟩ := Except.bind_eq_ok_iff.mp h
    cases h
    rw [Subquery.pinsAll, edgesWithinAll, List.map_append]
    exact (pins_of_subquery hf).append (pins_of_subqueries ho)

end

variable {plan : Plan} {bookmark : FactBookmark} {statement : Statement}

theorem statement_eq_ok_iff : plan.statement bookmark = .ok statement ↔ plan.outputs ≠ [] ∧
    ∃ root joins joined absent, plan.root = .ok root ∧
      joinEdges [root] plan.edges = .ok (joins, joined) ∧
      Group.subqueries joined plan.groups = .ok absent ∧
      statement = {
        slots := plan.outputs.map Output.slot
        root := root
        joins := joins
        tests := plan.inputs.flatMap Input.pins
        absent := absent
        bookmark := if bookmark.isStart then none else some (plan.parameters.length + 1)
        limit := if bookmark.isStart then plan.parameters.length + 1
          else plan.parameters.length + 2 } := by
  rw [Plan.statement]
  by_cases ho : plan.outputs = []
  · rw [if_pos (List.isEmpty_iff.mpr ho)]
    constructor
    · rintro ⟨⟩
    · exact fun h => absurd ho h.1
  · rw [if_neg (mt List.isEmpty_iff.mp ho)]
    constructor
    · intro h
      obtain ⟨root, hr, h⟩ := Except.bind_eq_ok_iff.mp h
      obtain ⟨⟨joins, joined⟩, hj, h⟩ := Except.bind_eq_ok_iff.mp h
      obtain ⟨absent, ha, h⟩ := Except.bind_eq_ok_iff.mp h
      exact ⟨ho, root, joins, joined, absent, hr, hj, ha, (Except.pure_eq_ok_iff.mp h).symm⟩
    · rintro ⟨-, root, joins, joined, absent, hr, hj, ha, rfl⟩
      exact Except.bind_eq_ok_iff.mpr ⟨root, hr, Except.bind_eq_ok_iff.mpr
        ⟨(joins, joined), hj, Except.bind_eq_ok_iff.mpr ⟨absent, ha, rfl⟩⟩⟩

/-- The cells that pin an input. -/
def Input.cellPins (input : Input) : List (Cell × Nat) := input.pins.filterMap Test.pin?

theorem Input.map_snd_cellPins (input : Input) :
    input.cellPins.map Prod.snd = input.positions := by
  unfold cellPins pins positions
  rcases input.typeParameter with _ | typeParameter
  · rfl
  · rcases input.hashParameter with _ | hashParameter <;> rfl

/-- **A statement pins the inputs that have parameters and the edges of all branches.** -/
theorem pins_perm_of_statement (h : plan.statement bookmark = .ok statement) :
    statement.pins.Perm
      (plan.inputs.flatMap Input.cellPins ++ plan.edgesWithin.map Edge.pin) := by
  obtain ⟨-, root, joins, joined, absent, -, hjoins, habsent, rfl⟩ := statement_eq_ok_iff.mp h
  have hinputs : (plan.inputs.flatMap Input.pins).filterMap Test.pin? =
      plan.inputs.flatMap Input.cellPins := List.filterMap_flatMap
  have hedges : plan.edgesWithin.map Edge.pin =
      plan.edges.map Edge.pin ++ (Group.edgesWithinAll plan.groups).map Edge.pin :=
    List.map_append
  rw [Statement.pins, hinputs, pins_of_joinEdges hjoins, hedges, ← List.append_assoc]
  exact List.perm_append_comm.append (Group.pins_of_subqueries habsent)

theorem map_snd_pins_perm (h : plan.statement bookmark = .ok statement) :
    (statement.pins.map Prod.snd).Perm plan.positions := by
  have hplan : (plan.inputs.flatMap Input.cellPins ++ plan.edgesWithin.map Edge.pin).map Prod.snd =
      plan.positions := by
    rw [List.map_append, List.map_flatMap, List.map_map, Plan.positions]
    simp only [Input.map_snd_cellPins]
    rfl
  rw [← hplan]
  exact (pins_perm_of_statement h).map Prod.snd

end Plan

/-! ### What placeholders stand for -/

/-- The value that a statement ties a cell to: the number of a given fact's type, its hash, or the
number of the role that an edge traverses. -/
def Specification.valueOf (spec : Specification) (schema : Schema) (start : List FactReference)
    (roles : List RoleDefinition) : Cell → Option Parameter
  | ⟨.fact (index + 1), .factTypeId⟩ => do
    let label ← spec.given[index]?
    return .integer (← schema.factTypeId label.type)
  | ⟨.fact (index + 1), .hash⟩ => start[index]?.map fun fact => .text fact.hash
  | ⟨.edge index, .roleId⟩ => do
    let role ← Plan.roleAt roles index
    return .integer (← schema.roleOf role.definingType role.name)
  | _ => none

/-- **The placeholders of a query match its parameters.** The text has one placeholder for each
parameter. The last one stands for the limit, the one before it for the bookmark, if there is one,
and the others for the values of the cells that are tied to them. -/
structure SqlQuery.Matches (query : SqlQuery) (statement : Statement) (bookmark : FactBookmark)
    (limit : Nat) (valueOf : Cell → Option Parameter) : Prop where
  sql : query.sql = statement.render
  placeholders : (placeholdersIn query.sql.toList).Perm
    ((List.range' 1 query.parameters.length).map placeholder)
  limited : ∃ text, query.sql = text ++ " LIMIT " ++ placeholder query.parameters.length
  limit : statement.limit = query.parameters.length ∧
    Plan.parameterAt query.parameters query.parameters.length = some (.integer limit)
  bookmark : bookmark.isStart = false → statement.bookmark = some (query.parameters.length - 1) ∧
    Plan.parameterAt query.parameters (query.parameters.length - 1) =
      some (.integers bookmark.factIds)
  pins : ∀ pin ∈ statement.pins, ∃ value, valueOf pin.1 = some value ∧
    Plan.parameterAt query.parameters pin.2 = some value

namespace Plan

variable {plan : Plan} {bookmark : FactBookmark} {statement : Statement} {limit : Nat}

theorem length_pageParameters : (plan.pageParameters bookmark limit).length =
    plan.parameters.length + (if bookmark.isStart then 1 else 2) := by
  unfold pageParameters
  split_ifs <;> simp

theorem parameters_prefix_pageParameters :
    plan.parameters <+: plan.pageParameters bookmark limit := by
  rw [pageParameters, List.append_assoc]
  exact List.prefix_append _ _

theorem parameterAt_limit : parameterAt (plan.pageParameters bookmark limit)
    (plan.pageParameters bookmark limit).length = some (.integer limit) := by
  unfold pageParameters
  rw [List.length_append, List.length_singleton, parameterAt, List.getElem?_concat_length]

theorem parameterAt_bookmark (hb : bookmark.isStart = false) :
    parameterAt (plan.pageParameters bookmark limit) (plan.parameters.length + 1) =
      some (.integers bookmark.factIds) := by
  have hparameters : plan.pageParameters bookmark limit =
      plan.parameters ++ [.integers bookmark.factIds, .integer limit] := by
    rw [pageParameters, hb, List.append_assoc]
    rfl
  rw [hparameters, parameterAt, List.getElem?_append_right (Nat.le_refl _), Nat.sub_self]
  rfl

theorem limit_of_statement (h : plan.statement bookmark = .ok statement) :
    statement.limit = (plan.pageParameters bookmark limit).length := by
  obtain ⟨-, _, _, _, _, -, -, -, rfl⟩ := statement_eq_ok_iff.mp h
  rw [length_pageParameters]
  split_ifs <;> rfl

variable {spec : Specification} {schema : Schema} {start : List FactReference}
  {roles : List RoleDefinition}

namespace Allotted

theorem exists_value_of_input (h : plan.Allotted schema (spec.inputs schema start) roles)
    {input : Input} (hi : input ∈ plan.inputs) {pin : Cell × Nat} (hp : pin ∈ input.cellPins) :
    ∃ value, spec.valueOf schema start roles pin.1 = some value ∧
      parameterAt plan.parameters pin.2 = some value := by
  obtain ⟨source, hs, hd⟩ := h.derives.exists_start hi
  obtain ⟨index, label, ref, hl, hr, rfl⟩ := Specification.mem_inputs hs
  have htype : input.typeParameter.isSome = true := by
    rw [Input.cellPins, Input.pins] at hp
    rcases ht : input.typeParameter with _ | position
    · rw [ht] at hp
      cases hp
    · rfl
  obtain ⟨id, position, position', hid, htypeId, hhash, hpins⟩ := hd.exists_pins rfl htype
  have hslot : input.slot = index + 1 := hd.slot_eq
  rw [Input.cellPins, hpins, hslot] at hp
  have hid : schema.factTypeId label.type = some id := hid
  rcases List.mem_cons.mp hp with rfl | hp
  · refine ⟨_, ?_, htypeId⟩
    simp [Specification.valueOf, hl, hid]
  · rw [List.mem_singleton.mp hp]
    refine ⟨_, ?_, hhash⟩
    simp [Specification.valueOf, hr]

theorem exists_value_of_edge (h : plan.Allotted schema (spec.inputs schema start) roles)
    {edge : Edge} (he : edge ∈ plan.edgesWithin) :
    ∃ value, spec.valueOf schema start roles edge.pin.1 = some value ∧
      parameterAt plan.parameters edge.pin.2 = some value := by
  obtain ⟨role, id, hrole, hid, hparameter⟩ := h.holds edge he
  refine ⟨.integer id, ?_, hparameter⟩
  simp [Specification.valueOf, Edge.pin, hrole, hid]

variable {inputs : List Input}

/-- **A statement refers to every parameter of its page once.** -/
theorem positions_perm (h : plan.Allotted schema inputs roles)
    (hs : plan.statement bookmark = .ok statement) : statement.positions.Perm
      (List.range' 1 (plan.pageParameters bookmark limit).length) := by
  have hparameters := (map_snd_pins_perm hs).trans h.positions
  obtain ⟨-, root, joins, joined, absent, -, -, -, rfl⟩ := statement_eq_ok_iff.mp hs
  rw [length_pageParameters, ← List.range'_append_1, Statement.positions, List.append_assoc]
  refine hparameters.append ?_
  rw [Nat.add_comm 1]
  split_ifs <;> exact List.Perm.refl _

/-- **The placeholders of a page match its parameters.** -/
theorem matches_of_page (h : plan.Allotted schema (spec.inputs schema start) roles)
    {query : SqlQuery} (hp : plan.page bookmark limit = .ok query) :
    ∃ statement, plan.statement bookmark = .ok statement ∧
      (∀ edge ∈ plan.edgesWithin, edge.pin ∈ statement.pins) ∧
      query.Matches statement bookmark limit (spec.valueOf schema start roles) := by
  obtain ⟨statement, hs, hquery⟩ := Except.bind_eq_ok_iff.mp hp
  obtain rfl := Except.pure_eq_ok_iff.mp hquery
  have hpins := pins_perm_of_statement hs
  have hlimit : statement.limit = (plan.pageParameters bookmark limit).length :=
    limit_of_statement hs
  refine ⟨statement, hs, fun edge he => ?_, rfl, ?_, ?_, ⟨hlimit, parameterAt_limit⟩, fun hb => ?_,
    fun pin hm => ?_⟩
  · exact hpins.mem_iff.mpr (List.mem_append_right _ (List.mem_map_of_mem he))
  · rw [Statement.placeholdersIn_render]
    exact (h.positions_perm hs).map _
  · show ∃ text, statement.render =
      text ++ " LIMIT " ++ placeholder (plan.pageParameters bookmark limit).length
    rw [← hlimit]
    exact statement.exists_render_eq
  · have hlength : (plan.pageParameters bookmark limit).length - 1 =
        plan.parameters.length + 1 := by
      rw [length_pageParameters, hb]
      rfl
    obtain ⟨-, _, _, _, _, -, -, -, rfl⟩ := statement_eq_ok_iff.mp hs
    refine ⟨?_, ?_⟩
    · show (if bookmark.isStart then none else some (plan.parameters.length + 1)) = _
      rw [hb, hlength]
      rfl
    · show parameterAt (plan.pageParameters bookmark limit) _ = _
      rw [hlength, parameterAt_bookmark hb]
  · have hvalue : ∃ value, spec.valueOf schema start roles pin.1 = some value ∧
        parameterAt plan.parameters pin.2 = some value := by
      rcases List.mem_append.mp (hpins.mem_iff.mp hm) with hm | hm
      · obtain ⟨input, hi, hm⟩ := List.mem_flatMap.mp hm
        exact h.exists_value_of_input hi hm
      · obtain ⟨edge, he, rfl⟩ := List.mem_map.mp hm
        exact h.exists_value_of_edge he
    obtain ⟨value, hv, hparameter⟩ := hvalue
    exact ⟨value, hv, parameterAt_of_prefix parameters_prefix_pageParameters hparameter⟩

end Allotted

end Plan

namespace Specification

variable {spec : Specification} {schema : Schema} {start : List FactReference}
  {bookmarks : List FactBookmark} {limit : Nat} {queries : List SqlQuery}

theorem exists_tracedPlans {plans : List Plan} (h : spec.plans schema start = .ok plans) :
    ∃ traceds, spec.tracedPlans schema start = .ok traceds ∧
      traceds.map TracedPlan.plan = plans := by
  rw [← map_tracedPlans] at h
  rcases ht : spec.tracedPlans schema start with e | traceds <;> rw [ht] at h <;> cases h
  exact ⟨traceds, rfl, rfl⟩

/-- The pages of a specification are those of the traced plans that select something. -/
theorem forall₂_page_of_pages (h : spec.pages schema start bookmarks limit = .ok queries) :
    ∃ plans, spec.tracedPlans schema start = .ok plans ∧
      List.Forall₂ (fun (traced, index) query =>
          traced.plan.page (bookmarks.getD index .start) limit = .ok query)
        (plans.filter fun traced => !traced.plan.outputs.isEmpty).zipIdx queries := by
  obtain ⟨plans, hp, hq⟩ := Except.bind_eq_ok_iff.mp h
  obtain ⟨traceds, ht, rfl⟩ := exists_tracedPlans hp
  refine ⟨traceds, ht, ?_⟩
  have hpages := (Except.mapM_succeeds _ _).spec queries hq
  rw [List.filter_map, List.zipIdx_map, List.forall₂_map_left_iff] at hpages
  exact hpages

/-- **The placeholders of every page match its parameters**, of whatever specification. -/
theorem placeholders_of_pages (h : spec.pages schema start bookmarks limit = .ok queries) :
    ∃ plans, spec.tracedPlans schema start = .ok plans ∧
      List.Forall₂ (fun (traced, index) query => ∃ statement,
          traced.plan.statement (bookmarks.getD index .start) = .ok statement ∧
          (∀ edge ∈ traced.plan.edgesWithin, edge.pin ∈ statement.pins) ∧
          query.Matches statement (bookmarks.getD index .start) limit
            (spec.valueOf schema start traced.roles))
        (plans.filter fun traced => !traced.plan.outputs.isEmpty).zipIdx queries := by
  obtain ⟨plans, hp, hpages⟩ := forall₂_page_of_pages h
  refine ⟨plans, hp, ?_⟩
  have hallotted : ∀ pair ∈ (plans.filter fun traced => !traced.plan.outputs.isEmpty).zipIdx,
      pair.1.plan.Allotted schema (spec.inputs schema start) pair.1.roles := fun pair hm =>
    allotted_of_mem_tracedPlans hp _ (List.mem_of_mem_filter (List.fst_mem_of_mem_zipIdx hm))
  refine ((List.forall₂_and_left _ _).mpr ⟨hallotted, hpages⟩).imp ?_
  rintro ⟨traced, index⟩ query ⟨ha, hpage⟩
  exact ha.matches_of_page hpage

theorem placeholders_withoutDeletion : ∃ queries,
    (projectsWhere false [deletion]).pages Schema.single [⟨"Root", "r"⟩] [⟨[7, 5]⟩] 10 =
      .ok queries ∧ queries.length = 2 ∧ ∀ query ∈ queries,
        (placeholdersIn query.sql.toList).Perm
          ((List.range' 1 query.parameters.length).map placeholder) := by
  obtain ⟨queries, hpages, hlen⟩ : ∃ queries, (projectsWhere false [deletion]).pages Schema.single
      [⟨"Root", "r"⟩] [⟨[7, 5]⟩] 10 = .ok queries ∧ queries.length = 2 := by
    unfold pages
    rw [plans_withoutDeletion]
    exact ⟨_, rfl, rfl⟩
  refine ⟨queries, hpages, hlen, fun query hm => ?_⟩
  obtain ⟨plans, -, hmatch⟩ := placeholders_of_pages hpages
  obtain ⟨_, -, statement, -, -, hquery⟩ := Plan.exists_right_of_forall₂ hmatch.flip hm
  exact hquery.placeholders

end Specification

end FactGraph
