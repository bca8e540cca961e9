import FactGraph.Proofs.Paging
import FactGraph.Proofs.Plan.RoleNumbers
import FactGraph.Proofs.Statement.Evaluation

/-! # Pages of a plan

The pages of a plan are read one after the other: the first one without a bookmark, and every other
one with the cursor of the last row of the page before. A cursor consists of the ids of a row, but
does not say in which slots they stand. So the rows behind a bookmark leave out whatever rows have
the ids of the last one in other slots.

* `Plan.Allotted.answers_iff`: the pages of a plan are pages of its rows in the order of their
  cursors.
* `Specification.paging_complete_iff`: reading page by page is complete exactly if no row has the
  ids of another one. -/

namespace FactGraph

namespace Plan

variable {plan : Plan} {bookmark bookmark' : FactBookmark} {statement statement' : Statement}
  {limit : Nat} {db : Database} {schema : Schema} {inputs : List Input}
  {roles : List RoleDefinition}

/-! ### Answers -/

/-- A database answers the statement for a page of a plan. -/
def Answers (db : Database) (plan : Plan) (bookmark : FactBookmark) (limit : Nat)
    (page : List (List Int)) : Prop :=
  ∃ statement, plan.statement bookmark = .ok statement ∧
    statement.Answers db (plan.pageParameters bookmark limit) page

/-- **What is read page by page**, until a page is empty: every page but the first goes on behind
the cursor of the last row that was read. -/
inductive Reads (db : Database) (plan : Plan) (limit : Nat) :
    FactBookmark → List (List Int) → Prop where
  | done {bookmark : FactBookmark} : plan.Answers db bookmark limit [] →
    Reads db plan limit bookmark []
  | more {bookmark : FactBookmark} {page rest : List (List Int)} {last : List Int} :
    plan.Answers db bookmark limit page → page.getLast? = some last →
      Reads db plan limit ⟨cursor last⟩ rest → Reads db plan limit bookmark (page ++ rest)

/-- The bookmark decides neither whether a plan has a statement nor what it selects. -/
theorem exists_statement (h : plan.statement bookmark = .ok statement) (bookmark' : FactBookmark) :
    ∃ statement', plan.statement bookmark' = .ok statement' := by
  obtain ⟨ho, root, joins, joined, absent, hr, hj, ha, -⟩ := statement_eq_ok_iff.mp h
  exact ⟨_, statement_eq_ok_iff.mpr ⟨ho, root, joins, joined, absent, hr, hj, ha, rfl⟩⟩

theorem rows_eq_of_statement (h : plan.statement bookmark = .ok statement)
    (h' : plan.statement bookmark' = .ok statement') (parameters : List Parameter) :
    statement.rows db parameters = statement'.rows db parameters := by
  obtain ⟨-, root, joins, joined, absent, hr, hj, ha, rfl⟩ := statement_eq_ok_iff.mp h
  obtain ⟨-, root', joins', joined', absent', hr', hj', ha', rfl⟩ := statement_eq_ok_iff.mp h'
  obtain rfl : root = root' := Except.ok.inj (hr.symm.trans hr')
  obtain ⟨rfl, rfl⟩ : joins = joins' ∧ joined = joined' :=
    Prod.mk.inj (Except.ok.inj (hj.symm.trans hj'))
  obtain rfl : absent = absent' := Except.ok.inj (ha.symm.trans ha')
  rfl

theorem length_of_idsOf {combination : Combination} : ∀ {slots : List Nat} {row : List Int},
    idsOf slots combination = some row → row.length = slots.length
  | [], row, h => by
    cases h
    rfl
  | slot :: rest, row, h => by
    rw [idsOf, List.mapM_cons] at h
    simp only [Option.bind_eq_bind, Option.bind_eq_some_iff, Option.pure_def,
      Option.some_inj] at h
    obtain ⟨id, -, others, ho, rfl⟩ := h
    rw [List.length_cons, List.length_cons, length_of_idsOf ho]

theorem ne_nil_of_mem_rows (h : plan.statement bookmark = .ok statement)
    {parameters : List Parameter} {row : List Int} (hm : row ∈ statement.rows db parameters) :
    row ≠ [] := by
  obtain ⟨combination, -, hids⟩ := List.mem_filterMap.mp hm
  have hlength := length_of_idsOf hids
  obtain ⟨ho, root, joins, joined, absent, -, -, -, rfl⟩ := statement_eq_ok_iff.mp h
  rintro rfl
  rw [List.length_map] at hlength
  exact ho (List.length_eq_zero_iff.mp hlength.symm)

theorem parameterAt_append {parameters more : List Parameter} {position : Nat}
    (h : position ∈ List.range' 1 parameters.length) :
    parameterAt (parameters ++ more) position = parameterAt parameters position := by
  obtain ⟨h1, h2⟩ := List.mem_range'_1.mp h
  rcases position with _ | position
  · omega
  · exact List.getElem?_append_left (by omega)

namespace Allotted

/-- The bookmark and the limit stand behind the parameters to which cells are tied. -/
theorem agreeAt (h : plan.Allotted schema inputs roles)
    (hs : plan.statement bookmark = .ok statement) (bookmark' : FactBookmark) (limit : Nat) :
    AgreeAt (plan.pageParameters bookmark' limit) plan.parameters statement.pins := by
  intro pin hm
  have hposition : pin.2 ∈ List.range' 1 plan.parameters.length :=
    ((map_snd_pins_perm hs).trans h.positions).mem_iff.mp (List.mem_map_of_mem hm)
  rw [pageParameters, List.append_assoc]
  exact parameterAt_append hposition

theorem isBehind_iff (hs : plan.statement bookmark = .ok statement) {parameters : List Parameter}
    {row : List Int} (hm : row ∈ statement.rows db parameters) :
    statement.isBehind (plan.pageParameters bookmark limit) row = true ↔
      bookmark.factIds < cursor row := by
  have hne := ne_nil_of_mem_rows hs hm
  obtain ⟨-, root, joins, joined, absent, -, -, -, rfl⟩ := statement_eq_ok_iff.mp hs
  rw [Statement.isBehind]
  rcases hb : bookmark.isStart with _ | _
  · simp only [Bool.false_eq_true, if_false, parameterAt_bookmark hb, decide_eq_true_iff]
  · have hstart : bookmark.factIds = [] := List.isEmpty_iff.mp hb
    rw [hstart]
    exact iff_of_true rfl (nil_lt_cursor hne)

/-- **The pages of a plan are pages of its rows in the order of their cursors.** -/
theorem answers_iff (h : plan.Allotted schema inputs roles)
    (hs : plan.statement .start = .ok statement) {page : List (List Int)} :
    plan.Answers db bookmark limit page ↔
      IsPage cursor (statement.rows db plan.parameters) limit bookmark.factIds page := by
  obtain ⟨statement', hs'⟩ := exists_statement hs bookmark
  have hrows : statement'.rows db (plan.pageParameters bookmark limit) =
      statement.rows db plan.parameters := by
    rw [Statement.rows_congr (h.agreeAt hs' bookmark limit), rows_eq_of_statement hs' hs]
  have hbehind : ∀ row ∈ statement.rows db plan.parameters,
      statement'.isBehind (plan.pageParameters bookmark limit) row = true ↔
        bookmark.factIds < cursor row := fun row hm =>
    isBehind_iff hs' (rows_eq_of_statement hs' hs plan.parameters ▸ hm)
  have hlimit : parameterAt (plan.pageParameters bookmark limit) statement'.limit =
      some (.integer limit) := by
    rw [limit_of_statement hs']
    exact parameterAt_limit
  rw [IsPage.iff_of_test hbehind]
  constructor
  · rintro ⟨found, hf, ordered, count, hperm, hsorted, hcount, rfl⟩
    obtain rfl : statement' = found := Except.ok.inj (hs'.symm.trans hf)
    rw [hrows] at hperm
    obtain rfl : (limit : Int) = count :=
      Parameter.integer.inj (Option.some_inj.mp (hlimit.symm.trans hcount))
    exact ⟨ordered, hperm, hsorted, rfl⟩
  · rintro ⟨ordered, hperm, hsorted, rfl⟩
    refine ⟨statement', hs', ordered, limit, ?_, hsorted, hlimit, rfl⟩
    rw [hrows]
    exact hperm

/-- Reading a plan page by page is reading its rows in the order of their cursors. -/
theorem reads_iff (h : plan.Allotted schema inputs roles)
    (hs : plan.statement .start = .ok statement) {read : List (List Int)} :
    plan.Reads db limit bookmark read ↔
      Reading cursor (statement.rows db plan.parameters) limit bookmark.factIds read := by
  constructor
  · intro hread
    induction hread with
    | done hpage => exact .done ((h.answers_iff hs).mp hpage)
    | more hpage hlast _ ih => exact .more ((h.answers_iff hs).mp hpage) hlast ih
  · have hreads : ∀ {mark : List Int} {read : List (List Int)},
        Reading cursor (statement.rows db plan.parameters) limit mark read →
          plan.Reads db limit ⟨mark⟩ read := by
      intro mark read hread
      induction hread with
      | done hpage => exact .done ((h.answers_iff hs).mpr hpage)
      | more hpage hlast _ ih => exact .more ((h.answers_iff hs).mpr hpage) hlast ih
    exact hreads

theorem exists_reads (h : plan.Allotted schema inputs roles)
    (hs : plan.statement .start = .ok statement) (hn : 1 ≤ limit) (db : Database)
    (bookmark : FactBookmark) : ∃ read, plan.Reads db limit bookmark read := by
  obtain ⟨read, hread⟩ := Reading.exists_reading hn bookmark.factIds
  exact ⟨read, (h.reads_iff hs).mpr hread⟩

theorem eq_of_reads (h : plan.Allotted schema inputs roles)
    (hs : plan.statement .start = .ok statement) {read : List (List Int)}
    (hread : plan.Reads db 1 bookmark read) {row row' : List Int} (hr : row ∈ read)
    (hr' : row' ∈ read) (he : row.Perm row') : row = row' :=
  ((h.reads_iff hs).mp hread).eq_of_key_eq hr hr' (cursor_eq_iff.mpr he)

end Allotted

end Plan

/-! ### Completeness -/

namespace Specification

variable {spec : Specification} {schema : Schema} {start : List FactReference} {plans : List Plan}
  {plan : Plan} {statement : Statement}

theorem exists_allotted_of_mem_plans (h : spec.plans schema start = .ok plans) (hm : plan ∈ plans) :
    ∃ roles, plan.Allotted schema (spec.inputs schema start) roles := by
  obtain ⟨traceds, ht, rfl⟩ := exists_tracedPlans h
  obtain ⟨traced, hmem, rfl⟩ := List.mem_map.mp hm
  exact ⟨traced.roles, allotted_of_mem_tracedPlans ht traced hmem⟩

/-- **Reading a plan page by page comes to an end and finds every row, whatever the limit, exactly
if no row has the ids of another one.** -/
theorem paging_complete_iff (hp : spec.plans schema start = .ok plans) (hm : plan ∈ plans)
    (hs : plan.statement .start = .ok statement) (db : Database) :
    (∀ limit, 1 ≤ limit → (∃ read, plan.Reads db limit .start read) ∧
      ∀ read, plan.Reads db limit .start read →
        ∀ row ∈ statement.rows db plan.parameters, row ∈ read) ↔
      ∀ row ∈ statement.rows db plan.parameters, ∀ row' ∈ statement.rows db plan.parameters,
        row.Perm row' → row = row' := by
  obtain ⟨roles, hallotted⟩ := exists_allotted_of_mem_plans hp hm
  have hbehind : ∀ row ∈ statement.rows db plan.parameters, [] < cursor row := fun row hrow =>
    nil_lt_cursor (Plan.ne_nil_of_mem_rows hs hrow)
  simp only [hallotted.reads_iff hs, ← cursor_eq_iff]
  exact reading_complete_iff hbehind

/-- A root with two projects. -/
def storedProjects : Database :=
  ⟨[⟨1, 1, "r"⟩, ⟨2, 1, "m"⟩, ⟨3, 1, "n"⟩], [⟨1, 2, 1⟩, ⟨1, 3, 1⟩]⟩

theorem paging_complete_undeletedPlan : ∃ statement,
    undeletedPlan.statement .start = .ok statement ∧
    statement.rows storedProjects undeletedPlan.parameters = [[2], [3]] ∧
    ∃ read, undeletedPlan.Reads storedProjects 1 .start read ∧ [2] ∈ read ∧ [3] ∈ read := by
  obtain ⟨statement, hs, hrows⟩ : ∃ statement, undeletedPlan.statement .start = .ok statement ∧
      statement.rows storedProjects undeletedPlan.parameters = [[2], [3]] :=
    ⟨_, rfl, by decide +kernel⟩
  have hm : undeletedPlan ∈ [deletedPlan, undeletedPlan] := by simp
  have hcomplete := (paging_complete_iff plans_withoutDeletion hm hs storedProjects).mpr
    (by rw [hrows]; decide)
  obtain ⟨⟨read, hread⟩, hall⟩ := hcomplete 1 le_rfl
  rw [hrows] at hall
  have hread' := hall read hread
  exact ⟨statement, hs, hrows, read, hread, hread' _ (by simp), hread' _ (by simp)⟩

/-- Roots, and nodes that name them. -/
def rootsAndNodes : Catalog := ⟨[("Root", 1), ("Node", 2)], [(2, [("root", 1)])]⟩

/-- A root that two nodes name. -/
def twoNodes : Database :=
  ⟨[⟨1, 1, "r"⟩, ⟨2, 2, "m"⟩, ⟨3, 2, "n"⟩], [⟨1, 2, 1⟩, ⟨1, 3, 1⟩]⟩

theorem consistent_twoNodes : twoNodes.Consistent where
  ids := by decide
  facts := by decide
  edges := by decide
  ends := by decide

/-- **Not everything is found page by page**: of the pairs of nodes that name a root, both orders
have one cursor. -/
theorem not_forall_paging_complete : ¬ ∀ (spec : Specification) (schema : Schema)
    (start : List FactReference) (plans : List Plan) (plan : Plan) (statement : Statement)
    (db : Database) (limit : Nat) (read : List (List Int)), spec.Accepted →
    spec.plans schema start = .ok plans → plan ∈ plans → plan.statement .start = .ok statement →
    db.Consistent → 1 ≤ limit → plan.Reads db limit .start read →
      ∀ row ∈ statement.rows db plan.parameters, row ∈ read := by
  intro h
  have haccepted : (referrers "Root" "Node" "root" "Node" "root").Accepted :=
    accepted_of_isPrintable check_referrers rfl
  have htraced := @tracedPlans_referrers "Root" "Node" "root" "Node" "root" rootsAndNodes.schema
    1 1 1 rfl rfl rfl
  have hplans : (referrers "Root" "Node" "root" "Node" "root").plans rootsAndNodes.schema
      [⟨"Root", "r"⟩] = .ok [referrersPlan "Node" "Node" "Root" 1 1 1] := by
    rw [← map_tracedPlans, htraced]
    rfl
  obtain ⟨statement, hs, hrows⟩ : ∃ statement,
      (referrersPlan "Node" "Node" "Root" 1 1 1).statement .start = .ok statement ∧
      statement.rows twoNodes (referrersPlan "Node" "Node" "Root" 1 1 1).parameters =
        [[2, 2], [2, 3], [3, 2], [3, 3]] :=
    ⟨_, rfl, by decide +kernel⟩
  have hallotted := allotted_of_mem_tracedPlans htraced _ List.mem_cons_self
  obtain ⟨read, hread⟩ := hallotted.exists_reads hs le_rfl twoNodes .start
  have hall := h _ _ _ _ _ _ twoNodes 1 read haccepted hplans List.mem_cons_self hs
    consistent_twoNodes le_rfl hread
  rw [hrows] at hall
  have heq : ([2, 3] : List Int) = [3, 2] :=
    hallotted.eq_of_reads hs hread (hall _ (by simp)) (hall _ (by simp)) (List.Perm.swap 3 2 [])
  exact absurd heq (by decide)

end Specification

end FactGraph
