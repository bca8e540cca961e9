import FactGraph.Proofs.Plan.Selections
import FactGraph.Statement.OfPlan

/-! # The columns of statements

The columns of a statement have the names that its plan selects. The dotted stems of projections
keep names apart only as long as labels have no dots of their own, and nothing keeps the labels of
two positive existential blocks apart.

* `Specification.sublist_of_pages`: a statement selects what the text of its specification says.
* `Specification.columns_nodup`: the columns of all statements have different names if every name is
  new where it is selected, and only then if the catalog drops nothing. -/

namespace FactGraph.Specification

variable {schema : Schema} {spec : Specification} {start : List FactReference}
  {bookmarks : List FactBookmark} {limit : Nat} {queries : List SqlQuery}

theorem names_of_page {plan : Plan} {bookmark : FactBookmark} {query : SqlQuery}
    (h : plan.page bookmark limit = .ok query) :
    query.columns.map ResultColumn.name = plan.names := by
  obtain ⟨statement, -, h⟩ := Except.bind_eq_ok_iff.mp h
  obtain rfl := Except.ok.inj h
  rw [Plan.columns, List.map_map, Plan.names]
  rfl

/-- **A statement selects what the text of its specification says**, and every statement is there if
the catalog knows everything that is mentioned. -/
theorem sublist_of_pages (hc : spec.check = .ok ())
    (h : spec.pages schema start bookmarks limit = .ok queries) :
    (queries.map fun query => query.columns.map ResultColumn.name).Sublist
        (spec.selections.filter fun names => !names.isEmpty) ∧
      (spec.KnownTo schema → (queries.map fun query => query.columns.map ResultColumn.name) =
        spec.selections.filter fun names => !names.isEmpty) := by
  obtain ⟨plans, hp, hq⟩ := Except.bind_eq_ok_iff.mp h
  obtain ⟨hplans, hall⟩ := sublist_of_plans hc hp
  have hqueries : (queries.map fun query => query.columns.map ResultColumn.name) =
      (plans.map Plan.names).filter fun names => !names.isEmpty := by
    have hpages := (Except.mapM_succeeds _ _).spec queries hq
    have hselecting : (fun plan : Plan => !plan.outputs.isEmpty) =
        (fun names => !names.isEmpty) ∘ Plan.names :=
      funext fun plan => congrArg (!·) List.isEmpty_map.symm
    rw [Plan.map_eq_of_forall₂ (g := fun query => query.columns.map ResultColumn.name)
      (f := Plan.names ∘ Prod.fst) (fun _ _ hpage => names_of_page hpage) hpages,
      ← List.map_map, List.zipIdx_map_fst, hselecting, List.filter_map]
  rw [hqueries]
  exact ⟨hplans.filter _, fun hk => by rw [hall hk]⟩

/-- **The columns of every statement have different names if every name is new where it is
selected**, and only then if the catalog knows everything that is mentioned. -/
theorem columns_nodup (ha : spec.Accepted)
    (h : spec.pages schema start bookmarks limit = .ok queries) :
    (spec.namesApart = true → ∀ query ∈ queries, (query.columns.map ResultColumn.name).Nodup) ∧
      (spec.KnownTo schema → (∀ query ∈ queries, (query.columns.map ResultColumn.name).Nodup) →
        spec.namesApart = true) := by
  obtain ⟨hsub, hall⟩ := sublist_of_pages ha.check h
  rw [namesApart_iff]
  refine ⟨fun hn query hm => ?_, fun hk hn selection hm => ?_⟩
  · exact hn _ (List.mem_of_mem_filter (hsub.subset (List.mem_map_of_mem hm)))
  · rcases selection with _ | ⟨name, names⟩
    · exact List.nodup_nil
    · have hmem := hall hk ▸ List.mem_filter.mpr ⟨hm, rfl⟩
      obtain ⟨query, hquery, hnames⟩ := List.mem_map.mp hmem
      exact hnames ▸ hn query hquery

theorem columns_nodup_membersOfProjects : membersOfProjects.namesApart = true ∧ ∃ queries,
    membersOfProjects.pages Schema.single [⟨"Root", "r"⟩] [] 10 = .ok queries ∧
      queries.length = 3 ∧ ∀ query ∈ queries, (query.columns.map ResultColumn.name).Nodup := by
  have hapart : membersOfProjects.namesApart = true := by decide +kernel
  have hlength : (do
      let queries ← membersOfProjects.pages Schema.single [⟨"Root", "r"⟩] [] 10
      return queries.length) = .ok 3 := by decide +kernel
  obtain ⟨queries, hq, hlength⟩ := Except.bind_eq_ok_iff.mp hlength
  exact ⟨hapart, queries, hq, Except.ok.inj hlength,
    (columns_nodup (accepted_of_isPrintable rfl rfl) hq).1 hapart⟩

/-- Projects with their deletions and their archivals, under the same label. -/
def deletedAndArchived : Specification :=
  ⟨[⟨"root", "Root"⟩], [⟨⟨"p", "Project"⟩, [.path ⟨[⟨"root", "Root"⟩], "root", []⟩,
    .existential true [referring "d" "Deleted" "project" "p" "Project"],
    .existential true [referring "d" "Archived" "project" "p" "Project"]]⟩], []⟩

theorem accepted_deletedAndArchived : deletedAndArchived.Accepted :=
  accepted_of_isPrintable rfl rfl

/-- **Not every statement of an accepted specification has columns with different names.** -/
theorem not_forall_columns_nodup : ¬ ∀ (spec : Specification) (schema : Schema)
    (start : List FactReference) (bookmarks : List FactBookmark) (limit : Nat)
    (queries : List SqlQuery), spec.Accepted →
    start.map FactReference.type = spec.given.map Label.type →
    spec.pages schema start bookmarks limit = .ok queries →
      ∀ query ∈ queries, (query.columns.map ResultColumn.name).Nodup := by
  intro h
  have hpages : (deletedAndArchived.pages Schema.single [⟨"Root", "r"⟩] [] 10).map
      (List.map fun query => query.columns.map ResultColumn.name) = .ok [["p", "d", "d"]] := by
    decide +kernel
  obtain ⟨queries, hq, hnames⟩ : ∃ queries, deletedAndArchived.pages Schema.single
      [⟨"Root", "r"⟩] [] 10 = .ok queries ∧
        (queries.map fun query => query.columns.map ResultColumn.name) = [["p", "d", "d"]] := by
    rcases hq : deletedAndArchived.pages Schema.single [⟨"Root", "r"⟩] [] 10 with e | queries <;>
      rw [hq] at hpages
    · cases hpages
    · exact ⟨queries, rfl, Except.ok.inj hpages⟩
  have hnodup := h _ _ _ _ _ queries accepted_deletedAndArchived rfl hq
  have hcolumns : ∀ names ∈ [["p", "d", "d"]], names.Nodup :=
    hnames ▸ List.forall_mem_map.mpr hnodup
  exact absurd hcolumns (by decide)

end FactGraph.Specification
