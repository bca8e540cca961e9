import FactGraph.Proofs.Plan.Blank
import FactGraph.Proofs.Statement.Rendering

/-! # Statements without data

A statement refers to values by their positions only. So its text depends on what a specification
says, on the names that the catalog knows, and on whether its bookmark stands before the first row;
the numbers, the hashes, the bookmarks' contents and the limit only go into the parameters. The text
can be prepared once and be used with all of them.

* `Plan.statement_congr`: what a statement is made of.
* `Plan.page_blank`: the pages of plans that are alike.
* `Specification.pages_blank`: the pages of a specification. -/

namespace FactGraph

/-- A query without the values of its parameters. -/
def SqlQuery.blank (query : SqlQuery) : SqlQuery :=
  { query with parameters := query.parameters.map Parameter.blank }

namespace Plan

variable {plan plan' : Plan} {bookmark bookmark' : FactBookmark} {limit limit' : Nat}

/-- What a statement says about an input: its slot and the positions of its parameters. -/
def Input.place (input : Input) : Nat × Option Nat × Option Nat :=
  (input.slot, input.typeParameter, input.hashParameter)

theorem root_congr (he : plan.edges = plan'.edges)
    (hi : plan.inputs.map Input.place = plan'.inputs.map Input.place) : plan.root = plan'.root := by
  have hany : ∀ (inputs : List Input) (slot : Nat), (inputs.any fun input => input.slot == slot) =
      (inputs.map Input.place).any fun place => place.1 == slot := by
    intro inputs slot
    rw [List.any_map]
    rfl
  have hfind : ∀ inputs : List Input,
      (inputs.find? fun input => input.typeParameter.isSome).map Input.place =
        (inputs.map Input.place).find? fun place => place.2.1.isSome := by
    intro inputs
    rw [List.find?_map]
    rfl
  unfold root
  simp only [he, hany, hi]
  rcases plan'.edges with _ | ⟨edge, rest⟩
  · have hplace := (hfind plan.inputs).trans ((congrArg _ hi).trans (hfind plan'.inputs).symm)
    rcases option_cases_of_map_eq hplace with ⟨hp, hp'⟩ | ⟨input, input', hp, hp', hslot⟩
    · rw [hp, hp']
    · rw [hp, hp']
      exact congrArg Except.ok (Prod.mk.inj hslot).1
  · rfl

/-- **What a statement is made of**: edges, groups, the selected slots, the places of the inputs,
the number of parameters, and whether there is a bookmark. -/
theorem statement_congr (he : plan.edges = plan'.edges) (hg : plan.groups = plan'.groups)
    (ho : plan.outputs.map Output.slot = plan'.outputs.map Output.slot)
    (hi : plan.inputs.map Input.place = plan'.inputs.map Input.place)
    (hp : plan.parameters.length = plan'.parameters.length)
    (hb : bookmark.isStart = bookmark'.isStart) :
    plan.statement bookmark = plan'.statement bookmark' := by
  have hempty : plan.outputs.isEmpty = plan'.outputs.isEmpty := by
    rw [← List.isEmpty_map (f := Output.slot), ho, List.isEmpty_map]
  have hpinned : ∀ inputs : List Input, inputs.flatMap Input.pins =
      (inputs.map Input.place).flatMap fun place =>
        Input.pins ⟨"", place.1, none, "", place.2.1, place.2.2⟩ := by
    intro inputs
    rw [List.flatMap_map]
    rfl
  have hpins : plan.inputs.flatMap Input.pins = plan'.inputs.flatMap Input.pins := by
    rw [hpinned, hi, ← hpinned]
  unfold statement
  rw [root_congr he hi, hempty, hpins, he, hg, ho, hp, hb]

theorem statement_blank (h : plan.blank = plan'.blank) (hb : bookmark.isStart = bookmark'.isStart) :
    plan.statement bookmark = plan'.statement bookmark' := by
  have hplace : ∀ plan : Plan, plan.blank.inputs.map Input.place = plan.inputs.map Input.place := by
    intro plan
    rw [blank, List.map_map]
    rfl
  have hparameters : ∀ plan : Plan, plan.blank.parameters.length = plan.parameters.length :=
    fun plan => List.length_map _
  have hedges : plan.blank.edges = plan'.blank.edges := congrArg edges h
  have hgroups : plan.blank.groups = plan'.blank.groups := congrArg groups h
  have houtputs : plan.blank.outputs = plan'.blank.outputs := congrArg outputs h
  refine statement_congr hedges hgroups (congrArg (List.map Output.slot) houtputs) ?_ ?_ hb
  · rw [← hplace, h, hplace]
  · rw [← hparameters, h, hparameters]

theorem pageParameters_blank (h : plan.blank = plan'.blank)
    (hb : bookmark.isStart = bookmark'.isStart) :
    (plan.pageParameters bookmark limit).map Parameter.blank =
      (plan'.pageParameters bookmark' limit').map Parameter.blank := by
  have hparameters : plan.parameters.map Parameter.blank = plan'.parameters.map Parameter.blank :=
    congrArg parameters h
  unfold pageParameters
  simp only [List.map_append, hparameters, hb]
  split_ifs <;> rfl

/-- **The pages of plans that are alike have the same text.** -/
theorem page_blank (h : plan.blank = plan'.blank) (hb : bookmark.isStart = bookmark'.isStart) :
    (plan.page bookmark limit).map SqlQuery.blank =
      (plan'.page bookmark' limit').map SqlQuery.blank := by
  have hstatement : (plan.statement bookmark).map id = (plan'.statement bookmark').map id := by
    rw [statement_blank h hb]
  refine Except.map_bind_congr hstatement fun statement statement' hs => ?_
  show Except.ok (SqlQuery.mk statement.render
      ((plan.pageParameters bookmark limit).map Parameter.blank) plan.blank.columns) =
    Except.ok (SqlQuery.mk statement'.render
      ((plan'.pageParameters bookmark' limit').map Parameter.blank) plan'.blank.columns)
  rw [show statement = statement' from hs, pageParameters_blank h hb, h]

end Plan

theorem forall₂_selecting_blank {plans plans' : List Plan}
    (h : plans.map Plan.blank = plans'.map Plan.blank) :
    List.Forall₂ (fun entry entry' : Plan × Nat => entry.1.blank = entry'.1.blank ∧
        entry.2 = entry'.2)
      (plans.filter fun plan => !plan.outputs.isEmpty).zipIdx
      (plans'.filter fun plan => !plan.outputs.isEmpty).zipIdx := by
  have hselecting : ∀ plans : List Plan,
      (plans.filter fun plan => !plan.outputs.isEmpty).zipIdx.map (Prod.map Plan.blank id) =
        ((plans.map Plan.blank).filter fun plan => !plan.outputs.isEmpty).zipIdx := by
    intro plans
    rw [List.filter_map, List.zipIdx_map]
    rfl
  have hequal := hselecting plans
  rw [h, ← hselecting plans'] at hequal
  rw [← List.forall₂_eq_eq_eq, List.forall₂_map_left_iff, List.forall₂_map_right_iff] at hequal
  exact hequal.imp fun _ _ he => Prod.ext_iff.mp he

/-- Another catalog that gives everything one number. -/
def Schema.others : Schema := ⟨fun _ => some 7, fun _ _ => some 8⟩

namespace Specification

/-- **The text of a specification's pages carries no data.** -/
theorem pages_blank {schema schema' : Schema} (hs : schema.Alike schema')
    {start start' : List FactReference}
    (ht : start.map FactReference.type = start'.map FactReference.type)
    {bookmarks bookmarks' : List FactBookmark}
    (hb : ∀ index, (bookmarks.getD index .start).isStart = (bookmarks'.getD index .start).isStart)
    (spec : Specification) (limit limit' : Nat) :
    (spec.pages schema start bookmarks limit).map (List.map SqlQuery.blank) =
      (spec.pages schema' start' bookmarks' limit').map (List.map SqlQuery.blank) := by
  refine Except.map_bind_congr (plans_blank hs ht) fun plans plans' hp => ?_
  refine Except.map_mapM_congr ((forall₂_selecting_blank hp).imp ?_)
  rintro ⟨plan, index⟩ ⟨plan', index'⟩ ⟨hplan, rfl⟩
  exact Plan.page_blank hplan (hb _)

theorem pages_blank_withoutDeletion : ∃ queries queries',
    (projectsWhere false [deletion]).pages Schema.single [⟨"Root", "r"⟩] [⟨[7, 5]⟩] 10 =
      .ok queries ∧
    (projectsWhere false [deletion]).pages Schema.others [⟨"Root", "s"⟩] [⟨[6]⟩] 100 =
      .ok queries' ∧
    queries.length = 2 ∧ queries.map SqlQuery.blank = queries'.map SqlQuery.blank := by
  have hs : Schema.single.Alike Schema.others := ⟨fun _ => rfl, fun _ _ => rfl⟩
  have hb : ∀ index, (List.getD [⟨[7, 5]⟩] index FactBookmark.start).isStart =
      (List.getD [⟨[6]⟩] index FactBookmark.start).isStart := by
    intro index
    rcases index with _ | index <;> rfl
  obtain ⟨queries, hpages, hlength⟩ : ∃ queries, (projectsWhere false [deletion]).pages
      Schema.single [⟨"Root", "r"⟩] [⟨[7, 5]⟩] 10 = .ok queries ∧ queries.length = 2 := by
    unfold pages
    rw [plans_withoutDeletion]
    exact ⟨_, rfl, rfl⟩
  have halike := @pages_blank _ _ hs [⟨"Root", "r"⟩] [⟨"Root", "s"⟩] rfl _ _ hb
    (projectsWhere false [deletion]) 10 100
  obtain ⟨a, b, ha, hb, he⟩ | ⟨e, he, -⟩ := Except.map_eq_map_iff.mp halike
  · obtain rfl : queries = a := Except.ok.inj (hpages.symm.trans ha)
    exact ⟨queries, b, hpages, hb, hlength, he⟩
  · rw [hpages] at he
    cases he

end Specification

end FactGraph
