import FactGraph.Proofs.Plan.Abreast
import FactGraph.Proofs.Plan.Count
import FactGraph.Proofs.Plan.Layout

/-! # What plans select

A plan selects the unknowns of the matches that are joined in its unconditional branch: those of the
matches themselves, of positive existential blocks, and of nested projections under a dotted stem.
`Specification.selections` reads off the text of a specification which names its plans select. The
labels of a block are checked against those around it only, so blocks beside each other may select
the same name.

* `Specification.namesApart_iff`: no plan selects a name twice exactly if every name is new where it
  is selected.
* `Specification.sublist_of_plans`: the plans select what the text says, and none is missing if the
  catalog knows everything that is mentioned. -/

namespace FactGraph

/-! ### Selected names -/

mutual

/-- The names that a condition on an unknown selects, in a branch that selects its labels under a
stem, or none at all. -/
def Condition.selected (stem : Option String) (unknown : Label) : Condition → List String
  | .path _ => (stem.map (· ++ unknown.name)).toList
  | .existential true block => Match.selectedAll stem block
  | .existential false _ => []

/-- The names that matches select. -/
def Match.selectedAll (stem : Option String) : List Match → List String
  | [] => []
  | ⟨unknown, conditions⟩ :: rest =>
    Condition.selectedAll stem unknown conditions ++ Match.selectedAll stem rest

def Condition.selectedAll (stem : Option String) (unknown : Label) : List Condition → List String
  | [] => []
  | condition :: rest =>
    condition.selected stem unknown ++ Condition.selectedAll stem unknown rest

end

mutual

/-- The names that are selected by each of the plans that a condition completes, behind those that
are selected `before` it. -/
def Condition.selections (stem : Option String) (before : List String) :
    Condition → List (List String)
  | .path _ => []
  | .existential true block => Match.selectionsAll stem before block
  | .existential false block =>
    Match.selectionsAll stem before block ++ (before ++ Match.selectedAll stem block) ::
      Match.selectionsAll none before block

/-- The names that are selected by each of the plans that matches complete. -/
def Match.selectionsAll (stem : Option String) (before : List String) :
    List Match → List (List String)
  | [] => []
  | ⟨unknown, conditions⟩ :: rest =>
    Condition.selectionsAll stem unknown before conditions ++
      Match.selectionsAll stem (before ++ Condition.selectedAll stem unknown conditions) rest

def Condition.selectionsAll (stem : Option String) (unknown : Label) (before : List String) :
    List Condition → List (List String)
  | [] => []
  | condition :: rest =>
    condition.selections stem before ++
      Condition.selectionsAll stem unknown (before ++ condition.selected stem unknown) rest

end

mutual

/-- The names that are selected by each of the plans for a projection. -/
def Projection.selections (stem : String) (before : List String) :
    Projection → List (List String)
  | .nested name block projections =>
    let stem := stem ++ name ++ "."
    let names := before ++ Match.selectedAll (some stem) block
    Match.selectionsAll (some stem) before block ++
      names :: Projection.selectionsAll stem names projections
  | _ => []

def Projection.selectionsAll (stem : String) (before : List String) :
    List Projection → List (List String)
  | [] => []
  | projection :: rest =>
    projection.selections stem before ++ Projection.selectionsAll stem before rest

end

/-- The names that are selected by each of the plans of a specification. -/
def Specification.selections (spec : Specification) : List (List String) :=
  let names := Match.selectedAll (some "") spec.body
  Match.selectionsAll (some "") [] spec.body ++
    names :: Projection.selectionsAll "" names spec.projections

/-! ### Names apart -/

mutual

/-- A condition selects nothing, in whatever plan, under a name that is taken. -/
def Condition.namesApart (stem : String) (unknown : Label) (taken : List String) :
    Condition → Bool
  | .path _ => !taken.contains (stem ++ unknown.name)
  | .existential _ block => Match.allNamesApart stem taken block

/-- Matches select nothing under a name that is taken, before them or by one of them. -/
def Match.allNamesApart (stem : String) (taken : List String) : List Match → Bool
  | [] => true
  | ⟨unknown, conditions⟩ :: rest =>
    Condition.allNamesApart stem unknown taken conditions &&
      Match.allNamesApart stem (taken ++ Condition.selectedAll (some stem) unknown conditions) rest

def Condition.allNamesApart (stem : String) (unknown : Label) (taken : List String) :
    List Condition → Bool
  | [] => true
  | condition :: rest =>
    condition.namesApart stem unknown taken &&
      Condition.allNamesApart stem unknown (taken ++ condition.selected (some stem) unknown) rest

end

mutual

/-- A projection selects nothing under a name that is taken. -/
def Projection.namesApart (stem : String) (taken : List String) : Projection → Bool
  | .nested name block projections =>
    let stem := stem ++ name ++ "."
    Match.allNamesApart stem taken block &&
      Projection.allNamesApart stem (taken ++ Match.selectedAll (some stem) block) projections
  | _ => true

def Projection.allNamesApart (stem : String) (taken : List String) : List Projection → Bool
  | [] => true
  | projection :: rest =>
    projection.namesApart stem taken && Projection.allNamesApart stem taken rest

end

/-- **Every name is new where it is selected**: no unknown has the name, with its stem, of one that
is selected before it, in a match, in a positive existential block or in a projection around it. -/
def Specification.namesApart (spec : Specification) : Bool :=
  Match.allNamesApart "" [] spec.body &&
    Projection.allNamesApart "" (Match.selectedAll (some "") spec.body) spec.projections

mutual

theorem Condition.selected_none {unknown : Label} : ∀ {condition : Condition},
    condition.selected none unknown = []
  | .path _ => rfl
  | .existential true _ => Match.selectedAll_none
  | .existential false _ => rfl

theorem Match.selectedAll_none : ∀ {block : List Match}, Match.selectedAll none block = []
  | [] => rfl
  | ⟨unknown, conditions⟩ :: rest => by
    rw [Match.selectedAll, Condition.selectedAll_none, Match.selectedAll_none, List.append_nil]

theorem Condition.selectedAll_none {unknown : Label} : ∀ {conditions : List Condition},
    Condition.selectedAll none unknown conditions = []
  | [] => rfl
  | condition :: rest => by
    rw [Condition.selectedAll, Condition.selected_none, Condition.selectedAll_none,
      List.append_nil]

end

mutual

theorem Condition.eq_of_mem_selections {before names : List String} : ∀ {condition : Condition},
    names ∈ condition.selections none before → names = before
  | .path _, h => absurd h List.not_mem_nil
  | .existential true _, h => Match.eq_of_mem_selectionsAll h
  | .existential false block, h => by
    rw [Condition.selections, Match.selectedAll_none, List.append_nil, List.mem_append,
      List.mem_cons] at h
    exact h.elim Match.eq_of_mem_selectionsAll fun h => h.elim id Match.eq_of_mem_selectionsAll

theorem Match.eq_of_mem_selectionsAll {before names : List String} : ∀ {block : List Match},
    names ∈ Match.selectionsAll none before block → names = before
  | [], h => absurd h List.not_mem_nil
  | ⟨unknown, conditions⟩ :: rest, h => by
    rw [Match.selectionsAll, Condition.selectedAll_none, List.append_nil] at h
    exact (List.mem_append.mp h).elim Condition.eq_of_mem_selectionsAll
      Match.eq_of_mem_selectionsAll

theorem Condition.eq_of_mem_selectionsAll {before names : List String} {unknown : Label} :
    ∀ {conditions : List Condition},
      names ∈ Condition.selectionsAll none unknown before conditions → names = before
  | [], h => absurd h List.not_mem_nil
  | condition :: rest, h => by
    rw [Condition.selectionsAll, Condition.selected_none, List.append_nil] at h
    exact (List.mem_append.mp h).elim Condition.eq_of_mem_selections
      Condition.eq_of_mem_selectionsAll

end

/-- No plan selects a name twice, of those that are completed on the way and the one behind them. -/
def Apart (selections : List (List String)) (names : List String) : Prop :=
  (∀ selection ∈ selections, selection.Nodup) ∧ names.Nodup

theorem and_iff_apart_append {a b : List (List String)} {names more : List String} {p q : Bool}
    (hp : p = true ↔ Apart a names) (hq : names.Nodup → (q = true ↔ Apart b (names ++ more))) :
    (p && q) = true ↔ Apart (a ++ b) (names ++ more) := by
  have hnames : (names ++ more).Nodup → names.Nodup := fun h => (List.nodup_append.mp h).1
  rw [Bool.and_eq_true_iff, hp]
  constructor
  · rintro ⟨⟨ha, hn⟩, hb⟩
    obtain ⟨hb, hmore⟩ := (hq hn).mp hb
    exact ⟨List.forall_mem_append.mpr ⟨ha, hb⟩, hmore⟩
  · rintro ⟨h, hmore⟩
    obtain ⟨ha, hb⟩ := List.forall_mem_append.mp h
    exact ⟨⟨ha, hnames hmore⟩, (hq (hnames hmore)).mpr ⟨hb, hmore⟩⟩

section

variable {stem : String} {taken : List String}

mutual

theorem Condition.namesApart_iff {unknown : Label} : ∀ {condition : Condition}
    {taken : List String}, taken.Nodup → (condition.namesApart stem unknown taken = true ↔
      Apart (condition.selections (some stem) taken)
        (taken ++ condition.selected (some stem) unknown))
  | .path _, taken, h => by
    rw [Condition.namesApart, Bool.not_eq_true', ← Bool.not_eq_true, List.contains_iff_mem]
    exact ⟨fun hm => ⟨fun _ hs => absurd hs List.not_mem_nil, List.concat_eq_append ▸ h.concat hm⟩,
      fun ha hm => (List.nodup_append.mp ha.2).2.2 _ hm _ List.mem_cons_self rfl⟩
  | .existential true _, taken, h => Match.allNamesApart_iff h
  | .existential false block, taken, h => by
    rw [Condition.namesApart, Match.allNamesApart_iff h, Condition.selections,
      Condition.selected, List.append_nil]
    constructor
    · rintro ⟨hs, hn⟩
      refine ⟨List.forall_mem_append.mpr ⟨hs, List.forall_mem_cons.mpr ⟨hn, fun names hm => ?_⟩⟩, h⟩
      rwa [Match.eq_of_mem_selectionsAll hm]
    · rintro ⟨hs, -⟩
      obtain ⟨hs, hn⟩ := List.forall_mem_append.mp hs
      exact ⟨hs, (List.forall_mem_cons.mp hn).1⟩

/-- Matches select nothing under a name that is taken exactly if no plan selects a name twice. -/
theorem Match.allNamesApart_iff : ∀ {block : List Match} {taken : List String},
    taken.Nodup → (Match.allNamesApart stem taken block = true ↔
      Apart (Match.selectionsAll (some stem) taken block)
        (taken ++ Match.selectedAll (some stem) block))
  | [], taken, h => by simpa [Match.allNamesApart, Match.selectionsAll, Match.selectedAll, Apart]
  | ⟨unknown, conditions⟩ :: rest, taken, h => by
    rw [Match.selectedAll, ← List.append_assoc]
    exact and_iff_apart_append (Condition.allNamesApart_iff h) Match.allNamesApart_iff

theorem Condition.allNamesApart_iff {unknown : Label} : ∀ {conditions : List Condition}
    {taken : List String}, taken.Nodup →
      (Condition.allNamesApart stem unknown taken conditions = true ↔
        Apart (Condition.selectionsAll (some stem) unknown taken conditions)
          (taken ++ Condition.selectedAll (some stem) unknown conditions))
  | [], taken, h => by
    simpa [Condition.allNamesApart, Condition.selectionsAll, Condition.selectedAll, Apart]
  | condition :: rest, taken, h => by
    rw [Condition.selectedAll, ← List.append_assoc]
    exact and_iff_apart_append (Condition.namesApart_iff h) Condition.allNamesApart_iff

end

theorem and_iff_forall_nodup {block : List Match} {selections : List (List String)} {q : Bool}
    (h : taken.Nodup) (hq : (taken ++ Match.selectedAll (some stem) block).Nodup →
      (q = true ↔ ∀ selection ∈ selections, selection.Nodup)) :
    (Match.allNamesApart stem taken block && q) = true ↔
      ∀ selection ∈ Match.selectionsAll (some stem) taken block ++
        (taken ++ Match.selectedAll (some stem) block) :: selections, selection.Nodup := by
  rw [Bool.and_eq_true_iff, Match.allNamesApart_iff h, List.forall_mem_append,
    List.forall_mem_cons, Apart, and_assoc]
  exact and_congr_right fun _ => and_congr_right fun hn => hq hn

mutual

theorem Projection.namesApart_iff : ∀ {projection : Projection} {stem : String}
    {taken : List String}, taken.Nodup → (projection.namesApart stem taken = true ↔
      ∀ selection ∈ projection.selections stem taken, selection.Nodup)
  | .nested _ _ _, _, _, h => and_iff_forall_nodup h Projection.allNamesApart_iff
  | .field _ _ _, _, _, _ | .hash _ _, _, _, _ | .fact _ _, _, _, _ =>
    ⟨fun _ _ hm => absurd hm List.not_mem_nil, fun _ => rfl⟩

theorem Projection.allNamesApart_iff : ∀ {projections : List Projection} {stem : String}
    {taken : List String}, taken.Nodup → (Projection.allNamesApart stem taken projections = true ↔
      ∀ selection ∈ Projection.selectionsAll stem taken projections, selection.Nodup)
  | [], _, _, _ => ⟨fun _ _ hm => absurd hm List.not_mem_nil, fun _ => rfl⟩
  | projection :: rest, stem, taken, h => by
    rw [Projection.allNamesApart, Bool.and_eq_true_iff, Projection.namesApart_iff h,
      Projection.allNamesApart_iff h, Projection.selectionsAll, List.forall_mem_append]

end

end

/-- **No statement selects a name twice exactly if every name is new where it is selected.** -/
theorem Specification.namesApart_iff {spec : Specification} : spec.namesApart = true ↔
    ∀ selection ∈ spec.selections, selection.Nodup :=
  and_iff_forall_nodup List.nodup_nil Projection.allNamesApart_iff

/-! ### What plans select -/

/-- The names that a plan selects. -/
def Plan.names (plan : Plan) : List String := plan.outputs.map Plan.Output.label

/-- The stem under which labels are selected at the end of a path. -/
def selectingStem (stem : String) (path : List Nat) : Option String :=
  if path.isEmpty then some stem else none

/-- A branch selects further names behind those that have been selected `before`, and so do the
plans that are completed in it. If everything is `known`, then no plan is missing. -/
structure Branch.Selects (known : Prop) (before names : List String)
    (selections : List (List String)) (branch : Branch) : Prop where
  completed : (branch.completed.map Plan.names).Sublist selections
  last : ∀ new ∈ branch.last, new.plan.names = before ++ names
  complete : known → branch.completed.map Plan.names = selections ∧ branch.last.isSome = true

variable {schema : Schema} {stem : String} {path : List Nat} {known : Prop} {joined : Joined}
  {branch : Branch} {before names names' : List String}
  {selections selections' : List (List String)}

namespace Branch

theorem Selects.continued (joined : Joined) :
    (Branch.continued joined).Selects known joined.plan.names [] [] := by
  refine ⟨List.Sublist.refl _, fun new hm => ?_, fun _ => ⟨rfl, rfl⟩⟩
  cases hm
  exact (List.append_nil _).symm

theorem Selects.skipped (joined : Joined) (h : ¬ known) :
    (Branch.continued joined).Selects known joined.plan.names [] selections := by
  refine ⟨List.nil_sublist _, fun new hm => ?_, fun hk => absurd hk h⟩
  cases hm
  exact (List.append_nil _).symm

theorem Selects.dropped (h : ¬ known) : Branch.dropped.Selects known before names selections :=
  ⟨List.nil_sublist _, nofun, fun hk => absurd hk h⟩

theorem Selects.andThen {next : Joined → Except PlanError Branch} {whole : Branch}
    (h : branch.Selects known before names selections)
    (hn : ∀ b ∈ branch.last, ∀ rest, next b = .ok rest →
      rest.Selects known (before ++ names) names' selections')
    (hw : branch.andThen next = .ok whole) :
    whole.Selects known before (names ++ names') (selections ++ selections') := by
  obtain ⟨completed, _ | b⟩ := branch
  · cases hw
    refine ⟨h.completed.trans (List.sublist_append_left _ _), nofun, fun hk => ?_⟩
    cases (h.complete hk).2
  · obtain ⟨rest, hr, hw⟩ := Except.bind_eq_ok_iff.mp hw
    cases hw
    have hrest := hn b rfl rest hr
    refine ⟨?_, fun new hm => ?_, fun hk => ⟨?_, (hrest.complete hk).2⟩⟩
    · rw [List.map_append]
      exact h.completed.append hrest.completed
    · rw [hrest.last new hm, List.append_assoc]
    · rw [List.map_append, (h.complete hk).1, (hrest.complete hk).1]

theorem Selects.plans (h : branch.Selects known before names selections) :
    ((branch.completed ++ (branch.last.map Joined.plan).toList).map Plan.names).Sublist
        (selections ++ [before ++ names]) ∧
      (known → (branch.completed ++ (branch.last.map Joined.plan).toList).map Plan.names =
        selections ++ [before ++ names]) := by
  obtain ⟨completed, _ | last⟩ := branch
  · refine ⟨?_, fun hk => by cases (h.complete hk).2⟩
    rw [Option.map_none, Option.toList_none, List.append_nil]
    exact h.completed.trans (List.sublist_append_left _ _)
  · have hlast : [last].map (Plan.names ∘ Joined.plan) = [before ++ names] :=
      congrArg (· :: []) (h.last last rfl)
    rw [Option.map_some, Option.toList_some, List.map_append]
    exact ⟨h.completed.append (hlast ▸ List.Sublist.refl _), fun hk =>
      congrArg₂ (· ++ ·) (h.complete hk).1 hlast⟩

theorem Selects.negative {failing absent : Branch} {last : Joined}
    (hf : failing.Selects known before names selections)
    (ha : absent.Selects known before [] selections') (hl : absent.last = some last)
    (bindings : Bindings) :
    Selects known before [] (selections ++ (before ++ names) :: selections')
      ⟨failing.completed ++ (failing.last.map Joined.plan).toList ++ absent.completed,
        some ⟨last.plan, bindings⟩⟩ := by
  obtain ⟨hplans, hall⟩ := hf.plans
  rw [List.append_cons]
  refine ⟨?_, fun new hm => ?_, fun hk => ⟨?_, rfl⟩⟩
  · rw [List.map_append]
    exact hplans.append ha.completed
  · cases hm
    exact ha.last last hl
  · rw [List.map_append, hall hk, (ha.complete hk).1]

end Branch

theorem Plan.Chained.inputs_eq {old new : Plan} {slot last : Nat} {edges : List Plan.Edge}
    (h : Plan.Chained path old slot new last edges) : new.inputs = old.inputs := by
  induction h with
  | nil => rfl
  | cons joins _ _ _ ih => exact ih.trans joins.inputs

theorem Joined.Reaches.knowsTypes {a b : Joined} {added : Plan.Group}
    (h : Joined.Reaches path a b added) (ht : a.plan.KnowsTypes) : b.plan.KnowsTypes := by
  induction h with
  | refl => exact ht
  | trans _ _ ih ih' => exact ih' (ih ht)
  | bind _ _ use _ _ chained =>
    have hused := (Plan.useInput_extends use).knowsTypes ht
    unfold Plan.KnowsTypes at hused ⊢
    rw [← chained.inputs_eq] at hused
    split_ifs <;> exact hused
  | forget _ ih => exact ih ht
  | group hg _ ih =>
    refine ih ?_
    unfold Plan.KnowsTypes at ht ⊢
    rwa [(Plan.addGroup_eq_ok hg).2.1]

/-- **A path condition selects its unknown**, or is dropped because a name is not known. -/
theorem PathCondition.join_selects {scope : Scope} {unknown : Label} {condition : PathCondition}
    (hw : joined.Within scope) (hfresh : joined.bindings.lookup unknown.name = none)
    (h : condition.join schema stem path unknown joined = .ok branch)
    (hn : known → schema.Numbers (condition.mentions scope unknown))
    (ht : known → joined.plan.KnowsTypes) :
    branch.Selects known joined.plan.names
      (Condition.selected (selectingStem stem path) unknown (.path condition)) [] := by
  rcases huse : joined.plan.useInput condition.labelRight with _ | used
  · -- the type of the input is not known
    have hdropped : branch = .dropped := by
      simp only [PathCondition.join, huse, Except.ok.injEq] at h
      exact h.symm
    rw [hdropped]
    refine .dropped fun hk => ?_
    have hsome := Plan.isSome_useInput condition.labelRight (ht hk)
    rw [huse] at hsome
    cases hsome
  obtain ⟨right, hright, hcases⟩ := PathCondition.join_eq_ok huse hfresh h
  have hcompleted := PathCondition.completed_of_join h
  obtain ⟨completed, last⟩ := branch
  obtain rfl : completed = [] := hcompleted
  rcases hcases with ⟨hnone, hroles⟩ | ⟨middle, slot, roles, final, end', hup, -, hdown, hlast⟩
  · obtain rfl : last = none := hnone
    refine .dropped fun hk => ?_
    have hnumbers := hn hk
    rw [PathCondition.mentions, hw _ _ hright, Schema.numbers_append_iff] at hnumbers
    rcases hroles with hroles | hroles
    · have hsome := isSome_resolveRoles_of_numbers hnumbers.2
      rw [hroles] at hsome
      cases hsome
    · have hsome := isSome_resolveRoles_of_numbers hnumbers.1
      rw [hroles] at hsome
      cases hsome
  · obtain ⟨_, hchain, -⟩ := ascend_chained hup
    obtain ⟨_, hchain', -⟩ := descend_chained hdown
    have houtputs : final.outputs = joined.plan.outputs :=
      (hchain.trans hchain').outputs_eq.trans (Plan.useInput_keeps huse).2.2
    obtain rfl : last = _ := hlast
    refine ⟨List.Sublist.refl _, fun new hm => ?_, fun _ => ⟨rfl, rfl⟩⟩
    cases hm
    rcases path with _ | ⟨index, path⟩
    · simp [Plan.names, Plan.addOutput, houtputs, selectingStem, Condition.selected]
    · simp [Plan.names, houtputs, selectingStem, Condition.selected]

mutual

theorem Condition.join_selects : ∀ (condition : Condition) {path : List Nat} {scope : Scope}
    {unknown : Label} {joined : Joined} {branch : Branch}, joined.Within scope →
    (Match.paths ⟨unknown, [condition]⟩ ≠ [] → joined.bindings.lookup unknown.name = none) →
    condition.check scope unknown = .ok () →
    condition.join schema stem path unknown joined = .ok branch →
    (known → schema.Numbers (condition.mentions scope unknown)) →
    (known → joined.plan.KnowsTypes) →
    branch.Selects known joined.plan.names (condition.selected (selectingStem stem path) unknown)
      (condition.selections (selectingStem stem path) joined.plan.names)
  | .path condition, path, scope, unknown, joined, branch, hw, hfresh, _, h, hn, ht =>
    PathCondition.join_selects hw (hfresh (by simp [Match.paths])) h hn ht
  | .existential true block, path, scope, unknown, joined, branch, hw, _, hc, h, hn, ht => by
    obtain ⟨inner, hc⟩ := Condition.check_existential_eq_ok_iff.mp hc
    obtain ⟨found, hf, h⟩ := Except.bind_eq_ok_iff.mp h
    cases h
    have hselects := Match.joinAll_selects block hw hc hf hn ht
    refine ⟨hselects.completed, fun new hm => ?_, fun hk => ?_⟩
    · obtain ⟨last, hl, rfl⟩ := Option.map_eq_some_iff.mp hm
      exact hselects.last last hl
    · rw [Option.isSome_map]
      exact hselects.complete hk
  | .existential false block, path, scope, unknown, joined, branch, hw, _, hc, h, hn, ht => by
    obtain ⟨inner, hc⟩ := Condition.check_existential_eq_ok_iff.mp hc
    obtain ⟨failing, hf, h⟩ := Except.bind_eq_ok_iff.mp h
    obtain ⟨⟨opened, path'⟩, hg, h⟩ := Except.bind_eq_ok_iff.mp h
    obtain ⟨absent, ha, h⟩ := Except.bind_eq_ok_iff.mp h
    obtain ⟨hpath', houtputs⟩ := Plan.outputs_of_addGroup hg
    have hstem : selectingStem stem path' = none := if_neg (by simpa using hpath')
    have hopened : opened.names = joined.plan.names := congrArg (List.map _) houtputs
    have hfailing := Match.joinAll_selects block hw hc hf hn ht
    have habsent := @Match.joinAll_selects block path' scope inner ⟨opened, joined.bindings⟩
      absent hw hc ha hn fun hk => by
        have hknows := ht hk
        unfold Plan.KnowsTypes at hknows ⊢
        rwa [(Plan.addGroup_eq_ok hg).2.1]
    rw [hstem, hopened, Match.selectedAll_none] at habsent
    rcases hl : absent.last with _ | last <;> simp only [hl] at h <;> cases h
    · -- the group is dropped only if something is not known
      have hunknown : ¬ known := fun hk => by
        have hsome := (habsent.complete hk).2
        rw [hl] at hsome
        cases hsome
      exact .skipped joined hunknown
    · exact hfailing.negative habsent hl joined.bindings

/-- **Matches select the names that their text says**, and the plans completed on the way do. -/
theorem Match.joinAll_selects : ∀ (block : List Match) {path : List Nat} {scope scope' : Scope}
    {joined : Joined} {branch : Branch}, joined.Within scope →
    Match.checkAll scope block = .ok scope' →
    Match.joinAll schema stem path joined block = .ok branch →
    (known → schema.Numbers (Match.mentionsAll scope block)) →
    (known → joined.plan.KnowsTypes) →
    branch.Selects known joined.plan.names (Match.selectedAll (selectingStem stem path) block)
      (Match.selectionsAll (selectingStem stem path) joined.plan.names block)
  | [], path, scope, scope', joined, branch, hw, _, h, _, _ => by
    cases h
    exact .continued joined
  | ⟨unknown, conditions⟩ :: rest, path, scope, scope', joined, branch, hw, hc, h, hn, ht => by
    obtain ⟨hnew, hone, hc, hcrest⟩ := Match.checkAll_cons_eq_ok_iff.mp hc
    obtain ⟨middle, hm, h⟩ := Except.bind_eq_ok_iff.mp h
    have hnumbers : known → schema.Numbers
        (Condition.mentionsAll (scope.bind unknown) unknown conditions) ∧
          schema.Numbers (Match.mentionsAll (scope.bind unknown) rest) := fun hk => by
      have hall := hn hk
      rwa [Match.mentionsAll, Match.mentions, Schema.numbers_append_iff,
        Schema.numbers_cons_type_iff] at hall
    obtain ⟨hruns, hwithin⟩ := Condition.joinAll_runs conditions (hw.bind hnew)
      Scope.type?_bind_self (Nat.le_of_eq hone) (fun _ => hw.lookup_eq_none hnew) hc hm
    have hfirst := Condition.joinAll_selects conditions (hw.bind hnew) Scope.type?_bind_self
      (Nat.le_of_eq hone) (fun _ => hw.lookup_eq_none hnew) hc hm (fun hk => (hnumbers hk).1) ht
    refine hfirst.andThen (fun b hb found hf => ?_) h
    obtain ⟨added, hreaches, -⟩ := hruns.last b hb
    rw [← hfirst.last b hb]
    exact Match.joinAll_selects rest (hwithin b hb) hcrest hf (fun hk => (hnumbers hk).2)
      fun hk => hreaches.knowsTypes (ht hk)

theorem Condition.joinAll_selects : ∀ (conditions : List Condition) {path : List Nat}
    {scope : Scope} {unknown : Label} {joined : Joined} {branch : Branch}, joined.Within scope →
    scope.type? unknown.name = some unknown.type →
    (Match.paths ⟨unknown, conditions⟩).length ≤ 1 →
    (Match.paths ⟨unknown, conditions⟩ ≠ [] → joined.bindings.lookup unknown.name = none) →
    Condition.checkAll scope unknown conditions = .ok () →
    Condition.joinAll schema stem path unknown joined conditions = .ok branch →
    (known → schema.Numbers (Condition.mentionsAll scope unknown conditions)) →
    (known → joined.plan.KnowsTypes) →
    branch.Selects known joined.plan.names
      (Condition.selectedAll (selectingStem stem path) unknown conditions)
      (Condition.selectionsAll (selectingStem stem path) unknown joined.plan.names conditions)
  | [], path, scope, unknown, joined, branch, hw, _, _, _, _, h, _, _ => by
    cases h
    exact .continued joined
  | condition :: rest, path, scope, unknown, joined, branch, hw, hu, hone, hfresh, hc, h, hn,
      ht => by
    obtain ⟨hc, hcrest⟩ := Except.bind_unit_eq_ok_iff.mp hc
    obtain ⟨middle, hm, h⟩ := Except.bind_eq_ok_iff.mp h
    have hnumbers : known → schema.Numbers (condition.mentions scope unknown) ∧
        schema.Numbers (Condition.mentionsAll scope unknown rest) := fun hk =>
      Schema.numbers_append_iff.mp (hn hk)
    have hfresh' : Match.paths ⟨unknown, [condition]⟩ ≠ [] →
        joined.bindings.lookup unknown.name = none := fun hne =>
      hfresh fun hnil => hne (Match.paths_cons_eq_nil_iff.mp hnil).1
    obtain ⟨hruns, hbinds⟩ := Condition.join_runs condition hw hu hfresh' hc hm
    have hfirst := Condition.join_selects condition hw hfresh' hc hm (fun hk => (hnumbers hk).1) ht
    have hlength : (Match.paths ⟨unknown, rest⟩).length ≤ 1 := by
      rw [Match.paths_cons, List.length_append] at hone
      omega
    refine hfirst.andThen (fun b hb found hf => ?_) h
    obtain ⟨added, hreaches, -⟩ := hruns.last b hb
    rw [← hfirst.last b hb]
    exact Condition.joinAll_selects rest (hbinds b hb).1 hu hlength
      (fun hne => (hbinds b hb).2.lookup_eq_none hone hne
        (hfresh fun hnil => hne (Match.paths_cons_eq_nil_iff.mp hnil).2)) hcrest hf
      (fun hk => (hnumbers hk).2) fun hk => hreaches.knowsTypes (ht hk)

end

/-! ### What statements select -/

theorem Branch.Selects.compiled {next : Joined → Except PlanError (List Plan)} {plans : List Plan}
    (h : branch.Selects known before names selections)
    (hn : ∀ last ∈ branch.last, ∀ deeper, next last = .ok deeper →
      (deeper.map Plan.names).Sublist selections' ∧
        (known → deeper.map Plan.names = selections'))
    (hp : (match branch.last with
      | none => return branch.completed
      | some last => do
        let deeper ← next last
        return branch.completed ++ last.plan :: deeper) = Except.ok plans) :
    (plans.map Plan.names).Sublist (selections ++ (before ++ names) :: selections') ∧
      (known → plans.map Plan.names = selections ++ (before ++ names) :: selections') := by
  obtain ⟨hplans, hall⟩ := h.plans
  rw [List.append_cons]
  rcases hl : branch.last with _ | last <;> simp only [hl] at hp hplans hall
  · cases hp
    rw [Option.map_none, Option.toList_none, List.append_nil] at hplans
    refine ⟨hplans.trans (List.sublist_append_left _ _), fun hk => ?_⟩
    have hsome := (h.complete hk).2
    rw [hl] at hsome
    cases hsome
  · obtain ⟨deeper, hd, hp⟩ := Except.bind_eq_ok_iff.mp hp
    cases hp
    obtain ⟨hdeeper, hcomplete⟩ := hn last hl deeper hd
    rw [List.append_cons, List.map_append]
    exact ⟨hplans.append hdeeper, fun hk => congrArg₂ (· ++ ·) (hall hk) (hcomplete hk)⟩

mutual

theorem Projection.selects : ∀ (projection : Projection) {stem : String} {scope : Scope}
    {joined : Joined} {plans : List Plan}, joined.Within scope → projection.check scope = .ok () →
    projection.plans schema stem joined = .ok plans →
    (known → schema.Numbers (projection.mentions scope)) → (known → joined.plan.KnowsTypes) →
    (plans.map Plan.names).Sublist (projection.selections stem joined.plan.names) ∧
      (known → plans.map Plan.names = projection.selections stem joined.plan.names)
  | .nested name block projections, stem, scope, joined, plans, hw, hc, h, hn, ht => by
    obtain ⟨inner, hblock, hc⟩ := Except.bind_eq_ok_iff.mp hc
    rw [Projection.plans] at h
    obtain ⟨branch, hj, h⟩ := Except.bind_eq_ok_iff.mp h
    have hnumbers : known → schema.Numbers (Match.mentionsAll scope block) ∧
        schema.Numbers (Projection.mentionsAll inner projections) := fun hk => by
      have hall := hn hk
      rwa [Projection.mentions, Schema.numbers_append_iff, ← Match.bindAll_of_checkAll hblock]
        at hall
    obtain ⟨hruns, hwithin⟩ := Match.joinAll_runs block hw hblock hj
    have hselects := Match.joinAll_selects block hw hblock hj (fun hk => (hnumbers hk).1) ht
    refine hselects.compiled (fun last hl deeper hd => ?_) h
    obtain ⟨added, hreaches, -⟩ := hruns.last last hl
    have hdeeper := Projection.all_select projections (hwithin last hl) hc hd
      (fun hk => (hnumbers hk).2) fun hk => hreaches.knowsTypes (ht hk)
    rwa [hselects.last last hl] at hdeeper
  | .field _ _ _, _, _, _, _, _, _, h, _, _ | .hash _ _, _, _, _, _, _, _, h, _, _
  | .fact _ _, _, _, _, _, _, _, h, _, _ => by
    cases h
    exact ⟨List.Sublist.refl _, fun _ => rfl⟩

theorem Projection.all_select : ∀ (projections : List Projection) {stem : String}
    {scope : Scope} {joined : Joined} {plans : List Plan}, joined.Within scope →
    Projection.checkAll scope projections = .ok () →
    Projection.plansAll schema stem joined projections = .ok plans →
    (known → schema.Numbers (Projection.mentionsAll scope projections)) →
    (known → joined.plan.KnowsTypes) →
    (plans.map Plan.names).Sublist (Projection.selectionsAll stem joined.plan.names projections) ∧
      (known → plans.map Plan.names =
        Projection.selectionsAll stem joined.plan.names projections)
  | [], _, _, _, _, _, _, h, _, _ => by
    cases h
    exact ⟨List.Sublist.refl _, fun _ => rfl⟩
  | projection :: rest, stem, scope, joined, plans, hw, hc, h, hn, ht => by
    obtain ⟨hc, hcrest⟩ := Except.bind_unit_eq_ok_iff.mp hc
    obtain ⟨first, hp, h⟩ := Except.bind_eq_ok_iff.mp h
    obtain ⟨others, ho, h⟩ := Except.bind_eq_ok_iff.mp h
    cases h
    have hnumbers : known → schema.Numbers (projection.mentions scope) ∧
        schema.Numbers (Projection.mentionsAll scope rest) := fun hk =>
      Schema.numbers_append_iff.mp (hn hk)
    obtain ⟨hfirst, hall⟩ :=
      Projection.selects projection hw hc hp (fun hk => (hnumbers hk).1) ht
    obtain ⟨hothers, hall'⟩ :=
      Projection.all_select rest hw hcrest ho (fun hk => (hnumbers hk).2) ht
    rw [List.map_append]
    exact ⟨hfirst.append hothers, fun hk => congrArg₂ (· ++ ·) (hall hk) (hall' hk)⟩

end

namespace Specification

variable {spec : Specification} {start : List FactReference} {plans : List Plan}

/-- A catalog knows the types of all given labels and has numbers for all roles. -/
def KnownTo (spec : Specification) (schema : Schema) : Prop :=
  (∀ label ∈ spec.given, (schema.factTypeId label.type).isSome = true) ∧
    schema.Numbers spec.mentions

/-- Plans select what the text says, and all of them are there if everything is known. -/
theorem sublist_of_plans (hc : spec.check = .ok ()) (h : spec.plans schema start = .ok plans) :
    (plans.map Plan.names).Sublist spec.selections ∧
      (spec.KnownTo schema → plans.map Plan.names = spec.selections) := by
  obtain ⟨given, hgiven, hc⟩ := Except.bind_eq_ok_iff.mp hc
  obtain ⟨scope, hbody, hc⟩ := Except.bind_eq_ok_iff.mp hc
  obtain ⟨-, h⟩ := Except.bind_unit_eq_ok_iff.mp h
  obtain ⟨branch, hj, h⟩ := Except.bind_eq_ok_iff.mp h
  have hnumbers : spec.KnownTo schema → schema.Numbers (Match.mentionsAll given spec.body) ∧
      schema.Numbers (Projection.mentionsAll scope spec.projections) := fun hk => by
    obtain ⟨rfl, -, -⟩ := Scope.declareAll_eq_ok hgiven
    obtain rfl : scope = _ := Match.bindAll_of_checkAll hbody
    have hall := hk.2
    rw [mentions, Schema.numbers_append_iff, Schema.numbers_append_iff] at hall
    exact ⟨hall.1.2, hall.2⟩
  have ht : spec.KnownTo schema → (spec.initial schema start).plan.KnowsTypes := fun hk =>
    knowsTypes_initial hk.1
  obtain ⟨hruns, hwithin⟩ := Match.joinAll_runs spec.body (within_initial hgiven) hbody hj
  have hselects := Match.joinAll_selects spec.body (within_initial hgiven) hbody hj
    (fun hk => (hnumbers hk).1) ht
  refine hselects.compiled (fun last hl deeper hd => ?_) h
  obtain ⟨added, hreaches, -⟩ := hruns.last last hl
  have hdeeper := Projection.all_select spec.projections (hwithin last hl) hc hd
    (fun hk => (hnumbers hk).2) fun hk => hreaches.knowsTypes (ht hk)
  rwa [hselects.last last hl] at hdeeper

end Specification

end FactGraph
