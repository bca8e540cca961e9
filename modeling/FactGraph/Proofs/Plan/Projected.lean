import FactGraph.Proofs.Plan.Additions
import FactGraph.Proofs.Plan.Views

/-! # What nested projections join

A nested projection is compiled behind the matches of its specification and of the projections
around it, where these have led. So its plans are those of a specification that only has matches:
these matches, and then the ones of the projection. What is selected has other names there, since
the projection puts a prefix in front of them.

* `Plan.view_unnamed`: the operations on plans do not look at the names of outputs.
* `Performs.behind`: matches behind others, and the projections behind them.
* `Specification.performs_plans`: **every plan of a specification joins its matches, or those of a
  nested projection, and all of these are joined.** -/

namespace FactGraph

/-! ### Joins -/

mutual

/-- What the nested projections in a projection join, when some matches are joined before. -/
def Projection.joins (before : List Match) : Projection → List (List Match)
  | .nested _ block projections =>
    (before ++ block) :: Projection.joinsAll (before ++ block) projections
  | _ => []

/-- What the nested projections in some projections join. -/
def Projection.joinsAll (before : List Match) : List Projection → List (List Match)
  | [] => []
  | projection :: rest => projection.joins before ++ Projection.joinsAll before rest

end

namespace Specification

/-- What the nested projections of a specification join, at any depth. -/
def joins (spec : Specification) : List (List Match) :=
  Projection.joinsAll spec.body spec.projections

/-- The specification that only joins some matches. -/
def joining (spec : Specification) (matches' : List Match) : Specification :=
  ⟨spec.given, matches', []⟩

end Specification

mutual

theorem Projection.prefix_of_mem_joins : ∀ {projection : Projection} {before block : List Match},
    block ∈ projection.joins before → before <+: block
  | .nested _ own projections, before, block, h => by
    have hown : before <+: before ++ own := List.prefix_append before own
    rcases List.mem_cons.mp h with rfl | h
    · exact hown
    · exact hown.trans (Projection.prefix_of_mem_joinsAll h)
  | .field _ _ _, _, _, h => absurd h List.not_mem_nil
  | .hash _ _, _, _, h => absurd h List.not_mem_nil
  | .fact _ _, _, _, h => absurd h List.not_mem_nil

theorem Projection.prefix_of_mem_joinsAll : ∀ {projections : List Projection}
    {before block : List Match}, block ∈ Projection.joinsAll before projections → before <+: block
  | [], _, _, h => absurd h List.not_mem_nil
  | _ :: _, _, _, h => (List.mem_append.mp h).elim Projection.prefix_of_mem_joins
      Projection.prefix_of_mem_joinsAll

end

/-! ### Plans without names -/

namespace Plan

/-- A plan whose outputs have no names. -/
def unnamed (plan : Plan) : Plan :=
  plan.selecting (plan.outputs.map fun output => { output with label := "" })

section

variable (plan : Plan)

theorem addEdge_unnamed (predecessor successor role : Nat) (path : List Nat) :
    (plan.addEdge predecessor successor role path).map unnamed =
      plan.unnamed.addEdge predecessor successor role path := by
  unfold addEdge
  split_ifs
  · rfl
  · exact Except.map_bind (Group.modify _ plan.groups path) _ unnamed

theorem addGroup_unnamed (path : List Nat) :
    (plan.addGroup path).map (Prod.map unnamed id) = plan.unnamed.addGroup path := by
  unfold addGroup
  split_ifs
  · rfl
  · refine (Except.map_bind (Group.at? plan.groups path) _ _).trans
      (congrArg _ (funext fun outer => ?_))
    exact Except.map_bind (Group.modify _ plan.groups path) _ _

theorem addParameter_unnamed (parameter : Parameter) :
    (plan.addParameter parameter).map unnamed id = plan.unnamed.addParameter parameter := rfl

theorem addFact_unnamed (type : String) :
    (plan.addFact type).map unnamed id = plan.unnamed.addFact type := rfl

theorem useInput_unnamed (label : String) :
    (plan.useInput label).map unnamed = plan.unnamed.useInput label := by
  rw [unnamed, ← useInput_selecting]
  refine Option.map_congr fun used hu => ?_
  rw [unnamed, (useInput_keeps hu).2.2]

end

/-- **The names of outputs are left out by all operations.** -/
theorem view_unnamed (schema : Schema) : View unnamed schema schema Eq where
  roles type role := by
    rcases schema.roleOf type role with _ | number
    · exact .none
    · exact .some rfl
  useInput h label := by rw [useInput_unnamed, useInput_unnamed, h]
  addParameter h hn := by rw [addParameter_unnamed, addParameter_unnamed, h, hn]
  addFact h type := by rw [addFact_unnamed, addFact_unnamed, h]
  addEdge h predecessor successor role path := by rw [addEdge_unnamed, addEdge_unnamed, h]
  addGroup h path := by rw [addGroup_unnamed, addGroup_unnamed, h]

theorem selectsAlike_unnamed (stem stem' : String) : SelectsAlike unnamed stem stem' := by
  intro plan plan' h name type slot
  have hplan : ∀ (plan : Plan) (label : String), (plan.addOutput label type slot).unnamed =
      plan.unnamed.addOutput "" type slot := fun plan label => by
    simp [unnamed, addOutput, selecting]
  rw [hplan, hplan, h]

end Plan

/-! ### Matches behind others -/

/-- The plans of a branch, those completed and the last one. -/
def Branch.plans (branch : Branch) : List Plan :=
  branch.completed ++ (branch.last.map Joined.plan).toList

section

variable {schema : Schema} {start joined : Joined} {before block : List Match}
  {completed : List Plan} {branch : Branch} {stem : String}

/-- Joining some matches leads to a branch, up to the names of outputs. -/
def Leads (schema : Schema) (start : Joined) (block : List Match) (branch : Branch) : Prop :=
  (Match.joinAll schema "" [] start block).map (Branch.under Plan.unnamed) =
    .ok (branch.under Plan.unnamed)

theorem Leads.of_ok (h : Match.joinAll schema "" [] start block = .ok branch) :
    Leads schema start block branch :=
  congrArg (Except.map (Branch.under Plan.unnamed)) h

theorem Leads.exists_ok (h : Leads schema start block branch) : ∃ own,
    Match.joinAll schema "" [] start block = .ok own ∧
      own.under Plan.unnamed = branch.under Plan.unnamed := by
  unfold Leads at h
  rcases hown : Match.joinAll schema "" [] start block with e | own
  · rw [hown] at h
    cases h
  · rw [hown] at h
    exact ⟨own, rfl, Except.ok.inj h⟩

theorem Leads.exists_plans (h : Leads schema start block branch) : ∃ own,
    Match.joinAll schema "" [] start block = .ok own ∧
      own.plans.map Plan.unnamed = branch.plans.map Plan.unnamed := by
  obtain ⟨own, hown, hplans⟩ := h.exists_ok
  exact ⟨own, hown, Branch.plans_view hplans⟩

/-- **Matches go on where those before them have led**, under whichever prefix. -/
theorem Leads.append (h : Leads schema start before ⟨completed, some joined⟩)
    (hb : Match.joinAll schema stem [] joined block = .ok branch) :
    Leads schema start (before ++ block) ⟨completed ++ branch.completed, branch.last⟩ := by
  obtain ⟨⟨front, last⟩, hfront, hunder⟩ := h.exists_ok
  obtain ⟨hcompleted, hlast⟩ := Branch.mk.inj hunder
  rcases last with _ | last
  · cases hlast
  have hnext : Leads schema last block branch :=
    (Match.joinAll_view (Plan.view_unnamed schema) (Plan.selectsAlike_unnamed "" stem)
      (Option.some.inj hlast)).trans (congrArg _ hb)
  obtain ⟨behind, hbehind, hown⟩ := hnext.exists_ok
  obtain ⟨hothers, hrest⟩ := Branch.mk.inj hown
  unfold Leads
  rw [Match.joinAll_append, hfront]
  show Except.map _ (Match.joinAll schema "" [] last block >>= _) = _
  rw [hbehind]
  show Except.ok (Branch.mk (List.map Plan.unnamed (front ++ behind.completed)) _) =
    Except.ok (Branch.mk (List.map Plan.unnamed (completed ++ branch.completed)) _)
  rw [List.map_append, List.map_append, hcompleted, hothers, hrest]

theorem Leads.append_dropped (h : Leads schema start before ⟨completed, none⟩)
    (more : List Match) : Leads schema start (before ++ more) ⟨completed, none⟩ := by
  obtain ⟨⟨front, last⟩, hfront, hunder⟩ := h.exists_ok
  obtain ⟨hcompleted, hlast⟩ := Branch.mk.inj hunder
  rcases last with _ | last
  · unfold Leads
    rw [Match.joinAll_append, hfront]
    exact congrArg Except.ok hunder
  · cases hlast

/-! ### Projections -/

/-- Plans are those of some blocks of matches that are joined behind completed plans: the plans of
each block are among them, and each of them is a plan of a block, up to the names of outputs. -/
structure Performs (schema : Schema) (start : Joined) (completed : List Plan)
    (blocks : List (List Match)) (plans : List Plan) : Prop where
  joined : ∀ block ∈ blocks, ∃ own added, Match.joinAll schema "" [] start block = .ok own ∧
    own.plans.map Plan.unnamed = (completed ++ added).map Plan.unnamed ∧
      (added.map Plan.unnamed).Sublist (plans.map Plan.unnamed)
  planned : ∀ plan ∈ plans, ∃ block ∈ blocks, ∃ own,
    Match.joinAll schema "" [] start block = .ok own ∧
      plan.unnamed ∈ own.plans.map Plan.unnamed

namespace Performs

variable {blocks others : List (List Match)} {plans more : List Plan}

theorem nil : Performs schema start completed [] [] :=
  ⟨fun _ h => absurd h List.not_mem_nil, fun _ h => absurd h List.not_mem_nil⟩

theorem append (h : Performs schema start completed blocks plans)
    (h' : Performs schema start completed others more) :
    Performs schema start completed (blocks ++ others) (plans ++ more) where
  joined block hm := by
    rw [List.map_append]
    rcases List.mem_append.mp hm with hm | hm
    · obtain ⟨own, added, ho, hp, hs⟩ := h.joined block hm
      exact ⟨own, added, ho, hp, hs.trans (List.sublist_append_left _ _)⟩
    · obtain ⟨own, added, ho, hp, hs⟩ := h'.joined block hm
      exact ⟨own, added, ho, hp, hs.trans (List.sublist_append_right _ _)⟩
  planned plan hm := by
    rcases List.mem_append.mp hm with hm | hm
    · obtain ⟨block, hb, own⟩ := h.planned plan hm
      exact ⟨block, List.mem_append_left _ hb, own⟩
    · obtain ⟨block, hb, own⟩ := h'.planned plan hm
      exact ⟨block, List.mem_append_right _ hb, own⟩

theorem dropped (h : Leads schema start block ⟨completed ++ plans, none⟩)
    (hb : ∀ other ∈ blocks, block <+: other) :
    Performs schema start completed (block :: blocks) plans where
  joined other hm := by
    have hother : block <+: other := by
      rcases List.mem_cons.mp hm with rfl | hm
      · exact List.prefix_rfl
      · exact hb other hm
    obtain ⟨more, rfl⟩ := hother
    obtain ⟨own, ho, hp⟩ := (h.append_dropped more).exists_plans
    exact ⟨own, plans, ho, by simpa [Branch.plans] using hp, List.Sublist.refl _⟩
  planned plan hm := by
    obtain ⟨own, ho, hp⟩ := h.exists_plans
    refine ⟨block, List.mem_cons_self, own, ho, ?_⟩
    rw [hp]
    exact List.mem_map_of_mem (by simp [Branch.plans, hm])

theorem continued (h : Leads schema start block ⟨completed ++ plans, some joined⟩)
    (hb : Performs schema start (completed ++ plans) blocks more) :
    Performs schema start completed (block :: blocks) (plans ++ joined.plan :: more) where
  joined other hm := by
    rcases List.mem_cons.mp hm with rfl | hm
    · obtain ⟨own, ho, hp⟩ := h.exists_plans
      refine ⟨own, plans ++ [joined.plan], ho, by simpa [Branch.plans] using hp, ?_⟩
      exact ((List.singleton_sublist.mpr List.mem_cons_self).append_left plans).map _
    · obtain ⟨own, added, ho, hp, hs⟩ := hb.joined other hm
      refine ⟨own, plans ++ added, ho, by rw [hp, List.append_assoc], ?_⟩
      rw [List.map_append, List.map_append, List.map_cons]
      exact (hs.cons _).append_left _
  planned plan hm := by
    by_cases hmore : plan ∈ more
    · obtain ⟨other, hother, own⟩ := hb.planned plan hmore
      exact ⟨other, List.mem_cons_of_mem _ hother, own⟩
    · obtain ⟨own, ho, hp⟩ := h.exists_plans
      refine ⟨block, List.mem_cons_self, own, ho, ?_⟩
      rw [hp]
      refine List.mem_map_of_mem ?_
      simp only [List.mem_append, List.mem_cons, hmore, or_false] at hm
      simpa [Branch.plans, or_assoc] using Or.inr hm

/-- **Matches are joined behind others, and the projections of the tuples behind these.** -/
theorem behind {projections : List Projection}
    (h : Leads schema start before ⟨completed, some joined⟩)
    (hb : Match.joinAll schema stem [] joined block = .ok branch)
    (hdeeper : ∀ {last deeper}, Leads schema start (before ++ block)
        ⟨completed ++ branch.completed, some last⟩ →
      Projection.plansAll schema stem last projections = .ok deeper →
        Performs schema start (completed ++ branch.completed)
          (Projection.joinsAll (before ++ block) projections) deeper)
    (hp : (match branch.last with
      | none => return branch.completed
      | some last => do
        let deeper ← Projection.plansAll schema stem last projections
        return branch.completed ++ last.plan :: deeper) = .ok plans) :
    Performs schema start completed
      ((before ++ block) :: Projection.joinsAll (before ++ block) projections) plans := by
  have hlead := h.append hb
  obtain ⟨front, last⟩ := branch
  rcases last with _ | last
  · cases hp
    exact dropped hlead fun _ => Projection.prefix_of_mem_joinsAll
  · obtain ⟨deeper, hd, hp⟩ := Except.bind_eq_ok_iff.mp hp
    cases hp
    exact continued hlead (hdeeper hlead hd)

end Performs

mutual

theorem Projection.performs_plans : ∀ {projection : Projection} {stem : String} {joined : Joined}
    {before : List Match} {completed plans : List Plan},
    Leads schema start before ⟨completed, some joined⟩ →
    projection.plans schema stem joined = .ok plans →
      Performs schema start completed (projection.joins before) plans
  | .nested name block projections, stem, joined, before, completed, plans, h, hp => by
    rw [Projection.plans] at hp
    obtain ⟨branch, hb, hp⟩ := Except.bind_eq_ok_iff.mp hp
    exact Performs.behind h hb (fun hl hd => Projection.performs_plansAll hl hd) hp
  | .field _ _ _, _, _, _, _, _, _, hp => by
    cases hp
    exact .nil
  | .hash _ _, _, _, _, _, _, _, hp => by
    cases hp
    exact .nil
  | .fact _ _, _, _, _, _, _, _, hp => by
    cases hp
    exact .nil

theorem Projection.performs_plansAll : ∀ {projections : List Projection} {stem : String}
    {joined : Joined} {before : List Match} {completed plans : List Plan},
    Leads schema start before ⟨completed, some joined⟩ →
    Projection.plansAll schema stem joined projections = .ok plans →
      Performs schema start completed (Projection.joinsAll before projections) plans
  | [], _, _, _, _, _, _, hp => by
    cases hp
    exact .nil
  | projection :: rest, stem, joined, before, completed, plans, h, hp => by
    rw [Projection.plansAll] at hp
    obtain ⟨first, hf, hp⟩ := Except.bind_eq_ok_iff.mp hp
    obtain ⟨others, ho, hp⟩ := Except.bind_eq_ok_iff.mp hp
    cases hp
    exact (Projection.performs_plans h hf).append (Projection.performs_plansAll h ho)

end

end

/-! ### Specifications -/

namespace Specification

variable {spec : Specification} {schema : Schema} {start : List FactReference}

theorem plans_joining (hs : spec.checkStart start = .ok ()) {block : List Match} {own : Branch}
    (h : Match.joinAll schema "" [] (spec.initial schema start) block = .ok own) :
    (spec.joining block).plans schema start = .ok own.plans := by
  have hcheck : (spec.joining block).checkStart start = .ok () := hs
  have hjoin : Match.joinAll schema "" [] ((spec.joining block).initial schema start)
    (spec.joining block).body = .ok own := h
  unfold Specification.plans
  rw [hcheck, hjoin]
  obtain ⟨completed, _ | last⟩ := own
  · exact congrArg Except.ok (List.append_nil completed).symm
  · rfl

/-- Whenever a specification has plans, so have some matches alone, and their plans are among those
of the specification, in order and up to the names of outputs. -/
def Compiles (spec : Specification) (block : List Match) : Prop :=
  ∀ schema start plans, spec.plans schema start = .ok plans → ∃ own,
    (spec.joining block).plans schema start = .ok own ∧
      (own.map Plan.unnamed).Sublist (plans.map Plan.unnamed)

/-- **A specification joins its matches and those of its nested projections, and nothing else.** -/
theorem performs_plans (spec : Specification) :
    (∀ block ∈ spec.body :: spec.joins, spec.Compiles block) ∧
    ∀ schema start plans, spec.plans schema start = .ok plans → ∀ plan ∈ plans,
      ∃ block ∈ spec.body :: spec.joins, ∃ own,
        (spec.joining block).plans schema start = .ok own ∧
          plan.unnamed ∈ own.map Plan.unnamed := by
  have hperforms : ∀ {schema start plans}, spec.plans schema start = .ok plans →
      spec.checkStart start = .ok () ∧
        Performs schema (spec.initial schema start) [] (spec.body :: spec.joins) plans := by
    intro schema start plans h
    obtain ⟨⟨⟩, hs, h⟩ := Except.bind_eq_ok_iff.mp h
    obtain ⟨branch, hb, h⟩ := Except.bind_eq_ok_iff.mp h
    have hnothing : Leads schema (spec.initial schema start) []
      ⟨[], some (spec.initial schema start)⟩ := Leads.of_ok rfl
    exact ⟨hs, Performs.behind hnothing hb (fun hl hd => Projection.performs_plansAll hl hd) h⟩
  refine ⟨fun block hm schema start plans h => ?_, fun schema start plans h plan hm => ?_⟩
  · obtain ⟨hs, hp⟩ := hperforms h
    obtain ⟨own, added, ho, hown, hsub⟩ := hp.joined block hm
    refine ⟨own.plans, plans_joining hs ho, ?_⟩
    rw [hown]
    exact hsub
  · obtain ⟨hs, hp⟩ := hperforms h
    obtain ⟨block, hblock, own, ho, hown⟩ := hp.planned plan hm
    exact ⟨block, hblock, own.plans, plans_joining hs ho, hown⟩

end Specification

end FactGraph
