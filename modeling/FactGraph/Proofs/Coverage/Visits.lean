import FactGraph.Proofs.Coverage.Order
import FactGraph.Proofs.Graph

/-! # What walks visit

In a graph, a walk visits the fact it starts from if that has the type of the walk and satisfies its
obligations. It then visits what its steps go on to visit, and examines the facts along the chains of
its obligations.

* `Obligation.holds_of_implies`: an obligation that implies another one holds only where that does.
* `Walk.visits_of_assess`: **a walk that is permitted visits nothing that the candidate does not
  visit.** -/

namespace FactGraph

variable {Node : Type} (G : Graph Node)

/-! ### Chains of steps -/

/-- A step leads from a fact to another one, which has the type it asks for. -/
def Step.Leads (step : Step) (f g : Node) : Prop :=
  G.Along step.direction step.role f g ∧ G.type g = step.next.type

/-- A step is possible from a fact: it leads to a fact from which all further steps are. -/
inductive Step.Possible : Step → Node → Prop
  | leads {step : Step} {f g : Node} (lead : step.Leads G f g)
      (further : ∀ s ∈ step.next.steps, Step.Possible s g) : Step.Possible step f

/-- A chain of steps from the first fact comes to the second one. -/
inductive Step.Examines : Step → Node → Node → Prop
  | arrive {step : Step} {f g : Node} (lead : step.Leads G f g) : Step.Examines step f g
  | further {step s : Step} {f g h : Node} (lead : step.Leads G f g) (mem : s ∈ step.next.steps)
      (examines : Step.Examines s g h) : Step.Examines step f h

/-- An obligation holds at a fact. -/
def Obligation.HoldsAt (o : Obligation) (f : Node) : Prop :=
  o.holds = true ↔ o.step.Possible G f

/-! ### Visits -/

/-- A walk can start from a fact. -/
def Walk.StartsAt (walk : Walk) (f : Node) : Prop :=
  G.type f = walk.type ∧ ∀ o ∈ walk.obligations, o.HoldsAt G f

/-- **A walk from the first fact visits the second one.** -/
inductive Walk.Visits : Walk → Node → Node → Prop
  | here {walk : Walk} {f : Node} (start : walk.StartsAt G f) : Walk.Visits walk f f
  | behind {walk : Walk} {step : Step} {f g h : Node} (start : walk.StartsAt G f)
      (mem : step ∈ walk.steps) (along : G.Along step.direction step.role f g)
      (visits : Walk.Visits step.next g h) : Walk.Visits walk f h
  | examined {walk : Walk} {o : Obligation} {f g : Node} (start : walk.StartsAt G f)
      (mem : o ∈ walk.obligations) (examines : o.step.Examines G f g) : Walk.Visits walk f g

/-- No obligation of a walk contains a further obligation. -/
inductive Walk.Flat : Walk → Prop
  | intro {walk : Walk} (plain : ∀ o ∈ walk.obligations, o.step.next.hasObligations = false)
      (behind : ∀ step ∈ walk.steps, Walk.Flat step.next) : Walk.Flat walk

variable {G}

/-! ### Obligations -/

theorem Step.Possible.of_coveredBy {outer : Step} {f : Node} (h : outer.Possible G f) :
    ∀ {inner : Step}, inner.coveredBy outer = true → inner.Possible G f := by
  induction h with
  | leads lead further ih =>
    intro inner hc
    obtain ⟨hd, hr, ht, hs⟩ := Step.coveredBy_iff.mp hc
    refine .leads ⟨by rw [← hd, ← hr]; exact lead.1, lead.2.trans ht⟩ fun s hmem => ?_
    obtain ⟨t, htm, hst⟩ := hs s hmem
    exact ih t htm hst

/-- **An obligation that implies another one holds only where that one does.** -/
theorem Obligation.holds_of_implies {imposed required : Obligation} {f : Node}
    (hi : imposed.implies required = true) (h : imposed.HoldsAt G f) : required.HoldsAt G f := by
  simp only [Obligation.implies, Bool.and_eq_true, beq_iff_eq] at hi
  obtain ⟨hp, hc⟩ := hi
  unfold Obligation.HoldsAt at h ⊢
  rw [hp] at h
  split_ifs at hc with hr
  · -- a longer chain exists, so the shorter one does
    exact iff_of_true hr ((h.mp hr).of_coveredBy hc)
  · -- a shorter chain is absent, so the longer one is
    exact iff_of_false hr fun hpos => hr (h.mpr (hpos.of_coveredBy hc))

theorem Walk.StartsAt.of_unmet {target rule : Walk} {f : Node} (h : target.StartsAt G f)
    (ht : target.type = rule.type) (hu : target.unmet rule = []) : rule.StartsAt G f := by
  refine ⟨h.1.trans ht, fun required hr => ?_⟩
  obtain ⟨imposed, hi, himp⟩ := Walk.unmet_eq_nil_iff.mp hu required hr
  exact Obligation.holds_of_implies himp (h.2 imposed hi)

/-! ### Chains that are examined -/

theorem Walk.hasObligations_eq_false_iff {walk : Walk} : walk.hasObligations = false ↔
    walk.obligations = [] ∧ ∀ s ∈ walk.steps, s.next.hasObligations = false := by
  have hany : ∀ steps : List Step, Step.anyObligations steps = false ↔
      ∀ s ∈ steps, s.next.hasObligations = false := by
    intro steps
    induction steps with
    | nil => simp [Step.anyObligations]
    | cons s steps ih =>
      obtain ⟨direction, role, next⟩ := s
      simp [Step.anyObligations, ih]
  obtain ⟨type, steps, obligations⟩ := walk
  simp [Walk.hasObligations, hany]

theorem Step.Follows.leads {s c : Step} (h : s.Follows c) {f g : Node} (hl : s.Leads G f g) :
    c.Leads G f g :=
  ⟨by rw [h.direction, h.role]; exact hl.1, hl.2.trans h.covered.type_eq⟩

theorem Step.Examines.of_follows {s : Step} {f g : Node} (h : s.Examines G f g) :
    ∀ {c : Step}, s.Follows c → c.Examines G f g := by
  induction h with
  | arrive lead => exact fun hf => .arrive (hf.leads lead)
  | further lead mem _ ih =>
    intro c hf
    obtain ⟨t, ht, hst⟩ := hf.covered.step mem
    exact .further (hf.leads lead) ht (ih hst)

/-- If a chain imposes nothing, then what it follows demands nothing, so that it visits what the
chain examines. -/
theorem Step.Examines.visits_of_follows {s : Step} {f h : Node} (he : s.Examines G f h) :
    ∀ {c : Step}, s.next.hasObligations = false → s.Follows c →
      ∃ g, G.Along c.direction c.role f g ∧ c.next.Visits G g h := by
  have hstart : ∀ {s c : Step} {f g : Node}, s.next.hasObligations = false → s.Follows c →
      s.Leads G f g → c.next.StartsAt G g := by
    intro s c f g hp hf hl
    have hs : s.next.StartsAt G g :=
      ⟨hl.2, by rw [(Walk.hasObligations_eq_false_iff.mp hp).1]; simp⟩
    exact hs.of_unmet hf.covered.type_eq hf.imposed
  induction he with
  | arrive lead => exact fun hp hf => ⟨_, (hf.leads lead).1, .here (hstart hp hf lead)⟩
  | further lead mem _ ih =>
    intro c hp hf
    obtain ⟨t, ht, hst⟩ := hf.covered.step mem
    obtain ⟨g, ha, hv⟩ := ih ((Walk.hasObligations_eq_false_iff.mp hp).2 _ mem) hst
    exact ⟨_, (hf.leads lead).1, .behind (hstart hp hf lead) ht ha hv⟩

/-! ### Soundness -/

/-- A covered walk that imposes what the candidate demands visits nothing that the candidate does
not visit. -/
theorem Walk.Visits.of_coveredBy {target : Walk} {f g : Node} (h : target.Visits G f g) :
    ∀ {candidate : Walk}, target.Flat → target.CoveredBy candidate →
      target.unmet candidate = [] → candidate.Visits G f g := by
  induction h with
  | here start => exact fun _ hc hu => .here (start.of_unmet hc.type_eq hu)
  | behind start mem along _ ih =>
    intro candidate hflat hc hu
    obtain ⟨t, ht, hst⟩ := hc.step mem
    obtain ⟨_, hbehind⟩ := hflat
    refine .behind (start.of_unmet hc.type_eq hu) ht ?_ (ih (hbehind _ mem) hst.covered hst.imposed)
    rw [hst.direction, hst.role]
    exact along
  | examined start mem examines =>
    intro candidate hflat hc hu
    have hstart := start.of_unmet hc.type_eq hu
    obtain ⟨t, ht, hot⟩ := hc.obligation mem
    obtain ⟨hplain, _⟩ := hflat
    -- the rule covers an examined chain by a step of its own or by an obligation of its own
    rcases Walk.mem_examined.mp ht with ht | ⟨p, hp, rfl⟩
    · obtain ⟨g, ha, hv⟩ := examines.visits_of_follows (hplain _ mem) hot
      exact .behind hstart ht ha hv
    · exact .examined hstart hp (examines.of_follows hot)

/-- **Coverage is sound.** Where a target is permitted by a candidate, and imposes what that demands
of the fact they start from, it visits no fact that the candidate does not visit. -/
theorem Walk.visits_of_assess {subject : String} {depth : Nat} {target candidate : Walk}
    (hflat : target.Flat) (hp : target.assess subject depth candidate = .permit)
    (hu : target.unmet candidate = []) {f g : Node} (h : target.Visits G f g) :
    candidate.Visits G f g :=
  h.of_coveredBy hflat ((Walk.assess_eq_permit_iff subject target depth candidate).mp hp) hu

/-- The offices of a company that are not closed. -/
def openOffices : Walk :=
  ⟨"Company", [⟨.successor, "company", ⟨"Office", [],
    [⟨false, ⟨.successor, "office", .ofType "Closure"⟩⟩]⟩⟩], []⟩

/-- The offices of a company that are not closed, and their presidents. -/
def openOfficesWithPresidents : Walk :=
  ⟨"Company", [⟨.successor, "company", ⟨"Office", [⟨.successor, "office", .ofType "President"⟩],
    [⟨false, ⟨.successor, "office", .ofType "Closure"⟩⟩]⟩⟩], []⟩

/-- A company with an office. -/
def companyWithOffice : Graph Bool where
  type isOffice := if isOffice then "Office" else "Company"
  edge successor role predecessor := successor = true ∧ role = "company" ∧ predecessor = false

theorem openOffices_visits_office : openOffices.Visits companyWithOffice false true := by
  refine .behind ⟨rfl, by simp [openOffices]⟩ (List.mem_singleton_self _) ⟨rfl, rfl, rfl⟩
    (.here ⟨rfl, fun o ho => ?_⟩)
  obtain rfl := List.mem_singleton.mp ho
  -- no fact is a closure of the office
  refine iff_of_false (by simp) fun hposs => ?_
  cases hposs with
  | leads lead _ => exact absurd lead.1.2.2 (by simp)

theorem visits_of_assess_openOffices : openOffices.Flat ∧
    openOffices.assess "The user" 0 openOfficesWithPresidents = .permit ∧
    openOffices.unmet openOfficesWithPresidents = [] ∧
    openOfficesWithPresidents.Visits companyWithOffice false true := by
  have hflat : openOffices.Flat := by
    refine .intro (by simp [openOffices]) fun step hs => ?_
    obtain rfl := List.mem_singleton.mp hs
    exact .intro (by simp [Walk.ofType, Walk.hasObligations, Step.anyObligations]) (by simp)
  have hp : openOffices.assess "The user" 0 openOfficesWithPresidents = .permit := by rfl
  have hu : openOffices.unmet openOfficesWithPresidents = [] := by rfl
  exact ⟨hflat, hp, hu, Walk.visits_of_assess hflat hp hu openOffices_visits_office⟩

end FactGraph
