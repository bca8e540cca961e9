import FactGraph.Proofs.Plan.Bound
import FactGraph.Proofs.Specification.RoundTrip

/-! # The order of conditions

The check of a specification lets the conditions of a match refer to its unknown in any order, while
a join binds the unknown at its path condition. `Specification.inOrder` says that nothing refers to
an unknown ahead of that; it looks at the text of the specification only.

* `Specification.bound_iff_inOrder`: for what is well formed, this is all that the order of
  conditions has to satisfy.
* `Specification.plans_iff_inOrder`: exactly these accepted specifications have plans for every
  catalog and all start facts of the given types. -/

namespace FactGraph

/-! ### References -/

mutual

/-- A path in a condition starts from a label. -/
def Condition.refersTo (name : String) : Condition → Bool
  | .path path => path.labelRight == name
  | .existential _ block => Match.anyRefersTo name block

/-- A path in some matches starts from a label. -/
def Match.anyRefersTo (name : String) : List Match → Bool
  | [] => false
  | ⟨_, conditions⟩ :: rest => Condition.anyRefersTo name conditions || Match.anyRefersTo name rest

/-- A path in some conditions starts from a label. -/
def Condition.anyRefersTo (name : String) : List Condition → Bool
  | [] => false
  | condition :: rest => condition.refersTo name || Condition.anyRefersTo name rest

end

/-- The conditions that stand before the first path condition. -/
def Condition.early : List Condition → List Condition
  | .existential holds block :: rest => .existential holds block :: Condition.early rest
  | _ => []

mutual

/-- No condition in the block of a condition refers to its unknown too early. -/
def Condition.inOrder : Condition → Bool
  | .path _ => true
  | .existential _ block => Match.allInOrder block

/-- No condition of some matches, and none in their blocks, refers to the unknown of its match ahead
of the path condition of that match. -/
def Match.allInOrder : List Match → Bool
  | [] => true
  | ⟨unknown, conditions⟩ :: rest =>
    !Condition.anyRefersTo unknown.name (Condition.early conditions) &&
      Condition.allInOrder conditions && Match.allInOrder rest

def Condition.allInOrder : List Condition → Bool
  | [] => true
  | condition :: rest => condition.inOrder && Condition.allInOrder rest

end

mutual

def Projection.inOrder : Projection → Bool
  | .nested _ block projections => Match.allInOrder block && Projection.allInOrder projections
  | .field _ _ _ | .hash _ _ | .fact _ _ => true

def Projection.allInOrder : List Projection → Bool
  | [] => true
  | projection :: rest => projection.inOrder && Projection.allInOrder rest

end

/-- No condition refers to the unknown of its match ahead of the path condition of that match. -/
def Specification.inOrder (spec : Specification) : Bool :=
  Match.allInOrder spec.body && Projection.allInOrder spec.projections

/-! ### Visible and bound labels -/

/-- A label is visible. -/
def Scope.Sees (scope : Scope) (name : String) : Prop := (scope.type? name).isSome = true

theorem Scope.sees_bind_iff {scope : Scope} {label : Label} {name : String} :
    (scope.bind label).Sees name ↔ name = label.name ∨ scope.Sees name := by
  unfold Sees
  by_cases h : name = label.name
  · simp [h]
  · simp [h, type?_bind_of_ne h]

theorem Scope.not_sees_iff {scope : Scope} {name : String} :
    ¬ scope.Sees name ↔ scope.type? name = none :=
  Option.not_isSome_iff_eq_none

theorem Scope.sees_bindAll_iff : ∀ {labels : List Label} {scope : Scope} {name : String},
    (scope.bindAll labels).Sees name ↔ name ∈ labels.map Label.name ∨ scope.Sees name
  | [], _, _ => by simp [Scope.bindAll]
  | label :: rest, scope, name => by
    have h := @Scope.sees_bindAll_iff rest (scope.bind label) name
    rw [sees_bind_iff] at h
    rw [List.map_cons, List.mem_cons, or_assoc, ← or_left_comm, ← h]
    rfl

variable {scope scope' : Scope} {unknown : Label} {known : List String} {name : String}

theorem Condition.mem_foldl_binds : ∀ {conditions : List Condition} {known : List String},
    name ∈ conditions.foldl (Condition.binds unknown.name) known ↔
      name ∈ known ∨ Match.paths ⟨unknown, conditions⟩ ≠ [] ∧ name = unknown.name
  | [], known => by simp [Match.paths]
  | .path condition :: rest, known => by
    rw [List.foldl_cons, Condition.mem_foldl_binds, Condition.binds, List.mem_cons]
    simp only [Match.paths, List.filterMap_cons, ne_eq, reduceCtorEq, not_false_eq_true, true_and]
    tauto
  | .existential holds block :: rest, known => by
    rw [List.foldl_cons, Condition.mem_foldl_binds, Condition.binds]
    simp only [Match.paths, List.filterMap_cons]

theorem Match.mem_binds {m : Match} :
    name ∈ m.binds known ↔ name ∈ known ∨ m.paths ≠ [] ∧ name = m.unknown.name :=
  Condition.mem_foldl_binds

theorem Match.mem_binds_of_length {m : Match} (h : m.paths.length = 1) :
    name ∈ m.binds known ↔ name = m.unknown.name ∨ name ∈ known := by
  have hne : m.paths ≠ [] := fun hnil => by simp [hnil] at h
  rw [mem_binds, or_comm]
  simp [hne]

theorem Match.sees_iff_mem_bindsAll : ∀ {block : List Match} {scope scope' : Scope}
    {known : List String}, Match.checkAll scope block = .ok scope' →
    (∀ name, scope.Sees name ↔ name ∈ known) →
      ∀ name, scope'.Sees name ↔ name ∈ Match.bindsAll known block
  | [], _, _, _, hc, h => by
    cases hc
    exact h
  | m :: rest, scope, scope', known, hc, h => by
    obtain ⟨-, hone, -, hrest⟩ := Match.checkAll_cons_eq_ok_iff.mp hc
    have hnext : ∀ name, (scope.bind m.unknown).Sees name ↔ name ∈ m.binds known := fun name => by
      rw [Scope.sees_bind_iff, mem_binds_of_length hone, h]
    have hbehind := Match.sees_iff_mem_bindsAll hrest hnext
    exact hbehind

/-! ### What is in order is bound in time -/

theorem Condition.anyRefersTo_cons_eq_false_iff {condition : Condition} {rest : List Condition} :
    Condition.anyRefersTo name (condition :: rest) = false ↔
      condition.refersTo name = false ∧ Condition.anyRefersTo name rest = false := by
  rw [Condition.anyRefersTo, Bool.or_eq_false_iff]

theorem Match.anyRefersTo_cons_eq_false_iff {conditions : List Condition} {rest : List Match} :
    Match.anyRefersTo name (⟨unknown, conditions⟩ :: rest) = false ↔
      Condition.anyRefersTo name conditions = false ∧ Match.anyRefersTo name rest = false := by
  rw [Match.anyRefersTo, Bool.or_eq_false_iff]

mutual

/-- A condition is bound in time if it refers to no visible label that is not bound yet. -/
theorem Condition.bound_of_inOrder : ∀ {condition : Condition} {scope : Scope} {unknown : Label}
    {known : List String},
    (∀ name, scope.Sees name → name ∈ known ∨ condition.refersTo name = false) →
    condition.check scope unknown = .ok () → condition.inOrder = true → condition.Bound known
  | .path path, scope, unknown, known, hv, hc, _ => by
    obtain ⟨-, type, ht, -⟩ := PathCondition.check_eq_ok_iff.mp hc
    exact (hv path.labelRight (Option.isSome_of_eq_some ht)).resolve_right
      (by simp [Condition.refersTo])
  | .existential holds block, scope, unknown, known, hv, hc, ho => by
    obtain ⟨inner, hc⟩ := Condition.check_existential_eq_ok_iff.mp hc
    exact Match.allBound_of_allInOrder hv hc ho

theorem Condition.allBound_of_allInOrder : ∀ {conditions : List Condition} {scope : Scope}
    {unknown : Label} {known : List String},
    (∀ name, scope.Sees name → name ≠ unknown.name →
      name ∈ known ∨ Condition.anyRefersTo name conditions = false) →
    (unknown.name ∈ known ∨
      Condition.anyRefersTo unknown.name (Condition.early conditions) = false) →
    Condition.checkAll scope unknown conditions = .ok () →
    Condition.allInOrder conditions = true → Condition.AllBound known unknown.name conditions
  | [], _, _, _, _, _, _, _ => trivial
  | .path path :: rest, scope, unknown, known, hv, _, hc, ho => by
    obtain ⟨hc, hrest⟩ := Except.bind_unit_eq_ok_iff.mp hc
    obtain ⟨ho, horest⟩ := Bool.and_eq_true_iff.mp ho
    refine ⟨Condition.bound_of_inOrder (fun name hs => ?_) hc ho,
      Condition.allBound_of_allInOrder (fun name hs hne => ?_) (Or.inl List.mem_cons_self) hrest
        horest⟩
    · -- a path condition does not start from its own unknown
      by_cases hn : name = unknown.name
      · obtain ⟨hself, -⟩ := PathCondition.check_eq_ok_iff.mp hc
        exact Or.inr (by simpa [Condition.refersTo, hn] using hself)
      · exact (hv name hs hn).imp_right fun h =>
          (Condition.anyRefersTo_cons_eq_false_iff.mp h).1
    · exact (hv name hs hne).imp (List.mem_cons_of_mem _) fun h =>
        (Condition.anyRefersTo_cons_eq_false_iff.mp h).2
  | .existential holds block :: rest, scope, unknown, known, hv, hu, hc, ho => by
    obtain ⟨hc, hrest⟩ := Except.bind_unit_eq_ok_iff.mp hc
    obtain ⟨ho, horest⟩ := Bool.and_eq_true_iff.mp ho
    have hearly := hu.imp_right Condition.anyRefersTo_cons_eq_false_iff.mp
    refine ⟨Condition.bound_of_inOrder (fun name hs => ?_) hc ho,
      Condition.allBound_of_allInOrder (fun name hs hne => ?_) (hearly.imp_right And.right) hrest
        horest⟩
    · by_cases hn : name = unknown.name
      · rw [hn]
        exact hearly.imp_right And.left
      · exact (hv name hs hn).imp_right fun h =>
          (Condition.anyRefersTo_cons_eq_false_iff.mp h).1
    · exact (hv name hs hne).imp_right fun h =>
        (Condition.anyRefersTo_cons_eq_false_iff.mp h).2

/-- **Matches that are in order are bound in time**, if they refer to no visible label that is not
bound yet. -/
theorem Match.allBound_of_allInOrder : ∀ {block : List Match} {scope scope' : Scope}
    {known : List String},
    (∀ name, scope.Sees name → name ∈ known ∨ Match.anyRefersTo name block = false) →
    Match.checkAll scope block = .ok scope' → Match.allInOrder block = true →
    Match.AllBound known block
  | [], _, _, _, _, _, _ => trivial
  | ⟨unknown, conditions⟩ :: rest, scope, scope', known, hv, hc, ho => by
    obtain ⟨-, hone, hc, hrest⟩ := Match.checkAll_cons_eq_ok_iff.mp hc
    simp only [Match.allInOrder, Bool.and_eq_true, Bool.not_eq_true'] at ho
    obtain ⟨⟨hearly, ho⟩, horest⟩ := ho
    have hold : ∀ name, (scope.bind unknown).Sees name → name ≠ unknown.name →
        name ∈ known ∨ Condition.anyRefersTo name conditions = false ∧
          Match.anyRefersTo name rest = false := fun name hs hne =>
      (hv name ((Scope.sees_bind_iff.mp hs).resolve_left hne)).imp_right
        Match.anyRefersTo_cons_eq_false_iff.mp
    refine ⟨Condition.allBound_of_allInOrder
      (fun name hs hne => (hold name hs hne).imp_right And.left) (Or.inr hearly) hc ho,
      Match.allBound_of_allInOrder (fun name hs => ?_) hrest horest⟩
    rw [Match.mem_binds_of_length hone]
    by_cases hn : name = unknown.name
    · exact Or.inl (Or.inl hn)
    · exact (hold name hs hn).imp Or.inr And.right

end

/-! ### What is bound in time is in order -/

mutual

theorem Condition.not_refersTo_of_bound : ∀ {condition : Condition} {scope : Scope}
    {unknown : Label} {known : List String} {name : String}, condition.Bound known →
    name ∉ known → scope.Sees name → condition.check scope unknown = .ok () →
    condition.refersTo name = false
  | .path path, _, _, _, name, hb, hn, _, _ => by
    rw [Condition.refersTo, beq_eq_false_iff_ne]
    rintro rfl
    exact hn hb
  | .existential holds block, _, _, _, name, hb, hn, hs, hc => by
    obtain ⟨inner, hc⟩ := Condition.check_existential_eq_ok_iff.mp hc
    exact Match.not_anyRefersTo_of_allBound hb hn hs hc

theorem Condition.not_anyRefersTo_of_allBound : ∀ {conditions : List Condition} {scope : Scope}
    {unknown : Label} {known : List String} {name : String},
    Condition.AllBound known unknown.name conditions → name ∉ known → name ≠ unknown.name →
    scope.Sees name → Condition.checkAll scope unknown conditions = .ok () →
    Condition.anyRefersTo name conditions = false
  | [], _, _, _, _, _, _, _, _, _ => rfl
  | condition :: rest, scope, unknown, known, name, ⟨hb, hbrest⟩, hn, hne, hs, hc => by
    obtain ⟨hc, hrest⟩ := Except.bind_unit_eq_ok_iff.mp hc
    have hn' : name ∉ condition.binds unknown.name known := by
      cases condition <;> simp [Condition.binds, hn, hne]
    exact Condition.anyRefersTo_cons_eq_false_iff.mpr
      ⟨Condition.not_refersTo_of_bound hb hn hs hc,
        Condition.not_anyRefersTo_of_allBound hbrest hn' hne hs hrest⟩

theorem Match.not_anyRefersTo_of_allBound : ∀ {block : List Match} {scope scope' : Scope}
    {known : List String} {name : String}, Match.AllBound known block → name ∉ known →
    scope.Sees name → Match.checkAll scope block = .ok scope' →
    Match.anyRefersTo name block = false
  | [], _, _, _, _, _, _, _, _ => rfl
  | ⟨unknown, conditions⟩ :: rest, scope, scope', known, name, ⟨hb, hbrest⟩, hn, hs, hc => by
    obtain ⟨hnew, hone, hc, hrest⟩ := Match.checkAll_cons_eq_ok_iff.mp hc
    have hne : name ≠ unknown.name := by
      rintro rfl
      exact Scope.not_sees_iff.mpr hnew hs
    have hs' : (scope.bind unknown).Sees name := Scope.sees_bind_iff.mpr (Or.inr hs)
    have hn' : name ∉ Match.binds known ⟨unknown, conditions⟩ := by
      rw [Match.mem_binds_of_length hone]
      exact not_or.mpr ⟨hne, hn⟩
    exact Match.anyRefersTo_cons_eq_false_iff.mpr
      ⟨Condition.not_anyRefersTo_of_allBound hb hn hne hs' hc,
        Match.not_anyRefersTo_of_allBound hbrest hn' hs' hrest⟩

end

/-- Conditions that are bound in time do not refer too early to an unknown that is not bound yet. -/
theorem Condition.not_early_of_allBound : ∀ {conditions : List Condition},
    Condition.AllBound known unknown.name conditions → unknown.name ∉ known →
    scope.Sees unknown.name → Condition.checkAll scope unknown conditions = .ok () →
    Condition.anyRefersTo unknown.name (Condition.early conditions) = false
  | [], _, _, _, _ => rfl
  | .path _ :: _, _, _, _, _ => rfl
  | .existential holds block :: rest, ⟨hb, hbrest⟩, hn, hs, hc => by
    obtain ⟨hc, hrest⟩ := Except.bind_unit_eq_ok_iff.mp hc
    exact Condition.anyRefersTo_cons_eq_false_iff.mpr
      ⟨Condition.not_refersTo_of_bound hb hn hs hc,
        Condition.not_early_of_allBound hbrest hn hs hrest⟩

mutual

theorem Condition.inOrder_of_bound : ∀ {condition : Condition} {scope : Scope} {unknown : Label}
    {known : List String}, (∀ name ∈ known, scope.Sees name) → condition.Bound known →
    condition.check scope unknown = .ok () → condition.inOrder = true
  | .path _, _, _, _, _, _, _ => rfl
  | .existential holds block, _, _, _, hv, hb, hc => by
    obtain ⟨inner, hc⟩ := Condition.check_existential_eq_ok_iff.mp hc
    exact Match.allInOrder_of_allBound hv hb hc

theorem Condition.allInOrder_of_allBound : ∀ {conditions : List Condition} {scope : Scope}
    {unknown : Label} {known : List String}, (∀ name ∈ known, scope.Sees name) →
    scope.Sees unknown.name → Condition.AllBound known unknown.name conditions →
    Condition.checkAll scope unknown conditions = .ok () → Condition.allInOrder conditions = true
  | [], _, _, _, _, _, _, _ => rfl
  | condition :: rest, scope, unknown, known, hv, hu, ⟨hb, hbrest⟩, hc => by
    obtain ⟨hc, hrest⟩ := Except.bind_unit_eq_ok_iff.mp hc
    have hv' : ∀ name ∈ condition.binds unknown.name known, scope.Sees name := by
      cases condition
      · exact List.forall_mem_cons.mpr ⟨hu, hv⟩
      · exact hv
    exact Bool.and_eq_true_iff.mpr ⟨Condition.inOrder_of_bound hv hb hc,
      Condition.allInOrder_of_allBound hv' hu hbrest hrest⟩

/-- **Matches that are bound in time are in order**, if only visible labels are bound. -/
theorem Match.allInOrder_of_allBound : ∀ {block : List Match} {scope scope' : Scope}
    {known : List String}, (∀ name ∈ known, scope.Sees name) → Match.AllBound known block →
    Match.checkAll scope block = .ok scope' → Match.allInOrder block = true
  | [], _, _, _, _, _, _ => rfl
  | ⟨unknown, conditions⟩ :: rest, scope, scope', known, hv, ⟨hb, hbrest⟩, hc => by
    obtain ⟨hnew, hone, hc, hrest⟩ := Match.checkAll_cons_eq_ok_iff.mp hc
    have hn : unknown.name ∉ known := fun hm => Scope.not_sees_iff.mpr hnew (hv _ hm)
    have hu : (scope.bind unknown).Sees unknown.name := Scope.sees_bind_iff.mpr (Or.inl rfl)
    have hv' : ∀ name ∈ known, (scope.bind unknown).Sees name := fun name hm =>
      Scope.sees_bind_iff.mpr (Or.inr (hv name hm))
    have hrest' : Match.allInOrder rest = true := by
      refine Match.allInOrder_of_allBound (fun name hm => ?_) hbrest hrest
      rw [Match.mem_binds_of_length hone] at hm
      exact Scope.sees_bind_iff.mpr (hm.imp_right (hv name))
    simp only [Match.allInOrder, Bool.and_eq_true, Bool.not_eq_true']
    exact ⟨⟨Condition.not_early_of_allBound hb hn hu hc,
      Condition.allInOrder_of_allBound hv' hu hb hc⟩, hrest'⟩

end

/-! ### Projections and specifications -/

mutual

theorem Projection.bound_iff_inOrder : ∀ {projection : Projection} {scope : Scope}
    {known : List String}, (∀ name, scope.Sees name ↔ name ∈ known) →
    projection.check scope = .ok () → (projection.Bound known ↔ projection.inOrder = true)
  | .nested name block projections, scope, known, hv, hc => by
    obtain ⟨inner, hblock, hc⟩ := Except.bind_eq_ok_iff.mp hc
    have hdeeper := Projection.allBound_iff_allInOrder (Match.sees_iff_mem_bindsAll hblock hv) hc
    rw [Projection.Bound, Projection.inOrder, Bool.and_eq_true, hdeeper]
    exact and_congr_left fun _ =>
      ⟨fun hb => Match.allInOrder_of_allBound (fun name hm => (hv name).mpr hm) hb hblock,
        fun ho => Match.allBound_of_allInOrder (fun name hs => Or.inl ((hv name).mp hs)) hblock ho⟩
  | .field _ _ _, _, _, _, _ => iff_of_true trivial rfl
  | .hash _ _, _, _, _, _ => iff_of_true trivial rfl
  | .fact _ _, _, _, _, _ => iff_of_true trivial rfl

theorem Projection.allBound_iff_allInOrder : ∀ {projections : List Projection} {scope : Scope}
    {known : List String}, (∀ name, scope.Sees name ↔ name ∈ known) →
    Projection.checkAll scope projections = .ok () →
    (Projection.AllBound known projections ↔ Projection.allInOrder projections = true)
  | [], _, _, _, _ => iff_of_true trivial rfl
  | projection :: rest, scope, known, hv, hc => by
    obtain ⟨hc, hrest⟩ := Except.bind_unit_eq_ok_iff.mp hc
    rw [Projection.AllBound, Projection.allInOrder, Bool.and_eq_true,
      Projection.bound_iff_inOrder hv hc, Projection.allBound_iff_allInOrder hv hrest]

end

/-- The catalog that gives everything one number. -/
def Schema.single : Schema := ⟨fun _ => some 1, fun _ _ => some 1⟩

theorem Schema.complete_single : Schema.single.Complete := fun _ _ => rfl

namespace Specification

variable {spec : Specification}

/-- **A well-formed specification is bound in time exactly if it is in order.** -/
theorem bound_iff_inOrder (h : spec.check = .ok ()) : spec.Bound ↔ spec.inOrder = true := by
  obtain ⟨scope, hd, h⟩ := Except.bind_eq_ok_iff.mp h
  obtain ⟨inner, hbody, hprojections⟩ := Except.bind_eq_ok_iff.mp h
  obtain ⟨rfl, -, -⟩ := Scope.declareAll_eq_ok hd
  have hv : ∀ name, (Scope.bindAll [] spec.given).Sees name ↔
      name ∈ spec.given.map Label.name := fun name => by
    rw [Scope.sees_bindAll_iff]
    simp [Scope.Sees, Scope.type?]
  rw [Bound, inOrder, Bool.and_eq_true,
    Projection.allBound_iff_allInOrder (Match.sees_iff_mem_bindsAll hbody hv) hprojections]
  exact and_congr_left fun _ =>
    ⟨fun hb => Match.allInOrder_of_allBound (fun name hm => (hv name).mpr hm) hb hbody,
      fun ho => Match.allBound_of_allInOrder (fun name hs => Or.inl ((hv name).mp hs)) hbody ho⟩

/-- **Exactly the accepted specifications that are in order have plans** for every catalog and all
start facts of the given types. -/
theorem plans_iff_inOrder (h : spec.Accepted) :
    (∀ (schema : Schema) (start : List FactReference),
      start.map FactReference.type = spec.given.map Label.type →
        ∃ plans, spec.plans schema start = .ok plans) ↔ spec.inOrder = true := by
  rw [← bound_iff_inOrder h.check]
  constructor
  · intro hplans
    let start : List FactReference := spec.given.map fun label => ⟨label.type, ""⟩
    have hs : start.map FactReference.type = spec.given.map Label.type := by
      simp [start, Function.comp_def]
    obtain ⟨plans, hp⟩ := hplans Schema.single start hs
    exact bound_of_plans Schema.complete_single hp
  · exact fun hb schema start hs => exists_plans hb hs

theorem exists_plans_withoutDeletion :
    ∃ plans, (projectsWhere false [deletion]).plans Schema.single [⟨"Root", "r"⟩] = .ok plans :=
  (plans_iff_inOrder accepted_withoutDeletion).mpr (by decide) _ _ rfl

/-- The projects of a root that have a deletion, which is demanded ahead of the path. -/
def deletedProjects : Specification :=
  ⟨[⟨"root", "Root"⟩], [⟨⟨"p", "Project"⟩, [.existential true [deletion],
    .path ⟨[⟨"root", "Root"⟩], "root", []⟩]⟩], []⟩

theorem accepted_deletedProjects : deletedProjects.Accepted :=
  accepted_of_isPrintable rfl rfl

/-- **Not everything that is accepted has plans.** -/
theorem not_forall_exists_plans : ¬ ∀ (spec : Specification) (schema : Schema)
    (start : List FactReference), spec.Accepted →
    start.map FactReference.type = spec.given.map Label.type →
      ∃ plans, spec.plans schema start = .ok plans := by
  intro h
  obtain ⟨plans, hp⟩ := h _ Schema.single [⟨"Root", "r"⟩] accepted_deletedProjects rfl
  have herror : deletedProjects.plans Schema.single [⟨"Root", "r"⟩] =
      .error (.unknownLabel "p") := rfl
  rw [herror] at hp
  cases hp

end Specification

end FactGraph
