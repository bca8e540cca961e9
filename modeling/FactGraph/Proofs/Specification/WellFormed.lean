import FactGraph.Proofs.Specification.Scope
import Mathlib.Data.List.Nodup

/-! # Well-formed specifications

What makes a specification well formed, told of its places and not of an order in which they are
visited. A match sees the labels given to its level, the unknowns of the matches before it, and
those of the matches around its block; a level is the specification itself or a nested projection,
which sees the labels of the level around it. What stands in a block is visible to nothing else.

* `Match.exists_checkAll_iff`: the check of matches passes if each match fits in its place.
* `Projection.checkAll_iff`: the same of projections and the levels inside of them.
* `Specification.check_eq_ok_iff_wellFormed`: the check decides well-formedness. -/

namespace FactGraph

/-! ### Places -/

/-- A match is one of some matches or stands in a block inside of them, at whatever depth. It sees
the labels `seen`, if the matches see the labels `visible`. -/
inductive Match.PlacedIn (seen : List Label) (m : Match) :
    (visible : List Label) → List Match → Prop
  | here {rest : List Match} : PlacedIn seen m seen (m :: rest)
  | behind {visible : List Label} {first : Match} {rest : List Match} :
      PlacedIn seen m (visible ++ [first.unknown]) rest → PlacedIn seen m visible (first :: rest)
  | inside {visible : List Label} {first : Match} {rest block : List Match} {holds : Bool} :
      .existential holds block ∈ first.conditions →
      PlacedIn seen m (visible ++ [first.unknown]) block → PlacedIn seen m visible (first :: rest)

/-- Matches and the projections behind them, with the labels that are visible in front of both. -/
structure Level where
  visible : List Label
  body : List Match
  projections : List Projection

/-- The labels that are visible to the projections of a level. -/
def Level.labels (level : Level) : List Label := level.visible ++ level.body.map Match.unknown

/-- A level is that of a nested projection inside of another one, at whatever depth, or the other
one itself. -/
inductive Level.Within (inner : Level) : (outer : Level) → Prop
  | self : Within inner inner
  | nested {outer : Level} {name : String} {body : List Match} {projections : List Projection} :
      .nested name body projections ∈ outer.projections →
      Within inner ⟨outer.labels, body, projections⟩ → Within inner outer

/-- The level of a whole specification. -/
def Specification.level (spec : Specification) : Level := ⟨spec.given, spec.body, spec.projections⟩

/-! ### What is well formed -/

/-- The label that a scalar projection reports about. -/
def Projection.label? : Projection → Option String
  | .field _ label _ | .hash _ label | .fact _ label => some label
  | .nested _ _ _ => none

/-- What is asked of a match that sees some labels. -/
structure Match.FitsIn (visible : List Label) (m : Match) : Prop where
  /-- No label is declared twice along the scopes around the match. -/
  distinct : ((visible ++ [m.unknown]).map Label.name).Nodup
  onePath : m.paths.length = 1
  /-- A path does not start from the unknown itself. -/
  attached : ∀ path ∈ m.paths, path.labelRight ≠ m.unknown.name
  sees : ∀ path ∈ m.paths, path.labelRight ∈ visible.map Label.name
  /-- Both sides of a path arrive at one type. -/
  meets : ∀ path ∈ m.paths, ∀ right ∈ visible, right.name = path.labelRight →
    endType m.unknown.type path.rolesLeft = endType right.type path.rolesRight

/-- What is asked of the matches and the scalar projections of a level. -/
structure Level.WellFormed (level : Level) : Prop where
  body : ∀ seen m, Match.PlacedIn seen m level.visible level.body → m.FitsIn seen
  scalars : ∀ projection ∈ level.projections, ∀ label ∈ projection.label?,
    label ∈ level.labels.map Label.name

/-- **A specification is well formed**: no given label is declared twice, and its level and those of
all nested projections are well formed. -/
structure Specification.WellFormed (spec : Specification) : Prop where
  given : (spec.given.map Label.name).Nodup
  levels : ∀ level : Level, level.Within spec.level → level.WellFormed

/-! ### Statements about all places -/

theorem Match.not_placedIn_nil {seen visible : List Label} {m : Match} :
    ¬ Match.PlacedIn seen m visible [] := by
  rintro ⟨⟩

/-- The matches that stand in some matches are the first of them, those in its blocks and those
behind it. -/
theorem Match.forall_placedIn_cons_iff {P : List Label → Match → Prop} {visible : List Label}
    {first : Match} {rest : List Match} :
    (∀ seen m, Match.PlacedIn seen m visible (first :: rest) → P seen m) ↔ P visible first ∧
      (∀ holds block, .existential holds block ∈ first.conditions →
        ∀ seen m, Match.PlacedIn seen m (visible ++ [first.unknown]) block → P seen m) ∧
      ∀ seen m, Match.PlacedIn seen m (visible ++ [first.unknown]) rest → P seen m := by
  constructor
  · intro h
    exact ⟨h _ _ .here, fun _ _ hm seen m hs => h seen m (.inside hm hs),
      fun seen m hs => h seen m (.behind hs)⟩
  · rintro ⟨hhere, hinside, hbehind⟩ seen m (_ | hs | ⟨hm, hs⟩)
    · exact hhere
    · exact hbehind seen m hs
    · exact hinside _ _ hm seen m hs

/-- The levels within a level are the level itself and those within its nested projections. -/
theorem Level.forall_within_iff {P : Level → Prop} {level : Level} :
    (∀ inner, inner.Within level → P inner) ↔ P level ∧
      ∀ name body projections, .nested name body projections ∈ level.projections →
        ∀ inner, inner.Within ⟨level.labels, body, projections⟩ → P inner := by
  constructor
  · intro h
    exact ⟨h _ .self, fun _ _ _ hm inner hw => h inner (.nested hm hw)⟩
  · rintro ⟨hself, hnested⟩ inner (_ | ⟨hm, hw⟩)
    · exact hself
    · exact hnested _ _ _ hm inner hw

/-! ### Scopes and visible labels -/

/-- The labels that are visible in a scope are those of a list, in which each name stands once. -/
structure Scope.Lists (scope : Scope) (visible : List Label) : Prop where
  nodup : (visible.map Label.name).Nodup
  type?_iff : ∀ {name type : String}, scope.type? name = some type ↔ ⟨name, type⟩ ∈ visible

namespace Scope.Lists

variable {scope scope' : Scope} {visible : List Label} {label : Label} {name : String}

theorem nil : Scope.Lists [] [] := ⟨List.nodup_nil, by simp [Scope.type?]⟩

theorem type?_of_mem (h : scope.Lists visible) (hm : label ∈ visible) :
    scope.type? label.name = some label.type :=
  h.type?_iff.mpr hm

theorem exists_type?_iff (h : scope.Lists visible) :
    (∃ type, scope.type? name = some type) ↔ name ∈ visible.map Label.name := by
  rw [List.mem_map]
  constructor
  · rintro ⟨type, ht⟩
    exact ⟨_, h.type?_iff.mp ht, rfl⟩
  · rintro ⟨label, hm, rfl⟩
    exact ⟨_, h.type?_of_mem hm⟩

theorem type?_eq_none_iff (h : scope.Lists visible) :
    scope.type? name = none ↔ name ∉ visible.map Label.name := by
  rw [← h.exists_type?_iff, Option.eq_none_iff_forall_ne_some, not_exists]

/-- A label that is not visible yet is visible behind the others once it is bound. -/
theorem bind (h : scope.Lists visible) (hnew : label.name ∉ visible.map Label.name) :
    (scope.bind label).Lists (visible ++ [label]) where
  nodup := by
    rw [List.map_append, List.map_singleton]
    exact List.nodup_append.mpr ⟨h.nodup, List.nodup_singleton _, fun a ha b hb he =>
      hnew (by rwa [← List.mem_singleton.mp hb, ← he])⟩
  type?_iff {name type} := by
    rw [List.mem_append, List.mem_singleton]
    by_cases hn : name = label.name
    · subst hn
      have hold : ⟨label.name, type⟩ ∉ visible := fun hm => hnew (List.mem_map.mpr ⟨_, hm, rfl⟩)
      rw [Scope.type?_bind_self, or_iff_right hold, Option.some_inj, eq_comm]
      exact ⟨fun he => by rw [he], congrArg Label.type⟩
    · have hne : ⟨name, type⟩ ≠ label := fun he => hn (by rw [← he])
      rw [Scope.type?_bind_of_ne hn, h.type?_iff, or_iff_left hne]

theorem of_declareAll : ∀ {labels visible : List Label} {scope scope' : Scope},
    scope.Lists visible → scope.declareAll labels = .ok scope' →
    scope'.Lists (visible ++ labels)
  | [], visible, scope, scope', h, hd => by
    cases hd
    rwa [List.append_nil]
  | label :: rest, visible, scope, scope', h, hd => by
    obtain ⟨inner, hi, hd⟩ := Except.bind_eq_ok_iff.mp hd
    obtain ⟨hnew, rfl⟩ := Scope.declare_eq_ok_iff.mp hi
    rw [List.append_cons]
    exact of_declareAll (h.bind (h.type?_eq_none_iff.mp hnew)) hd

theorem declareAll_iff : ∀ {labels visible : List Label} {scope : Scope}, scope.Lists visible →
    ((∃ scope', scope.declareAll labels = .ok scope') ↔ ((visible ++ labels).map Label.name).Nodup)
  | [], visible, scope, h => by
    rw [List.append_nil]
    exact iff_of_true ⟨scope, rfl⟩ h.nodup
  | label :: rest, visible, scope, h => by
    constructor
    · rintro ⟨scope', hd⟩
      exact (h.of_declareAll hd).nodup
    · intro hn
      have hnew : label.name ∉ visible.map Label.name := fun hm => by
        rw [List.map_append, List.nodup_append] at hn
        exact hn.2.2 _ hm _ (by simp) rfl
      rw [List.append_cons] at hn
      obtain ⟨scope', hd⟩ := (declareAll_iff (h.bind hnew)).mpr hn
      exact ⟨scope', Except.bind_eq_ok_iff.mpr
        ⟨_, Scope.declare_eq_ok_iff.mpr ⟨h.type?_eq_none_iff.mpr hnew, rfl⟩, hd⟩⟩

end Scope.Lists

/-! ### Matches -/

theorem Match.lists_of_checkAll : ∀ {block : List Match} {scope scope' : Scope}
    {visible : List Label}, scope.Lists visible → Match.checkAll scope block = .ok scope' →
    scope'.Lists (visible ++ block.map Match.unknown)
  | [], scope, scope', visible, h, hc => by
    cases hc
    rwa [List.map_nil, List.append_nil]
  | m :: rest, scope, scope', visible, h, hc => by
    obtain ⟨hnew, -, -, hrest⟩ := Match.checkAll_cons_eq_ok_iff.mp hc
    rw [List.map_cons, List.append_cons]
    exact Match.lists_of_checkAll (h.bind (h.type?_eq_none_iff.mp hnew)) hrest

/-- The check of a path condition, told of the labels that are visible in front of its match. -/
theorem Scope.Lists.check_path_iff {scope : Scope} {visible : List Label} {unknown : Label}
    {path : PathCondition} (h : scope.Lists visible) :
    path.check (scope.bind unknown) unknown = .ok () ↔ path.labelRight ≠ unknown.name ∧
      path.labelRight ∈ visible.map Label.name ∧
      ∀ right ∈ visible, right.name = path.labelRight →
        endType unknown.type path.rolesLeft = endType right.type path.rolesRight := by
  rw [PathCondition.check_eq_ok_iff]
  refine and_congr_right fun hne => ?_
  rw [Scope.type?_bind_of_ne hne]
  constructor
  · rintro ⟨type, ht, he⟩
    refine ⟨h.exists_type?_iff.mp ⟨type, ht⟩, fun right hm hn => ?_⟩
    rw [← hn, h.type?_of_mem hm, Option.some_inj] at ht
    rw [he, ht]
  · rintro ⟨hs, hall⟩
    obtain ⟨right, hm, hn⟩ := List.mem_map.mp hs
    exact ⟨right.type, hn ▸ h.type?_of_mem hm, hall right hm hn⟩

theorem Match.fitsIn_iff {scope : Scope} {visible : List Label} {m : Match}
    (h : scope.Lists visible) (hnew : m.unknown.name ∉ visible.map Label.name) :
    m.FitsIn visible ↔ m.paths.length = 1 ∧
      ∀ path ∈ m.paths, path.check (scope.bind m.unknown) m.unknown = .ok () := by
  simp only [h.check_path_iff]
  constructor
  · intro hm
    exact ⟨hm.onePath, fun path hp => ⟨hm.attached path hp, hm.sees path hp, hm.meets path hp⟩⟩
  · rintro ⟨hone, hpaths⟩
    exact ⟨(h.bind hnew).nodup, hone, fun path hp => (hpaths path hp).1,
      fun path hp => (hpaths path hp).2.1, fun path hp => (hpaths path hp).2.2⟩

mutual

/-- The check of conditions passes if their path conditions pass it, and the matches in their blocks
fit in their places. -/
theorem Condition.checkAll_iff : ∀ (conditions : List Condition) {scope : Scope}
    {unknown : Label} {labels : List Label}, scope.Lists labels →
    (Condition.checkAll scope unknown conditions = .ok () ↔
      (∀ path ∈ Match.paths ⟨unknown, conditions⟩, path.check scope unknown = .ok ()) ∧
      ∀ holds block, .existential holds block ∈ conditions →
        ∀ seen m, Match.PlacedIn seen m labels block → m.FitsIn seen)
  | [], scope, unknown, labels, _ => by
    simp [Condition.checkAll, Match.paths]
  | .path path :: rest, scope, unknown, labels, h => by
    rw [Condition.checkAll, Except.bind_unit_eq_ok_iff, Condition.checkAll_iff rest h]
    simp [Condition.check, Match.paths, and_assoc]
  | .existential holds block :: rest, scope, unknown, labels, h => by
    rw [Condition.checkAll, Except.bind_unit_eq_ok_iff, Condition.checkAll_iff rest h,
      Condition.check_existential_eq_ok_iff, Match.exists_checkAll_iff block h, and_left_comm]
    refine and_congr_right fun _ => ?_
    simp only [List.mem_cons, Condition.existential.injEq]
    constructor
    · rintro ⟨hfirst, hothers⟩ holds' block' (⟨rfl, rfl⟩ | hm)
      · exact hfirst
      · exact hothers holds' block' hm
    · intro hall
      exact ⟨hall holds block (Or.inl ⟨rfl, rfl⟩), fun holds' block' hm =>
        hall holds' block' (Or.inr hm)⟩

/-- **The check of matches passes exactly if each match among them and inside of them fits in its
place.** -/
theorem Match.exists_checkAll_iff : ∀ (block : List Match) {scope : Scope} {visible : List Label},
    scope.Lists visible → ((∃ scope', Match.checkAll scope block = .ok scope') ↔
      ∀ seen m, Match.PlacedIn seen m visible block → m.FitsIn seen)
  | [], scope, visible, _ =>
    iff_of_true ⟨scope, rfl⟩ fun _ _ hs => absurd hs Match.not_placedIn_nil
  | ⟨unknown, conditions⟩ :: rest, scope, visible, h => by
    rw [Match.forall_placedIn_cons_iff]
    simp only [Match.checkAll_cons_eq_ok_iff, exists_and_left, h.type?_eq_none_iff]
    by_cases hnew : unknown.name ∈ visible.map Label.name
    · -- a label that is visible already cannot be declared
      refine iff_of_false (fun hc => hc.1 hnew) fun hall => ?_
      have hdistinct := hall.1.distinct
      rw [List.map_append, List.nodup_append] at hdistinct
      exact hdistinct.2.2 _ hnew _ (by simp) rfl
    · have hbound := h.bind hnew
      rw [Condition.checkAll_iff conditions hbound, Match.exists_checkAll_iff rest hbound,
        Match.fitsIn_iff h hnew]
      simp only [hnew, not_false_eq_true, true_and, and_assoc]

end

/-! ### Projections -/

/-- What is asked of a projection that sees some labels: of the label that it reports about, and of
the levels inside of it. -/
def Projection.FitsIn (labels : List Label) (projection : Projection) : Prop :=
  (∀ label ∈ projection.label?, label ∈ labels.map Label.name) ∧
    ∀ name body projections, projection = .nested name body projections →
      ∀ level : Level, level.Within ⟨labels, body, projections⟩ → level.WellFormed

theorem Level.forall_wellFormed_iff {level : Level} :
    (∀ inner : Level, inner.Within level → inner.WellFormed) ↔
      (∀ seen m, Match.PlacedIn seen m level.visible level.body → m.FitsIn seen) ∧
      ∀ projection ∈ level.projections, projection.FitsIn level.labels := by
  rw [Level.forall_within_iff]
  constructor
  · rintro ⟨hself, hnested⟩
    refine ⟨hself.body, fun projection hm => ⟨hself.scalars projection hm, ?_⟩⟩
    rintro name body projections rfl
    exact hnested name body projections hm
  · rintro ⟨hbody, hprojections⟩
    exact ⟨⟨hbody, fun projection hm => (hprojections projection hm).1⟩,
      fun name body projections hm => (hprojections _ hm).2 name body projections rfl⟩

theorem Scope.checkLabel_eq_ok_iff {scope : Scope} {name : String} :
    scope.checkLabel name = .ok () ↔ ∃ type, scope.type? name = some type := by
  unfold Scope.checkLabel
  rcases scope.type? name with _ | type <;> simp

/-- The check of a scalar projection passes if the label that it reports about is visible. -/
theorem Projection.checkLabel_iff {scope : Scope} {labels : List Label} {projection : Projection}
    {label : String} (h : scope.Lists labels) (hl : projection.label? = some label) :
    scope.checkLabel label = .ok () ↔ projection.FitsIn labels := by
  rw [Scope.checkLabel_eq_ok_iff, h.exists_type?_iff, Projection.FitsIn, hl]
  simp only [Option.mem_some_iff, forall_eq', iff_self_and]
  rintro - name body projections rfl
  cases hl

mutual

theorem Projection.check_iff : ∀ (projection : Projection) {scope : Scope} {labels : List Label},
    scope.Lists labels → (projection.check scope = .ok () ↔ projection.FitsIn labels)
  | .field _ _ _, _, _, h => Projection.checkLabel_iff h rfl
  | .hash _ _, _, _, h => Projection.checkLabel_iff h rfl
  | .fact _ _, _, _, h => Projection.checkLabel_iff h rfl
  | .nested name block projections, scope, labels, h => by
    have hlevel := @Level.forall_wellFormed_iff ⟨labels, block, projections⟩
    have hfits : (Projection.nested name block projections).FitsIn labels ↔
        ∀ level : Level, level.Within ⟨labels, block, projections⟩ → level.WellFormed := by
      simp only [Projection.FitsIn, Projection.label?, Projection.nested.injEq]
      exact ⟨fun hall => hall.2 name block projections ⟨rfl, rfl, rfl⟩,
        fun hall => ⟨by simp, by rintro _ _ _ ⟨rfl, rfl, rfl⟩; exact hall⟩⟩
    rw [hfits, hlevel, ← Match.exists_checkAll_iff block h, Projection.check]
    simp only [Except.bind_eq_ok_iff]
    constructor
    · rintro ⟨inner, hc, hp⟩
      exact ⟨⟨inner, hc⟩,
        (Projection.checkAll_iff projections (Match.lists_of_checkAll h hc)).mp hp⟩
    · rintro ⟨⟨inner, hc⟩, hp⟩
      exact ⟨inner, hc,
        (Projection.checkAll_iff projections (Match.lists_of_checkAll h hc)).mpr hp⟩

/-- The check of projections passes exactly if each of them, and each level inside of them, is well
formed. -/
theorem Projection.checkAll_iff : ∀ (projections : List Projection) {scope : Scope}
    {labels : List Label}, scope.Lists labels → (Projection.checkAll scope projections = .ok () ↔
      ∀ projection ∈ projections, projection.FitsIn labels)
  | [], _, _, _ => by simp [Projection.checkAll]
  | projection :: rest, scope, labels, h => by
    rw [Projection.checkAll, Except.bind_unit_eq_ok_iff, Projection.check_iff projection h,
      Projection.checkAll_iff rest h, List.forall_mem_cons]

end

/-! ### Specifications -/

/-- **The check decides well-formedness.** -/
theorem Specification.check_eq_ok_iff_wellFormed (spec : Specification) :
    spec.check = .ok () ↔ spec.WellFormed := by
  have hlevels := @Level.forall_wellFormed_iff spec.level
  simp only [Specification.check, Except.bind_eq_ok_iff]
  constructor
  · rintro ⟨given, hgiven, inner, hbody, hprojections⟩
    have hlists := Scope.Lists.of_declareAll .nil hgiven
    exact ⟨hlists.nodup, hlevels.mpr
      ⟨(Match.exists_checkAll_iff spec.body hlists).mp ⟨inner, hbody⟩,
        (Projection.checkAll_iff spec.projections (Match.lists_of_checkAll hlists hbody)).mp
          hprojections⟩⟩
  · rintro ⟨hgiven, hall⟩
    obtain ⟨hbody, hprojections⟩ := hlevels.mp hall
    obtain ⟨given, hg⟩ := (Scope.Lists.declareAll_iff .nil).mpr hgiven
    have hlists := Scope.Lists.of_declareAll .nil hg
    obtain ⟨inner, hb⟩ := (Match.exists_checkAll_iff spec.body hlists).mpr hbody
    exact ⟨given, hg, inner, hb, (Projection.checkAll_iff spec.projections
      (Match.lists_of_checkAll hlists hb)).mpr hprojections⟩

end FactGraph
