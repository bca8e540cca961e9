import FactGraph.Proofs.Plan.Order
import FactGraph.Proofs.Walk.Alike
import FactGraph.Proofs.Walk.Outcome

/-! # The order of independent matches

Two adjacent matches of a block can be swapped if the second does not refer to the unknown of the
first. In a well-formed block the first does not refer to that of the second either, since it is not
visible yet. The walks of the block then go on alike: what continues from the two unknowns is the
same, and where both matches start from one label, only the order of the steps and obligations there
is another. This holds for swaps in the blocks of existential conditions as well.

* `Match.walks_congr`: on which labels the walks of matches depend.
* `Match.agree_walks_swap`: two matches in front of others.
* `Match.Swapped.agree_walks`: matches anywhere in a block.
* `Specification.Swapped.agree_walk`: the walks of whole specifications. -/

namespace FactGraph

/-! ### Swapped matches -/

/-- One block comes from another by swapping two adjacent matches, in the block itself or in that of
an existential condition inside. The second of them does not refer to the unknown of the first. -/
inductive Match.Swapped : List Match → List Match → Prop where
  | here {m m' : Match} (rest : List Match)
      (independent : Condition.anyRefersTo m.unknown.name m'.conditions = false) :
      Match.Swapped (m :: m' :: rest) (m' :: m :: rest)
  | behind (m : Match) {rest rest' : List Match} (swapped : Match.Swapped rest rest') :
      Match.Swapped (m :: rest) (m :: rest')
  | inside (unknown : Label) (before : List Condition) (holds : Bool) {block block' : List Match}
      (after : List Condition) (rest : List Match) (swapped : Match.Swapped block block') :
      Match.Swapped (⟨unknown, before ++ .existential holds block :: after⟩ :: rest)
        (⟨unknown, before ++ .existential holds block' :: after⟩ :: rest)

/-- Matches are swapped inside of one of the projections. -/
inductive Projection.Swapped : List Projection → List Projection → Prop where
  | here (name : String) {block block' : List Match} (projections rest : List Projection)
      (swapped : Match.Swapped block block') :
      Projection.Swapped (.nested name block projections :: rest)
        (.nested name block' projections :: rest)
  | inside (name : String) (block : List Match) {projections projections' : List Projection}
      (rest : List Projection) (swapped : Projection.Swapped projections projections') :
      Projection.Swapped (.nested name block projections :: rest)
        (.nested name block projections' :: rest)
  | behind (projection : Projection) {rest rest' : List Projection}
      (swapped : Projection.Swapped rest rest') :
      Projection.Swapped (projection :: rest) (projection :: rest')

/-- One specification comes from another by swapping two adjacent matches of one block. -/
inductive Specification.Swapped : Specification → Specification → Prop where
  | body (given : List Label) {block block' : List Match} (projections : List Projection)
      (swapped : Match.Swapped block block') :
      Specification.Swapped ⟨given, block, projections⟩ ⟨given, block', projections⟩
  | projections (given : List Label) (block : List Match)
      {projections projections' : List Projection}
      (swapped : Projection.Swapped projections projections') :
      Specification.Swapped ⟨given, block, projections⟩ ⟨given, block, projections'⟩

/-! ### Labels that walks depend on -/

/-- Of some names, those that one scope has a type for have it in another scope as well. -/
def Scope.Carries (names : String → Bool) (scope scope' : Scope) : Prop :=
  ∀ name type, names name = true → scope.type? name = some type → scope'.type? name = some type

namespace Scope.Carries

variable {names names' : String → Bool} {scope scope' : Scope} {label : Label} {name : String}

theorem mono (h : Scope.Carries names scope scope')
    (hn : ∀ name, names' name = true → names name = true) : Scope.Carries names' scope scope' :=
  fun name type hname => h name type (hn name hname)

theorem bind (h : Scope.Carries names scope scope') :
    Scope.Carries names (scope.bind label) (scope'.bind label) := fun name type hname => by
  by_cases hl : name = label.name
  · subst hl
    rw [type?_bind_self, type?_bind_self]
    exact id
  · rw [type?_bind_of_ne hl, type?_bind_of_ne hl]
    exact h name type hname

end Scope.Carries

theorem Condition.anyRefersTo_of_mem {name : String} {condition : Condition} :
    ∀ {conditions : List Condition}, condition ∈ conditions → condition.refersTo name = true →
      Condition.anyRefersTo name conditions = true
  | first :: rest, hm, hr => by
    rw [Condition.anyRefersTo, Bool.or_eq_true]
    rcases List.mem_cons.mp hm with rfl | hm
    · exact Or.inl hr
    · exact Or.inr (Condition.anyRefersTo_of_mem hm hr)

theorem Match.anyRefersTo_of_onlyPath {m : Match} {path : PathCondition}
    (h : m.onlyPath = .ok path) : Condition.anyRefersTo path.labelRight m.conditions = true :=
  Condition.anyRefersTo_of_mem (Match.path_mem_of_onlyPath h) (by simp [Condition.refersTo])

/-- The walk that continues from a label, which ends there if nothing does. -/
def Continuations.onward (walks : Continuations) (label : Label) : Walk :=
  (walks.walk? label.name).getD (.ofType label.type)

theorem Match.walks_cons_of_onlyPath {m : Match} {path : PathCondition} (h : m.onlyPath = .ok path)
    (scope : Scope) (rest : List Match) : Match.walks scope (m :: rest) = (do
      let behind ← Match.walks (scope.bind m.unknown) rest
      let next ← Condition.obligeAll (scope.bind m.unknown) m.unknown.name
        (behind.onward m.unknown) m.conditions
      path.lead (scope.bind m.unknown) next (behind.without m.unknown.name)) := by
  obtain ⟨unknown, conditions⟩ := m
  rw [Match.walks, h]
  rfl

theorem PathCondition.lead_congr {scope scope' : Scope} {path : PathCondition}
    (h : scope'.type? path.labelRight = scope.type? path.labelRight) (next : Walk)
    (walks : Continuations) : path.lead scope' next walks = path.lead scope next walks := by
  rw [PathCondition.lead, PathCondition.lead, h]

mutual

theorem Condition.oblige_congr : ∀ {condition : Condition} {scope scope' : Scope} {unknown : Label},
    condition.check scope unknown = .ok () →
    Scope.Carries condition.refersTo scope scope' → ∀ walk,
      condition.oblige scope' unknown.name walk = condition.oblige scope unknown.name walk
  | .path _, _, _, _, _, _, _ => rfl
  | .existential holds block, scope, scope', unknown, hc, h, walk => by
    obtain ⟨inner, hc⟩ := Condition.check_existential_eq_ok_iff.mp hc
    rw [Condition.oblige, Condition.oblige, Match.walks_congr hc h]

theorem Condition.obligeAll_congr : ∀ {conditions : List Condition} {scope scope' : Scope}
    {unknown : Label}, Condition.checkAll scope unknown conditions = .ok () →
    Scope.Carries (Condition.anyRefersTo · conditions) scope scope' → ∀ walk,
      Condition.obligeAll scope' unknown.name walk conditions =
        Condition.obligeAll scope unknown.name walk conditions
  | [], _, _, _, _, _, _ => rfl
  | condition :: rest, scope, scope', unknown, hc, h, walk => by
    obtain ⟨hc, hrest⟩ := Except.bind_unit_eq_ok_iff.mp hc
    have hfirst : Scope.Carries condition.refersTo scope scope' := h.mono fun name hn => by
      rw [Condition.anyRefersTo, hn, Bool.true_or]
    have hothers : Scope.Carries (Condition.anyRefersTo · rest) scope scope' :=
      h.mono fun name hn => by rw [Condition.anyRefersTo, hn, Bool.or_true]
    simp only [Condition.obligeAll, Condition.oblige_congr hc hfirst,
      Condition.obligeAll_congr hrest hothers]

/-- **The walks of matches depend only on the types of the visible labels to which they refer.** -/
theorem Match.walks_congr : ∀ {block : List Match} {scope scope' inner : Scope},
    Match.checkAll scope block = .ok inner →
    Scope.Carries (Match.anyRefersTo · block) scope scope' →
      Match.walks scope' block = Match.walks scope block
  | [], _, _, _, _, _ => rfl
  | ⟨unknown, conditions⟩ :: rest, scope, scope', inner, hc, h => by
    obtain ⟨-, hone, hconds, hrest⟩ := Match.checkAll_cons_eq_ok_iff.mp hc
    obtain ⟨path, hpath⟩ := Match.exists_onlyPath hone
    have hfirst : Scope.Carries (Condition.anyRefersTo · conditions) (scope.bind unknown)
        (scope'.bind unknown) := h.bind.mono fun name hn => by
      rw [Match.anyRefersTo, hn, Bool.true_or]
    have hothers : Scope.Carries (Match.anyRefersTo · rest) (scope.bind unknown)
        (scope'.bind unknown) := h.bind.mono fun name hn => by
      rw [Match.anyRefersTo, hn, Bool.or_true]
    -- the label of the path is visible
    obtain ⟨-, type, ht, -⟩ := PathCondition.check_eq_ok_iff.mp
      (Condition.checkAll_eq_ok_iff.mp hconds _ (Match.path_mem_of_onlyPath hpath))
    have hlabel : (scope'.bind unknown).type? path.labelRight =
        (scope.bind unknown).type? path.labelRight := by
      rw [ht, hfirst _ _ (Match.anyRefersTo_of_onlyPath hpath) ht]
    rw [Match.walks_cons_of_onlyPath hpath, Match.walks_cons_of_onlyPath hpath]
    simp only [Match.walks_congr hrest hothers, Condition.obligeAll_congr hconds hfirst,
      PathCondition.lead_congr hlabel]

end

section

variable {scope : Scope} {unknown other : Label} {conditions : List Condition}

/-- Conditions do not depend on a label that was not visible when they were checked. -/
theorem Condition.obligeAll_bind_of_new (hnew : scope.type? other.name = none)
    (hc : Condition.checkAll (scope.bind unknown) unknown conditions = .ok ()) (walk : Walk) :
    Condition.obligeAll ((scope.bind other).bind unknown) unknown.name walk conditions =
      Condition.obligeAll (scope.bind unknown) unknown.name walk conditions := by
  refine Condition.obligeAll_congr hc (Scope.Carries.bind fun name type _ ht => ?_) walk
  rwa [Scope.type?_bind_of_ne]
  rintro rfl
  rw [hnew] at ht
  cases ht

theorem Condition.obligeAll_bind_of_not_refersTo
    (hr : Condition.anyRefersTo other.name conditions = false)
    (hc : Condition.checkAll ((scope.bind other).bind unknown) unknown conditions = .ok ())
    (walk : Walk) : Condition.obligeAll (scope.bind unknown) unknown.name walk conditions =
      Condition.obligeAll ((scope.bind other).bind unknown) unknown.name walk conditions := by
  refine Condition.obligeAll_congr hc (Scope.Carries.bind fun name type hn ht => ?_) walk
  rwa [Scope.type?_bind_of_ne] at ht
  rintro rfl
  rw [hr] at hn
  cases hn

end

/-! ### What a match adds to the walks behind it -/

/-- Both of two walks from one fact; the type is that of the first. -/
def Walk.both (left right : Walk) : Walk :=
  ⟨left.type, left.steps ++ right.steps, left.obligations ++ right.obligations⟩

theorem Walk.both_ofType (walk : Walk) (type : String) : walk.both (.ofType type) = walk := by
  obtain ⟨start, steps, obligations⟩ := walk
  simp [both, ofType]

theorem Walk.Alike.both_swap {left right : Walk} (h : left.type = right.type) (walk : Walk) :
    (left.both (right.both walk)).Alike (right.both (left.both walk)) :=
  alike_iff.mpr ⟨h, .of_swap (fun _ => ⟨rfl, rfl, .refl _⟩) _ _ _,
    .of_swap (fun _ => ⟨rfl, rfl, rfl, .refl _⟩) _ _ _⟩

/-- Each of the walks starts at the type of its label. -/
def Continuations.Typed (scope : Scope) (walks : Continuations) : Prop :=
  ∀ ⦃label walk⦄, walks.walk? label = some walk → scope.type? label = some walk.type

namespace Continuations.Typed

variable {scope : Scope} {unknown : Label} {walks : Continuations}

theorem without (h : walks.Typed (scope.bind unknown)) :
    (walks.without unknown.name).Typed scope := fun label walk hl => by
  rw [walk?_without] at hl
  split_ifs at hl with hne
  rw [← h hl, Scope.type?_bind_of_ne hne]

theorem type_onward (h : walks.Typed (scope.bind unknown)) :
    (walks.onward unknown).type = unknown.type := by
  rw [onward]
  rcases hu : walks.walk? unknown.name with _ | walk
  · rfl
  · have ht := h hu
    rw [Scope.type?_bind_self, Option.some_inj] at ht
    exact ht.symm

end Continuations.Typed

/-- The chain of a path condition joins what continues from its label, which is of some type. -/
def PathCondition.reach (path : PathCondition) (type : String) (next : Walk)
    (walks : Continuations) : Continuations :=
  walks.insert path.labelRight <|
    (path.chain type next).both ((walks.walk? path.labelRight).getD (.ofType type))

theorem PathCondition.walk?_reach {path : PathCondition} {type : String} {next : Walk}
    {walks : Continuations} {label : String} : (path.reach type next walks).walk? label =
      if label = path.labelRight then
        some ((path.chain type next).both ((walks.walk? path.labelRight).getD (.ofType type)))
      else walks.walk? label :=
  Continuations.walk?_insert

/-- **A path condition leads to where its chain joins in**, if the types fit. -/
theorem PathCondition.lead_eq_reach {scope : Scope} {path : PathCondition} {type : String}
    {next : Walk} {walks : Continuations} (ht : scope.type? path.labelRight = some type)
    (hchain : (path.chain type next).type = type) (hw : walks.Typed scope) :
    path.lead scope next walks = .ok (path.reach type next walks) := by
  rw [PathCondition.lead, ht, PathCondition.reach]
  rcases ho : walks.walk? path.labelRight with _ | other
  · rw [Option.getD_none, Walk.both_ofType]
    rfl
  · have hsame : (path.chain type next).type = other.type := by
      rw [hchain]
      exact Option.some_inj.mp (ht.symm.trans (hw ho))
    show (path.chain type next).merge other >>= _ = _
    rw [Walk.merge, if_pos hsame]
    rfl

/-- The only path of a match leads from a visible label of some type to the unknown. -/
structure Match.StartsAt (scope : Scope) (path : PathCondition) (type : String) (m : Match) :
    Prop where
  only : m.onlyPath = .ok path
  ne : path.labelRight ≠ m.unknown.name
  type? : scope.type? path.labelRight = some type
  meets : endType m.unknown.type path.rolesLeft = endType type path.rolesRight

namespace Match.StartsAt

variable {scope scope' : Scope} {path : PathCondition} {type : String} {m : Match}
  {rest : List Match} {next : Walk} {behind : Continuations}

theorem of_check (hone : m.paths.length = 1)
    (hc : Condition.checkAll (scope.bind m.unknown) m.unknown m.conditions = .ok ()) :
    ∃ path type, m.StartsAt scope path type := by
  obtain ⟨path, hpath⟩ := Match.exists_onlyPath hone
  obtain ⟨hne, type, ht, he⟩ := PathCondition.check_eq_ok_iff.mp
    (Condition.checkAll_eq_ok_iff.mp hc _ (Match.path_mem_of_onlyPath hpath))
  rw [Scope.type?_bind_of_ne hne] at ht
  exact ⟨path, type, hpath, hne, ht, he⟩

theorem congr (h : m.StartsAt scope path type)
    (hs : scope'.type? path.labelRight = scope.type? path.labelRight) :
    m.StartsAt scope' path type := ⟨h.only, h.ne, hs.trans h.type?, h.meets⟩

theorem type_chain (h : m.StartsAt scope path type) (hn : next.type = m.unknown.type) :
    (path.chain type next).type = type :=
  Walk.type_ascending (by rw [Walk.type_descending, hn, h.meets])

/-- The walks of a match start at the types of their labels if those behind it do. -/
theorem typed_reach (h : m.StartsAt scope path type) (hb : behind.Typed (scope.bind m.unknown))
    (hn : next.type = m.unknown.type) :
    (path.reach type next (behind.without m.unknown.name)).Typed scope := fun label walk hl => by
  rw [PathCondition.walk?_reach] at hl
  split_ifs at hl with he
  · cases hl
    rw [he, h.type?, Walk.both, h.type_chain hn]
  · exact hb.without hl

/-- **The walks of a match in front of others** are made of the walks behind it and the conditions
of the match. -/
theorem walks_cons (h : m.StartsAt scope path type)
    (hb : ∀ behind, Match.walks (scope.bind m.unknown) rest = .ok behind →
      behind.Typed (scope.bind m.unknown)) : Match.walks scope (m :: rest) = (do
        let behind ← Match.walks (scope.bind m.unknown) rest
        let next ← Condition.obligeAll (scope.bind m.unknown) m.unknown.name
          (behind.onward m.unknown) m.conditions
        return path.reach type next (behind.without m.unknown.name)) := by
  rw [Match.walks_cons_of_onlyPath h.only]
  simp only [PathCondition.lead_congr (Scope.type?_bind_of_ne h.ne)]
  rcases hw : Match.walks (scope.bind m.unknown) rest with e | behind
  · rfl
  show Condition.obligeAll _ _ _ _ >>= _ = Condition.obligeAll _ _ _ _ >>= _
  rcases hn : Condition.obligeAll (scope.bind m.unknown) m.unknown.name (behind.onward m.unknown)
    m.conditions with e | next
  · rfl
  · have htype := (Condition.type_of_obligeAll hn).trans (hb behind hw).type_onward
    exact PathCondition.lead_eq_reach h.type? (h.type_chain htype) (hb behind hw).without

theorem typed_of_walks (h : m.StartsAt scope path type)
    (hb : ∀ behind, Match.walks (scope.bind m.unknown) rest = .ok behind →
      behind.Typed (scope.bind m.unknown)) {walks : Continuations}
    (hw : Match.walks scope (m :: rest) = .ok walks) : walks.Typed scope := by
  rw [h.walks_cons hb] at hw
  obtain ⟨behind, hbehind, hw⟩ := Except.bind_eq_ok_iff.mp hw
  obtain ⟨next, hn, hw⟩ := Except.bind_eq_ok_iff.mp hw
  cases hw
  exact h.typed_reach (hb behind hbehind)
    ((Condition.type_of_obligeAll hn).trans (hb behind hbehind).type_onward)

end Match.StartsAt

/-! ### Two matches -/

theorem Scope.type?_bind_comm {scope : Scope} {a b : Label} (h : a.name ≠ b.name) (name : String) :
    ((scope.bind a).bind b).type? name = ((scope.bind b).bind a).type? name := by
  by_cases ha : name = a.name
  · rw [ha, type?_bind_of_ne h, type?_bind_self, type?_bind_self]
  · have hskip : ((scope.bind b).bind a).type? name = (scope.bind b).type? name :=
      type?_bind_of_ne ha
    rw [hskip]
    by_cases hb : name = b.name
    · rw [hb, type?_bind_self, type?_bind_self]
    · rw [type?_bind_of_ne hb, type?_bind_of_ne hb, type?_bind_of_ne ha]

/-- Two matches lead to different unknowns, each from a label that is visible in front of both. -/
structure Match.SideBySide (scope : Scope) (path path' : PathCondition) (type type' : String)
    (m m' : Match) : Prop where
  first : m.StartsAt scope path type
  second : m'.StartsAt scope path' type'
  unknowns : m.unknown.name ≠ m'.unknown.name
  firstElsewhere : path.labelRight ≠ m'.unknown.name
  secondElsewhere : path'.labelRight ≠ m.unknown.name

namespace Match.SideBySide

variable {scope : Scope} {m m' : Match} {path path' : PathCondition} {type type' : String}
  {rest : List Match} {next next' : Walk}

theorem symm (h : Match.SideBySide scope path path' type type' m m') :
    Match.SideBySide scope path' path type' type m' m :=
  ⟨h.second, h.first, h.unknowns.symm, h.secondElsewhere, h.firstElsewhere⟩

/-- Two matches of a well-formed block start from labels that are visible in front of both, if the
second does not refer to the unknown of the first. -/
theorem of_check {inner : Scope} (hc : Match.checkAll scope (m :: m' :: rest) = .ok inner)
    (hr : Condition.anyRefersTo m.unknown.name m'.conditions = false) :
    ∃ path path' type type', Match.SideBySide scope path path' type type' m m' := by
  obtain ⟨-, hone, hconds, hc⟩ := Match.checkAll_cons_eq_ok_iff.mp hc
  obtain ⟨hnew, hone', hconds', -⟩ := Match.checkAll_cons_eq_ok_iff.mp hc
  obtain ⟨path, type, hm⟩ := Match.StartsAt.of_check hone hconds
  obtain ⟨path', type', hm'⟩ := Match.StartsAt.of_check hone' hconds'
  have hne : m'.unknown.name ≠ m.unknown.name := fun he => by
    rw [he, Scope.type?_bind_self] at hnew
    cases hnew
  have hpath : path.labelRight ≠ m'.unknown.name := fun he => by
    rw [Scope.type?_bind_of_ne hne, ← he, hm.type?] at hnew
    cases hnew
  have hpath' : path'.labelRight ≠ m.unknown.name := fun he => by
    rw [← he, Match.anyRefersTo_of_onlyPath hm'.only] at hr
    cases hr
  exact ⟨path, path', type, type', hm, hm'.congr (Scope.type?_bind_of_ne hpath').symm, hne.symm,
    hpath, hpath'⟩

/-- What continues from the first unknown stays the same in front of the second match. -/
theorem onward_reach (h : Match.SideBySide scope path path' type type' m m')
    (behind : Continuations) :
    (path'.reach type' next' (behind.without m'.unknown.name)).onward m.unknown =
      behind.onward m.unknown := by
  rw [Continuations.onward, PathCondition.walk?_reach, if_neg h.secondElsewhere.symm,
    Continuations.walk?_without, if_neg h.unknowns, Continuations.onward]

theorem walks_cons_cons (h : Match.SideBySide scope path path' type type' m m')
    (hb : ∀ behind, Match.walks ((scope.bind m.unknown).bind m'.unknown) rest = .ok behind →
      behind.Typed ((scope.bind m.unknown).bind m'.unknown)) :
    Match.walks scope (m :: m' :: rest) = (do
      let behind ← Match.walks ((scope.bind m.unknown).bind m'.unknown) rest
      let next' ← Condition.obligeAll ((scope.bind m.unknown).bind m'.unknown) m'.unknown.name
        (behind.onward m'.unknown) m'.conditions
      let next ← Condition.obligeAll (scope.bind m.unknown) m.unknown.name
        (behind.onward m.unknown) m.conditions
      return path.reach type next
        ((path'.reach type' next' (behind.without m'.unknown.name)).without m.unknown.name)) := by
  have hsecond := h.second.congr (Scope.type?_bind_of_ne h.secondElsewhere)
  rw [h.first.walks_cons fun _ hw => hsecond.typed_of_walks hb hw, hsecond.walks_cons hb]
  simp only [bind_assoc, pure_bind, h.onward_reach]

theorem alike_reach (h : Match.SideBySide scope path path' type type' m m')
    (hn : next.type = m.unknown.type) (hn' : next'.type = m'.unknown.type)
    (behind : Continuations) :
    (path.reach type next <|
      (path'.reach type' next' (behind.without m'.unknown.name)).without m.unknown.name).Alike
    (path'.reach type' next' <|
      (path.reach type next (behind.without m.unknown.name)).without m'.unknown.name) := by
  intro label
  simp only [PathCondition.walk?_reach, Continuations.walk?_without, h.first.ne, h.second.ne,
    h.firstElsewhere, h.secondElsewhere, if_false]
  by_cases hp : path.labelRight = path'.labelRight
  · -- both chains join at one label
    obtain rfl : type = type' := Option.some_inj.mp <|
      h.first.type?.symm.trans ((congrArg scope.type? hp).trans h.second.type?)
    simp only [hp, if_true, Option.getD_some]
    by_cases hl : label = path'.labelRight
    · rw [if_pos hl, if_pos hl]
      exact .some (.both_swap ((h.first.type_chain hn).trans (h.second.type_chain hn').symm) _)
    · simp only [hl, if_false]
      split_ifs <;> exact Walk.Alike.rel_refl _
  · simp only [hp, Ne.symm hp, if_false]
    by_cases hl : label = path.labelRight
    · simp only [hl, hp, h.firstElsewhere, if_true, if_false]
      exact .some (.refl _)
    by_cases hl' : label = path'.labelRight
    · simp only [hl', Ne.symm hp, h.secondElsewhere, if_true, if_false]
      exact .some (.refl _)
    · simp only [hl, hl', if_false]
      split_ifs <;> exact Walk.Alike.rel_refl _

end Match.SideBySide

/-- **Two matches in front of others can be swapped** if the second does not refer to the unknown of
the first. -/
theorem Match.agree_walks_swap {scope inner : Scope} {m m' : Match} {rest : List Match}
    (hc : Match.checkAll scope (m :: m' :: rest) = .ok inner)
    (hr : Condition.anyRefersTo m.unknown.name m'.conditions = false) :
    Except.Agree Continuations.Alike (Match.walks scope (m :: m' :: rest))
      (Match.walks scope (m' :: m :: rest)) := by
  obtain ⟨path, path', type, type', hside⟩ := Match.SideBySide.of_check hc hr
  obtain ⟨-, -, hconds, hc⟩ := Match.checkAll_cons_eq_ok_iff.mp hc
  obtain ⟨hnew, -, hconds', hrest⟩ := Match.checkAll_cons_eq_ok_iff.mp hc
  rw [Scope.type?_bind_of_ne hside.unknowns.symm] at hnew
  have hcomm := @Scope.type?_bind_comm scope _ _ hside.unknowns.symm
  -- neither the walks behind nor the conditions depend on the order of the unknowns
  have hwalks : Match.walks ((scope.bind m'.unknown).bind m.unknown) rest =
      Match.walks ((scope.bind m.unknown).bind m'.unknown) rest :=
    Match.walks_congr hrest fun name type _ ht => (hcomm name).trans ht
  have hobliged := Condition.obligeAll_bind_of_new hnew hconds
  have hobliged' := Condition.obligeAll_bind_of_not_refersTo hr hconds'
  have htyped : ∀ behind, Match.walks ((scope.bind m.unknown).bind m'.unknown) rest = .ok behind →
      behind.Typed ((scope.bind m.unknown).bind m'.unknown) :=
    fun behind hb _ _ hl => Match.type?_of_walks hrest hb hl
  have htyped' : ∀ behind, Match.walks ((scope.bind m'.unknown).bind m.unknown) rest = .ok behind →
      behind.Typed ((scope.bind m'.unknown).bind m.unknown) := fun behind hb label walk hl =>
    (hcomm label).trans (htyped behind (hwalks ▸ hb) hl)
  rw [hside.walks_cons_cons htyped, hside.symm.walks_cons_cons htyped', hwalks]
  simp only [hobliged, hobliged']
  refine .of_bind fun behind hb => .of_swap fun next' next hn' hn => ?_
  have hnext := (htyped' behind (hwalks.trans hb)).type_onward
  have hnext' := (htyped behind hb).type_onward
  exact hside.alike_reach ((Condition.type_of_obligeAll hn).trans hnext)
    ((Condition.type_of_obligeAll hn').trans hnext') behind

/-! ### Matches anywhere in a block -/

theorem Condition.obligeAll_append {scope : Scope} {unknown : String}
    (before after : List Condition) (walk : Walk) :
    Condition.obligeAll scope unknown walk (before ++ after) = (do
      let next ← Condition.obligeAll scope unknown walk before
      Condition.obligeAll scope unknown next after) := by
  induction before generalizing walk with
  | nil => rfl
  | cons condition before ih =>
    rw [List.cons_append, Condition.obligeAll, Condition.obligeAll, bind_assoc]
    simp only [ih]

theorem Match.onlyPath_congr_block (unknown : Label) (before after : List Condition) (holds : Bool)
    (block block' : List Match) :
    Match.onlyPath ⟨unknown, before ++ .existential holds block :: after⟩ =
      Match.onlyPath ⟨unknown, before ++ .existential holds block' :: after⟩ := by
  simp [Match.onlyPath, Match.path?, Match.paths]

/-- **The walks of a block with two matches swapped are alike.** -/
theorem Match.Swapped.agree_walks {block block' : List Match} (hs : Match.Swapped block block') :
    ∀ {scope inner : Scope}, Match.checkAll scope block = .ok inner →
      Except.Agree Continuations.Alike (Match.walks scope block) (Match.walks scope block') := by
  induction hs with
  | here rest independent => exact fun hc => Match.agree_walks_swap hc independent
  | behind m _ ih =>
    intro scope inner hc
    obtain ⟨-, hone, -, hrest⟩ := Match.checkAll_cons_eq_ok_iff.mp hc
    obtain ⟨path, hpath⟩ := Match.exists_onlyPath hone
    rw [Match.walks_cons_of_onlyPath hpath, Match.walks_cons_of_onlyPath hpath]
    refine (ih hrest).bind fun walks walks' hw => ?_
    refine (Condition.agree_obligeAll m.conditions (hw.getD _ (.refl _))).bind fun _ _ hnext => ?_
    exact (hw.without _).agree_lead hnext _ path
  | @inside unknown before holds block block' after rest _ ih =>
    intro scope inner hc
    obtain ⟨-, hone, hconds, -⟩ := Match.checkAll_cons_eq_ok_iff.mp hc
    obtain ⟨path, hpath⟩ := Match.exists_onlyPath hone
    have hpath' :=
      (Match.onlyPath_congr_block unknown before after holds block block').symm.trans hpath
    obtain ⟨_, hblock⟩ := Condition.check_existential_eq_ok_iff.mp
      (Condition.checkAll_eq_ok_iff.mp hconds _ List.mem_append_cons_self)
    rw [Match.walks_cons_of_onlyPath hpath, Match.walks_cons_of_onlyPath hpath']
    simp only [Condition.obligeAll_append, bind_assoc]
    refine .of_bind fun walks _ => .of_bind fun next _ => ?_
    -- only what the condition demands comes from the block
    refine ((Condition.agree_oblige_existential (.refl next) (ih hblock) holds).bind
      fun _ _ hnext => Condition.agree_obligeAll after hnext).bind fun _ _ hnext => ?_
    exact (Continuations.Alike.refl _).agree_lead hnext _ path

/-! ### Whole specifications -/

/-- **The walks of a specification with two matches swapped are alike.** -/
theorem Specification.Swapped.agree_walk {spec spec' : Specification} (h : spec.check = .ok ())
    (hs : spec.Swapped spec') : Except.Agree Walk.Alike spec.walk spec'.walk := by
  cases hs with
  | projections given block swapped => exact .refl .refl _
  | @body given block block' projections swapped =>
    rcases given with _ | ⟨given, _ | ⟨other, more⟩⟩
    · trivial
    · obtain ⟨scope, hd, hc⟩ := Except.bind_eq_ok_iff.mp h
      obtain ⟨scope', hbody, -⟩ := Except.bind_eq_ok_iff.mp hc
      cases hd
      exact (swapped.agree_walks hbody).bind fun walks walks' hw => hw.getD given.name (.refl _)
    · trivial

end FactGraph
