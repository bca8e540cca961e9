import FactGraph.Proofs.Specification.Intermediates
import FactGraph.Proofs.Walk.Swaps

/-! # Walks through intermediate facts

A match of an intermediate fact and the match behind it lead along the same chain of roles as the
whole path condition. Nothing else continues from the new label, so it is not seen in the walks.

* `PathCondition.Cut.chain_near_far`: the chain of a path condition, put together at the cut.
* `Specification.Naming.walks_split`: the walks of both matches in front of others.
* `Specification.Naming.walk_named`: the walks of whole specifications. -/

namespace FactGraph

/-! ### Chains -/

theorem Walk.descending_append (roles others : List Role) (next : Walk) :
    descending (roles ++ others) next = descending others (descending roles next) :=
  List.foldl_append

theorem Walk.ascending_append (type : String) (roles others : List Role) (next : Walk) :
    ascending type (roles ++ others) next =
      ascending type roles (ascending (endType type roles) others next) := by
  induction roles generalizing type with
  | nil => rfl
  | cons role roles ih =>
    rw [List.cons_append, ascending, ascending, endType_cons, ih]

/-- **The chain of a path condition consists of those in front of the cut and behind it.** -/
theorem PathCondition.Cut.chain_near_far {cut : Cut} (hne : cut.roles ≠ []) (name start : String)
    (type : String) (next : Walk) :
    cut.near.chain type ((cut.far name).chain (endType start cut.roles) next) =
      cut.whole.chain type next := by
  cases cut with
  | left roles others labelRight rolesRight =>
    simp only [chain, near, far, whole, Walk.descending_append]
    rfl
  | right rolesLeft labelRight roles others =>
    have hmiddle : endType start roles = endType type roles := endType_congr hne start type
    simp only [chain, near, far, whole, PathCondition.Cut.roles, Walk.ascending_append, hmiddle]
    rfl

/-! ### Matches -/

theorem Continuations.without_eq_self {walks : Continuations} {label : String}
    (h : walks.walk? label = none) : walks.without label = walks := by
  refine List.filter_eq_self.mpr fun entry hm => ?_
  have hne := List.lookup_eq_none_iff.mp h entry hm
  rwa [bne_comm]

theorem Continuations.without_insert {walks : Continuations} {label : String} {walk : Walk}
    (h : walks.walk? label = none) : (walks.insert label walk).without label = walks := by
  rw [insert, without_eq_self h]
  show List.filter _ (_ :: walks) = walks
  rw [List.filter_cons_of_neg (by simp)]
  exact without_eq_self h

/-- **What continues from the fact at the cut is moved behind the whole path condition.** -/
theorem PathCondition.Cut.reach_near_far (cut : Cut) (hne : cut.roles ≠ []) {walks : Continuations}
    {name : String} (hnone : walks.walk? name = none) (start type : String) (next : Walk) :
    let behind := (cut.far name).reach (endType start cut.roles) next walks
    cut.near.reach type (behind.onward ⟨name, endType start cut.roles⟩) (behind.without name) =
      cut.whole.reach type next walks := by
  have hchain := chain_near_far hne name start type next
  have hfar : (cut.far name).reach (endType start cut.roles) next walks =
      walks.insert name ((cut.far name).chain (endType start cut.roles) next) := by
    rw [reach, far_labelRight, hnone, Option.getD_none, Walk.both_ofType]
  simp only [hfar, Continuations.onward, Continuations.walk?_insert, if_true, Option.getD_some,
    Continuations.without_insert hnone]
  rw [reach, reach, near_labelRight, hchain]

theorem Match.onlyPath_of_paths {m : Match} {path : PathCondition} (h : m.paths = [path]) :
    m.onlyPath = .ok path := by
  rw [onlyPath, path?, h]

theorem Match.paths_cons_path (unknown : Label) (path : PathCondition) (rest : List Condition) :
    Match.paths ⟨unknown, .path path :: rest⟩ = path :: Match.paths ⟨unknown, rest⟩ := by
  simp [Match.paths]

theorem Condition.obligeAll_cons_path (scope : Scope) (unknown : String) (walk : Walk)
    (path : PathCondition) (rest : List Condition) :
    Condition.obligeAll scope unknown walk (.path path :: rest) =
      Condition.obligeAll scope unknown walk rest := rfl

namespace Specification.Naming

variable {n : Naming} {scope inner : Scope} {rest : List Match} {type : String}

theorem Checked.startsAt_direct (h : n.Checked scope rest inner type) :
    n.direct.StartsAt scope n.cut.whole type where
  only := Match.onlyPath_of_paths (by rw [direct, Match.paths_cons_path, h.paths])
  ne := h.ne
  type? := h.type?
  meets := h.whole

/-- The match of the fact at the cut starts from where the whole path condition does. -/
theorem Checked.startsAt_near (h : n.Checked scope rest inner type)
    (hname : scope.type? n.name = none) :
    Match.StartsAt scope n.cut.near type ⟨n.label, [.path n.cut.near]⟩ where
  only := rfl
  ne := by
    rw [PathCondition.Cut.near_labelRight]
    rintro he
    have htype := h.type?
    rw [he, label, hname] at htype
    cases htype
  type? := by rw [PathCondition.Cut.near_labelRight, h.type?]
  meets := h.meets.near

theorem Checked.startsAt_far (h : n.Checked scope rest inner type) (hne : n.name ≠ n.unknown.name) :
    Match.StartsAt (scope.bind n.label) (n.cut.far n.name) n.label.type
      ⟨n.unknown, .path (n.cut.far n.name) :: n.conditions⟩ where
  only := Match.onlyPath_of_paths (by rw [Match.paths_cons_path, h.paths])
  ne := by rwa [PathCondition.Cut.far_labelRight]
  type? := by rw [PathCondition.Cut.far_labelRight, show n.name = n.label.name from rfl,
    Scope.type?_bind_self]
  meets := h.meets.far n.name

/-- **A match of an intermediate fact changes nothing about the walks** of a match in front of
others. -/
theorem walks_split (h : n.Checked scope rest inner type)
    (hname : scope.type? n.name = none) (hne : n.name ≠ n.unknown.name) (hcut : n.cut.roles ≠ []) :
    Match.walks scope (n.split ++ rest) = Match.walks scope (n.direct :: rest) := by
  have hnear := h.startsAt_near hname
  have hfar := h.startsAt_far hne
  -- the matches behind do not see the new label
  have hcarries : ∀ names, Scope.Carries names (scope.bind n.unknown)
      ((scope.bind n.label).bind n.unknown) := fun names =>
    Scope.Carries.bind fun name type _ ht => by
      rwa [Scope.type?_bind_of_ne]
      rintro rfl
      rw [label, hname] at ht
      cases ht
  have hrest : Match.walks ((scope.bind n.label).bind n.unknown) rest =
      Match.walks (scope.bind n.unknown) rest := Match.walks_congr h.rest (hcarries _)
  have htyped : ∀ behind, Match.walks (scope.bind n.unknown) rest = .ok behind →
      behind.Typed (scope.bind n.unknown) :=
    fun behind hb _ _ hl => Match.type?_of_walks h.rest hb hl
  have htyped' : ∀ behind, Match.walks ((scope.bind n.label).bind n.unknown) rest = .ok behind →
      behind.Typed ((scope.bind n.label).bind n.unknown) := fun behind hb name walk hl =>
    hcarries (fun _ => true) name _ rfl (htyped behind (hrest ▸ hb) hl)
  rw [h.startsAt_direct.walks_cons htyped, split, List.cons_append, List.singleton_append,
    hnear.walks_cons fun _ hw => hfar.typed_of_walks htyped' hw, hfar.walks_cons htyped', hrest]
  simp only [bind_assoc, pure_bind, direct, Condition.obligeAll_cons_path,
    Condition.obligeAll_bind_of_new (show scope.type? n.label.name = none from hname) h.conditions]
  refine Except.bind_congr_of_ok fun behind hb => Except.bind_congr_of_ok fun next _ => ?_
  -- nothing but the match behind the cut continues from the new label
  have hnone : (behind.without n.unknown.name).walk? n.name = none := by
    rcases hw : (behind.without n.unknown.name).walk? n.name with _ | walk
    · rfl
    · have htype := (htyped behind hb).without hw
      rw [hname] at htype
      cases htype
  exact congrArg Except.ok (n.cut.reach_near_far hcut hnone n.unknown.type type next)

/-- **A match of an intermediate fact changes nothing about the walks**, wherever it stands. -/
theorem walks_fill (hcut : n.cut.roles ≠ []) : ∀ {context : Match.Context} {scope inner : Scope},
    Match.checkAll scope (context.fill [n.direct]) = .ok inner → scope.type? n.name = none →
    n.name ∉ Match.labelsAll (context.fill [n.direct]) →
      Match.walks scope (context.fill n.split) = Match.walks scope (context.fill [n.direct])
  | .here rest, scope, inner, hc, hname, hfresh => by
    obtain ⟨type, h⟩ := Checked.of_checkAll hcut hc
    exact walks_split h hname (Match.not_mem_labelsAll_cons.mp hfresh).1 hcut
  | .behind ⟨unknown, conditions⟩ context, scope, inner, hc, hname, hfresh => by
    obtain ⟨-, -, -, hrest⟩ := Match.checkAll_cons_eq_ok_iff.mp hc
    obtain ⟨hne, -, hfresh⟩ := Match.not_mem_labelsAll_cons.mp hfresh
    have hname' : (scope.bind unknown).type? n.name = none := by
      rwa [Scope.type?_bind_of_ne hne]
    rw [Match.Context.fill, Match.Context.fill, Match.walks, Match.walks,
      walks_fill hcut hrest hname' hfresh]
  | .inside unknown before holds context after rest, scope, inner, hc, hname, hfresh => by
    obtain ⟨-, -, hconditions, -⟩ := Match.checkAll_cons_eq_ok_iff.mp hc
    obtain ⟨_, hblock⟩ := Condition.check_existential_eq_ok_iff.mp
      (Condition.checkAll_eq_ok_iff.mp hconditions _ List.mem_append_cons_self)
    obtain ⟨hne, hfresh, -⟩ := Match.not_mem_labelsAll_cons.mp hfresh
    obtain ⟨-, hfresh, -⟩ := Condition.not_mem_labelsAll_around.mp hfresh
    have hname' : (scope.bind unknown).type? n.name = none := by
      rwa [Scope.type?_bind_of_ne hne]
    rw [Match.Context.fill, Match.Context.fill, Match.walks, Match.walks,
      Match.onlyPath_congr_block unknown before after holds _ (context.fill [n.direct])]
    simp only [Condition.obligeAll_append, Condition.obligeAll, Condition.oblige,
      walks_fill hcut hblock hname' hfresh]

/-- **A label for an intermediate fact changes nothing about the walk of a specification**, or about
the error if there is none. -/
theorem walk_named (h : n.Proper) (hc : n.unnamed.check = .ok ()) :
    n.named.walk = n.unnamed.walk := by
  obtain ⟨context, unknown, cut, conditions, name⟩ := n
  cases context with
  | inProjections given body context => rfl
  | inBody given context projections =>
    rcases given with _ | ⟨given, _ | ⟨other, more⟩⟩
    · rfl
    · obtain ⟨scope, hd, hc⟩ := Except.bind_eq_ok_iff.mp hc
      obtain ⟨scope', hbody, -⟩ := Except.bind_eq_ok_iff.mp hc
      cases hd
      have hname : (Scope.bind [] given).type? name = none :=
        Scope.type?_bind_of_ne (by simpa [unnamed, Context.fill] using h.given)
      exact congrArg (· >>= _) (walks_fill h.roles hbody hname h.body)
    · rfl

end Specification.Naming

end FactGraph
