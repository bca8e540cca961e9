import FactGraph.Proofs.Catalog.Tables

/-! # Histories of a catalog

A history registers fact types and roles, one after the other, and goes on where a registration is
refused. Whatever the history, the catalog that it leaves tells the registrations that succeeded:
how many there are, which number a name was given, and which roles were registered on the types of a
number.

Types may share a number, and then they share their roles. So a role belongs to the types of a
number and not to a type, unless no role is declared where another type has the same number.

* `Catalog.registration_cases`: what a registration can do.
* `Catalog.Keeps.registration`, `Catalog.Keeps.history`: a catalog keeps the registrations that
  succeed, step by step.
* `Catalog.consistent_after`: a catalog is a consistent store over every history.
* `Catalog.rolesBelong_iff`: when roles belong to the type that they were registered on. -/

namespace FactGraph

/-- A registration of a fact type, or of a role of a type. -/
inductive Registration where
  | factType (name : String) (id : Int)
  | role (type name : String) (id : Int)
  deriving DecidableEq, Repr

namespace Registration

/-- What a registration answers, and the catalog that it leaves. -/
def apply (catalog : Catalog) : Registration → Except CatalogError Unit × Catalog
  | factType name id => catalog.registerFactType name id
  | role type name id => catalog.registerRole type name id

def isFactType : Registration → Bool
  | factType .. => true
  | role .. => false

def isRole : Registration → Bool
  | factType .. => false
  | role .. => true

/-- Whether a fact type is registered under a name. -/
def isOf (name : String) : Registration → Bool
  | factType type _ => type == name
  | role .. => false

end Registration

namespace Catalog

/-! ### Histories -/

/-- The catalog that a history leaves. -/
def after (catalog : Catalog) (history : List Registration) : Catalog :=
  history.foldl (fun left step => (step.apply left).2) catalog

/-- The registrations of a history that succeed. -/
def successes (catalog : Catalog) : List Registration → List Registration
  | [] => []
  | step :: history =>
    match step.apply catalog with
    | (.ok _, next) => step :: next.successes history
    | (.error _, next) => next.successes history

/-- A catalog tells no more and no less than the registrations that were made. -/
structure Records (catalog : Catalog) (made : List Registration) : Prop where
  factTypeCount : catalog.factTypeCount = made.countP (·.isFactType)
  roleCount : catalog.roleCount = made.countP (·.isRole)
  /-- One registration of a name at most, by which it has its number. -/
  factTypeId : ∀ name,
    made.filter (·.isOf name) = ((catalog.factTypeId name).map (Registration.factType name)).toList
  roleId : ∀ typeId name id, catalog.roleId typeId name = some id ↔
    ∃ type, .role type name id ∈ made ∧ catalog.factTypeId type = some typeId

/-- What a catalog keeps of the registrations that were made: it records them, in tidy tables, and
each role was registered on a type that it has, and on no second type of the same number. -/
structure Keeps (catalog : Catalog) (made : List Registration) : Prop where
  tidy : catalog.Tidy
  records : catalog.Records made
  declared : ∀ type name id, .role type name id ∈ made → catalog.factTypeId type ≠ none
  single : ∀ type other name id id', .role type name id ∈ made → .role other name id' ∈ made →
    catalog.factTypeId other = catalog.factTypeId type → other = type

variable {catalog : Catalog} {made : List Registration} {step : Registration} {typeId id : Int}
  {type name : String}

/-! ### One registration -/

/-- **What a registration can do.** One that is refused changes nothing; one that succeeds adds a
fact type with a new name, or enters a role that the number of its type does not have. -/
theorem registration_cases (catalog : Catalog) (step : Registration) :
    (∃ error, step.apply catalog = (.error error, catalog)) ∨
    (∃ name id, step = .factType name id ∧ catalog.factTypeId name = none ∧
      step.apply catalog =
        (.ok (), { catalog with factTypes := catalog.factTypes ++ [(name, id)] })) ∨
    ∃ type name id typeId, step = .role type name id ∧ catalog.factTypeId type = some typeId ∧
      catalog.roleId typeId name = none ∧
      step.apply catalog = (.ok (), catalog.enter ((typeId, name), id)) := by
  cases step with
  | factType name id =>
    rcases registerFactType_cases catalog name id with ⟨-, h⟩ | ⟨hn, h⟩
    · exact Or.inl ⟨_, h⟩
    · exact Or.inr (Or.inl ⟨name, id, rfl, hn, h⟩)
  | role type name id =>
    rcases registerRole_cases catalog type name id with ⟨-, h⟩ | ⟨typeId, ht, ⟨-, h⟩ | ⟨hr, h⟩⟩
    · exact Or.inl ⟨_, h⟩
    · exact Or.inl ⟨_, h⟩
    · exact Or.inr (Or.inr ⟨type, name, id, typeId, rfl, ht, hr, h⟩)

/-- **A refused registration changes nothing.** -/
theorem eq_of_refused {error : CatalogError} {left : Catalog}
    (h : step.apply catalog = (.error error, left)) : left = catalog := by
  rcases registration_cases catalog step with
    ⟨_, he⟩ | ⟨_, _, -, -, he⟩ | ⟨_, _, _, _, -, -, -, he⟩ <;>
    rw [he] at h <;> cases h
  rfl

theorem keeps_empty : empty.Keeps [] where
  tidy := tidy_empty
  records := ⟨rfl, rfl, fun _ => rfl, fun typeId name id => by simp [empty, roleId]⟩
  declared := by simp
  single := by simp

theorem factTypeId_add (other : String) :
    factTypeId { catalog with factTypes := catalog.factTypes ++ [(name, id)] } other =
      (catalog.factTypeId other).or (if other = name then some id else none) := by
  rw [factTypeId, List.lookup_append, lookup_singleton]
  rfl

theorem factTypeId_add_of_ne_none {other : String} (h : catalog.factTypeId other ≠ none) :
    factTypeId { catalog with factTypes := catalog.factTypes ++ [(name, id)] } other =
      catalog.factTypeId other := by
  obtain ⟨number, hnumber⟩ := Option.ne_none_iff_exists'.mp h
  rw [factTypeId_add, hnumber, Option.some_or]

namespace Keeps

variable {other role : String} {number : Int}

theorem role_mem_of_add (h : .role other role number ∈ made ++ [.factType name id]) :
    .role other role number ∈ made := by
  simpa using h

/-- A type on which a role was registered keeps its number when a fact type is added. -/
theorem factTypeId_add_of_role (h : catalog.Keeps made)
    (hm : .role other role number ∈ made ++ [.factType name id]) :
    factTypeId { catalog with factTypes := catalog.factTypes ++ [(name, id)] } other =
      catalog.factTypeId other :=
  factTypeId_add_of_ne_none (h.declared _ _ _ (role_mem_of_add hm))

theorem records_addFactType (h : catalog.Keeps made) (hn : catalog.factTypeId name = none) :
    Records { catalog with factTypes := catalog.factTypes ++ [(name, id)] }
      (made ++ [.factType name id]) where
  factTypeCount := by
    rw [factTypeCount, List.length_append, List.countP_append, ← h.records.factTypeCount]
    rfl
  roleCount := by
    rw [List.countP_append, ← h.records.roleCount]
    rfl
  factTypeId := fun other => by
    rw [List.filter_append, h.records.factTypeId, factTypeId_add]
    by_cases ho : other = name
    · simp [ho, hn, Registration.isOf]
    · have hne : name ≠ other := fun he => ho he.symm
      simp [ho, hne, Registration.isOf]
  roleId := fun typeId role number => by
    -- the new type has no roles, since a role is registered on a type that the catalog has
    refine (h.records.roleId typeId role number).trans (exists_congr fun type => ?_)
    constructor
    · rintro ⟨hm, ht⟩
      have hm' := List.mem_append_left [.factType name id] hm
      exact ⟨hm', (h.factTypeId_add_of_role hm').trans ht⟩
    · rintro ⟨hm, ht⟩
      exact ⟨role_mem_of_add hm, (h.factTypeId_add_of_role hm).symm.trans ht⟩

theorem addFactType (h : catalog.Keeps made) (hn : catalog.factTypeId name = none) :
    Keeps { catalog with factTypes := catalog.factTypes ++ [(name, id)] }
      (made ++ [.factType name id]) where
  tidy := h.tidy.addFactType hn
  records := h.records_addFactType hn
  declared := fun type role number hm => by
    rw [h.factTypeId_add_of_role hm]
    exact h.declared _ _ _ (role_mem_of_add hm)
  single := fun type other role number number' hm hm' hnumber => by
    rw [h.factTypeId_add_of_role hm, h.factTypeId_add_of_role hm'] at hnumber
    exact h.single _ _ _ _ _ (role_mem_of_add hm) (role_mem_of_add hm') hnumber

theorem records_enter (h : catalog.Keeps made) (ht : catalog.factTypeId type = some typeId)
    (hr : catalog.roleId typeId name = none) :
    (catalog.enter ((typeId, name), id)).Records (made ++ [.role type name id]) where
  factTypeCount := by
    rw [factTypeCount, factTypes_enter, List.countP_append, ← factTypeCount,
      h.records.factTypeCount]
    rfl
  roleCount := by
    rw [roleCount_enter, List.countP_append, ← h.records.roleCount]
    rfl
  factTypeId := fun other => by
    rw [factTypeId_enter, List.filter_append, h.records.factTypeId]
    exact List.append_nil _
  roleId := fun number role found => by
    simp only [factTypeId_enter, List.mem_append, List.mem_singleton, Registration.role.injEq,
      or_and_right, exists_or, ← h.records.roleId]
    rw [roleId_enter, lookup_singleton, Option.or_eq_some_iff]
    refine or_congr Iff.rfl ?_
    constructor
    · rintro ⟨-, he⟩
      rw [Option.ite_none_right_eq_some, Prod.mk.injEq] at he
      obtain ⟨⟨rfl, rfl⟩, he⟩ := he
      exact ⟨type, ⟨rfl, rfl, (Option.some.inj he).symm⟩, ht⟩
    · rintro ⟨_, ⟨rfl, rfl, rfl⟩, hnumber⟩
      obtain rfl := Option.some.inj (ht.symm.trans hnumber)
      exact ⟨hr, if_pos rfl⟩

/-- Where the number of a type has no role of a name, no type of this number has one. -/
theorem factTypeId_ne_of_roleId_eq_none (h : catalog.Keeps made)
    (hr : catalog.roleId typeId name = none) (hm : .role other name number ∈ made) :
    catalog.factTypeId other ≠ some typeId := by
  intro ht
  rw [(h.records.roleId typeId name number).mpr ⟨other, hm, ht⟩] at hr
  cases hr

theorem enter (h : catalog.Keeps made) (ht : catalog.factTypeId type = some typeId)
    (hr : catalog.roleId typeId name = none) :
    (catalog.enter ((typeId, name), id)).Keeps (made ++ [.role type name id]) where
  tidy := h.tidy.enter hr
  records := h.records_enter ht hr
  declared := fun other role number hm => by
    rw [factTypeId_enter]
    rcases List.mem_append.mp hm with hm | hm
    · exact h.declared _ _ _ hm
    · rw [List.mem_singleton, Registration.role.injEq] at hm
      rw [hm.1, ht]
      exact Option.some_ne_none typeId
  single := fun one other role number number' hm hm' hnumber => by
    rw [factTypeId_enter, factTypeId_enter] at hnumber
    simp only [List.mem_append, List.mem_singleton, Registration.role.injEq] at hm hm'
    -- an old and a new role of one name are not those of one number
    rcases hm with hm | ⟨rfl, rfl, rfl⟩ <;> rcases hm' with hm' | ⟨rfl, hrole, rfl⟩
    · exact h.single _ _ _ _ _ hm hm' hnumber
    · subst hrole
      exact absurd (hnumber.symm.trans ht) (h.factTypeId_ne_of_roleId_eq_none hr hm)
    · exact absurd (hnumber.trans ht) (h.factTypeId_ne_of_roleId_eq_none hr hm')
    · rfl

/-- **A registration that succeeds is kept.** -/
theorem registration (h : catalog.Keeps made) {next : Catalog}
    (hs : step.apply catalog = (.ok (), next)) : next.Keeps (made ++ [step]) := by
  rcases registration_cases catalog step with
    ⟨_, he⟩ | ⟨name, id, rfl, hn, he⟩ | ⟨type, name, id, typeId, rfl, ht, hr, he⟩ <;>
    rw [he] at hs <;> cases hs
  · exact h.addFactType hn
  · exact h.enter ht hr

/-- **All that succeed in a history are kept**, and nothing else. -/
theorem history : ∀ {history : List Registration} {catalog : Catalog} {made : List Registration},
    catalog.Keeps made → (catalog.after history).Keeps (made ++ catalog.successes history)
  | [], catalog, made, h => by
    rw [successes, List.append_nil]
    exact h
  | step :: history, catalog, made, h => by
    rw [after, List.foldl_cons, ← after, successes]
    rcases hs : step.apply catalog with ⟨error | ⟨⟩, next⟩
    · obtain rfl := eq_of_refused hs
      exact h.history
    · rw [List.append_cons]
      exact (h.registration hs).history

end Keeps

theorem keeps_after (history : List Registration) :
    (empty.after history).Keeps (empty.successes history) := keeps_empty.history

/-- **A catalog is a consistent store over every history.** A registration that is refused leaves
it as it was, it tells the registrations that succeeded, and it equals another one exactly if they
answer all questions alike. -/
theorem consistent_after (history other : List Registration) :
    (∀ (step : Registration) error left, step.apply (empty.after history) = (.error error, left) →
      left = empty.after history) ∧
    (empty.after history).Records (empty.successes history) ∧
    ((empty.after history == empty.after other) = true ↔
      (∀ name, (empty.after history).factTypeId name = (empty.after other).factTypeId name) ∧
      ∀ typeId role,
        (empty.after history).roleId typeId role = (empty.after other).roleId typeId role) :=
  ⟨fun _ _ _ h => eq_of_refused h, (keeps_after history).records,
    Tidy.beq_iff (keeps_after history).tidy (keeps_after other).tidy⟩

/-! ### The type of a role -/

/-- Roles belong to the type that they were registered on: a role is refused as a duplicate only if
it was registered on its type before, and a number is found only under a type on which the role was
registered with it. -/
structure RolesBelong (catalog : Catalog) (made : List Registration) : Prop where
  refused : ∀ type role id,
    (catalog.registerRole type role id).1 = .error (.duplicateRole type role) →
      ∃ other, .role type role other ∈ made
  found : ∀ type role id, catalog.schema.roleOf type role = some id → .role type role id ∈ made

theorem roleOf_eq_some_iff : catalog.schema.roleOf type name = some id ↔
    ∃ typeId, catalog.factTypeId type = some typeId ∧ catalog.roleId typeId name = some id :=
  Option.bind_eq_some_iff

/-- A role is refused as a duplicate exactly if one of its name is found under its type. -/
theorem duplicateRole_iff :
    (catalog.registerRole type name id).1 = .error (.duplicateRole type name) ↔
      ∃ found, catalog.schema.roleOf type name = some found := by
  simp only [roleOf_eq_some_iff]
  rcases registerRole_cases catalog type name id with ⟨ht, h⟩ | ⟨typeId, ht, ⟨hr, h⟩ | ⟨hr, h⟩⟩
  · simp [h, ht]
  · simpa [h, ht] using Option.ne_none_iff_exists'.mp hr
  · simp [h, ht, hr]

/-- **Roles belong to their types exactly if no type shares its number with one that declares
roles.** -/
theorem rolesBelong_iff (history : List Registration) :
    (empty.after history).RolesBelong (empty.successes history) ↔
      ∀ type role id other, .role type role id ∈ empty.successes history →
        (empty.after history).factTypeId other = (empty.after history).factTypeId type →
          other = type := by
  have hkeeps := keeps_after history
  constructor
  · intro h type role id other hm hnumber
    obtain ⟨typeId, ht⟩ := Option.ne_none_iff_exists'.mp (hkeeps.declared _ _ _ hm)
    have hrole := (hkeeps.records.roleId typeId role id).mpr ⟨type, hm, ht⟩
    have hother := roleOf_eq_some_iff.mpr ⟨typeId, hnumber.trans ht, hrole⟩
    exact hkeeps.single _ _ _ _ _ hm (h.found _ _ _ hother) hnumber
  · intro h
    have hfound : ∀ type role id, (empty.after history).schema.roleOf type role = some id →
        .role type role id ∈ empty.successes history := by
      intro type role id hr
      obtain ⟨typeId, ht, hr⟩ := roleOf_eq_some_iff.mp hr
      obtain ⟨owner, hm, howner⟩ := (hkeeps.records.roleId typeId role id).mp hr
      rwa [h _ _ _ _ hm (ht.trans howner.symm)]
    refine ⟨fun type role id hd => ?_, hfound⟩
    obtain ⟨found, hr⟩ := duplicateRole_iff.mp hd
    exact ⟨found, hfound _ _ _ hr⟩

/-- Two types with the number 1 share the role `r`, so it cannot be registered on the second one,
and is found there all the same. -/
theorem not_forall_rolesBelong :
    ¬ ∀ history, (empty.after history).RolesBelong (empty.successes history) := by
  intro h
  have hshared := h [.factType "A" 1, .factType "B" 1, .role "A" "r" 5]
  have hm := hshared.found "B" "r" 5 (by decide)
  revert hm
  decide

end Catalog

end FactGraph
