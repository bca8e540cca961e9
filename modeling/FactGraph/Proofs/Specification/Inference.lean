import FactGraph.Proofs.Rows
import FactGraph.Proofs.Specification.RoundTrip

/-! # Inferred catalogs

A specification mentions every type that declares one of its roles, so the roles can be registered
behind the types. The types are listed once each and never clash. Roles are listed once for each
target, while a catalog has one number for the name of a role: this alone can stop an inference.

* `Specification.mem_factTypes_of_mem_roles`: the type that declares a role is mentioned.
* `Specification.inferCatalog_eq_ok_iff`: what an inferred catalog holds, and when there is one.
* `Specification.inferCatalog_numbers`: the numbers that it gives. -/

namespace FactGraph

/-! ### Declaring types -/

variable {all : List Mention} {scope : Scope} {label : Label}

/-- The types of the visible labels are mentioned. -/
def Scope.MentionedIn (scope : Scope) (all : List Mention) : Prop :=
  ∀ name type, scope.type? name = some type → .type type ∈ all

/-- The types that declare roles are mentioned. -/
def DeclaredIn (mentions all : List Mention) : Prop :=
  ∀ role, .role role ∈ mentions → .type role.definingType ∈ all

theorem Scope.MentionedIn.bind (h : scope.MentionedIn all) (hl : .type label.type ∈ all) :
    (scope.bind label).MentionedIn all := by
  intro name type ht
  by_cases hn : name = label.name
  · subst hn
    rw [Scope.type?_bind_self, Option.some_inj] at ht
    exact ht ▸ hl
  · rw [Scope.type?_bind_of_ne hn] at ht
    exact h name type ht

theorem Scope.bindAll_cons {rest : List Label} :
    scope.bindAll (label :: rest) = (scope.bind label).bindAll rest :=
  rfl

theorem Scope.MentionedIn.bindAll : ∀ {labels : List Label} {scope : Scope},
    scope.MentionedIn all → (∀ label ∈ labels, .type label.type ∈ all) →
      (scope.bindAll labels).MentionedIn all
  | [], _, h, _ => h
  | label :: rest, _, h, hl => by
    rw [List.forall_mem_cons] at hl
    rw [Scope.bindAll_cons]
    exact MentionedIn.bindAll (h.bind hl.1) hl.2

theorem DeclaredIn.append {a b : List Mention} (ha : DeclaredIn a all) (hb : DeclaredIn b all) :
    DeclaredIn (a ++ b) all := fun role hr => (List.mem_append.mp hr).elim (ha role) (hb role)

theorem DeclaredIn.cons_type {type : String} {a : List Mention} (ha : DeclaredIn a all) :
    DeclaredIn (.type type :: a) all := fun role hr => by
  rw [List.mem_cons] at hr
  exact ha role (hr.resolve_left nofun)

theorem declaredIn_roles : ∀ {roles : List Role} {start : String}, .type start ∈ all →
    mentionedInRoles start roles ⊆ all → DeclaredIn (mentionedInRoles start roles) all
  | [], _, _, _ => nofun
  | role :: rest, start, hs, hsub => by
    rw [mentionedInRoles, List.cons_subset, List.cons_subset] at hsub
    obtain ⟨htarget, -, hrest⟩ := hsub
    refine DeclaredIn.cons_type fun other ho => ?_
    rcases List.mem_cons.mp ho with heq | ho
    · cases heq
      exact hs
    · exact declaredIn_roles htarget hrest other ho

theorem PathCondition.declaredIn {path : PathCondition} {unknown : Label}
    (hs : scope.MentionedIn all) (hu : .type unknown.type ∈ all)
    (hsub : path.mentions scope unknown ⊆ all) :
    DeclaredIn (path.mentions scope unknown) all := by
  unfold PathCondition.mentions at hsub ⊢
  rw [List.append_subset] at hsub
  refine (declaredIn_roles hu hsub.1).append ?_
  rcases ht : scope.type? path.labelRight with _ | type
  · exact nofun
  · simp only [ht] at hsub
    exact declaredIn_roles (hs _ _ ht) hsub.2

mutual

theorem Condition.declaredIn : ∀ {condition : Condition} {scope : Scope} {unknown : Label},
    scope.MentionedIn all → .type unknown.type ∈ all → condition.mentions scope unknown ⊆ all →
      DeclaredIn (condition.mentions scope unknown) all
  | .path _, _, _, hs, hu, hsub => by
    rw [Condition.mentions] at hsub ⊢
    exact PathCondition.declaredIn hs hu hsub
  | .existential _ block, _, _, hs, _, hsub => by
    rw [Condition.mentions] at hsub ⊢
    exact Match.allDeclaredIn hs hsub

theorem Condition.allDeclaredIn : ∀ {conditions : List Condition} {scope : Scope}
    {unknown : Label}, scope.MentionedIn all → .type unknown.type ∈ all →
      Condition.mentionsAll scope unknown conditions ⊆ all →
      DeclaredIn (Condition.mentionsAll scope unknown conditions) all
  | [], _, _, _, _, _ => by
    rw [Condition.mentionsAll]
    exact nofun
  | condition :: rest, _, _, hs, hu, hsub => by
    rw [Condition.mentionsAll] at hsub ⊢
    rw [List.append_subset] at hsub
    exact (Condition.declaredIn hs hu hsub.1).append (Condition.allDeclaredIn hs hu hsub.2)

theorem Match.allDeclaredIn : ∀ {block : List Match} {scope : Scope}, scope.MentionedIn all →
    Match.mentionsAll scope block ⊆ all → DeclaredIn (Match.mentionsAll scope block) all
  | [], _, _, _ => by
    rw [Match.mentionsAll]
    exact nofun
  | ⟨unknown, conditions⟩ :: rest, scope, hs, hsub => by
    rw [Match.mentionsAll, Match.mentions] at hsub ⊢
    rw [List.append_subset, List.cons_subset] at hsub
    obtain ⟨⟨hu, hconditions⟩, hrest⟩ := hsub
    have hinner : (scope.bind unknown).MentionedIn all := hs.bind hu
    exact (Condition.allDeclaredIn hinner hu hconditions).cons_type.append
      (Match.allDeclaredIn hinner hrest)

end

theorem Match.mentions_unknowns : ∀ {block : List Match} {scope : Scope},
    ∀ label ∈ block.map Match.unknown, .type label.type ∈ Match.mentionsAll scope block
  | [], _ => nofun
  | ⟨unknown, conditions⟩ :: rest, scope => by
    rw [Match.mentionsAll, Match.mentions, List.map_cons, List.forall_mem_cons]
    exact ⟨List.mem_append_left _ List.mem_cons_self,
      fun label hl => List.mem_append_right _ (mentions_unknowns label hl)⟩

mutual

theorem Projection.declaredIn : ∀ {projection : Projection} {scope : Scope},
    scope.MentionedIn all → projection.mentions scope ⊆ all →
      DeclaredIn (projection.mentions scope) all
  | .nested _ block projections, scope, hs, hsub => by
    rw [Projection.mentions] at hsub ⊢
    rw [List.append_subset] at hsub
    have hinner : (scope.bindAll (block.map Match.unknown)).MentionedIn all :=
      hs.bindAll fun label hl => hsub.1 (Match.mentions_unknowns label hl)
    exact (Match.allDeclaredIn hs hsub.1).append (Projection.allDeclaredIn hinner hsub.2)
  | .field _ _ _, _, _, _ | .hash _ _, _, _, _ | .fact _ _, _, _, _ => by
    simp [Projection.mentions, DeclaredIn]

theorem Projection.allDeclaredIn : ∀ {projections : List Projection} {scope : Scope},
    scope.MentionedIn all → Projection.mentionsAll scope projections ⊆ all →
      DeclaredIn (Projection.mentionsAll scope projections) all
  | [], _, _, _ => by
    rw [Projection.mentionsAll]
    exact nofun
  | projection :: rest, _, hs, hsub => by
    rw [Projection.mentionsAll] at hsub ⊢
    rw [List.append_subset] at hsub
    exact (Projection.declaredIn hs hsub.1).append (Projection.allDeclaredIn hs hsub.2)

end

namespace Specification

variable {spec : Specification}

theorem mem_factTypes_iff {type : String} :
    type ∈ spec.factTypes ↔ .type type ∈ spec.mentions := by
  rw [factTypes, List.mem_eraseDups, List.mem_filterMap]
  constructor
  · rintro ⟨mention, hm, he⟩
    cases mention <;> cases he
    exact hm
  · exact fun hm => ⟨_, hm, rfl⟩

theorem mem_roles_iff {role : RoleDefinition} : role ∈ spec.roles ↔ .role role ∈ spec.mentions := by
  rw [roles, List.mem_eraseDups, List.mem_filterMap]
  constructor
  · rintro ⟨mention, hm, he⟩
    cases mention <;> cases he
    exact hm
  · exact fun hm => ⟨_, hm, rfl⟩

theorem mentions_given (hl : label ∈ spec.given) : .type label.type ∈ spec.mentions :=
  List.mem_append_left _ (List.mem_append_left _ (List.mem_map.mpr ⟨label, hl, rfl⟩))

theorem mentionedIn_given (spec : Specification) :
    (Scope.bindAll [] spec.given).MentionedIn spec.mentions := by
  refine Scope.MentionedIn.bindAll ?_ fun label hl => mentions_given hl
  intro name type ht
  cases ht

theorem mentions_body (spec : Specification) :
    Match.mentionsAll (Scope.bindAll [] spec.given) spec.body ⊆ spec.mentions := fun _ hm =>
  List.mem_append_left _ (List.mem_append_right _ hm)

theorem mentionedIn_body (spec : Specification) :
    ((Scope.bindAll [] spec.given).bindAll spec.unknowns).MentionedIn spec.mentions :=
  spec.mentionedIn_given.bindAll fun label hl =>
    spec.mentions_body (Match.mentions_unknowns label hl)

/-- **The types that declare the roles of a specification are mentioned by it.** -/
theorem mem_factTypes_of_mem_roles {role : RoleDefinition} (h : role ∈ spec.roles) :
    role.definingType ∈ spec.factTypes := by
  have hgiven : DeclaredIn (spec.given.map fun label => .type label.type) spec.mentions :=
    fun role hr => by simp at hr
  have hbody := Match.allDeclaredIn spec.mentionedIn_given spec.mentions_body
  have hprojections := Projection.allDeclaredIn spec.mentionedIn_body
    (List.subset_append_right _ _)
  exact mem_factTypes_iff.mpr
    (((hgiven.append hbody).append hprojections) role (mem_roles_iff.mp h))

end Specification

/-! ### Tables of numbers -/

theorem nodup_eraseDups {α : Type} [BEq α] [LawfulBEq α] : ∀ as : List α, as.eraseDups.Nodup
  | [] => List.nodup_nil
  | a :: rest => by
    rw [List.eraseDups_cons, List.nodup_cons, List.mem_eraseDups]
    exact ⟨by simp, nodup_eraseDups _⟩
termination_by as => as.length
decreasing_by exact Nat.lt_succ_of_le (List.length_filter_le _ _)

section

variable {α κ : Type} (key : α → κ) (as : List α)

/-- The keys of some things with their places, counted from 1. -/
def numbered : List (κ × Int) := (as.zipIdx 1).map fun (a, place) => (key a, (place : Int))

theorem numbered_keys : (numbered key as).map Prod.fst = as.map key := by
  conv_rhs => rw [← List.zipIdx_map_fst 1 as]
  rw [numbered, List.map_map, List.map_map]
  rfl

theorem numbered_places_nodup : ((numbered key as).map Prod.snd).Nodup := by
  have hplaces : (numbered key as).map Prod.snd = ((as.zipIdx 1).map Prod.snd).map Int.ofNat := by
    rw [numbered, List.map_map, List.map_map]
    rfl
  rw [hplaces, List.zipIdx_map_snd]
  exact (List.nodup_range' 1).map fun _ _ => Int.ofNat.inj

theorem mem_numbered_iff {k : κ} {id : Int} :
    (k, id) ∈ numbered key as ↔ ∃ (i : Nat) (a : α), as[i]? = some a ∧ key a = k ∧ id = i + 1 := by
  simp only [numbered, List.mem_map, Prod.exists, Prod.mk.injEq]
  constructor
  · rintro ⟨a, place, hm, hk, rfl⟩
    rw [List.mk_mem_zipIdx_iff_le_and_getElem?_sub] at hm
    exact ⟨place - 1, a, hm.2, hk, by omega⟩
  · rintro ⟨i, a, ha, hk, rfl⟩
    exact ⟨a, i + 1, List.mk_mem_zipIdx_iff_le_and_getElem?_sub.mpr ⟨by omega, ha⟩, hk, by simp⟩

variable [BEq κ] [LawfulBEq κ]

/-- Things are registered one after the other exactly if their keys are different then, if each step
adds an entry under a new key to a table. -/
theorem foldlM_eq_ok_iff {ε σ β : Type} (build : List (κ × Int) → σ) (entry : β → κ × Int)
    {step : σ → β → Except ε σ} : ∀ (bs : List β) (entries : List (κ × Int)) {s : σ},
      (∀ b ∈ bs, ∀ entries s, step (build entries) b = .ok s ↔
        entries.lookup (entry b).1 = none ∧ build (entries ++ [entry b]) = s) →
      (entries.map Prod.fst).Nodup →
      (bs.foldlM step (build entries) = .ok s ↔
        ((entries ++ bs.map entry).map Prod.fst).Nodup ∧ build (entries ++ bs.map entry) = s)
  | [], entries, s, _, hn => by simp [hn]
  | b :: rest, entries, s, hstep, hn => by
    rw [List.forall_mem_cons] at hstep
    have hnew : entries.lookup (entry b).1 = none ↔
        ((entries ++ [entry b]).map Prod.fst).Nodup := by
      rw [List.lookup_eq_none_iff, List.map_append, List.nodup_append_comm]
      simp only [List.map_cons, List.map_nil, List.singleton_append, List.nodup_cons, hn, and_true,
        List.mem_map, bne_iff_ne]
      exact ⟨fun h ⟨other, hm, he⟩ => h other hm he.symm,
        fun h other hm he => h ⟨other, hm, he.symm⟩⟩
    have hall : entries ++ (b :: rest).map entry = (entries ++ [entry b]) ++ rest.map entry := by
      simp
    simp only [List.foldlM_cons, Except.bind_eq_ok_iff, hstep.1, hall]
    constructor
    · rintro ⟨_, ⟨hl, rfl⟩, h⟩
      exact (foldlM_eq_ok_iff build entry rest _ hstep.2 (hnew.mp hl)).mp h
    · rintro ⟨hd, hs⟩
      have hb : ((entries ++ [entry b]).map Prod.fst).Nodup := by
        rw [List.map_append] at hd
        exact hd.of_append_left
      exact ⟨_, ⟨hnew.mpr hb, rfl⟩, (foldlM_eq_ok_iff build entry rest _ hstep.2 hb).mpr ⟨hd, hs⟩⟩

/-- Things are registered under their places exactly if their keys are different. -/
theorem foldlM_numbered_eq_ok_iff {ε σ : Type} (build : List (κ × Int) → σ)
    (step : σ → α → Int → Except ε σ) {s : σ} (hstep : ∀ a ∈ as, ∀ entries id s,
      step (build entries) a id = .ok s ↔
        entries.lookup (key a) = none ∧ build (entries ++ [(key a, id)]) = s) :
    (as.zipIdx 1).foldlM (fun s (a, place) => step s a (place : Int)) (build []) = .ok s ↔
      (as.map key).Nodup ∧ build (numbered key as) = s := by
  rw [foldlM_eq_ok_iff build (fun (a, place) => (key a, (place : Int))) _ []
    (fun (a, place) hm entries s => hstep a (List.fst_mem_of_mem_zipIdx hm) entries place s)
    List.nodup_nil, List.nil_append]
  exact and_congr_left fun _ => numbered_keys key as ▸ Iff.rfl

end

/-! ### Inference -/

namespace Specification

variable {spec : Specification} {catalog : Catalog}

/-- The fact types of a specification with their places. -/
def numberedTypes (spec : Specification) : List (String × Int) := numbered id spec.factTypes

/-- What a catalog with these types finds a role by. -/
def roleKey (spec : Specification) (role : RoleDefinition) : Int × String :=
  ((spec.numberedTypes.lookup role.definingType).getD 0, role.name)

/-- Roles of one name that the same type declares have the same target. -/
def SingleTargets (spec : Specification) : Prop :=
  ∀ role ∈ spec.roles, ∀ other ∈ spec.roles, role.definingType = other.definingType →
    role.name = other.name → role.target = other.target

theorem numberedTypes_keys_nodup : (spec.numberedTypes.map Prod.fst).Nodup := by
  rw [numberedTypes, numbered_keys, List.map_id]
  exact nodup_eraseDups _

theorem lookup_numberedTypes_iff {name : String} {id : Int} :
    spec.numberedTypes.lookup name = some id ↔
      ∃ i : Nat, spec.factTypes[i]? = some name ∧ id = i + 1 := by
  rw [lookup_eq_some_iff_mem numberedTypes_keys_nodup, numberedTypes, mem_numbered_iff]
  refine exists_congr fun i => ⟨?_, fun ⟨hi, hid⟩ => ⟨name, hi, rfl, hid⟩⟩
  rintro ⟨type, hi, rfl, hid⟩
  exact ⟨hi, hid⟩

theorem exists_lookup_declaring {role : RoleDefinition} (hr : role ∈ spec.roles) :
    ∃ id, spec.numberedTypes.lookup role.definingType = some id := by
  obtain ⟨i, hi⟩ := List.mem_iff_getElem?.mp (mem_factTypes_of_mem_roles hr)
  exact ⟨_, lookup_numberedTypes_iff.mpr ⟨i, hi, rfl⟩⟩

/-- Roles are found by the same key exactly if they have one name and one type declares them. -/
theorem roleKey_eq_iff {role other : RoleDefinition} (hr : role ∈ spec.roles)
    (ho : other ∈ spec.roles) : spec.roleKey role = spec.roleKey other ↔
      role.definingType = other.definingType ∧ role.name = other.name := by
  obtain ⟨id, hid⟩ := exists_lookup_declaring hr
  obtain ⟨id', hid'⟩ := exists_lookup_declaring ho
  simp only [roleKey, Prod.mk.injEq, hid, hid', Option.getD_some]
  refine and_congr_left fun _ => ⟨fun h => ?_, fun h => ?_⟩
  · exact lookup_injective (numbered_places_nodup _ _) hid (h ▸ hid')
  · rw [h, hid'] at hid
    exact (Option.some.inj hid).symm

theorem nodup_roleKey_iff : (spec.roles.map spec.roleKey).Nodup ↔ spec.SingleTargets := by
  have hn : spec.roles.Nodup := nodup_eraseDups _
  rw [List.nodup_map_iff_inj_on hn]
  refine forall₂_congr fun role hr => forall₂_congr fun other ho => ?_
  rw [roleKey_eq_iff hr ho, and_imp]
  obtain ⟨type, name, target⟩ := role
  obtain ⟨type', name', target'⟩ := other
  simp only [RoleDefinition.mk.injEq]
  exact ⟨fun h ht hm => (h ht hm).2.2, fun h ht hm => ⟨ht, hm, h ht hm⟩⟩

theorem register_types : (spec.factTypes.zipIdx 1).foldlM
    (fun catalog (name, id) => catalog.insertFactType name id) Catalog.empty = .ok catalog ↔
      Catalog.mk spec.numberedTypes [] = catalog := by
  refine (foldlM_numbered_eq_ok_iff id spec.factTypes (fun entries => Catalog.mk entries [])
    Catalog.insertFactType fun _ _ _ _ _ => Catalog.insertFactType_eq_ok_iff).trans ?_
  rw [List.map_id]
  exact and_iff_right (nodup_eraseDups _)

/-- All roles can be registered, behind the fact types, exactly if they have single targets. -/
theorem register_roles : (spec.roles.zipIdx 1).foldlM
    (fun catalog (role, id) => Catalog.insertRole catalog role.definingType role.name id)
      ⟨spec.numberedTypes, []⟩ = .ok catalog ↔ spec.SingleTargets ∧
        Catalog.ofEntries spec.numberedTypes (numbered spec.roleKey spec.roles) = catalog := by
  refine (foldlM_numbered_eq_ok_iff spec.roleKey spec.roles (Catalog.ofEntries spec.numberedTypes)
    (fun catalog role => catalog.insertRole role.definingType role.name)
    fun role hr entries _ _ => ?_).trans (and_congr_left' nodup_roleKey_iff)
  obtain ⟨id, hid⟩ := exists_lookup_declaring hr
  have hrole : (Catalog.ofEntries spec.numberedTypes entries).factTypeId role.definingType =
      some id := Catalog.factTypeId_ofEntries.trans hid
  simpa only [roleKey, hid, Option.getD_some, Catalog.roleId_ofEntries, Catalog.ofEntries_append]
    using Catalog.insertRole_eq_ok_iff hrole

/-- **A catalog can be inferred exactly if roles have single targets**, and then it gives every type
and every role its place. -/
theorem inferCatalog_eq_ok_iff : spec.inferCatalog = .ok catalog ↔ spec.SingleTargets ∧
    Catalog.ofEntries spec.numberedTypes (numbered spec.roleKey spec.roles) = catalog := by
  simp only [inferCatalog, Except.bind_eq_ok_iff, register_types, exists_eq_left', register_roles]

theorem factTypeId_of_inferCatalog (h : spec.inferCatalog = .ok catalog) {i : Nat} {type : String}
    (hi : spec.factTypes[i]? = some type) : catalog.factTypeId type = some ((i : Int) + 1) := by
  obtain ⟨-, rfl⟩ := inferCatalog_eq_ok_iff.mp h
  exact Catalog.factTypeId_ofEntries.trans (lookup_numberedTypes_iff.mpr ⟨i, hi, rfl⟩)

theorem roleOf_of_inferCatalog (h : spec.inferCatalog = .ok catalog) {i : Nat}
    {role : RoleDefinition} (hi : spec.roles[i]? = some role) :
    catalog.schema.roleOf role.definingType role.name = some ((i : Int) + 1) := by
  obtain ⟨hsingle, rfl⟩ := inferCatalog_eq_ok_iff.mp h
  obtain ⟨typeId, ht⟩ := exists_lookup_declaring (List.mem_of_getElem? hi)
  have hkey : spec.roleKey role = (typeId, role.name) := by rw [roleKey, ht, Option.getD_some]
  have hkeys : ((numbered spec.roleKey spec.roles).map Prod.fst).Nodup := by
    rw [numbered_keys]
    exact nodup_roleKey_iff.mpr hsingle
  have hid : (numbered spec.roleKey spec.roles).lookup (typeId, role.name) = some ((i : Int) + 1) :=
    (lookup_eq_some_iff_mem hkeys).mpr ((mem_numbered_iff _ _).mpr ⟨i, role, hi, hkey, rfl⟩)
  exact Option.bind_eq_some_iff.mpr ⟨typeId, Catalog.factTypeId_ofEntries.trans ht,
    (Catalog.roleId_ofEntries _ _).trans hid⟩

theorem roleOf_injective_of_inferCatalog (h : spec.inferCatalog = .ok catalog)
    {type role type' role' : String} {id : Int} (hid : catalog.schema.roleOf type role = some id)
    (hid' : catalog.schema.roleOf type' role' = some id) : type = type' ∧ role = role' := by
  obtain ⟨-, rfl⟩ := inferCatalog_eq_ok_iff.mp h
  have htypes : ((Catalog.ofEntries spec.numberedTypes
      (numbered spec.roleKey spec.roles)).factTypes.map Prod.snd).Nodup := by
    rw [Catalog.factTypes_ofEntries]
    exact numbered_places_nodup _ _
  have hroles : ((Catalog.ofEntries spec.numberedTypes
      (numbered spec.roleKey spec.roles)).roles.map Prod.snd).Nodup :=
    ((Catalog.roles_ofEntries _ _).map Prod.snd).nodup_iff.mpr (numbered_places_nodup _ _)
  exact Catalog.roleOf_injective htypes hroles hid hid'

/-- **Which catalogs can be inferred, and what they tell.** A catalog can be inferred exactly if no
two roles with the same name and declaring type differ in their targets. It finds every fact type
under its place, counted from 1, and every role under a number that no other role has. -/
theorem inferCatalog_numbers (spec : Specification) :
    ((∃ catalog, spec.inferCatalog = .ok catalog) ↔
      ∀ role ∈ spec.roles, ∀ other ∈ spec.roles, role.definingType = other.definingType →
        role.name = other.name → role.target = other.target) ∧
    ∀ catalog, spec.inferCatalog = .ok catalog →
      (∀ (i : Nat) (type : String), spec.factTypes[i]? = some type →
        catalog.factTypeId type = some ((i : Int) + 1)) ∧
      ∀ role ∈ spec.roles, ∃ id, catalog.schema.roleOf role.definingType role.name = some id ∧
        ∀ type name, catalog.schema.roleOf type name = some id →
          type = role.definingType ∧ name = role.name := by
  refine ⟨?_, fun catalog h => ⟨fun i type => factTypeId_of_inferCatalog h, fun role hr => ?_⟩⟩
  · simp only [inferCatalog_eq_ok_iff, exists_and_left, exists_eq', and_true]
    rfl
  · obtain ⟨i, hi⟩ := List.mem_iff_getElem?.mp hr
    refine ⟨_, roleOf_of_inferCatalog h hi, fun type name hother => ?_⟩
    exact roleOf_injective_of_inferCatalog h hother (roleOf_of_inferCatalog h hi)

/-- Facts of a type that name givens of two types in one role. -/
def crossing : Specification :=
  ⟨[⟨"a", "A"⟩, ⟨"b", "B"⟩], [referring "x" "X" "r" "a" "A", referring "y" "X" "r" "b" "B"], []⟩

/-- **No catalog can be inferred for some accepted specification.** -/
theorem not_forall_inferCatalog :
    ¬ ∀ spec : Specification, spec.Accepted → ∃ catalog, spec.inferCatalog = .ok catalog := by
  intro h
  obtain ⟨catalog, hc⟩ := h crossing (accepted_of_isPrintable rfl rfl)
  have herror : crossing.inferCatalog = .error (.duplicateRole "X" "r") := rfl
  rw [herror] at hc
  cases hc

end Specification

end FactGraph
