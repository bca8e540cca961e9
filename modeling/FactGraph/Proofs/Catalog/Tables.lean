import FactGraph.Catalog
import Mathlib.Data.List.Induction
import Mathlib.Data.List.Nodup
import Mathlib.Data.List.Perm.Subperm

/-! # The tables of a catalog

A role is registered in the table of a number, which is opened when the first role is registered
there. What a catalog finds is told by its tables alone: a registration that is refused has opened
no table, and a role that is entered is found under its number, unless the table had it before.

* `Catalog.registerFactType_cases`, `Catalog.registerRole_cases`: what a registration can do.
* `Catalog.roleId_ofEntries`: roles that have been entered are found as in a list of them.
* `Catalog.Tidy.beq_iff`: catalogs are equal if they answer all questions alike. -/

namespace FactGraph

/-! ### Searching lists of entries -/

section Lookup

variable {κ α : Type} [BEq κ] [LawfulBEq κ]

theorem lookup_eq_some_iff_mem : ∀ {entries : List (κ × α)} {key : κ} {value : α},
    (entries.map Prod.fst).Nodup → (entries.lookup key = some value ↔ (key, value) ∈ entries)
  | [], _, _, _ => by simp
  | (other, a) :: rest, key, value, hn => by
    rw [List.map_cons, List.nodup_cons] at hn
    rw [List.lookup_cons, List.mem_cons]
    by_cases he : key = other
    · subst he
      have hrest : (key, value) ∉ rest := fun hm => hn.1 (List.mem_map.mpr ⟨_, hm, rfl⟩)
      simp [hrest, eq_comm]
    · rw [beq_eq_false_iff_ne.mpr he, lookup_eq_some_iff_mem hn.2]
      simp [he]

theorem mem_of_lookup {entries : List (κ × α)} {key : κ} {value : α}
    (h : entries.lookup key = some value) : (key, value) ∈ entries := by
  obtain ⟨before, behind, rfl, -⟩ := List.lookup_eq_some_iff.mp h
  simp

theorem lookup_eq_none_iff_not_mem {entries : List (κ × α)} {key : κ} :
    entries.lookup key = none ↔ key ∉ entries.map Prod.fst := by
  simp only [List.lookup_eq_none_iff, List.mem_map, bne_iff_ne]
  exact ⟨fun h ⟨entry, hm, he⟩ => h entry hm he.symm, fun h entry hm he => h ⟨entry, hm, he.symm⟩⟩

theorem exists_lookup_of_mem {entries : List (κ × α)} {key : κ}
    (h : key ∈ entries.map Prod.fst) : ∃ value, entries.lookup key = some value :=
  Option.ne_none_iff_exists'.mp fun hn => lookup_eq_none_iff_not_mem.mp hn h

theorem lookup_singleton [DecidableEq κ] {key other : κ} {value : α} :
    [(other, value)].lookup key = if key = other then some value else none := by
  by_cases h : key = other
  · simp [h]
  · rw [List.lookup_cons, beq_eq_false_iff_ne.mpr h, if_neg h]
    rfl

theorem lookup_injective {entries : List (κ × α)} (hn : (entries.map Prod.snd).Nodup) {a b : κ}
    {value : α} (ha : entries.lookup a = some value) (hb : entries.lookup b = some value) : a = b :=
  congrArg Prod.fst (List.inj_on_of_nodup_map hn (mem_of_lookup ha) (mem_of_lookup hb) rfl)

theorem nodup_keys_append {entries : List (κ × α)} {key : κ} {value : α}
    (hn : (entries.map Prod.fst).Nodup) (h : entries.lookup key = none) :
    ((entries ++ [(key, value)]).map Prod.fst).Nodup := by
  rw [List.map_append, List.map_cons, List.map_nil, ← List.concat_eq_append]
  exact hn.concat (lookup_eq_none_iff_not_mem.mp h)

end Lookup

namespace Catalog

variable {catalog : Catalog} {typeId id : Int} {role : String}

/-! ### Entering a role -/

/-- The catalog with a further role under the number of its type. -/
def enter (catalog : Catalog) (entry : (Int × String) × Int) : Catalog :=
  let opened := catalog.openTable entry.1.1
  { opened with tables := addToTable entry.1.1 entry.1.2 entry.2 opened.tables }

/-- The catalog of some fact types in which roles have been entered one after the other. -/
def ofEntries (types : List (String × Int)) (roles : List ((Int × String) × Int)) : Catalog :=
  roles.foldl enter ⟨types, []⟩

/-- The roles of some tables, with the numbers of the types that declare them. -/
def rolesIn (tables : List (Int × List (String × Int))) : List ((Int × String) × Int) :=
  tables.flatMap fun (typeId, table) => table.map fun (role, id) => ((typeId, role), id)

/-- All roles of a catalog, with the numbers of the types that declare them. -/
def roles (catalog : Catalog) : List ((Int × String) × Int) := rolesIn catalog.tables

theorem mem_roles_of_roleId (h : catalog.roleId typeId role = some id) :
    ((typeId, role), id) ∈ catalog.roles := by
  obtain ⟨table, ht, hr⟩ := Option.bind_eq_some_iff.mp h
  exact List.mem_flatMap.mpr
    ⟨(typeId, table), mem_of_lookup ht, List.mem_map.mpr ⟨(role, id), mem_of_lookup hr, rfl⟩⟩

theorem length_roles (catalog : Catalog) : catalog.roles.length = catalog.roleCount := by
  unfold roles roleCount
  induction catalog.tables with
  | nil => rfl
  | cons head rest ih =>
    rw [List.foldr_cons, ← ih, rolesIn, List.flatMap_cons, List.length_append, List.length_map,
      rolesIn]

theorem openTable_of_isSome {table : List (String × Int)}
    (h : catalog.tables.lookup typeId = some table) : catalog.openTable typeId = catalog := by
  rw [openTable, h]

theorem openTable_of_none (h : catalog.tables.lookup typeId = none) :
    catalog.openTable typeId = { catalog with tables := catalog.tables ++ [(typeId, [])] } := by
  rw [openTable, h]

@[simp]
theorem factTypes_openTable : (catalog.openTable typeId).factTypes = catalog.factTypes := by
  unfold openTable
  split <;> rfl

theorem lookup_openTable (other : Int) : (catalog.openTable typeId).tables.lookup other =
    (catalog.tables.lookup other).or (if other = typeId then some [] else none) := by
  rcases h : catalog.tables.lookup typeId with _ | table
  · rw [openTable_of_none h, List.lookup_append, lookup_singleton]
  · rw [openTable_of_isSome h]
    by_cases hother : other = typeId
    · rw [hother, h]
      rfl
    · rw [if_neg hother, Option.or_none]

@[simp]
theorem roleId_openTable (other : Int) (name : String) :
    (catalog.openTable typeId).roleId other name = catalog.roleId other name := by
  unfold roleId
  rw [lookup_openTable]
  rcases catalog.tables.lookup other with _ | table
  · split_ifs <;> rfl
  · rfl

theorem lookup_addToTable (other : Int) : ∀ tables : List (Int × List (String × Int)),
    (addToTable typeId role id tables).lookup other = (tables.lookup other).map fun table =>
      if other = typeId then table ++ [(role, id)] else table
  | [] => rfl
  | (number, table) :: rest => by
    rw [addToTable]
    by_cases hn : number = typeId
    · rw [if_pos hn, List.lookup_cons, List.lookup_cons]
      by_cases ho : other = number
      · simp [ho, hn]
      · have hne : other ≠ typeId := fun he => ho (he.trans hn.symm)
        simp [beq_eq_false_iff_ne.mpr ho, hne]
    · rw [if_neg hn, List.lookup_cons, List.lookup_cons, lookup_addToTable other rest]
      by_cases ho : other = number
      · have hne : other ≠ typeId := fun he => hn (ho.symm.trans he)
        simp [ho, hn]
      · simp [beq_eq_false_iff_ne.mpr ho]

@[simp]
theorem factTypes_enter (entry : (Int × String) × Int) :
    (catalog.enter entry).factTypes = catalog.factTypes := factTypes_openTable

theorem factTypeId_enter (entry : (Int × String) × Int) (name : String) :
    (catalog.enter entry).factTypeId name = catalog.factTypeId name := by
  rw [factTypeId, factTypes_enter, factTypeId]

theorem lookup_enter (other : Int) : (catalog.enter ((typeId, role), id)).tables.lookup other =
    if other = typeId then some ((catalog.tables.lookup typeId).getD [] ++ [(role, id)])
    else catalog.tables.lookup other := by
  unfold enter
  rw [lookup_addToTable, lookup_openTable]
  by_cases ho : other = typeId
  · rcases h : catalog.tables.lookup typeId with _ | table <;> simp [ho, h]
  · rcases catalog.tables.lookup other with _ | table <;> simp [ho]

/-- **A role that is entered is found**, unless its table had one of its name before. -/
theorem roleId_enter (entry : (Int × String) × Int) (other : Int) (name : String) :
    (catalog.enter entry).roleId other name =
      (catalog.roleId other name).or ([entry].lookup (other, name)) := by
  obtain ⟨⟨typeId, role⟩, id⟩ := entry
  unfold roleId
  rw [lookup_enter, lookup_singleton]
  by_cases ho : other = typeId
  · rcases h : catalog.tables.lookup typeId with _ | table <;>
      simp [ho, h, List.lookup_append, lookup_singleton]
  · rcases catalog.tables.lookup other with _ | table <;> simp [ho]

theorem map_fst_addToTable : ∀ tables : List (Int × List (String × Int)),
    (addToTable typeId role id tables).map Prod.fst = tables.map Prod.fst
  | [] => rfl
  | (number, table) :: rest => by
    rw [addToTable]
    split_ifs
    · rfl
    · rw [List.map_cons, List.map_cons, map_fst_addToTable rest]

theorem rolesIn_addToTable : ∀ {tables : List (Int × List (String × Int))},
    (tables.lookup typeId).isSome = true →
      (rolesIn (addToTable typeId role id tables)).Perm (((typeId, role), id) :: rolesIn tables)
  | [], h => by cases h
  | (number, table) :: rest, h => by
    rw [addToTable]
    by_cases hn : number = typeId
    · subst hn
      rw [if_pos rfl]
      simp only [rolesIn, List.flatMap_cons, List.map_append, List.map_cons, List.map_nil,
        List.append_assoc]
      exact List.perm_middle
    · have hne : (typeId == number) = false := beq_eq_false_iff_ne.mpr fun he => hn he.symm
      rw [List.lookup_cons, hne] at h
      rw [if_neg hn]
      have hrest := (rolesIn_addToTable h).append_left
        (table.map fun (role, id) => ((number, role), id))
      exact hrest.trans List.perm_middle

@[simp]
theorem roles_openTable : (catalog.openTable typeId).roles = catalog.roles := by
  unfold openTable
  split
  · rfl
  · simp [roles, rolesIn]

theorem roles_enter (entry : (Int × String) × Int) :
    (catalog.enter entry).roles.Perm (entry :: catalog.roles) := by
  have hopen : ((catalog.openTable entry.1.1).tables.lookup entry.1.1).isSome = true := by
    rw [lookup_openTable]
    simp
  have hroles : (catalog.enter entry).roles.Perm
      (((entry.1.1, entry.1.2), entry.2) :: (catalog.openTable entry.1.1).roles) :=
    rolesIn_addToTable hopen
  rwa [roles_openTable] at hroles

theorem roleCount_enter (entry : (Int × String) × Int) :
    (catalog.enter entry).roleCount = catalog.roleCount + 1 := by
  rw [← length_roles, ← length_roles, (roles_enter entry).length_eq, List.length_cons]

theorem ofEntries_append {types : List (String × Int)} {roles : List ((Int × String) × Int)}
    {entry : (Int × String) × Int} :
    ofEntries types (roles ++ [entry]) = (ofEntries types roles).enter entry := by
  simp [ofEntries]

@[simp]
theorem factTypes_ofEntries (types : List (String × Int)) (roles : List ((Int × String) × Int)) :
    (ofEntries types roles).factTypes = types := by
  induction roles using List.reverseRecOn with
  | nil => rfl
  | append_singleton roles entry ih => rw [ofEntries_append, factTypes_enter, ih]

theorem factTypeId_ofEntries {types : List (String × Int)} {roles : List ((Int × String) × Int)}
    {name : String} : (ofEntries types roles).factTypeId name = types.lookup name := by
  rw [factTypeId, factTypes_ofEntries]

/-- **Roles that have been entered are found as in a list of them.** -/
theorem roleId_ofEntries (types : List (String × Int)) (roles : List ((Int × String) × Int)) :
    (ofEntries types roles).roleId typeId role = roles.lookup (typeId, role) := by
  induction roles using List.reverseRecOn with
  | nil => rfl
  | append_singleton roles entry ih =>
    rw [ofEntries_append, roleId_enter, ih, List.lookup_append]

theorem roles_ofEntries (types : List (String × Int)) (roles : List ((Int × String) × Int)) :
    (ofEntries types roles).roles.Perm roles := by
  induction roles using List.reverseRecOn with
  | nil => exact List.Perm.refl _
  | append_singleton roles entry ih =>
    rw [ofEntries_append]
    exact ((roles_enter entry).trans (ih.cons entry)).trans (List.perm_append_singleton _ _).symm

/-! ### Registrations -/

/-- **What a registration of a fact type can do.** It is refused if the name is taken, and changes
nothing then; otherwise it adds an entry. -/
theorem registerFactType_cases (catalog : Catalog) (name : String) (id : Int) :
    (catalog.factTypeId name ≠ none ∧
      catalog.registerFactType name id = (.error (.duplicateFactType name), catalog)) ∨
    (catalog.factTypeId name = none ∧ catalog.registerFactType name id =
      (.ok (), { catalog with factTypes := catalog.factTypes ++ [(name, id)] })) := by
  rcases h : catalog.factTypeId name with _ | other
  · exact Or.inr ⟨rfl, by rw [registerFactType, h]⟩
  · exact Or.inl ⟨by simp, by rw [registerFactType, h]⟩

/-- **What a registration of a role can do.** It is refused if the type is not registered, or if the
table of its number has the role; then it changes nothing, since that table has been open. Otherwise
it enters the role. -/
theorem registerRole_cases (catalog : Catalog) (type role : String) (id : Int) :
    (catalog.factTypeId type = none ∧
      catalog.registerRole type role id = (.error (.unknownFactType type), catalog)) ∨
    ∃ typeId, catalog.factTypeId type = some typeId ∧
      ((catalog.roleId typeId role ≠ none ∧
        catalog.registerRole type role id = (.error (.duplicateRole type role), catalog)) ∨
      (catalog.roleId typeId role = none ∧
        catalog.registerRole type role id = (.ok (), catalog.enter ((typeId, role), id)))) := by
  rcases ht : catalog.factTypeId type with _ | typeId
  · exact Or.inl ⟨rfl, by rw [registerRole, ht]⟩
  · refine Or.inr ⟨typeId, rfl, ?_⟩
    simp only [registerRole, ht, roleId_openTable]
    rcases hr : catalog.roleId typeId role with _ | other
    · exact Or.inr ⟨rfl, rfl⟩
    · obtain ⟨table, htable, -⟩ := Option.bind_eq_some_iff.mp hr
      exact Or.inl ⟨by simp, by rw [openTable_of_isSome htable]⟩

theorem insertFactType_eq_ok_iff {next : Catalog} {name : String} :
    catalog.insertFactType name id = .ok next ↔ catalog.factTypeId name = none ∧
      { catalog with factTypes := catalog.factTypes ++ [(name, id)] } = next := by
  unfold insertFactType
  rcases registerFactType_cases catalog name id with ⟨hn, h⟩ | ⟨hn, h⟩
  · simpa [h, Except.map] using fun he => absurd he hn
  · simpa [h, Except.map] using fun _ => hn

theorem insertRole_eq_ok_iff {next : Catalog} {type : String}
    (ht : catalog.factTypeId type = some typeId) :
    catalog.insertRole type role id = .ok next ↔ catalog.roleId typeId role = none ∧
      catalog.enter ((typeId, role), id) = next := by
  unfold insertRole
  rcases registerRole_cases catalog type role id with ⟨hn, -⟩ | ⟨found, hf, ⟨hr, h⟩ | ⟨hr, h⟩⟩
  · rw [hn] at ht
    cases ht
  · obtain rfl : found = typeId := Option.some.inj (hf.symm.trans ht)
    simpa [h, Except.map] using fun he => absurd he hr
  · obtain rfl : found = typeId := Option.some.inj (hf.symm.trans ht)
    simpa [h, Except.map] using fun _ => hr

/-! ### Equality -/

/-- Names and numbers stand once in each table, and no table is empty. -/
structure Tidy (catalog : Catalog) : Prop where
  types : (catalog.factTypes.map Prod.fst).Nodup
  numbers : (catalog.tables.map Prod.fst).Nodup
  names : ∀ entry ∈ catalog.tables, (entry.2.map Prod.fst).Nodup
  filled : ∀ entry ∈ catalog.tables, entry.2 ≠ []

theorem tidy_empty : empty.Tidy :=
  ⟨List.nodup_nil, List.nodup_nil, by simp [empty], by simp [empty]⟩

section

variable {κ α : Type} [BEq κ] [LawfulBEq κ] {same : α → α → Bool} {a b : List (κ × α)}

/-- **Tables hold the same entries if the same is found in them.** -/
theorem sameEntries_iff (ha : (a.map Prod.fst).Nodup) (hb : (b.map Prod.fst).Nodup) :
    sameEntries same a b = true ↔ ∀ key, (a.lookup key = none ↔ b.lookup key = none) ∧
      ∀ value value', a.lookup key = some value → b.lookup key = some value' →
        same value value' = true := by
  have hall : sameEntries same a b = true ↔ a.length = b.length ∧ ∀ key value,
      a.lookup key = some value →
        ∃ value', b.lookup key = some value' ∧ same value value' = true := by
    simp only [sameEntries, Bool.and_eq_true, beq_iff_eq, List.all_eq_true, Prod.forall,
      Option.any_eq_true, lookup_eq_some_iff_mem ha]
  rw [hall]
  constructor
  · rintro ⟨hlength, hfound⟩ key
    have hsub : a.map Prod.fst ⊆ b.map Prod.fst := by
      intro k hk
      obtain ⟨value, hv⟩ := exists_lookup_of_mem hk
      obtain ⟨value', hv', -⟩ := hfound k value hv
      exact List.mem_map.mpr ⟨_, mem_of_lookup hv', rfl⟩
    -- there are as many keys in both tables, so the second one has no further key
    have hkeys : (a.map Prod.fst).Perm (b.map Prod.fst) :=
      (ha.subperm hsub).perm_of_length_le (by simp [hlength])
    refine ⟨?_, fun value value' hv hv' => ?_⟩
    · rw [lookup_eq_none_iff_not_mem, lookup_eq_none_iff_not_mem, hkeys.mem_iff]
    · obtain ⟨found, hf, hs⟩ := hfound key value hv
      rwa [← Option.some.inj (hf.symm.trans hv')]
  · intro h
    have hkeys : (a.map Prod.fst).Perm (b.map Prod.fst) := by
      refine (List.perm_ext_iff_of_nodup ha hb).mpr fun key => not_iff_not.mp ?_
      rw [← lookup_eq_none_iff_not_mem, ← lookup_eq_none_iff_not_mem]
      exact (h key).1
    refine ⟨by simpa using hkeys.length_eq, fun key value hv => ?_⟩
    rcases hv' : b.lookup key with _ | value'
    · rw [(h key).1.mpr hv'] at hv
      cases hv
    · exact ⟨value', rfl, (h key).2 value value' hv hv'⟩

/-- Tables of numbers hold the same entries if the same numbers are found in them. -/
theorem sameNumbers_iff {a b : List (κ × Int)} (ha : (a.map Prod.fst).Nodup)
    (hb : (b.map Prod.fst).Nodup) :
    sameEntries (· == ·) a b = true ↔ ∀ key, a.lookup key = b.lookup key := by
  rw [sameEntries_iff ha hb]
  refine forall_congr' fun key => ?_
  rcases a.lookup key with _ | value <;> rcases b.lookup key with _ | value' <;> simp

end

namespace Tidy

variable {a b : Catalog}

theorem addFactType (h : a.Tidy) {name : String} (hn : a.factTypeId name = none) :
    Tidy { a with factTypes := a.factTypes ++ [(name, id)] } :=
  ⟨nodup_keys_append h.types hn, h.numbers, h.names, h.filled⟩

theorem nodup_openTable (h : a.Tidy) : ((a.openTable typeId).tables.map Prod.fst).Nodup := by
  rcases ht : a.tables.lookup typeId with _ | table
  · rw [openTable_of_none ht]
    exact nodup_keys_append h.numbers ht
  · rw [openTable_of_isSome ht]
    exact h.numbers

theorem nodup_names (h : a.Tidy) {table : List (String × Int)}
    (ht : a.tables.lookup typeId = some table) : (table.map Prod.fst).Nodup :=
  h.names _ (mem_of_lookup ht)

theorem enter (h : a.Tidy) (hr : a.roleId typeId role = none) :
    (a.enter ((typeId, role), id)).Tidy := by
  have hnumbers : ((a.enter ((typeId, role), id)).tables.map Prod.fst).Nodup := by
    show ((addToTable typeId role id _).map Prod.fst).Nodup
    rw [map_fst_addToTable]
    exact h.nodup_openTable
  -- each entry of the new tables is the old one, or the one with the role behind its names
  have hentries : ∀ entry ∈ (a.enter ((typeId, role), id)).tables, entry ∈ a.tables ∨
      entry.2 = (a.tables.lookup typeId).getD [] ++ [(role, id)] := by
    rintro ⟨number, table⟩ hm
    rw [← lookup_eq_some_iff_mem hnumbers, lookup_enter] at hm
    split_ifs at hm with he
    · exact Or.inr (Option.some.inj hm).symm
    · exact Or.inl (mem_of_lookup hm)
  refine ⟨by rw [factTypes_enter]; exact h.types, hnumbers, fun entry hm => ?_, fun entry hm => ?_⟩
  · rcases hentries entry hm with hold | hnew
    · exact h.names entry hold
    · rw [hnew]
      rcases ht : a.tables.lookup typeId with _ | table
      · simp
      · rw [roleId, ht] at hr
        exact nodup_keys_append (h.nodup_names ht) hr
  · rcases hentries entry hm with hold | hnew
    · exact h.filled entry hold
    · simp [hnew]

theorem exists_roleId (h : a.Tidy) {table : List (String × Int)}
    (ht : a.tables.lookup typeId = some table) : ∃ role id, a.roleId typeId role = some id := by
  obtain ⟨entry, hentry⟩ := List.exists_mem_of_ne_nil table (h.filled _ (mem_of_lookup ht))
  obtain ⟨id, hid⟩ := exists_lookup_of_mem (List.mem_map_of_mem hentry)
  exact ⟨entry.1, id, Option.bind_eq_some_iff.mpr ⟨table, ht, hid⟩⟩

theorem lookup_eq_none_iff (h : a.Tidy) :
    a.tables.lookup typeId = none ↔ ∀ role, a.roleId typeId role = none := by
  constructor
  · intro hn role
    rw [roleId, hn]
    rfl
  · intro hn
    by_contra hne
    obtain ⟨table, ht⟩ := Option.ne_none_iff_exists'.mp hne
    obtain ⟨role, id, hr⟩ := h.exists_roleId ht
    rw [hn role] at hr
    cases hr

theorem sameTables_iff (ha : a.Tidy) (hb : b.Tidy) :
    sameEntries (sameEntries (· == ·)) a.tables b.tables = true ↔
      ∀ typeId role, a.roleId typeId role = b.roleId typeId role := by
  rw [sameEntries_iff ha.numbers hb.numbers]
  refine forall_congr' fun typeId => ?_
  constructor
  · rintro ⟨hnone, hsame⟩ role
    rcases hta : a.tables.lookup typeId with _ | table
    · rw [ha.lookup_eq_none_iff.mp hta, hb.lookup_eq_none_iff.mp (hnone.mp hta)]
    · obtain ⟨table', htb⟩ := Option.ne_none_iff_exists'.mp fun hn => by
        rw [hnone.mpr hn] at hta
        cases hta
      have htables := hsame _ _ hta htb
      rw [sameNumbers_iff (ha.nodup_names hta) (hb.nodup_names htb)] at htables
      rw [roleId, roleId, hta, htb]
      exact htables role
  · intro h
    refine ⟨?_, fun table table' hta htb => ?_⟩
    · rw [ha.lookup_eq_none_iff, hb.lookup_eq_none_iff]
      exact forall_congr' fun role => by rw [h role]
    · rw [sameNumbers_iff (ha.nodup_names hta) (hb.nodup_names htb)]
      intro role
      have hrole := h role
      rwa [roleId, roleId, hta, htb] at hrole

/-- **Catalogs are equal if they find the same numbers.** -/
theorem beq_iff (ha : a.Tidy) (hb : b.Tidy) : (a == b) = true ↔
    (∀ name, a.factTypeId name = b.factTypeId name) ∧
      ∀ typeId role, a.roleId typeId role = b.roleId typeId role := by
  show (sameEntries _ a.factTypes b.factTypes && sameEntries _ a.tables b.tables) = true ↔ _
  rw [Bool.and_eq_true, sameNumbers_iff ha.types hb.types, ha.sameTables_iff hb]
  rfl

end Tidy

end Catalog

end FactGraph
