/-! # The schema catalog

Stored facts and edges know their types and roles by numbers. A catalog holds the number of each
registered fact type, and, for each number of a type that declares roles, a table with the numbers
of these roles. Compilation only asks a catalog for numbers; what it asks is the `Schema`.

A registration changes the catalog in place. It answers why it is refused, if it is, and leaves a
catalog in either case. -/

namespace FactGraph

/-! ### Look-ups -/

/-- The numbers by which stored data is found. A name without a number has never been stored. -/
structure Schema where
  /-- The number of a fact type. -/
  factTypeId : String → Option Int
  /-- The number of a role, by the number of the type that declares it. -/
  roleId : Int → String → Option Int

namespace Schema

/-- The number of a role, by the name of the type that declares it. -/
def roleOf (schema : Schema) (type role : String) : Option Int :=
  (schema.factTypeId type).bind fun typeId => schema.roleId typeId role

end Schema

/-! ### Registration -/

/-- Registered fact types and roles, in the order of registration. Types may share a number, and
then share their roles. -/
structure Catalog where
  factTypes : List (String × Int)
  /-- The roles of the types of a number, for each number for which there are any. -/
  tables : List (Int × List (String × Int))
  deriving Repr

/-- Why a registration is refused. -/
inductive CatalogError where
  | duplicateFactType (name : String)
  | duplicateRole (type role : String)
  | unknownFactType (name : String)
  deriving DecidableEq, Repr

namespace CatalogError

def message : CatalogError → String
  | duplicateFactType name => "Fact type already exists: " ++ name
  | duplicateRole type role => "Role " ++ role ++ " already exists on fact type " ++ type
  | unknownFactType name => "Fact type not found: " ++ name

end CatalogError

namespace Catalog

/-- The catalog in which nothing is registered. -/
def empty : Catalog := ⟨[], []⟩

def factTypeId (catalog : Catalog) (name : String) : Option Int := catalog.factTypes.lookup name

/-- The number of a role, by the number of the type that declares it. -/
def roleId (catalog : Catalog) (typeId : Int) (role : String) : Option Int :=
  (catalog.tables.lookup typeId).bind fun table => table.lookup role

/-- What compilation asks of a catalog. -/
def schema (catalog : Catalog) : Schema := ⟨catalog.factTypeId, catalog.roleId⟩

def factTypeCount (catalog : Catalog) : Nat := catalog.factTypes.length

/-- The number of roles in all tables. -/
def roleCount (catalog : Catalog) : Nat :=
  catalog.tables.foldr (fun (_, table) count => table.length + count) 0

/-! ### Changes in place -/

/-- Registers a fact type, whose name must be new. -/
def registerFactType (catalog : Catalog) (name : String) (id : Int) :
    Except CatalogError Unit × Catalog :=
  match catalog.factTypeId name with
  | some _ => (.error (.duplicateFactType name), catalog)
  | none => (.ok (), { catalog with factTypes := catalog.factTypes ++ [(name, id)] })

/-- Opens a table for the roles of the types of a number, unless there is one. -/
def openTable (catalog : Catalog) (typeId : Int) : Catalog :=
  match catalog.tables.lookup typeId with
  | some _ => catalog
  | none => { catalog with tables := catalog.tables ++ [(typeId, [])] }

/-- Tables with a further role in the one of a number. -/
def addToTable (typeId : Int) (role : String) (id : Int) :
    List (Int × List (String × Int)) → List (Int × List (String × Int))
  | [] => []
  | (other, table) :: rest =>
    if other = typeId then (other, table ++ [(role, id)]) :: rest
    else (other, table) :: addToTable typeId role id rest

/-- Registers a role on a registered fact type, in the table of the number of that type. Its name
must be new in the table, which is opened before that is known. -/
def registerRole (catalog : Catalog) (type role : String) (id : Int) :
    Except CatalogError Unit × Catalog :=
  match catalog.factTypeId type with
  | none => (.error (.unknownFactType type), catalog)
  | some typeId =>
    let opened := catalog.openTable typeId
    match opened.roleId typeId role with
    | some _ => (.error (.duplicateRole type role), opened)
    | none => (.ok (), { opened with tables := addToTable typeId role id opened.tables })

/-! ### Building a catalog -/

/-- The catalog with a further fact type, whose name must be new. -/
def insertFactType (catalog : Catalog) (name : String) (id : Int) :
    Except CatalogError Catalog :=
  let (answer, next) := catalog.registerFactType name id
  answer.map fun _ => next

/-- The catalog with a further role of a registered fact type. Its name must be new for the number
of that type. -/
def insertRole (catalog : Catalog) (type role : String) (id : Int) :
    Except CatalogError Catalog :=
  let (answer, next) := catalog.registerRole type role id
  answer.map fun _ => next

/-! ### Equality -/

/-- Whether two tables without repeated keys hold the same entries, in whatever order. -/
def sameEntries {κ α : Type} [BEq κ] (same : α → α → Bool) (a b : List (κ × α)) : Bool :=
  a.length == b.length && a.all fun (key, value) => (b.lookup key).any (same value)

/-- Catalogs are equal when they hold the same entries; the order of registration does not count. -/
instance : BEq Catalog :=
  ⟨fun a b => sameEntries (· == ·) a.factTypes b.factTypes &&
    sameEntries (sameEntries (· == ·)) a.tables b.tables⟩

end Catalog

end FactGraph
