import FactGraph.Catalog
import FactGraph.Distribution.Rule
import FactGraph.Specification.Reading

/-! # Settings

A settings file may hold the schema catalog, the distribution rules and the size of a page. Without
a catalog one is inferred from the specification that is compiled, without rules everything is
permitted, and a page has 100 rows. -/

namespace FactGraph

/-! ### What a file holds -/

/-- A role of a fact type in a file. -/
structure RoleSettings where
  name : String
  id : Int
  deriving DecidableEq, Repr

/-- A fact type in a file. -/
structure FactTypeSettings where
  name : String
  id : Int
  roles : List RoleSettings
  deriving DecidableEq, Repr

/-- The catalog in a file. -/
structure CatalogSettings where
  factTypes : List FactTypeSettings
  deriving DecidableEq, Repr

/-- A distribution rule in a file: the texts of its specifications. -/
structure RuleSettings where
  specification : String
  user : Option String
  deriving DecidableEq, Repr

/-- The contents of a file. -/
structure Settings where
  catalog : Option CatalogSettings
  rules : List RuleSettings
  limit : Nat
  deriving DecidableEq, Repr

namespace Settings

/-- The size of a page that nothing else sets. -/
def defaultLimit : Nat := 100

/-- The settings without a file. -/
def default : Settings := ⟨none, [], defaultLimit⟩

end Settings

/-- Why settings cannot be used. -/
inductive SettingsError where
  /-- The file cannot be read. -/
  | unreadable (file : String)
  /-- The file does not hold settings. -/
  | malformed (file : String)
  | catalog (cause : CatalogError)
  /-- A text of the rule at a position is no specification. -/
  | ruleText (index : Nat) (cause : SpecificationError)
  /-- The rule at a position cannot be registered. -/
  | rule (index : Nat) (cause : RuleError)
  deriving DecidableEq, Repr

namespace SettingsError

def message : SettingsError → String
  | unreadable file => "Cannot read config " ++ file
  | malformed file => "Invalid config " ++ file
  | catalog cause => "Invalid catalog: " ++ cause.message
  | ruleText index cause => "Rule " ++ toString index ++ ": " ++ cause.message
  | rule index cause => "Rule " ++ toString index ++ ": " ++ cause.message

/-- The wording of an error, followed by that of its cause. -/
def chain : SettingsError → List String
  | unreadable file => [message (unreadable file)]
  | malformed file => [message (malformed file)]
  | catalog cause => [message (catalog cause), cause.message]
  | ruleText index cause => [message (ruleText index cause), cause.message]
  | rule index cause => [message (rule index cause), cause.message]

end SettingsError

/-! ### Catalogs and rules -/

/-- The catalog of all types, and then of all roles, in their order in the file. -/
def CatalogSettings.build (settings : CatalogSettings) : Except CatalogError Catalog := do
  let types ← settings.factTypes.foldlM
    (fun catalog type => catalog.insertFactType type.name type.id)
    Catalog.empty
  settings.factTypes.foldlM
    (fun catalog type => type.roles.foldlM
      (fun catalog role => catalog.insertRole type.name role.name role.id) catalog)
    types

/-- The rule at a position of the file. -/
def RuleSettings.build (index : Nat) (settings : RuleSettings) :
    Except SettingsError DistributionRule := do
  let spec ← (Specification.parse settings.specification).mapError (.ruleText index)
  let user ← match settings.user with
    | none => pure none
    | some text => some <$> (Specification.parse text).mapError (.ruleText index)
  (DistributionRule.make spec user).mapError (.rule index)

namespace Settings

/-- The catalog of the file, if it has one. -/
def buildCatalog (settings : Settings) : Except SettingsError (Option Catalog) :=
  match settings.catalog with
  | none => .ok none
  | some catalog => some <$> catalog.build.mapError .catalog

/-- The rules of the file. -/
def buildRules (settings : Settings) : Except SettingsError DistributionRules :=
  settings.rules.zipIdx.mapM fun (rule, index) => rule.build index

end Settings

end FactGraph
