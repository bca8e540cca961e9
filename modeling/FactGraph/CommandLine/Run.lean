import FactGraph.CommandLine.Arguments
import FactGraph.Distribution.Encoding
import FactGraph.Distribution.Engine
import FactGraph.Json.Writer
import FactGraph.Settings.Encoding
import FactGraph.Specification.Encoding
import FactGraph.Specification.Printer
import FactGraph.Statement.Encoding
import FactGraph.Walk.Encoding

/-! # Running commands

A command reads the settings first and then its specification. What it prints, and how it fails,
depends on the contents of these files only. -/

namespace FactGraph

/-- Why a command fails. -/
inductive CommandError where
  | settings (cause : SettingsError)
  | unreadable (file : String)
  | specification (file : String) (cause : SpecificationError)
  | catalog (cause : CatalogError)
  | walk (cause : WalkError)
  | plan (cause : PlanError)
  deriving DecidableEq, Repr

/-- The wording of an error, followed by that of its cause where that is told as well. -/
def CommandError.chain : CommandError → List String
  | settings cause => cause.chain
  | unreadable file => ["Cannot read " ++ file]
  | specification file cause => ["Invalid specification " ++ file, cause.message]
  | catalog cause => [cause.message]
  | walk cause => [cause.message]
  | plan cause => [cause.message]

/-- What a run leaves behind. -/
structure Report where
  exitCode : Nat
  output : String
  /-- The errors, from the outermost to its first cause. -/
  causes : List String
  deriving DecidableEq, Repr

namespace Command

/-- A value on lines of its own. -/
def printed (value : Json) : String := value.pretty ++ "\n"

/-- The specification in a file. -/
def readSpecification (read : String → Option String) (file : String) :
    Except CommandError Specification :=
  match read file with
  | none => .error (.unreadable file)
  | some text => (Specification.parse text).mapError (.specification file)

/-- The catalog of the settings, or else the one that a specification needs. -/
def catalogFor (settings : Settings) (spec : Specification) : Except CommandError Catalog := do
  match ← settings.buildCatalog.mapError .settings with
  | some catalog => return catalog
  | none => spec.inferCatalog.mapError .catalog

/-- What a command prints. -/
def output (read : String → Option String) (settings : Settings) :
    Command → Except CommandError String
  | parse file json => do
    let spec ← readSpecification read file
    return if json then printed spec.toJson else spec.render ++ "\n"
  | walk file => do
    let spec ← readSpecification read file
    let walk ← spec.walk.mapError .walk
    return printed walk.toJson
  | sql file start limit => do
    let spec ← readSpecification read file
    let catalog ← catalogFor settings spec
    let pages ← (spec.pages catalog.schema start [] (limit.getD settings.limit)).mapError .plan
    return printed (.ofList SqlQuery.toJson pages)
  | assess file start user => do
    let spec ← readSpecification read file
    let rules ← settings.buildRules.mapError .settings
    let engine : DistributionEngine Id := ⟨rules, none⟩
    let assessment ← (engine.assess spec start user).mapError .walk
    return printed (Assessment.toJson assessment.run)

end Command

namespace Invocation

/-- The settings of an invocation. -/
def loadSettings (invocation : Invocation) (read : String → Option String) :
    Except SettingsError Settings :=
  match invocation.settings with
  | none => .ok .default
  | some file => Settings.load file (read file)

/-- Runs an invocation on files whose contents `read` tells. -/
def run (invocation : Invocation) (read : String → Option String) : Report :=
  let result : Except CommandError String := do
    let settings ← (invocation.loadSettings read).mapError .settings
    invocation.command.output read settings
  match result with
  | .ok output => ⟨0, output, []⟩
  | .error error => ⟨1, "", CommandError.chain error⟩

end Invocation

/-- The report on a command line that asks for nothing. -/
def Report.misused : Report := ⟨2, "", []⟩

def runArguments (environment : Option String) (arguments : List String)
    (read : String → Option String) : Report :=
  match Arguments.parse environment arguments with
  | some invocation => invocation.run read
  | none => .misused

end FactGraph
