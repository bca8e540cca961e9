import FactGraph.Reference

/-! # Command line arguments

A command line names one of four commands and the file of a specification. Options start with two
hyphens and may stand before or behind the file; the value of an option stands behind an equals sign
or in the next argument. An option that takes several values takes all arguments up to the next one
that starts with a hyphen, unless its value stands behind an equals sign. Behind `--` there are only
files. A single hyphen is a value like any other; there are no options with one hyphen.

The settings file may be named behind the command, before it, or by the environment. The first of
these three that names one counts. -/

namespace FactGraph

/-- What is to be done. -/
inductive Command where
  /-- Prints a specification, as text or as JSON. -/
  | parse (file : String) (json : Bool)
  /-- Prints the walk of a specification. -/
  | walk (file : String)
  /-- Prints the statements that answer a specification. -/
  | sql (file : String) (start : List FactReference) (limit : Option Nat)
  /-- Prints whether a specification may be distributed. -/
  | assess (file : String) (start : List FactReference) (user : Option FactReference)
  deriving DecidableEq, Repr

/-- The file of a command's specification. -/
def Command.file : Command → String
  | parse file _ => file
  | walk file => file
  | sql file _ _ => file
  | assess file _ _ => file

/-- A command and the settings file it uses, if any. -/
structure Invocation where
  settings : Option String
  command : Command
  deriving DecidableEq, Repr

namespace Arguments

/-! ### Single arguments -/

/-- An argument, taken by itself. -/
inductive Argument where
  /-- Two hyphens, behind which there are no options. -/
  | separator
  /-- An option, and the value behind its equals sign if it has one. -/
  | option (name : String) (value : Option String)
  /-- A hyphen and something that is no option. -/
  | unknown
  | plain (text : String)
  deriving DecidableEq, Repr

/-- What an argument is by itself. -/
def classify (text : String) : Argument :=
  match text.toList with
  | ['-', '-'] => .separator
  | '-' :: '-' :: rest =>
    let name := String.ofList (rest.takeWhile (· != '='))
    match rest.dropWhile (· != '=') with
    | [] => .option name none
    | _ :: value => .option name (some (String.ofList value))
  | ['-'] => .plain text
  | '-' :: _ => .unknown
  | _ => .plain text

/-- How many values an option takes. -/
inductive Arity where
  | flag
  | one
  | many
  deriving DecidableEq, Repr

/-! ### The arguments of a command -/

/-- The arguments of a command: plain ones up to the first option, the occurrences of options with
their values, and the plain ones behind. -/
structure Scanned where
  leading : List String
  options : List (String × List String)
  trailing : List String
  deriving DecidableEq, Repr

/-- Puts an option in front of scanned arguments, and gives it the values it takes. -/
def Scanned.withOption (scanned : Scanned) (name : String) :
    (arity : Arity) → (value : Option String) → Option Scanned
  | .flag, none => some ⟨[], (name, []) :: scanned.options, scanned.leading ++ scanned.trailing⟩
  | .flag, some _ => none
  | _, some value =>
    some ⟨[], (name, [value]) :: scanned.options, scanned.leading ++ scanned.trailing⟩
  | .one, none =>
    match scanned.leading with
    | [] => none
    | value :: rest => some ⟨[], (name, [value]) :: scanned.options, rest ++ scanned.trailing⟩
  | .many, none =>
    match scanned.leading with
    | [] => none
    | values => some ⟨[], (name, values) :: scanned.options, scanned.trailing⟩

/-- Scans the arguments of a command with the given options. -/
def scan (arities : List (String × Arity)) : List String → Option Scanned
  | [] => some ⟨[], [], []⟩
  | text :: rest =>
    match classify text with
    | .separator => some ⟨[], [], rest⟩
    | .unknown => none
    | .plain value => do
      let scanned ← scan arities rest
      return { scanned with leading := value :: scanned.leading }
    | .option name value => do
      let arity ← arities.lookup name
      let scanned ← scan arities rest
      scanned.withOption name arity value

namespace Scanned

/-- All values of an option, from all its occurrences. -/
def values (scanned : Scanned) (name : String) : List String :=
  (scanned.options.filter fun occurrence => occurrence.1 == name).flatMap Prod.snd

/-- The value of an option that takes one, if the option is there. -/
def value? (scanned : Scanned) (name : String) : Option String := (scanned.values name).head?

/-- Whether an option is there. -/
def has (scanned : Scanned) (name : String) : Bool :=
  scanned.options.any fun occurrence => occurrence.1 == name

/-- Whether no option stands twice that does not take several values. -/
def noRepetition (scanned : Scanned) (arities : List (String × Arity)) : Bool :=
  arities.all fun (name, arity) =>
    arity == .many || (scanned.options.filter fun occurrence => occurrence.1 == name).length ≤ 1

/-- The only plain argument, which must not be empty. -/
def file? (scanned : Scanned) : Option String :=
  match scanned.leading ++ scanned.trailing with
  | [file] => if file.isEmpty then none else some file
  | _ => none

end Scanned

/-! ### Values -/

/-- The reference that a value writes. -/
def reference? (text : String) : Option FactReference := (FactReference.ofText text).toOption

/-- An optional value that has to be readable if it is there. -/
def whenPresent {α : Type} (read : String → Option α) : Option String → Option (Option α)
  | none => some none
  | some text => (read text).map some

/-- The number that decimal digits write. -/
def digits? (cs : List Char) : Option Nat :=
  if cs.isEmpty || !cs.all Char.isDigit then none
  else some (cs.foldl (fun n c => 10 * n + (c.toNat - 48)) 0)

/-- The number of rows that a value writes: digits with an optional sign, in 32 bits. -/
def limit? (text : String) : Option Nat := do
  let n ← match text.toList with
    | '+' :: cs => digits? cs
    | '-' :: cs => (digits? cs).filter (· == 0)
    | cs => digits? cs
  if n < UInt32.size then some n else none

/-- The name of a file. -/
def path? (text : String) : Option String := if text.isEmpty then none else some text

/-! ### Whole command lines -/

/-- The commands with their options. -/
def commands : List (String × List (String × Arity)) :=
  [("parse", [("json", .flag)]),
    ("walk", []),
    ("sql", [("start", .many), ("limit", .one)]),
    ("assess", [("start", .many), ("user", .one)])]

/-- A command from its scanned arguments. -/
def command? (name : String) (scanned : Scanned) : Option Command := do
  let file ← scanned.file?
  match name with
  | "parse" => return .parse file (scanned.has "json")
  | "walk" => return .walk file
  | "sql" => do
    let start ← (scanned.values "start").mapM reference?
    let limit ← whenPresent limit? (scanned.value? "limit")
    return .sql file start limit
  | "assess" => do
    let start ← (scanned.values "start").mapM reference?
    let user ← whenPresent reference? (scanned.value? "user")
    return .assess file start user
  | _ => none

/-- Splits a command line at its command. Only settings files may be named before it. -/
def splitAtCommand : List String → Option (List String × String × List String)
  | [] => none
  | text :: rest =>
    match classify text, rest with
    | .plain name, rest => some ([], name, rest)
    | .option "config" (some value), rest => do
      let (files, others) ← splitAtCommand rest
      return (value :: files, others)
    | .option "config" none, value :: rest =>
      match classify value with
      | .plain value => do
        let (files, others) ← splitAtCommand rest
        return (value :: files, others)
      | _ => none
    | _, _ => none

/-- The settings file that is used: the one named behind the command, or before it, or by the
environment. The environment is looked at unless both others are there. -/
def settingsFile? (outer inner environment : Option String) : Option (Option String) := do
  let outer ← whenPresent path? outer
  let inner ← whenPresent path? inner
  let environment ←
    if outer.isSome && inner.isSome then some none else whenPresent path? environment
  return inner.or (outer.or environment)

/-- What a command line asks for; `environment` is the settings file that the environment names. -/
def parse (environment : Option String) (arguments : List String) : Option Invocation := do
  let (outer, name, rest) ← splitAtCommand arguments
  let options ← commands.lookup name
  let arities := ("config", .one) :: options
  let scanned ← scan arities rest
  if outer.length ≤ 1 && scanned.noRepetition arities then
    let settings ← settingsFile? outer.head? (scanned.value? "config") environment
    let command ← command? name scanned
    return ⟨settings, command⟩
  else none

end Arguments

end FactGraph
