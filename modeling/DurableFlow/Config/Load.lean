/-
Finding the settings of an engine.

Settings come, from the strongest to the weakest, from the program itself, from
environment variables, from a configuration file, and from the defaults. A file
of environment variables, in the working directory or above it, fills in
variables that are not set. A setting in a variable that cannot be read as a
number or a truth value is passed over; a durability that nothing has is an
error.
-/
import DurableFlow.Config.EnvFile
import DurableFlow.Config.Settings
import DurableFlow.Config.Toml
import DurableFlow.Data.FileTree
import DurableFlow.Json.Basic
import DurableFlow.Text.Quoted

set_option autoImplicit false

namespace DurableFlow.Config

/-- What settings are found in: all files under `/`, a working directory, and variables. -/
structure Environment where
  files : FileTree
  workingDirectory : String
  vars : Table String String

/-- Settings that the program itself makes. -/
structure Overrides where
  durability : Option Durability := none
  safepointBudget : Option Nat := none
  stopTimeoutMs : Option Nat := none
  pickleTimeoutMs : Option Nat := none
  threadDumpTimeoutMs : Option Nat := none
  migrateStorageOnComplete : Option Bool := none
  sandbox : Option Bool := none

/-- Why there are no settings. -/
inductive ConfigError where
  | notFound (path : String)
  | unreadable (path : String)
  | malformed (path : String)
  | badDurability
  | zeroBudget

def ConfigError.message : ConfigError → String
  | .notFound path => s!"Config file not found: {Text.quoted path}"
  | .unreadable path => s!"Failed to read config file: {Text.quoted path}"
  | .malformed path => s!"Failed to parse config file: {Text.quoted path}"
  | .badDurability => "Invalid CADENCE_DURABILITY"
  | .zeroBudget => "safepoint_budget must be greater than zero"

/-- The text of a path below a directory. -/
def below (directory path : String) : String :=
  if directory.isEmpty || directory.endsWith "/" then directory ++ path
  else directory ++ "/" ++ path

namespace Environment

/-- Where a text leads from the working directory. -/
def locate? (env : Environment) (text : String) : Option Path :=
  env.files.locate? (Path.ofText env.workingDirectory) text

def read? (env : Environment) (path : String) : Option String := do
  (env.files.read (← env.locate? path)).toOption

/-- Whether a text leads to a file or a directory; an empty one leads nowhere. -/
def isPresent (env : Environment) (path : String) : Bool :=
  !path.isEmpty && (env.locate? path).any env.files.isPresent

/-- The directories from the working directory up to the root. -/
def searchPath (env : Environment) : List Path :=
  let directory := Path.ofText env.workingDirectory
  (List.range (directory.length + 1)).map fun i => directory.take (directory.length - i)

/-- Fills in variables from the nearest file of environment variables. -/
def withEnvFile (env : Environment) : Environment :=
  let place := (env.searchPath.map (· ++ [".env"])).find? env.files.isFile
  match place.bind fun path => (env.files.read path).toOption with
  | none => env
  | some text => { env with vars := EnvFile.loadText text env.vars }

end Environment

/-! ## From files -/

/-- Reads a member of a table that may be missing. -/
def tomlMember {α : Type} (members : Toml.Members) (name : String) (read : Toml → Option α)
    (fallback : α) : Option α :=
  match Table.find? name members with
  | none => some fallback
  | some value => read value

def tomlNat : Toml → Option Nat
  | .int n => if 0 ≤ n then some n.toNat else none
  | _ => none

def tomlBool : Toml → Option Bool
  | .bool b => some b
  | _ => none

/-- A durability: its name, or a table whose only member has that name and nothing in it. -/
def tomlDurability : Toml → Option Durability
  | .str s => Durability.ofName? s
  | value =>
    match value.members? with
    | some [(name, contents)] => if contents.isEmpty then Durability.ofName? name else none
    | _ => none

/-- The names of the settings, in the order in which a list gives them. -/
def settingNames : List String :=
  ["durability", "safepoint_budget", "stop_timeout_ms", "pickle_timeout_ms",
    "thread_dump_timeout_ms", "migrate_storage_on_complete", "sandbox"]

/-- The settings that a value gives: a table by name, a list or a repeated heading by place, and
a moment in time none. -/
def settingMembers : Toml → Option Toml.Members
  | .time => some []
  | .array items => some (Table.ofEntries (settingNames.zip items))
  | .tables newestFirst =>
    -- the oldest heading gives the first setting
    some (Table.ofEntries (settingNames.zip (newestFirst.reverse.map (.table .heading))))
  | value => value.members?

/-- The settings in a configuration text. -/
def settingsOfText? (text : String) : Option Settings := do
  let root ← Toml.parse? text
  let engine ← tomlMember root "engine" settingMembers []
  let d : Settings := {}
  return {
    durability := ← tomlMember engine "durability" tomlDurability d.durability
    safepointBudget := ← tomlMember engine "safepoint_budget" tomlNat d.safepointBudget
    stopTimeoutMs := ← tomlMember engine "stop_timeout_ms" tomlNat d.stopTimeoutMs
    pickleTimeoutMs := ← tomlMember engine "pickle_timeout_ms" tomlNat d.pickleTimeoutMs
    threadDumpTimeoutMs :=
      ← tomlMember engine "thread_dump_timeout_ms" tomlNat d.threadDumpTimeoutMs
    migrateStorageOnComplete :=
      ← tomlMember engine "migrate_storage_on_complete" tomlBool d.migrateStorageOnComplete
    sandbox := ← tomlMember engine "sandbox" tomlBool d.sandbox }

/-- The settings in a configuration file. -/
def fromFile (env : Environment) (path : String) : Except ConfigError Settings :=
  match env.read? path with
  | none => .error (.unreadable path)
  | some text =>
    match settingsOfText? text with
    | none => .error (.malformed path)
    | some settings => .ok settings

/-- The configuration file to read: a given one, one that a variable names, or one of the two
usual ones. -/
def chooseFile (env : Environment) (given : Option String) :
    Except ConfigError (Option String) :=
  match given.or (Table.find? "CADENCE_CONFIG_PATH" env.vars) with
  -- a file that was asked for has to be there, the usual ones need not
  | some path => if env.isPresent path then .ok (some path) else .error (.notFound path)
  | none =>
    let inHome := (Table.find? "HOME" env.vars).map fun home =>
      below home ".config/cadence/config.toml"
    .ok ((["cadence.toml"] ++ inHome.toList).find? env.isPresent)

/-! ## From variables -/

def natVariable (env : Environment) (name : String) (fallback : Nat) : Nat :=
  ((Table.find? name env.vars).bind (Text.natBelow? Json.wordBound)).getD fallback

def boolVariable (env : Environment) (name : String) (fallback : Bool) : Bool :=
  match Table.find? name env.vars with
  | some "true" => true
  | some "false" => false
  | _ => fallback

/-- Settings changed by environment variables. -/
def applyVariables (env : Environment) (s : Settings) : Except ConfigError Settings := do
  let durability ← match Table.find? "CADENCE_DURABILITY" env.vars with
    | none => .ok s.durability
    | some text =>
      match Durability.ofText text with
      | .ok d => .ok d
      | .error _ => .error .badDurability
  return {
    durability
    safepointBudget := natVariable env "CADENCE_SAFEPOINT_BUDGET" s.safepointBudget
    stopTimeoutMs := natVariable env "CADENCE_STOP_TIMEOUT_MS" s.stopTimeoutMs
    pickleTimeoutMs := natVariable env "CADENCE_PICKLE_TIMEOUT_MS" s.pickleTimeoutMs
    threadDumpTimeoutMs := natVariable env "CADENCE_THREAD_DUMP_TIMEOUT_MS" s.threadDumpTimeoutMs
    migrateStorageOnComplete :=
      boolVariable env "CADENCE_MIGRATE_STORAGE" s.migrateStorageOnComplete
    sandbox := boolVariable env "CADENCE_SANDBOX" s.sandbox }

/-! ## All together -/

/-- Settings changed by the program. -/
def applyOverrides (o : Overrides) (s : Settings) : Settings :=
  { durability := o.durability.getD s.durability
    safepointBudget := o.safepointBudget.getD s.safepointBudget
    stopTimeoutMs := o.stopTimeoutMs.getD s.stopTimeoutMs
    pickleTimeoutMs := o.pickleTimeoutMs.getD s.pickleTimeoutMs
    threadDumpTimeoutMs := o.threadDumpTimeoutMs.getD s.threadDumpTimeoutMs
    migrateStorageOnComplete := o.migrateStorageOnComplete.getD s.migrateStorageOnComplete
    sandbox := o.sandbox.getD s.sandbox }

/-- **Finds the settings**, from the given file if there is one. A budget of no instructions is
refused, wherever it came from. -/
def load (env : Environment) (path : Option String) (overrides : Overrides) :
    Except ConfigError Settings := do
  let env := env.withEnvFile
  let base ← match ← chooseFile env path with
    | some path => fromFile env path
    | none => pure {}
  -- variables change what files say, and the program changes both
  let settings := applyOverrides overrides (← applyVariables env base)
  if settings.safepointBudget = 0 then throw .zeroBudget
  return settings

end DurableFlow.Config
