import QueryAudit.Audit
import QueryAudit.Files
import QueryAudit.Grammar.Executable
import QueryAudit.Rule.Basic
import QueryAudit.Schema.Build
import QueryAudit.Toml

/-!
# Setting up an auditor

A configuration file names a schema and the rules to run; an auditor is what it describes.
-/

/-!
## Configurations

A configuration may name a schema file, the rules to run, and rules left out of these. Other entries
mean nothing.
-/

namespace QueryAudit

structure Config where
  /-- The path of the schema file. -/
  schema : Option String
  /-- The rules to run; all of them if there is no list. -/
  enabled : Option (List Rule)
  /-- The rules left out. -/
  disabled : List Rule
deriving DecidableEq, Repr

namespace Config

def readText : Toml → Option String
  | .string text => some text
  | _ => none

def readRules : Toml → Option (List Rule)
  | .array items => items.mapM fun item => (readText item).bind Rule.ofName?
  | _ => none

/-- An entry that may be missing: nothing if it is, and a failure if it cannot be read. -/
def readOptional {α : Type} (read : Toml → Option α) : Option Toml → Option (Option α)
  | none => some none
  | some value => (read value).map some

/-- The choice of rules: a table with names, or an array with the same lists by position. -/
def readChoice : Toml → Option (Option (List Rule) × List Rule)
  | .table _ entries => do
      let enabled ← readOptional readRules (NameTable.find? entries "enabled")
      let disabled ← readOptional readRules (NameTable.find? entries "disabled")
      pure (enabled, disabled.getD [])
  | .array items => do
      let enabled ← readOptional readRules items[0]?
      let disabled ← readOptional readRules items[1]?
      pure (enabled, disabled.getD [])
  | _ => none

def ofEntries? (entries : Toml.Entries) : Option Config := do
  let schema ← readOptional readText (entries.find? "schema")
  let choice ← readOptional readChoice (entries.find? "rules")
  let (enabled, disabled) := choice.getD (none, [])
  pure ⟨schema, enabled, disabled⟩

def ofText? (text : String) : Option Config := (Toml.ofText? text).bind ofEntries?

def ruleSet (config : Config) : RuleSet :=
  let chosen := match config.enabled with
    | some rules => RuleSet.ofList rules
    | none => .all
  config.disabled.foldl RuleSet.erase chosen

end Config

end QueryAudit

/-!
## Auditors

An auditor is a schema with the rules that documents are checked against. It can be set up from a
configuration file, which names the schema file by a path from its own directory.
-/

namespace QueryAudit

/-- Why an auditor could not be set up, or a text not be audited. -/
inductive SetupError where
  | configUnreadable (path : String) (cause : FileError)
  | configMalformed (path : String)
  | schemaNotConfigured
  | schemaUnreadable (path : String) (cause : FileError)
  | schemaRefused (path : String) (cause : SchemaError)
  | documentRefused (cause : ReadError)
deriving DecidableEq, Repr

namespace SetupError

def message : SetupError → String
  | .configUnreadable path _ => "Failed to load config file '" ++ path ++ "'."
  | .configMalformed path => "Failed to parse config file '" ++ path ++ "'."
  | .schemaNotConfigured => "No schema file is configured."
  | .schemaUnreadable path _ => "Failed to load schema file '" ++ path ++ "'."
  | .schemaRefused path _ => "Failed to parse schema file '" ++ path ++ "'."
  | .documentRefused _ => "Failed to parse document."

end SetupError

namespace Config

/-- A configuration whose schema path starts from where a file of the given path stands. -/
def relativeTo (path : String) (config : Config) : Config :=
  match config.schema, Path.parent? path with
  | some schema, some directory => { config with schema := some (Path.join directory schema) }
  | _, _ => config

def load (tree : FileTree) (path : String) : Except SetupError Config :=
  match tree.read path with
  | .error cause => .error (.configUnreadable path cause)
  | .ok text =>
      match Config.ofText? text with
      | none => .error (.configMalformed path)
      | some config => .ok (config.relativeTo path)

end Config

/-- A schema and the rules that documents are checked against. -/
structure Auditor where
  schema : Schema
  rules : RuleSet

namespace Auditor

def ofConfig (tree : FileTree) (config : Config) : Except SetupError Auditor :=
  match config.schema with
  | none => .error .schemaNotConfigured
  | some path =>
      match tree.read path with
      | .error cause => .error (.schemaUnreadable path cause)
      | .ok text =>
          match Schema.ofText text with
          | .error cause => .error (.schemaRefused path cause)
          | .ok schema => .ok ⟨schema, config.ruleSet⟩

def auditText (auditor : Auditor) (text : String) (supplied : Variables) :
    Except SetupError Report :=
  match Source.ofText text with
  | .error cause => .error (.documentRefused cause)
  | .ok source =>
      .ok ((Document.ofSources [source]).audit auditor.schema auditor.rules supplied)

end Auditor

end QueryAudit
