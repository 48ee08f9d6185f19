import AccessControl.Json.Reader
import AccessControl.Policy.Basic
import AccessControl.Token.Settings

/-!
# Settings of a deployment

The settings of tokens, authorization and logging as one text, in which every part may be missing.
The environment overrides the token settings, which are checked last.
-/

namespace AccessControl

structure AuthorizationSettings where
  combining : Combining
  /-- The attribute of a resource that names its owner. -/
  ownerAttribute : String
  deriving DecidableEq, Repr

namespace AuthorizationSettings

def default : AuthorizationSettings := ⟨.denyOverrides, "owner_id"⟩

instance : Inhabited AuthorizationSettings := ⟨default⟩

def fieldNames : List String := ["combining_algorithm", "owner_attribute"]

def toJson (s : AuthorizationSettings) : Json :=
  .obj [("combining_algorithm", .str s.combining.name), ("owner_attribute", .str s.ownerAttribute)]

def ofJson? (j : Json) : Option AuthorizationSettings := do
  let r ← j.record? fieldNames
  return {
    combining := ← r.orElse (fun j => j.tag?.bind Combining.ofName?) "combining_algorithm"
      default.combining
    ownerAttribute := ← r.orElse Json.text? "owner_attribute" default.ownerAttribute }

end AuthorizationSettings

inductive LogFormat
  | json
  | pretty
  deriving DecidableEq, Repr

namespace LogFormat

def name : LogFormat → String
  | .json => "json"
  | .pretty => "pretty"

def ofName? (s : String) : Option LogFormat :=
  if s = "json" then some .json else if s = "pretty" then some .pretty else none

end LogFormat

structure LogSettings where
  level : String
  format : LogFormat
  deriving DecidableEq, Repr

namespace LogSettings

def default : LogSettings := ⟨"info", .json⟩

instance : Inhabited LogSettings := ⟨default⟩

def fieldNames : List String := ["level", "format"]

def toJson (s : LogSettings) : Json :=
  .obj [("format", .str s.format.name), ("level", .str s.level)]

def ofJson? (j : Json) : Option LogSettings := do
  let r ← j.record? fieldNames
  return {
    level := ← r.orElse Json.text? "level" default.level
    format := ← r.orElse (fun j => j.tag?.bind LogFormat.ofName?) "format" default.format }

end LogSettings

structure Settings where
  tokens : TokenSettings
  authorization : AuthorizationSettings
  observability : LogSettings
  deriving DecidableEq, Repr

inductive SettingsError
  | unreadable
  | override (f : SettingsFault)
  | check (f : SettingsFault)
  deriving DecidableEq, Repr

def SettingsError.message : SettingsError → String
  | .unreadable => "parse warden config"
  | .override f => "apply WARDEN_* overrides: invalid configuration: " ++ f.message
  | .check f => "validate token config: invalid configuration: " ++ f.message

/-- The message for settings that are read from a file. -/
def SettingsError.fileMessage (e : SettingsError) (path : String) : String :=
  "load config file " ++ path ++ ": " ++ e.message

namespace Settings

def fieldNames : List String := ["tokens", "authorization", "observability"]

def toJson (s : Settings) : Json :=
  .obj [("authorization", s.authorization.toJson), ("observability", s.observability.toJson),
    ("tokens", s.tokens.toJson)]

def ofJson? (j : Json) : Option Settings := do
  let r ← j.record? fieldNames
  return {
    tokens := ← r.orElse TokenSettings.ofJson? "tokens" .default
    authorization := ← r.orElse AuthorizationSettings.ofJson? "authorization" .default
    observability := ← r.orElse LogSettings.ofJson? "observability" .default }

def shape : Json.Shape :=
  let part (names : List String) : Json.Shape := .fields (names.map fun n => (n, .whole))
  .fields [("tokens", part TokenSettings.fieldNames),
    ("authorization", part AuthorizationSettings.fieldNames),
    ("observability", part LogSettings.fieldNames)]

/-- The settings that a text and the environment give. -/
def load (text : String) (env : Environment) : Except SettingsError Settings := do
  let some s := (Json.read? shape Json.maxDepth text.toList).bind ofJson? | throw .unreadable
  let tokens ← (s.tokens.overlay env).mapError .override
  tokens.check.mapError .check
  return { s with tokens }

end Settings

end AccessControl
