import Interleaving.Json.Writer
import Interleaving.Settings
import Interleaving.Settings.Toml

/-!
# Written forms of settings

Settings are read from JSON, where unknown fields are skipped and missing ones have their defaults,
and those of an exploration also from TOML, where an unknown key is skipped too.
-/

namespace Interleaving

/-- A seed of 64 bits. -/
def seedOfJson? (j : Json) : Option UInt64 := (j.nat? UInt64.size).map UInt64.ofNat

namespace Settings

/-- Settings as JSON. -/
def toJson (s : Settings) : Json :=
  .obj [("seed", .ofOption (fun seed => .nat seed.toNat) s.seed),
    ("lazy_reexploration", .bool s.lazyReexploration),
    ("virtual_exploration", .bool s.virtualExploration)]

/-- Settings from JSON. -/
def ofJson? (j : Json) : Option Settings := do
  let fields ← j.fields?
  let seed ← Json.optional? fields "seed" default.seed (Json.option? seedOfJson?)
  let lazyReexploration ←
    Json.optional? fields "lazy_reexploration" default.lazyReexploration Json.bool?
  let virtualExploration ←
    Json.optional? fields "virtual_exploration" default.virtualExploration Json.bool?
  pure { seed, lazyReexploration, virtualExploration }

/-- Settings from a TOML document. -/
def ofToml? (text : String) : Option Settings := do
  let entries ← Toml.ofText? text
  let field {α : Type} (name : String) (default : α) (f : Toml.Value → Option α) : Option α :=
    match Toml.lookup entries name with
    | none => some default
    | some value => f value
  let seed ← field "seed" default.seed fun value => (value.nat? UInt64.size).map (some ∘ UInt64.ofNat)
  let lazyReexploration ← field "lazy_reexploration" default.lazyReexploration Toml.Value.bool?
  let virtualExploration ← field "virtual_exploration" default.virtualExploration Toml.Value.bool?
  pure { seed, lazyReexploration, virtualExploration }

/-- Why a file of settings could not be used. -/
inductive FileError where
  /-- The file is missing or holds no text. -/
  | io
  /-- The text is not a TOML document of settings. -/
  | parse
deriving DecidableEq

/-- Settings from the contents of a file, if there is one. -/
def ofFile (contents : Option ByteArray) : Except FileError Settings :=
  match contents.bind String.fromUTF8? with
  | none => throw .io
  | some text =>
    match ofToml? text with
    | none => throw .parse
    | some settings => pure settings

end Settings

namespace EngineSettings

/-- Settings as JSON. -/
def toJson (s : EngineSettings) : Json :=
  .obj [("explorer", s.exploration.toJson), ("covering", .bool s.covering),
    ("max_expansions", .nat s.maxExpansions)]

/-- Settings from JSON. -/
def ofJson? (j : Json) : Option EngineSettings := do
  let fields ← j.fields?
  let exploration ← Json.optional? fields "explorer" default.exploration Settings.ofJson?
  let covering ← Json.optional? fields "covering" default.covering Json.bool?
  let maxExpansions ← Json.optional? fields "max_expansions" default.maxExpansions (Json.nat? UInt64.size)
  pure { exploration, covering, maxExpansions }

end EngineSettings

end Interleaving
