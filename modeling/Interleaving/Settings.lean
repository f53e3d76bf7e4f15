/-!
# Settings

The switches of an exploration and of an engine that runs one.
-/

namespace Interleaving

/-- The switches of an exploration. -/
structure Settings where
  /-- The seed of all choices; without one, a run draws its seed from outside. -/
  seed : Option UInt64 := some 0
  /-- Whether edges that earlier rounds left in the tree are taken again before new ones. -/
  lazyReexploration : Bool := true
  /-- Whether races are also looked for in the subtrees of covering nodes. -/
  virtualExploration : Bool := true
deriving DecidableEq, Inhabited

namespace Settings

/-- The settings that hold where nothing is said. -/
def default : Settings := {}

/-- Default settings with a seed. -/
def ofSeed (seed : UInt64) : Settings := { seed := some seed }

/-- Default settings without a seed. -/
def unseeded : Settings := { seed := none }

end Settings

/-- The settings of an engine. -/
structure EngineSettings where
  exploration : Settings := .default
  /-- Whether a node is covered by an earlier expanded node with the same state. -/
  covering : Bool := false
  /-- How many nodes a round may expand. -/
  maxExpansions : Nat := 100000
deriving DecidableEq, Inhabited

namespace EngineSettings

/-- The settings that hold where nothing is said. -/
def default : EngineSettings := {}

/-- Default settings with a seed. -/
def ofSeed (seed : UInt64) : EngineSettings := { exploration := .ofSeed seed }

end EngineSettings

end Interleaving
