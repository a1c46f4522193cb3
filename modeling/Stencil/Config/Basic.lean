import Stencil.Text.Blank

/-!
# Configurations

How void elements end, which tag stands in for a blank one, and how many entries a table may have.

## Main definitions

* `Config`: the three settings
* `Config.placeholder`, `Config.payloadLimit`: what they come to
-/

namespace Stencil

open Stencil.Text

/-- How elements end. -/
inductive CloseMode where
  /-- Void elements have an operation of their own. -/
  | voidOpcode
  /-- All elements end alike. -/
  | plainClose
  deriving DecidableEq, Repr

/-- The most entries that a table may have whatever the configuration says. -/
def entryCeiling : Nat := 16777215

/-- The settings of a compilation. -/
structure Config where
  closeMode : CloseMode := .voidOpcode
  /-- Stands in for a blank tag name. -/
  placeholderTag : String := "div"
  /-- The most entries that a table may have. -/
  maxEntries : Nat := entryCeiling
  deriving DecidableEq, Repr

namespace Config

/-- The configuration with another limit for tables, at most the ceiling. -/
def withMaxEntries (c : Config) (n : Nat) : Config :=
  { c with maxEntries := min n entryCeiling }

/-- The most entries that a table may have. -/
def payloadLimit (c : Config) : Nat :=
  min c.maxEntries entryCeiling

theorem payloadLimit_le (c : Config) : c.payloadLimit ≤ entryCeiling :=
  Nat.min_le_right _ _

/-- The tag that stands in for a blank one: the configured one, trimmed, or `div` if that is
blank itself. -/
def placeholder (c : Config) : String :=
  if isBlankText c.placeholderTag then "div" else trim c.placeholderTag

end Config

end Stencil
