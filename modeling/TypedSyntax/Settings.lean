import TypedSyntax.Subword
import TypedSyntax.Text.Blank
import TypedSyntax.Text.Quoted

/-!
# Settings of a converter

The boundary marker of subwords, the capacity of the converter cache, and two sizes for stacks.
Settings carry the proof that they make sense: the marker cannot be taken for ordinary source
text, the cache can hold something, and the reserve of a stack is smaller than the stack.

* `Settings.make`: the settings with given values, or the first value that is refused.
-/

namespace TypedSyntax

/-- Whether a character can be a boundary marker: it is neither ASCII nor blank. -/
def isMarker (c : Char) : Bool :=
  !(c.toNat < 0x80 || isBlank c)

/-- The settings of a converter. -/
structure Settings where
  /-- The marker in front of a piece that starts a word. -/
  marker : Char := Subword.defaultMarker
  /-- The number of converters that a cache keeps. -/
  capacity : Nat := 8
  /-- The part of a stack that is kept in reserve, in bytes. -/
  redZone : Nat := 64 * 1024
  /-- The size of a stack, in bytes. -/
  stackSize : Nat := 2 * 1024 * 1024
  isMarker_marker : isMarker marker := by decide
  capacity_pos : 0 < capacity := by decide
  redZone_lt : redZone < stackSize := by decide

/-- Why settings are refused. -/
inductive SettingsError where
  /-- The marker is ASCII or blank. -/
  | boundaryMarker (marker : Char)
  /-- The cache could not hold anything. -/
  | zeroCapacity
  /-- The reserve does not fit into the stack. -/
  | stackSizes (redZone stackSize : Nat)
  deriving DecidableEq

namespace SettingsError

/-- The wording of an error. -/
def message : SettingsError → String
  | boundaryMarker marker =>
    "boundary marker must be a non-ASCII, non-whitespace character: " ++ quotedCharacter marker
  | zeroCapacity => "cache_capacity must be >= 1"
  | stackSizes redZone stackSize =>
    s!"stack red zone {redZone} must be smaller than stack size {stackSize}"

end SettingsError

namespace Settings

/-- The settings with given values. -/
def make (marker : Char) (capacity redZone stackSize : Nat) : Except SettingsError Settings :=
  if hm : isMarker marker then
    if hc : 0 < capacity then
      if hs : redZone < stackSize then
        .ok ⟨marker, capacity, redZone, stackSize, hm, hc, hs⟩
      else .error (.stackSizes redZone stackSize)
    else .error .zeroCapacity
  else .error (.boundaryMarker marker)

end Settings

end TypedSyntax
