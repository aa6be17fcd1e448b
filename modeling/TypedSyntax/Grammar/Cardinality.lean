/-!
# Cardinalities

How many values a field may hold, with the three ways to write it: a word in messages and
documents, a suffix of the type name in grammar text, and the test on a number of values.
-/

namespace TypedSyntax

/-- How many values a field may hold. -/
inductive Cardinality where
  /-- Exactly one value. -/
  | single
  /-- At most one value. -/
  | optional
  /-- Any number of values, in order. -/
  | multiple
  deriving DecidableEq

namespace Cardinality

/-- The word for a cardinality. -/
def name : Cardinality → String
  | single => "single"
  | optional => "optional"
  | multiple => "multiple"

/-- The cardinality that a word names. -/
def ofName? : String → Option Cardinality
  | "single" => some single
  | "optional" => some optional
  | "multiple" => some multiple
  | _ => none

/-- What grammar text writes after the type name. -/
def suffix : Cardinality → String
  | single => ""
  | optional => "?"
  | multiple => "*"

/-- Whether a field of this cardinality may hold `count` values. -/
def admits : Cardinality → Nat → Bool
  | single, count => count == 1
  | optional, count => count ≤ 1
  | multiple, _ => true

@[simp]
theorem ofName?_name (k : Cardinality) : ofName? k.name = some k := by
  cases k <;> rfl

end Cardinality

end TypedSyntax
