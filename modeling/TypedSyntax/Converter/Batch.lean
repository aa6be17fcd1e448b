import TypedSyntax.Converter.Decode
import TypedSyntax.Converter.Encode

/-!
# Converting many items

A batch converts its items one by one and keeps their order. An item that fails makes the whole
batch fail, or is left out, as the policy says.
-/

namespace TypedSyntax

/-- What an item that fails does to its batch. -/
inductive BatchPolicy where
  /-- The batch fails with the first error. -/
  | abort
  /-- The item gives no result. -/
  | skip
  deriving DecidableEq

namespace BatchPolicy

/-- The results of a batch from those of its items. -/
def settle {α : Type} (policy : BatchPolicy) (results : List (Except ConvertError α)) :
    Except ConvertError (List (Option α)) :=
  match policy with
  | abort => results.mapM fun r => r.map some
  | skip => .ok (results.map Except.toOption)

end BatchPolicy

namespace Converter

/-- The trees of many nodes. -/
def encodeAll (c : Converter) (policy : BatchPolicy) (nodes : List Node) :
    Except ConvertError (List (Option Tree)) :=
  policy.settle (nodes.map c.encode)

/-- The nodes of many trees. -/
def decodeAll (c : Converter) (policy : BatchPolicy) (trees : List Tree) :
    Except ConvertError (List (Option Node)) :=
  policy.settle (trees.map c.decode)

end Converter

end TypedSyntax
