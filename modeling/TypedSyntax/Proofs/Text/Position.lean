import Mathlib.Data.List.TakeWhile
import TypedSyntax.Text.Cursor

/-!
# Positions and slices

A position is kept up to date one character at a time. Here it is said at once what it counts:

* `Position.advanceAll_behind` — moving over characters leads to the place behind them, where the
  bytes, lines and columns are those of the text before it (`Position.behind`);
* `Cursor.slice_behind` — the slice that starts at that place is what stands there in the text.
-/

namespace TypedSyntax

/-- Bytes are counted character by character. -/
theorem utf8ByteSize_append (cs ds : List Char) :
    (String.ofList (cs ++ ds)).utf8ByteSize =
      (String.ofList cs).utf8ByteSize + (String.ofList ds).utf8ByteSize := by
  rw [String.ofList_append, String.utf8ByteSize_append]

theorem utf8ByteSize_singleton (c : Char) : (String.ofList [c]).utf8ByteSize = c.utf8Size := by
  rw [← String.singleton_eq_ofList, String.utf8ByteSize_singleton]

theorem utf8ByteSize_cons (c : Char) (cs : List Char) :
    (String.ofList (c :: cs)).utf8ByteSize = c.utf8Size + (String.ofList cs).utf8ByteSize := by
  rw [← List.singleton_append, utf8ByteSize_append, utf8ByteSize_singleton]

namespace Position

/-- The place behind some characters: all their bytes, a line more than they have line ends, and a
column more than there are characters since the last line end. -/
def behind (cs : List Char) : Position where
  byte := (String.ofList cs).utf8ByteSize
  line := 1 + cs.count '\n'
  column := 1 + (cs.reverse.takeWhile (· ≠ '\n')).length

theorem behind_nil : behind [] = {} :=
  rfl

/-- One more character. A line end starts a new line, in which the columns are counted anew. -/
theorem advance_behind (cs : List Char) (c : Char) :
    (behind cs).advance c = behind (cs ++ [c]) := by
  unfold behind advance
  rw [utf8ByteSize_append, utf8ByteSize_singleton]
  -- The characters are counted from the back for the column, so it is the last one that decides.
  by_cases hc : c = '\n'
  · simp [hc, Nat.add_assoc]
  · simp [hc, Nat.add_comm]

/-- More characters, one after the other. -/
theorem advanceAll_behind (cs ds : List Char) :
    (behind cs).advanceAll ds = behind (cs ++ ds) := by
  induction ds generalizing cs with
  | nil => exact congrArg behind (List.append_nil cs).symm
  | cons d ds ih =>
    calc (behind cs).advanceAll (d :: ds)
        = ((behind cs).advance d).advanceAll ds := rfl
      _ = (behind (cs ++ [d])).advanceAll ds := by rw [advance_behind]
      _ = behind (cs ++ d :: ds) := by rw [ih, List.append_assoc, List.singleton_append]

end Position

/-! ### Slices -/

/-- Dropping the bytes of some characters drops these. No character is cut apart, since each of them
has a byte at least and is dropped as a whole. -/
theorem dropBytes_append (cs rest : List Char) :
    dropBytes (String.ofList cs).utf8ByteSize (cs ++ rest) = rest := by
  induction cs with
  | nil => cases rest <;> rfl
  | cons c cs ih =>
    have hpos : c.utf8Size ≠ 0 := c.utf8Size_pos.ne'
    rw [utf8ByteSize_cons, List.cons_append, dropBytes, if_neg (by omega),
      Nat.add_sub_cancel_left, ih]

/-- Taking the bytes of some characters takes these. -/
theorem takeBytes_append (cs rest : List Char) :
    takeBytes (String.ofList cs).utf8ByteSize (cs ++ rest) = cs := by
  induction cs with
  | nil => cases rest <;> rfl
  | cons c cs ih =>
    have hpos : c.utf8Size ≠ 0 := c.utf8Size_pos.ne'
    rw [utf8ByteSize_cons, List.cons_append, takeBytes, if_neg (by omega),
      Nat.add_sub_cancel_left, ih]

/-- The slice from the place behind some characters, as long as a text that stands there, is that
text. -/
theorem Cursor.slice_behind {s text : String} {before after : List Char}
    (h : s.toList = before ++ (text.toList ++ after)) :
    (ofText s).slice (Position.behind before).byte
      ((Position.behind before).byte + text.utf8ByteSize) = text := by
  have htext : text.utf8ByteSize = (String.ofList text.toList).utf8ByteSize := by
    rw [String.ofList_toList]
  unfold slice ofText Position.behind
  rw [Nat.add_sub_cancel_left, h, dropBytes_append, htext, takeBytes_append, String.ofList_toList]

end TypedSyntax
