/-!
# Blank characters

The characters that the grammar scanner passes over between two tokens, and that a boundary
marker must not be. They are the characters with the Unicode property *White_Space*, which is
wider than `Char.isWhitespace`: it also holds of the line and paragraph separators, of the
no-break space and of the ideographic space.
-/

namespace TypedSyntax

/-- The characters with the Unicode property *White_Space*. -/
def isBlank (c : Char) : Bool :=
  let n := c.toNat
  (0x09 ≤ n && n ≤ 0x0D) || n == 0x20 || n == 0x85 || n == 0xA0 || n == 0x1680 ||
    (0x2000 ≤ n && n ≤ 0x200A) || n == 0x2028 || n == 0x2029 || n == 0x202F || n == 0x205F ||
    n == 0x3000

end TypedSyntax
