/-!
# Onepass.Text.Trim

White space in the sense of the Unicode property White_Space, and a text without the white
space it ends in.
-/

namespace Onepass
namespace Text

def isWhite (c : Char) : Bool :=
  let n := c.toNat
  (0x09 ≤ n && n ≤ 0x0d) || n = 0x20 || n = 0x85 || n = 0xa0 || n = 0x1680 ||
  (0x2000 ≤ n && n ≤ 0x200a) || n = 0x2028 || n = 0x2029 || n = 0x202f || n = 0x205f ||
  n = 0x3000

/-- The characters up to the last one that is not white. -/
def dropTrailing (cs : List Char) : List Char :=
  (cs.reverse.dropWhile isWhite).reverse

/-- The text without the white space at its end. So `clap_stdin` delivers an input. -/
def trimEnd (s : String) : String := String.ofList (dropTrailing s.toList)

end Text
end Onepass
