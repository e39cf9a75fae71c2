import Onepass.Text.Classes

/-!
# Onepass.Text.Quoted

A character between single quotes, so that a reader of a message can tell which one it is. The
quote, the backslash and four controls have escapes of their own; a character without a picture
of its own is shown by its code point in lower-case hexadecimal; every other one stands for
itself.
-/

namespace Onepass
namespace Text

/-- The code point in braces: `\u` and the digits of `n` without leading zeros. -/
def codePoint (n : Nat) : String :=
  "\\u\x7b" ++ String.ofList (Nat.toDigits 16 n) ++ "\x7d"

def escapeOf (c : Char) : Option String :=
  if c = '\x00' then some "\\0"
  else if c = '\t' then some "\\t"
  else if c = '\n' then some "\\n"
  else if c = '\r' then some "\\r"
  else if c = '\'' then some "\\'"
  else if c = '\\' then some "\\\\"
  else if isExtender c || isUnprintable c then some (codePoint c.toNat)
  else none

def quoted (c : Char) : String :=
  "'" ++ (escapeOf c).getD (String.singleton c) ++ "'"

end Text
end Onepass
