/-
Text in double quotes, for messages. The double quote and the backslash get a
backslash, the usual control characters are written by their letters, and any
other character without an image is written by its code point in braces.
-/
import Clausal.Text.Unprintable

set_option autoImplicit false

namespace Clausal.Text

/-- A code point in braces, as lower-case hexadecimal digits. -/
def codePoint (c : Char) : List Char :=
  ['\\', 'u', '{'] ++ Nat.toDigits 16 c.toNat ++ ['}']

/-- How a character is written between the quotes. -/
def escape (c : Char) : List Char :=
  match c with
  | '"' => ['\\', '"']
  | '\\' => ['\\', '\\']
  | '\t' => ['\\', 't']
  | '\n' => ['\\', 'n']
  | '\r' => ['\\', 'r']
  | '\x00' => ['\\', '0']
  | _ => if isUnprintable c then codePoint c else [c]

/-- The text in quotes. -/
def quote (s : String) : String :=
  String.ofList ('"' :: s.toList.flatMap escape ++ ['"'])

end Clausal.Text
