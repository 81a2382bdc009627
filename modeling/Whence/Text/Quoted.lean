import Whence.Text.Combining
import Whence.Text.Unprintable

/-!
# Quoted text

A text is shown between double quotation marks.  Six characters have escapes of two characters; a
character that would not show, or that would attach to its neighbour, is written as its code point
in hexadecimal digits between braces.
-/

namespace Whence.Text.Quoted

/-- The code point of a character, with as many hexadecimal digits as it needs. -/
def codePoint (character : Char) : List Char :=
  ['\\', 'u', '\x7b'] ++ Nat.toDigits 16 character.toNat ++ ['\x7d']

def escape (character : Char) : List Char :=
  match character with
  | '"' => ['\\', '"']
  | '\\' => ['\\', '\\']
  | '\n' => ['\\', 'n']
  | '\r' => ['\\', 'r']
  | '\t' => ['\\', 't']
  | '\x00' => ['\\', '0']
  | _ =>
    if Unprintable.holds character || Combining.holds character then codePoint character
    else [character]

def quote (text : String) : String :=
  String.ofList ('"' :: text.toList.flatMap escape ++ ['"'])

end Whence.Text.Quoted
