import Whence.Number

/-!
# Documents

Structured data as it is written to and read from files: JSON going out, settings coming in.
-/

namespace Whence

inductive Document where
  | null
  | bool (value : Bool)
  | integer (value : Int)
  | number (value : Number)
  | text (value : String)
  /-- A date or time, as it is written. -/
  | moment (written : String)
  | sequence (items : List Document)
  | table (fields : List (String × Document))
  deriving Inhabited

namespace Document

def hexDigits (value : Nat) : List Char :=
  let digits := Nat.toDigits 16 value
  List.replicate (4 - digits.length) '0' ++ digits

/-- Only quotation marks, backslashes and controls are escaped. -/
def escape (character : Char) : List Char :=
  match character with
  | '"' => ['\\', '"']
  | '\\' => ['\\', '\\']
  | '\n' => ['\\', 'n']
  | '\r' => ['\\', 'r']
  | '\t' => ['\\', 't']
  | '\x08' => ['\\', 'b']
  | '\x0c' => ['\\', 'f']
  | _ =>
    if character.val < 0x20 then ['\\', 'u'] ++ hexDigits character.toNat
    else [character]

def quote (text : String) : String :=
  String.ofList ('"' :: text.toList.flatMap escape ++ ['"'])

def indentation (level : Nat) : String := String.ofList (List.replicate (2 * level) ' ')

/-- Puts each of the given lines on a line of its own, one level further in, between brackets. -/
def enclose (level : Nat) (left right : String) (lines : List String) : String :=
  if lines.isEmpty then left ++ right
  else
    let inner := indentation (level + 1)
    left ++ "\n" ++ ",\n".intercalate (lines.map (inner ++ ·)) ++ "\n" ++ indentation level ++ right

mutual

/-- The document at a level of indentation, which applies from its second line on. -/
def prettyAt (level : Nat) : Document → String
  | .null => "null"
  | .bool value => if value then "true" else "false"
  | .integer value => toString value
  | .number value => value.document
  | .text value => quote value
  | .moment written => quote written
  | .sequence items => enclose level "[" "]" (prettyItems (level + 1) items)
  | .table fields => enclose level "\x7b" "\x7d" (prettyFields (level + 1) fields)

def prettyItems (level : Nat) : List Document → List String
  | [] => []
  | item :: items => prettyAt level item :: prettyItems level items

def prettyFields (level : Nat) : List (String × Document) → List String
  | [] => []
  | (name, value) :: fields =>
    (quote name ++ ": " ++ prettyAt level value) :: prettyFields level fields

end

/-- JSON with two blanks for each level. -/
def pretty (document : Document) : String := prettyAt 0 document

end Document

end Whence
