import Whence.Toml.Moment
import Whence.Toml.Table
import Whence.Toml.Text

/-!
# Keys and values of a settings file

Values are texts, numbers, truth values, moments, arrays and inline tables.  Arrays and inline
tables nest to a fixed depth, and a dotted key has a fixed number of parts.
-/

namespace Whence.Toml

/-- The greatest nesting of arrays and inline tables, and the most parts of a dotted key. -/
def maxNesting : Nat := 79

namespace Reader

def key : Reader String := do
  match ← next? with
  | some '"' => quotedText
  | some '\x27' => literalText
  | _ =>
    let name ← takeWhile isKeyCharacter
    if name.isEmpty then failure
    return String.ofList name

/-- At least one key and at most the given number, with dots between them. -/
def keys : Nat → Reader (List String)
  | 0 => failure
  | parts + 1 => do
    blanks
    let head ← key
    blanks
    if ← accept ['.'] then return head :: (← keys parts) else return [head]

def path : Reader (List String) := keys maxNesting

/-- A value without others inside it. -/
def plainValue : Reader Document := do
  match ← next? with
  | some '"' => return .text (← text)
  | some '\x27' => return .text (← text)
  | _ =>
    match ← optional moment with
    | some written => return .moment written
    | none => scalar? (← takeWhile isScalarCharacter)

/-- At most the given number of items, up to the closing bracket of an array. -/
def items (value : Reader Document) : Nat → Reader (List Document)
  | 0 => failure
  | steps + 1 => do
    gap
    if ← accept [']'] then return []
    let head ← value
    gap
    if ← accept [','] then return head :: (← items value steps)
    expect [']']
    return [head]

/-- At most the given number of entries, up to the closing brace of an inline table. -/
def pairs (value : Reader Document) : Nat → Reader (List (List String × Document))
  | 0 => failure
  | steps + 1 => do
    let name ← path
    expect ['=']
    blanks
    let head ← value
    blanks
    if ← accept [','] then return (name, head) :: (← pairs value steps)
    expect ['\x7d']
    return [(name, head)]

/-- A value in which arrays and inline tables nest at most to the given depth. -/
def nested : Nat → Reader Document
  | 0 => plainValue
  | depth + 1 => do
    if ← accept ['['] then
      return .sequence (← items (nested depth) ((← get).length + 1))
    if ← accept ['\x7b'] then
      blanks
      if ← accept ['\x7d'] then return .table []
      let fields ← Fields.fill (← pairs (nested depth) ((← get).length + 1)) []
      return fields.toDocument
    plainValue

def value : Reader Document := nested maxNesting

end Reader

end Whence.Toml
