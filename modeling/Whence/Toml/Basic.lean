import Whence.Toml.Value

/-!
# Settings files

A file is a sequence of lines: entries `key = value`, headers `[table]` and `[[table]]`, blank
lines and comments.
-/

namespace Whence.Toml

inductive Statement where
  | entry (path : List String) (value : Document)
  | table (path : List String)
  | element (path : List String)

namespace Reader

def statement : Reader Statement := do
  if ← accept ['[', '['] then
    let name ← path
    expect [']', ']']
    return .element name
  if ← accept ['['] then
    let name ← path
    expect [']']
    return .table name
  let name ← path
  expect ['=']
  blanks
  return .entry name (← value)

/-- At most the given number of statements up to the end of the file, each on lines of its own. -/
def statements : Nat → Reader (List Statement)
  | 0 => failure
  | steps + 1 => do
    gap
    if (← get).isEmpty then return []
    let head ← statement
    lineEnd
    return head :: (← statements steps)

end Reader

/-- A header with the entries below it. -/
structure Block where
  isElement : Bool
  path : List String
  entries : List (List String × Document)

/-- Splits a file into the entries before the first header and the blocks. -/
def blocks : List Statement → List (List String × Document) × List Block
  | [] => ([], [])
  | .entry path value :: rest =>
    let (entries, further) := blocks rest
    ((path, value) :: entries, further)
  | .table path :: rest =>
    let (entries, further) := blocks rest
    ([], ⟨false, path, entries⟩ :: further)
  | .element path :: rest =>
    let (entries, further) := blocks rest
    ([], ⟨true, path, entries⟩ :: further)

def Block.add (block : Block) (fields : Fields) : Option Fields :=
  if block.isElement then fields.addElement block.path block.entries
  else fields.addTable block.path block.entries

def dropByteOrderMark : List Char → List Char
  | '\uFEFF' :: rest => rest
  | text => text

/-- The table that a file describes. -/
def parse? (file : String) : Option Document := do
  let text := dropByteOrderMark file.toList
  let (statements, _) ← (Reader.statements (text.length + 1)).run text
  let (entries, blocks) := blocks statements
  let root ← Fields.fill entries []
  let fields ← blocks.foldlM (fun fields block ↦ block.add fields) root
  return fields.toDocument

end Whence.Toml
