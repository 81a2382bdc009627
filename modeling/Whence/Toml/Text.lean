import Whence.Toml.Number

/-!
# Texts of a settings file

A text stands between quotation marks, with escapes, or between apostrophes, as it is.  Between
three marks it may take several lines.  Up to two marks may then stand together inside it, also
before those that end it, and a line end straight after the opening marks is dropped.
-/

namespace Whence.Toml

def character? (digits : List Char) : Option Char := do
  let value ← digits.foldlM (fun value digit ↦ do return value * 16 + (← digit? 16 digit)) 0
  if value.isValidChar then some (Char.ofNat value) else none

def escaped? : Char → Option Char
  | 'b' => some '\x08'
  | 't' => some '\t'
  | 'n' => some '\n'
  | 'f' => some '\x0c'
  | 'r' => some '\r'
  | '"' => some '"'
  | '\\' => some '\\'
  | _ => none

/-- Puts a character before the text found, in front of the rest. -/
def prepend (character : Char) (found : List Char × List Char) : List Char × List Char :=
  (character :: found.1, found.2)

/-- Reads up to the quotation mark that ends a text. -/
def quoted : List Char → Option (List Char × List Char)
  | [] => none
  | '"' :: rest => some ([], rest)
  | '\\' :: 'u' :: a :: b :: c :: d :: rest => do
    return prepend (← character? [a, b, c, d]) (← quoted rest)
  | '\\' :: 'U' :: a :: b :: c :: d :: e :: f :: g :: h :: rest => do
    return prepend (← character? [a, b, c, d, e, f, g, h]) (← quoted rest)
  | '\\' :: mark :: rest => do return prepend (← escaped? mark) (← quoted rest)
  | character :: rest => if isPlain character then prepend character <$> quoted rest else none

def dropNewline : List Char → List Char
  | '\n' :: rest => rest
  | '\r' :: '\n' :: rest => rest
  | text => text

/-- Whether the rest of the line is blank and another line follows. -/
def isLineBreak : List Char → Bool
  | '\n' :: _ => true
  | '\r' :: '\n' :: _ => true
  | character :: rest => isBlank character && isLineBreak rest
  | [] => false

/-- Reads up to the three quotation marks that end a text.  A backslash at the end of a line leaves
out all blanks and line ends that follow, which the flag says are being left out. -/
def quotedLines (leaveOut : Bool) : List Char → Option (List Char × List Char)
  | [] => none
  | '\n' :: rest =>
    if leaveOut then quotedLines true rest else prepend '\n' <$> quotedLines false rest
  | '\r' :: '\n' :: rest =>
    if leaveOut then quotedLines true rest else prepend '\n' <$> quotedLines false rest
  | '"' :: '"' :: '"' :: '"' :: '"' :: rest => some (['"', '"'], rest)
  | '"' :: '"' :: '"' :: '"' :: rest => some (['"'], rest)
  | '"' :: '"' :: '"' :: rest => some ([], rest)
  | '\\' :: 'u' :: a :: b :: c :: d :: rest => do
    return prepend (← character? [a, b, c, d]) (← quotedLines false rest)
  | '\\' :: 'U' :: a :: b :: c :: d :: e :: f :: g :: h :: rest => do
    return prepend (← character? [a, b, c, d, e, f, g, h]) (← quotedLines false rest)
  | '\\' :: mark :: rest =>
    if isLineBreak (mark :: rest) then quotedLines true (mark :: rest)
    else do return prepend (← escaped? mark) (← quotedLines false rest)
  | character :: rest =>
    if leaveOut && isBlank character then quotedLines true rest
    else if isPlain character then prepend character <$> quotedLines false rest
    else none

/-- Reads up to the three apostrophes that end a text. -/
def literalLines : List Char → Option (List Char × List Char)
  | [] => none
  | '\n' :: rest => prepend '\n' <$> literalLines rest
  | '\r' :: '\n' :: rest => prepend '\n' <$> literalLines rest
  | '\x27' :: '\x27' :: '\x27' :: '\x27' :: '\x27' :: rest => some (['\x27', '\x27'], rest)
  | '\x27' :: '\x27' :: '\x27' :: '\x27' :: rest => some (['\x27'], rest)
  | '\x27' :: '\x27' :: '\x27' :: rest => some ([], rest)
  | character :: rest =>
    if isPlain character then prepend character <$> literalLines rest else none

namespace Reader

def quotedText : Reader String := do
  expect ['"']
  let text ← (quoted : Reader (List Char))
  return String.ofList text

def literalText : Reader String := do
  expect ['\x27']
  let text ← takeWhile fun character ↦ isPlain character && character != '\x27'
  expect ['\x27']
  return String.ofList text

/-- A text in any of the four forms. -/
def text : Reader String := do
  if ← accept ['"', '"', '"'] then
    modify dropNewline
    let text ← (quotedLines false : Reader (List Char))
    return String.ofList text
  if ← accept ['\x27', '\x27', '\x27'] then
    modify dropNewline
    let text ← (literalLines : Reader (List Char))
    return String.ofList text
  if (← next?) = some '"' then quotedText else literalText

end Reader

end Whence.Toml
