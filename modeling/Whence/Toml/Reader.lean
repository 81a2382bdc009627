/-!
# Reading a settings file

The characters of the format, and the steps from which its readers are made.
-/

namespace Whence.Toml

def isBlank (character : Char) : Bool := character == ' ' || character == '\t'

/-- Characters that may stand in comments and texts: no control but the tab. -/
def isPlain (character : Char) : Bool :=
  character == '\t' || (0x20 ≤ character.val && character.val != 0x7F)

def isKeyCharacter (character : Char) : Bool :=
  character.isAlphanum || character == '_' || character == '-'

/-- Characters of numbers and truth values. -/
def isScalarCharacter (character : Char) : Bool :=
  isKeyCharacter character || character == '+' || character == '.'

/-- Drops blanks, line ends and comments.  The flag says whether the text starts in a comment. -/
def dropGap (comment : Bool) : List Char → Option (List Char)
  | [] => some []
  | '\n' :: rest => dropGap false rest
  | '\r' :: '\n' :: rest => dropGap false rest
  | character :: rest =>
    if comment then if isPlain character then dropGap true rest else none
    else if isBlank character then dropGap false rest
    else if character == '#' then dropGap true rest
    else some (character :: rest)

/-- Drops the rest of a line, which is blank but for a comment. -/
def dropLineEnd (comment : Bool) : List Char → Option (List Char)
  | [] => some []
  | '\n' :: rest => some rest
  | '\r' :: '\n' :: rest => some rest
  | character :: rest =>
    if comment then if isPlain character then dropLineEnd true rest else none
    else if isBlank character then dropLineEnd false rest
    else if character == '#' then dropLineEnd true rest
    else none

/-- Reads from the front of a text and leaves the rest; `none` if the text does not fit. -/
abbrev Reader := StateT (List Char) Option

namespace Reader

def next? : Reader (Option Char) := do return (← get).head?

def takeWhile (holds : Char → Bool) : Reader (List Char) :=
  fun text ↦ some (text.takeWhile holds, text.dropWhile holds)

def blanks : Reader Unit := do let _ ← takeWhile isBlank

def gap : Reader Unit := do set (← dropGap false (← get))

def lineEnd : Reader Unit := do set (← dropLineEnd false (← get))

/-- Reads the given characters if they are next. -/
def accept (characters : List Char) : Reader Bool := fun text ↦
  if characters.isPrefixOf text then some (true, text.drop characters.length)
  else some (false, text)

def expect (characters : List Char) : Reader Unit := do
  if ← accept characters then pure () else failure

/-- Reads a character if it is one of those given. -/
def acceptOne (characters : List Char) : Reader Bool := fun text ↦
  match text with
  | head :: rest => if head ∈ characters then some (true, rest) else some (false, text)
  | [] => some (false, [])

def expectOne (characters : List Char) : Reader Unit := do
  if ← acceptOne characters then pure () else failure

/-- What a reader finds, or nothing if the text does not fit. -/
def optional {α : Type} (reader : Reader α) : Reader (Option α) := fun text ↦
  match reader text with
  | some (found, rest) => some (some found, rest)
  | none => some (none, text)

end Reader

end Whence.Toml
