/-!
# Command lines

A command line names a command, with its options and operands in any order.  The settings file can
be named before the command as well as after it; the later place wins.
-/

namespace Whence.Command

inductive Action where
  | list
  | run (sample : String) (json explain : Bool)
  | forward (sample : String) (literals : List String)
  | backward (sample : String)
  /-- Checks the named examples, or all if none is named. -/
  | test (samples : List String)
  deriving DecidableEq, Repr

structure Invocation where
  /-- The settings file to use. -/
  settingsFile : Option String
  action : Action
  deriving DecidableEq, Repr

inductive Verb where
  | list
  | run
  | forward
  | backward
  | test
  deriving DecidableEq, Repr

namespace Verb

def ofName? : String → Option Verb
  | "list" => some .list
  | "run" => some .run
  | "forward" => some .forward
  | "backward" => some .backward
  | "test" => some .test
  | _ => none

def flags : Verb → List String
  | .run => ["json", "explain"]
  | _ => []

/-- The options that take a value. -/
def options : Verb → List String
  | .forward => ["config", "literal"]
  | _ => ["config"]

end Verb

inductive Argument where
  | flag (name : String)
  | option (name value : String)
  | operand (text : String)
  deriving DecidableEq, Repr

/-- Whether a word looks like an option.  A lone hyphen does not. -/
def isHyphenated (word : List Char) : Bool :=
  match word with
  | '-' :: _ :: _ => true
  | _ => false

/-- Splits the word of an option, without its hyphens, at the first equals sign. -/
def splitValue (word : List Char) : String × Option String :=
  let name := word.takeWhile (· != '=')
  (String.ofList name,
    match word.dropWhile (· != '=') with
    | [] => none
    | _ :: value => some (String.ofList value))

/-- Takes the words after a command apart; `none` if one of them is out of place. -/
def arguments? (verb : Verb) : List String → Option (List Argument)
  | [] => some []
  | word :: rest =>
    match word.toList with
    | ['-', '-'] => some (rest.map .operand)
    | '-' :: '-' :: text =>
      match splitValue text with
      | (name, none) =>
        if name ∈ verb.flags then (Argument.flag name :: ·) <$> arguments? verb rest
        else
          match rest with
          | [] => none
          | value :: rest =>
            if name ∈ verb.options ∧ ¬isHyphenated value.toList then
              (Argument.option name value :: ·) <$> arguments? verb rest
            else none
      | (name, some value) =>
        if name ∈ verb.options then (Argument.option name value :: ·) <$> arguments? verb rest
        else none
    | text =>
      if isHyphenated text then none else (Argument.operand word :: ·) <$> arguments? verb rest

def operands (arguments : List Argument) : List String :=
  arguments.filterMap fun
    | .operand text => some text
    | _ => none

def values (name : String) (arguments : List Argument) : List String :=
  arguments.filterMap fun
    | .option other value => if other = name then some value else none
    | _ => none

/-- A flag is given once or not at all. -/
def flag? (name : String) (arguments : List Argument) : Option Bool :=
  match arguments.count (.flag name) with
  | 0 => some false
  | 1 => some true
  | _ => none

/-- The settings file among the values given for it: at most one, and not the empty name. -/
def settingsFile? : List String → Option (Option String)
  | [] => some none
  | [file] => if file.isEmpty then none else some (some file)
  | _ => none

def action? (verb : Verb) (arguments : List Argument) : Option Action :=
  match verb, operands arguments with
  | .list, [] => some .list
  | .run, [sample] => do
    return .run sample (← flag? "json" arguments) (← flag? "explain" arguments)
  | .forward, [sample] =>
    match values "literal" arguments with
    | [] => none
    | literals => some (.forward sample literals)
  | .backward, [sample] => some (.backward sample)
  | .test, samples => some (.test samples)
  | _, _ => none

/-- The settings files named before the command, and the words from the command on. -/
def leading? : List String → Option (List String × List String)
  | [] => some ([], [])
  | word :: rest =>
    match word.toList with
    | '-' :: '-' :: text =>
      match splitValue text with
      | ("config", some file) => do
        let (files, rest) ← leading? rest
        return (file :: files, rest)
      | ("config", none) =>
        match rest with
        | [] => none
        | file :: rest => do
          if isHyphenated file.toList then none
          let (files, rest) ← leading? rest
          return (file :: files, rest)
      | _ => none
    | _ => some ([], word :: rest)

def Invocation.ofWords? (words : List String) : Option Invocation := do
  let (files, name :: rest) ← leading? words | none
  let outer ← settingsFile? files
  let verb ← Verb.ofName? name
  let arguments ← arguments? verb rest
  let inner ← settingsFile? (values "config" arguments)
  return ⟨inner.or outer, ← action? verb arguments⟩

end Whence.Command
