import Whence.Syntax.Builder

/-!
# Examples

An example is a program with an expression to evaluate and what is expected of it.
-/

namespace Whence

inductive Expectation where
  /-- How the complete value is rendered. -/
  | value (rendering : String)
  /-- A part of the message with which evaluation fails. -/
  | error (fragment : String)

structure Example where
  name : String
  description : String
  /-- Builds the program and returns the expression to evaluate. -/
  build : Builder ExprId
  expected : Expectation

namespace Example

/-- The program of an example with the expression to evaluate. -/
def load (sample : Example) : Except Error (Program × ExprId) :=
  match sample.build.run .initial with
  | .ok root program => .ok (program, root)
  | .error error _ => .error error

end Example

end Whence
