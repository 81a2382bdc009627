import Whence.Gallery.Example

/-!
# Examples on numbers, texts and functions
-/

namespace Whence.Gallery

open Builder

/-- `(1 + 2) * (10 - 4) / 3 + 2 ** 3` -/
def arithmetic : Example where
  name := "arithmetic"
  description := "operator precedence spelled out"
  expected := .value "14"
  build := do
    let one ← number 1
    let two ← number 2
    let sum ← binary one "+" two
    let ten ← number 10
    let four ← number 4
    let difference ← binary ten "-" four
    let product ← binary sum "*" difference
    let three ← number 3
    let quotient ← binary product "/" three
    let base ← number 2
    let exponent ← number 3
    let power ← binary base "**" exponent
    binary quotient "+" power

/-- `let x = 3 + 4 in x * 2` -/
def letArithmetic : Example where
  name := "let_arithmetic"
  description := "a let-bound intermediate"
  expected := .value "14"
  build := do
    let three ← number 3
    let four ← number 4
    let bound ← binary three "+" four
    let x ← var "x"
    let two ← number 2
    let body ← binary x "*" two
    letIn "x" bound body

/-- `ceiling (log 10) + floor 2.5` -/
def rounding : Example where
  name := "rounding"
  description := "unary primitives"
  expected := .value "5"
  build := do
    let ceiling ← var "ceiling"
    let log ← var "log"
    let ten ← number 10
    let logarithm ← app log ten
    let up ← app ceiling logarithm
    let floor ← var "floor"
    let half ← number 2.5
    let down ← app floor half
    binary up "+" down

/-- `letrec fact = fun n -> if n == 0 then 1 else n * fact (n - 1) in fact 5` -/
def factorial : Example where
  name := "factorial"
  description := "recursion through a conditional"
  expected := .value "120"
  build := do
    let tested ← var "n"
    let zero ← number 0
    let condition ← binary tested "==" zero
    let one ← number 1
    let factor ← var "n"
    let fact ← var "fact"
    let decreased ← var "n"
    let step ← number 1
    let predecessor ← binary decreased "-" step
    let recurse ← app fact predecessor
    let product ← binary factor "*" recurse
    let body ← ifThenElse condition one product
    let function ← lambda "n" body
    let called ← var "fact"
    let five ← number 5
    let call ← app called five
    letRec [("fact", function)] call

/-- `let compose = fun f -> fun g -> fun x -> f (g x) in let inc = fun x -> x + 1 in
let double = fun x -> x * 2 in compose inc double 5` -/
def compose : Example where
  name := "compose"
  description := "closures returning closures"
  expected := .value "11"
  build := do
    let f ← var "f"
    let g ← var "g"
    let x ← var "x"
    let inner ← app g x
    let outer ← app f inner
    let overX ← lambda "x" outer
    let overG ← lambda "g" overX
    let composed ← lambda "f" overG
    let increased ← var "x"
    let one ← number 1
    let sum ← binary increased "+" one
    let increment ← lambda "x" sum
    let doubled ← var "x"
    let two ← number 2
    let product ← binary doubled "*" two
    let double ← lambda "x" product
    let composeName ← var "compose"
    let incrementName ← var "inc"
    let doubleName ← var "double"
    let five ← number 5
    let call ← apply composeName [incrementName, doubleName, five]
    let withDouble ← letIn "double" double call
    let withIncrement ← letIn "inc" increment withDouble
    letIn "compose" composed withIncrement

/-- `let x = 1 in let f = fun y -> x + y in let x = 100 in f 2` -/
def lexicalScoping : Example where
  name := "lexical_scoping"
  description := "closures capture their definition site"
  expected := .value "3"
  build := do
    let one ← number 1
    let x ← var "x"
    let y ← var "y"
    let sum ← binary x "+" y
    let function ← lambda "y" sum
    let hundred ← number 100
    let called ← var "f"
    let two ← number 2
    let call ← app called two
    let shadowed ← letIn "x" hundred call
    let withFunction ← letIn "f" function shadowed
    letIn "x" one withFunction

/-- `fun n -> if n == 0 then base else other (n - 1)` -/
def parity (base : Bool) (other : String) : Builder ExprId := do
  let tested ← var "n"
  let zero ← number 0
  let condition ← binary tested "==" zero
  let answer ← boolean base
  let called ← var other
  let decreased ← var "n"
  let one ← number 1
  let predecessor ← binary decreased "-" one
  let recurse ← app called predecessor
  let body ← ifThenElse condition answer recurse
  lambda "n" body

/-- `letrec isEven = fun n -> if n == 0 then True else isOdd (n - 1)` and
`isOdd = fun n -> if n == 0 then False else isEven (n - 1) in isEven 6` -/
def evenOdd : Example where
  name := "even_odd"
  description := "mutual recursion in one group"
  expected := .value "True"
  build := do
    let isEven ← parity true "isOdd"
    let isOdd ← parity false "isEven"
    let called ← var "isEven"
    let six ← number 6
    let call ← app called six
    letRec [("isEven", isEven), ("isOdd", isOdd)] call

/-- `prim show = intToString` and `let greeting = "n=" ++ show (floor 7.6)`
`in if greeting === "n=7" then greeting ++ "!" else "no"` -/
def strings : Example where
  name := "strings"
  description := "string primitives and a primitive alias"
  expected := .value "\"n=7!\""
  build := do
    let showing ← definePrimitive "show" "intToString"
    let label ← text "n="
    let shower ← var "show"
    let floor ← var "floor"
    let seven ← number 7.6
    let floored ← app floor seven
    let shown ← app shower floored
    let bound ← binary label "++" shown
    let greeting ← defineValue "greeting" bound
    let tested ← var "greeting"
    let wanted ← text "n=7"
    let condition ← binary tested "===" wanted
    let repeated ← var "greeting"
    let bang ← text "!"
    let excited ← binary repeated "++" bang
    let no ← text "no"
    let body ← ifThenElse condition excited no
    defs [showing, greeting] body

/-- `let boom = error "never demanded" in 42` -/
def lazyBinding : Example where
  name := "lazy_binding"
  description := "unused bindings are never evaluated"
  expected := .value "42"
  build := do
    let error ← var "error"
    let message ← text "never demanded"
    let boom ← app error message
    let answer ← number 42
    letIn "boom" boom answer

end Whence.Gallery
