import Whence.Gallery.Example

/-!
# Examples on lists and pairs
-/

namespace Whence.Gallery

open Builder

/-- The clause for the empty list. -/
def onNil (body : ExprId) : Clause := ⟨.constructor "Nil" [], body⟩

/-- The clause for a list with a first element. -/
def onCons (head tail : String) (body : ExprId) : Clause :=
  ⟨.constructor "Cons" [.bind head, .bind tail], body⟩

/-- `letrec length = fun Nil -> 0 | Cons(x, xs) -> 1 + length xs in length [5, 6, 7, 8]` -/
def length : Example where
  name := "length"
  description := "elements are never demanded"
  expected := .value "4"
  build := do
    let zero ← number 0
    let one ← number 1
    let called ← var "length"
    let xs ← var "xs"
    let rest ← app called xs
    let step ← binary one "+" rest
    let measure ← function [onNil zero, onCons "x" "xs" step]
    let lengthName ← var "length"
    let items ← numbers [5, 6, 7, 8]
    let call ← app lengthName items
    letRec [("length", measure)] call

/-- `letrec map = fun f -> fun Nil -> Nil | Cons(x, xs) -> Cons(f x, map f xs)`
`in map (fun y -> y * y) [1, 2, 3]` -/
def map : Example where
  name := "map"
  description := "a higher-order list function"
  expected := .value "[1, 4, 9]"
  build := do
    let empty ← nil
    let f ← var "f"
    let x ← var "x"
    let head ← app f x
    let called ← var "map"
    let again ← var "f"
    let xs ← var "xs"
    let tail ← apply called [again, xs]
    let cell ← cons head tail
    let cases ← function [onNil empty, onCons "x" "xs" cell]
    let mapping ← lambda "f" cases
    let left ← var "y"
    let right ← var "y"
    let product ← binary left "*" right
    let square ← lambda "y" product
    let mapName ← var "map"
    let items ← numbers [1, 2, 3]
    let call ← apply mapName [square, items]
    letRec [("map", mapping)] call

/-- `letrec filter = fun p -> fun Nil -> Nil`
`| Cons(x, xs) -> if p x then Cons(x, filter p xs) else filter p xs`
`in filter (fun y -> y > 2) [1, 3, 2, 5]` -/
def filter : Example where
  name := "filter"
  description := "conditionals inside recursion"
  expected := .value "[3, 5]"
  build := do
    let empty ← nil
    let predicate ← var "p"
    let tested ← var "x"
    let test ← app predicate tested
    let head ← var "x"
    let keptCall ← var "filter"
    let keptPredicate ← var "p"
    let keptItems ← var "xs"
    let keptTail ← apply keptCall [keptPredicate, keptItems]
    let kept ← cons head keptTail
    let droppedCall ← var "filter"
    let droppedPredicate ← var "p"
    let droppedItems ← var "xs"
    let dropped ← apply droppedCall [droppedPredicate, droppedItems]
    let step ← ifThenElse test kept dropped
    let cases ← function [onNil empty, onCons "x" "xs" step]
    let filtering ← lambda "p" cases
    let y ← var "y"
    let two ← number 2
    let above ← binary y ">" two
    let aboveTwo ← lambda "y" above
    let filterName ← var "filter"
    let items ← numbers [1, 3, 2, 5]
    let call ← apply filterName [aboveTwo, items]
    letRec [("filter", filtering)] call

/-- `letrec rev = fun acc -> fun Nil -> acc | Cons(x, xs) -> rev (Cons(x, acc)) xs`
`in rev Nil [1, 2, 3]` -/
def reverse : Example where
  name := "reverse"
  description := "an accumulating parameter"
  expected := .value "[3, 2, 1]"
  build := do
    let accumulated ← var "acc"
    let called ← var "rev"
    let x ← var "x"
    let below ← var "acc"
    let pushed ← cons x below
    let xs ← var "xs"
    let step ← apply called [pushed, xs]
    let cases ← function [onNil accumulated, onCons "x" "xs" step]
    let reversing ← lambda "acc" cases
    let reverseName ← var "rev"
    let empty ← nil
    let items ← numbers [1, 2, 3]
    let call ← apply reverseName [empty, items]
    letRec [("rev", reversing)] call

/-- `letrec foldr = fun f -> fun z -> fun Nil -> z | Cons(x, xs) -> f x (foldr f z xs)`
`in foldr (fun x -> fun acc -> x * x + acc) 0 [1, 2, 3]` -/
def foldrSumSquares : Example where
  name := "foldr_sum_squares"
  description := "a right fold with a curried combiner"
  expected := .value "14"
  build := do
    let start ← var "z"
    let f ← var "f"
    let x ← var "x"
    let called ← var "foldr"
    let again ← var "f"
    let startAgain ← var "z"
    let xs ← var "xs"
    let rest ← apply called [again, startAgain, xs]
    let step ← apply f [x, rest]
    let cases ← function [onNil start, onCons "x" "xs" step]
    let overStart ← lambda "z" cases
    let folding ← lambda "f" overStart
    let left ← var "x"
    let right ← var "x"
    let square ← binary left "*" right
    let accumulated ← var "acc"
    let sum ← binary square "+" accumulated
    let overAccumulated ← lambda "acc" sum
    let combine ← lambda "x" overAccumulated
    let foldName ← var "foldr"
    let zero ← number 0
    let items ← numbers [1, 2, 3]
    let call ← apply foldName [combine, zero, items]
    letRec [("foldr", folding)] call

/-- `letrec zipWith = fun f -> fun Nil -> (fun _ -> Nil)`
`| Cons(x, xs) -> fun Nil -> Nil | Cons(y, ys) -> Cons(f x y, zipWith f xs ys)`
`in zipWith (+) [1, 2, 3] [10, 20, 30]` -/
def zipWith : Example where
  name := "zip_with"
  description := "an operator passed as a function"
  expected := .value "[11, 22, 33]"
  build := do
    let empty ← nil
    let ignore ← function [⟨.wild, empty⟩]
    let innerEmpty ← nil
    let f ← var "f"
    let x ← var "x"
    let y ← var "y"
    let head ← apply f [x, y]
    let called ← var "zipWith"
    let again ← var "f"
    let xs ← var "xs"
    let ys ← var "ys"
    let tail ← apply called [again, xs, ys]
    let both ← cons head tail
    let second ← function [onNil innerEmpty, onCons "y" "ys" both]
    let first ← function [onNil ignore, onCons "x" "xs" second]
    let zipping ← lambda "f" first
    let zipName ← var "zipWith"
    let plus ← op "+"
    let left ← numbers [1, 2, 3]
    let right ← numbers [10, 20, 30]
    let call ← apply zipName [plus, left, right]
    letRec [("zipWith", zipping)] call

/-- `let swap = fun Pair(first, second) -> Pair(second, first) in swap (Pair(1, "one"))` -/
def swapPair : Example where
  name := "swap_pair"
  description := "destructuring a parameter"
  expected := .value "Pair(\"one\", 1)"
  build := do
    let first ← var "first"
    let second ← var "second"
    let swapped ← pair second first
    let swap ← function [⟨.constructor "Pair" [.bind "first", .bind "second"], swapped⟩]
    let swapName ← var "swap"
    let one ← number 1
    let word ← text "one"
    let argument ← pair one word
    let call ← app swapName argument
    letIn "swap" swap call

/-- `match Nil with Cons(h, t) -> h` -/
def nilAgainstCons : Example where
  name := "nil_against_cons"
  description := "a demand the value cannot satisfy"
  expected := .error "demand mismatch"
  build := do
    let empty ← nil
    let head ← var "h"
    matching empty [onCons "h" "t" head]

end Whence.Gallery
