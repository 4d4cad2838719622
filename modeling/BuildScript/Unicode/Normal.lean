import BuildScript.Unicode.CombiningClass
import BuildScript.Unicode.Composition

/-!
# The composed form of a text

Texts that look the same may be written in several ways: a letter with its marks in one character or in
several, and marks of different classes in any order. The composed form (Unicode's normalization form
C) is one of them. Every character is taken apart, the marks behind each letter are sorted by class, and
then each letter takes in the marks that it makes one character with, unless something in between keeps
them apart.

The tables behind it cover the characters that domain names hold (`BuildScript.Unicode.Admitted`).
-/

namespace BuildScript.Unicode

/-- Takes a character apart, at most `depth` times. The second part of a pair has no parts. -/
def apart (depth : Nat) (c : Char) : Text :=
  match depth with
  | 0 => [c]
  | depth + 1 =>
    match parts? c with
    | some (first, second) => apart depth first ++ [second]
    | none => [c]

/-- Puts a character before a text in order: marks of smaller classes go ahead of it. -/
def insertByClass (c : Char) : Text → Text
  | [] => [c]
  | d :: rest =>
    if combiningClass d ≠ 0 ∧ combiningClass d < combiningClass c then d :: insertByClass c rest
    else c :: d :: rest

/-- A text taken apart, with its marks in order. No character has more than four parts. -/
def decomposed (t : Text) : Text := (t.flatMap (apart 3)).foldr insertByClass []

/-- Joins what follows a letter with it. The characters in `between` stay as they are, in reverse: they
keep a mark from the letter that is not of a greater class than the last of them. -/
def absorb (letter : Char) (between : Text) : Text → Text
  | [] => letter :: between.reverse
  | c :: rest =>
    let isKept := between.head?.any (combiningClass c ≤ combiningClass ·)
    match if isKept then none else compose? letter c with
    | some joined => absorb joined between rest
    | none =>
      if combiningClass c = 0 then letter :: between.reverse ++ absorb c [] rest
      else absorb letter (c :: between) rest

/-- Composes a text of characters without parts. Marks at its start have no letter to join. -/
def composed (t : Text) : Text :=
  let isMarked (c : Char) : Bool := combiningClass c ≠ 0
  match t.dropWhile isMarked with
  | [] => t
  | letter :: rest => t.takeWhile isMarked ++ absorb letter [] rest

/-- The composed form of a text. -/
def normal (t : Text) : Text := composed (decomposed t)

end BuildScript.Unicode
