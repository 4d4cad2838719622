import BuildScript.Unicode.Property

/-!
# Joining

The sides on which a letter of a cursive script joins its neighbours: Unicode's `Joining_Type`
(Unicode 15.0). The table covers the characters that domain names hold.
-/

namespace BuildScript.Unicode

/-- How a character joins its neighbours. -/
inductive Joining where
  /-- Joins the characters before and after it. -/
  | dual
  /-- Joins the character after it. -/
  | onward
  /-- Joins the character before it. -/
  | back
  /-- Lets its neighbours join as if it was not there. -/
  | transparent
  /-- Joins no letter. -/
  | none
  deriving DecidableEq, Repr

namespace Joining

/-- The type that a letter stands for in the table. -/
def ofWord? (word : Text) : Option Joining :=
  match word with
  | ['D'] => some .dual
  | ['L'] => some .onward
  | ['R'] => some .back
  | ['T'] => some .transparent
  | ['U'] => some .none
  | _ => Option.none

/-- The joining types of all characters, from where to where. -/
def property : Property Joining :=
  .ofTable .none ofWord? [
    "300.T 71.U 112.T 8.U 106.T 2d.U 1.T 1.U 1.T 2.U 1.T 2.U 1.T 9.U 40.T b.U 5.D 1.U 1.R 4.D",
    "1.R 1.D 1.R 1.D 5.R 4.D d.U 1.D 7.R 1.D 2.T 15.U e.D 2.T 1.R 3.U 5.D f.R 12.D 26.R 1.D",
    "2.R 9.D 1.R 1.D 1.R 1.D 2.R 2.U 1.R 1.T 8.U 1.T 6.U 2.T 2.U 1.T 4.R 2.U a.D 3.U 2.D 1.U",
    "10.R 1.T 1.D 3.R 5.D 4.R 1.D 9.R 1.D 1.R 1.D 1.R 1.D 2.R 1.T 1d.R 1.D b.R 3.D f.R 2.D",
    "4.R 1.D 1.R 2.D 3.R 2.D 6.U 26.T b.U 19.D 21.T 9.U 9.T 1.U 18.T 4.U 1.T 9.U 1.T 3.U 1.T",
    "7.U 10.R 1.D 5.R 2.D 1.R 1.D a.R 1.D 1.R 3.T 5.U 2.D 1.U 1.D 4.U 1.R 1.D 1.R 1a.U 3.D",
    "1.U 2.D 5.R 1.U 9.T 8.D a.R 3.U 1.R 1.D 2.R 2.D 6.R 1.D f.U 1.T 39.U 37.T 1.U 1.T 1.U",
    "4.T 8.U 4.T 1.U 3.T f.U 2.T 2.U 1d.T 1.U 3a.T 1.U 4.T 6.U 6.T 1.U 14.T 4.U 18.T 5.U 39.T",
    "2.U 3.T 1b.U 14.T 2.U 3.T 1.U b.T 2.U 39.T 1.U 4.T 8.U 4.T 3.U 12.T 4.U 14.T 8.U 3a.T",
    "1.U 2.T 1.U 1.T 6.U 6.T a.U b.T 4.U 1c.T 1.U 3d.T 1.U c.T 3.U 30.T 1.U 3.T 1.U 37.T 1.U",
    "1.T 3.U 5.T 12.U a.T 4.U 1b.T 1.U 3a.T 1.U 2.T 1.U 6.T 1.U 5.T 9.U d.T 4.U 1a.T 2.U 39.T",
    "2.U 4.T 5.U 7.T 1.U 14.T 4.U 1b.T 1.U 48.T 5.U 3.T 6.U 59.T 1.U 2.T b.U 8.T 8.U 62.T 1.U",
    "2.T 9.U b.T 8.U 48.T 2.U 1b.T 1.U 1.T 1.U 1.T 1.U 37.T e.U 1.T 5.U 1.T 2.U 5.T 31.U 8.T",
    "1.U 66.T 4.U 1.T 6.U 1.T 2.U 2.T 2.U 19.T 2.U 4.T 3.U 10.T 4.U d.T 1.U 2.T 2.U 6.T 1.U",
    "f.T 1.U 2bf.T 3.U 3b2.T 3.U 1d.T 2.U 1e.T e.U 12.T e.U 37.T 7.U 8.T 1.U 2.T b.U 9.T 3.U",
    "27.D 1.U 18.D 60.U 5.T 2.D 22.T 1.D 6.U 70.T 3.U 4.T 2.U 9.T 1.U 6.T 7.U d7.T 2.U 2.T",
    "3.U 38.T 1.U 1.T 9.U 1.T 1.U 2.T 8.U 6.T d.U 30.T 1f.U 31.T 4.U 30.T 1.U 1.T 5.U 1.T 1.U",
    "5.T 1.U 28.T 9.U c.T 2.U 20.T 4.U 2.T 2.U 1.T 3.U 38.T 1.U 1.T 2.U 3.T 1.U 1.T 3.U 3a.T",
    "8.U 2.T 5.U 95.T 3.U 1.T d.U 1.T 7.U 4.T 1.U 6.T 1.U 3.T 2.U c6.T 41.U 2cf.T 34.U beb.T",
    "4.U 8c.T 1.U 60.T 20.U 22a.T 4.U 6b.T 4.U 75d2.T 4.U 1.T a.U 20.T 2.U 50.T 2.U 110.T 1.U",
    "3.T 1.U 4.T 1.U 19.T 2.U 5.T 4.U 10.D 32.L 1.U 51.T a.U 12.T 12.U d.T 1.U 26.T 8.U 19.T",
    "b.U 2e.T 3.U 30.T 1.U 2.T 4.U 2.T 2.U 27.T 1.U 43.T 6.U 2.T 2.U 2.T b.U 3.T 1.U 8.T 1.U",
    "2f.T 1.U 33.T 1.U 1.T 3.U 2.T 2.U 5.T 2.U 1.T 1.U 2a.T 2.U 8.T b.U e4.T 1.U 2.T 1.U 4.T",
    "3.U 4f2e.T 94.U 26e.T 25.U 3b8.T 83.U 60.T 1.U 95.T a.U 681.T f.U 28.T 8.U 80.D 5.R 1.U",
    "1.R 1.U 1.R 2.U 2.L 1.R 5.D 4.L 1.D 5.R 1.D 3.R 1.U 2.R 1.T 6.D 4.R 1.U 90.D 1.R 1.D 1.R",
    "3.D 3.R 1.D 2.R 1.D 1.R 2.D 1.R 8.U 10.R 4.D 2.U 151.L 1.D 21.R 1.D 1.T c.U 17b.T 2.U",
    "50.T 3.U 30.D 3.R 1.D 11.U 1.T b.D 3.R 1.U 1b.D 4.R 2.D c.T 4.U 2a.D 1.U 1.D 2.R 3.U 1.D",
    "1.R 2.D 2.R 1.D 2.U 1.D 1.R 2.D 1.U 4.R 1.D 1.L 15.U 21.T 1.U 36.T f.U 29.T 1.U 2.T 2.U",
    "a.T 3.U 31.T 4.U 2.T 2.U 7.T e.U 30.T 3.U 24.T 5.U 1.T 9.U 3d.T 1.U c.T 2.U 34.T 9.U a.T",
    "4.U 2.T 1.U 5f.T 3.U 2.T 1.U 1.T 2.U 6.T 1.U 2.T 3f.U 5f.T 1.U 3.T d.U 10.T 2.U 39.T 2.U",
    "3.T 1.U 25.T 1a.U b8.T 8.U 2.T 3.U 1.T 1.U 17.T 1.U 54.T 6.U 1.T 1.U 4.T 2.U 1.T 2.U",
    "ee.T 6.U 4.T 2.U 1.T 2.U 1b.T 24.U 33.T 8.U 2.T 1.U 1.T 2.U 6a.T 1.U 1.T 1.U 2.T 6.U 1.T",
    "1.U 65.T 3.U 2.T 4.U 1.T 9.U ff.T 9.U 1.T 2.U 100.T 2.U 1.T 1.U 4.T 1.U 90.T 8.U 4.T 1.U",
    "20.T a.U 28.T 6.U 2.T 4.U 8.T 9.U 1.T 6.U 2.T 3.U 2e.T d.U 1.T 2.U 196.T e.U 1.T 1.U",
    "52.T 17.U 1.T 7.U 1.T 2.U 1.T 4b.U 31.T 15.U 1.T 9.U 40.T 3.U 2.T 1.U 1.T 1.U 15b.T 2.U",
    "b.T 2.U 34.T 8.U 2.T 1.U 1.T 1.U 14fd.T 1.U 6.T 19.U 3690.T 5.U 3b.T 7.U 418.T 1.U 3f.T",
    "4.U 51.T c.U 4cad.T 2.U 1261.T 50.U 217.T 3.U 11.T 8.U 2.T 7.U 1e.T 4.U 94.T 3.U 7bb.T",
    "37.U 4.T 32.U 8.T 1.U e.T 1.U 16.T 465.U 100.T 100.U 30.T 7.U 177.T 12.U 2c.T 4.U 1fc.T",
    "4.U 3e0.T 52.D 22.T c.U"]

/-- How a character joins its neighbours. -/
def ofChar (c : Char) : Joining := property.value c

end Joining

end BuildScript.Unicode
