import BuildScript.Unicode.Property

/-!
# Writing directions

The directions in which characters are written: Unicode's `Bidi_Class` (Unicode 15.0), as far as the
rule for domain names tells classes apart. The table covers the characters that domain names hold.
-/

namespace BuildScript.Unicode

/-- How a character takes part in the direction of a text. -/
inductive Direction where
  /-- Written from left to right. -/
  | left
  /-- Written from right to left: Hebrew, Arabic and related letters. -/
  | right
  /-- A digit as Arabic texts use them. -/
  | arabicNumber
  /-- A European digit. -/
  | europeanNumber
  /-- A mark that takes the direction of what it stands on. -/
  | nonspacing
  /-- Without a direction of its own. -/
  | neutral
  deriving DecidableEq, Repr

namespace Direction

/-- The direction that a letter stands for in the table. -/
def ofWord? (word : Text) : Option Direction :=
  match word with
  | ['L'] => some .left
  | ['R'] => some .right
  | ['A'] => some .arabicNumber
  | ['E'] => some .europeanNumber
  | ['M'] => some .nonspacing
  | ['O'] => some .neutral
  | _ => none

/-- The directions of all characters, from where to where. -/
def property : Property Direction :=
  .ofTable .neutral ofWord? [
    "30.E a.O 7.L 1a.O 6.L 1a.O 64.L 18.O 1.L 1c1.O 2.L 7.O e.L 2.O 1c.L 1.O 11.M 71.L 4.O",
    "2.L 7f.O 2.L 8b.M 8.L ff.O 7.M 2d.R 1.M 1.R 1.M 2.R 1.M 2.R 1.M 9.R 36.O 2.R 1.O 2.R 1.O",
    "1.R 1.O 2.M b.R 30.M 15.A a.O 1.A 2.R 3.M 1.R 65.M 8.O 1.M 6.R 2.M 2.O 1.M 4.R 2.E a.R",
    "17.M 1.R 1e.M 1d.R 59.M b.R 3a.M 9.R 2.O 4.R 3.M 1.R 18.M 4.R 1.M 9.R 1.M 3.R 1.M 7.R",
    "29.M 5.R 3a.M 8.R 2a.M 39.L 37.M 1.L 1.M 1.L 4.M 8.L 4.M 1.L 3.M f.L 2.M 2.L 1d.M 1.L",
    "3a.M 1.L 4.M 6.L 6.M 1.L 14.M 4.L c.O 2.L 7.O 1.L 2.M 5.L 39.M 2.L 3.M 1b.L 14.M 2.L 3.M",
    "1.L b.M 2.L 39.M 1.L 4.M 8.L 4.M 3.L 12.M 4.L b.O 8.L 1.M 8.L 3a.M 1.L 2.M 1.L 1.M 6.L",
    "6.M a.L b.M 4.L 1c.M 1.L 3d.M 1.L c.M 3.L 23.O d.M 1.L 3.M 1.L 37.M 1.L 1.M 3.L 5.M 12.L",
    "a.M 4.L 12.O 7.L 2.M 1.L 3a.M 1.L f.M 9.L d.M 4.L 1a.M 2.L 39.M 2.L 4.M 5.L 7.M 1.L 14.M",
    "4.L 1b.M 1.L 48.M 5.L 3.M 6.L 59.M 1.L 2.M b.O 1.L 7.M 8.L 62.M 1.L 2.M 9.L b.M 8.L 48.M",
    "2.L 1b.M 1.L 1.M 1.L 1.M 1.O 4.L 33.M e.L 1.M 5.L 1.M 2.L 5.M 31.L 8.M 1.L 66.M 4.L 1.M",
    "6.L 1.M 2.L 2.M 2.L 19.M 2.L 4.M 3.L 10.M 4.L d.M 1.L 2.M 2.L 6.M 1.L f.M 1.L 2bf.M 3.L",
    "30.O 10.L 60.O 1.L 29a.O 5.L 72.M 3.L 1d.M 2.L 1e.M e.L 12.M e.L 37.M 7.L 8.M 1.L 2.M",
    "b.L 7.O 1.L 1.M 3.L 10.O 20.L 75.M 2.L 22.M 1.L 76.M 3.L 4.M 2.L 9.M 1.L 6.M 7.O 6.L",
    "98.O 22.L 17.M 2.L 2.M 3.L 38.M 1.L 1.M 9.L 1.M 1.L 2.M 8.L 6.M d.L 30.M 1f.L 31.M 4.L",
    "30.M 1.L 1.M 5.L 1.M 1.L 5.M 1.L 28.M 9.L c.M 2.L 20.M 4.L 2.M 2.L 1.M 3.L 38.M 1.L 1.M",
    "2.L 3.M 1.L 1.M 3.L 3a.M 8.L 2.M 5.L 95.M 3.L 1.M d.L 1.M 7.L 4.M 1.L 6.M 1.L 3.M 2.L",
    "c6.M 41.L 20b.O c4.M 34.O 4a.L 3c.O 1ac.L 45.O 1a.L 1.O 91.L 19.O 26c.L 1.O 153.L 100.O",
    "296.L 1.O 99.L b5.O 7.L 3.M 4.L 6.O 7.L 7f.M 1.L 60.M 20.O 205.L 3.O 19.L 9.M 4.L 2.O",
    "1.L 6.O 4.L 2.O 4.L 58.M 4.L 3.O 1.L 5a.O 1.L c4.O 24.L 1bdc.O 40.L 5690.O 40.L 13d.O",
    "3.L 5f.M 4.O 1.M a.O 3.L 1d.M 2.L 50.M 2.L e.O 23.L 65.O 1.L 79.M 1.L 3.M 1.L 4.M 1.L",
    "19.M 2.L 1.O 4.M 4.L 8.O 8.L 34.O c.L 44.M a.L 12.M 12.L d.M 1.L 26.M 8.L 19.M b.L 2e.M",
    "3.L 30.M 1.L 2.M 4.L 2.M 2.L 27.M 1.L 43.M 6.L 2.M 2.L 2.M b.L 3.M 1.L 8.M 1.L 2f.M 1.L",
    "33.M 1.L 1.M 3.L 2.M 2.L 5.M 2.L 1.M 1.L 2a.M 2.L 8.M b.L 69.O 56.L 25.M 1.L 2.M 1.L 4.M",
    "3.L 4f2e.M 94.R 18c.O 52.R 3f.O 51.M 25.O 2e.R 18d.L 101.O 1.L 3e.O 4d.L 3.O 40.L 2d.M",
    "83.L 60.M 1.E 1f.L 76.M a.L 480.R 11f.O 1.R e1.M f.R 28.M 8.R a5.M 6.R 4e.O 7.R 1e4.M",
    "c.A 10.R 120.A 20.R 2b.M 2.R 50.M 3.R 46.M b.R 31.M 4.R 7a.L 1.M 1.L 36.M f.L b.O 14.L",
    "a.M 1.L 2.M 2.L a.M 3.L 31.M 4.L 2.M 2.L 7.M e.L 30.M 3.L 24.M 5.L 1.M 9.L 3d.M 1.L c.M",
    "2.L 34.M 9.L a.M 4.L 2.M 1.L 5f.M 3.L 2.M 1.L 1.M 2.L 6.M 1.L 2.M 3f.L 5f.M 1.L 3.M d.L",
    "10.M 2.L 39.M 2.L 3.M 1.L 25.M 1a.L b8.M 8.L 2.M 3.L 1.M 1.L 17.M 1.L 54.M 6.L 1.M 1.L",
    "4.M 2.L 1.M 2.L ee.M 6.L 4.M 2.L 1.M 2.L 1b.M 24.L 33.M 8.L 2.M 1.L 1.M 2.L 1f.O 20.L",
    "2b.M 1.L 1.M 1.L 2.M 6.L 1.M 1.L 65.M 3.L 2.M 4.L 1.M 9.L ff.M 9.L 1.M 2.L 100.M 2.L 1.M",
    "1.L 4.M 1.L 90.M 8.L 4.M 1.L 20.M 6.L 2.M 2.L 28.M 6.L 2.M 4.L 8.M 9.L 1.M 6.L 2.M 3.L",
    "2e.M d.L 1.M 2.L 196.M e.L 54.M 17.L 1.M 7.L 1.M 2.L 1.M 4b.L 31.M 15.L 1.M 9.L 40.M 3.L",
    "2.M 1.L 1.M 1.L 15b.M 2.L b.M 2.L 34.M 8.L 2.M 1.L 1.M 1.L 92.O 2a.L 1441.M 1.L 6.M 19.L",
    "3690.M 5.L 3b.M 7.L 418.M 1.L 3f.M 4.L 4f.O 1.L 1.M c.L 4cad.M 2.L 1261.M 50.L 217.M 3.L",
    "11.M 8.L 2.M 7.L 1e.M 4.L 3b.O 59.M 3.O 7b.L 40.O 60.L 6a0.M 37.L 4.M 32.L 8.M 1.L e.M",
    "1.L 16.M 465.L 100.M 100.L 30.M 7.L 177.M 12.L 2c.M 4.L f.O 1d1.L 1c.M 4.L 310.R d0.M",
    "52.R 22.M 7.R 5a5.O 260.L 1d.O 3.L 3d.O 39.L 7a.O 478.L 4.O 9b.L 4.O 137.L 4e.O 154.L",
    "c.O 29.L 7.O 2e.L 1.O 7.L 8.O e.L 4.O 9.L 7.O db.L"]

/-- The direction of a character. -/
def ofChar (c : Char) : Direction := property.value c

end Direction

end BuildScript.Unicode
