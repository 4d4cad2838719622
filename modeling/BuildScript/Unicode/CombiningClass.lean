import BuildScript.Unicode.Property

/-!
# Combining classes

Marks of different classes do not touch each other, so their order has no meaning: Unicode's
`Canonical_Combining_Class` (Unicode 15.0). The table covers the characters that domain names hold.
-/

namespace BuildScript.Unicode

/-- The combining classes of all characters, from where to where. -/
def combiningClasses : Property Nat :=
  .ofTable 0 Hex.number? [
    "300.e6 15.e8 1.dc 4.e8 1.d8 1.dc 5.ca 2.dc 4.ca 2.dc b.1 5.dc 4.e6 a.dc 3.e6 3.dc 3.e6",
    "3.dc 4.e6 1.e8 1.dc 2.e6 1.e9 1.ea 2.e9 1.ea 2.e9 1.e6 e.0 112.e6 5.0 109.dc 1.e6 4.dc",
    "1.e6 3.de 1.dc 1.e6 6.dc 6.e6 2.dc 1.e6 2.de 1.e4 1.e6 1.a 1.b 1.c 1.d 1.e 1.f 1.10 1.11",
    "1.12 1.13 2.14 1.15 1.16 1.0 1.17 1.0 1.18 1.19 1.0 1.e6 1.dc 1.0 1.12 9.0 40.e6 8.1e",
    "1.1f 1.20 1.0 30.1b 1.1c 1.1d 1.1e 1.1f 1.20 1.21 1.22 1.e6 2.dc 2.e6 5.dc 1.e6 2.dc 1.0",
    "10.23 1.0 65.e6 8.0 1.e6 4.dc 1.e6 1.0 2.e6 2.0 1.dc 1.e6 2.dc 1.0 23.24 1.0 1e.e6 1.dc",
    "1.e6 2.dc 1.e6 2.dc 3.e6 1.dc 2.e6 1.dc 1.e6 3.dc 1.e6 1.dc 1.e6 1.dc 1.e6 1.dc 1.e6 4.0",
    "9e.e6 7.dc 1.e6 1.0 9.dc 1.0 18.e6 4.0 1.e6 9.0 1.e6 3.0 1.e6 7.0 29.dc 5.0 3a.e6 1.dc",
    "3.e6 4.0 2a.e6 5.dc 5.e6 f.dc 1.e6 2.dc 1.e6 2.dc 1.e6 3.dc 3.1b 1.1c 1.1d 1.e6 3.dc",
    "1.e6 2.dc 2.e6 5.0 3c.7 1.0 10.9 1.0 3.e6 1.dc 1.e6 2.0 67.7 1.0 10.9 1.0 30.e6 3.0 3b.7",
    "2.0 f.9 4.0 6b.7 1.0 10.9 3.0 6c.7 1.0 10.9 8.0 78.9 3.0 6c.7 1.0 10.9 8.54 1.5b 2.0",
    "64.7 1.0 10.9 8.0 66.9 2.0 10.9 1.0 7c.9 5.0 69.67 2.9 5.0 9.6b 4.0 6c.76 2.9 1.0 d.7a",
    "4.0 4c.dc 2.0 1b.dc 1.0 1.dc 1.0 1.d8 1.0 37.81 1.82 2.84 6.82 4.0 2.82 2.e6 2.9 1.0",
    "1.e6 2.0 3e.dc 1.0 70.7 1.0 1.9 2.0 52.dc 1.0 2cf.e6 3.0 3b4.9 b.0 15.9 1.0 9d.9 1.0",
    "a.e6 3.0 c9.e4 1.0 8f.de 1.e6 1.dc 5.0 d7.e6 1.dc 1.0 47.9 1.0 14.e6 a.dc 1.0 30.e6 5.dc",
    "6.e6 2.dc 1.0 1.dc 2.e6 2.dc 2.e6 5.dc 1.e6 4.0 65.7 1.0 f.9 1.0 26.e6 1.dc 1.e6 7.0",
    "36.9 2.0 3a.7 1.0 b.9 a.0 3b.7 4.0 95.e6 3.0 1.1 1.dc 5.e6 2.dc 4.e6 1.0 1.1 7.0 4.dc",
    "1.0 6.e6 1.0 3.e6 2.0 c6.e6 2.dc 1.e6 7.dc 1.e6 2.ea 1.d6 1.dc 1.ca 1.e6 25.e8 1.e4 2.dc",
    "1.da 1.e6 1.e9 1.dc 1.e6 1.dc 2.0 2cf.e6 2.1 2.e6 4.1 3.e6 2.0 4.e6 1.0 3.1 2.e6 1.dc",
    "1.e6 1.1 2.dc 4.e6 14.0 beb.e6 4.0 8c.9 1.0 60.e6 20.0 22a.da 1.e4 1.e8 1.de 1.e0 2.0",
    "69.8 4.0 75d2.e6 1.0 4.e6 a.0 20.e6 2.0 50.e6 2.0 114.9 1.0 25.9 4.0 94.9 1.0 1b.e6 12.0",
    "39.dc 3.0 25.9 c.0 54.7 1.0 c.9 1.0 ef.e6 1.0 1.e6 2.dc 1.0 2.e6 2.0 5.e6 2.0 1.e6 1.0",
    "34.9 b.0 ec.9 3.0 4f2e.1a 94.0 26e.e6 7.dc 7.e6 17.0 3b8.dc 83.0 60.dc 1.0 95.e6 a.0",
    "68d.dc 1.0 1.e6 1.0 28.e6 1.1 1.dc 5.9 1.0 a5.e6 1.dc 5.0 239.e6 c.0 17b.e6 2.0 50.dc",
    "3.0 46.dc 2.e6 3.dc 1.e6 1.dc 4.0 31.e6 1.dc 1.e6 1.dc 1.0 c0.9 1.0 29.9 1.0 e.9 1.0",
    "39.9 1.7 1.0 45.e6 3.0 30.9 3.0 3d.7 1.0 4c.9 1.0 9.7 1.0 6a.9 1.7 1.0 b2.7 1.9 6.0 4b.7",
    "2.0 10.9 3.0 16.e6 1a.0 c2.9 1.0 3.7 1.0 17.e6 1.0 63.9 1.7 1.0 fb.9 1.7 1.0 7e.9 1.0",
    "76.9 1.7 1.0 73.9 5.0 109.9 1.7 1.0 102.9 2.0 4.7 1.0 9c.9 1.0 53.9 1.0 12.9 9.0 49.9",
    "1.0 1a5.9 1.0 102.7 1.0 1.9 2.0 51.9 1.0 1a9.9 2.0 4bad.1 5.0 3b.e6 7.0 4b9.6 2.0 4cac.1",
    "1.0 14c6.d8 2.1 3.0 3.e2 1.d8 d.dc 8.0 2.e6 5.dc 2.0 1e.e6 4.0 94.e6 3.0 dbb.e6 100.0",
    "30.e6 7.0 177.e6 12.0 2c.e6 4.0 1fc.e8 2.dc 1.e6 1.0 3e0.dc 52.0 22.e6 6.7 1.0"]

/-- The combining class of a character. Letters and other characters that begin something have 0. -/
def combiningClass (c : Char) : Nat := combiningClasses.value c

/-- Whether a character silences the vowel of a letter of an Indic script. -/
def isVirama (c : Char) : Bool := combiningClass c == 9

end BuildScript.Unicode
