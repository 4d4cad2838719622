import BuildScript.Text.Hex

/-!
# Properties of characters

A property gives every code point a value. Neighbours mostly share theirs, so a property is told by the
places where its value changes: each by its distance from the place before, with the value that holds
from there on. A value is found by walking along these places (`Property.value`).

A table of places is written in lines of words. The distances are hexadecimal; a value follows its
distance after a point, and a property that only holds or does not has no need to write it.
-/

namespace BuildScript.Unicode

/-- A property of characters, told by the places where its value changes. -/
structure Property (α : Type) where
  /-- The value at code point 0. -/
  first : α
  /-- The distance of each change from the one before, and the value from there on. -/
  changes : List (Nat × α)

/-- The words of a table in lines. -/
def tableWords (table : List String) : List Text :=
  table.flatMap fun line => Text.splitAt ' ' line.toList

namespace Property

variable {α : Type}

/-- The value `n` places on from where `current` holds, with the changes ahead. -/
def walk (current : α) : List (Nat × α) → Nat → α
  | [], _ => current
  | (distance, next) :: changes, n =>
    if n < distance then current else walk next changes (n - distance)

/-- The value of a character. -/
def value (p : Property α) (c : Char) : α := walk p.first p.changes c.toNat

/-- Each distance with a value; the values take turns. -/
def turns (next : Bool) : List Nat → List (Nat × Bool)
  | [] => []
  | distance :: distances => (distance, next) :: turns (!next) distances

/-- The property that begins and ends to hold, in turn, at the places of a table. -/
def ofDistances (table : List String) : Property Bool :=
  ⟨false, turns true ((tableWords table).filterMap Hex.number?)⟩

/-- The property that takes the values of a table at its places. -/
def ofTable (first : α) (value? : Text → Option α) (table : List String) : Property α :=
  ⟨first, (tableWords table).filterMap fun word => do
    let (distance, name) ← Text.cutAt '.' word
    pure (← Hex.number? distance, ← value? name)⟩

example : (ofDistances ["61 1a"]).value 'z' = true := by decide +kernel

example : (ofDistances ["61 1a"]).value '~' = false := by decide +kernel

end Property

end BuildScript.Unicode
