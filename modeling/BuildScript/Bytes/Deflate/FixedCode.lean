import BuildScript.Bytes.Bits
import BuildScript.Bytes.Deflate.Token

/-!
# The fixed code

Tokens as bits. A symbol is a byte, the end of the block, or a class of lengths; a length symbol is
followed by the place in its class, by a class of distances and by the place in that. Symbols have codes
of seven to nine bits, which are fixed by the format.
-/

namespace BuildScript.Deflate

/-- The classes of lengths from symbol 257 on: the bits of the place in the class, and its least length. -/
def lengthClasses : List (Nat × Nat) :=
  [(0, 3), (0, 4), (0, 5), (0, 6), (0, 7), (0, 8), (0, 9), (0, 10), (1, 11), (1, 13), (1, 15),
    (1, 17), (2, 19), (2, 23), (2, 27), (2, 31), (3, 35), (3, 43), (3, 51), (3, 59), (4, 67),
    (4, 83), (4, 99), (4, 115), (5, 131), (5, 163), (5, 195), (5, 227), (0, 258)]

/-- The classes of distances: the bits of the place in the class, and its least distance. -/
def distanceClasses : List (Nat × Nat) :=
  [(0, 1), (0, 2), (0, 3), (0, 4), (1, 5), (1, 7), (2, 9), (2, 13), (3, 17), (3, 25), (4, 33),
    (4, 49), (5, 65), (5, 97), (6, 129), (6, 193), (7, 257), (7, 385), (8, 513), (8, 769),
    (9, 1025), (9, 1537), (10, 2049), (10, 3073), (11, 4097), (11, 6145), (12, 8193),
    (12, 12289), (13, 16385), (13, 24577)]

/-- The number of the class that a value falls into: the last one that begins at it or below. -/
def classOf (classes : List (Nat × Nat)) (value : Nat) : Nat :=
  (classes.takeWhile (·.2 ≤ value)).length - 1

/-- The code of a symbol. -/
def symbolBits (symbol : Nat) : List Bool :=
  if symbol < 144 then Bits.ofCode 8 (48 + symbol)
  else if symbol < 256 then Bits.ofCode 9 (400 + (symbol - 144))
  else if symbol < 280 then Bits.ofCode 7 (symbol - 256)
  else Bits.ofCode 8 (192 + (symbol - 280))

/-- The symbol that ends a block. -/
def endSymbol : Nat := 256

/-- A place in a class. -/
def placeBits (classes : List (Nat × Nat)) (number value : Nat) : List Bool :=
  match classes[number]? with
  | some (bits, least) => Bits.ofNat bits (value - least)
  | none => []

/-- The bits of a token. -/
def Token.bits : Token → List Bool
  | .byte b => symbolBits b.toNat
  | .copy length distance =>
    let lengthClass := classOf lengthClasses length
    let distanceClass := classOf distanceClasses distance
    symbolBits (257 + lengthClass) ++ placeBits lengthClasses lengthClass length ++
      Bits.ofCode 5 distanceClass ++ placeBits distanceClasses distanceClass distance

/-- Reads a code of `count` bits, the highest first. -/
def code? (count : Nat) (bits : List Bool) : Option (Nat × List Bool) :=
  if count ≤ bits.length then some (Bits.toNat (bits.take count).reverse, bits.drop count) else none

/-- Reads a symbol: seven bits tell how long its code is. -/
def symbol? (bits : List Bool) : Option (Nat × List Bool) :=
  match code? 7 bits with
  | none => none
  | some (code, rest) =>
    if code < 24 then some (256 + code, rest)
    else if code < 96 then (code? 8 bits).map fun (code, rest) => (code - 48, rest)
    else if code < 100 then (code? 8 bits).map fun (code, rest) => (280 + (code - 192), rest)
    else (code? 9 bits).map fun (code, rest) => (144 + (code - 400), rest)

/-- Reads the place in a class. -/
def place? (classes : List (Nat × Nat)) (number : Nat) (bits : List Bool) :
    Option (Nat × List Bool) :=
  match classes[number]? with
  | none => none
  | some (count, least) =>
    (Bits.number? count bits).map fun (place, rest) => (least + place, rest)

/-- Reads a token, or the end of the block. -/
def token? (bits : List Bool) : Option (Option Token × List Bool) :=
  match symbol? bits with
  | none => none
  | some (symbol, bits) =>
    if symbol < 256 then some (some (.byte (UInt8.ofNat symbol)), bits)
    else if symbol = endSymbol then some (none, bits)
    else do
      let (length, bits) ← place? lengthClasses (symbol - 257) bits
      let (number, bits) ← code? 5 bits
      let (distance, bits) ← place? distanceClasses number bits
      pure (some (.copy length distance), bits)

theorem code?_length {count n : Nat} {bits rest : List Bool}
    (h : code? count bits = some (n, rest)) : rest.length + count = bits.length := by
  unfold code? at h
  split at h
  · cases h
    simp only [List.length_drop]
    omega
  · cases h

theorem symbol?_length {n : Nat} {bits rest : List Bool} (h : symbol? bits = some (n, rest)) :
    rest.length < bits.length := by
  unfold symbol? at h
  split at h
  · cases h
  · next hc =>
    have := code?_length hc
    split at h
    · cases h; omega
    · split at h
      · obtain ⟨⟨c, r⟩, hr, heq⟩ := Option.map_eq_some_iff.1 h
        obtain ⟨-, rfl⟩ := Prod.mk.injEq .. ▸ heq
        have := code?_length hr
        omega
      · split at h
        · obtain ⟨⟨c, r⟩, hr, heq⟩ := Option.map_eq_some_iff.1 h
          obtain ⟨-, rfl⟩ := Prod.mk.injEq .. ▸ heq
          have := code?_length hr
          omega
        · obtain ⟨⟨c, r⟩, hr, heq⟩ := Option.map_eq_some_iff.1 h
          obtain ⟨-, rfl⟩ := Prod.mk.injEq .. ▸ heq
          have := code?_length hr
          omega

theorem place?_length {classes : List (Nat × Nat)} {number n : Nat} {bits rest : List Bool}
    (h : place? classes number bits = some (n, rest)) : rest.length ≤ bits.length := by
  unfold place? at h
  split at h
  · cases h
  · obtain ⟨⟨p, r⟩, hr, heq⟩ := Option.map_eq_some_iff.1 h
    cases heq
    have := Bits.number?_length hr
    omega

theorem token?_length {t : Option Token} {bits rest : List Bool}
    (h : token? bits = some (t, rest)) : rest.length < bits.length := by
  unfold token? at h
  split at h
  · cases h
  · next hs =>
    have := symbol?_length hs
    split at h
    · cases h; exact this
    · split at h
      · cases h; exact this
      · simp only [Option.bind_eq_bind, Option.bind_eq_some_iff, Option.pure_def,
          Option.some.injEq, Prod.mk.injEq] at h
        obtain ⟨⟨l, b1⟩, h1, ⟨k, b2⟩, h2, ⟨d, b3⟩, h3, -, rfl⟩ := h
        have h1 := place?_length h1
        have h2 := code?_length h2
        have h3 := place?_length h3
        dsimp only at h1 h2 h3 ⊢
        omega

/-- The bits of tokens up to and with the end of the block. -/
def fixedBits (ts : List Token) : List Bool :=
  ts.flatMap Token.bits ++ symbolBits endSymbol

/-- Reads tokens up to the end of the block. -/
def fixedTokens? (bits : List Bool) : Option (List Token × List Bool) :=
  match h : token? bits with
  | none => none
  | some (none, rest) => some ([], rest)
  | some (some t, rest) =>
    have := token?_length h
    (fixedTokens? rest).map fun (ts, rest) => (t :: ts, rest)
termination_by bits.length

end BuildScript.Deflate
