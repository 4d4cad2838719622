import Mathlib.Data.List.Chain
import BuildScript.Bytes.Deflate.FixedCode
import BuildScript.Proofs.Bytes.Repetitions

/-!
# The fixed code is read back

Numbers, codes and bytes are read from the bits that they were written as, whatever follows them, and so are
symbols, tokens, and all tokens of a block (`fixedTokens?_fixedBits`).

The classes of lengths and distances cover their ranges without a gap: each class ends where the next one begins
or behind it (`Covers`). That is all that reading a place in a class needs (`place?_placeBits`).
-/

namespace BuildScript

namespace Bits

theorem toNat_lt (bits : List Bool) : toNat bits < Nat.pow 2 bits.length := by
  induction bits with
  | nil => exact Nat.one_pos
  | cons b rest ih =>
    have hpow : Nat.pow 2 (b :: rest).length = 2 * Nat.pow 2 rest.length := Nat.mul_comm _ _
    have hbit : b.toNat ≤ 1 := b.toNat_le
    rw [toNat, hpow]
    omega

/-- A number is written as the bits that it was read from, filled up with zeros. -/
theorem ofNat_toNat {count : Nat} {bits : List Bool} (h : bits.length ≤ count) :
    ofNat count (toNat bits) = bits ++ List.replicate (count - bits.length) false := by
  induction count generalizing bits with
  | zero =>
    rw [List.eq_nil_of_length_eq_zero (Nat.le_zero.1 h)]
    rfl
  | succ count ih =>
    cases bits with
    | nil =>
      have hzeros : ofNat count 0 = List.replicate count false := by
        simpa [toNat] using ih (List.length_nil.trans_le (Nat.zero_le count))
      simp [ofNat, toNat, hzeros, List.replicate_succ]
    | cons b rest =>
      have hbit : ((b.toNat + 2 * toNat rest) % 2 == 1) = b := by cases b <;> simp [Nat.add_mod]
      have hrest : (b.toNat + 2 * toNat rest) / 2 = toNat rest := by
        have hbit : b.toNat ≤ 1 := b.toNat_le
        omega
      rw [toNat, ofNat, hbit, hrest, ih (Nat.le_of_succ_le_succ h)]
      simp

/-- Bits that were put into bytes are in these bytes, with zeros behind them that fill up the last byte. -/
theorem exists_ofBytes_toBytes (bits : List Bool) :
    ∃ zeros, zeros < 8 ∧ ofBytes (toBytes bits) = bits ++ List.replicate zeros false := by
  fun_induction toBytes bits with
  | case1 => exact ⟨0, by omega, rfl⟩
  | case2 b rest ih =>
    have hlength : (b :: rest.take 7).length ≤ 8 := Nat.succ_le_succ (List.length_take_le 7 rest)
    have hbyte : (UInt8.ofNat (toNat (b :: rest.take 7))).toNat = toNat (b :: rest.take 7) := by
      have hlt := toNat_lt (b :: rest.take 7)
      have hpow : Nat.pow 2 (b :: rest.take 7).length ≤ 256 := Nat.pow_le_pow_right (n := 2) (by omega) hlength
      rw [UInt8.toNat_ofNat']
      omega
    have hfirst : ∀ bytes, ofBytes (UInt8.ofNat (toNat (b :: rest.take 7)) :: bytes) =
        b :: rest.take 7 ++ List.replicate (8 - (b :: rest.take 7).length) false ++ ofBytes bytes := by
      intro bytes
      rw [ofBytes, List.flatMap_cons, hbyte, ofNat_toNat hlength]
      rfl
    rw [hfirst]
    -- Only the last byte is filled up.
    by_cases hlast : rest.length < 7
    · refine ⟨8 - (b :: rest.take 7).length, by simp only [List.length_cons]; omega, ?_⟩
      rw [List.drop_eq_nil_of_le (by omega), List.take_of_length_le (by omega), toBytes]
      simp [ofBytes]
    · obtain ⟨zeros, hzeros, hrest⟩ := ih
      refine ⟨zeros, hzeros, ?_⟩
      have hfull : 8 - (b :: rest.take 7).length = 0 := by
        simp only [List.length_cons, List.length_take]
        omega
      rw [hfull, hrest, List.replicate_zero, List.append_nil, ← List.append_assoc, List.cons_append,
        List.take_append_drop]

theorem number?_ofNat {count n : Nat} (h : n < Nat.pow 2 count) (rest : List Bool) :
    number? count (ofNat count n ++ rest) = some (n, rest) := by
  have hlength := length_ofNat count n
  rw [number?, if_pos (by simp [hlength]), List.take_left' hlength, List.drop_left' hlength, toNat_ofNat,
    Nat.mod_eq_of_lt h]

theorem length_ofCode (count n : Nat) : (ofCode count n).length = count := by
  rw [ofCode, List.length_reverse, length_ofNat]

/-- The last bit of a code is the lowest one. -/
theorem ofCode_succ (count n : Nat) : ofCode (count + 1) n = ofCode count (n / 2) ++ [n % 2 == 1] := by
  rw [ofCode, ofNat, List.reverse_cons, ofCode]

end Bits

namespace Deflate

/-! ## Codes of symbols -/

theorem code?_ofCode {count n : Nat} (h : n < Nat.pow 2 count) (rest : List Bool) :
    code? count (Bits.ofCode count n ++ rest) = some (n, rest) := by
  have hlength := Bits.length_ofCode count n
  rw [code?, if_pos (by simp [hlength]), List.take_left' hlength, List.drop_left' hlength, Bits.ofCode,
    List.reverse_reverse, Bits.toNat_ofNat, Nat.mod_eq_of_lt h]

/-- The first bits of a code are the code of the number without its last bit. -/
theorem code?_ofCode_succ {count n : Nat} (h : n / 2 < Nat.pow 2 count) (rest : List Bool) :
    code? count (Bits.ofCode (count + 1) n ++ rest) = some (n / 2, (n % 2 == 1) :: rest) := by
  rw [Bits.ofCode_succ, List.append_assoc, code?_ofCode h]
  rfl

/-- A symbol is read from its code: its first seven bits tell which of the four kinds of codes it has. -/
theorem symbol?_symbolBits {symbol : Nat} (h : symbol < 288) (rest : List Bool) :
    symbol? (symbolBits symbol ++ rest) = some (symbol, rest) := by
  have height {n : Nat} (hn : n < 256) : code? 7 (Bits.ofCode 8 n ++ rest) = some (n / 2, (n % 2 == 1) :: rest) :=
    code?_ofCode_succ (by change _ < 128; omega) rest
  have hnine {n : Nat} (hn : n < 512) :
      code? 7 (Bits.ofCode 9 n ++ rest) = some (n / 2 / 2, (n / 2 % 2 == 1) :: (n % 2 == 1) :: rest) := by
    rw [Bits.ofCode_succ, List.append_assoc, code?_ofCode_succ (by change _ < 128; omega)]
    rfl
  unfold symbolBits
  split
  · rw [symbol?, height (by omega)]
    simp only
    rw [if_neg (by omega), if_pos (by omega), code?_ofCode (by change _ < 256; omega), Option.map_some,
      Nat.add_sub_cancel_left]
  · split
    · rw [symbol?, hnine (by omega)]
      simp only
      rw [if_neg (by omega), if_neg (by omega), if_neg (by omega), code?_ofCode (by change _ < 512; omega),
        Option.map_some, Nat.add_sub_cancel_left, Nat.add_sub_cancel' (by omega)]
    · split
      · rw [symbol?, code?_ofCode (by change _ < 128; omega)]
        simp only
        rw [if_pos (by omega), Nat.add_sub_cancel' (by omega)]
      · rw [symbol?, height (by omega)]
        simp only
        rw [if_neg (by omega), if_neg (by omega), if_pos (by omega), code?_ofCode (by change _ < 256; omega),
          Option.map_some, Nat.add_sub_cancel_left, Nat.add_sub_cancel' (by omega)]

/-! ## Places in classes -/

/-- Whether classes cover all values from the least one of the first class to `last`. -/
def Covers (last : Nat) : List (Nat × Nat) → Prop
  | [] => False
  | [p] => last < p.2 + Nat.pow 2 p.1
  | p :: q :: rest => q.2 ≤ p.2 + Nat.pow 2 p.1 ∧ Covers last (q :: rest)

instance (last : Nat) : (classes : List (Nat × Nat)) → Decidable (Covers last classes)
  | [] => inferInstanceAs (Decidable False)
  | [p] => inferInstanceAs (Decidable (last < p.2 + Nat.pow 2 p.1))
  | p :: q :: rest =>
    have := instDecidableCovers last (q :: rest)
    inferInstanceAs (Decidable (q.2 ≤ p.2 + Nat.pow 2 p.1 ∧ Covers last (q :: rest)))

theorem classOf_cons {value : Nat} {p : Nat × Nat} (h : p.2 ≤ value) (rest : List (Nat × Nat)) :
    classOf (p :: rest) value = (rest.takeWhile (·.2 ≤ value)).length := by
  rw [classOf, List.takeWhile_cons, if_pos (by simpa using h), List.length_cons, Nat.add_sub_cancel]

/-- A value falls into its class. -/
theorem exists_class {last value : Nat} {p : Nat × Nat} {rest : List (Nat × Nat)} (h : Covers last (p :: rest))
    (hfirst : p.2 ≤ value) (hlast : value ≤ last) :
    ∃ q, (p :: rest)[classOf (p :: rest) value]? = some q ∧ q.2 ≤ value ∧ value < q.2 + Nat.pow 2 q.1 := by
  rw [classOf_cons hfirst]
  induction rest generalizing p with
  | nil => exact ⟨p, rfl, hfirst, Nat.lt_of_le_of_lt hlast h⟩
  | cons q rest ih =>
    obtain ⟨hnext, hrest⟩ := h
    rw [List.takeWhile_cons]
    split
    · next hq =>
      rw [List.length_cons, List.getElem?_cons_succ]
      exact ih hrest (of_decide_eq_true hq)
    · next hq => exact ⟨p, rfl, hfirst, by simp at hq; omega⟩

theorem place?_placeBits {last value : Nat} {p : Nat × Nat} {others : List (Nat × Nat)}
    (h : Covers last (p :: others)) (hfirst : p.2 ≤ value) (hlast : value ≤ last) (rest : List Bool) :
    place? (p :: others) (classOf (p :: others) value)
        (placeBits (p :: others) (classOf (p :: others) value) value ++ rest) = some (value, rest) := by
  obtain ⟨⟨count, least⟩, hclass, hleast, hbound⟩ := exists_class h hfirst hlast
  simp only at hleast hbound
  rw [place?, placeBits, hclass]
  simp only
  rw [Bits.number?_ofNat (by omega), Option.map_some]
  congr 2
  omega

theorem classOf_lt {classes : List (Nat × Nat)} (h : classes ≠ []) (value : Nat) :
    classOf classes value < classes.length := by
  have hlength : (classes.takeWhile (·.2 ≤ value)).length ≤ classes.length :=
    (List.takeWhile_prefix _).length_le
  have hpos := List.length_pos_of_ne_nil h
  rw [classOf]
  omega

/-! ## Tokens -/

theorem token?_bits {t : Token} (h : t.Fits) (rest : List Bool) :
    token? (t.bits ++ rest) = some (some t, rest) := by
  cases t with
  | byte b =>
    have hbyte := b.toNat_lt
    rw [Token.bits, token?, symbol?_symbolBits (by omega)]
    simp only
    rw [if_pos (by omega), UInt8.ofNat_toNat]
  | copy length distance =>
    obtain ⟨hshort, hlong, hnear, hfar⟩ := h
    have hlengths : Covers longestStretch lengthClasses := by decide
    have hdistances : Covers 32768 distanceClasses := by decide
    have hlengthClass : classOf lengthClasses length < 29 := classOf_lt (by decide) length
    have hdistanceClass : classOf distanceClasses distance < 30 := classOf_lt (by decide) distance
    have hwindow : window ≤ 32768 := by decide
    have hfive : classOf distanceClasses distance < Nat.pow 2 5 := by
      change _ < 32
      omega
    have hend : ¬257 + classOf lengthClasses length = endSymbol := by
      rw [endSymbol]
      omega
    rw [Token.bits, token?]
    simp only [List.append_assoc]
    rw [symbol?_symbolBits (by omega)]
    simp only
    rw [if_neg (by omega), if_neg hend, Nat.add_sub_cancel_left, lengthClasses,
      place?_placeBits hlengths hshort hlong, Option.bind_eq_bind, Option.bind_some]
    simp only
    rw [code?_ofCode hfive, Option.bind_some]
    simp only
    rw [distanceClasses, place?_placeBits hdistances hnear (by omega)]
    rfl

theorem token?_endSymbol (rest : List Bool) : token? (symbolBits endSymbol ++ rest) = some (none, rest) := by
  rw [token?, symbol?_symbolBits (by decide)]
  rfl

/-- The tokens of a block are read up to its end. -/
theorem fixedTokens?_fixedBits {ts : List Token} (h : ∀ t ∈ ts, t.Fits) (rest : List Bool) :
    fixedTokens? (fixedBits ts ++ rest) = some (ts, rest) := by
  induction ts with
  | nil =>
    have hend : token? (fixedBits [] ++ rest) = some (none, rest) := token?_endSymbol rest
    rw [fixedTokens?]
    split
    · next htoken => cases hend.symm.trans htoken
    · next htoken =>
      cases hend.symm.trans htoken
      rfl
    · next htoken => cases hend.symm.trans htoken
  | cons t ts ih =>
    obtain ⟨ht, hts⟩ := List.forall_mem_cons.1 h
    have hbits : fixedBits (t :: ts) ++ rest = t.bits ++ (fixedBits ts ++ rest) := by simp [fixedBits]
    have htoken := token?_bits ht (fixedBits ts ++ rest)
    rw [hbits, fixedTokens?]
    split
    · next hread => cases htoken.symm.trans hread
    · next hread => cases htoken.symm.trans hread
    · next hread =>
      cases htoken.symm.trans hread
      rw [ih hts, Option.map_some]

end Deflate

end BuildScript
