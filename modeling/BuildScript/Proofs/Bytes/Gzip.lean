import BuildScript.Bytes.Gzip
import BuildScript.Proofs.Bytes.FixedCode

/-!
# Packed bytes are unpacked again

Each kind of block is read back, and the first byte tells which kind it is, so what is decompressed is what was
compressed (`decompress?_compress`), and a gzip member holds the bytes that were packed (`unpack?_pack`).
-/

namespace BuildScript

namespace Bytes

/-- A number below 2^16 is told by its two bytes. -/
theorem exists_ofWord {n : Nat} (h : n < 65536) :
    ∃ low high : UInt8, ofWord n = [low, high] ∧ low.toNat + high.toNat * 256 = n := by
  refine ⟨_, _, rfl, ?_⟩
  rw [UInt8.toNat_ofNat', UInt8.toNat_ofNat']
  omega

end Bytes

namespace Deflate

/-! ## Stored blocks -/

/-- A stored block is read, and what is behind it is read in turn unless it is the last one. -/
theorem readStored?_storedBlock {bytes : Bytes} (h : bytes.length ≤ 65535) (isLast : Bool) (rest : Bytes) :
    readStored? (storedBlock isLast bytes ++ rest) =
      if isLast then if rest = [] then some bytes else none
      else (readStored? rest).map (bytes ++ ·) := by
  obtain ⟨low, high, hword, hsize⟩ := Bytes.exists_ofWord (n := bytes.length) (by omega)
  obtain ⟨low', high', hword', hsize'⟩ := Bytes.exists_ofWord (n := 65535 - bytes.length) (by omega)
  have hblock : storedBlock isLast bytes ++ rest =
      (if isLast then 1 else 0) :: low :: high :: low' :: high' :: (bytes ++ rest) := by
    simp [storedBlock, hword, hword']
  rw [hblock, readStored?, hsize, hsize']
  cases isLast with
  | true =>
    by_cases hrest : rest = []
    · simp [hrest]
    · simp [hrest]
  | false => simp

theorem readStored?_storedBlocks {blocks : List Bytes} (h : ∀ bytes ∈ blocks, bytes.length ≤ 65535) :
    readStored? (storedBlocks blocks) = some blocks.flatten := by
  fun_induction storedBlocks blocks with
  | case1 =>
    have hempty : ([] : Bytes).length ≤ 65535 := Nat.zero_le _
    simpa using readStored?_storedBlock hempty true []
  | case2 bytes =>
    simpa using readStored?_storedBlock (h bytes List.mem_cons_self) true []
  | case3 bytes others hne ih =>
    obtain ⟨hbytes, hothers⟩ := List.forall_mem_cons.1 h
    rw [readStored?_storedBlock hbytes, ih hothers]
    rfl

theorem readStored?_stored (bytes : Bytes) : readStored? (stored bytes) = some bytes := by
  rw [stored, readStored?_storedBlocks fun chunk hchunk => (length_le_of_mem_chunks hchunk).2, flatten_chunks]

/-! ## Both kinds of blocks -/

theorem readFixed?_fixed (bytes : Bytes) : readFixed? (fixed bytes) = some bytes := by
  obtain ⟨zeros, hzeros, hbits⟩ := Bits.exists_ofBytes_toBytes (fixedMark ++ fixedBits (tokens bytes))
  have hfits : ∀ t ∈ tokens bytes, t.Fits := fun _ => fits_of_mem_tokens
  have htokens := fixedTokens?_fixedBits hfits (List.replicate zeros false)
  rw [readFixed?, fixed, hbits, List.append_assoc, List.drop_left, htokens]
  simp [hzeros, expand?_tokens]

/-- The first bits of the bytes are those of the first byte. -/
theorem take_ofNat_of_cons {first : UInt8} {rest : Bytes} {count : Nat} (h : count ≤ 8) :
    (Bits.ofNat 8 first.toNat).take count = (Bits.ofBytes (first :: rest)).take count := by
  rw [Bits.ofBytes, List.flatMap_cons, List.take_append_of_le_length (by rw [Bits.length_ofNat]; exact h)]

theorem decompress?_fixed (bytes : Bytes) : decompress? (fixed bytes) = some bytes := by
  obtain ⟨zeros, -, hbits⟩ := Bits.exists_ofBytes_toBytes (fixedMark ++ fixedBits (tokens bytes))
  have hread := readFixed?_fixed bytes
  cases hfixed : fixed bytes with
  | nil =>
    rw [← fixed, hfixed] at hbits
    simp [Bits.ofBytes, fixedMark] at hbits
  | cons first rest =>
    rw [← fixed, hfixed] at hbits
    rw [hfixed] at hread
    have hmark : fixedMark = (Bits.ofNat 8 first.toNat).take fixedMark.length := by
      rw [take_ofNat_of_cons (by decide), hbits, List.append_assoc, List.take_left]
    rw [decompress?, if_pos hmark, hread]

/-- Stored blocks do not begin as a block in the fixed code does. -/
theorem exists_stored_eq_cons (bytes : Bytes) :
    ∃ first rest, stored bytes = first :: rest ∧
      fixedMark ≠ (Bits.ofNat 8 first.toNat).take fixedMark.length := by
  have hmark : ∀ isLast : Bool, fixedMark ≠
      (Bits.ofNat 8 (if isLast then 1 else 0 : UInt8).toNat).take fixedMark.length := by decide
  rw [stored]
  cases chunks 65534 bytes using storedBlocks.induct with
  | case1 => exact ⟨_, _, rfl, hmark true⟩
  | case2 bytes => exact ⟨_, _, rfl, hmark true⟩
  | case3 bytes others hne =>
    rw [storedBlocks.eq_3 _ _ hne]
    exact ⟨_, _, rfl, hmark false⟩

/-- What is decompressed is what was compressed. -/
theorem decompress?_compress (bytes : Bytes) : decompress? (compress bytes) = some bytes := by
  simp only [compress]
  split
  · exact decompress?_fixed bytes
  · obtain ⟨first, rest, hstored, hmark⟩ := exists_stored_eq_cons bytes
    rw [hstored, decompress?, if_neg hmark, ← hstored, readStored?_stored]

end Deflate

namespace Gzip

theorem length_trailer (bytes : Bytes) : (trailer bytes).length = 8 := rfl

theorem pack_ne_nil (bytes : Bytes) : pack bytes ≠ [] := List.cons_ne_nil _ _

/-- A gzip member holds the bytes that were packed. -/
theorem unpack?_pack (bytes : Bytes) : unpack? (pack bytes) = some bytes := by
  have hprefix : header.isPrefixOf (pack bytes) = true :=
    List.isPrefixOf_iff_prefix.2 ⟨Deflate.compress bytes ++ trailer bytes, (List.append_assoc _ _ _).symm⟩
  have hbody : (pack bytes).drop header.length = Deflate.compress bytes ++ trailer bytes := by
    rw [pack, List.append_assoc, List.drop_left]
  have hsize : (Deflate.compress bytes ++ trailer bytes).length - 8 = (Deflate.compress bytes).length := by
    rw [List.length_append, length_trailer, Nat.add_sub_cancel]
  simp only [unpack?, hprefix, hbody, hsize, List.take_left, List.drop_left, Deflate.decompress?_compress,
    if_true]

end Gzip

end BuildScript
