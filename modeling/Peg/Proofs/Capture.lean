import Peg.Capture

/-!
# Captures of ranges

A capture says which range it was made of, as long as the offsets fit into its halves. In particular
no such capture is the word that is set aside for "nothing was captured".

The word of a capture is put together by shifting and masking: the low half is taken without its sign,
since the sign would spill into the high half (`Peg.Capture.word_pack`), and each half is read off with
its own sign (`Peg.Capture.start_eq_toInt32`, `Peg.Capture.stop_eq_toInt32`). So the words are the pairs
of halves, one for one, and those of ranges are all different (`Peg.Capture.codec_exact`).
-/

namespace Peg.Capture

/-- An offset that fits is what its half stands for. -/
theorem offset_ofNat {n : Nat} (h : n ≤ maxOffset) : offset (Int32.ofNat n) = n := by
  have hlt : n < 2 ^ 31 := Nat.lt_of_le_of_lt h (by decide)
  have hmod : (BitVec.ofNat 32 n).toNat = n := by
    rw [BitVec.toNat_ofNat, Nat.mod_eq_of_lt (by omega)]
  have hmsb : (BitVec.ofNat 32 n).msb = false := by
    rw [BitVec.msb_eq_false_iff_two_mul_lt, hmod]
    omega
  rw [offset, Int32.toBitVec_ofNat', BitVec.signExtend_eq_setWidth_of_msb_false hmsb,
    BitVec.toNat_setWidth, hmod, Nat.mod_eq_of_lt (by omega)]

/-- An offset that fits is its half, read as a signed number. -/
theorem toInt_ofNat {n : Nat} (h : n ≤ maxOffset) : (Int32.ofNat n).toInt = n :=
  Int32.toInt_ofNat_of_lt (Nat.lt_of_le_of_lt h (by decide))

@[simp]
theorem start_ofRange (start stop : Nat) : (ofRange start stop).start = Int32.ofNat start :=
  start_pack _ _

@[simp]
theorem stop_ofRange (start stop : Nat) : (ofRange start stop).stop = Int32.ofNat stop :=
  stop_pack _ _

/-- The word that is set aside is no capture of a range. -/
theorem isEmpty_ofRange {start stop : Nat} (h : start ≤ maxOffset) :
    (ofRange start stop).isEmpty = false := by
  -- the start would be as far past the end of any input as a negative half is
  rw [isEmpty, beq_eq_false_iff_ne]
  intro heq
  have hhalf : offset (ofRange start stop).start = offset empty.start := by rw [heq]
  rw [start_ofRange, offset_ofNat h, empty, start_pack] at hhalf
  have hfar : maxOffset < offset (-1) := by decide
  omega

/-- **A capture says which range it was made of.** -/
theorem range?_ofRange {start stop : Nat} (h : start ≤ maxOffset) (h' : stop ≤ maxOffset) :
    (ofRange start stop).range? = some (start, stop) := by
  rw [range?, isEmpty_ofRange h, start_ofRange, stop_ofRange, offset_ofNat h, offset_ofNat h']
  rfl

/-! ### Words bit by bit -/

/-- Of two halves put together, the high one is shifted up, its sign with it, and the low one is taken
without its sign. -/
theorem append_eq_or (x y : BitVec 32) :
    x ++ y = (x.signExtend 64 <<< 32 ||| y.setWidth 64 : BitVec 64) := by
  ext i hi
  rw [BitVec.getElem_append, BitVec.getElem_or, BitVec.getElem_shiftLeft]
  by_cases hlow : i < 32
  · simp [hlow]
  · have hhigh : i - 32 < 32 := by omega
    simp [hlow, hhigh, BitVec.getElem_signExtend, BitVec.getLsbD_of_ge _ _ (Nat.le_of_not_lt hlow)]

theorem extractLsb'_low (x : BitVec 64) : x.extractLsb' 0 32 = x.signExtend 32 := by
  rw [BitVec.signExtend_eq_setWidth_of_le x (by omega), BitVec.setWidth_eq_extractLsb' (by omega)]

/-- The sign that a shift brings in is cut off with the upper half. -/
theorem extractLsb'_high (x : BitVec 64) :
    x.extractLsb' 32 32 = (x.sshiftRight 32).signExtend 32 := by
  ext i hi
  have hword : i < 64 := by omega
  have hhigh : 32 + i < 64 := by omega
  simp [BitVec.getElem_extractLsb', BitVec.getElem_signExtend, BitVec.getElem_sshiftRight, hword,
    hhigh]

/-- How far a word is shifted is taken modulo its width, and half of that is less. -/
theorem smod_half : (Int64.toBitVec 32).smod 64 = 32#64 := by decide

/-- **The word of a capture**, its high half shifted up and its low half without its sign. -/
theorem word_pack (start stop : Int32) : (pack start stop).word =
    stop.toInt64 <<< 32 ||| start.toUInt32.toUInt64.toInt64 := by
  apply Int64.toBitVec.inj
  rw [Int64.toBitVec_or, Int64.toBitVec_shiftLeft, smod_half]
  exact append_eq_or _ _

theorem start_eq_toInt32 (c : Capture) : c.start = c.word.toInt32 :=
  Int32.toBitVec.inj (extractLsb'_low _)

theorem stop_eq_toInt32 (c : Capture) : c.stop = (c.word >>> 32).toInt32 := by
  apply Int32.toBitVec.inj
  rw [Int64.toBitVec_toInt32, Int64.toBitVec_shiftRight, smod_half]
  exact extractLsb'_high _

/-! ### Words and halves -/

/-- Only one pair of halves is set aside. -/
theorem isEmpty_iff {c : Capture} : c.isEmpty = true ↔ c.start = -1 ∧ c.stop = -1 := by
  rw [isEmpty, beq_iff_eq]
  constructor
  · rintro rfl
    exact ⟨start_pack _ _, stop_pack _ _⟩
  · rintro ⟨hstart, hstop⟩
    rw [← pack_start_stop c, hstart, hstop, empty]

/-- Ranges whose captures are the same word are the same. -/
theorem range_eq_of_word_eq {start stop start' stop' : Nat} (h : start ≤ maxOffset)
    (h' : stop ≤ maxOffset) (hs : start' ≤ maxOffset) (hs' : stop' ≤ maxOffset)
    (hword : (ofRange start stop).word = (ofRange start' stop').word) :
    start = start' ∧ stop = stop' := by
  have hcapture : ofRange start stop = ofRange start' stop' := congrArg mk hword
  have hrange := range?_ofRange h h'
  rw [hcapture, range?_ofRange hs hs'] at hrange
  simpa [eq_comm] using hrange

/-- **Words and pairs of halves are the same thing**, and one of them is set aside. Packing shifts the
stop up and puts the start below it without its sign, and the halves are read off with their signs. Each
undoes the other, and what is set aside is the pair of halves that are both `-1`. So offsets that fit
give a capture that is not set aside, that says which range it is of and how long that is, and whose word
no other range has. -/
theorem codec_exact :
    (∀ start stop, (pack start stop).word =
      stop.toInt64 <<< 32 ||| start.toUInt32.toUInt64.toInt64) ∧
    (∀ c : Capture, c.start = c.word.toInt32 ∧ c.stop = (c.word >>> 32).toInt32) ∧
    (∀ start stop, (pack start stop).start = start ∧ (pack start stop).stop = stop) ∧
    (∀ c : Capture, pack c.start c.stop = c) ∧
    (∀ c : Capture, c.isEmpty = true ↔ c.start = -1 ∧ c.stop = -1) ∧
    ∀ start stop, start ≤ stop → stop ≤ maxOffset →
      (ofRange start stop).isEmpty = false ∧ ofRange start stop ≠ empty ∧
      (ofRange start stop).range? = some (start, stop) ∧
      (ofRange start stop).length = stop - start ∧
      ∀ start' stop', start' ≤ stop' → stop' ≤ maxOffset →
        (ofRange start stop).word = (ofRange start' stop').word → start = start' ∧ stop = stop' := by
  refine ⟨word_pack, fun c => ⟨start_eq_toInt32 c, stop_eq_toInt32 c⟩,
    fun start stop => ⟨start_pack start stop, stop_pack start stop⟩, pack_start_stop,
    fun _ => isEmpty_iff, fun start stop hle hmax => ?_⟩
  have hstart : start ≤ maxOffset := Nat.le_trans hle hmax
  have hrange := range?_ofRange hstart hmax
  have hempty : (ofRange start stop).isEmpty = false := isEmpty_ofRange hstart
  refine ⟨hempty, ?_, hrange, ?_, fun start' stop' hle' hmax' =>
    range_eq_of_word_eq hstart hmax (Nat.le_trans hle' hmax') hmax'⟩
  · rwa [isEmpty, beq_eq_false_iff_ne] at hempty
  · rw [length, hrange]

/-- The greatest offset fits, at both ends of a range. -/
theorem codec_exact_maxOffset :
    (ofRange 0 maxOffset).range? = some (0, maxOffset) ∧
      (ofRange maxOffset maxOffset).isEmpty = false ∧
      (ofRange 0 maxOffset).word ≠ (ofRange maxOffset maxOffset).word := by
  have hmax := codec_exact.2.2.2.2.2 maxOffset maxOffset (Nat.le_refl _) (Nat.le_refl _)
  have hall := codec_exact.2.2.2.2.2 0 maxOffset (Nat.zero_le _) (Nat.le_refl _)
  refine ⟨hall.2.2.1, hmax.1, fun hword => ?_⟩
  obtain ⟨hzero, -⟩ := hall.2.2.2.2 _ _ (Nat.le_refl _) (Nat.le_refl _) hword
  exact absurd hzero (by decide)

end Peg.Capture
