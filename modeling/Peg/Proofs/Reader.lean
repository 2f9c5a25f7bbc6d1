import Peg.Proofs.Capture
import Peg.Reader

/-!
# Text cut out of an input

A stretch of the input is there if its two offsets are in order and the second is not past the end
(`Peg.Reader.between?`). Cutting never leaves this range, whatever the offsets: the second is brought
back to the end of the input first, and then the first to the second
(`Peg.Reader.between?_clamped`). The other way round would not do, as the first would then stay past the
end of the input with a second one that is further still.

So the text of a capture is there for every word but the one that is set aside
(`Peg.Reader.captured_clamped`), also for those with a half that is negative, which is an offset far past
the end of the input, and for those whose halves are out of order, which have no text. And cutting once
more in between changes nothing (`Peg.Reader.slice_append`).
-/

namespace Peg

namespace Capture

/-- The offset of a half is the half with its sign extended, taken without a sign. -/
theorem offset_eq_toNat (half : Int32) : offset half = half.toInt64.toUInt64.toNat := rfl

end Capture

namespace Reader

variable (r : Reader)

/-- The text between two offsets of the input, which have to be in order and not past the end. -/
def between? (r : Reader) (start stop : Nat) : Option String :=
  if start ≤ stop ∧ stop ≤ r.size then
    some (String.ofList ((r.input.toList.take stop).drop start))
  else none

/-- What is cut out, as a list of characters. -/
theorem slice_eq (start stop : Nat) :
    r.slice start stop = String.ofList ((r.input.toList.take stop).drop start) := by
  rw [slice, Array.toList_extract, List.extract_eq_take_drop, List.drop_take]

/-- **Cutting stays within the input**: the offsets are brought back to where there is text. -/
theorem between?_clamped (start stop : Nat) :
    r.between? (min start (min stop r.size)) (min stop r.size) = some (r.slice start stop) := by
  have hrange : min start (min stop r.size) ≤ min stop r.size ∧ min stop r.size ≤ r.size :=
    ⟨Nat.min_le_right _ _, Nat.min_le_right _ _⟩
  have htake : r.input.toList.take (min stop r.size) = r.input.toList.take stop := by
    rw [size, ← Array.length_toList, ← List.take_eq_take_min]
  -- what is dropped is at most all there is
  have hdrop : (r.input.toList.take stop).length = min stop r.size := by
    rw [List.length_take, Array.length_toList, size]
  rw [between?, if_pos hrange, slice_eq, htake, ← hdrop, ← List.drop_eq_drop_min]

/-- **What is cut in two is the same text.** -/
theorem slice_append {a b c : Nat} (h : a ≤ b) (h' : b ≤ c) :
    r.slice a b ++ r.slice b c = r.slice a c := by
  rw [slice, slice, slice, ← String.ofList_append, ← Array.toList_append,
    Array.extract_append_extract, Nat.min_eq_left h, Nat.max_eq_right h']

/-- **Every word has a text, except for the one that is set aside**: what lies between the offsets of its
halves, taken without their signs, as far as the input goes. Texts that meet are together the text from
the start of the first to the end of the second, past the end of the input too. -/
theorem captured_clamped :
    (∀ c : Capture, r.captured c = none ↔ c = .pack (-1) (-1)) ∧
    (∀ c : Capture, c ≠ .pack (-1) (-1) →
      (r.captured c).isSome ∧
        r.captured c =
          r.between?
            (min c.start.toInt64.toUInt64.toNat (min c.stop.toInt64.toUInt64.toNat r.size))
            (min c.stop.toInt64.toUInt64.toNat r.size)) ∧
    ∀ a b c, a ≤ b → b ≤ c → r.slice a b ++ r.slice b c = r.slice a c := by
  have htext (c : Capture) (hc : c ≠ .empty) :
      r.captured c = some (r.slice (Capture.offset c.start) (Capture.offset c.stop)) := by
    have hdefined : c.isEmpty = false := beq_eq_false_iff_ne.mpr hc
    rw [captured, Capture.range?, if_neg (by simp [hdefined]), Option.map_some]
  refine ⟨fun c => ⟨fun h => Decidable.byContradiction fun hc => ?_, ?_⟩, fun c hc => ?_,
    fun a b c h h' => r.slice_append h h'⟩
  · simp [htext c hc] at h
  · rintro rfl
    rfl
  · rw [← Capture.offset_eq_toNat, ← Capture.offset_eq_toNat, r.between?_clamped, htext c hc]
    exact ⟨rfl, rfl⟩

/-- Of three characters, a start below zero leaves nothing, a stop below zero everything behind the start,
and a stop before the start nothing; a slice may begin past the end. -/
theorem captured_clamped_letters :
    (Reader.ofString "abc").captured (.pack (-2) 3) = some "" ∧
      (Reader.ofString "abc").captured (.pack 1 (-1)) = some "bc" ∧
      (Reader.ofString "abc").captured (.pack 2 1) = some "" ∧
      (Reader.ofString "abc").slice 1 5 ++ (Reader.ofString "abc").slice 5 9 = "bc" := by
  obtain ⟨-, htext, happend⟩ := captured_clamped (Reader.ofString "abc")
  refine ⟨(htext _ (by decide)).2.trans ?_, (htext _ (by decide)).2.trans ?_,
    (htext _ (by decide)).2.trans ?_, (happend 1 5 9 (by decide) (by decide)).trans ?_⟩
  · decide
  · decide
  · decide
  · decide

end Reader

end Peg
