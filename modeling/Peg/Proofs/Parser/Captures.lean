import Peg.Proofs.Matching.Captures
import Peg.Proofs.Parser.Run

/-!
# The captures of a parse

An input that is parsed at all is so short that every offset in it fits into half a capture. So the
captures of a match are what they were made of: ranges of the characters that were read, nested like
brackets, each of them behind those inside it (`Peg.Parser.captures_nested`). On the way, too, no
capture is ever made of a range that does not fit or that ends before it begins, not even one that is
dropped later.
-/

namespace Peg

/-- **The capture is that of a range of the input**: it is not the word that is set aside, its halves
are the two offsets, and what it covers are the characters in between. -/
structure Capture.Covers (input : Array Char) (p q : Nat) (c : Capture) : Prop where
  isEmpty : c.isEmpty = false
  start : c.start.toInt = p
  stop : c.stop.toInt = q
  text : Reader.captured { input } c = some (String.ofList ((input.toList.drop p).take (q - p)))

/-- A capture of offsets that fit is that of its range. -/
theorem Capture.covers_ofRange {input : Array Char} {p q : Nat} (hp : p ≤ maxOffset)
    (hq : q ≤ maxOffset) : (ofRange p q).Covers input p q where
  isEmpty := isEmpty_ofRange hp
  start := by rw [start_ofRange, toInt_ofNat hp]
  stop := by rw [stop_ofRange, toInt_ofNat hq]
  text := by
    rw [Reader.captured, range?_ofRange hp hq, Option.map_some]
    simp only [Reader.slice, Array.toList_extract, List.extract_eq_take_drop]

namespace Parser

variable {p : Parser} {id : RuleId} {input : Array Char}

theorem input_start (p : Parser) (id : RuleId) (input : Array Char) :
    (p.start id input).input = input := rfl

/-- A match captures nested ranges of what it has read. -/
theorem exists_nested (hg : p.grammar.AllTrees) {parse : Parse}
    (h : p.run id input = .ok parse) (hm : parse.outcome.matched = true) :
    parse.outcome.position ≤ input.size ∧ input.size ≤ Capture.maxOffset ∧
      ∃ cs, parse.outcome.captures = cs.map (fun r => Capture.ofRange r.1 r.2) ∧
        Nested 0 parse.outcome.position cs := by
  obtain ⟨hsize, b, t, he, rfl⟩ := run_eq_ok_iff.mp h
  obtain rfl : b = true := hm
  have hrun := Grammar.runs_of_attempt (Grammar.evaluate_eq_some.mp he)
  have hreach := hrun.reaches hg.nativesRead trivial
  obtain ⟨cs, hcs, hn⟩ := hrun.collects hg trivial nofun
  refine ⟨?_, (Settings.le_effectiveLimit_iff.mp hsize).2, cs, ?_, hn⟩
  · have hmax : t.offset ≤ max input.size 0 := hreach.le_max
    change t.offset ≤ input.size
    omega
  · change t.captures.toList = _
    rw [hcs]
    rfl

/-- **The captures of a match are nested ranges of what was read.** In a grammar of trees, whatever
the settings are, a match captures ranges of the characters that were read; each capture is that of its
range; the span is that of everything that was read; and of two captures either the earlier one ends
before the later one begins, or it lies within the later one. And in every parse that is not refused,
wherever an expression that is captured has matched, it ends at an offset that fits and not before the
one where it began. -/
theorem captures_nested (p : Parser) (hg : p.grammar.AllTrees) (id : RuleId) (input : Array Char) :
    (∀ parse, p.run id input = .ok parse → parse.outcome.matched = true →
      parse.outcome.position ≤ input.size ∧
        (∀ c ∈ parse.outcome.captures, ∃ start stop, start ≤ stop ∧
          stop ≤ parse.outcome.position ∧ c.Covers input start stop) ∧
        parse.outcome.span.Covers input 0 parse.outcome.position ∧
        parse.outcome.captures.Pairwise fun c d => c.stop.toInt ≤ d.start.toInt ∨
          (d.start.toInt ≤ c.start.toInt ∧ c.stop.toInt ≤ d.stop.toInt)) ∧
    (input.size ≤ p.settings.effectiveLimit → ∀ e s t,
      Relation.ReflTransGen p.grammar.Opens (.goal (.rule id), p.start id input)
        (.node (.capture e), s) →
      p.grammar.Runs (.goal (.expr e)) s true t →
        s.offset ≤ t.offset ∧ t.offset ≤ Capture.maxOffset) := by
  refine ⟨fun parse h hm => ?_, fun hsize e s t hopens hrun => ?_⟩
  · obtain ⟨hposition, hmax, cs, hcs, hn⟩ := exists_nested hg h hm
    have hfits (r : Nat × Nat) (hr : r ∈ cs) :
        (Capture.ofRange r.1 r.2).Covers input r.1 r.2 := by
      have := hn.within r hr
      exact Capture.covers_ofRange (by omega) (by omega)
    refine ⟨hposition, fun c hc => ?_, ?_, ?_⟩
    · rw [hcs] at hc
      obtain ⟨r, hr, rfl⟩ := List.mem_map.mp hc
      have := hn.within r hr
      exact ⟨r.1, r.2, this.2.1, this.2.2, hfits r hr⟩
    · rw [Outcome.span, if_pos hm]
      exact Capture.covers_ofRange (Nat.zero_le _) (by omega)
    · rw [hcs, List.pairwise_map]
      refine hn.pairwise.imp_of_mem fun {a b} ha hb hab => ?_
      rw [(hfits a ha).start, (hfits a ha).stop, (hfits b hb).start, (hfits b hb).stop]
      omega
  · have hmax := (Settings.le_effectiveLimit_iff.mp hsize).2
    have hstart := (Grammar.reaches_of_opens hg.nativesRead hopens trivial).2
    have hreach := hrun.reaches hg.nativesRead trivial
    have hs : s.offset ≤ max input.size 0 := hstart.le_max
    have ht := hreach.le_max
    rw [hstart.input, input_start] at ht
    exact ⟨hreach.le, by omega⟩

/-- `pair <- <<'a'> 'b'>`. -/
def pair : Grammar where
  rules := [⟨"pair", .tree (.capture (.seq (.capture (.char 'a')) (.char 'b')))⟩]
  root := some 0

/-- The pair is captured behind its first character, which lies within it. -/
theorem captures_nested_pair :
    pair.AllTrees ∧ ∃ parse, Parser.run { grammar := pair } 0 #['a', 'b'] = .ok parse ∧
      parse.outcome.matched = true ∧
      parse.outcome.captures = [Capture.ofRange 0 1, Capture.ofRange 0 2] ∧
      (∀ c ∈ parse.outcome.captures, ∃ start stop, start ≤ stop ∧ stop ≤ 2 ∧
        c.Covers #['a', 'b'] start stop) ∧
      parse.outcome.span.Covers #['a', 'b'] 0 2 ∧
      (Capture.ofRange 0 2).start.toInt ≤ (Capture.ofRange 0 1).start.toInt ∧
        (Capture.ofRange 0 1).stop.toInt ≤ (Capture.ofRange 0 2).stop.toInt := by
  have hg : pair.AllTrees := by simp [Grammar.AllTrees, pair, Body.tree?]
  obtain ⟨parse, hparse, hm, hposition, hcaptures⟩ : ∃ parse,
      Parser.run { grammar := pair } 0 #['a', 'b'] = .ok parse ∧ parse.outcome.matched = true ∧
        parse.outcome.position = 2 ∧
        parse.outcome.captures = [Capture.ofRange 0 1, Capture.ofRange 0 2] :=
    ⟨_, rfl, rfl, rfl, rfl⟩
  obtain ⟨-, hcovers, hspan, hnested⟩ :=
    (captures_nested { grammar := pair } hg 0 #['a', 'b']).1 parse hparse hm
  rw [hposition] at hcovers hspan
  rw [hcaptures, List.pairwise_pair] at hnested
  -- the first capture does not end before the second one begins
  exact ⟨hg, parse, hparse, hm, hcaptures, hcovers, hspan, hnested.resolve_left (by decide)⟩

end Parser

end Peg
