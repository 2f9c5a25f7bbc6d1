import Peg.Expr.Printer
import Peg.Proofs.Text.Escape

/-!
# How a written expression is read

Nearly all of an expression can be read off the text that it is written as. Sequences, alternatives and
captures stand in brackets, texts, characters and ranges between marks of their own, and a name goes on
for as long as there are letters. What remains are the marks for looking ahead, in front of an
expression, and those for options and repetitions, behind it. They are written without brackets, and of
`!"a"?` nobody can say whether the option is looked for or the looking is optional.

It is read in the first way: a mark behind an expression binds tighter than one in front of it.
`Peg.Expr.reading` is the expression that is read, with calls that lead nowhere, and it is all that is
written (`Peg.Expr.written_eq_iff`).

A text is taken apart from the left. What is at the front of it is determined if it is known what may
follow (`Peg.Expr.Ends`): inside an expression that is a blank or a closing bracket, or also a mark if the
marks behind the expression are counted with what follows (`Peg.Expr.Follows`).
-/

namespace Peg

/-! ### Names -/

/-- The characters of an identifier. -/
def isWord (c : Char) : Bool := c.isAlphanum || c == '_'

/-- A name that is written as one word, as identifiers are. -/
def IsWord (name : String) : Prop := name ≠ "" ∧ ∀ c ∈ name.toList, isWord c = true

/-- A word does not begin with anything else. -/
theorem IsWord.append_ne_cons {name : String} {c : Char} {x y : List Char} (h : IsWord name)
    (hc : isWord c = false) : name.toList ++ x ≠ c :: y := by
  intro heq
  rcases hname : name.toList with _ | ⟨d, ds⟩
  · exact h.1 (String.toList_inj.mp hname)
  · rw [hname] at heq
    have hd := h.2 d (hname ▸ List.mem_cons_self)
    rw [(List.cons.inj heq).1, hc] at hd
    cases hd

namespace Expr

/-- The rules that are called have names that are written as one word, and not as the word for the end of
the input. -/
def Named (e : Expr) : Prop := ∀ r ∈ e.references, IsWord r.name ∧ r.name ≠ "EOI"

section Named

variable {a b : Expr} {r : Reference}

theorem references_seq : (seq a b).references = a.references ++ b.references :=
  List.filterMap_append

theorem references_alt : (alt a b).references = a.references ++ b.references :=
  List.filterMap_append

@[simp]
theorem named_seq : (seq a b).Named ↔ a.Named ∧ b.Named := by
  rw [Named, references_seq, List.forall_mem_append]
  rfl

@[simp]
theorem named_alt : (alt a b).Named ↔ a.Named ∧ b.Named := by
  rw [Named, references_alt, List.forall_mem_append]
  rfl

@[simp]
theorem named_call : (call r).Named ↔ IsWord r.name ∧ r.name ≠ "EOI" := by
  have h : (call r).references = [r] := rfl
  rw [Named, h, List.forall_mem_singleton]

end Named

/-! ### What is read -/

/-- Puts something around the expression, but inside of what is looked ahead for. -/
def inside (f : Expr → Expr) : Expr → Expr
  | ahead a => ahead (a.inside f)
  | notAhead a => notAhead (a.inside f)
  | e => f e

/-- **The expression that is read** where the given one is written: the marks behind an expression belong
to it before those in front do, and nothing is known of a call but the name. -/
def reading : Expr → Expr
  | seq a b => seq a.reading b.reading
  | alt a b => alt a.reading b.reading
  | opt a => a.reading.inside opt
  | star a => a.reading.inside star
  | plus a => a.reading.inside plus
  | ahead a => ahead a.reading
  | notAhead a => notAhead a.reading
  | capture a => capture a.reading
  | call r => call { name := r.name }
  | text s => text s
  | char c => char c
  | endOfInput => endOfInput
  | range first last => range first last
  | any => any
  | empty => empty

/-! ### Characters -/

/-- The characters of the expression as it is written. -/
def chars : Expr → List Char
  | seq a b => '(' :: (a.chars ++ ' ' :: (b.chars ++ [')']))
  | alt a b => '(' :: (a.chars ++ ' ' :: '/' :: ' ' :: (b.chars ++ [')']))
  | text s => '"' :: (s.toList.flatMap (Text.escape ['"']) ++ ['"'])
  | char c => '\'' :: (Text.escape ['\''] c ++ ['\''])
  | endOfInput => ['E', 'O', 'I']
  | range first last =>
    '[' :: (Text.escape Text.quotes first ++ '-' :: (Text.escape Text.quotes last ++ [']']))
  | any => ['.']
  | opt a => a.chars ++ ['?']
  | star a => a.chars ++ ['*']
  | plus a => a.chars ++ ['+']
  | ahead a => '&' :: a.chars
  | notAhead a => '!' :: a.chars
  | call r => r.name.toList
  | capture a => '<' :: (a.chars ++ ['>'])
  | empty => ['(', ')']

theorem toList_written (e : Expr) : e.written.toList = e.chars := by
  induction e <;> simp [written, chars, Text.quote, Text.quoteChar, Text.spell, Text.quotes, *]

/-! ### Marks -/

/-- The marks in front of the expression. -/
def marksBefore : Expr → List Char
  | ahead a => '&' :: a.marksBefore
  | notAhead a => '!' :: a.marksBefore
  | opt a | star a | plus a => a.marksBefore
  | _ => []

/-- The marks behind the expression. -/
def marksBehind : Expr → List Char
  | opt a => a.marksBehind ++ ['?']
  | star a => a.marksBehind ++ ['*']
  | plus a => a.marksBehind ++ ['+']
  | ahead a | notAhead a => a.marksBehind
  | _ => []

/-- The expression that the marks stand at. -/
def unmarked : Expr → Expr
  | opt a | star a | plus a | ahead a | notAhead a => a.unmarked
  | e => e

/-- No marks stand at the expression. -/
def Plain : Expr → Prop
  | opt _ | star _ | plus _ | ahead _ | notAhead _ => False
  | _ => True

/-- The expression with a mark. -/
def marked (mark : Char) (e : Expr) : Expr :=
  match mark with
  | '?' => opt e
  | '*' => star e
  | '+' => plus e
  | '&' => ahead e
  | '!' => notAhead e
  | _ => e

variable {a b e : Expr} {x y : List Char}

theorem plain_unmarked (e : Expr) : e.unmarked.Plain := by
  induction e <;> first | assumption | trivial

theorem Named.unmarked (h : e.Named) : e.unmarked.Named := by
  induction e with
  | opt a ih => exact ih h
  | star a ih => exact ih h
  | plus a ih => exact ih h
  | ahead a ih => exact ih h
  | notAhead a ih => exact ih h
  | _ => exact h

theorem chars_eq (e : Expr) : e.chars = e.marksBefore ++ (e.unmarked.chars ++ e.marksBehind) := by
  induction e with
  | opt a ih => simp [chars, marksBefore, marksBehind, unmarked, ih]
  | star a ih => simp [chars, marksBefore, marksBehind, unmarked, ih]
  | plus a ih => simp [chars, marksBefore, marksBehind, unmarked, ih]
  | ahead a ih => simp [chars, marksBefore, marksBehind, unmarked, ih]
  | notAhead a ih => simp [chars, marksBefore, marksBehind, unmarked, ih]
  | _ => simp only [marksBefore, marksBehind, unmarked, List.nil_append, List.append_nil]

theorem mem_marksBefore {c : Char} (h : c ∈ e.marksBefore) : c ∈ ['&', '!'] := by
  induction e with
  | opt a ih => exact ih h
  | star a ih => exact ih h
  | plus a ih => exact ih h
  | ahead a ih =>
    rcases List.mem_cons.mp h with rfl | h
    · decide
    · exact ih h
  | notAhead a ih =>
    rcases List.mem_cons.mp h with rfl | h
    · decide
    · exact ih h
  | _ => cases h

theorem mem_marksBehind {c : Char} (h : c ∈ e.marksBehind) : c ∈ ['?', '*', '+'] := by
  have hlast {l : List Char} {m : Char} (hm : m ∈ ['?', '*', '+'])
      (ih : c ∈ l → c ∈ ['?', '*', '+']) (h : c ∈ l ++ [m]) : c ∈ ['?', '*', '+'] := by
    rcases List.mem_append.mp h with h | h
    · exact ih h
    · exact List.mem_singleton.mp h ▸ hm
  induction e with
  | opt a ih => exact hlast (by decide) ih h
  | star a ih => exact hlast (by decide) ih h
  | plus a ih => exact hlast (by decide) ih h
  | ahead a ih => exact ih h
  | notAhead a ih => exact ih h
  | _ => cases h

/-- What is put around the expression is put around all of it. -/
def Tight (e : Expr) : Prop := ∀ f : Expr → Expr, e.inside f = f e

theorem tight_reading (h : e.Plain) : e.reading.Tight := by
  cases e with
  | opt a | star a | plus a | ahead a | notAhead a => exact h.elim
  | _ => exact fun f => rfl

theorem tight_foldl {l : List Char} (hl : ∀ c ∈ l, c ∈ ['?', '*', '+']) (h : e.Tight) :
    (l.foldl (fun a mark => a.marked mark) e).Tight := by
  induction l generalizing e with
  | nil => exact h
  | cons c l ih =>
    obtain ⟨hc, hl⟩ := List.forall_mem_cons.mp hl
    refine ih hl ?_
    simp only [List.mem_cons, List.not_mem_nil, or_false] at hc
    rcases hc with rfl | rfl | rfl <;> exact fun f => rfl

theorem inside_foldr {l : List Char} (hl : ∀ c ∈ l, c ∈ ['&', '!']) (h : e.Tight)
    (f : Expr → Expr) : (l.foldr marked e).inside f = l.foldr marked (f e) := by
  induction l with
  | nil => exact h f
  | cons c l ih =>
    obtain ⟨hc, hrest⟩ := List.forall_mem_cons.mp hl
    simp only [List.mem_cons, List.not_mem_nil, or_false] at hc
    rcases hc with rfl | rfl
    · exact congrArg ahead (ih hrest)
    · exact congrArg notAhead (ih hrest)

/-- The marks behind what they stand at are read first and those in front of it last. -/
theorem reading_eq (e : Expr) :
    e.reading =
      e.marksBefore.foldr marked
        (e.marksBehind.foldl (fun a mark => a.marked mark) e.unmarked.reading) := by
  have hbehind (a : Expr) (f : Expr → Expr) :
      (a.marksBefore.foldr marked
        (a.marksBehind.foldl (fun a mark => a.marked mark) a.unmarked.reading)).inside f =
      a.marksBefore.foldr marked
        (f (a.marksBehind.foldl (fun a mark => a.marked mark) a.unmarked.reading)) :=
    inside_foldr (fun _ => mem_marksBefore)
      (tight_foldl (fun _ => mem_marksBehind) (tight_reading a.plain_unmarked)) f
  induction e with
  | opt a ih => rw [reading, ih, hbehind, marksBehind, List.foldl_append]; rfl
  | star a ih => rw [reading, ih, hbehind, marksBehind, List.foldl_append]; rfl
  | plus a ih => rw [reading, ih, hbehind, marksBehind, List.foldl_append]; rfl
  | ahead a ih => exact congrArg ahead ih
  | notAhead a ih => exact congrArg notAhead ih
  | _ => rfl

/-! ### What is at the front of a text -/

/-- What may follow a whole expression: the end of the text or of the line, or what closes or separates
the parts of another expression. -/
def Ends (x : List Char) : Prop := ∀ c ∈ x.head?, c ∈ [' ', ')', '>', '\n']

/-- What may follow an expression whose marks are counted with what follows. -/
def Follows (x : List Char) : Prop :=
  ∀ c ∈ x.head?, c ∈ ['?', '*', '+'] ∨ c ∈ [' ', ')', '>', '\n']

theorem Ends.follows (h : Ends x) : Follows (e.marksBehind ++ x) := by
  intro c hc
  rcases hm : e.marksBehind with _ | ⟨d, l⟩
  · rw [hm] at hc
    exact .inr (h c hc)
  · obtain rfl : d = c := by simpa [hm] using hc
    exact .inl (mem_marksBehind (hm ▸ List.mem_cons_self : d ∈ e.marksBehind))

/-- What follows an expression does not go on with a word. -/
theorem Follows.not_isWord (h : Follows x) : ∀ c ∈ x.head?, ¬isWord c = true := by
  intro c hc
  have hall : ∀ c ∈ ['?', '*', '+', ' ', ')', '>', '\n'], ¬isWord c = true := by simp [isWord]
  exact hall c (List.mem_append.mpr (h c hc))

/-- An expression without marks does not begin with one, and none begins like what separates or closes
others. -/
theorem Named.append_ne_cons (h : e.Named) (hp : e.Plain) {c : Char}
    (hc : c ∈ ['&', '!', '/', ')']) : e.chars ++ x ≠ c :: y := by
  cases e with
  | opt a | star a | plus a | ahead a | notAhead a => exact hp.elim
  | call r =>
    have hword : ∀ c ∈ ['&', '!', '/', ')'], isWord c = false := by simp [isWord]
    exact (named_call.mp h).1.append_ne_cons (hword c hc)
  | _ =>
    intro heq
    rw [chars, List.cons_append] at heq
    rw [← (List.cons.inj heq).1] at hc
    exact absurd hc (by decide)

/-- No expression begins like what separates or closes others. -/
theorem Named.append_ne_closing (h : e.Named) {c : Char} (hc : c ∈ ['/', ')']) :
    e.chars ++ x ≠ c :: y := by
  have hmark : c ∉ ['&', '!'] := by
    simp only [List.mem_cons, List.not_mem_nil, or_false] at hc
    rcases hc with rfl | rfl <;> decide
  rw [chars_eq, List.append_assoc, List.append_assoc]
  rcases hm : e.marksBefore with _ | ⟨d, l⟩
  · exact h.unmarked.append_ne_cons e.plain_unmarked (List.mem_append_right ['&', '!'] hc)
  · intro heq
    refine hmark (mem_marksBefore (e := e) ?_)
    rw [hm, (List.cons.inj heq).1]
    exact List.mem_cons_self

/-! ### There is one way to read -/

/-- **The expression is read back**, whatever comes behind it. -/
def ReadBack (a : Expr) : Prop :=
  ∀ (b : Expr) (x y : List Char), b.Named → b.Plain → Follows x → Follows y →
    a.chars ++ x = b.chars ++ y → a.reading = b.reading ∧ x = y

/-- An expression is read back if what its marks stand at is. -/
theorem ReadBack.whole (h : a.unmarked.ReadBack) (ha : a.Named) (hb : b.Named) (hx : Ends x)
    (hy : Ends y) (heq : a.chars ++ x = b.chars ++ y) : a.reading = b.reading ∧ x = y := by
  have hfront {e : Expr} (he : e.Named) (z : List Char) :
      ∀ c ∈ (e.unmarked.chars ++ z).head?, ¬c ∈ ['&', '!'] := by
    intro c hc hmem
    obtain ⟨l, hl⟩ := List.head?_eq_some_iff.mp hc
    exact he.unmarked.append_ne_cons e.plain_unmarked (List.mem_append_left ['/', ')'] hmem) hl
  have hbehind {z : List Char} (hz : Ends z) : ∀ c ∈ z.head?, ¬c ∈ ['?', '*', '+'] := by
    intro c hc
    have hall : ∀ c ∈ [' ', ')', '>', '\n'], ¬c ∈ ['?', '*', '+'] := by simp
    exact hall c (hz c hc)
  rw [chars_eq a, chars_eq b] at heq
  simp only [List.append_assoc] at heq
  obtain ⟨hbefore, hrest⟩ := Text.append_inj_of_kind (fun _ => mem_marksBefore)
    (fun _ => mem_marksBefore) (hfront ha _) (hfront hb _) heq
  obtain ⟨hreading, hrest⟩ := h b.unmarked _ _ hb.unmarked b.plain_unmarked hx.follows hy.follows hrest
  obtain ⟨hmarks, rfl⟩ := Text.append_inj_of_kind (fun _ => mem_marksBehind)
    (fun _ => mem_marksBehind) (hbehind hx) (hbehind hy) hrest
  rw [reading_eq a, reading_eq b, hbefore, hreading, hmarks]
  exact ⟨rfl, rfl⟩

theorem ends_cons {c : Char} (hc : c ∈ [' ', ')', '>', '\n']) : Ends (c :: x) := by
  simpa [Ends] using hc

theorem ends_blank : Ends (' ' :: x) := ends_cons (by decide)

theorem ends_bracket : Ends (')' :: x) := ends_cons (by decide)

theorem ends_angle : Ends ('>' :: x) := ends_cons (by decide)

/-- The character that the text of an expression begins with which is neither marked nor a call. -/
def opening : Expr → Option Char
  | seq _ _ | alt _ _ | empty => some '('
  | text _ => some '"'
  | char _ => some '\''
  | endOfInput => some 'E'
  | range _ _ => some '['
  | any => some '.'
  | capture _ => some '<'
  | opt _ | star _ | plus _ | ahead _ | notAhead _ | call _ => none

theorem exists_chars_of_opening {c : Char} (h : e.opening = some c) : ∃ l, e.chars = c :: l := by
  cases e with
  | opt a | star a | plus a | ahead a | notAhead a | call r => cases h
  | _ => exact Option.some.inj h ▸ ⟨_, rfl⟩

theorem exists_call_of_opening (h : e.opening = none) (hp : e.Plain) : ∃ r, e = call r := by
  cases e with
  | opt a | star a | plus a | ahead a | notAhead a => exact hp.elim
  | call r => exact ⟨r, rfl⟩
  | _ => cases h

/-- What does not begin with a letter is to be told from what begins like it. -/
theorem ReadBack.of_opening {c : Char} (ha : a.opening = some c) (hc : isWord c = false)
    (h : ∀ (b : Expr) (x y : List Char), b.Named → b.opening = some c →
      a.chars ++ x = b.chars ++ y → a.reading = b.reading ∧ x = y) : a.ReadBack := by
  intro b x y hb hp _ _ heq
  obtain ⟨l, hl⟩ := exists_chars_of_opening ha
  rcases hopen : b.opening with _ | d
  · obtain ⟨r, rfl⟩ := exists_call_of_opening hopen hp
    rw [hl] at heq
    exact absurd heq.symm ((named_call.mp hb).1.append_ne_cons hc)
  · obtain ⟨l', hl'⟩ := exists_chars_of_opening hopen
    obtain rfl : c = d := by
      rw [hl, hl'] at heq
      exact (List.cons.inj heq).1
    exact h b x y hb hopen heq

section Bracketed

variable {a₁ a₂ : Expr} (ha₁ : a₁.Named) (ha₂ : a₂.Named) (h₁ : a₁.unmarked.ReadBack)
  (h₂ : a₂.unmarked.ReadBack)
include ha₁ ha₂ h₁ h₂

theorem readBack_seq : (seq a₁ a₂).ReadBack := by
  refine .of_opening rfl (by decide) fun b x y hb hopen heq => ?_
  cases b with
  | seq b₁ b₂ =>
    obtain ⟨hb₁, hb₂⟩ := named_seq.mp hb
    have heq : a₁.chars ++ ' ' :: (a₂.chars ++ ')' :: x) =
        b₁.chars ++ ' ' :: (b₂.chars ++ ')' :: y) := by simpa [chars] using heq
    obtain ⟨hfirst, hrest⟩ := h₁.whole ha₁ hb₁ ends_blank ends_blank heq
    obtain ⟨hsecond, hrest⟩ :=
      h₂.whole ha₂ hb₂ ends_bracket ends_bracket (List.cons.inj hrest).2
    exact ⟨by rw [reading, reading, hfirst, hsecond], (List.cons.inj hrest).2⟩
  | alt b₁ b₂ =>
    have heq : a₁.chars ++ ' ' :: (a₂.chars ++ ')' :: x) =
        b₁.chars ++ ' ' :: '/' :: ' ' :: (b₂.chars ++ ')' :: y) := by simpa [chars] using heq
    obtain ⟨-, hrest⟩ := h₁.whole ha₁ (named_alt.mp hb).1 ends_blank ends_blank heq
    exact absurd (List.cons.inj hrest).2 (ha₂.append_ne_closing (by decide))
  | empty =>
    have heq : a₁.chars ++ ' ' :: (a₂.chars ++ ')' :: x) = ')' :: y := by simpa [chars] using heq
    exact absurd heq (ha₁.append_ne_closing (by decide))
  | _ => simp [opening] at hopen

theorem readBack_alt : (alt a₁ a₂).ReadBack := by
  refine .of_opening rfl (by decide) fun b x y hb hopen heq => ?_
  cases b with
  | seq b₁ b₂ =>
    obtain ⟨hb₁, hb₂⟩ := named_seq.mp hb
    have heq : a₁.chars ++ ' ' :: '/' :: ' ' :: (a₂.chars ++ ')' :: x) =
        b₁.chars ++ ' ' :: (b₂.chars ++ ')' :: y) := by simpa [chars] using heq
    obtain ⟨-, hrest⟩ := h₁.whole ha₁ hb₁ ends_blank ends_blank heq
    exact absurd (List.cons.inj hrest).2.symm (hb₂.append_ne_closing (by decide))
  | alt b₁ b₂ =>
    obtain ⟨hb₁, hb₂⟩ := named_alt.mp hb
    have heq : a₁.chars ++ ' ' :: '/' :: ' ' :: (a₂.chars ++ ')' :: x) =
        b₁.chars ++ ' ' :: '/' :: ' ' :: (b₂.chars ++ ')' :: y) := by simpa [chars] using heq
    obtain ⟨hfirst, hrest⟩ := h₁.whole ha₁ hb₁ ends_blank ends_blank heq
    have hrest : a₂.chars ++ ')' :: x = b₂.chars ++ ')' :: y := by simpa using hrest
    obtain ⟨hsecond, hrest⟩ := h₂.whole ha₂ hb₂ ends_bracket ends_bracket hrest
    exact ⟨by rw [reading, reading, hfirst, hsecond], (List.cons.inj hrest).2⟩
  | empty =>
    have heq : a₁.chars ++ ' ' :: '/' :: ' ' :: (a₂.chars ++ ')' :: x) = ')' :: y := by
      simpa [chars] using heq
    exact absurd heq (ha₁.append_ne_closing (by decide))
  | _ => simp [opening] at hopen

omit ha₂ h₂ in
theorem readBack_capture : (capture a₁).ReadBack := by
  refine .of_opening rfl (by decide) fun b x y hb hopen heq => ?_
  cases b with
  | capture b =>
    have hb : b.Named := hb
    have heq : a₁.chars ++ '>' :: x = b.chars ++ '>' :: y := by simpa [chars] using heq
    obtain ⟨hinner, hrest⟩ := h₁.whole ha₁ hb ends_angle ends_angle heq
    exact ⟨congrArg capture hinner, (List.cons.inj hrest).2⟩
  | _ => simp [opening] at hopen

end Bracketed

theorem readBack_empty : empty.ReadBack := by
  refine .of_opening rfl (by decide) fun b x y hb hopen heq => ?_
  cases b with
  | seq b₁ b₂ =>
    have heq : b₁.chars ++ ' ' :: (b₂.chars ++ ')' :: y) = ')' :: x := by
      simpa [chars] using heq.symm
    exact absurd heq ((named_seq.mp hb).1.append_ne_closing (by decide))
  | alt b₁ b₂ =>
    have heq : b₁.chars ++ ' ' :: '/' :: ' ' :: (b₂.chars ++ ')' :: y) = ')' :: x := by
      simpa [chars] using heq.symm
    exact absurd heq ((named_alt.mp hb).1.append_ne_closing (by decide))
  | empty => exact ⟨rfl, by simpa [chars] using heq⟩
  | _ => simp [opening] at hopen

theorem readBack_text (s : String) : (text s).ReadBack := by
  refine .of_opening rfl (by decide) fun b x y hb hopen heq => ?_
  cases b with
  | text s' =>
    have heq : s.toList.flatMap (Text.escape ['"']) ++ '"' :: x =
        s'.toList.flatMap (Text.escape ['"']) ++ '"' :: y := by simpa [chars] using heq
    obtain ⟨hchars, hrest⟩ := Text.delimited_append_inj (by decide) (by decide) heq
    rw [String.toList_inj.mp hchars]
    exact ⟨rfl, hrest⟩
  | _ => simp [opening] at hopen

theorem readBack_char (c : Char) : (char c).ReadBack := by
  refine .of_opening rfl (by decide) fun b x y hb hopen heq => ?_
  cases b with
  | char d =>
    have heq : Text.escape ['\''] c ++ '\'' :: x = Text.escape ['\''] d ++ '\'' :: y := by
      simpa [chars] using heq
    obtain ⟨rfl, hrest⟩ := Text.escape_append_inj (by decide) heq
    exact ⟨rfl, (List.cons.inj hrest).2⟩
  | _ => simp [opening] at hopen

theorem readBack_range (first last : Char) : (range first last).ReadBack := by
  refine .of_opening rfl (by decide) fun b x y hb hopen heq => ?_
  cases b with
  | range first' last' =>
    have heq : Text.escape Text.quotes first ++ '-' :: (Text.escape Text.quotes last ++ ']' :: x) =
        Text.escape Text.quotes first' ++ '-' :: (Text.escape Text.quotes last' ++ ']' :: y) := by
      simpa [chars] using heq
    obtain ⟨rfl, hlast⟩ := Text.escape_append_inj (fun _ => id) heq
    obtain ⟨rfl, hrest⟩ := Text.escape_append_inj (fun _ => id) (List.cons.inj hlast).2
    exact ⟨rfl, (List.cons.inj hrest).2⟩
  | _ => simp [opening] at hopen

theorem readBack_any : any.ReadBack := by
  refine .of_opening rfl (by decide) fun b x y hb hopen heq => ?_
  cases b with
  | any => exact ⟨rfl, by simpa [chars] using heq⟩
  | _ => simp [opening] at hopen

/-- A word goes on as far as there are letters, so that a name is read back, and the word for the end of
the input too. -/
theorem word_append_inj {name name' : String} (h : IsWord name) (h' : IsWord name') (hx : Follows x)
    (hy : Follows y) (heq : name.toList ++ x = name'.toList ++ y) : name = name' ∧ x = y := by
  obtain ⟨hname, hrest⟩ := Text.append_inj_of_kind h.2 h'.2 hx.not_isWord hy.not_isWord heq
  exact ⟨String.toList_inj.mp hname, hrest⟩

theorem isWord_endOfInput : IsWord "EOI" := ⟨by decide, by simp [isWord]⟩

theorem readBack_call {r : Reference} (hr : (call r).Named) : (call r).ReadBack := by
  intro b x y hb hp hx hy heq
  obtain ⟨hword, hne⟩ := named_call.mp hr
  rw [chars] at heq
  have hother {c : Char} {z : List Char} (hc : isWord c = false) : r.name.toList ++ x ≠ c :: z :=
    hword.append_ne_cons hc
  cases b with
  | opt b | star b | plus b | ahead b | notAhead b => exact hp.elim
  | call r' =>
    obtain ⟨hname, hrest⟩ := word_append_inj hword (named_call.mp hb).1 hx hy heq
    exact ⟨by rw [reading, reading, hname], hrest⟩
  | endOfInput => exact absurd (word_append_inj hword isWord_endOfInput hx hy heq).1 hne
  | _ =>
    rw [chars, List.cons_append] at heq
    exact absurd heq (hother (by decide))

theorem readBack_endOfInput : endOfInput.ReadBack := by
  intro b x y hb hp hx hy heq
  cases b with
  | opt b | star b | plus b | ahead b | notAhead b => exact hp.elim
  | call r =>
    obtain ⟨hword, hne⟩ := named_call.mp hb
    exact absurd (word_append_inj isWord_endOfInput hword hx hy heq).1.symm hne
  | endOfInput => exact ⟨rfl, by simpa [chars] using heq⟩
  | _ => simp [chars] at heq

/-- **What marks stand at is read back.** -/
theorem readBack_unmarked (ha : a.Named) : a.unmarked.ReadBack := by
  induction a with
  | opt a ih => exact ih ha
  | star a ih => exact ih ha
  | plus a ih => exact ih ha
  | ahead a ih => exact ih ha
  | notAhead a ih => exact ih ha
  | seq a₁ a₂ ih₁ ih₂ =>
    obtain ⟨ha₁, ha₂⟩ := named_seq.mp ha
    exact readBack_seq ha₁ ha₂ (ih₁ ha₁) (ih₂ ha₂)
  | alt a₁ a₂ ih₁ ih₂ =>
    obtain ⟨ha₁, ha₂⟩ := named_alt.mp ha
    exact readBack_alt ha₁ ha₂ (ih₁ ha₁) (ih₂ ha₂)
  | capture a ih => exact readBack_capture ha (ih ha)
  | text s => exact readBack_text s
  | char c => exact readBack_char c
  | range first last => exact readBack_range first last
  | any => exact readBack_any
  | empty => exact readBack_empty
  | call r => exact readBack_call ha
  | endOfInput => exact readBack_endOfInput

/-- **What is written is read in one way**, also with something behind it that may follow an expression. -/
theorem chars_append_inj (ha : a.Named) (hb : b.Named) (hx : Ends x) (hy : Ends y)
    (h : a.chars ++ x = b.chars ++ y) : a.reading = b.reading ∧ x = y :=
  (readBack_unmarked ha).whole ha hb hx hy h

/-! ### What is read is written the same -/

theorem written_inside {f : Expr → Expr} {mark : String} (hf : ∀ a, (f a).written = a.written ++ mark)
    (e : Expr) : (e.inside f).written = e.written ++ mark := by
  induction e with
  | ahead a ih => rw [inside, written, ih, written, String.append_assoc]
  | notAhead a ih => rw [inside, written, ih, written, String.append_assoc]
  | _ => exact hf _

/-- **What is read is written like the expression itself.** -/
theorem written_reading (e : Expr) : e.reading.written = e.written := by
  induction e with
  | seq a b iha ihb => rw [reading, written, written, iha, ihb]
  | alt a b iha ihb => rw [reading, written, written, iha, ihb]
  | opt a ih => rw [reading, written_inside (fun _ => rfl), ih, written]
  | star a ih => rw [reading, written_inside (fun _ => rfl), ih, written]
  | plus a ih => rw [reading, written_inside (fun _ => rfl), ih, written]
  | ahead a ih => rw [reading, written, written, ih]
  | notAhead a ih => rw [reading, written, written, ih]
  | capture a ih => rw [reading, written, written, ih]
  | _ => rfl

/-- **Expressions are written alike exactly when the same is read.** -/
theorem written_eq_iff (ha : a.Named) (hb : b.Named) :
    a.written = b.written ↔ a.reading = b.reading := by
  constructor
  · intro h
    have hnil : Ends [] := by simp [Ends]
    have hchars : a.chars ++ [] = b.chars ++ [] := by rw [← toList_written, h, toList_written]
    exact (chars_append_inj ha hb hnil hnil hchars).1
  · intro h
    rw [← a.written_reading, h, b.written_reading]

end Expr

end Peg
