import Peg.Text.Escape

/-!
# What is spelled can be read back

A character is spelled in one of three ways (`Peg.Text.Spelling`): by itself, by a backslash and one more
character, or by its number. None of them begins like another one, so that in a row of spelled characters
it is always clear where the next one begins and which it is (`Peg.Text.escape_append_inj`). The mark that
delimits a text is not spelled by itself, and so it is clear too where the text ends
(`Peg.Text.delimited_append_inj`).
-/

namespace Peg.Text

variable {marks : List Char} {c d m : Char} {l l' x y : List Char}

/-- Of a text that begins with characters of one kind and goes on with another kind, the two parts are
determined. -/
theorem append_inj_of_kind {p : Char → Prop} (hl : ∀ c ∈ l, p c) (hl' : ∀ c ∈ l', p c)
    (hx : ∀ c ∈ x.head?, ¬p c) (hy : ∀ c ∈ y.head?, ¬p c) (h : l ++ x = l' ++ y) :
    l = l' ∧ x = y := by
  induction l generalizing l' with
  | nil =>
    cases l' with
    | nil => exact ⟨rfl, h⟩
    | cons c l' => exact absurd (hl' c List.mem_cons_self) (hx c (by simp [show x = _ from h]))
  | cons c l ih =>
    cases l' with
    | nil => exact absurd (hl c List.mem_cons_self) (hy c (by simp [← show _ = y from h]))
    | cons d l' =>
      obtain ⟨rfl, hrest⟩ := List.cons.inj h
      obtain ⟨rfl, rfl⟩ := ih (fun e he => hl e (List.mem_cons_of_mem c he))
        (fun e he => hl' e (List.mem_cons_of_mem c he)) hrest
      exact ⟨rfl, rfl⟩

/-! ### Numbers -/

/-- The last digit stands behind those of the number without it. -/
theorem hex_eq (n : Nat) : hex n = if n < 16 then [hexDigit n] else hex (n / 16) ++ [hexDigit n] := by
  rw [hex, Nat.toDigits_eq_if (by decide)]
  split
  · rw [hexDigit, Nat.mod_eq_of_lt (by assumption)]
  · rfl

theorem hexDigit_inj {n n' : Nat} (h : hexDigit n = hexDigit n') : n % 16 = n' % 16 := by
  have hall : ∀ a < 16, ∀ b < 16, Nat.digitChar a = Nat.digitChar b → a = b := by decide
  exact hall _ (Nat.mod_lt n (by decide)) _ (Nat.mod_lt n' (by decide)) h

/-- **The digits of a number determine it.** -/
theorem hex_inj {n n' : Nat} (h : hex n = hex n') : n = n' := by
  induction n using Nat.strongRecOn generalizing n' with
  | ind n ih =>
    rw [hex_eq n, hex_eq n'] at h
    have hne (k : Nat) : hex k ≠ [] := Nat.toDigits_ne_nil
    split at h <;> split at h
    · have hmod := hexDigit_inj (List.cons.inj h).1
      omega
    · exact absurd (List.append_eq_singleton_iff.mp h.symm) (by simp [hne])
    · exact absurd (List.append_eq_singleton_iff.mp h) (by simp [hne])
    · obtain ⟨hfront, hlast⟩ := List.append_inj' h rfl
      have hdiv := ih (n / 16) (by omega) hfront
      have hmod := hexDigit_inj (List.cons.inj hlast).1
      omega

/-- The digits of a number are letters and decimal digits. -/
theorem isAlphanum_of_mem_hex {n : Nat} (h : c ∈ hex n) : c.isAlphanum = true := by
  have hdigit (k : Nat) : (hexDigit k).isAlphanum = true := by
    have hall : ∀ a < 16, (Nat.digitChar a).isAlphanum = true := by decide
    exact hall _ (Nat.mod_lt k (by decide))
  induction n using Nat.strongRecOn with
  | ind n ih =>
    rw [hex_eq n] at h
    split at h
    · rw [List.mem_singleton.mp h]
      exact hdigit n
    · rcases List.mem_append.mp h with h | h
      · exact ih (n / 16) (by omega) h
      · rw [List.mem_singleton.mp h]
        exact hdigit n

theorem numeric_append_inj (h : numeric c ++ x = numeric d ++ y) : c = d ∧ x = y := by
  have hdigits : hex c.toNat ++ '\x7d' :: x = hex d.toNat ++ '\x7d' :: y := by
    simpa [numeric] using h
  -- the brace behind the digits is none of them
  obtain ⟨hhex, hrest⟩ := append_inj_of_kind (p := fun e => e.isAlphanum = true)
    (fun _ => isAlphanum_of_mem_hex) (fun _ => isAlphanum_of_mem_hex) (by simp) (by simp) hdigits
  exact ⟨Char.toNat_inj.mp (hex_inj hhex), (List.cons.inj hrest).2⟩

/-! ### Characters -/

/-- The character that stands for another one behind a backslash. -/
def meant (c : Char) : Char :=
  if c = '0' then '\x00' else if c = 't' then '\t' else if c = 'n' then '\n'
  else if c = 'r' then '\r' else c

/-- The quotation marks. -/
def quotes : List Char := ['\'', '"']

/-- **The ways to spell a character.** -/
inductive Spelling (marks : List Char) (c : Char) : List Char → Prop
  /-- By itself. -/
  | itself (hc : c ≠ '\\') (hm : c ∉ marks) : Spelling marks c [c]
  /-- By what stands for it behind a backslash. -/
  | short (d : Char) (hd : d ∈ ['0', 't', 'n', 'r', '\\', '\'', '"']) (h : meant d = c) :
    Spelling marks c ['\\', d]
  /-- By its number. -/
  | number : Spelling marks c (numeric c)

theorem spelling_escape (hm : marks ⊆ quotes) : Spelling marks c (escape marks c) := by
  rw [escape]
  split
  · exact .short '0' (by decide) (by simp_all [meant])
  split
  · exact .short 't' (by decide) (by simp_all [meant])
  split
  · exact .short 'n' (by decide) (by simp_all [meant])
  split
  · exact .short 'r' (by decide) (by simp_all [meant])
  split
  · rename_i hc
    have hquote : c = '\\' ∨ c = '\'' ∨ c = '"' := by
      simpa [quotes] using hc.imp_right (@hm c)
    rcases hquote with rfl | rfl | rfl
    · exact .short _ (by decide) (by decide)
    · exact .short _ (by decide) (by decide)
    · exact .short _ (by decide) (by decide)
  split
  · exact .number
  · rename_i hc _
    exact .itself (fun h => hc (.inl h)) (fun h => hc (.inr h))

/-- The ways to spell characters do not begin alike, except for the same one. -/
theorem Spelling.append_inj (h : Spelling marks c l) (h' : Spelling marks d l')
    (heq : l ++ x = l' ++ y) : c = d ∧ x = y := by
  cases h with
  | itself hc =>
    cases h' with
    | itself => simpa using heq
    | short => exact absurd (List.cons.inj heq).1 hc
    | number => exact absurd (List.cons.inj heq).1 hc
  | short e he hmeant =>
    cases h' with
    | itself hd => exact absurd (List.cons.inj heq).1.symm hd
    | short e' _ hmeant' =>
      obtain ⟨rfl, rfl⟩ : e = e' ∧ x = y := by simpa using heq
      exact ⟨hmeant.symm.trans hmeant', rfl⟩
    | number => exact absurd ((List.cons.inj (List.cons.inj heq).2).1 ▸ he) (by decide)
  | number =>
    cases h' with
    | itself hd => exact absurd (List.cons.inj heq).1.symm hd
    | short e he => exact absurd ((List.cons.inj (List.cons.inj heq).2).1.symm ▸ he) (by decide)
    | number => exact numeric_append_inj heq

/-- **A spelled character is read back**, whatever comes behind it. -/
theorem escape_append_inj (hm : marks ⊆ quotes) (h : escape marks c ++ x = escape marks d ++ y) :
    c = d ∧ x = y :=
  (spelling_escape hm).append_inj (spelling_escape hm) h

/-- No character is spelled with a mark in front. -/
theorem Spelling.exists_cons (hm : marks ⊆ quotes) (h : Spelling marks c l) :
    ∃ d r, l = d :: r ∧ d ∉ marks := by
  have hslash : '\\' ∉ marks := fun h => by simpa [quotes] using hm h
  cases h with
  | itself _ hc => exact ⟨_, _, rfl, hc⟩
  | short d => exact ⟨_, _, rfl, hslash⟩
  | number => exact ⟨_, _, rfl, hslash⟩

/-! ### Texts -/

/-- **A text between marks is read back**, whatever comes behind the second one. -/
theorem delimited_append_inj (hm : marks ⊆ quotes) (hmark : m ∈ marks)
    (h : l.flatMap (escape marks) ++ m :: x = l'.flatMap (escape marks) ++ m :: y) :
    l = l' ∧ x = y := by
  have hends (c : Char) (z w : List Char) : m :: z ≠ escape marks c ++ w := by
    obtain ⟨d, r, heq, hd⟩ := (spelling_escape (c := c) hm).exists_cons hm
    rw [heq]
    exact fun h => hd ((List.cons.inj h).1 ▸ hmark)
  induction l generalizing l' with
  | nil =>
    cases l' with
    | nil => exact ⟨rfl, (List.cons.inj h).2⟩
    | cons c l' => exact absurd (by simpa using h) (hends c x _)
  | cons c l ih =>
    cases l' with
    | nil => exact absurd (by simpa using h.symm) (hends c y _)
    | cons d l' =>
      rw [List.flatMap_cons, List.flatMap_cons, List.append_assoc, List.append_assoc] at h
      obtain ⟨rfl, hrest⟩ := escape_append_inj hm h
      obtain ⟨rfl, rfl⟩ := ih hrest
      exact ⟨rfl, rfl⟩

end Peg.Text
