import Peg.Text.Hex
import Peg.Text.Unprintable

/-!
# Characters and strings in quotation marks

How a character is spelled where a person is to read it back. NUL, tab, line feed, carriage return
and the backslash have a short escape; a quotation mark has one when it is among the `marks` the
text around it uses; what `Peg.Text.unprintable` lists is spelled by its number; and every other
character stands for itself.

Three users differ only in the marks: a character on its own (`Peg.Text.spell`, both marks), a
character between single quotes (`Peg.Text.quoteChar`) and a string between double quotes
(`Peg.Text.quote`).
-/

namespace Peg.Text

/-- The spelling of a character by its number: a backslash, the letter `u` and the hexadecimal
digits, without padding, in braces. -/
def numeric (c : Char) : List Char :=
  '\\' :: 'u' :: '\x7b' :: (hex c.toNat ++ ['\x7d'])

/-- The spelling of a character inside a text that is delimited by one of `marks`. -/
def escape (marks : List Char) (c : Char) : List Char :=
  if c = '\x00' then ['\\', '0']
  else if c = '\t' then ['\\', 't']
  else if c = '\n' then ['\\', 'n']
  else if c = '\r' then ['\\', 'r']
  else if c = '\\' ∨ c ∈ marks then ['\\', c]
  else if unprintable c then numeric c
  else [c]

/-- A character with no quotes around it, fit to stand inside either kind. -/
def spell (c : Char) : String :=
  String.ofList (escape ['\'', '"'] c)

/-- A character between single quotes. -/
def quoteChar (c : Char) : String :=
  String.ofList ('\'' :: (escape ['\''] c ++ ['\'']))

/-- A string between double quotes. -/
def quote (s : String) : String :=
  String.ofList ('"' :: (s.toList.flatMap (escape ['"']) ++ ['"']))

end Peg.Text
