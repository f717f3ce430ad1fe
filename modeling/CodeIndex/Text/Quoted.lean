import CodeIndex.Text.CharacterClass

/-!
# Quoted and escaped text

Text is written between quotes in two forms.

The tree listing and the reports of caught faults show *quoted* text. The apostrophe is the quote
unless the text holds an apostrophe and no double quote.

Names are stored as *escaped* text, the string literals of the data format: double quotes around the
text, short escapes for the quote, the backslash and five controls, and `\uXXXX` for every other
character outside the printable ASCII range. A code point above `0xffff` is written as a surrogate
pair.

In both forms a character that cannot stand for itself is given by a fixed count of hexadecimal
digits.
-/

namespace CodeIndex.Text

/-- The lower-case hexadecimal digit of a number below sixteen. -/
def hexDigit (n : Nat) : Char :=
  if n < 10 then Char.ofNat (48 + n) else Char.ofNat (87 + n)

/-- The last `width` hexadecimal digits of `n`, most significant first. -/
def hexDigits : Nat → Nat → List Char
  | 0, _ => []
  | width + 1, n => hexDigits width (n / 16) ++ [hexDigit (n % 16)]

/-! ### Quoted text -/

/-- The apostrophe. -/
def apostrophe : Char := Char.ofNat 39

/-- The double quote. -/
def doubleQuote : Char := Char.ofNat 34

/-- The quote that surrounds a text. -/
def quoteFor (s : List Char) : Char :=
  if s.contains apostrophe && !s.contains doubleQuote then doubleQuote else apostrophe

/-- A character inside quotes `quote`: the quote and the backslash are escaped, the line and
tabulation controls have short forms, printable characters stand for themselves, and the others
are given by their code point in two, four or eight digits. -/
def quotedChar (quote c : Char) : List Char :=
  if c = quote || c = '\\' then ['\\', c]
  else if c = '\n' then ['\\', 'n']
  else if c = '\r' then ['\\', 'r']
  else if c = '\t' then ['\\', 't']
  else if isPrintable c then [c]
  else if c.toNat < 0x100 then '\\' :: 'x' :: hexDigits 2 c.toNat
  else if c.toNat < 0x10000 then '\\' :: 'u' :: hexDigits 4 c.toNat
  else '\\' :: 'U' :: hexDigits 8 c.toNat

/-- The text between quotes. -/
def quoteChars (s : List Char) : List Char :=
  let quote := quoteFor s
  quote :: s.flatMap (quotedChar quote) ++ [quote]

/-- The text between quotes. -/
def quote (s : String) : String := String.ofList (quoteChars s.toList)

/-! ### Escaped text -/

/-- A `\uXXXX` escape of a code unit. -/
def unitEscape (n : Nat) : List Char := '\\' :: 'u' :: hexDigits 4 n

/-- The escape of a code point by one or two code units. -/
def codePointEscape (n : Nat) : List Char :=
  if n < 0x10000 then unitEscape n
  else unitEscape (0xd800 + (n - 0x10000) / 0x400) ++ unitEscape (0xdc00 + (n - 0x10000) % 0x400)

/-- A character of a string literal. -/
def escapedChar (c : Char) : List Char :=
  if c = Char.ofNat 34 || c = '\\' then ['\\', c]
  else if c = '\n' then ['\\', 'n']
  else if c = '\r' then ['\\', 'r']
  else if c = '\t' then ['\\', 't']
  else if c = Char.ofNat 8 then ['\\', 'b']
  else if c = Char.ofNat 12 then ['\\', 'f']
  else if 0x20 ≤ c.toNat && c.toNat ≤ 0x7e then [c]
  else codePointEscape c.toNat

/-- The string literal of a text. -/
def escapeChars (s : List Char) : List Char :=
  Char.ofNat 34 :: s.flatMap escapedChar ++ [Char.ofNat 34]

/-- The string literal of a text. -/
def escape (s : String) : String := String.ofList (escapeChars s.toList)

end CodeIndex.Text
