import NormalOrder.Text.Printable

/-!
# Quoted text

Text in quotes with everything that could be misread escaped. The quotes are single ones, unless the
text has a single quote and no double quote in it.
-/

namespace NormalOrder.Text

/-- The last `width` hexadecimal digits of `n`. -/
def hexDigits : Nat → Nat → List Char
  | 0, _ => []
  | width + 1, n => hexDigits width (n / 16) ++ [Nat.digitChar (n % 16)]

/-- A character by its code point, in two, four or eight digits. -/
def escapedCode (c : Char) : List Char :=
  let n := c.toNat
  if n < 0x100 then '\\' :: 'x' :: hexDigits 2 n
  else if n < 0x10000 then '\\' :: 'u' :: hexDigits 4 n
  else '\\' :: 'U' :: hexDigits 8 n

def escapedChar (quote c : Char) : List Char :=
  if c = quote ∨ c = '\\' then ['\\', c]
  else if c = '\t' then ['\\', 't']
  else if c = '\n' then ['\\', 'n']
  else if c = '\r' then ['\\', 'r']
  else if isPrintable c then [c]
  else escapedCode c

def singleQuote : Char := '\x27'

def doubleQuote : Char := '\x22'

def inQuotes (s : String) : String :=
  let cs := s.toList
  let quote := if singleQuote ∈ cs ∧ doubleQuote ∉ cs then doubleQuote else singleQuote
  String.ofList (quote :: cs.flatMap (escapedChar quote) ++ [quote])

end NormalOrder.Text
