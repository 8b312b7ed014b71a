/-!
# Blanks and lines

Which characters count as blank, and how text is trimmed of them. Trimming only ever removes blanks
from an end: what is left neither starts (`trimStart`) nor ends (`trimEnd`) with one.

A line ends at a line feed, at a carriage return, or at a carriage return followed by a line feed.
No other character ends a line, and text after the last line end is a line only if there is any.
-/

namespace NormalOrder.Text

/-- Tab to carriage return, the separators from U+001C on, space, next line, no-break space, and the
spaces and line separators of the general punctuation and other blocks. -/
def isBlank (c : Char) : Bool :=
  let n := c.toNat
  (0x09 ≤ n && n ≤ 0x0D) || (0x1C ≤ n && n ≤ 0x20) || n == 0x85 || n == 0xA0 || n == 0x1680 ||
    (0x2000 ≤ n && n ≤ 0x200A) || n == 0x2028 || n == 0x2029 || n == 0x202F || n == 0x205F ||
    n == 0x3000

def trimStart (s : String) : String :=
  String.ofList (s.toList.dropWhile isBlank)

/-- Drops the longest end of `s` all of whose characters satisfy `p`. -/
def dropEnd (p : Char → Bool) (s : String) : String :=
  String.ofList (s.toList.reverse.dropWhile p).reverse

def trimEnd (s : String) : String :=
  dropEnd isBlank s

def trim (s : String) : String :=
  trimEnd (trimStart s)

/-- Whether `s` holds nothing but blanks. -/
def isBlankText (s : String) : Bool :=
  s.toList.all isBlank

def hasStart (start s : String) : Bool :=
  start.toList.isPrefixOf s.toList

/-- The lines of a text whose current line has `line` (in reverse) in front. -/
def splitLines (line : List Char) : List Char → List (List Char)
  | [] => if line.isEmpty then [] else [line.reverse]
  | '\r' :: '\n' :: rest => line.reverse :: splitLines [] rest
  | c :: rest =>
    if c = '\n' ∨ c = '\r' then line.reverse :: splitLines [] rest
    else splitLines (c :: line) rest

/-- The lines of `s` without their line ends. -/
def lines (s : String) : List String :=
  (splitLines [] s.toList).map String.ofList

end NormalOrder.Text
