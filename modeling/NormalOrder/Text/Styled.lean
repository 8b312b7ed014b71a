/-!
# Styled text

Text for a terminal, as spans that are plain, bold, or bold in an ink. The same value is shown with
or without escape sequences; without them the text of the spans is all there is.
-/

namespace NormalOrder.Text

inductive Ink
  | red | green | yellow | magenta | cyan | lightRed
deriving DecidableEq, Repr

/-- The parameter that selects the ink in an escape sequence. -/
def Ink.code : Ink → String
  | red => "31"
  | green => "32"
  | yellow => "33"
  | magenta => "35"
  | cyan => "36"
  | lightRed => "91"

inductive Style
  | plain
  | bold
  /-- Bold, in this ink. -/
  | inked (ink : Ink)
deriving DecidableEq, Repr

structure Span where
  text : String
  style : Style := .plain
deriving DecidableEq, Repr

abbrev Styled := List Span

def plain (text : String) : Styled := [{ text }]

def bold (text : String) : Styled := [{ text, style := .bold }]

def inked (ink : Ink) (text : String) : Styled := [{ text, style := .inked ink }]

/-- Bold text between two plain quotes. -/
def quoted (text : String) : Styled := plain "'" ++ bold text ++ plain "'"

/-- The escape sequence with the given parameter. -/
def escape (parameter : String) : String := "\x1b[" ++ parameter ++ "m"

/-- An empty span is wrapped in its escapes as well. -/
def Span.render (colour : Bool) (s : Span) : String :=
  if colour then
    match s.style with
    | .plain => s.text
    | .bold => escape "1" ++ s.text ++ escape "0"
    | .inked ink => escape "1" ++ escape ink.code ++ s.text ++ escape "0"
  else s.text

def Styled.render (colour : Bool) (t : Styled) : String :=
  String.join (t.map (Span.render colour))

/-- What a styled text says, whatever it looks like. -/
def Styled.content (t : Styled) : String :=
  String.join (t.map Span.text)

theorem Styled.render_false (t : Styled) : Styled.render false t = Styled.content t := by
  unfold Styled.render Styled.content
  congr 1

end NormalOrder.Text
