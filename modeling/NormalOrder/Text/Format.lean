import NormalOrder.Text.Digit

/-!
# Formats

How a value is laid out in a message: padded to a width, set to one side of it, or cut off. A format
is written as

```
[[fill]align][sign]["z"]["#"]["0"][width][grouping]["." precision][code]
```

Much of this is for numbers only, and a text whose format asks for it cannot be laid out.
-/

namespace NormalOrder.Text

/-- A value to be put into a message. -/
inductive Argument
  | text (s : String)
  | number (n : Int)
deriving DecidableEq, Repr

namespace Argument

def render : Argument → String
  | text s => s
  | number n => toString n

/-- What kind of value it is said to be. -/
def kind : Argument → String
  | text _ => "str"
  | number _ => "int"

/-- The code of a format that has none. -/
def usualCode : Argument → Char
  | text _ => 's'
  | number _ => 'd'

end Argument

namespace Format

inductive Fault
  /-- A number that is too large. -/
  | tooManyDigits
  /-- Two marks of grouping. -/
  | bothGroupings
  /-- A mark of grouping with a code that has no groups. -/
  | grouping (mark code : Char)
  /-- A point with no digits behind it. -/
  | noPrecision
  /-- More than a code at the end. -/
  | invalid (spec kind : String)
  | unknownCode (code : Char) (kind : String)
  | space
  | sign
  | negativeZero
  | alternate
  | innerPadding
  /-- A number is not cut off. -/
  | precision
deriving DecidableEq, Repr

/-- A character in quotes, or its code point if it cannot be told by its looks. -/
def quotedCode (c : Char) : String :=
  let shown := if 32 < c.toNat ∧ c.toNat < 128 then [c] else '\\' :: 'x' :: Nat.toDigits 16 c.toNat
  "'" ++ String.ofList shown ++ "'"

def Fault.message : Fault → String
  | tooManyDigits => "Too many decimal digits in format string"
  | bothGroupings => "Cannot specify both ',' and '_'."
  | grouping mark code => "Cannot specify '" ++ mark.toString ++ "' with " ++ quotedCode code ++ "."
  | noPrecision => "Format specifier missing precision"
  | invalid spec kind =>
    "Invalid format specifier '" ++ spec ++ "' for object of type '" ++ kind ++ "'"
  | unknownCode code kind =>
    "Unknown format code " ++ quotedCode code ++ " for object of type '" ++ kind ++ "'"
  | space => "Space not allowed in string format specifier"
  | sign => "Sign not allowed in string format specifier"
  | negativeZero => "Negative zero coercion (z) not allowed in string format specifier"
  | alternate => "Alternate form (#) not allowed in string format specifier"
  | innerPadding => "'=' alignment not allowed in string format specifier"
  | precision => "Precision not allowed in integer format specifier"

inductive Align
  | left
  | right
  | centre
  /-- Between the sign of a number and its digits. -/
  | inner
deriving DecidableEq, Repr

def Align.ofChar? : Char → Option Align
  | '<' => some .left
  | '>' => some .right
  | '^' => some .centre
  | '=' => some .inner
  | _ => none

structure Spec where
  fill : Option Char
  align : Option Align
  sign : Option Char
  coercesZero : Bool
  alternate : Bool
  /-- Zeros fill the width. -/
  zeros : Bool
  width : Option Nat
  precision : Option Nat
  code : Option Char

/-- The side, with the character in front of it if that is to fill the width. -/
def takeAlign (cs : List Char) : Option Char × Option Align × List Char :=
  let alone : Option Char × Option Align × List Char :=
    match cs with
    | [] => (none, none, [])
    | c :: rest =>
      match Align.ofChar? c with
      | some align => (none, some align, rest)
      | none => (none, none, cs)
  match cs with
  | fill :: c :: rest =>
    match Align.ofChar? c with
    | some align => (some fill, some align, rest)
    | none => alone
  | _ => alone

/-- The first character, if it satisfies `p`. -/
def takeIf (p : Char → Bool) : List Char → Option Char × List Char
  | [] => (none, [])
  | c :: rest => if p c then (some c, rest) else (none, c :: rest)

/-- The largest number in a format or a template. -/
def maxNumber : Nat := 0x7fffffffffffffff

/-- The number made by the decimal digits at the front, if there are any. -/
def takeNumber (cs : List Char) : Except Fault (Option Nat × List Char) :=
  let digits := cs.takeWhile isDecimal
  if digits.isEmpty then .ok (none, cs)
  else if maxNumber < decimalValue digits then .error .tooManyDigits
  else .ok (some (decimalValue digits), cs.dropWhile isDecimal)

def takeGrouping : List Char → Except Fault (Option Char × List Char)
  | ',' :: '_' :: _ => .error .bothGroupings
  | '_' :: ',' :: _ => .error .bothGroupings
  | ',' :: rest => .ok (some ',', rest)
  | '_' :: rest => .ok (some '_', rest)
  | rest => .ok (none, rest)

def takePrecision : List Char → Except Fault (Option Nat × List Char)
  | '.' :: rest => do
    match ← takeNumber rest with
    | (none, _) => .error .noPrecision
    | found => return found
  | rest => .ok (none, rest)

/-- Whether what is written under a code has groups. -/
def groups (mark code : Char) : Bool :=
  code ∈ ['d', 'e', 'f', 'g', 'E', 'G', '%', 'F', '\x00'] ||
    mark = '_' && code ∈ ['b', 'o', 'x', 'X']

/-- Reads the format of a value. -/
def Spec.parse (a : Argument) (cs : List Char) : Except Fault Spec := do
  let (fill, align, rest) := takeAlign cs
  let (sign, rest) := takeIf (· ∈ [' ', '+', '-']) rest
  let (z, rest) := takeIf (· = 'z') rest
  let (hash, rest) := takeIf (· = '#') rest
  -- Where a character to fill the width is given, a zero is a digit of the width.
  let (zero, rest) := if fill.isSome then (none, rest) else takeIf (· = '0') rest
  let (width, rest) ← takeNumber rest
  let (mark, rest) ← takeGrouping rest
  let (precision, rest) ← takePrecision rest
  if 1 < rest.length then throw (.invalid (String.ofList cs) a.kind)
  let code := rest.head?
  if let some mark := mark then
    unless groups mark (code.getD a.usualCode) do
      throw (.grouping mark (code.getD a.usualCode))
  return { fill, align, sign, coercesZero := z.isSome, alternate := hash.isSome,
           zeros := zero.isSome, width, precision, code }

/-- What the format asks for that a text cannot give. -/
def Spec.refusal? (s : Spec) : Option Fault :=
  if s.sign = some ' ' then some .space
  else if s.sign.isSome then some .sign
  else if s.coercesZero then some .negativeZero
  else if s.alternate then some .alternate
  else if s.align = some .inner then some .innerPadding
  else none

def pad (fill : Char) (align : Align) (width : Nat) (cs : List Char) : List Char :=
  let missing := width - cs.length
  let padding (n : Nat) : List Char := List.replicate n fill
  match align, cs with
  | .left, cs => cs ++ padding missing
  | .right, cs => padding missing ++ cs
  | .centre, cs => padding (missing / 2) ++ cs ++ padding (missing - missing / 2)
  | .inner, '-' :: digits => '-' :: padding missing ++ digits
  | .inner, cs => padding missing ++ cs

def Spec.place (s : Spec) (usual : Align) (cs : List Char) : List Char :=
  pad (s.fill.getD (if s.zeros then '0' else ' ')) (s.align.getD usual) (s.width.getD 0) cs

/-- Lays a value out. A number comes here only after the text that shows it has been laid out in the
same way, so it is never asked for what a text cannot give. -/
def Spec.layOut (s : Spec) (a : Argument) : Except Fault (List Char) := do
  match a with
  | .text text =>
    if s.code.getD 's' ≠ 's' then throw (.unknownCode (s.code.getD 's') a.kind)
    if let some fault := s.refusal? then throw fault
    return s.place .left (text.toList.take (s.precision.getD text.length))
  | .number n =>
    if let some code := s.code then throw (.unknownCode code a.kind)
    if s.precision.isSome then throw .precision
    if let some fault := s.refusal? then throw fault
    return s.place (if s.zeros then .inner else .right) (toString n).toList

/-- A value in a format. Where the format is empty, it is shown as it is. -/
def write (a : Argument) (spec : List Char) : Except Fault (List Char) := do
  if spec.isEmpty then return a.render.toList
  else (← Spec.parse a spec).layOut a

end Format

end NormalOrder.Text
