import NormalOrder.Text.Format
import NormalOrder.Text.Quoted
import NormalOrder.Text.Styled

/-!
# Message templates

A template is text with fields for values, and a doubled brace stands for itself. A field `{}` takes
the next value and `{1}` the one with that index, counted from zero; the two ways are not mixed.
Behind the index, a field may take a part of the value (`{0[2]}`, `{0.name}`), ask for it in quotes
(`{0!r}`), and give it a format (`{0:>8}`), in which there may be fields again.

A template is filled from left to right, so a fault in a field comes before one further on, even if
that is a fault of the template as it is written. Which attributes there are and what they are is
left open.
-/

namespace NormalOrder.Text.Template

inductive Fault
  /-- A closing brace that closes nothing. -/
  | strayClose
  /-- An opening brace at the very end. -/
  | strayOpen
  /-- A field that is not closed. -/
  | unclosed
  | braceInName
  | noConversion
  /-- Something between the conversion and the format. -/
  | afterConversion
  /-- A format that is not closed. -/
  | unmatched
  /-- `{}` after a field with an index. -/
  | automaticAfterManual
  /-- A field with an index after `{}`. -/
  | manualAfterAutomatic
  /-- A field named by something other than a number. -/
  | unknown (name : String)
  /-- There is no value with this index. -/
  | missing (index : Nat)
  | unclosedPart
  | emptyPart
  | afterPart
  /-- A text has fewer characters. -/
  | outOfRange
  /-- A part of a text that is not named by a number. -/
  | noIndex
  /-- A part of a number. -/
  | noParts
  | noAttribute (kind name : String)
  | unknownConversion (c : Char)
  /-- Fields in the format of a field in a format. -/
  | tooDeep
  | format (fault : Format.Fault)
  | other (kind message : String)
deriving DecidableEq, Repr

namespace Fault

def kind : Fault → String
  | unknown _ => "KeyError"
  | missing _ => "IndexError"
  | outOfRange => "IndexError"
  | noIndex => "TypeError"
  | noParts => "TypeError"
  | noAttribute _ _ => "AttributeError"
  | other kind _ => kind
  | _ => "ValueError"

def message : Fault → String
  | strayClose => "Single '\x7d' encountered in format string"
  | strayOpen => "Single '\x7b' encountered in format string"
  | unclosed => "expected '\x7d' before end of string"
  | braceInName => "unexpected '\x7b' in field name"
  | noConversion => "end of string while looking for conversion specifier"
  | afterConversion => "expected ':' after conversion specifier"
  | unmatched => "unmatched '\x7b' in format spec"
  | automaticAfterManual =>
    "cannot switch from manual field specification to automatic field numbering"
  | manualAfterAutomatic =>
    "cannot switch from automatic field numbering to manual field specification"
  | unknown name => inQuotes name
  | missing index =>
    "Replacement index " ++ toString index ++ " out of range for positional args tuple"
  | unclosedPart => "Missing ']' in format string"
  | emptyPart => "Empty attribute in format string"
  | afterPart => "Only '.' or '[' may follow ']' in format field specifier"
  | outOfRange => "string index out of range"
  | noIndex => "string indices must be integers, not 'str'"
  | noParts => "'int' object is not subscriptable"
  | noAttribute kind name => "'" ++ kind ++ "' object has no attribute '" ++ name ++ "'"
  | unknownConversion c =>
    let shown :=
      if 32 < c.toNat ∧ c.toNat < 127 then [c] else '\\' :: 'x' :: Nat.toDigits 16 c.toNat
    "Unknown conversion specifier " ++ String.ofList shown
  | tooDeep => "Max string recursion exceeded"
  | format fault => fault.message
  | other _ message => message

end Fault

section Scanning

def opening : Char := '\x7b'

def closing : Char := '\x7d'

structure Field where
  name : List Char
  conversion : Option Char := none
  spec : List Char := []
deriving DecidableEq, Repr

inductive Piece
  | literal (c : Char)
  | field (f : Field)
deriving DecidableEq, Repr

/-- The name of a field, the character that ends it, and what comes after that; `name` is the name
so far, in reverse. Between brackets anything is part of the name. -/
def takeName (bracketed : Bool) (name : List Char) :
    List Char → Except Fault (List Char × Char × List Char)
  | [] => .error .unclosed
  | c :: rest =>
    if bracketed then takeName (c ≠ ']') (c :: name) rest
    else if c = opening then .error .braceInName
    else if c ∈ [closing, ':', '!'] then .ok (name.reverse, c, rest)
    else takeName (c = '[') (c :: name) rest

/-- The format of a field and what comes after the brace that closes it; `depth` is the number of
braces that are open in it. -/
def takeSpec (depth : Nat) (spec : List Char) : List Char → Except Fault (List Char × List Char)
  | [] => .error .unmatched
  | c :: rest =>
    if c = opening then takeSpec (depth + 1) (c :: spec) rest
    else if c = closing then
      match depth with
      | 0 => .ok (spec.reverse, rest)
      | depth + 1 => takeSpec depth (c :: spec) rest
    else takeSpec depth (c :: spec) rest

/-- What follows the name of a field, or its conversion, behind the character `stop`. -/
def takeFormat (f : Field) (stop : Char) (rest : List Char) : Except Fault (Field × List Char) :=
  if stop = closing then .ok (f, rest)
  else if stop = ':' then
    match takeSpec 0 [] rest with
    | .error fault => .error fault
    | .ok (spec, rest) => .ok ({ f with spec }, rest)
  else .error .afterConversion

/-- The field behind an opening brace. -/
def takeField (cs : List Char) : Except Fault (Field × List Char) :=
  match takeName false [] cs with
  | .error fault => .error fault
  | .ok (_, '!', []) => .error .noConversion
  | .ok (_, '!', [_]) => .error .unmatched
  | .ok (name, '!', c :: stop :: rest) =>
    takeFormat { name, conversion := if c = '\x00' then none else some c } stop rest
  | .ok (name, stop, rest) => takeFormat { name } stop rest

theorem suffix_of_takeName {bracketed : Bool} {name cs : List Char}
    {r : List Char × Char × List Char} (h : takeName bracketed name cs = .ok r) : r.2.2 <:+ cs := by
  fun_induction takeName bracketed name cs with
  | case1 => cases h
  | case2 name c rest ih => exact (ih h).trans (List.suffix_cons c rest)
  | case3 => cases h
  | case4 bracketed name c rest =>
    cases h
    exact List.suffix_cons c rest
  | case5 bracketed name c rest _ _ _ ih => exact (ih h).trans (List.suffix_cons c rest)

theorem suffix_of_takeSpec {depth : Nat} {spec cs : List Char} {r : List Char × List Char}
    (h : takeSpec depth spec cs = .ok r) : r.2 <:+ cs := by
  fun_induction takeSpec depth spec cs with
  | case1 => cases h
  | case2 depth spec rest ih => exact (ih h).trans (List.suffix_cons _ rest)
  | case3 spec rest =>
    cases h
    exact List.suffix_cons _ rest
  | case4 spec rest depth _ ih => exact (ih h).trans (List.suffix_cons _ rest)
  | case5 depth spec c rest _ _ ih => exact (ih h).trans (List.suffix_cons c rest)

theorem suffix_of_takeFormat {f : Field} {stop : Char} {rest : List Char} {r : Field × List Char}
    (h : takeFormat f stop rest = .ok r) : r.2 <:+ rest := by
  unfold takeFormat at h
  split at h
  · cases h
    exact List.suffix_rfl
  · split at h
    · split at h
      · cases h
      · next spec after hspec =>
        cases h
        exact suffix_of_takeSpec hspec
    · cases h

theorem suffix_of_takeField {cs after : List Char} {f : Field} (h : takeField cs = .ok (f, after)) :
    after <:+ cs := by
  unfold takeField at h
  split at h
  · cases h
  · cases h
  · cases h
  · next name c stop rest hname =>
    have hrest : rest <:+ c :: stop :: rest := ⟨[c, stop], rfl⟩
    exact ((suffix_of_takeFormat h).trans hrest).trans (suffix_of_takeName hname)
  · next name stop rest _ _ _ hname =>
    exact (suffix_of_takeFormat h).trans (suffix_of_takeName hname)

/-- The pieces of a template, and the fault at which it cannot be read on, if there is one. -/
def scan (cs : List Char) : List Piece × Option Fault :=
  match cs with
  | [] => ([], none)
  | c :: rest =>
    if c ≠ opening ∧ c ≠ closing then
      let more := scan rest
      (.literal c :: more.1, more.2)
    else if rest.head? = some c then
      let more := scan rest.tail
      (.literal c :: more.1, more.2)
    else if c = closing then ([], some .strayClose)
    else if rest.isEmpty then ([], some .strayOpen)
    else
      match _h : takeField rest with
      | .error fault => ([], some fault)
      | .ok (field, after) =>
        let more := scan after
        (.field field :: more.1, more.2)
termination_by cs.length
decreasing_by
  · simp
  · simp only [List.length_tail, List.length_cons]; omega
  · exact Nat.lt_succ_of_le (suffix_of_takeField _h).length_le

end Scanning

section Names

/-- How the fields met so far were named. -/
inductive Numbering
  | undecided
  | manual
  /-- `{}` was met; this is the index of the next one. -/
  | automatic (next : Nat)

/-- The number that a name is, if it is one. -/
def number? (name : List Char) : Except Fault (Option Nat) :=
  match Format.takeNumber name with
  | .error fault => .error (.format fault)
  | .ok (some n, []) => .ok (some n)
  | .ok _ => .ok none

/-- The index that a name without parts stands for, and the numbering after it. -/
def resolve (numbering : Numbering) (name : List Char) : Except Fault (Nat × Numbering) :=
  if name.isEmpty then
    match numbering with
    | .manual => .error .automaticAfterManual
    | .undecided => .ok (0, .automatic 1)
    | .automatic next => .ok (next, .automatic (next + 1))
  else
    match number? name, numbering with
    | .error fault, _ => .error fault
    | .ok none, _ => .error (.unknown (String.ofList name))
    | .ok (some _), .automatic _ => .error .manualAfterAutomatic
    | .ok (some n), _ => .ok (n, .manual)

/-- A part of a value. -/
inductive Part
  | member (name : String)
  | index (n : Nat)
  | key (name : String)
deriving DecidableEq, Repr

def startsPart (c : Char) : Bool :=
  c = '.' || c = '['

/-- The parts that a name goes on with, and the fault at which it cannot be read on, if there is
one. -/
def parts (cs : List Char) : List Part × Option Fault :=
  match cs with
  | [] => ([], none)
  | c :: rest =>
    if c = '.' then
      let name := rest.takeWhile fun c => !startsPart c
      if name.isEmpty then ([], some .emptyPart)
      else
        let more := parts (rest.drop name.length)
        (.member (String.ofList name) :: more.1, more.2)
    else if c = '[' then
      let name := rest.takeWhile (· ≠ ']')
      if name.length = rest.length then ([], some .unclosedPart)
      else
        match number? name with
        | .error fault => ([], some fault)
        | .ok n? =>
          if name.isEmpty then ([], some .emptyPart)
          else
            let part := (n?.map Part.index).getD (.key (String.ofList name))
            let more := parts (rest.drop (name.length + 1))
            (part :: more.1, more.2)
    else ([], some .afterPart)
termination_by cs.length
decreasing_by all_goals (simp only [List.length_drop, List.length_cons]; omega)

end Names

section Values

/-- What a field can stand for: a value that is given, or something else that attributes lead to. -/
inductive Value (ω : Type)
  | given (a : Argument)
  | object (o : ω)

/-- What fields can do with values that are not given, and where these come from. -/
structure Objects (ω : Type) where
  member : Value ω → String → Except Fault (Value ω)
  item : ω → Part → Except Fault (Value ω)
  convert : ω → Char → String
  format : ω → List Char → Except Fault (List Char)

/-- No attributes, and so no values but those that are given. -/
def Objects.absent : Objects Empty where
  member
    | .given a, name => .error (.noAttribute a.kind name)
  item := nofun
  convert := nofun
  format := nofun

/-- A text in quotes, with only ASCII characters in it. -/
def inAsciiQuotes (s : String) : String :=
  String.ofList ((inQuotes s).toList.flatMap fun c => if c.toNat < 128 then [c] else escapedCode c)

variable {ω : Type} (objects : Objects ω)

def Objects.part (v : Value ω) (p : Part) : Except Fault (Value ω) :=
  match v, p with
  | v, .member name => objects.member v name
  | .object o, p => objects.item o p
  | .given (.number _), _ => .error .noParts
  | .given (.text s), .index n =>
    match s.toList[n]? with
    | some c => .ok (.given (.text c.toString))
    | none => .error .outOfRange
  | .given (.text _), .key _ => .error .noIndex

def Objects.converted (v : Value ω) (conversion : Char) : Except Fault (Value ω) :=
  if conversion ∉ ['r', 's', 'a'] then .error (.unknownConversion conversion)
  else
    let text := match v with
      | .object o => objects.convert o conversion
      | .given (.number n) => toString n
      | .given (.text s) =>
        if conversion = 's' then s else if conversion = 'r' then inQuotes s else inAsciiQuotes s
    .ok (.given (.text text))

def Objects.formatted (v : Value ω) (spec : List Char) : Except Fault (List Char) :=
  match v with
  | .object o => objects.format o spec
  | .given a => (Format.write a spec).mapError .format

end Values

section Filling

variable {ω : Type} (objects : Objects ω) (values : List (Value ω))

/-- The value that a name stands for, and the numbering after it. -/
def lookUp (numbering : Numbering) (name : List Char) : Except Fault (Value ω × Numbering) := do
  let (index, numbering) ← resolve numbering (name.takeWhile fun c => !startsPart c)
  match values[index]? with
  | none => .error (.missing index)
  | some v =>
    let (ps, fault?) := parts (name.dropWhile fun c => !startsPart c)
    let v ← ps.foldlM objects.part v
    match fault? with
    | some fault => .error fault
    | none => return (v, numbering)

/-- Fills a field; `expand` fills the fields in its format. -/
def fillField (expand : Numbering → List Char → Except Fault (List Char × Numbering))
    (numbering : Numbering) (f : Field) : Except Fault (List Char × Numbering) := do
  let (v, numbering) ← lookUp objects values numbering f.name
  let v ← match f.conversion with
    | none => pure v
    | some c => objects.converted v c
  let (spec, numbering) ←
    if opening ∈ f.spec then expand numbering f.spec else pure (f.spec, numbering)
  return (← objects.formatted v spec, numbering)

def fillPieces (expand : Numbering → List Char → Except Fault (List Char × Numbering)) :
    Numbering → List Piece → Except Fault (List Char × Numbering)
  | numbering, [] => .ok ([], numbering)
  | numbering, .literal c :: rest => do
    let (more, numbering) ← fillPieces expand numbering rest
    return (c :: more, numbering)
  | numbering, .field f :: rest => do
    let (text, numbering) ← fillField objects values expand numbering f
    let (more, numbering) ← fillPieces expand numbering rest
    return (text ++ more, numbering)

/-- Fills a template in which fields stand in formats to the given depth. -/
def fillFrom : Nat → Numbering → List Char → Except Fault (List Char × Numbering)
  | 0, _, _ => .error .tooDeep
  | depth + 1, numbering, cs => do
    let filled ← fillPieces objects values (fillFrom depth) numbering (scan cs).1
    match (scan cs).2 with
    | some fault => .error fault
    | none => return filled

end Filling

/-- The template with the arguments in its fields. There may be fields in the formats of its fields,
but no further. -/
def fill {ω : Type} (objects : Objects ω) (arguments : List Argument) (template : String) :
    Except Fault String := do
  let filled ← fillFrom objects (arguments.map .given) 2 .undecided template.toList
  return String.ofList filled.1

end NormalOrder.Text.Template
