import NormalOrder.Options.Basic
import NormalOrder.Text.Layout
import NormalOrder.Text.Quoted

/-!
# Reading the command line

Every argument is first classed as an option or a plain one, before any of them takes effect; `--`
makes all that follow it plain. Options then take effect from left to right. A long option may be
cut short as long as it is not ambiguous, and short options without a value may be written together,
with an equals sign after the first of them or not. `--` is never a value: an option to which it is
attached as one is left without.
-/

namespace NormalOrder.Options

/-- A problem with the command line. -/
inductive Fault
  | ambiguous (argument : String) (spellings : List String)
  | missingValue (option : Kind)
  | unwantedValue (option : Kind) (value : String)
  | badLimit (fault : LimitFault) (value : String)
  | unrecognized (arguments : List String)
deriving DecidableEq, Repr

def Fault.message : Fault → String
  | ambiguous argument spellings =>
    "ambiguous option: " ++ argument ++ " could match " ++ String.intercalate ", " spellings
  | missingValue option => "argument " ++ option.name ++ ": expected one argument"
  | unwantedValue option value =>
    "argument " ++ option.name ++ ": ignored explicit argument " ++ Text.inQuotes value
  | badLimit (.notNatural text) _ =>
    "argument " ++ Kind.maxSteps.name ++ ": " ++ (LimitFault.notNatural text).message
  | badLimit (.numeral _) value =>
    "argument " ++ Kind.maxSteps.name ++ ": invalid step_limit value: " ++ Text.inQuotes value
  | unrecognized arguments => "unrecognized arguments: " ++ String.intercalate " " arguments

/-- How the program ends instead of starting. -/
inductive Stop
  | help
  | fault (f : Fault)
deriving DecidableEq, Repr

def Stop.code : Stop → Int
  | help => 0
  | fault _ => 2

/-- What is written to the standard output. -/
def Stop.output : Stop → String
  | help => helpText
  | fault _ => ""

/-- What is written to the standard error. -/
def Stop.complaint : Stop → String
  | help => ""
  | fault f => usage ++ "lambda-repl: error: " ++ f.message ++ "\n"

/-- An option as it is written. -/
structure Written where
  option : Kind
  /-- Whether it is written with one dash. -/
  isShort : Bool
  /-- The text written together with it. -/
  attached : Option String
deriving DecidableEq, Repr

inductive Class
  | plain
  | separator
  | known (written : Written)
  | unknown
deriving DecidableEq, Repr

/-- A text cut at its first equals sign, if it has one. -/
def cutEquals (cs : List Char) : String × Option String :=
  let front := cs.takeWhile (· ≠ '=')
  let attached := match cs.dropWhile (· ≠ '=') with
    | [] => none
    | _ :: rest => some (String.ofList rest)
  (String.ofList front, attached)

def isLong (spelling : String) : Bool :=
  Text.hasStart "--" spelling

def written (spelling : String) (option : Kind) (attached : Option String) : Written :=
  ⟨option, !isLong spelling, attached⟩

/-- The options that an argument which is none as it stands can be read as, with their spellings. -/
def candidates (argument : String) : List (String × Written) :=
  if isLong argument then
    let (front, attached) := cutEquals argument.toList
    (spellings.filter fun e => Text.hasStart front e.1).map fun e => (e.1, written e.1 e.2 attached)
  else
    let short := String.ofList (argument.toList.take 2)
    let rest := String.ofList (argument.toList.drop 2)
    (spellings.filter (·.1 = short)).map fun e => (e.1, written e.1 e.2 (some rest))

/-- A minus sign and digits, with a point in front of the last ones or not; a line end may
follow. -/
def isNegativeNumber (argument : String) : Bool :=
  match argument.toList with
  | '-' :: rest =>
    let body := if rest.getLast? = some '\n' then rest.dropLast else rest
    let whole := body.takeWhile Text.isDecimal
    let digits (cs : List Char) : Bool := !cs.isEmpty && cs.all Text.isDecimal
    match body.drop whole.length with
    | [] => digits whole
    | '.' :: fraction => digits fraction
    | _ => false
  | _ => false

/-- Classes an argument other than `--`. -/
def classify (argument : String) : Except Fault Class :=
  match argument.toList with
  | '-' :: _ :: _ =>
    let (front, attached) := cutEquals argument.toList
    match spellings.lookup argument, spellings.lookup front, candidates argument with
    | some option, _, _ => .ok (.known (written argument option none))
    | none, some option, _ => .ok (.known (written front option attached))
    | none, none, [(_, w)] => .ok (.known w)
    | none, none, _ :: _ :: _ => .error (.ambiguous argument ((candidates argument).map Prod.fst))
    | none, none, [] =>
      if isNegativeNumber argument ∨ ' ' ∈ argument.toList then .ok .plain else .ok .unknown
  | _ => .ok .plain

def classifyAll : List String → Except Fault (List (String × Class))
  | [] => .ok []
  | "--" :: rest => .ok (("--", .separator) :: rest.map (·, .plain))
  | argument :: rest => do
    let c ← classify argument
    return (argument, c) :: (← classifyAll rest)

/-- What the options in one argument amount to. -/
structure Taken where
  /-- The options with their values. -/
  settings : List (Kind × String)
  /-- Whether the argument that follows is the value of the last option. -/
  usesNext : Bool

def Taken.cons (setting : Kind × String) (t : Taken) : Taken :=
  { t with settings := setting :: t.settings }

/-- The short option with this letter. -/
def shortOption? (c : Char) : Option Kind :=
  spellings.lookup (String.ofList ['-', c])

/-- Takes an option with nothing attached to it: `next` is the plain argument that follows, if one
does. -/
def takeBare (next : Option String) (option : Kind) : Except Fault Taken :=
  if option.takesValue then
    match next with
    | some value => .ok ⟨[(option, value)], true⟩
    | none => .error (.missingValue option)
  else .ok ⟨[(option, "")], false⟩

/-- Takes an option with `text` attached to it, which is its value or, behind a short option that
takes none, more short options. -/
def takeAttached (next : Option String) (option : Kind) (isShort : Bool) (text : List Char) :
    Except Fault Taken :=
  if option.takesValue then .ok ⟨[(option, String.ofList text)], false⟩
  else
    match text with
    | [] => .error (.unwantedValue option "")
    | c :: rest =>
      match isShort, shortOption? c with
      | true, some following => do
        let more ←
          if rest.isEmpty then takeBare next following else takeAttached next following true rest
        return more.cons (option, "")
      | _, _ => .error (.unwantedValue option (String.ofList (c :: rest)))
termination_by text.length

def take (next : Option String) (w : Written) : Except Fault Taken :=
  match w.attached with
  | none => takeBare next w.option
  | some text => takeAttached next w.option w.isShort text.toList

/-- What is left of a value. -/
def value? (text : String) : Option String :=
  if text = "--" then none else some text

/-- The options after one of them has taken effect. -/
def set (o : Options) (setting : Kind × String) : Except Stop Options :=
  match setting.1 with
  | .help => .error .help
  | .prelude => .ok { o with preludes := o.preludes ++ [value? setting.2] }
  | .noPrelude => .ok { o with noPrelude := true }
  | .maxSteps =>
    match (value? setting.2).map readLimit with
    | none => .ok { o with maxSteps := .blank }
    | some (.ok limit) => .ok { o with maxSteps := limit }
    | some (.error fault) => .error (.fault (.badLimit fault setting.2))
  | .trace => .ok { o with trace := true }
  | .noNames => .ok { o with noNames := true }
  | .verbose => .ok { o with verbose := true }

/-- What has been read so far. -/
structure Progress where
  options : Options := {}
  /-- Whether the file has been looked for. -/
  fileTaken : Bool := false
  /-- Arguments that mean nothing. -/
  extras : List String := []

def Progress.takeFile (p : Progress) (file : Option String) : Progress :=
  { p with options := { p.options with file }, fileTaken := true }

def Progress.addExtras (p : Progress) (arguments : List String) : Progress :=
  { p with extras := p.extras ++ arguments }

/-- Reads classed arguments from left to right. The first plain one is the file, together with a
separator in front of it or behind it. -/
def readAll (p : Progress) (arguments : List (String × Class)) : Except Stop Progress :=
  match arguments with
  | [] => .ok p
  | (argument, .plain) :: rest =>
    if p.fileTaken then readAll (p.addExtras [argument]) rest
    else
      match rest with
      | (_, .separator) :: rest => readAll (p.takeFile (some argument)) rest
      | rest => readAll (p.takeFile (some argument)) rest
  | (argument, .separator) :: rest =>
    if p.fileTaken then readAll (p.addExtras [argument]) rest
    else
      match rest with
      | (file, .plain) :: rest => readAll (p.takeFile (some file)) rest
      | rest => readAll (p.takeFile none) rest
  | (argument, .unknown) :: rest => readAll (p.addExtras [argument]) rest
  | (_, .known w) :: rest => do
    let next := match rest with
      | (value, .plain) :: _ => some value
      | _ => none
    match take next w with
    | .error fault => .error (.fault fault)
    | .ok taken =>
      let options ← taken.settings.foldlM set p.options
      let p := { p with options }
      match taken.usesNext, rest with
      | true, _ :: rest => readAll p rest
      | _, rest => readAll p rest
termination_by arguments.length

/-- Reads the arguments of the program. -/
def parse (arguments : List String) : Except Stop Options := do
  match classifyAll arguments with
  | .error fault => .error (.fault fault)
  | .ok classed =>
    let p ← readAll {} classed
    if p.extras.isEmpty then return p.options else .error (.fault (.unrecognized p.extras))

end NormalOrder.Options
