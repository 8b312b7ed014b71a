import NormalOrder.Reduction.Run
import NormalOrder.Text.Digit

/-!
# Options of the command line

What the program can be told when it is started, the texts that explain it, and how a limit on steps
is read.
-/

namespace NormalOrder

structure Options where
  /-- The program to run; the shell is started if there is none. -/
  file : Option String := none
  /-- Files to load first, in order; nothing stands for one that was asked for without a name. -/
  preludes : List (Option String) := []
  noPrelude : Bool := false
  maxSteps : Reduction.Limit := .default
  trace : Bool := false
  noNames : Bool := false
  verbose : Bool := false
deriving DecidableEq, Repr

namespace Options

inductive Kind
  | help | prelude | noPrelude | maxSteps | trace | noNames | verbose
deriving DecidableEq, Repr

/-- The spellings of the options, in the order in which they are looked through. -/
def spellings : List (String × Kind) :=
  [("-h", .help), ("--help", .help), ("-p", .prelude), ("--prelude", .prelude),
    ("--no-prelude", .noPrelude), ("-n", .maxSteps), ("--max-steps", .maxSteps), ("-t", .trace),
    ("--trace", .trace), ("--no-names", .noNames), ("-v", .verbose), ("--verbose", .verbose)]

/-- An option by all its spellings. -/
def Kind.name (k : Kind) : String :=
  String.intercalate "/" ((spellings.filter (·.2 = k)).map Prod.fst)

def Kind.takesValue : Kind → Bool
  | prelude => true
  | maxSteps => true
  | _ => false

def usage : String :=
  "usage: lambda-repl [-h] [-p PRELUDE] [--no-prelude] [-n MAX_STEPS] [-t]\n" ++
    "                   [--no-names] [-v]\n" ++
    "                   [file]\n"

def helpText : String :=
  usage ++ "\nNormal-order λ-calculus interpreter.\n\n" ++
    "positional arguments:\n" ++
    "  file                  file to interpret and run (if empty, goes to command-\n" ++
    "                        line mode)\n\n" ++
    "options:\n" ++
    "  -h, --help            show this help message and exit\n" ++
    "  -p PRELUDE, --prelude PRELUDE\n" ++
    "                        extra .lc file to load first (repeatable)\n" ++
    "  --no-prelude          do not load the bundled prelude\n" ++
    "  -n MAX_STEPS, --max-steps MAX_STEPS\n" ++
    "                        maximum reduction steps per evaluation, 0 for no limit\n" ++
    "                        (default: 10000)\n" ++
    "  -t, --trace           print every intermediate term\n" ++
    "  --no-names            do not show results with binding names\n" ++
    "  -v, --verbose         log debug information to stderr\n"

inductive LimitFault
  | notNatural (text : String)
  | numeral (fault : Text.NumeralFault)
deriving DecidableEq, Repr

def LimitFault.message : LimitFault → String
  | notNatural text => "'" ++ text ++ "' is not a natural number"
  | numeral fault => fault.message

def readLimit (text : String) : Except LimitFault Reduction.Limit :=
  if !Text.isNumeric text then .error (.notNatural text)
  else
    match Text.readNumeral text with
    | .ok n => .ok (.ofNat n)
    | .error fault => .error (.numeral fault)

end Options

end NormalOrder
