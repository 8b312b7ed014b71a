import NormalOrder.Environment
import NormalOrder.Statement.Program

/-!
# The prelude

The program that comes with the interpreter: booleans, pairs, Church numerals, combinators and a
recursive function. It is loaded before anything else unless that is turned off.
-/

namespace NormalOrder.Prelude

/-- The name under which it is loaded. -/
def path : String := "<prelude>"

def sourceLines : List String :=
  [
    ";; Bundled prelude, loaded at startup unless --no-prelude is given.",
    ";; Bindings are resolved lazily, so their order only matters for read-back of results: " ++
      "when two bindings are",
    ";; alpha-equivalent (true and K, false and zero), results are shown with the one " ++
      "defined first.",
    "",
    ";; booleans",
    "true = \\t. \\f. t",
    "false = \\t. \\f. f",
    "if = \\b. \\t. \\f. b t f",
    "not = \\b. b false true",
    "and = \\a. \\b. a b false",
    "or = \\a. \\b. a true b",
    "",
    ";; pairs",
    "pair = \\a. \\b. \\s. s a b",
    "fst = \\p. p true",
    "snd = \\p. p false",
    "",
    ";; Church numerals",
    "zero = \\f. \\x. x",
    "one = \\f. \\x. f x",
    "two = \\f. \\x. f (f x)",
    "three = \\f. \\x. f (f (f x))",
    "succ = \\n. \\f. \\x. f (n f x)",
    "plus = \\m. \\n. \\f. \\x. m f (n f x)",
    "mult = \\m. \\n. \\f. m (n f)",
    "pow = \\b. \\e. e b",
    "pred = \\n. \\f. \\x. n (\\g. \\h. h (g f)) (\\u. x) (\\u. u)",
    "sub = \\m. \\n. n pred m",
    "iszero = \\n. n (\\x. false) true",
    "leq = \\m. \\n. iszero (sub m n)",
    "eq = \\m. \\n. and (leq m n) (leq n m)",
    "",
    ";; combinators",
    "I = \\x. x",
    "K = \\x. \\y. x",
    "S = \\x. \\y. \\z. x z (y z)",
    "B = \\f. \\g. \\x. f (g x)",
    "C = \\f. \\x. \\y. f y x",
    "omega = \\x. x x",
    "Y = \\f. (\\x. f (x x)) (\\x. f (x x))",
    "",
    ";; recursion",
    "fact = Y (\\r. \\n. if (iszero n) one (mult n (r (pred n))))"
  ]

def text : String :=
  String.join (sourceLines.map (· ++ "\n"))

/-- The bindings that loading it makes in an empty session. -/
def environment : Environment :=
  Roster.ofList (Statement.bindings sourceLines)

end NormalOrder.Prelude
