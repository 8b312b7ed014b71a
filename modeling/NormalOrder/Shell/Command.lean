import NormalOrder.Text.Layout

/-!
# Commands

The commands of the shell. A command may be shortened as long as no other one starts the same way.
-/

namespace NormalOrder

inductive Command
  | env | exit | help | limit | load | names | quit | save | step | trace
deriving DecidableEq, Repr

namespace Command

/-- All commands in alphabetical order. -/
def all : List Command :=
  [env, exit, help, limit, load, names, quit, save, step, trace]

def name : Command → String
  | env => "env"
  | exit => "exit"
  | help => "help"
  | limit => "limit"
  | load => "load"
  | names => "names"
  | quit => "quit"
  | save => "save"
  | step => "step"
  | trace => "trace"

/-- What a command does, in one line. -/
def summary : Command → String
  | env => "Lists bindings, or shows one (:env NAME)."
  | exit => "Exits interpreter."
  | help => "Shows help for a command (:help step), or a short intro."
  | limit => "Shows or sets the maximum number of steps per evaluation (:limit N, 0 for no limit)."
  | load => "Runs a .lc file, defining its bindings (:load FILE)."
  | names => "Shows or toggles showing results with binding names (:names on|off)."
  | quit => "Exits interpreter."
  | save => "Writes all bindings to a .lc file (:save FILE)."
  | step =>
    "Performs one reduction step of a new λ-term (:step TERM), or of the current one (:step)."
  | trace => "Shows or toggles printing of every intermediate term (:trace on|off)."

/-- What is said about a command besides the summary. -/
def details : Command → String
  | names =>
    "\n\n        Among alpha-equivalent bindings the one defined first is shown: with the " ++
      "bundled prelude, zero and pred one\n        print as false, and K prints as true. Turn " ++
      "names off to see the λ-term itself.\n        "
  | _ => ""

def withStart (start : String) : List Command :=
  all.filter fun c => Text.hasStart start c.name

/-- The command of that name, or the only one that starts with it. -/
def find? (word : String) : Option Command :=
  match all.find? (·.name = word), withStart word with
  | some c, _ => some c
  | none, [c] => if word.isEmpty then none else some c
  | none, _ => none

end Command

/-- A line typed into the shell, taken apart. -/
structure CommandLine where
  /-- The word that names the command; empty if the line is none. -/
  command : String
  argument : String
  /-- The line without blanks around it. -/
  text : String
deriving DecidableEq, Repr

namespace CommandLine

/-- The word that stands for the end of the input. -/
def endWord : String := "EOF"

/-- The character that a command starts with. -/
def mark : Char := ':'

def isWordPart (c : Char) : Bool :=
  ('a' ≤ c && c ≤ 'z') || ('A' ≤ c && c ≤ 'Z') || ('0' ≤ c && c ≤ '9') || c == '_'

/-- The word and the argument of a command without its mark. A question mark asks for help, and an
exclamation mark makes it no command. -/
def split (command : String) : String × String :=
  let words (cs : List Char) : String × String :=
    (String.ofList (cs.takeWhile isWordPart), Text.trim (String.ofList (cs.dropWhile isWordPart)))
  match (Text.trim command).toList with
  | '?' :: rest => words ("help ".toList ++ rest)
  | '!' :: _ => ("", "")
  | cs => words cs

def ofLine (line : String) : CommandLine :=
  let text := Text.trim line
  if text = endWord then ⟨endWord, "", text⟩
  else
    match text.toList with
    | c :: rest =>
      if c = mark then
        let (command, argument) := split (String.ofList rest)
        ⟨command, argument, text⟩
      else ⟨"", text, text⟩
    | [] => ⟨"", text, text⟩

end CommandLine

end NormalOrder
