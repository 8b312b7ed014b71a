import NormalOrder.Files.Pattern
import NormalOrder.Shell.Basic

/-!
# Completion

What a word at the cursor can be completed to: names of commands, bindings and switches, or files.
Nothing is found below a path with a null character; that the search itself breaks down there is
left out.
-/

namespace NormalOrder.Shell

def completeBinding (s : Shell) (word : String) : List String :=
  s.workspace.session.environment.names.filter (Text.hasStart word)

def completeSwitch (word : String) : List String :=
  ["on", "off"].filter (Text.hasStart word.toLower)

/-- A word directly behind the mark of a command is one, and any other word is the name of a
binding. -/
def completeWord (s : Shell) (word line : String) (start : Int) : List String :=
  if Text.trim (Text.sliceTo line start) = CommandLine.mark.toString then
    (Command.withStart word).map Command.name
  else s.completeBinding word

/-- The files whose paths start with the part of the line between its last blank and position
`stop`. Of this part, `word` is what gets replaced, so the rest is left out of the answers. -/
def completeFile (s : Shell) (word line : String) (stop : Int) : List String :=
  let before := Text.sliceTo line stop
  let path := String.ofList (before.toList.reverse.takeWhile (· ≠ ' ')).reverse
  let offset : Int := path.length - word.length
  let files := s.workspace.files
  let found := (files.expand (path ++ "*")).mergeSort fun a b => a ≤ b
  found.map fun f => Text.sliceFrom (if files.isDirectory f then f ++ "/" else f) offset

end NormalOrder.Shell
