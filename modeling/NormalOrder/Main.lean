import NormalOrder.Program

/-!
# The command

Reads lines and files, runs the program on them, and prints what it gives. Files that the program
asks for are put into its store before it runs and taken from there afterwards.
-/

namespace NormalOrder.Terminal

structure Channels where
  colour : Bool
  logging : Log.Setup

def Channels.write (c : Channels) : Event → IO Unit
  | .printed text => IO.print text
  | .reported text => IO.print (Text.Styled.render c.colour text)
  | .logged record => IO.eprint (Text.Styled.render c.colour (c.logging.write record))

/-- Writes what has happened so far. -/
def Channels.drain (c : Channels) (w : Workspace) : IO Workspace := do
  w.events.forM c.write
  (← IO.getStdout).flush
  return { w with events := #[] }

/-- Puts a file into the store if it can be read. -/
def fetch (files : Files) (path : String) : IO Files := do
  try
    let bytes ← IO.FS.readBinFile path
    return files.add path bytes.toList
  catch _ => return files

/-- Opens a file to be written, if that is possible. -/
def openOutput (path : String) : IO (Option IO.FS.Handle) := do
  try
    return some (← IO.FS.Handle.mk path .write)
  catch _ => return none

def exitCode : Failure → UInt32
  | .exit code => UInt32.ofNat code.toNat
  | _ => 1

/-- Ends the program after a failure, which is reported. -/
def Channels.finish (c : Channels) (w : Workspace) (f : Failure) : IO UInt32 := do
  let (w, raised) := w.report f
  let _ ← c.drain w
  return (raised.map exitCode).getD 0

/-- Runs a line with the file it asks for. -/
def Channels.runLine (c : Channels) (s : Shell) (line : String) :
    IO (EStateM.Result Failure Shell Bool) := do
  let (files, output) ← match s.fileUse? line with
    | some (.reads path) => pure (← fetch {} path, none)
    | some (.writes path) => do
      match ← openOutput path with
      | some handle => pure ((({} : Files).add path []), some (path, handle))
      | none => pure ({}, none)
    | none => pure ({}, none)
  let result := Shell.runLine line { s with workspace.files := files }
  let after := match result with
    | .ok _ s => s
    | .error _ s => s
  if let some (path, handle) := output then
    handle.write (ByteArray.mk ((after.workspace.files.read path).toOption.getD []).toArray)
  let workspace ← c.drain after.workspace
  return match result with
    | .ok stop s => .ok stop { s with workspace }
    | .error f s => .error f { s with workspace }

partial def Channels.interact (c : Channels) (s : Shell) : IO UInt32 := do
  IO.print s.prompt
  (← IO.getStdout).flush
  let line ← (← IO.getStdin).getLine
  let text :=
    if line.isEmpty then CommandLine.endWord
    else String.ofList (line.toList.reverse.dropWhile (· = '\n')).reverse
  match ← c.runLine s text with
  | .ok true _ => return 0
  | .ok false s => c.interact s
  | .error f s => c.finish s.workspace f

end NormalOrder.Terminal

open NormalOrder in
/-- Runs the program with the given arguments. -/
def main (arguments : List String) : IO UInt32 := do
  match Options.parse arguments with
  | .error stop =>
    IO.print stop.output
    IO.eprint stop.complaint
    return UInt32.ofNat stop.code.toNat
  | .ok o =>
    let channels : Terminal.Channels :=
      { colour := ← (← IO.getStdout).isTty
        logging := Program.logSetup o (← (← IO.getStderr).isTty) }
    let files ← (o.preludes.filterMap id ++ o.file.toList).foldlM Terminal.fetch {}
    let w := Program.start o files 1000000000000
    let load : Action Unit := do
      Program.loadPreludes o
      if let some file := o.file then Session.load file
    match load w with
    | .error f w => channels.finish w f
    | .ok _ w =>
      let w ← channels.drain w
      if o.file.isSome then return 0
      else
        IO.print (Shell.intro ++ "\n")
        channels.interact (Shell.start w)
