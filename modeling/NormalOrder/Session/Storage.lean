import NormalOrder.Session.Evaluation
import NormalOrder.Statement.Program

/-!
# Programs in files

Loading runs the statements of a file in the session; saving writes its bindings as a file that can
be loaded.
-/

namespace NormalOrder.Session

open NormalOrder.Action

/-- Runs a program as the contents of a file. -/
def runText (path text : String) : Action Unit := do
  let statements := Statement.statements (Text.lines text)
  let before := (← session).environment.size
  statements.forM fun s => do
    add s.text s.number path
    flush
  let after := (← session).environment.size
  log Log.info ("loaded '" ++ path ++ "': " ++ toString statements.length ++ " statements, " ++
    toString (after - before) ++ " new bindings")
  modifyTraceback (·.erase path)

/-- Runs a program that is at hand under the name of a file. -/
def loadText (path text : String) : Action Unit := do
  modifyTraceback (·.insert path none)
  runText path text

/-- The failure to open a file. The program is prepared for a file that is not there, but not for a
path that no file can have. -/
def unopened (path complaint : String) : Files.OpenFault → Failure
  | .unavailable => .reported (.remark (Text.quoted path ++ Text.plain complaint) path)
  | .nullCharacter => .breakdown .nullCharacter

/-- Runs the file at a path. It is decoded as a whole before anything in it runs. -/
def load (path : String) : Action Unit := do
  modifyTraceback (·.insert path none)
  match (← get).files.read path with
  | .error fault => throw (unopened path " could not be opened" fault)
  | .ok bytes =>
    match Text.Utf8.decode bytes with
    | .error fault => throw (.breakdown (.undecodable fault))
    | .ok text => runText path text

/-- The bindings as a program. -/
def program (env : Environment) : String :=
  ";; " ++ toString env.size ++ " bindings saved by lambda-repl\n" ++
    String.join (env.entries.map fun e => e.1 ++ " = " ++ e.2.render ++ "\n")

def save (path : String) : Action Unit := do
  let env := (← session).environment
  match (← get).files.write path (Text.Utf8.encode (program env)) with
  | .error fault => throw (unopened path " could not be written" fault)
  | .ok files =>
    modify fun w => { w with files }
    log Log.info ("saved " ++ toString env.size ++ " bindings to '" ++ path ++ "'")

end NormalOrder.Session
