import GraphQLSchema.CommandLine.Run
import GraphQLSchema.FileTree

/-!
# Sessions

Runs of the program one after the other in a file tree. Each sees the files that those before it
have written. What a run has printed and written before it fails stays.
-/

namespace GraphQLSchema.CommandLine

inductive Line where
  | logged (time : String) (entry : LogEntry)
  | told (text : String)
  deriving DecidableEq, Repr

def Line.notice : Line → Notice
  | logged _ entry => .logged entry
  | told text => .told text

def Line.text (w : Wording) : Line → String
  | logged time entry => w.line time entry
  | told text => text

/-- What the clock shows behind so many notices of a run. -/
abbrev Clock := Nat → String

structure Machine where
  tree : FileTree
  clock : Clock
  stdout : String := ""
  stderr : List Line := []

def answer (t : FileTree) (path : String) : Except String Content :=
  match t.read path with
  | .ok content => .ok (content.mapError FileTree.Fault.message)
  | .error fault => .error fault.message

namespace Machine

variable (M : Machine)

def save (path : String) (bytes : List UInt8) : Except String Unit × Machine :=
  let (o, tree) := (FileTree.save path bytes).on M.tree
  (o.mapError FileTree.Fault.message, { M with tree })

def print (text : String) : Machine := { M with stdout := M.stdout ++ text }

def notify : Notice → Machine
  | .logged entry => { M with stderr := M.stderr ++ [.logged (M.clock M.stderr.length) entry] }
  | .told text => { M with stderr := M.stderr ++ [.told text] }

def notices : List Notice := M.stderr.map Line.notice

end Machine

def Program.on {α : Type} (M : Machine) : Program α → α × Machine
  | done a => (a, M)
  | read path next => (next (answer M.tree path)).on M
  | save path bytes next => (next (M.save path bytes).1).on (M.save path bytes).2
  | print text next => next.on (M.print text)
  | notify notice next => next.on (M.notify notice)

structure Outcome where
  ending : Ending
  stdout : String
  stderr : List Line
  deriving DecidableEq, Repr

namespace Outcome

variable (o : Outcome)

def exitCode : Nat := o.ending.exitCode

/-- The second stream without the times. -/
def notices : List Notice := o.stderr.map Line.notice

def stderrText (w : Wording) : String := String.join (o.stderr.map (Line.text w))

end Outcome

variable (w : Wording)

def runIn (clock : Clock) (t : FileTree) (args : List String) : Outcome × FileTree :=
  let (ending, M) := (program w args).on { tree := t, clock }
  ({ ending, stdout := M.stdout, stderr := M.stderr }, M.tree)

def session (t : FileTree) : List (Clock × List String) → List Outcome × FileTree
  | [] => ([], t)
  | (clock, args) :: more =>
    let (outcome, t) := runIn w clock t args
    let (outcomes, t) := session t more
    (outcome :: outcomes, t)

end GraphQLSchema.CommandLine
