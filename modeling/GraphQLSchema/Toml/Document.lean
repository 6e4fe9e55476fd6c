import GraphQLSchema.Occurrences
import GraphQLSchema.Toml.Value

/-!
# TOML documents

A document is a list of sections, each with a header and entries. `Document.ofText?` puts them
together as one table. Keys that repeat are kept; headers that do not go together are refused.
-/

namespace GraphQLSchema.Toml

open Text (Reader)

inductive Line where
  | header (isArray : Bool) (path : List String)
  | entry (path : List String) (value : Value)

structure Section where
  isArray : Bool
  path : List String
  entries : Entries

def lineEnd (ts : List Token) : Option (List Token) :=
  match skipBlanks ts with
  | [] => some []
  | [.comment] => some []
  | .comment :: .newline :: ts => some ts
  | .newline :: ts => some ts
  | _ => none

def header : Reader Line Token
  | .leftBracket :: ts => do
    let (p, ts) ← path (skipBlanks ts)
    match ts with
    | .rightBracket :: .rightBracket :: ts => (lineEnd ts).map (.header true p, ·)
    | _ => none
  | ts => do
    let (p, ts) ← path (skipBlanks ts)
    match ts with
    | .rightBracket :: ts => (lineEnd ts).map (.header false p, ·)
    | _ => none

def line : Reader Line Token := fun ts =>
  match skipIdle ts with
  | .leftBracket :: ts => header ts
  | ts => do
    let ((p, v), ts) ← Toml.entry value ts
    let ts ← lineEnd ts
    some (.entry p v, ts)

/-- Gathers lines into sections. `current` is the section being read. -/
def sections (current : Section) : List Line → Option (List Section)
  | [] => some [current]
  | .header isArray p :: ls => (sections { isArray, path := p, entries := [] } ls).map (current :: ·)
  | .entry p v :: ls => do
    let es ← insert p v current.entries
    sections { current with entries := es } ls

def below (k : String) (ss : List Section) : List Section :=
  ss.filterMap fun s =>
    match s.path with
    | k' :: p => if k' = k then some { s with path := p } else none
    | [] => none

/-- Cuts sections in front of every one that starts an element of an array. -/
def elements : List Section → List (List Section)
  | [] => []
  | s :: ss =>
    match elements ss with
    | [] => [[s]]
    | g :: gs =>
      match g with
      | t :: _ => if t.isArray && t.path.isEmpty then [s] :: g :: gs else (s :: g) :: gs
      | [] => [s] :: gs

def asElement : List Section → List Section
  | s :: ss => { s with isArray := false } :: ss
  | [] => []

/-- Puts sections together as one table. At most one of them is the table itself, and none starts
an array in its place. -/
def assemble : (depth : Nat) → List Section → Option Entries
  | 0, _ => none
  | depth + 1, ss => do
    let own ← match ss.filter (·.path.isEmpty) with
      | [] => some []
      | [s] => if s.isArray then none else some s.entries
      | _ => none
    let groups ← (firstOccurrences (ss.filterMap (·.path.head?))).mapM fun k =>
      let group := below k ss
      match group with
      | s :: _ =>
        if s.isArray && s.path.isEmpty then
          ((elements group).mapM fun g => (assemble depth (asElement g)).map (.table false)).map
            fun vs => (k, .array vs)
        else (assemble depth group).map fun es => (k, .table false es)
      | [] => none
    some (own ++ groups)

def maxPath (ss : List Section) : Nat := (ss.map (·.path.length)).foldl max 0

def Document.ofText? (text : String) : Option Entries := do
  let ts ← tokens? text
  let (ls, rest) := Reader.many line ts
  if !(skipIdle rest).isEmpty then none
  else
    let ss ← sections { isArray := false, path := [], entries := [] } ls
    assemble (maxPath ss + 1) ss

end GraphQLSchema.Toml
