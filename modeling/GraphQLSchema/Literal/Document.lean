import GraphQLSchema.Literal.Value

/-!
# Literals as arguments

A text is a literal if it can stand as the one argument of a field, in a document that has
nothing else to it. `ofText` lays the document out around the text and reads it whole.
-/

namespace GraphQLSchema.Literal

open Text (Reader)

/-- What a document selects. A field is plain if it has neither directives nor selections. -/
inductive Selection where
  | field (args : List (Option Literal)) (plain : Bool)
  | fragment

def arguments : Reader (List (Option Literal)) := fun s => do
  let ((), s) ← Token.mark "(" s
  let (args, s) ← Reader.many1 (entry value) s
  let ((), s) ← Token.mark ")" s
  some (args.map (·.2), s)

def directive : Reader Unit := fun s => do
  let ((), s) ← Token.mark "@" s
  let (_, s) ← Token.name s
  let (_, s) := arguments.optional s
  some ((), s)

def directives : Reader Unit := fun s => (Reader.many1 directive s).map fun (_, r) => ((), r)

/-- The type that a fragment applies to. The name follows blanks, not a comment. -/
def typeCondition : Reader Unit
  | 'o' :: 'n' :: c :: s => do
    if !isIgnored c then none
    else
      let (_, s) ← Token.name (s.dropWhile isIgnored)
      some ((), s)
  | _ => none

def aliasName : Reader Unit := fun s => do
  let (_, s) ← Token.name s
  Token.mark ":" s

section
variable (selectionSet : Reader (List Selection))

def field : Reader Selection := fun s => do
  let (_, s) := aliasName.optional s
  let (_, s) ← Token.name s
  let (args, s) := arguments.optional s
  let (directed, s) := directives.optional s
  let (selections, s) := selectionSet.optional s
  some (.field (args.getD []) (directed.isNone && selections.isNone), s)

def inlineFragment : Reader Selection := fun s => do
  let ((), s) ← Token.mark "..." s
  let (_, s) := typeCondition.optional s
  let (_, s) := directives.optional s
  let (_, s) ← selectionSet s
  some (.fragment, s)

def fragmentSpread : Reader Selection := fun s => do
  let ((), s) ← Token.mark "..." s
  if (typeCondition s).isSome then none
  else
    let (_, s) ← Token.name s
    let (_, s) := directives.optional s
    some (.fragment, s)

def selection : Reader Selection :=
  Reader.orElse (field selectionSet) (Reader.orElse (inlineFragment selectionSet) fragmentSpread)

def fragmentDefinition : Reader String := fun s => do
  let ((), s) ← Token.mark "fragment" s
  let (n, s) ← Token.name s
  let ((), s) ← typeCondition s
  let (_, s) := directives.optional s
  let (_, s) ← selectionSet s
  some (n, s)

end

def selectionSet : (depth : Nat) → Reader (List Selection)
  | 0, _ => none
  | depth + 1, s => do
    let ((), s) ← Token.mark "\x7b" s
    let (selections, s) ← Reader.many1 (selection (selectionSet depth)) s
    let ((), s) ← Token.mark "\x7d" s
    some (selections, s)

def maxDepth : Nat := 65

structure Document where
  selections : List Selection
  fragments : List String

/-- Reads a whole document that opens with an anonymous operation. No other operation may stand
beside it, and fragments have distinct names. -/
def Document.ofChars? (text : List Char) : Option Document := do
  let (selections, s) ← selectionSet maxDepth (skip text)
  let (fragments, s) := Reader.many (fragmentDefinition (selectionSet maxDepth)) s
  if s.isEmpty && decide fragments.Nodup then some { selections, fragments } else none

def Document.literal (d : Document) : Except Fault Literal :=
  match d.fragments, d.selections with
  | [], [.field [some v] true] => .ok v
  | [], [.field [none] true] => .error .variable
  | _, _ => .error .several

def documentText (text : String) : String := "\x7b f(v: " ++ text ++ ") \x7d"

def ofText (text : String) : Except Fault Literal :=
  match Document.ofChars? (documentText text).toList with
  | some d => d.literal
  | none => .error .unreadable

end GraphQLSchema.Literal
