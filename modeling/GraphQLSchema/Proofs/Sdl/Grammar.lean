import GraphQLSchema.Literal.Document
import GraphQLSchema.Proofs.Sdl.Definition

/-!
# A reader of schemas

The part of the schema definition language that schemas are printed in, on the tokens of literals. The
form of a document is read whole. Of its meaning only the roots are kept: those that the schema block
gives, or else the object types that are named for an operation.
-/

namespace GraphQLSchema.Sdl.Grammar

open Literal (Token.mark Token.name Token.string)
open Text (Reader)

/-! ## Lists -/

section
variable {α : Type} (item : Reader α)

def enclosed (opening closing : String) : Reader (List α) := fun s => do
  let ((), s) ← Token.mark opening s
  let (as, s) ← Reader.many1 item s
  let ((), s) ← Token.mark closing s
  some (as, s)

def behind (mark : String) : Reader α := fun s => do
  let ((), s) ← Token.mark mark s
  item s

def separated (mark : String) : Reader (List α) := fun s => do
  let (a, s) ← item s
  let (as, s) := Reader.many (behind item mark) s
  some (a :: as, s)

end

/-! ## Members -/

def word (w : String) : Reader Unit := fun s => do
  let (n, s) ← Token.name s
  if n = w then some ((), s) else none

def named : Reader Unit := fun s => (Token.name s).map fun (_, s) => ((), s)

def listed (reference : Reader Unit) : Reader Unit := fun s => do
  let ((), s) ← Token.mark "[" s
  let ((), s) ← reference s
  Token.mark "]" s

/-- A reference with brackets at most `depth` deep. Each level takes a character at least. -/
def referenceWithin : (depth : ℕ) → Reader Unit
  | 0, _ => none
  | depth + 1, s => do
    let ((), s) ← Reader.orElse named (listed (referenceWithin depth)) s
    let (_, s) := Reader.optional (Token.mark "!") s
    some ((), s)

def reference : Reader Unit := fun s => referenceWithin (s.length + 1) s

def defaultValue : Reader Literal := fun s => do
  let (v, s) ← behind Literal.value "=" s
  let v ← v
  some (v, s)

def inputValue : Reader Unit := fun s => do
  let (_, s) := Reader.optional Token.string s
  let (_, s) ← Token.name s
  let ((), s) ← behind reference ":" s
  let (_, s) := Reader.optional defaultValue s
  some ((), s)

def arguments : Reader (List Unit) := enclosed inputValue "(" ")"

def field : Reader Unit := fun s => do
  let (_, s) := Reader.optional Token.string s
  let (_, s) ← Token.name s
  let (_, s) := Reader.optional arguments s
  let ((), s) ← behind reference ":" s
  let (_, s) := Reader.optional Literal.directives s
  some ((), s)

def enumValue : Reader Unit := fun s => do
  let (_, s) := Reader.optional Token.string s
  let (_, s) ← Token.name s
  let (_, s) := Reader.optional Literal.directives s
  some ((), s)

/-! ## Definitions -/

def location : Reader Location := fun s => do
  let (n, s) ← Token.name s
  let l ← Location.ofText? n
  some (l, s)

/-- Locations may be missing, as registries can do without them. -/
def directive : Reader String := fun s => do
  let (n, s) ← behind Token.name "@" s
  let (_, s) := Reader.optional arguments s
  let (_, s) := Reader.optional (word "repeatable") s
  let ((), s) ← word "on" s
  let (_, s) := Reader.optional (separated location "|") s
  some (n, s)

def interfaces : Reader (List String) := fun s => do
  let ((), s) ← word "implements" s
  separated Token.name "&" s

def typeRest : TypeKind → Reader Unit
  | .scalar => fun s => do
    let (_, s) := Reader.optional Literal.directives s
    some ((), s)
  | .object | .interface => fun s => do
    let (_, s) := Reader.optional interfaces s
    let (_, s) ← enclosed field "\x7b" "\x7d" s
    some ((), s)
  | .union => fun s => do
    let (_, s) ← behind (separated Token.name "|") "=" s
    some ((), s)
  | .enum => fun s => do
    let (_, s) ← enclosed enumValue "\x7b" "\x7d" s
    some ((), s)
  | .inputObject => fun s => do
    let (_, s) ← enclosed inputValue "\x7b" "\x7d" s
    some ((), s)

def rootEntry : Reader (String × String) := fun s => do
  let (operation, s) ← Token.name s
  let (n, s) ← behind Token.name ":" s
  some ((operation, n), s)

inductive Definition where
  | roots (entries : List (String × String))
  | directive (name : String)
  | type (kind : TypeKind) (name : String)

def kind? (w : String) : Option TypeKind := TypeKind.all.find? (keyword · = w)

def definitionRest (w : String) : Reader Definition := fun s =>
  if w = "schema" then (enclosed rootEntry "\x7b" "\x7d" s).map fun (es, s) => (.roots es, s)
  else if w = "directive" then (directive s).map fun (n, s) => (.directive n, s)
  else do
    let k ← kind? w
    let (n, s) ← Token.name s
    let ((), s) ← typeRest k s
    some (.type k n, s)

def definition : Reader Definition := fun s => do
  let (_, s) := Reader.optional Token.string s
  let (w, s) ← Token.name s
  definitionRest w s

def document (text : List Char) : Option (List Definition) :=
  match Reader.many definition (Literal.skip text) with
  | (ds, []) => some ds
  | _ => none

/-! ## Roots -/

def rootsBy (f : Operation → Option String) : Roots :=
  { query := f .query, mutation := f .mutation, subscription := f .subscription }

def Definition.object? : Definition → Option String
  | .type .object n => some n
  | _ => none

/-- The roots of definitions without a schema block. -/
def conventional (ds : List Definition) : Roots :=
  rootsBy fun o => if o.defaultType ∈ ds.filterMap Definition.object? then some o.defaultType else none

/-- The roots that a text gives: the entries of the schema block if it starts with one, and otherwise the
object types that are named for operations. -/
def roots? (text : List Char) : Option Roots :=
  match definition (Literal.skip text) with
  | some (.roots es, _) => some (rootsBy fun o => es.lookup o.word)
  | _ => (document text).map conventional

end GraphQLSchema.Sdl.Grammar
