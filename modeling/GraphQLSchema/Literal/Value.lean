import GraphQLSchema.Literal.Token

/-!
# Reading values

Values nest, and each level takes at least one character, so the length of the text bounds the
depth. A value in which a variable occurs is read, but it is no constant.
-/

namespace GraphQLSchema.Literal

open Text (Reader after?)

section
variable {α : Type}

/-- Keeps one entry per key: at the place of the first, with the value of the last. -/
def collapse : List (String × α) → List (String × α)
  | [] => []
  | (k, v) :: l =>
    let more := collapse l
    (k, (more.lookup k).getD v) :: more.filter (·.1 ≠ k)

def allPresent : List (String × Option α) → Option (List (String × α)) :=
  List.mapM fun (k, v) => v.map (k, ·)

end

/-- The values of words. Keywords end where they are complete, even inside a longer word. -/
def word : Reader Literal := fun s =>
  match after? "true".toList s, after? "false".toList s, after? "null".toList s with
  | some r, _, _ => some (.boolean true, skip r)
  | _, some r, _ => some (.boolean false, skip r)
  | _, _, some r => some (.null, skip r)
  | none, none, none => (Token.name s).map fun (n, r) => (.enum n, r)

def scalar : Reader Literal := fun s =>
  match s with
  | '"' :: _ => (Token.string s).map fun (cs, r) => (.string (String.ofList cs), r)
  | c :: _ =>
    if c = '-' || c.isDigit then (Token.number s).map fun (n, r) => (.number n, r) else word s
  | [] => none

def entry (value : Reader (Option Literal)) : Reader (String × Option Literal) := fun s => do
  let (k, s) ← Token.name s
  let ((), s) ← Token.mark ":" s
  let (v, s) ← value s
  some ((k, v), s)

/-- Reads a value that nests less than `depth` deep: the constant, or none if a variable occurs
in it. -/
def valueWithin : (depth : Nat) → Reader (Option Literal)
  | 0, _ => none
  | depth + 1, s =>
    match s with
    | '$' :: r => (Token.name (skip r)).map fun (_, r) => (none, r)
    | '[' :: r => do
      let (items, r) := Reader.many (valueWithin depth) (skip r)
      let ((), r) ← Token.mark "]" r
      some ((items.mapM id).map .list, r)
    | '\x7b' :: r => do
      let (entries, r) := Reader.many (entry (valueWithin depth)) (skip r)
      let ((), r) ← Token.mark "\x7d" r
      some ((allPresent (collapse entries)).map .object, r)
    | _ => (scalar s).map fun (v, r) => (some v, r)

def value : Reader (Option Literal) := fun s => valueWithin (s.length + 1) s

end GraphQLSchema.Literal
