import GraphQLSchema.Toml.Number

/-!
# Values of TOML

Values nest, and each level takes at least one token, so the number of tokens bounds the depth.
-/

namespace GraphQLSchema.Toml

open Text (Reader)

/-- A value. A table lists its entries in order; one that dotted keys have made is open to more of
them. -/
inductive Value where
  | string (value : String)
  | scalar (value : Scalar)
  | boolean (value : Bool)
  | array (items : List Value)
  | table (isOpen : Bool) (entries : List (String × Value))
  deriving Repr

abbrev Entries := List (String × Value)

def Token.isBlank : Token → Bool
  | .blank _ => true
  | _ => false

def Token.isIdle : Token → Bool
  | .blank _ | .newline | .comment => true
  | _ => false

def skipBlanks (ts : List Token) : List Token := ts.dropWhile Token.isBlank

def skipIdle (ts : List Token) : List Token := ts.dropWhile Token.isIdle

/-! ## Keys -/

def key : Reader String Token
  | .word w :: ts => some (w, ts)
  | .string s false :: ts => some (s, ts)
  | _ => none

def keyPart : Reader String Token := fun ts =>
  match skipBlanks ts with
  | .period :: ts => key (skipBlanks ts)
  | _ => none

def path : Reader (List String) Token := fun ts => do
  let (k, ts) ← key ts
  let (ks, ts) := Reader.many keyPart ts
  some (k :: ks, skipBlanks ts)

def replaceFirst (k : String) (v : Value) : Entries → Entries
  | [] => []
  | (k', v') :: es => if k' = k then (k, v) :: es else (k', v') :: replaceFirst k v es

/-- Appends an entry under a path. Its last part is not looked for; on the way there, only open
tables are entered. -/
def insert : List String → Value → Entries → Option Entries
  | [], _, _ => none
  | [k], v, es => some (es ++ [(k, v)])
  | k :: ks, v, es =>
    match es.lookup k with
    | some (.table true inner) => (insert ks v inner).map fun t => replaceFirst k (.table true t) es
    | some _ => none
    | none => (insert ks v []).map fun t => es ++ [(k, .table true t)]

/-! ## Values -/

def Scalar.toValue : Option (Scalar × List Token) → Option (Value × List Token)
  | some (v, ts) => some (.scalar v, ts)
  | none => none

def wordValue (w : String) : Reader Value Token := fun ts =>
  match w.toList with
  | ['t', 'r', 'u', 'e'] => some (.boolean true, ts)
  | ['f', 'a', 'l', 's', 'e'] => some (.boolean false, ts)
  | c :: s =>
    if isSpecial (c :: s) || c = '-' || c.isDigit then
      Scalar.toValue (numberOrDate (c :: s) ts)
    else none
  | [] => none

section
variable (value : Reader Value Token)

def items (ts : List Token) : Option (List Value × List Token) :=
  match skipIdle ts with
  | .rightBracket :: r => some ([], r)
  | s => do
    let (v, r) ← value s
    match skipIdle r with
    | .comma :: r =>
      if r.length < ts.length then
        let (vs, r) ← items r
        some (v :: vs, r)
      else none
    | .rightBracket :: r => some ([v], r)
    | _ => none
termination_by ts.length

def entry : Reader (List String × Value) Token := fun ts => do
  let (p, ts) ← path ts
  match ts with
  | .equals :: ts =>
    let (v, ts) ← value (skipBlanks ts)
    some ((p, v), skipBlanks ts)
  | _ => none

def inlineEntries (es : Entries) (ts : List Token) : Option (Entries × List Token) := do
  let ((p, v), r) ← entry value ts
  let es ← insert p v es
  match r with
  | .comma :: r =>
    let r := skipBlanks r
    if r.length < ts.length then inlineEntries es r else none
  | .rightBrace :: r => some (es, r)
  | _ => none
termination_by ts.length

end

/-- Reads a value that nests less than `depth` deep. -/
def valueWithin : (depth : Nat) → Reader Value Token
  | 0, _ => none
  | depth + 1, ts =>
    match ts with
    | .string s _ :: ts => some (.string s, ts)
    | .word w :: ts => wordValue w ts
    | .plus :: .word w :: ts => Scalar.toValue (number w.toList ts)
    | .leftBracket :: ts => (items (valueWithin depth) ts).map fun (vs, ts) => (.array vs, ts)
    | .leftBrace :: ts =>
      match skipBlanks ts with
      | .rightBrace :: ts => some (.table false [], ts)
      | ts => (inlineEntries (valueWithin depth) [] ts).map fun (es, ts) => (.table false es, ts)
    | _ => none

def value : Reader Value Token := fun ts => valueWithin (ts.length + 1) ts

end GraphQLSchema.Toml
