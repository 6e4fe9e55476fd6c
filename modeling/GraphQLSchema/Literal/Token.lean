import GraphQLSchema.Literal.Basic
import GraphQLSchema.Literal.Block
import GraphQLSchema.Name
import GraphQLSchema.Text.Quoted
import GraphQLSchema.Text.Reader

/-!
# Tokens of the query language

Every token reader expects that ignored text has been skipped, and skips it again behind the token.
-/

namespace GraphQLSchema.Literal

open Text (Reader after? push)

def isIgnored (c : Char) : Bool :=
  c == ' ' || c == '\t' || c == ',' || c == '\uFEFF' || c == '\n' || c == '\r'

def isLineEnd (c : Char) : Bool := c == '\n' || c == '\r'

mutual

def skip : List Char → List Char
  | [] => []
  | c :: s => if c = '#' then skipComment s else if isIgnored c then skip s else c :: s

def skipComment : List Char → List Char
  | [] => []
  | c :: s => if isLineEnd c then skip s else skipComment s

end

namespace Token

def mark (text : String) : Reader Unit := fun s => (after? text.toList s).map fun r => ((), skip r)

def name : Reader String
  | [] => none
  | c :: s =>
    if Name.isStart c then some (String.ofList (c :: s.takeWhile Name.isPart), skip (s.dropWhile Name.isPart))
    else none

def wholeDigits : Reader (List Char)
  | [] => none
  | c :: s =>
    if c = '0' then some ([c], s)
    else if c.isDigit then some (c :: s.takeWhile Char.isDigit, s.dropWhile Char.isDigit)
    else none

def digits1 : Reader (List Char) := fun s =>
  match s.takeWhile Char.isDigit with
  | [] => none
  | ds => some (ds, s.dropWhile Char.isDigit)

def fraction : Reader (List Char)
  | '.' :: s => digits1 s
  | _ => none

def exponent : Reader Int
  | 'e' :: s | 'E' :: s => do
    let (negative, s) := Numeral.exponentSign s
    let (ds, s) ← digits1 s
    some (Numeral.signed negative (Numeral.ofDigits (digitsOf ds)), s)
  | _ => none

/-- A number as written. A fraction or exponent that is incomplete is left unread. -/
def numeral : Reader Numeral := fun s => do
  let (negative, s) := Numeral.sign s
  let (whole, s) ← wholeDigits s
  let (fraction, s) := fraction.optional s
  let (exponent, s) := exponent.optional s
  some ({ negative, whole := digitsOf whole, fraction := fraction.map digitsOf, exponent }, s)

def number : Reader Number := fun s => do
  let (x, s) ← numeral s
  if s.head?.any Name.isStart then none
  else
    let v ← x.value?
    some (v, skip s)

def quotedBody : List Char → Option (List Char × List Char)
  | '"' :: s => some ([], s)
  | '\\' :: 'u' :: a :: b :: c :: d :: s =>
    match Text.hexValue? [a, b, c, d] with
    | some n => if Text.isSurrogate n then none else push (Char.ofNat n) (quotedBody s)
    | none => none
  | '\\' :: c :: s =>
    match Text.unescape? c with
    | some e => push e (quotedBody s)
    | none => none
  | c :: s => if c = '\\' || isLineEnd c then none else push c (quotedBody s)
  | [] => none

def quoted : Reader (List Char)
  | '"' :: s => (quotedBody s).map fun (cs, r) => (cs, skip r)
  | _ => none

/-- The text of a block string, up to the quotes that end it. An escaped triple quote ends nothing
and is kept as written. -/
def blockBody : List Char → Option (List Char × List Char)
  | '\\' :: '"' :: '"' :: '"' :: s => push '\\' (push '"' (push '"' (push '"' (blockBody s))))
  | '"' :: '"' :: '"' :: s => some ([], s)
  | c :: s => push c (blockBody s)
  | [] => none

def block : Reader (List Char)
  | '"' :: '"' :: '"' :: s => (blockBody s).map fun (cs, r) => (Block.value cs, skip r)
  | _ => none

/-- A string. Three quotes that open no block are read as an empty string and what follows. -/
def string : Reader (List Char) := Reader.orElse block quoted

end Token

end GraphQLSchema.Literal
