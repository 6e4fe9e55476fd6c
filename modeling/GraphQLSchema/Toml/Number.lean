import GraphQLSchema.Number
import GraphQLSchema.Toml.Token

/-!
# Numbers and dates of TOML

Both start with a word and may go on over further tokens: a fraction follows a period, an exponent
may follow a plus, and the times of a date follow colons. Dates are not looked into.
-/

namespace GraphQLSchema.Toml

open Text (Reader)

/-- A number or a date. A number with a fraction or an exponent is kept as written; infinities and
what is not a number have words of their own. -/
inductive Scalar where
  | integer (value : Int)
  | decimal (numeral : Numeral)
  | special
  | date
  deriving DecidableEq, Repr

def isDigitOf (radix : Nat) (c : Char) : Bool := (Text.hexDigit? c).any (· < radix)

def hasGap : List Char → Bool
  | '_' :: '_' :: _ => true
  | _ :: s => hasGap s
  | [] => false

def digitRun? (radix : Nat) (leadingZeros : Bool) (s : List Char) : Option (List Char × List Char) :=
  let inRun (c : Char) : Bool := c == '_' || isDigitOf radix c
  let run := s.takeWhile inRun
  let digits := run.filter (· ≠ '_')
  if run.isEmpty || run.head? = some '_' || run.getLast? = some '_' || hasGap run then none
  else if !leadingZeros && 1 < digits.length && digits.head? = some '0' then none
  else some (digits, s.dropWhile inRun)

def integer? (negative : Bool) (radix : Nat) (leadingZeros : Bool) (s : List Char) : Option Scalar := do
  let (digits, rest) ← digitRun? radix leadingZeros s
  let n := (digits.filterMap Text.hexDigit?).foldl (fun n d => radix * n + d) 0
  let v := Numeral.signed negative n
  if rest.isEmpty && -0x8000000000000000 ≤ v && v < 0x8000000000000000 then some (.integer v) else none

/-- An exponent behind its letter. If the word ends there, it is the next word, behind a plus or
not. -/
def exponentOf (s : List Char) : Reader Int Token := fun ts => do
  if s.isEmpty then
    let ts := match ts with
      | .plus :: ts => ts
      | ts => ts
    match ts with
    | .word w :: ts =>
      let (digits, rest) ← digitRun? 10 true w.toList
      if rest.isEmpty then some (Numeral.ofDigits (digitsOf digits), ts) else none
    | _ => none
  else
    let (negative, s) := Numeral.sign s
    let (digits, rest) ← digitRun? 10 true s
    if rest.isEmpty then some (Numeral.signed negative (Numeral.ofDigits (digitsOf digits)), ts) else none

/-- A decimal of a word and, if a period follows it, the word behind. -/
def decimal (s : List Char) (after : Option (List Char)) : Reader Scalar Token := fun ts => do
  let (negative, s) := Numeral.sign s
  let (whole, rest) ← digitRun? 10 false s
  let (fraction, rest) ← match after with
    | none => some (none, rest)
    | some a =>
      if rest.isEmpty then (digitRun? 10 true a).map fun (ds, rest) => (some ds, rest) else none
  let (exponent, ts) ← match rest with
    | [] => some (none, ts)
    | 'e' :: r | 'E' :: r => (exponentOf r ts).map fun (e, ts) => (some e, ts)
    | _ => none
  let x : Numeral := { negative, whole := digitsOf whole, fraction := fraction.map digitsOf, exponent }
  if x.isFinite then some (.decimal x, ts) else none

def isSpecial : List Char → Bool
  | ['i', 'n', 'f'] | ['-', 'i', 'n', 'f'] | ['n', 'a', 'n'] | ['-', 'n', 'a', 'n'] => true
  | _ => false

def hasExponent (s : List Char) : Bool := s.contains 'e' || s.contains 'E'

def number (s : List Char) : Reader Scalar Token := fun ts =>
  match s with
  | '0' :: 'x' :: r => (integer? false 16 true r).map (·, ts)
  | '0' :: 'o' :: r => (integer? false 8 true r).map (·, ts)
  | '0' :: 'b' :: r => (integer? false 2 true r).map (·, ts)
  | s =>
    if hasExponent s then decimal s none ts
    else
      match ts with
      | .period :: .word after :: ts => decimal s (some after.toList) ts
      | .period :: _ => none
      | ts =>
        if isSpecial s then some (.special, ts)
        else
          let (negative, r) := Numeral.sign s
          (integer? negative 10 false r).map (·, ts)

def markedWord (mark : Token) (ts : List Token) : Option (List Token) :=
  match ts with
  | t :: more =>
    if t ≠ mark then some ts
    else
      match more with
      | .word _ :: more => some more
      | _ => none
  | [] => some []

def time : List Token → Option (List Token)
  | .word _ :: .colon :: .word _ :: ts => do
    let ts ← markedWord .period ts
    let ts ← markedWord .plus ts
    markedWord .colon ts
  | _ => none

def dropHour : List Token → List Token
  | .blank true :: .word _ :: ts => ts
  | ts => ts

def date (colonRead : Bool) : Reader Scalar Token := fun ts =>
  match colonRead, dropHour ts with
  | true, ts => (time ts).map (Scalar.date, ·)
  | false, .colon :: ts => (time ts).map (Scalar.date, ·)
  | false, ts => some (.date, ts)

def isDateWord (s : List Char) : Bool :=
  s.contains 'T' || s.contains 't' || (s.tail.contains '-' && !minusExponent s)
where
  minusExponent : List Char → Bool
    | 'e' :: '-' :: _ => true
    | 'E' :: '-' :: _ => true
    | _ :: s => minusExponent s
    | [] => false

def numberOrDate (s : List Char) : Reader Scalar Token := fun ts =>
  if isDateWord s then date false ts
  else
    match ts with
    | .colon :: ts => date true ts
    | ts => number s ts

end GraphQLSchema.Toml
