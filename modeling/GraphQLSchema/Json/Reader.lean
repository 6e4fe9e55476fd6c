import GraphQLSchema.Json.Basic
import GraphQLSchema.Text.Quoted

/-!
# Reading JSON

`Json.read` takes the first value off a text. Containers nest at most `maxDepth` deep, numbers
have to be within binary64, and surrogate escapes have to come in pairs.
-/

namespace GraphQLSchema.Json

abbrev Reader (α : Type) := List Char → Except Fault (α × List Char)

def isBlank (c : Char) : Bool := c == ' ' || c == '\n' || c == '\t' || c == '\r'

def skip (s : List Char) : List Char := s.dropWhile isBlank

def expect : List Char → List Char → Except Fault (List Char)
  | [], s => .ok s
  | c :: t, d :: s => if c = d then expect t s else .error .malformed
  | _ :: _, [] => .error .ended

/-! ## Numbers -/

def digits1 : Reader (List Char)
  | [] => .error .ended
  | c :: s =>
    if c.isDigit then .ok (c :: s.takeWhile Char.isDigit, s.dropWhile Char.isDigit)
    else .error .malformed

def wholeDigits : Reader (List Char)
  | [] => .error .ended
  | c :: s =>
    if c = '0' then if s.head?.any Char.isDigit then .error .malformed else .ok ([c], s)
    else digits1 (c :: s)

def fraction : Reader (Option (List Char))
  | '.' :: s => do
    let (ds, s) ← digits1 s
    return (some ds, s)
  | s => .ok (none, s)

def exponent : Reader (Option Int)
  | 'e' :: s | 'E' :: s => do
    let (negative, s) := Numeral.exponentSign s
    let (ds, s) ← digits1 s
    return (some (Numeral.signed negative (Numeral.ofDigits (digitsOf ds))), s)
  | s => .ok (none, s)

def numeral : Reader Numeral := fun s => do
  let (negative, s) := Numeral.sign s
  let (whole, s) ← wholeDigits s
  let (fraction, s) ← fraction s
  let (exponent, s) ← exponent s
  let x : Numeral := { negative, whole := digitsOf whole, fraction := fraction.map digitsOf, exponent }
  if x.value?.isSome then .ok (x, s) else .error .malformed

/-! ## Strings -/

/-- The fault of an escape that does not have four characters left: four bytes are looked for
before they are taken for digits. -/
def shortEscape (s : List Char) : Fault :=
  if (String.ofList s).utf8ByteSize < 4 then .ended else .malformed

def ofSurrogates (high low : Nat) : Char :=
  Char.ofNat (0x10000 + (high - 0xD800) * 0x400 + (low - 0xDC00))

def push (c : Char) : Except Fault (List Char × List Char) → Except Fault (List Char × List Char)
  | .ok (cs, s) => .ok (c :: cs, s)
  | .error f => .error f

def unpaired : List Char → Fault
  | [] => .ended
  | ['\\'] => .ended
  | '\\' :: 'u' :: s => shortEscape s
  | _ => .malformed

def stringBody : List Char → Except Fault (List Char × List Char)
  | [] => .error .ended
  | '"' :: s => .ok ([], s)
  | '\\' :: 'u' :: a :: b :: c :: d :: s =>
    match Text.hexValue? [a, b, c, d] with
    | none => .error .malformed
    | some n =>
      if !Text.isSurrogate n then push (Char.ofNat n) (stringBody s)
      else if 0xDC00 ≤ n then .error .malformed
      else
        match s with
        | '\\' :: 'u' :: a :: b :: c :: d :: s =>
          match Text.hexValue? [a, b, c, d] with
          | none => .error .malformed
          | some m =>
            if 0xDC00 ≤ m && m ≤ 0xDFFF then push (ofSurrogates n m) (stringBody s)
            else .error .malformed
        | s => .error (unpaired s)
  | '\\' :: 'u' :: s => .error (shortEscape s)
  | '\\' :: c :: s =>
    match Text.unescape? c with
    | some e => push e (stringBody s)
    | none => .error .malformed
  | ['\\'] => .error .ended
  | c :: s => if c.toNat < 0x20 then .error .malformed else push c (stringBody s)

def text : Reader String := fun s => do
  let (cs, s) ← stringBody s
  return (String.ofList cs, s)

/-! ## Values -/

def leaf : Reader Json
  | [] => .error .ended
  | 'n' :: s => do return (.null, ← expect "ull".toList s)
  | 't' :: s => do return (.boolean true, ← expect "rue".toList s)
  | 'f' :: s => do return (.boolean false, ← expect "alse".toList s)
  | '"' :: s => do
    let (t, s) ← text s
    return (.string t, s)
  | c :: s =>
    if c = '-' || c.isDigit then do
      let (x, s) ← numeral (c :: s)
      return (.number x, s)
    else .error .malformed

section
variable {α : Type} (item : Reader α) (close : Char)

def itemsMore (s : List Char) : Except Fault (List α × List Char) := do
  let (a, r) ← item s
  match skip r with
  | [] => .error .ended
  | c :: t =>
    if c = close then .ok ([a], t)
    else if c ≠ ',' then .error .malformed
    else
      match skip t with
      | [] => .error .ended
      | d :: u =>
        if d = close then .error .malformed
        else if (d :: u).length < s.length then do
          let (as, s) ← itemsMore (d :: u)
          return (a :: as, s)
        else .error .malformed
termination_by s.length

def items (s : List Char) : Except Fault (List α × List Char) :=
  match skip s with
  | [] => .error .ended
  | c :: t => if c = close then .ok ([], t) else itemsMore item close (c :: t)

end

def entry (value : Reader Json) : Reader (String × Json)
  | '"' :: s => do
    let (k, s) ← text s
    match skip s with
    | [] => .error .ended
    | ':' :: s => do
      let (v, s) ← value s
      return ((k, v), s)
    | _ => .error .malformed
  | _ => .error .malformed

/-- Reads a value whose containers nest at most `depth` deep. -/
def valueWithin : (depth : Nat) → Reader Json
  | 0, s => leaf (skip s)
  | depth + 1, s =>
    match skip s with
    | '[' :: s => do
      let (vs, s) ← items (valueWithin depth) ']' s
      return (.array vs, s)
    | '\x7b' :: s => do
      let (es, s) ← items (entry (valueWithin depth)) '\x7d' s
      return (.object es, s)
    | s => leaf s

def maxDepth : Nat := 127

def read (text : String) : Except Fault (Json × List Char) := valueWithin maxDepth text.toList

end GraphQLSchema.Json
