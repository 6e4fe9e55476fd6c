import GraphQLSchema.Text.Quoted
import GraphQLSchema.Text.Reader

/-!
# Tokens of TOML

Words are runs of letters, digits, `-` and `_`: keys, numbers and parts of dates alike. A text that
cannot be cut into tokens is no TOML.
-/

namespace GraphQLSchema.Toml

open Text (Reader push)

inductive Token where
  | newline
  /-- Spaces and tabs; `single` if it is just one space. -/
  | blank (single : Bool)
  | comment
  | equals | period | comma | colon | plus
  | leftBrace | rightBrace | leftBracket | rightBracket
  | word (text : String)
  | string (value : String) (multiline : Bool)
  deriving DecidableEq, Repr

/-- Line ends are LF or CR LF; a CR of its own stays. -/
def foldLineEnds : List Char → List Char
  | '\r' :: '\n' :: s => '\n' :: foldLineEnds s
  | c :: s => c :: foldLineEnds s
  | [] => []

def isGap (c : Char) : Bool := c == ' ' || c == '\t'

def isPlain (c : Char) : Bool := c == '\t' || (0x20 ≤ c.toNat && c.toNat ≠ 0x7F)

def isWordChar (c : Char) : Bool := c.isAlphanum || c == '-' || c == '_'

/-! ## Strings -/

/-- The quotes that end a string of several lines. Two more may stand in front of the last three;
they belong to the string. -/
def closing? (quote : Char) (s : List Char) : Option (List Char × List Char) :=
  let n := (s.takeWhile (· = quote)).length
  if n < 3 then none else some (List.replicate (min (n - 3) 2) quote, s.drop (3 + min (n - 3) 2))

def literalBody (multiline : Bool) : List Char → Option (List Char × List Char)
  | [] => none
  | c :: s =>
    if c = '\x27' then
      if multiline then (closing? c (c :: s)).orElse fun _ => push c (literalBody multiline s)
      else some ([], s)
    else if c = '\n' && multiline || isPlain c then push c (literalBody multiline s)
    else none

/-- Where a basic string is being read: in its text, behind a backslash that hides the end of a
line, or in what that line end hides. -/
inductive Spot where
  | text | hiding | hidden
  deriving DecidableEq

def escape? (c : Char) : Option Char := if c = '/' then none else Text.unescape? c

def codePoint? (ds : List Char) : Option Char :=
  (Text.hexValue? ds).bind fun n => if n.isValidChar then some (Char.ofNat n) else none

/-- The characters of a basic string, up to its end. A backslash at the end of a line hides the
line end and all blanks behind it. -/
def basicBody (multiline : Bool) : Spot → List Char → Option (List Char × List Char)
  | _, [] => none
  | .hiding, c :: s =>
    if isGap c then basicBody multiline .hiding s
    else if c = '\n' then basicBody multiline .hidden s
    else none
  | _, '\\' :: 'u' :: a :: b :: c :: d :: s =>
    match codePoint? [a, b, c, d] with
    | some e => push e (basicBody multiline .text s)
    | none => none
  | _, '\\' :: 'U' :: a :: b :: c :: d :: e :: f :: g :: h :: s =>
    match codePoint? [a, b, c, d, e, f, g, h] with
    | some e => push e (basicBody multiline .text s)
    | none => none
  | _, '\\' :: c :: s =>
    if multiline && isGap c then basicBody multiline .hiding s
    else if multiline && c = '\n' then basicBody multiline .hidden s
    else
      match escape? c with
      | some e => push e (basicBody multiline .text s)
      | none => none
  | spot, c :: s =>
    if spot = .hidden && (isGap c || c = '\n') then basicBody multiline .hidden s
    else if c = '"' then
      if multiline then (closing? c (c :: s)).orElse fun _ => push c (basicBody multiline .text s)
      else some ([], s)
    else if c = '\\' then none
    else if c = '\n' && multiline || isPlain c then push c (basicBody multiline .text s)
    else none

def stringToken (multiline : Bool) : Option (List Char × List Char) → Option (Token × List Char)
  | some (cs, s) => some (.string (String.ofList cs) multiline, s)
  | none => none

/-- A line end right behind the opening quotes is no part of the string. -/
def dropLineEnd : List Char → List Char
  | '\n' :: s => s
  | s => s

def string : Reader Token
  | '\x27' :: '\x27' :: '\x27' :: s => stringToken true (literalBody true (dropLineEnd s))
  | '\x27' :: s => stringToken false (literalBody false s)
  | '"' :: '"' :: '"' :: s => stringToken true (basicBody true .text (dropLineEnd s))
  | '"' :: s => stringToken false (basicBody false .text s)
  | _ => none

/-! ## All tokens -/

def mark? : Char → Option Token
  | '\n' => some .newline
  | '=' => some .equals
  | '.' => some .period
  | ',' => some .comma
  | ':' => some .colon
  | '+' => some .plus
  | '\x7b' => some .leftBrace
  | '\x7d' => some .rightBrace
  | '[' => some .leftBracket
  | ']' => some .rightBracket
  | _ => none

def token : Reader Token
  | [] => none
  | c :: s =>
    match mark? c with
    | some t => some (t, s)
    | none =>
      if isGap c then
        let r := s.dropWhile isGap
        some (.blank (c = ' ' && r.length = s.length), r)
      else if c = '#' then some (.comment, s.dropWhile fun d => d = '\t' || 0x20 ≤ d.toNat)
      else if isWordChar c then
        some (.word (String.ofList (c :: s.takeWhile isWordChar)), s.dropWhile isWordChar)
      else string (c :: s)

def dropMark : List Char → List Char
  | '\uFEFF' :: s => s
  | s => s

def tokens? (text : String) : Option (List Token) :=
  match Reader.many token (dropMark (foldLineEnds text.toList)) with
  | (ts, []) => some ts
  | _ => none

end GraphQLSchema.Toml
