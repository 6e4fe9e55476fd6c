/-!
# Block strings

The text between triple quotes is laid out for reading: the indentation common to all lines but
the first is dropped, and so are blank lines at both ends.
-/

namespace GraphQLSchema.Literal.Block

def lines : List Char → List (List Char)
  | [] => [[]]
  | '\r' :: '\n' :: s => [] :: lines s
  | c :: s =>
    if c = '\n' || c = '\r' then [] :: lines s
    else
      match lines s with
      | l :: ls => (c :: l) :: ls
      | [] => [[c]]

def isIndent (c : Char) : Bool := c == ' ' || c == '\t'

def isBlankLine (l : List Char) : Bool := l.all isIndent

def indents (ls : List (List Char)) : List Nat :=
  (ls.filter fun l => !isBlankLine l).map fun l => (l.takeWhile isIndent).length

def commonIndent (ls : List (List Char)) : Nat := (indents ls).min?.getD 0

/-- Drops `n` characters from a line that has as many. -/
def outdent (n : Nat) (l : List Char) : List Char := if n ≤ l.length then l.drop n else l

def dropBlankEnds (ls : List (List Char)) : List (List Char) :=
  ((ls.dropWhile isBlankLine).reverse.dropWhile isBlankLine).reverse

def value (raw : List Char) : List Char :=
  match lines raw with
  | [] => []
  | first :: more =>
    ['\n'].intercalate (dropBlankEnds (first :: more.map (outdent (commonIndent more))))

end GraphQLSchema.Literal.Block
