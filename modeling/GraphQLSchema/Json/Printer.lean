import GraphQLSchema.Json.Basic
import GraphQLSchema.Text.Quoted

/-!
# Printing JSON

One item or entry per line, two blanks of indentation per level, empty containers without a break.
-/

namespace GraphQLSchema

def Numeral.digitChars (ds : List Nat) : List Char := ds.map Nat.digitChar

def Numeral.chars (x : Numeral) : List Char :=
  (if x.negative then ['-'] else []) ++ digitChars x.whole ++
    (match x.fraction with
      | some ds => '.' :: digitChars ds
      | none => []) ++
    match x.exponent with
    | some e => 'e' :: (toString e).toList
    | none => []

namespace Json

def newLine (level : Nat) : List Char := '\n' :: List.replicate (2 * level) ' '

def bracket (openChar closeChar : Char) (level : Nat) (parts : List (List Char)) : List Char :=
  if parts.isEmpty then [openChar, closeChar]
  else
    openChar :: [','].intercalate (parts.map (newLine (level + 1) ++ ·)) ++ newLine level ++ [closeChar]

mutual

def chars (level : Nat) : Json → List Char
  | .null => "null".toList
  | .boolean true => "true".toList
  | .boolean false => "false".toList
  | .number x => x.chars
  | .string s => Text.quoteChars s.toList
  | .array vs => bracket '[' ']' level (itemChars (level + 1) vs)
  | .object es => bracket '\x7b' '\x7d' level (entryChars (level + 1) es)

def itemChars (level : Nat) : List Json → List (List Char)
  | [] => []
  | v :: vs => chars level v :: itemChars level vs

def entryChars (level : Nat) : List (String × Json) → List (List Char)
  | [] => []
  | (k, v) :: es => (Text.quoteChars k.toList ++ ':' :: ' ' :: chars level v) :: entryChars level es

end

def render (v : Json) : String := String.ofList (v.chars 0)

end Json

end GraphQLSchema
