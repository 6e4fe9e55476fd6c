import GraphQLSchema.Name
import GraphQLSchema.Text.Blank

/-!
# Type references

A reference is a name wrapped in list and non-null markers: `[String!]!`. `render` writes the
notation and `ofChars?` reads it, with blanks allowed around every part.
-/

namespace GraphQLSchema

/-- A reference to a named type. `asNonNull` never puts a non-null marker directly inside another. -/
inductive TypeRef where
  | named (name : String)
  | list (inner : TypeRef)
  | nonNull (inner : TypeRef)
  deriving DecidableEq, Repr, Inhabited

namespace TypeRef

def isNonNull : TypeRef → Bool
  | nonNull _ => true
  | _ => false

def asNonNull : TypeRef → TypeRef
  | nonNull t => nonNull t
  | t => nonNull t

def nullable : TypeRef → TypeRef
  | nonNull t => t
  | t => t

def typeName : TypeRef → String
  | named n => n
  | list t => t.typeName
  | nonNull t => t.typeName

def isList : TypeRef → Bool
  | list _ => true
  | nonNull t => t.isList
  | named _ => false

def render : TypeRef → String
  | named n => n
  | list t => "[" ++ t.render ++ "]"
  | nonNull t => t.render ++ "!"

instance : ToString TypeRef := ⟨render⟩

def dropLast? (c : Char) (s : List Char) : Option (List Char) :=
  if s.getLast? = some c then some s.dropLast else none

theorem length_of_dropLast? {c : Char} {s r : List Char} (h : dropLast? c s = some r) :
    r.length < s.length := by
  unfold dropLast? at h
  split at h
  · next hl =>
    cases h
    cases s with
    | nil => simp at hl
    | cons a s => simp
  · cases h

def ofChars? (s : List Char) : Option TypeRef :=
  match _bang : dropLast? '!' (Text.trim s) with
  | some inner =>
    match ofChars? inner with
    | some (.nonNull _) => none
    | some t => some (.nonNull t)
    | none => none
  | none =>
    match _open : Text.trim s with
    | '[' :: body =>
      match _close : dropLast? ']' body with
      | some inner => (ofChars? inner).map .list
      | none => none
    | t => if IsName (String.ofList t) then some (.named (String.ofList t)) else none
termination_by s.length
decreasing_by
  · have := length_of_dropLast? _bang
    have := Text.length_trim_le s
    omega
  · have := length_of_dropLast? _close
    have := Text.length_trim_le s
    rw [_open, List.length_cons] at this
    omega

def ofString? (s : String) : Option TypeRef := ofChars? s.toList

end TypeRef

end GraphQLSchema
