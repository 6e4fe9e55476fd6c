/-!
# Names

A name is a letter or an underscore followed by letters, digits and underscores, all ASCII.
`Name.fault?` says why a text is none; `IsName` is the same rule as a proposition.
-/

namespace GraphQLSchema

inductive Name.Fault where
  | empty
  | badStart
  | badCharacter
  | keyword
  | missing
  deriving DecidableEq, Repr

namespace Name

def Fault.message : Fault → String
  | .empty => "name cannot be empty"
  | .badStart => "name must start with a letter or underscore"
  | .badCharacter => "name may only contain letters, digits and underscores"
  | .keyword => "enum values cannot be named true, false or null"
  | .missing => "named types must have a name"

def isStart (c : Char) : Bool := c == '_' || c.isAlpha

def isPart (c : Char) : Bool := c == '_' || c.isAlphanum

def literalKeywords : List String := ["true", "false", "null"]

def fault? (s : String) : Option Fault :=
  match s.toList with
  | [] => some .empty
  | c :: cs =>
    if !isStart c then some .badStart
    else if !cs.all isPart then some .badCharacter
    else none

/-- Enum values follow the rule for names and stay clear of the literal keywords. -/
def enumFault? (s : String) : Option Fault :=
  match fault? s with
  | some f => some f
  | none => if s ∈ literalKeywords then some .keyword else none

def isReserved (s : String) : Bool := s.startsWith "__"

end Name

def IsName (s : String) : Prop :=
  ∃ c cs, s.toList = c :: cs ∧ Name.isStart c = true ∧ ∀ d ∈ cs, Name.isPart d = true

theorem Name.fault?_eq_none_iff {s : String} : Name.fault? s = none ↔ IsName s := by
  unfold Name.fault? IsName
  split
  · next h => simp [h]
  · next c cs h =>
    rw [h]
    by_cases hc : Name.isStart c = true
    · by_cases ha : cs.all Name.isPart = true
      · simp only [hc, ha, Bool.not_true, Bool.false_eq_true, if_false, true_iff]
        exact ⟨c, cs, rfl, hc, by simpa using ha⟩
      · simp only [hc, ha, Bool.not_true, Bool.false_eq_true, if_false, Bool.not_false, if_true,
          reduceCtorEq, false_iff]
        rintro ⟨_, _, he, _, hp⟩
        cases he
        exact ha (by simpa using hp)
    · simp only [hc, Bool.not_false, if_true, reduceCtorEq, false_iff]
      rintro ⟨_, _, he, hs, _⟩
      cases he
      exact hc hs

instance (s : String) : Decidable (IsName s) := decidable_of_iff _ Name.fault?_eq_none_iff

end GraphQLSchema
