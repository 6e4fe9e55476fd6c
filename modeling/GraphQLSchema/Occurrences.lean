/-! # First and second occurrences in a list -/

namespace GraphQLSchema

variable {α : Type} [DecidableEq α]

def firstOccurrences : List α → List α
  | [] => []
  | a :: l => a :: (firstOccurrences l).filter (· ≠ a)

def secondOccurrences (l : List α) : List α :=
  go [] l
where
  /-- Walks the list with the elements already passed. -/
  go (seen : List α) : List α → List α
    | [] => []
    | a :: l => if seen.count a = 1 then a :: go (a :: seen) l else go (a :: seen) l

end GraphQLSchema
