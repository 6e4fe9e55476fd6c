/-!
# Shortest paths in a finite graph

A breadth-first search that keeps its queue as paths. A step either takes a node out of the nodes
not seen so far or shortens the queue.
-/

namespace GraphQLSchema.Graph

variable {α : Type} [DecidableEq α]

section
variable (next : α → List α) (goal : α)

/-- Searches from the ends of the queued paths, given newest node first. Successors are tried in
the order of `next`. -/
def search (unseen : List α) (queue : List (List α)) : Option (List α) :=
  match queue with
  | [] => none
  | [] :: more => search unseen more
  | (a :: path) :: more =>
    if goal ∈ next a then some (goal :: a :: path)
    else
      match _found : (next a).find? (· ∈ unseen) with
      | some b => search (unseen.erase b) (((a :: path) :: more) ++ [b :: a :: path])
      | none => search unseen more
termination_by (unseen.length, queue.length)
decreasing_by
  · exact Prod.Lex.right _ (by simp)
  · have h : b ∈ unseen := by simpa using List.find?_some _found
    have := List.length_erase_of_mem h
    have := List.length_pos_of_mem h
    exact Prod.Lex.left _ _ (by omega)
  · exact Prod.Lex.right _ (by simp)

end

/-- A shortest path of one step or more between two nodes, both included. -/
def shortestPath? (next : α → List α) (nodes : List α) (start goal : α) : Option (List α) :=
  (search next goal nodes [[start]]).map List.reverse

end GraphQLSchema.Graph
