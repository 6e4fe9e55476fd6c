import GraphQLSchema.Validation.InputCycle

/-!
# Cycles from components

The steps by which the cycles of input objects are found. A library gives the strongly connected components; each
of them that has a cycle is searched from its first member, breadth first and without leaving it, until a member
names the first one. Every node remembers the one from which it was met, and the way back is read off from there.
-/

namespace GraphQLSchema

namespace Graph

variable {α : Type} [DecidableEq α]

/-- From a node to the one from which it was met, and so on. Latest nodes come first, with what they were met
from, so that what comes next on the way stands behind them. -/
def wayBack : List (α × α) → α → List α
  | [], a => [a]
  | (b, parent) :: earlier, a => if a = b then a :: wayBack earlier parent else wayBack earlier a

/-- A member that is met for the first time is one less to meet. -/
theorem length_filter_unmet_lt {members met : List α} {b : α} (hb : b ∈ members) (hm : b ∉ met) :
    (members.filter (· ∉ b :: met)).length < (members.filter (· ∉ met)).length := by
  have hf : members.filter (· ∉ b :: met) = (members.filter (· ∉ met)).filter (· ≠ b) := by
    simp [List.filter_filter, not_or]
  rw [hf, List.length_filter_lt_length_iff_exists]
  exact ⟨b, by simp [hb, hm], by simp⟩

section
variable (next : α → List α) (members : List α) (start : α)

/-- Looks at the neighbours of a node that are left, and then at the queued nodes. -/
def seek (parents : List (α × α)) (queue : List α) (node : α) (left : List α) : Option (List α) :=
  match left with
  | [] =>
    match queue with
    | [] => none
    | a :: queue => seek parents queue a (next a)
  | b :: left =>
    if _inside : b ∈ members then
      if b = start then some (start :: wayBack parents node).reverse
      else if _met : b ∈ parents.map (·.1) then seek parents queue node left
      else seek ((b, node) :: parents) (queue ++ [b]) node left
    else seek parents queue node left
termination_by (2 * (members.filter (· ∉ parents.map (·.1))).length + queue.length, left.length)
decreasing_by
  · exact Prod.Lex.left _ _ (by simp)
  · exact Prod.Lex.right _ (by simp)
  · have := length_filter_unmet_lt _inside _met
    refine Prod.Lex.left _ _ ?_
    simp only [List.map_cons, List.length_append, List.length_singleton]
    omega
  · exact Prod.Lex.right _ (by simp)

/-- The way from the start back to it. There always is one in a component with a cycle. -/
def cycleThrough : List α := (seek next members start [] [] start (next start)).getD [start, start]

end

end Graph

namespace Registry

variable (r : Registry)

/-- Where a type stands in the order of registration. -/
def position (n : String) : Nat := (r.types.toList.map (·.name)).idxOf n

/-- More than one member, or one that needs itself. -/
def isCyclic (component : List String) : Bool :=
  1 < component.length || component.head?.any fun a => a ∈ r.successors a

def cycleIn? (component : List String) : Option (List String) :=
  (component.minOn? r.position).map (Graph.cycleThrough r.successors component)

def cyclesOf (components : List (List String)) : List (List String) :=
  ((components.filter (isCyclic r)).filterMap (cycleIn? r)).mergeSort fun c d =>
    r.position (c.headD "") ≤ r.position (d.headD "")

end Registry

end GraphQLSchema
