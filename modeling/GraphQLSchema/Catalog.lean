import Std.Data.HashMap

/-!
# Catalogs

Named entries in the order of their arrival, with an index from names to positions. `toList` is
the view through which lemmas speak of a catalog.
-/

namespace GraphQLSchema

class Named (α : Type) where
  name : α → String

/-- Entries in order of arrival. The index gives the position of each name. -/
structure Catalog (α : Type) where
  entries : Array α
  index : Std.HashMap String Nat

namespace Catalog

variable {α : Type}

def empty : Catalog α := ⟨#[], ∅⟩

instance : EmptyCollection (Catalog α) := ⟨empty⟩

instance : Inhabited (Catalog α) := ⟨∅⟩

def toList (c : Catalog α) : List α := c.entries.toList

def size (c : Catalog α) : Nat := c.entries.size

def contains (c : Catalog α) (name : String) : Bool := c.index.contains name

def find? (c : Catalog α) (name : String) : Option α := c.index[name]?.bind fun i => c.entries[i]?

def push [Named α] (c : Catalog α) (a : α) : Catalog α :=
  { entries := c.entries.push a, index := c.index.insert (Named.name a) c.entries.size }

def modify? (c : Catalog α) (name : String) (f : α → α) : Option (Catalog α) :=
  c.index[name]?.map fun i => { c with entries := c.entries.modify i f }

/-- Changes every entry in its place. The change must keep names. -/
def map (c : Catalog α) (f : α → α) : Catalog α := { c with entries := c.entries.map f }

@[simp] theorem toList_empty : (∅ : Catalog α).toList = [] := rfl

@[simp] theorem toList_push [Named α] (c : Catalog α) (a : α) : (c.push a).toList = c.toList ++ [a] := by
  simp [push, toList]

@[simp] theorem toList_map (c : Catalog α) (f : α → α) : (c.map f).toList = c.toList.map f := by
  simp [map, toList]

end Catalog

end GraphQLSchema
