import GraphQLSchema.Json.Basic

/-!
# Records in JSON

A record is written as an object, or as an array with the fields in their order. Unknown keys of
an object are passed over; a known key may not be repeated.
-/

namespace GraphQLSchema.Json

/-- The fields of a record by key. In an array the last `spare` fields may be left out. -/
def fields? (keys : List String) (spare : Nat) : Json → Option (List (String × Json))
  | .object es =>
    let known := es.filter (·.1 ∈ keys)
    if (known.map (·.1)).Nodup then some known else none
  | .array vs =>
    if keys.length - spare ≤ vs.length && vs.length ≤ keys.length then some (keys.zip vs) else none
  | _ => none

theorem sizeOf_lt_of_mem_fields? {keys : List String} {spare : Nat} {v w : Json} {k : String}
    {fs : List (String × Json)} (h : fields? keys spare v = some fs) (hw : (k, w) ∈ fs) :
    sizeOf w < sizeOf v := by
  unfold fields? at h
  split at h
  · next es =>
    dsimp only at h
    split at h
    · cases h
      have := List.sizeOf_lt_of_mem (List.mem_filter.mp hw).1
      simp only [Prod.mk.sizeOf_spec, Json.object.sizeOf_spec] at this ⊢
      omega
    · cases h
  · next vs =>
    split at h
    · cases h
      have := List.sizeOf_lt_of_mem (List.of_mem_zip hw).2
      simp only [Json.array.sizeOf_spec]
      omega
    · cases h
  · cases h

theorem sizeOf_lt_of_lookup_fields? {keys : List String} {spare : Nat} {v w : Json} {k : String}
    {fs : List (String × Json)} (h : fields? keys spare v = some fs) (hw : fs.lookup k = some w) :
    sizeOf w < sizeOf v := by
  obtain ⟨l₁, l₂, rfl, -⟩ := List.lookup_eq_some_iff.mp hw
  have hm : (k, w) ∈ l₁ ++ (k, w) :: l₂ := by simp
  exact sizeOf_lt_of_mem_fields? h hm

section
variable {α : Type} (read : Json → Option α) (fs : List (String × Json)) (key : String)

def required : Option α := (fs.lookup key).bind read

def nullable : Option (Option α) :=
  match fs.lookup key with
  | none | some .null => some none
  | some v => (read v).map some

def defaulted (default : α) : Option α :=
  match fs.lookup key with
  | none => some default
  | some v => read v

end

def string? : Json → Option String
  | .string s => some s
  | _ => none

def boolean? : Json → Option Bool
  | .boolean b => some b
  | _ => none

def list? {α : Type} (read : Json → Option α) : Json → Option (List α)
  | .array vs => vs.mapM read
  | _ => none

/-- A bare name: a string, or an object with the name as its one key and null as its value. -/
def tag? {α : Type} (ofText? : String → Option α) : Json → Option α
  | .string s => ofText? s
  | .object [(s, .null)] => ofText? s
  | _ => none

def orNull {α : Type} (write : α → Json) : Option α → Json
  | some a => write a
  | none => .null

def ofOption (s : Option String) : Json := orNull .string s

def listJson {α : Type} (write : α → Json) (l : List α) : Json := .array (l.map write)

end GraphQLSchema.Json
