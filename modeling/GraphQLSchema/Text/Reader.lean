/-!
# Readers

A reader takes a value off the front of a text, a list of characters or of tokens, and leaves the
rest. `many` repeats a reader and ends because it goes on only while the text gets shorter.
-/

namespace GraphQLSchema.Text

abbrev Reader (α : Type) (σ : Type := Char) := List σ → Option (α × List σ)

def after? : List Char → List Char → Option (List Char)
  | [], s => some s
  | c :: t, d :: s => if c = d then after? t s else none
  | _ :: _, [] => none

theorem after?_eq_some_iff {t s r : List Char} : after? t s = some r ↔ s = t ++ r := by
  induction t generalizing s with
  | nil => simp [after?]
  | cons c t ih =>
    cases s with
    | nil => simp [after?]
    | cons d s =>
      by_cases h : c = d
      · subst h; simp [after?, ih]
      · simp [after?, h, Ne.symm h]

def push {α σ : Type} (a : α) : Option (List α × List σ) → Option (List α × List σ)
  | some (as, s) => some (a :: as, s)
  | none => none

namespace Reader

variable {α σ : Type}

/-- Reads items for as long as one can be read and takes something. -/
def many (item : Reader α σ) (s : List σ) : List α × List σ :=
  match item s with
  | some (a, r) =>
    if r.length < s.length then
      let more := many item r
      (a :: more.1, more.2)
    else ([], s)
  | none => ([], s)
termination_by s.length

def many1 (item : Reader α σ) : Reader (List α) σ := fun s =>
  match many item s with
  | ([], _) => none
  | (as, r) => some (as, r)

def optional (item : Reader α σ) (s : List σ) : Option α × List σ :=
  match item s with
  | some (a, r) => (some a, r)
  | none => (none, s)

def orElse (p q : Reader α σ) : Reader α σ := fun s =>
  match p s with
  | some x => some x
  | none => q s

theorem many_of_none {item : Reader α σ} {s : List σ} (h : item s = none) :
    many item s = ([], s) := by
  rw [many, h]

theorem many_of_some {item : Reader α σ} {s r : List σ} {a : α} (h : item s = some (a, r))
    (hr : r.length < s.length) : many item s = (a :: (many item r).1, (many item r).2) := by
  rw [many, h]
  simp [hr]

theorem length_many_le (item : Reader α σ) (s : List σ) : (many item s).2.length ≤ s.length := by
  fun_induction many item s with
  | case1 s a r h hr _ ih => exact Nat.le_trans ih (Nat.le_of_lt hr)
  | case2 => exact Nat.le_refl _
  | case3 => exact Nat.le_refl _

end Reader

end GraphQLSchema.Text
