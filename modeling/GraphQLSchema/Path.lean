/-!
# File paths

Paths are texts with slashes between their components. Empty components and single dots behind
another component do not count.
-/

namespace GraphQLSchema.Path

/-- Drops slashes, and single dots behind a slash, from the end of a path given backwards. -/
def trimBack : List Char → List Char
  | '/' :: s => trimBack s
  | ['.'] => ['.']
  | '.' :: '/' :: s => trimBack s
  | s => s

def isAbsolute (path : String) : Bool := path.toList.head? = some '/'

def endsInSlash (path : String) : Bool := path.toList.getLast? = some '/'

def names (path : String) : List String :=
  ((path.toList.splitOn '/').filter (!·.isEmpty)).map String.ofList

def parent? (path : String) : Option String :=
  let back := path.toList.reverse
  match trimBack back with
  | [] => none
  | last =>
    match last.dropWhile (· ≠ '/') with
    | [] => some ""
    | rest =>
      match trimBack rest with
      | [] => some "/"
      | front => some (String.ofList front.reverse)

theorem length_trimBack_le (s : List Char) : (trimBack s).length ≤ s.length := by
  fun_induction trimBack s <;> simp_all <;> omega

theorem head_trimBack (s : List Char) : (trimBack s).head? ≠ some '/' := by
  fun_induction trimBack s with
  | case4 s h₁ _ _ => cases s <;> simp_all
  | _ => simp_all

theorem length_of_parent? {path directory : String} (h : parent? path = some directory) :
    directory.length < path.length := by
  have hle := length_trimBack_le path.toList.reverse
  have hhead := head_trimBack path.toList.reverse
  simp only [List.length_reverse, String.length_toList] at hle
  unfold parent? at h
  simp only at h
  cases hb : trimBack path.toList.reverse with
  | nil => simp [hb] at h
  | cons c s =>
    rw [hb] at hle hhead
    have hc : c ≠ '/' := fun hc => hhead (by simp [hc])
    have hdrop := (List.dropWhile_sublist (· ≠ '/') (l := s)).length_le
    simp only [hb, List.dropWhile_cons, ne_eq, hc, not_false_eq_true, decide_true, if_true] at h hdrop
    simp only [List.length_cons] at hle
    cases hr : s.dropWhile fun d => !decide (d = '/') with
    | nil => simp_all; omega
    | cons d r =>
      have hfront := length_trimBack_le (d :: r)
      have hroot : "/".length = 1 := rfl
      cases hf : trimBack (d :: r) <;> simp [hr, hf] at h <;> subst h <;> simp_all <;> omega

def directories (path : String) : List String :=
  match _h : parent? path with
  | some d => if d.isEmpty then [] else d :: directories d
  | none => []
termination_by path.length
decreasing_by exact length_of_parent? ‹_›

def join (directory path : String) : String :=
  if isAbsolute path then path
  else if directory.isEmpty || endsInSlash directory then directory ++ path
  else directory ++ "/" ++ path

def beside (file path : String) : String := join ((parent? file).getD file) path

end GraphQLSchema.Path
