import GraphQLSchema.Literal.Block
import Mathlib.Data.List.TakeWhile

/-!
# Lines of block strings

Lines between line ends are the lines of the text. Lines that were given a common indent lose it
again, and blank lines put around them are dropped.
-/

namespace GraphQLSchema.Literal.Block

def OneLine (l : List Char) : Prop := '\n' ∉ l ∧ '\r' ∉ l

theorem lines_cons {c : Char} (hn : c ≠ '\n') (hr : c ≠ '\r') (s : List Char) :
    lines (c :: s) = match lines s with
      | l :: ls => (c :: l) :: ls
      | [] => [[c]] := by
  rw [lines]
  · exact if_neg (by simp [hn, hr])
  · rintro t rfl
    exact absurd rfl hr

theorem lines_newline (s : List Char) : lines ('\n' :: s) = [] :: lines s := by
  rw [lines, if_pos (by decide)]
  simp

theorem lines_append_newline {l : List Char} (hl : OneLine l) (s : List Char) : lines (l ++ '\n' :: s) = l :: lines s := by
  induction l with
  | nil => exact lines_newline s
  | cons c l ih =>
    obtain ⟨hn, hr⟩ := hl
    rw [List.mem_cons, not_or] at hn hr
    rw [List.cons_append, lines_cons (Ne.symm hn.1) (Ne.symm hr.1), ih ⟨hn.2, hr.2⟩]

theorem lines_oneLine {l : List Char} (hl : OneLine l) : lines l = [l] := by
  induction l with
  | nil => rfl
  | cons c l ih =>
    obtain ⟨hn, hr⟩ := hl
    rw [List.mem_cons, not_or] at hn hr
    rw [lines_cons (Ne.symm hn.1) (Ne.symm hr.1), ih ⟨hn.2, hr.2⟩]

/-- Lines with their ends, and a last line without one. -/
theorem lines_flatMap {ls : List (List Char)} {l : List Char} (hls : ∀ l ∈ ls, OneLine l) (hl : OneLine l) :
    lines (ls.flatMap (· ++ ['\n']) ++ l) = ls ++ [l] := by
  induction ls with
  | nil => exact lines_oneLine hl
  | cons k ls ih =>
    rw [List.forall_mem_cons] at hls
    rw [List.flatMap_cons, List.append_assoc, List.append_assoc, List.singleton_append,
      lines_append_newline hls.1, ih hls.2, List.cons_append]

/-- The common indent is one that some line has and no line falls short of. -/
theorem commonIndent_eq {n : ℕ} {ls : List (List Char)}
    (hle : ∀ l ∈ ls, isBlankLine l = false → n ≤ (l.takeWhile isIndent).length)
    (hn : ∃ l ∈ ls, isBlankLine l = false ∧ (l.takeWhile isIndent).length = n) : commonIndent ls = n := by
  have hmin : (indents ls).min? = some n := by
    rw [List.min?_eq_some_iff]
    constructor
    · obtain ⟨l, hl, hb, hn⟩ := hn
      exact List.mem_map.mpr ⟨l, List.mem_filter.mpr ⟨hl, by simp [hb]⟩, hn⟩
    · intro m hm
      obtain ⟨l, hl, rfl⟩ := List.mem_map.mp hm
      obtain ⟨hl, hb⟩ := List.mem_filter.mp hl
      exact hle l hl (by simpa using hb)
  rw [commonIndent, hmin, Option.getD_some]

theorem dropWhile_eq_self {α : Type} {p : α → Bool} {l : List α} (h : ∀ a ∈ l.head?, p a = false) :
    l.dropWhile p = l := by
  cases l with
  | nil => rfl
  | cons a l => rw [List.dropWhile_cons_of_neg (by simp [h a rfl])]

/-- Empty lines at both ends are dropped, down to lines that are not blank. -/
theorem dropBlankEnds_framed {ls : List (List Char)} (hf : ∀ l ∈ ls.head?, isBlankLine l = false)
    (hb : ∀ l ∈ ls.getLast?, isBlankLine l = false) : dropBlankEnds ([] :: (ls ++ [[]])) = ls := by
  have hempty : isBlankLine [] = true := rfl
  have hback : ((ls ++ [[]]).reverse.dropWhile isBlankLine).reverse = ls := by
    rw [List.reverse_append, List.reverse_singleton, List.singleton_append, List.dropWhile_cons_of_pos hempty,
      dropWhile_eq_self (by rwa [List.head?_reverse]), List.reverse_reverse]
  rw [dropBlankEnds, List.dropWhile_cons_of_pos hempty]
  cases ls with
  | nil => rfl
  | cons l ls =>
    rw [List.cons_append, List.dropWhile_cons_of_neg (by simp [hf l rfl])]
    exact hback

end GraphQLSchema.Literal.Block
