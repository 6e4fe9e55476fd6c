import GraphQLSchema.Literal.Token

/-!
# Ignored text

What `skip` drops is ignored text; only a comment that is still open at the end of the text takes
everything with it.
-/

namespace GraphQLSchema.Literal

inductive Ignored : List Char → Prop
  | nil : Ignored []
  | char {c : Char} {s : List Char} (hc : isIgnored c = true) (h : Ignored s) : Ignored (c :: s)
  | comment {t s : List Char} {e : Char} (ht : ∀ c ∈ t, isLineEnd c = false) (he : isLineEnd e = true)
      (h : Ignored s) : Ignored ('#' :: (t ++ e :: s))

def OpenComment (s : List Char) : Prop := ∃ t, s = '#' :: t ∧ ∀ c ∈ t, isLineEnd c = false

def IsMark (c : Char) : Prop := isIgnored c = false ∧ c ≠ '#'

instance (c : Char) : Decidable (IsMark c) := inferInstanceAs (Decidable (_ ∧ _))

theorem skip_cons {c : Char} (hc : IsMark c) (s : List Char) : skip (c :: s) = c :: s := by
  rw [skip, if_neg hc.2, if_neg (by simp [hc.1])]

theorem skip_cons_ignored {c : Char} (hc : isIgnored c = true) (s : List Char) : skip (c :: s) = skip s := by
  have hs : c ≠ '#' := by
    rintro rfl
    exact absurd hc (by decide)
  rw [skip, if_neg hs, if_pos hc]

theorem skipComment_of_forall {t : List Char} (ht : ∀ c ∈ t, isLineEnd c = false) : skipComment t = [] := by
  induction t with
  | nil => rw [skipComment]
  | cons c t ih =>
    rw [List.forall_mem_cons] at ht
    rw [skipComment, if_neg (by simp [ht.1]), ih ht.2]

theorem skipComment_append {t : List Char} (ht : ∀ c ∈ t, isLineEnd c = false) {e : Char} (he : isLineEnd e = true)
    (s : List Char) : skipComment (t ++ e :: s) = skip s := by
  induction t with
  | nil => rw [List.nil_append, skipComment, if_pos he]
  | cons c t ih =>
    rw [List.forall_mem_cons] at ht
    rw [List.cons_append, skipComment, if_neg (by simp [ht.1]), ih ht.2]

theorem skip_append {g : List Char} (hg : Ignored g) (s : List Char) : skip (g ++ s) = skip s := by
  induction hg with
  | nil => rfl
  | char hc _ ih => rw [List.cons_append, skip_cons_ignored hc, ih]
  | comment ht he _ ih =>
    rw [List.cons_append, List.append_assoc, List.cons_append, skip, if_pos rfl, skipComment_append ht he, ih]

theorem skip_openComment {s : List Char} (hs : OpenComment s) : skip s = [] := by
  obtain ⟨t, rfl, ht⟩ := hs
  rw [skip, if_pos rfl, skipComment_of_forall ht]

theorem exists_lineEnd (s : List Char) :
    (∀ c ∈ s, isLineEnd c = false) ∨
      ∃ t e u, s = t ++ e :: u ∧ (∀ c ∈ t, isLineEnd c = false) ∧ isLineEnd e = true := by
  induction s with
  | nil => exact .inl (by simp)
  | cons c s ih =>
    by_cases hc : isLineEnd c = true
    · exact .inr ⟨[], c, s, rfl, by simp, hc⟩
    · have hc : isLineEnd c = false := by simpa using hc
      rcases ih with h | ⟨t, e, u, rfl, ht, he⟩
      · exact .inl (List.forall_mem_cons.mpr ⟨hc, h⟩)
      · exact .inr ⟨c :: t, e, u, rfl, List.forall_mem_cons.mpr ⟨hc, ht⟩, he⟩

/-- A text is ignored up to its end, up to an open comment, or up to a character that is not. -/
theorem exists_ignored (s : List Char) :
    ∃ g r, s = g ++ r ∧ Ignored g ∧ (r = [] ∨ OpenComment r ∨ ∃ c t, r = c :: t ∧ IsMark c) := by
  induction hn : s.length using Nat.strongRecOn generalizing s with
  | ind n ih =>
    cases s with
    | nil => exact ⟨[], [], rfl, .nil, .inl rfl⟩
    | cons c s =>
      rw [List.length_cons] at hn
      by_cases hs : c = '#'
      · subst hs
        rcases exists_lineEnd s with ht | ⟨t, e, u, rfl, ht, he⟩
        · exact ⟨[], '#' :: s, rfl, .nil, .inr (.inl ⟨s, rfl, ht⟩)⟩
        · have hu : u.length < n := by
            rw [← hn, List.length_append, List.length_cons]
            omega
          obtain ⟨g, r, rfl, hg, hr⟩ := ih u.length hu u rfl
          exact ⟨'#' :: (t ++ e :: g), r, by simp, .comment ht he hg, hr⟩
      · by_cases hc : isIgnored c = true
        · obtain ⟨g, r, rfl, hg, hr⟩ := ih s.length (by omega) s rfl
          exact ⟨c :: g, r, rfl, .char hc hg, hr⟩
        · exact ⟨[], c :: s, rfl, .nil, .inr (.inr ⟨c, s, rfl, by simpa using hc, hs⟩)⟩

theorem skip_eq_cons_iff {s t : List Char} {c : Char} :
    skip s = c :: t ↔ IsMark c ∧ ∃ g, Ignored g ∧ s = g ++ c :: t := by
  constructor
  · intro h
    obtain ⟨g, r, rfl, hg, rfl | hr | ⟨d, u, rfl, hd⟩⟩ := exists_ignored s
    · rw [skip_append hg, skip] at h
      cases h
    · rw [skip_append hg, skip_openComment hr] at h
      cases h
    · rw [skip_append hg, skip_cons hd] at h
      cases h
      exact ⟨hd, g, hg, rfl⟩
  · rintro ⟨hc, g, hg, rfl⟩
    rw [skip_append hg, skip_cons hc]

theorem skip_eq_nil_iff {s : List Char} :
    skip s = [] ↔ Ignored s ∨ ∃ g d, Ignored g ∧ OpenComment d ∧ s = g ++ d := by
  constructor
  · intro h
    obtain ⟨g, r, rfl, hg, rfl | hr | ⟨d, u, rfl, hd⟩⟩ := exists_ignored s
    · rw [List.append_nil]
      exact .inl hg
    · exact .inr ⟨g, r, hg, hr, rfl⟩
    · rw [skip_append hg, skip_cons hd] at h
      cases h
  · rintro (h | ⟨g, d, hg, hd, rfl⟩)
    · simpa [skip] using skip_append h []
    · rw [skip_append hg, skip_openComment hd]

theorem length_skip_le (s : List Char) : (skip s).length ≤ s.length := by
  cases h : skip s with
  | nil => exact Nat.zero_le _
  | cons c t =>
    obtain ⟨-, g, -, rfl⟩ := skip_eq_cons_iff.mp h
    rw [List.length_append]
    exact Nat.le_add_left _ _

/-- At the end of an ignored text a comment has been closed, so what stands behind its last line end is
ignored character by character. -/
theorem Ignored.isIgnored_of_append {s : List Char} (h : Ignored s) {x y : List Char} (hs : s = x ++ y)
    (hy : ∀ c ∈ y, isLineEnd c = false) : ∀ c ∈ y, isIgnored c = true := by
  induction h generalizing x y with
  | nil =>
    have := List.append_eq_nil_iff.mp hs.symm
    simp [this.2]
  | @char c s hc h ih =>
    cases x with
    | nil =>
      rw [List.nil_append] at hs
      subst hs
      rw [List.forall_mem_cons] at hy ⊢
      exact ⟨hc, ih (x := []) rfl hy.2⟩
    | cons d x => exact ih (List.cons.inj hs).2 hy
  | @comment t s e ht he h ih =>
    -- The line end stands in front of what the text ends in.
    have hmem : e ∉ y := fun hmem => by simp [hy e hmem] at he
    have hs : ('#' :: t) ++ e :: s = x ++ y := hs
    rcases List.append_eq_append_iff.mp hs with ⟨z, rfl, hz⟩ | ⟨z, hx, rfl⟩
    · cases z with
      | nil =>
        rw [List.nil_append] at hz
        rw [← hz] at hmem
        exact absurd List.mem_cons_self hmem
      | cons d z => exact ih (List.cons.inj hz).2 hy
    · exact absurd (List.mem_append_right z List.mem_cons_self) hmem

end GraphQLSchema.Literal
