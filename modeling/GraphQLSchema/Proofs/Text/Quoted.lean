import GraphQLSchema.Text.Quoted

/-!
# The three ways to write a character between quotes

A character stands for itself, or a backslash and a letter stand for it, or its code does in four
hexadecimal digits. Whoever reads quoted text has these three cases to answer for.
-/

namespace GraphQLSchema.Text

theorem hexValue?_hexDigit : ∀ n < 0x20, hexValue? ['0', '0', hexDigit (n / 16), hexDigit n] = some n := by
  decide

inductive Escaped (c : Char) : List Char → Prop
  | itself (hq : c ≠ '"') (hb : c ≠ '\\') (hc : 0x20 ≤ c.toNat) : Escaped c [c]
  | letter {e : Char} (he : unescape? e = some c) : Escaped c ['\\', e]
  | code {a b : Char} (hn : hexValue? ['0', '0', a, b] = some c.toNat) (hc : c.toNat < 0x20) :
      Escaped c ['\\', 'u', '0', '0', a, b]

theorem escaped_escape (c : Char) : Escaped c (escape c) := by
  unfold escape
  split
  · exact .letter rfl
  · exact .letter rfl
  · exact .letter rfl
  · exact .letter rfl
  · exact .letter rfl
  · exact .letter rfl
  · exact .letter rfl
  · next hq hb _ _ _ _ _ =>
    by_cases hc : c.toNat < 0x20
    · rw [if_pos hc]
      exact .code (hexValue?_hexDigit _ hc) hc
    · rw [if_neg hc]
      exact .itself hq hb (Nat.le_of_not_lt hc)

theorem ne_u_of_unescape? {c e : Char} (h : unescape? e = some c) : e ≠ 'u' := by
  rintro rfl
  cases h

end GraphQLSchema.Text
