/-!
# Blank characters

The characters of the Unicode property White_Space, and cutting them off both ends of a text.
-/

namespace GraphQLSchema.Text

def blankRanges : List (Nat × Nat) :=
  [(0x09, 0x0D), (0x20, 0x20), (0x85, 0x85), (0xA0, 0xA0), (0x1680, 0x1680), (0x2000, 0x200A),
   (0x2028, 0x2029), (0x202F, 0x202F), (0x205F, 0x205F), (0x3000, 0x3000)]

def isBlank (c : Char) : Bool := blankRanges.any fun (lo, hi) => lo ≤ c.toNat && c.toNat ≤ hi

def trimStart (s : List Char) : List Char := s.dropWhile isBlank

def trimEnd (s : List Char) : List Char := (s.reverse.dropWhile isBlank).reverse

def trim (s : List Char) : List Char := trimEnd (trimStart s)

theorem length_trim_le (s : List Char) : (trim s).length ≤ s.length := by
  have h₁ := (List.dropWhile_suffix (l := s) isBlank).length_le
  have h₂ := (List.dropWhile_suffix (l := (s.dropWhile isBlank).reverse) isBlank).length_le
  simp only [trim, trimEnd, trimStart, List.length_reverse] at *
  omega

end GraphQLSchema.Text
