import GraphQLSchema.Bytes.Codec
import Mathlib.Algebra.Order.Group.Nat
import Mathlib.Data.List.Basic

/-!
# Codecs that read back what they write

A codec is `Faithful` if it writes at least one byte and reads what it has written off the front of
any bytes. Lengths are written in eight bytes, so the law speaks of writings that are shorter than
`2 ^ 64` bytes. Each way of making a codec from others keeps the law.
-/

namespace GraphQLSchema.Codec

variable {α β : Type}

/-- Lengths fit in the eight bytes that hold them. -/
def maxLength : Nat := 2 ^ 64

structure Faithful (c : Codec α) : Prop where
  length_pos : ∀ a, 0 < (c.encode a).length
  decode_encode : ∀ a rest, (c.encode a).length < maxLength → c.decode (c.encode a ++ rest) = some (a, rest)

/-! ## Words -/

@[simp] theorem length_wordBytes (k n : Nat) : (wordBytes k n).length = k := by
  induction k generalizing n with
  | zero => rfl
  | succ k ih => rw [wordBytes, List.length_cons, ih]

theorem wordValue_wordBytes {k n : Nat} (h : n < 256 ^ k) : wordValue (wordBytes k n) = n := by
  induction k generalizing n with
  | zero =>
    obtain rfl : n = 0 := by simpa using h
    rfl
  | succ k ih =>
    have hd : n / 256 < 256 ^ k := by
      rw [Nat.div_lt_iff_lt_mul (by decide)]
      rwa [Nat.pow_succ] at h
    rw [wordBytes, wordValue, ih hd]
    change n % 256 + 256 * (n / 256) = n
    omega

theorem split?_append (front rest : List UInt8) : split? front.length (front ++ rest) = some (front, rest) := by
  induction front with
  | nil => rfl
  | cons b front ih => simp only [List.length_cons, List.cons_append, split?, ih]

theorem decode_word {k n : Nat} (h : n < 256 ^ k) (rest : List UInt8) :
    (word k).decode ((word k).encode n ++ rest) = some (n, rest) := by
  have hs : split? k (wordBytes k n ++ rest) = some (wordBytes k n, rest) := by
    simpa using split?_append (wordBytes k n) rest
  simp only [word, hs, Option.map_some, wordValue_wordBytes h]

@[simp] theorem length_encode_size (n : Nat) : (size.encode n).length = 8 := length_wordBytes 8 n

theorem decode_size {n : Nat} (h : n < maxLength) (rest : List UInt8) :
    size.decode (size.encode n ++ rest) = some (n, rest) :=
  decode_word h rest

/-! ## Codecs made from others -/

namespace Faithful

theorem choice [DecidableEq α] {width : Nat} (hw : 0 < width) {all : List α} (hl : all.length ≤ 256 ^ width)
    (ha : ∀ a, a ∈ all) : (choice width all).Faithful where
  length_pos a := by
    rw [Codec.choice, word, length_wordBytes]
    exact hw
  decode_encode a rest _ := by
    have hi : all.idxOf a < all.length := List.idxOf_lt_length_of_mem (ha a)
    simp only [Codec.choice, decode_word (Nat.lt_of_lt_of_le hi hl), Option.bind_eq_bind, Option.bind_some,
      List.getElem?_eq_getElem hi, List.getElem_idxOf]

theorem flag {width : Nat} (hw : 0 < width) : (flag width).Faithful := by
  refine choice hw ?_ (by decide)
  exact Nat.le_trans (by decide : 2 ≤ 256 ^ 1) (Nat.pow_le_pow_right (by decide) hw)

theorem pair {a : Codec α} {b : Codec β} (ha : a.Faithful) (hb : b.Faithful) : (a.pair b).Faithful where
  length_pos x := by
    have := ha.length_pos x.1
    rw [Codec.pair, List.length_append]
    omega
  decode_encode x rest h := by
    rw [Codec.pair, List.length_append] at h
    simp only [Codec.pair, List.append_assoc, ha.decode_encode x.1 _ (by omega), Option.bind_eq_bind,
      Option.bind_some, hb.decode_encode x.2 _ (by omega)]

theorem via {c : Codec α} (hc : c.Faithful) {out : β → α} {into : α → β} (h : ∀ b, into (out b) = b) :
    (c.via out into).Faithful where
  length_pos b := hc.length_pos (out b)
  decode_encode b rest hb := by
    simp only [Codec.via, hc.decode_encode (out b) rest hb, Option.map_some, h]

theorem option {tag : Codec Bool} {c : Codec α} (ht : tag.Faithful) (hc : c.Faithful) :
    (option tag c).Faithful where
  length_pos
    | none => ht.length_pos false
    | some a => by
      have := ht.length_pos true
      simp only [Codec.option, List.length_append]
      omega
  decode_encode
    | none, rest, h => by
      simp only [Codec.option, ht.decode_encode false rest h, Option.bind_eq_bind, Option.bind_some,
        Bool.false_eq_true, if_false]
    | some a, rest, h => by
      simp only [Codec.option, List.length_append] at h
      simp only [Codec.option, List.append_assoc, ht.decode_encode true _ (by omega), Option.bind_eq_bind,
        Option.bind_some, if_true, hc.decode_encode a rest (by omega)]

/-- Each item takes a byte at least, so there are no more items than bytes. -/
theorem length_le_length_flatMap {c : Codec α} (hc : c.Faithful) (l : List α) :
    l.length ≤ (l.flatMap c.encode).length := by
  induction l with
  | nil => exact Nat.le_refl _
  | cons a l ih =>
    have := hc.length_pos a
    rw [List.flatMap_cons, List.length_append, List.length_cons]
    omega

theorem decodeItems_flatMap {c : Codec α} (hc : c.Faithful) (rest : List UInt8) :
    ∀ l : List α, (l.flatMap c.encode).length < maxLength →
      c.decodeItems l.length (l.flatMap c.encode ++ rest) = some (l, rest)
  | [], _ => rfl
  | a :: l, h => by
    rw [List.flatMap_cons, List.length_append] at h
    simp only [List.flatMap_cons, List.length_cons, List.append_assoc, decodeItems,
      hc.decode_encode a _ (by omega), Option.bind_eq_bind, Option.bind_some,
      decodeItems_flatMap hc rest l (by omega)]

theorem list {c : Codec α} (hc : c.Faithful) : (list c).Faithful where
  length_pos l := by
    rw [Codec.list, List.length_append, length_encode_size]
    omega
  decode_encode l rest h := by
    rw [Codec.list, List.length_append, length_encode_size] at h
    have hl := hc.length_le_length_flatMap l
    simp only [Codec.list, List.append_assoc, decode_size (Nat.lt_of_le_of_lt hl (by omega)),
      Option.bind_eq_bind, Option.bind_some, hc.decodeItems_flatMap rest l (by omega)]

theorem text : text.Faithful where
  length_pos s := by
    rw [Codec.text, List.length_append, length_encode_size]
    omega
  decode_encode s rest h := by
    rw [Codec.text, List.length_append, length_encode_size] at h
    have hn : s.toUTF8.data.toList.length = s.utf8ByteSize := rfl
    have hs := split?_append s.toUTF8.data.toList rest
    rw [hn] at h hs
    have hu : String.fromUTF8? ⟨s.toUTF8.data.toList.toArray⟩ = some s := by
      simp [String.fromUTF8?, String.fromUTF8, s.isValidUTF8]
    simp only [Codec.text, List.append_assoc, decode_size (n := s.utf8ByteSize) (by omega),
      Option.bind_eq_bind, Option.bind_some, hs, hu]

end Faithful

end GraphQLSchema.Codec
