import GraphQLSchema.Proofs.Bytes.Codec

/-!
# Codecs with one form for each value

A codec is `Canonical` if the bytes that it takes off the front are those that it writes for what it has
read. Each way of making a codec from others keeps that too. Together with reading back what was written
it makes a writing unreadable once its end is cut off.
-/

namespace GraphQLSchema.Codec

variable {α β : Type}

structure Canonical (c : Codec α) : Prop where
  eq_append : ∀ {bs rest : List UInt8} {a : α}, c.decode bs = some (a, rest) → bs = c.encode a ++ rest

/-- What is left of a writing without its end is no writing with anything behind it. -/
theorem Faithful.decode_eq_none {c : Codec α} (hc : c.Faithful) (hn : c.Canonical) {a : α} {front : List UInt8}
    (hl : (c.encode a).length < maxLength) (hp : front <+: c.encode a) (hne : front ≠ c.encode a) :
    c.decode front = none := by
  cases hd : c.decode front with
  | none => rfl
  | some p =>
    obtain ⟨b, rest⟩ := p
    obtain rfl := hn.eq_append hd
    obtain ⟨cut, hcut⟩ := hp
    rw [List.append_assoc] at hcut
    have hlb : (c.encode b).length < maxLength := by
      have := congrArg List.length hcut
      rw [List.length_append] at this
      omega
    -- The whole writing would now be read in two ways, with and without something left over.
    have hwhole := hc.decode_encode a [] hl
    rw [List.append_nil, ← hcut, hc.decode_encode b _ hlb, Option.some.injEq, Prod.mk.injEq] at hwhole
    obtain ⟨rfl, hleft⟩ := hwhole
    obtain ⟨rfl, rfl⟩ := List.append_eq_nil_iff.mp hleft
    exact absurd (List.append_nil _) hne

/-! ## Words -/

theorem wordBytes_wordValue (bs : List UInt8) : wordBytes bs.length (wordValue bs) = bs := by
  induction bs with
  | nil => rfl
  | cons b bs ih =>
    have hb : b.toNat < 256 := b.toNat_lt
    have hlow : UInt8.ofNat (b.toNat + 256 * wordValue bs) = b := by
      rw [← UInt8.toNat_inj, UInt8.toNat_ofNat']
      omega
    have hhigh : (b.toNat + 256 * wordValue bs) / 256 = wordValue bs := by omega
    rw [List.length_cons, wordValue, wordBytes, hlow, hhigh, ih]

theorem split?_eq_some {k : Nat} {bs front rest : List UInt8} (h : split? k bs = some (front, rest)) :
    bs = front ++ rest ∧ front.length = k := by
  induction k generalizing bs front with
  | zero =>
    rw [split?] at h
    cases h
    exact ⟨rfl, rfl⟩
  | succ k ih =>
    cases bs with
    | nil => cases h
    | cons b bs =>
      rw [split?] at h
      split at h
      · next front' rest' hs =>
        cases h
        obtain ⟨rfl, rfl⟩ := ih hs
        exact ⟨rfl, rfl⟩
      · cases h

namespace Canonical

theorem word (k : Nat) : (word k).Canonical where
  eq_append h := by
    obtain ⟨⟨front, rest⟩, hs, h⟩ := Option.map_eq_some_iff.mp h
    cases h
    obtain ⟨rfl, rfl⟩ := split?_eq_some hs
    simp only [Codec.word, wordBytes_wordValue]

theorem size : size.Canonical := word 8

/-! ## Codecs made from others -/

theorem choice [DecidableEq α] {width : Nat} {all : List α} (hn : all.Nodup) : (choice width all).Canonical where
  eq_append h := by
    obtain ⟨⟨i, rest⟩, hw, h⟩ := Option.bind_eq_some_iff.mp h
    obtain ⟨a, ha, h⟩ := Option.bind_eq_some_iff.mp h
    cases h
    obtain ⟨hi, rfl⟩ := List.getElem?_eq_some_iff.mp ha
    simp only [(word width).eq_append hw, Codec.choice, hn.idxOf_getElem]

theorem flag (width : Nat) : (flag width).Canonical := choice (by decide)

theorem pair {a : Codec α} {b : Codec β} (ha : a.Canonical) (hb : b.Canonical) : (a.pair b).Canonical where
  eq_append h := by
    obtain ⟨⟨x, bs⟩, hx, h⟩ := Option.bind_eq_some_iff.mp h
    obtain ⟨⟨y, rest⟩, hy, h⟩ := Option.bind_eq_some_iff.mp h
    cases h
    rw [ha.eq_append hx, hb.eq_append hy, Codec.pair, List.append_assoc]

theorem via {c : Codec α} (hc : c.Canonical) {out : β → α} {into : α → β} (h : ∀ a, out (into a) = a) :
    (c.via out into).Canonical where
  eq_append hd := by
    obtain ⟨⟨a, rest⟩, ha, hd⟩ := Option.map_eq_some_iff.mp hd
    cases hd
    simp only [hc.eq_append ha, Codec.via, h]

theorem option {tag : Codec Bool} {c : Codec α} (ht : tag.Canonical) (hc : c.Canonical) :
    (option tag c).Canonical where
  eq_append h := by
    obtain ⟨⟨present, bs⟩, hp, h⟩ := Option.bind_eq_some_iff.mp h
    cases present with
    | false =>
      cases h
      rw [ht.eq_append hp, Codec.option]
    | true =>
      obtain ⟨⟨a, rest⟩, ha, h⟩ := Option.bind_eq_some_iff.mp h
      cases h
      rw [ht.eq_append hp, hc.eq_append ha, Codec.option, List.append_assoc]

theorem of_decodeItems {c : Codec α} (hc : c.Canonical) {n : Nat} {bs rest : List UInt8} {as : List α}
    (h : c.decodeItems n bs = some (as, rest)) : bs = as.flatMap c.encode ++ rest ∧ as.length = n := by
  induction n generalizing bs as with
  | zero =>
    cases h
    exact ⟨rfl, rfl⟩
  | succ n ih =>
    obtain ⟨⟨a, bs'⟩, ha, h⟩ := Option.bind_eq_some_iff.mp h
    obtain ⟨⟨as', rest'⟩, has, h⟩ := Option.bind_eq_some_iff.mp h
    cases h
    obtain ⟨rfl, rfl⟩ := ih has
    rw [hc.eq_append ha, List.flatMap_cons, List.append_assoc]
    exact ⟨rfl, rfl⟩

theorem list {c : Codec α} (hc : c.Canonical) : (list c).Canonical where
  eq_append h := by
    obtain ⟨⟨n, bs⟩, hn, h⟩ := Option.bind_eq_some_iff.mp h
    obtain ⟨rfl, rfl⟩ := hc.of_decodeItems h
    rw [size.eq_append hn, Codec.list, List.append_assoc]

theorem text : text.Canonical where
  eq_append {_ _ s} h := by
    obtain ⟨⟨n, bs⟩, hn, h⟩ := Option.bind_eq_some_iff.mp h
    obtain ⟨⟨front, rest⟩, hf, h⟩ := Option.bind_eq_some_iff.mp h
    obtain ⟨u, hs, h⟩ := Option.bind_eq_some_iff.mp h
    cases h
    obtain ⟨rfl, rfl⟩ := split?_eq_some hf
    have hbytes : s.toUTF8.data.toList = front := by
      unfold String.fromUTF8? at hs
      split at hs
      · cases hs
        rfl
      · cases hs
    have hlength : s.utf8ByteSize = front.length := congrArg List.length hbytes
    simp only [size.eq_append hn, Codec.text, hbytes, hlength, List.append_assoc]

end Canonical

end GraphQLSchema.Codec
