import GraphQLSchema.Proofs.Bytes.Canonical
import GraphQLSchema.Snapshot

/-! # The codecs of definitions read back what they write, and nothing else -/

namespace GraphQLSchema

namespace Codec

theorem decodeRef_named (bs : List UInt8) :
    decodeRef (wordBytes 4 0 ++ bs) = (text.decode bs).map fun (n, bs) => (.named n, bs) := rfl

theorem decodeRef_list (bs : List UInt8) :
    decodeRef (wordBytes 4 1 ++ bs) = (decodeRef bs).map fun (t, bs) => (.list t, bs) := rfl

theorem decodeRef_nonNull (bs : List UInt8) :
    decodeRef (wordBytes 4 2 ++ bs) = (decodeRef bs).map fun (t, bs) => (.nonNull t, bs) := rfl

namespace Faithful

theorem tag : tag.Faithful := flag (by decide)

theorem bit : bit.Faithful := flag (by decide)

theorem optional {α : Type} {c : Codec α} (hc : c.Faithful) : c.optional.Faithful := option bit hc

/-- Every marker takes four bytes; what is inside follows. -/
theorem decodeRef_encodeRef (rest : List UInt8) (t : TypeRef) (h : (encodeRef t).length < maxLength) :
    decodeRef (encodeRef t ++ rest) = some (t, rest) := by
  induction t with
  | named n =>
    rw [encodeRef, List.length_append] at h
    rw [encodeRef, List.append_assoc, decodeRef_named, text.decode_encode n rest (by omega)]
    rfl
  | list t ih =>
    rw [encodeRef, List.length_append] at h
    rw [encodeRef, List.append_assoc, decodeRef_list, ih (by omega)]
    rfl
  | nonNull t ih =>
    rw [encodeRef, List.length_append] at h
    rw [encodeRef, List.append_assoc, decodeRef_nonNull, ih (by omega)]
    rfl

theorem typeRef : typeRef.Faithful where
  length_pos t := by cases t <;> simp [Codec.typeRef, encodeRef]
  decode_encode t rest h := decodeRef_encodeRef rest t h

theorem inputValue : inputValue.Faithful :=
  (text.pair (text.optional.pair (typeRef.pair text.optional))).via fun _ => rfl

theorem deprecation : deprecation.Faithful :=
  (tag.option text.optional).via fun d => by cases d <;> rfl

theorem field : field.Faithful :=
  (text.pair (text.optional.pair (typeRef.pair (inputValue.list.pair deprecation)))).via fun _ => rfl

theorem enumValue : enumValue.Faithful :=
  (text.pair (text.optional.pair deprecation)).via fun _ => rfl

theorem kind : kind.Faithful :=
  choice (by decide) (by decide) fun k => by cases k <;> decide

theorem location : location.Faithful := choice (by decide) (by decide) Location.mem_all

theorem typeDef : typeDef.Faithful :=
  (text.pair (kind.pair (text.optional.pair (text.optional.pair (field.list.pair (text.list.pair
    (text.list.pair (enumValue.list.pair inputValue.list)))))))).via fun _ => rfl

theorem directive : directive.Faithful :=
  (text.pair (text.optional.pair (location.list.pair (inputValue.list.pair bit)))).via fun _ => rfl

theorem settings : settings.Faithful := (bit.pair (bit.pair (bit.pair bit))).via fun _ => rfl

theorem roots : roots.Faithful := (text.optional.pair (text.optional.pair text.optional)).via fun _ => rfl

end Faithful

namespace Canonical

theorem tag : tag.Canonical := flag 4

theorem bit : bit.Canonical := flag 1

theorem optional {α : Type} {c : Codec α} (hc : c.Canonical) : c.optional.Canonical := option bit hc

theorem eq_encodeRef_append {bs rest : List UInt8} {t : TypeRef} (h : decodeRef bs = some (t, rest)) :
    bs = encodeRef t ++ rest := by
  have word (a b c d : UInt8) (bs : List UInt8) :
      a :: b :: c :: d :: bs = wordBytes 4 (wordValue [a, b, c, d]) ++ bs :=
    congrArg (· ++ bs) (wordBytes_wordValue [a, b, c, d]).symm
  fun_induction decodeRef bs generalizing t with
  | case1 a b c d bs hw =>
    obtain ⟨⟨n, rest⟩, hn, h⟩ := Option.map_eq_some_iff.mp h
    cases h
    rw [word, hw, text.eq_append hn, encodeRef, List.append_assoc]
  | case2 a b c d bs hw ih | case3 a b c d bs hw ih =>
    obtain ⟨⟨u, rest⟩, hu, h⟩ := Option.map_eq_some_iff.mp h
    cases h
    rw [word, hw, ih hu, encodeRef, List.append_assoc]
  | case4 => cases h
  | case5 => cases h

theorem typeRef : typeRef.Canonical := ⟨eq_encodeRef_append⟩

theorem inputValue : inputValue.Canonical :=
  (text.pair (text.optional.pair (typeRef.pair text.optional))).via fun _ => rfl

theorem deprecation : deprecation.Canonical :=
  (tag.option text.optional).via fun d => by cases d <;> rfl

theorem field : field.Canonical :=
  (text.pair (text.optional.pair (typeRef.pair (inputValue.list.pair deprecation)))).via fun _ => rfl

theorem enumValue : enumValue.Canonical :=
  (text.pair (text.optional.pair deprecation)).via fun _ => rfl

theorem kind : kind.Canonical := choice (by decide)

theorem location : location.Canonical := choice (by decide)

theorem typeDef : typeDef.Canonical :=
  (text.pair (kind.pair (text.optional.pair (text.optional.pair (field.list.pair (text.list.pair
    (text.list.pair (enumValue.list.pair inputValue.list)))))))).via fun _ => rfl

theorem directive : directive.Canonical :=
  (text.pair (text.optional.pair (location.list.pair (inputValue.list.pair bit)))).via fun _ => rfl

theorem settings : settings.Canonical := (bit.pair (bit.pair (bit.pair bit))).via fun _ => rfl

theorem roots : roots.Canonical := (text.optional.pair (text.optional.pair text.optional)).via fun _ => rfl

end Canonical

end Codec

theorem Snapshot.faithful_codec : Snapshot.codec.Faithful :=
  (Codec.Faithful.settings.pair (Codec.Faithful.typeDef.list.pair
    (Codec.Faithful.directive.list.pair Codec.Faithful.roots))).via fun _ => rfl

theorem Snapshot.canonical_codec : Snapshot.codec.Canonical :=
  (Codec.Canonical.settings.pair (Codec.Canonical.typeDef.list.pair
    (Codec.Canonical.directive.list.pair Codec.Canonical.roots))).via fun _ => rfl

end GraphQLSchema
