import GraphQLSchema.Proofs.Snapshot.RoundTrip

/-!
# Snapshots that were cut off

A snapshot that was not written to its end cannot be read. What is left of it decodes to nothing, wherever
the cut is: in a length, in a mark, in a text, or between two parts.
-/

namespace GraphQLSchema.Registry

theorem ofSnapshot_eq_undecodable_iff {bytes : List UInt8} :
    ofSnapshot bytes = .error .undecodable ↔ Snapshot.codec.decode bytes = none := by
  rw [ofSnapshot]
  cases Snapshot.codec.decode bytes with
  | none => simp
  | some p =>
    obtain ⟨s, rest⟩ := p
    dsimp only
    cases s.toRegistry <;> simp

/-- Of the snapshot of a closed registry and of all that it starts with, the snapshot alone can be decoded.
Lengths are written in eight bytes, so it has to be shorter than `2 ^ 64` bytes. -/
theorem ofSnapshot_prefix {r : Registry} (hc : r.isClosed = true) :
    ∃ bytes, r.snapshot = .ok bytes ∧ (bytes.length < 2 ^ 64 → ∀ front : List UInt8, front <+: bytes →
      (ofSnapshot front = .error .undecodable ↔ front ≠ bytes)) := by
  refine ⟨_, snapshot_of_isClosed hc, fun hl front hp => ?_⟩
  rw [ofSnapshot_eq_undecodable_iff]
  constructor
  · rintro hd rfl
    have hwhole := Snapshot.faithful_codec.decode_encode (.ofRegistry r) [] hl
    rw [List.append_nil, hd] at hwhole
    cases hwhole
  · exact Snapshot.faithful_codec.decode_eq_none Snapshot.canonical_codec hl hp

private def limited : Registry :=
  { settings := {}
    directives := Catalog.push ∅
      { name := "limit", description := none, locations := [.field], repeatable := false
        args := [{ name := "to", description := none, type := .list (.named "Int"), default := some "[1]" }] } }

/-- Without its last byte the snapshot has everything but the mark of the last root, which is missing. -/
theorem ofSnapshot_prefix_limited :
    limited.close.isClosed = true ∧
      ∃ bytes, limited.close.snapshot = .ok bytes ∧ bytes.length < 2 ^ 64 ∧
        ofSnapshot bytes.dropLast = .error .undecodable ∧ ofSnapshot [] = .error .undecodable := by
  obtain ⟨bytes, hb, h⟩ := ofSnapshot_prefix (r := limited.close) rfl
  have hl : 0 < bytes.length ∧ bytes.length < 2 ^ 64 := by
    obtain rfl := Except.ok.inj (hb.symm.trans (snapshot_of_isClosed rfl))
    decide +kernel
  have hne : bytes ≠ [] := List.ne_nil_of_length_pos hl.1
  have hcut : bytes.dropLast ≠ bytes := by
    intro he
    have := congrArg List.length he
    rw [List.length_dropLast] at this
    omega
  exact ⟨rfl, bytes, hb, hl.2, (h hl.2 _ (List.dropLast_prefix bytes)).mpr hcut,
    (h hl.2 _ List.nil_prefix).mpr hne.symm⟩

end GraphQLSchema.Registry
