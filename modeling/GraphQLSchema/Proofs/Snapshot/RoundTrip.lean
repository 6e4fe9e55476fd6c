import GraphQLSchema.Proofs.Snapshot.Codec
import GraphQLSchema.Proofs.Snapshot.Restore

/-!
# Loading what was saved, and saving what was loaded

The bytes of a closed registry, with any bytes behind them, load as the same registry: contents in
their order, roots, settings, phase and indexes. The other way round, a registry that was loaded is
saved as the bytes that were read, unless repeated locations were collapsed in between.
-/

namespace GraphQLSchema.Registry

theorem Sound.toRegistry_ofRegistry {r : Registry} (hr : r.Sound) (hc : r.isClosed = true) :
    (Snapshot.ofRegistry r).toRegistry = .ok r := by
  have h := (hr.on_rebuild r.settings finalize).trans (hr.on_finalize_opened hc)
  rw [Snapshot.toRegistry, Edit.applyTo, Snapshot.restore]
  simp only [Snapshot.ofRegistry]
  rw [h]

theorem snapshot_of_isClosed {r : Registry} (hc : r.isClosed = true) :
    r.snapshot = .ok (Snapshot.codec.encode (.ofRegistry r)) := by
  rw [snapshot, ensureClosed, if_pos hc]
  rfl

theorem ofSnapshot_encode_append {s : Snapshot} {r : Registry} (hs : s.toRegistry = .ok r)
    (hl : (Snapshot.codec.encode s).length < Codec.maxLength) (rest : List UInt8) :
    ofSnapshot (Snapshot.codec.encode s ++ rest) = .ok r := by
  rw [ofSnapshot, Snapshot.faithful_codec.decode_encode s rest hl]
  simp only [hs]

/-- A closed registry has a snapshot, and whatever stands behind it the snapshot loads as the very
same registry. Lengths are written in eight bytes, so it has to be shorter than `2 ^ 64` bytes. -/
theorem ofSnapshot_snapshot_append {r : Registry} (hr : r.Reachable) (hc : r.isClosed = true) :
    ∃ bytes, r.snapshot = .ok bytes ∧
      (bytes.length < 2 ^ 64 → ∀ rest : List UInt8, ofSnapshot (bytes ++ rest) = .ok r) := by
  refine ⟨_, snapshot_of_isClosed hc, fun hl rest => ?_⟩
  exact ofSnapshot_encode_append (hr.sound.toRegistry_ofRegistry hc) hl rest

private def repeating : Registry :=
  { settings := { dedupDirectiveLocations := true }
    directives := Catalog.push ∅
      { name := "tag", description := none, locations := [.field, .field], args := [], repeatable := false } }

theorem ofSnapshot_snapshot_append_repeating :
    repeating.close.Reachable ∧ repeating.close.isClosed = true ∧
      ∃ bytes, repeating.close.snapshot = .ok bytes ∧ bytes.length < 2 ^ 64 ∧
        ofSnapshot (bytes ++ [1, 2, 3]) = .ok repeating.close := by
  have hd : Step (empty { dedupDirectiveLocations := true }) repeating :=
    ⟨rfl, .directive (Catalog.contains_empty _)⟩
  have hr : repeating.close.Reachable :=
    ((Reachable.start { dedupDirectiveLocations := true }).step hd).step ⟨rfl, .close rfl⟩
  obtain ⟨bytes, hb, h⟩ := ofSnapshot_snapshot_append hr rfl
  have hl : bytes.length < 2 ^ 64 := by
    obtain rfl := Except.ok.inj (hb.symm.trans (snapshot_of_isClosed rfl))
    decide +kernel
  exact ⟨hr, rfl, bytes, hb, hl, h hl _⟩

/-! ## Saving what was loaded -/

theorem ofRegistry_close_opened {s : Snapshot} (hs : s.settings.dedupDirectiveLocations = false) :
    Snapshot.ofRegistry s.opened.close = s := by
  have hc : s.opened.close = { s.opened with phase := .closed } := by
    rw [close, if_neg (by simp [Snapshot.opened, hs])]
  rw [hc, Snapshot.ofRegistry]
  simp only [Snapshot.opened, Catalog.toList_ofList]

/-- A registry that was loaded, with its repeated locations left alone, is saved as the bytes that were
read: they stand at the front of those given, and what loading passed over stands behind them. -/
theorem snapshot_append_of_ofSnapshot {bytes : List UInt8} {r : Registry} (h : ofSnapshot bytes = .ok r)
    (hs : r.settings.dedupDirectiveLocations = false) :
    ∃ saved rest, r.snapshot = .ok saved ∧ saved ++ rest = bytes ∧
      Snapshot.codec.decode bytes = some (.ofRegistry r, rest) := by
  obtain ⟨s, rest, hd, -, hf⟩ := ofSnapshot_eq_ok_iff.mp h
  obtain ⟨-, rfl⟩ := Snapshot.on_finalize_opened_eq_ok_iff.mp hf
  have hread : Snapshot.ofRegistry s.opened.close = s := ofRegistry_close_opened hs
  have hbytes : bytes = Snapshot.codec.encode s ++ rest := Snapshot.canonical_codec.eq_append hd
  refine ⟨Snapshot.codec.encode s, rest, ?_, hbytes.symm, ?_⟩
  · rw [snapshot_of_isClosed rfl, hread]
  · rw [hd, hread]

private def listed : Snapshot :=
  { settings := {}, types := [], roots := {}
    directives :=
      [{ name := "tag", description := some "A mark", locations := [.field, .object, .field], args := []
         repeatable := true }] }

theorem snapshot_append_of_ofSnapshot_listed :
    ofSnapshot (Snapshot.codec.encode listed ++ [0, 255]) = .ok listed.opened.close ∧
      listed.opened.close.settings.dedupDirectiveLocations = false ∧
      ∃ saved rest, listed.opened.close.snapshot = .ok saved ∧
        saved ++ rest = Snapshot.codec.encode listed ++ [0, 255] ∧
        Snapshot.codec.decode (Snapshot.codec.encode listed ++ [0, 255]) =
          some (.ofRegistry listed.opened.close, rest) := by
  have hf : Edit.on listed.opened finalize = (.ok (), listed.opened.close) :=
    Snapshot.on_finalize_opened_eq_ok_iff.mpr ⟨rfl, rfl⟩
  have hr : listed.toRegistry = .ok listed.opened.close :=
    Snapshot.toRegistry_eq_ok_iff.mpr ⟨⟨List.nodup_nil, List.nodup_singleton _⟩, hf⟩
  have ho : ofSnapshot (Snapshot.codec.encode listed ++ [0, 255]) = .ok listed.opened.close :=
    ofSnapshot_encode_append hr (by decide +kernel) _
  exact ⟨ho, rfl, snapshot_append_of_ofSnapshot ho rfl⟩

end GraphQLSchema.Registry
