import ChunkedArray.Proofs.Array.Frame
import ChunkedArray.Proofs.Array.Opened
import ChunkedArray.Proofs.Store.Faults

/-!
# What can be expected of an array

Every array has a geometry that resolves to itself, valid codec parameters, and a source for its
pending chunks, whether it was made in memory or opened from a store. Of such an array a box is read
in full if the chunks under it can be read, and fails as foreseen otherwise. An array that is used by
others may have become another one, but keeps its geometry and what could be read of it.
-/

namespace ChunkedArray

open ChunkedArray.Action

namespace Geometry

variable {g : Geometry} {source : ChunkSource} {s : Store} {sel : Selection} {part : Projection}

/-- Chunks that answer as foreseen are gathered as foreseen, if their items can be cut. -/
theorem foreseeable_gatherChunks (hcuts : part.Cuts g.itemsize)
    (h : ∀ i, Foreseeable (s.fetch source i)) (out : Bytes) (chunks : List Nat) :
    Foreseeable (outcome (gatherChunks g source sel part out chunks) s) := by
  induction chunks generalizing out with
  | nil => exact foreseeable_ok out
  | cons i rest ih =>
    cases hhits : sel.hits (g.grid.chunkBox i) with
    | none =>
      rw [gatherChunks_cons, hhits]
      exact ih out
    | some hits =>
      rw [outcome_gatherChunks_hit out rest hhits]
      refine (Store.foreseeable_getRange (h i) _ _).bind fun data _ => ?_
      rw [if_pos hcuts]
      exact ih _

theorem foreseeable_readParts (hcuts : part.Cuts g.itemsize)
    (h : ∀ i, Foreseeable (s.fetch source i)) :
    Foreseeable (outcome (readParts g source sel part) s) := by
  rw [readParts]
  split
  · exact foreseeable_error trivial
  split
  · exact foreseeable_ok _
  · exact foreseeable_gatherChunks hcuts h _ _

/-- A box between signed words is read in full or fails as foreseen. -/
theorem readBox_of_addressable (hg : g.Regular) {box : Box} (hinside : box.Inside g.shape)
    (haddress : box.Addressable g.shape) (hne : box.Nonempty) (hcuts : part.Cuts g.itemsize)
    (h : ∀ i, Foreseeable (s.fetch source i)) :
    (∀ data, outcome (readBox g source part box) s = .ok data →
      data.size = box.shape.size * part.width) ∧
    Foreseeable (outcome (readBox g source part box) s) := by
  have hparts : outcome (readBox g source part box) s =
      outcome (readParts g source (.ofBox box) part) s := by
    rw [outcome_readBox, Region.resolve_ofBox haddress hne]
    rfl
  rw [hparts]
  exact ⟨fun data hdata => (shows_of_readParts hg (Selection.fits_ofBox hinside) hdata).showsBox.size,
    foreseeable_readParts hcuts h⟩

/-- A box is read if the chunks under it can be read. -/
theorem exists_readBox (hg : g.Regular) {box : Box} (hinside : box.Inside g.shape)
    (haddress : box.Addressable g.shape) (hne : box.Nonempty) (hcuts : part.Cuts g.itemsize)
    (hpart : part.offset + part.width ≤ g.itemsize)
    (hread : ∀ i < g.nchunks, g.HitsReadable s source (.ofBox box) i) :
    ∃ data, outcome (readBox g source part box) s = .ok data := by
  obtain ⟨data, hdata, -⟩ :=
    readParts_of_readable hg (Selection.fits_ofBox hinside) (fun _ => hcuts) hpart hread
  refine ⟨data, ?_⟩
  rw [outcome_readBox, Region.resolve_ofBox haddress hne]
  exact hdata

end Geometry

namespace NDArray

variable {a : NDArray} {contents : Nat → Bytes} {s : Store}

/-- What holds of every array: a geometry that resolves to itself, chunks without empty axes and items
of a positive size, valid codec parameters, and a source for every pending chunk. -/
structure Formed (a : NDArray) : Prop where
  regular : a.geometry.Regular
  resolved : Geometry.resolve a.shape a.dtype (some a.geometry.chunks) (some a.geometry.blocks) =
    .ok a.geometry
  codec : a.store.codec.validate = .ok ()
  sourced : a.store.Sourced

/-- An array in memory is formed. -/
theorem Sound.formed (h : a.Sound contents) : a.Formed := by
  obtain ⟨chunks, blocks, -, -, hresolve, -⟩ := h.grown
  refine ⟨h.regular, Geometry.resolve_self hresolve, h.grown.exact.kept.valid,
    fun _ slot hslot nbytes cbytes => ?_⟩
  obtain ⟨c, rfl, -⟩ := h.exists_of_mem hslot
  exact Slot.noConfusion

/-- An array that was found in a store is formed. -/
theorem formed_of_ofStore (hs : s.Reachable) (h : ofStore s = .ok a) : a.Formed := by
  obtain ⟨rfl, hg, -, -⟩ := ofStore_eq_ok h
  obtain ⟨shape, dtype, chunks, blocks, hresolve⟩ := exists_resolve_of_readGeometry hg
  exact ⟨regular_of_ofStore hs.wellKept.chunkSize h, Geometry.resolve_self hresolve,
    hs.wellKept.valid, hs.sourced⟩

end NDArray

/-! ## Arrays in use -/

/-- What is left of an array however it is used: its geometry, what could be read of it, and that its
chunks fail as foreseen if they do. -/
structure NDArray.Keeps (fs fs' : Files) (a a' : NDArray) : Prop where
  geometry : a'.geometry = a.geometry
  readable : ∀ i start length, a.store.Readable (a.store.chunkSource fs) i start length →
    a'.store.Readable (a'.store.chunkSource fs') i start length
  foreseeable : (∀ i, Foreseeable (a.store.fetch (a.store.chunkSource fs) i)) →
    ∀ i, Foreseeable (a'.store.fetch (a'.store.chunkSource fs') i)

namespace NDArray

variable {fs fs' fs'' : Files} {a a' a'' : NDArray}

theorem Keeps.trans (h : Keeps fs fs' a a') (h' : Keeps fs' fs'' a' a'') : Keeps fs fs'' a a'' :=
  ⟨h'.geometry.trans h.geometry, fun i start length hread =>
    h'.readable i start length (h.readable i start length hread), fun hall =>
    h'.foreseeable (h.foreseeable hall)⟩

/-- To fetch chunks of an array keeps it. -/
theorem Alike.keeps (h : Alike fs a a') : Keeps fs fs a a' := by
  refine ⟨h.geometry, fun i start length hread => ?_, fun hall i => ?_⟩
  · rw [Store.Readable, h.store.chunkSource, h.store.fetch]
    exact hread
  · rw [h.store.chunkSource, h.store.fetch]
    exact hall i

theorem Keeps.hitsReadable (h : Keeps fs fs' a a') {sel : Selection} {i : Nat}
    (hread : a.geometry.HitsReadable a.store (a.store.chunkSource fs) sel i) :
    a'.geometry.HitsReadable a'.store (a'.store.chunkSource fs') sel i := by
  rw [h.geometry]
  exact fun hits hhits => h.readable i _ _ (hread hits hhits)

end NDArray

end ChunkedArray
