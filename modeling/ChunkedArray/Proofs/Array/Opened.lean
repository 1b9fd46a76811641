import ChunkedArray.Proofs.Array.Frame

/-!
# Arrays that are found in stores

An array is found in a store that carries a geometry in its metadata. The geometry was resolved, so
its chunks have no empty axis, and the store has a chunk for every cell of the grid and the nominal
size of one; items without a size are refused by the nominal size, which no store has zero.
-/

namespace ChunkedArray.NDArray

variable {s : Store} {a : NDArray}

/-- The geometry in the metadata of a store was resolved. -/
theorem exists_resolve_of_readGeometry {metadata : Metadata} {g : Geometry}
    (h : readGeometry metadata = .ok g) :
    ∃ shape dtype chunks blocks, Geometry.resolve shape dtype chunks blocks = .ok g := by
  obtain ⟨value, -, h⟩ := bind_eq_ok.1 h
  cases hentries : value.asMap? with
  | none =>
    rw [hentries] at h
    cases h
  | some entries =>
    rw [hentries] at h
    obtain ⟨shapeValue, -, h⟩ := bind_eq_ok.1 h
    obtain ⟨shape, -, h⟩ := bind_eq_ok.1 h
    obtain ⟨chunksValue, -, h⟩ := bind_eq_ok.1 h
    obtain ⟨chunks, -, h⟩ := bind_eq_ok.1 h
    obtain ⟨blocksValue, -, h⟩ := bind_eq_ok.1 h
    obtain ⟨blocks, -, h⟩ := bind_eq_ok.1 h
    obtain ⟨dtypeValue, -, h⟩ := bind_eq_ok.1 h
    cases hdescriptor : dtypeValue.asStr? with
    | none =>
      rw [hdescriptor] at h
      cases h
    | some descriptor =>
      rw [hdescriptor] at h
      obtain ⟨dtype, -, h⟩ := bind_eq_ok.1 h
      exact ⟨shape, dtype, some chunks, some blocks, h⟩

/-- What opening checks: the geometry, the number of chunks and their nominal size. -/
theorem ofStore_eq_ok (h : ofStore s = .ok a) :
    a.store = s ∧ readGeometry s.metadata = .ok a.geometry ∧ s.nchunks = a.geometry.nchunks ∧
      s.chunkSize = a.geometry.chunkSize := by
  obtain ⟨g, hg, h⟩ := bind_eq_ok.1 h
  dsimp only at h
  by_cases hcount : g.nchunks ≠ s.nchunks ∨ s.chunkSize ≠ g.chunkSize
  · rw [if_pos hcount] at h
    cases h
  · rw [if_neg hcount] at h
    cases h
    rw [not_or, not_not, not_not] at hcount
    exact ⟨rfl, hg, hcount.1.symm, hcount.2⟩

/-- A store that carries a geometry, and has its chunks and their nominal size, is opened. -/
theorem ofStore_of_readGeometry {g : Geometry} (hg : readGeometry s.metadata = .ok g)
    (hcount : s.nchunks = g.nchunks) (hsize : s.chunkSize = g.chunkSize) :
    ofStore s = .ok ⟨g, s⟩ := by
  refine bind_eq_ok.2 ⟨g, hg, if_neg ?_⟩
  rw [not_or, not_not, not_not]
  exact ⟨hcount.symm, hsize⟩

/-- There is a new store that carries a geometry. -/
theorem exists_reachable_carrying (g : Geometry) (codec : CodecConfig) (hitem : 0 < g.itemsize)
    (hchunk : 0 < g.chunkSize) (hcodec : codec.validate = .ok ())
    (haxes : ∀ n ∈ g.shape ++ g.chunks ++ g.blocks, n < 2 ^ 63) (hdtype : g.dtype.Composed)
    (hself : Geometry.resolve g.shape g.dtype (some g.chunks) (some g.blocks) = .ok g)
    (hmeta : g.toMeta.encode.size < 2 ^ 32) :
    ∃ metadata, readGeometry metadata = .ok g ∧
      Store.Reachable { codec := g.chunkCodec codec, chunkSize := g.chunkSize, metadata } := by
  obtain ⟨a, ha⟩ := exists_allocate hitem hchunk hcodec hmeta
  obtain ⟨-, store, metadata, hstore, hset, -⟩ := allocate_eq_ok ha
  have hreachable := Store.Reachable.setKey (.new hstore) (by omega) hset
  obtain ⟨-, -, rfl⟩ := Store.new_eq_ok hstore
  have hget := Metadata.get_set hset g.writable_toMeta (by omega) Nat.one_pos
  exact ⟨metadata, readGeometry_eq hget haxes hdtype hself, hreachable⟩

/-- An array that was found is cut into chunks without empty axes, and its items have a size. -/
theorem regular_of_ofStore (hsize : 0 < s.chunkSize) (h : ofStore s = .ok a) :
    a.geometry.Regular := by
  obtain ⟨-, hg, -, hchunk⟩ := ofStore_eq_ok h
  obtain ⟨shape, dtype, chunks, blocks, hresolve⟩ := exists_resolve_of_readGeometry hg
  obtain ⟨-, -, hgrid⟩ := Geometry.of_resolve hresolve
  refine ⟨hgrid, Nat.pos_of_ne_zero fun hitem => ?_⟩
  rw [hchunk, Geometry.chunkSize, hitem, Nat.mul_zero] at hsize
  exact absurd hsize (Nat.lt_irrefl 0)

end ChunkedArray.NDArray
