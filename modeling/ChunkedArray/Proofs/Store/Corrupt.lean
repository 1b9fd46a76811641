import ChunkedArray.Proofs.Array.Frame
import ChunkedArray.Proofs.Array.Opened
import ChunkedArray.Proofs.Array.Region
import ChunkedArray.Proofs.Chunk.WellFormed
import ChunkedArray.Proofs.Store.Starts
import ChunkedArray.Tensor.Basic

/-!
# Corrupt chunks

A chunk with a block that does not decode to what was coded is refused by every read that needs all
of it: by its own range, by byte ranges of the store around it, and by what is built on them, tensors
and regions of arrays. A read by range decodes blocks and compares their checksums only. The checksum
in the head of a chunk is compared when the chunk is read as one, so raw bytes that are stored, which
have no blocks, can change unnoticed.
-/

namespace ChunkedArray

open ChunkedArray.Action

namespace Chunk

/-- The checksum of a coded chunk does not match because one of its blocks does not decode. -/
structure BlockMismatch (c : Chunk) (stored computed : UInt32) : Prop where
  refused : c.decompress = .error (.checksum 0 stored computed)
  coded : ¬ c.header.isStored = true
  block : ∃ block < c.header.nblocks, ¬ c.Decodes block

/-- The mismatch is found before the checksum of the whole chunk is taken. -/
theorem BlockMismatch.content_eq {c : Chunk} {stored computed : UInt32}
    (h : c.BlockMismatch stored computed) : c.content = .error (.checksum 0 stored computed) := by
  have hrefused := h.refused
  rw [decompress] at hrefused
  cases hcontent : c.content with
  | error e =>
    rw [hcontent] at hrefused
    cases hrefused
    rfl
  | ok content =>
    obtain ⟨block, hblock, hfails⟩ := h.block
    rw [Chunk.content, if_neg h.coded] at hcontent
    exact absurd (decodes_of_decodeBlocks_eq_ok hcontent block (Nat.zero_le _) (by omega)) hfails

end Chunk

namespace Store

variable {source : ChunkSource} {s : Store} {i : Nat} {c : Chunk}

/-! ## Ranges of the store -/

/-- What was read up to a slot and its part of the range do not reach behind the next slot. -/
theorem size_append_pieceOf {start stop base : Nat} {out piece : Bytes}
    (hout : out.size ≤ base - start) (h : pieceOf start stop i base c = .ok piece) :
    (out ++ piece).size ≤ base + c.nbytes - start := by
  rw [Array.size_append]
  simp only [pieceOf] at h
  split at h
  · rename_i hpart
    obtain ⟨-, -, -, rfl⟩ := (Chunk.decompressRange_eq_ok_iff (by omega)).1 (mapError_eq_ok.1 h)
    rw [Array.size_extract]
    omega
  · cases h
    rw [Array.size_empty]
    omega

/-- A chunk that cannot be read whole stops every read of a range that it lies in. -/
theorem exists_outcome_readFrom_eq_error (h : s.Tallied) (hfetch : s.fetch source i = .ok c)
    (hpos : 0 < c.nbytes) {e : Error} (hwhole : c.decompressRange 0 c.nbytes = .error e)
    {start stop : Nat} (hstart : start ≤ s.start i) (hstop : s.start i + c.nbytes ≤ stop)
    (out : Bytes) (j slots : Nat) (hj : j ≤ i) (hslots : i < j + slots)
    (hout : out.size ≤ s.start j - start) :
    ∃ e', outcome (readFrom source start stop out j slots) s = .error e' := by
  -- On the slots in front of the chunk. Reading stops at one of them or gets to the chunk before the output
  -- is full.
  induction slots generalizing out j with
  | zero => omega
  | succ slots ih =>
    have hmono := s.start_mono hj
    have hi : i < s.nchunks := by
      obtain ⟨slot, hslot, -⟩ := exists_slot_of_fetch hfetch
      exact (Array.getElem?_eq_some_iff.1 hslot).1
    rw [outcome_readFrom_succ, if_neg (by omega), h.starts_getD (by omega)]
    rcases Nat.eq_or_lt_of_le hj with rfl | hbefore
    · -- The range covers the slot, so all of its chunk is needed.
      have hlow : max start (s.start j) - s.start j = 0 := by omega
      have hhigh : min stop (s.start j + c.nbytes) - s.start j = c.nbytes := by omega
      refine ⟨e.atChunk j, ?_⟩
      simp only [hfetch, bind, Except.bind, pieceOf, hlow, hhigh, if_pos hpos, Nat.sub_zero, hwhole]
      rfl
    · cases hanswer : s.fetch source j with
      | error e' => exact ⟨e', rfl⟩
      | ok d =>
        simp only [bind, Except.bind]
        cases hpiece : pieceOf start stop j (s.start j) d with
        | error e' => exact ⟨e', rfl⟩
        | ok piece =>
          refine ih (out ++ piece) (j + 1) (by omega) (by omega) ?_
          rw [start_succ_of_fetch hanswer]
          exact size_append_pieceOf hout hpiece

/-- A chunk that cannot be read whole stops every read of a byte range around it. -/
theorem exists_outcome_readBytes_eq_error (h : s.Tallied) (hword : s.nbytes < 2 ^ 64)
    (hfetch : s.fetch source i = .ok c) (hpos : 0 < c.nbytes) {e : Error}
    (hwhole : c.decompressRange 0 c.nbytes = .error e) {start length : Nat}
    (hstart : start ≤ s.start i) (hstop : s.start i + c.nbytes ≤ start + length) :
    ∃ e', outcome (readBytes source start length) s = .error e' := by
  rw [readBytes, outcome, run_bind_of_ok (run_get s)]
  have hend := start_succ_of_fetch hfetch
  have htotal := h.start_le (i + 1)
  by_cases hout : s.nbytes < Chunk.saturatingAdd start length
  · simp only [if_pos hout]
    exact ⟨_, rfl⟩
  simp only [if_neg hout]
  obtain ⟨hfirst, hle, -⟩ := h.firstChunkAt_spec (show start < s.nbytes by omega)
  -- A slot behind the chunk would start behind the range.
  have hbefore : firstChunkAt s.table.starts start ≤ i := by
    by_contra hbehind
    have hmono := s.start_mono (show i + 1 ≤ firstChunkAt s.table.starts start by omega)
    omega
  have hi : i < s.nchunks := by
    obtain ⟨slot, hslot, -⟩ := exists_slot_of_fetch hfetch
    exact (Array.getElem?_eq_some_iff.1 hslot).1
  refine exists_outcome_readFrom_eq_error h hfetch hpos hwhole hstart ?_ #[] _ _ hbefore (by omega)
    (Nat.zero_le _)
  rw [Chunk.saturatingAdd] at hout ⊢
  omega

end Store

/-! ## Tensors and regions -/

/-- A tensor cannot be unpacked from a store that cannot be read from end to end. -/
theorem Tensor.exists_ofStore_eq_error {s : Store} {fs : Files} {e : Error}
    (h : outcome (Store.readBytes (s.chunkSource fs) 0 s.nbytes) s = .error e) :
    ∃ e', ofStore s fs = .error e' := by
  cases hunpack : ofStore s fs with
  | error e' => exact ⟨e', rfl⟩
  | ok t =>
    obtain ⟨⟨t', s'⟩, hexec, -⟩ := bind_eq_ok.1 hunpack
    have hrun : run (unpackStore (s.chunkSource fs)) s = (.ok t', s') := Store.exec_eq_ok_iff.1 hexec
    rw [unpackStore, run_bind_of_ok (run_get s)] at hrun
    obtain ⟨dtype, s₁, hdtype, hrun⟩ := exists_of_run_bind_eq_ok hrun
    rw [run_liftM, Prod.mk.injEq] at hdtype
    obtain ⟨-, rfl⟩ := hdtype
    cases hdescriptor : dtype.asStr? with
    | none =>
      rw [hdescriptor] at hrun
      cases hrun
    | some descriptor =>
      rw [hdescriptor] at hrun
      obtain ⟨layout, s₂, hlayout, hrun⟩ := exists_of_run_bind_eq_ok hrun
      obtain ⟨value, s₃, hvalue, hrun⟩ := exists_of_run_bind_eq_ok hrun
      obtain ⟨shape, s₄, hshape, hrun⟩ := exists_of_run_bind_eq_ok hrun
      obtain ⟨data, s₅, hdata, -⟩ := exists_of_run_bind_eq_ok hrun
      rw [run_liftM, Prod.mk.injEq] at hlayout hvalue hshape
      obtain ⟨-, rfl⟩ := hlayout
      obtain ⟨-, rfl⟩ := hvalue
      obtain ⟨-, rfl⟩ := hshape
      rw [outcome, hdata] at h
      cases h

namespace Geometry

variable {g : Geometry} {source : ChunkSource} {s : Store} {i : Nat} {sel : Selection}

/-- A chunk that the array does not cut off, with all of its elements selected. -/
structure Covers (g : Geometry) (sel : Selection) (i : Nat) : Prop where
  uncut : (g.grid.chunkBox i).shape = g.chunks
  selected : ∀ p, (g.grid.chunkBox i).Holds p → ∃ q, sel.shape.Holds q ∧ sel.position q = p

/-- All of a chunk is decoded for a selection that covers it. -/
theorem Covers.hitSpan_eq (h : g.Covers sel i) (hg : g.Regular) (hsel : sel.Fits g.shape)
    (hi : i < g.nchunks) (hpos : 0 < g.chunks.size) {hits : List (List (Nat × Nat))}
    (hhits : sel.hits (g.grid.chunkBox i) = some hits) :
    hitSpan hits g.chunks.strides = (0, g.chunks.size) := by
  obtain ⟨hlen, hlayout⟩ := length_chunkBox hg hsel hi
  -- Both the first and the last element of the chunk are selected.
  have hplace (k : Nat) (hk : k < g.chunks.size) :
      (hitSpan hits g.chunks.strides).1 ≤ k ∧ k < (hitSpan hits g.chunks.strides).2 := by
    have hlocal : (g.grid.chunkBox i).shape.Holds (g.chunks.unflatten k) := by
      rw [h.uncut]
      exact Shape.holds_unflatten hk
    obtain ⟨q, hq, hposition⟩ := h.selected _ (Box.holds_toGlobal hlocal)
    have hbounds := Selection.hitSpan_bounds hlen hlayout hhits hq
      (by rw [hposition]; exact Box.holds_toGlobal hlocal)
    rwa [hposition, Box.toLocal_toGlobal hlocal, Shape.flatten_unflatten _ _ hk] at hbounds
  obtain ⟨hlow, -⟩ := hplace 0 hpos
  obtain ⟨-, hhigh⟩ := hplace (g.chunks.size - 1) (by omega)
  obtain ⟨-, r, -, hbox, hlast⟩ := Selection.exists_hitSpan hlen hlayout hhits
  have hinside := Shape.flatten_lt (Box.holds_layout (chunkBox_fits hg hi) hbox)
  exact Prod.ext (by omega) (by dsimp only; omega)

/-- A chunk that cannot be read whole stops every reading of a region that covers it. -/
theorem Covers.exists_readRegion_eq_error (h : g.Covers sel i) (hg : g.Regular) (hi : i < g.nchunks)
    {region : Region} (hsel : region.resolve g.shape = .ok sel) {c : Chunk}
    (hfetch : s.fetch source i = .ok c) (hnominal : c.nbytes = g.chunkSize) {e : Error}
    (hwhole : c.decompressRange 0 c.nbytes = .error e) :
    ∃ e', outcome (readRegion g source region) s = .error e' := by
  have hfits : sel.Fits g.shape := Region.fits_of_resolveWith hsel
  have hpos : 0 < g.chunks.size := by
    have hchunk := hg.chunkSize_pos
    rw [chunkSize] at hchunk
    exact Nat.pos_of_mul_pos_right hchunk
  cases hread : outcome (readRegion g source region) s with
  | error e' => exact ⟨e', rfl⟩
  | ok b =>
    rw [outcome_readRegion] at hread
    obtain ⟨sel', hsel', hread⟩ := bind_eq_ok.1 hread
    rw [hsel] at hsel'
    cases hsel'
    obtain ⟨data, hdata, -⟩ := bind_eq_ok.1 hread
    have hreadable := (readable_of_readParts hg hfits hdata).2.2 i hi
    -- The first element of the chunk is selected, so there are hits.
    have hlocal : (g.grid.chunkBox i).shape.Holds (g.chunks.unflatten 0) := by
      rw [h.uncut]
      exact Shape.holds_unflatten hpos
    obtain ⟨q, hq, hposition⟩ := h.selected _ (Box.holds_toGlobal hlocal)
    cases hhits : sel.hits (g.grid.chunkBox i) with
    | none =>
      refine absurd ?_ (Selection.not_holds_of_hits_eq_none hhits hq)
      rw [hposition]
      exact Box.holds_toGlobal hlocal
    | some hits =>
      obtain ⟨c', hfetch', content, hcontent⟩ := hreadable hits hhits
      rw [hfetch] at hfetch'
      cases hfetch'
      rw [h.hitSpan_eq hg hfits hi hpos hhits, Nat.zero_mul, Nat.sub_zero, ← chunkSize, ← hnominal,
        hwhole] at hcontent
      cases hcontent

end Geometry

/-! ## Mismatches are reported -/

namespace Store

/-- A chunk that was accepted in its serialized form, with a block that does not match its checksum,
is refused wherever all of it is read: by its own range with the mismatch, by every byte range of the
store around it, by the unpacking of a tensor, and by every region of an array that covers it. -/
theorem Reachable.refuses_corrupt {s : Store} (h : s.Reachable) (hword : s.nbytes < 2 ^ 64)
    (fs : Files) {i : Nat} {data : Bytes} {c : Chunk}
    (hfetch : s.fetch (s.chunkSource fs) i = .ok c) (hdata : Chunk.ofBytes data = .ok c)
    (hsize : data.size < 2 ^ 63) (hpos : 0 < c.nbytes) {stored computed : UInt32}
    (hmismatch : c.BlockMismatch stored computed) :
    (s.run (getRange (s.chunkSource fs) i 0 c.nbytes)).1 = .error (.checksum i stored computed) ∧
      (∀ start length, start ≤ s.start i → s.start i + c.nbytes ≤ start + length →
        ∃ e, (s.run (readBytes (s.chunkSource fs) start length)).1 = .error e) ∧
      (∃ e, Tensor.ofStore s fs = .error e) ∧
      ∀ a, NDArray.ofStore s = .ok a → c.nbytes = a.geometry.chunkSize →
        ∀ region sel, region.resolve a.shape = .ok sel → a.geometry.Covers sel i →
          ∃ e, (a.readRegion fs region).1 = .error e := by
  have hkept := h.wellKept
  have hwhole : c.decompressRange 0 c.nbytes = .error (.checksum 0 stored computed) := by
    rw [(Chunk.wellFormed_ofBytes (by omega) hdata).decompressRange_whole hpos, hmismatch.content_eq]
  have hbytes (start length : Nat) (hstart : start ≤ s.start i)
      (hstop : s.start i + c.nbytes ≤ start + length) :=
    exists_outcome_readBytes_eq_error hkept.tallied hword hfetch hpos hwhole hstart hstop
  refine ⟨?_, hbytes, ?_, fun a ha hnominal region sel hsel hcovers => ?_⟩
  · change outcome (getRange (s.chunkSource fs) i 0 c.nbytes) s = _
    rw [getRange, outcome_readWith, hfetch]
    change (c.decompressRange 0 c.nbytes).mapError (Error.atChunk i) = _
    rw [hwhole]
    rfl
  · have hend : s.start i + c.nbytes ≤ 0 + s.nbytes := by
      rw [← start_succ_of_fetch hfetch, Nat.zero_add]
      exact hkept.tallied.start_le (i + 1)
    obtain ⟨e, he⟩ := hbytes 0 s.nbytes (Nat.zero_le _) hend
    exact Tensor.exists_ofStore_eq_error he
  · obtain ⟨rfl, -, hnchunks, -⟩ := NDArray.ofStore_eq_ok ha
    obtain ⟨slot, hslot, -⟩ := exists_slot_of_fetch hfetch
    have hi : i < a.geometry.nchunks := by
      rw [← hnchunks]
      exact (Array.getElem?_eq_some_iff.1 hslot).1
    exact hcovers.exists_readRegion_eq_error (NDArray.regular_of_ofStore hkept.chunkSize ha) hi hsel
      hfetch hnominal hwhole

/-- A byte in a coded block, with a checksum that is not its own. -/
def mismatchedBlock : Chunk where
  data := #[0, 1, 0, 0, 1, 0, 0, 0, 1, 0, 0, 0, 1, 0, 0, 0, 0, 0, 0, 0, 0, 0, 0, 0,
    36, 0, 0, 0, 0, 0, 0, 0, 0, 0, 0, 0, 7]
  header := ⟨0, 1, 0, .noop, 1, 1, 1, 0⟩

/-- An array of one byte, whose block has another checksum: the byte is not read as part of its chunk,
of the store, or of the array. -/
theorem Reachable.refuses_corrupt_byte :
    ∃ s a, Reachable s ∧ s.fetch (s.chunkSource {}) 0 = .ok mismatchedBlock ∧
      Chunk.ofBytes mismatchedBlock.data = .ok mismatchedBlock ∧
      mismatchedBlock.BlockMismatch 0 (Crc32.checksum #[7]) ∧
      (s.run (getRange (s.chunkSource {}) 0 0 1)).1 = .error (.checksum 0 0 (Crc32.checksum #[7])) ∧
      (∃ e, (s.run (readBytes (s.chunkSource {}) 0 1)).1 = .error e) ∧
      NDArray.ofStore s = .ok a ∧ ∃ e, (a.readRegion {} []).1 = .error e := by
  let g : Geometry := ⟨[1], .scalar .uint8, [1], [1]⟩
  have hdata : Chunk.ofBytes mismatchedBlock.data = .ok mismatchedBlock := rfl
  have hmismatch : mismatchedBlock.BlockMismatch 0 (Crc32.checksum #[7]) := by
    refine ⟨rfl, by decide, 0, by decide, fun ⟨content, hcontent⟩ => ?_⟩
    have hblock : mismatchedBlock.decodeBlock 0 = .error (.checksum 0 0 (Crc32.checksum #[7])) := rfl
    rw [hblock] at hcontent
    cases hcontent
  obtain ⟨metadata, hopen, hnew⟩ := NDArray.exists_reachable_carrying g { codec := .noop }
    (by decide) (by decide) rfl (by decide) (.scalar _) rfl (by decide +kernel)
  have hs := hnew.perform {} (.appendChunk (.parsed (by decide) hdata))
  let s : Store := {
    codec := g.chunkCodec { codec := .noop }, chunkSize := 1, metadata
    table := ⟨#[.loaded mismatchedBlock], #[0], 1⟩, revision := 1 }
  replace hs : s.Reachable := hs
  have harray : NDArray.ofStore s = .ok ⟨g, s⟩ := NDArray.ofStore_of_readGeometry hopen rfl rfl
  have hwhole : Geometry.Covers g [⟨0, 1, 1⟩] 0 := by
    refine ⟨rfl, fun p hp => ⟨[0], by decide, ?_⟩⟩
    exact (List.mem_singleton.1 (Box.mem_coords.2 hp : p ∈ [[0]])).symm
  have hword : s.nbytes < 2 ^ 64 := Nat.one_lt_two_pow (by decide)
  obtain ⟨hrange, hbytes, -, hregion⟩ := hs.refuses_corrupt hword {} (i := 0) rfl hdata
    (by decide) (by decide) hmismatch
  exact ⟨s, ⟨g, s⟩, hs, rfl, hdata, hmismatch, hrange, hbytes 0 1 le_rfl le_rfl, harray,
    hregion _ harray rfl [] [⟨0, 1, 1⟩] rfl hwhole⟩

/-- A byte that is stored as it is, with a checksum that is not its own. -/
def mismatchedStored : Chunk where
  data := #[1, 1, 0, 0, 0, 0, 0, 0, 0, 0, 0, 0, 1, 0, 0, 0, 0, 0, 0, 0, 0, 0, 0, 0, 7]
  header := ⟨1, 1, 0, .noop, 0, 0, 1, 0⟩

/-- Raw bytes that are stored are read by range whatever their checksum is: the chunk is refused when it
is read as one, and its byte is given out by its range and as part of the store. -/
theorem getRange_stored_unchecked :
    ∃ s, Reachable s ∧ s.fetch (s.chunkSource {}) 0 = .ok mismatchedStored ∧
      Chunk.ofBytes mismatchedStored.data = .ok mismatchedStored ∧
      mismatchedStored.decompress = .error (.checksum 0 0 (Crc32.checksum #[7])) ∧
      (s.run (getRange (s.chunkSource {}) 0 0 mismatchedStored.nbytes)).1 = .ok #[7] ∧
      (s.run (readBytes (s.chunkSource {}) 0 mismatchedStored.nbytes)).1 = .ok #[7] := by
  have hdata : Chunk.ofBytes mismatchedStored.data = .ok mismatchedStored := rfl
  have hnew : Store.new { codec := .noop } 1 =
      .ok { codec := { codec := .noop }, chunkSize := 1 } := rfl
  have hs := (Reachable.new hnew).perform {} (.appendChunk (.parsed (by decide) hdata))
  exact ⟨_, hs, rfl, hdata, rfl, rfl, rfl⟩

end Store

end ChunkedArray
