import ChunkedArray.Proofs.Array.HitSpan
import ChunkedArray.Proofs.Shape.Grid
import ChunkedArray.Proofs.Store.Fetch

/-!
# Reading is gathering

A region is read chunk by chunk. After any number of chunks the output shows the selected parts that
lie in those chunks and is unchanged elsewhere, so behind the last one it shows every selected part
at its place. A region can be read if the spans of its hits can be read, and then so can every part
of it.
-/

namespace ChunkedArray

open ChunkedArray.Action

namespace Geometry

variable {g : Geometry} {source : ChunkSource} {s : Store} {sel : Selection} {part : Projection}

/-- A geometry as arrays have it: chunks without empty axes, and items of a positive size. -/
structure Regular (g : Geometry) : Prop where
  grid : g.grid.Regular
  itemsize_pos : 0 < g.itemsize

/-- The number of an element inside its chunk. -/
def placeOf (g : Geometry) (c : List Nat) : Nat :=
  g.chunks.flatten ((g.grid.chunkBox (g.grid.chunkOf c)).toLocal c)

/-- Byte `k` of the part of the element at coordinates `c`. -/
def partByte (g : Geometry) (s : Store) (source : ChunkSource) (part : Projection) (c : List Nat)
    (k : Nat) : UInt8 :=
  (s.raw source (g.grid.chunkOf c)).getD (g.placeOf c * g.itemsize + part.offset + k) 0

/-- Whether what a chunk holds of a selection can be read. -/
def HitsReadable (g : Geometry) (s : Store) (source : ChunkSource) (sel : Selection) (i : Nat) :
    Prop :=
  ∀ hits, sel.hits (g.grid.chunkBox i) = some hits →
    s.Readable source i ((hitSpan hits g.chunks.strides).1 * g.itemsize)
      (((hitSpan hits g.chunks.strides).2 - (hitSpan hits g.chunks.strides).1) * g.itemsize)

/-! ## One chunk -/

/-- Items side by side are copied like single items. -/
theorem copyParts_eq_copyItems (itemsize : Nat) (part : Projection) (src out : Bytes)
    (output inner n : Nat) :
    copyParts itemsize part src out output inner n =
      Bytes.copyItems part.width src out
        ((List.range n).map fun i => (output + i, (inner + i) * itemsize + part.offset)) := by
  induction n generalizing out output inner with
  | zero => rfl
  | succ n ih =>
    rw [copyParts, ih, List.range_succ_eq_map, List.map_cons, Bytes.copyItems_cons, List.map_map]
    congr 1
    refine List.map_congr_left fun i _ => ?_
    rw [Function.comp_apply, Nat.add_right_comm output, Nat.add_right_comm inner]
    rfl

/-- What is copied from a chunk to the output. -/
def copyOut (g : Geometry) (sel : Selection) (part : Projection)
    (hits : List (List (Nat × Nat))) (data out : Bytes) : Bytes :=
  (Run.ofHits hits sel.shape.strides g.chunks.strides).foldl (fun out r =>
    copyParts g.itemsize part data out r.output
      (r.inner - (hitSpan hits g.chunks.strides).1) r.length) out

theorem copyOut_eq_copyItems {i : Nat} {hits : List (List (Nat × Nat))} {data out : Bytes}
    (hlen : sel.length = (g.grid.chunkBox i).length)
    (hlayout : g.chunks.length = (g.grid.chunkBox i).length)
    (hhits : sel.hits (g.grid.chunkBox i) = some hits) :
    g.copyOut sel part hits data out =
      Bytes.copyItems part.width data out
        (((Run.ofHits hits sel.shape.strides g.chunks.strides).flatMap Run.pairs).map fun p =>
          (p.1, (p.2 - (hitSpan hits g.chunks.strides).1) * g.itemsize + part.offset)) := by
  apply Bytes.foldl_runs
  intro out r hr
  rw [copyParts_eq_copyItems, Run.pairs, List.map_map]
  congr 1
  refine List.map_congr_left fun j _ => ?_
  have hlow := (Selection.run_bounds hlen hlayout hhits hr).1
  rw [Function.comp_apply, Nat.sub_add_comm hlow]

theorem size_copyOut {i : Nat} {hits : List (List (Nat × Nat))} {data out : Bytes}
    (hlen : sel.length = (g.grid.chunkBox i).length)
    (hlayout : g.chunks.length = (g.grid.chunkBox i).length)
    (hhits : sel.hits (g.grid.chunkBox i) = some hits) :
    (g.copyOut sel part hits data out).size = out.size := by
  rw [copyOut_eq_copyItems hlen hlayout hhits, Bytes.size_copyItems]

/-- The bytes of the span of a chunk's hits. -/
def spanOf (g : Geometry) (hits : List (List (Nat × Nat))) (raw : Bytes) : Bytes :=
  raw.slice ((hitSpan hits g.chunks.strides).1 * g.itemsize)
    (((hitSpan hits g.chunks.strides).2 - (hitSpan hits g.chunks.strides).1) * g.itemsize)

/-- A chunk fills the output elements that lie in it, from its own bytes. -/
theorem getD_copyOut {i : Nat} {hits : List (List (Nat × Nat))} {raw out : Bytes} {q : List Nat}
    {k : Nat} (hlen : sel.length = (g.grid.chunkBox i).length)
    (hlayout : g.chunks.length = (g.grid.chunkBox i).length)
    (hpart : part.offset + part.width ≤ g.itemsize)
    (hhits : sel.hits (g.grid.chunkBox i) = some hits) (hk : k < part.width)
    (hq : sel.shape.Holds q) (hout : sel.shape.flatten q * part.width + k < out.size) :
    (g.copyOut sel part hits (g.spanOf hits raw) out).getD
        (sel.shape.flatten q * part.width + k) 0 =
      if (g.grid.chunkBox i).Holds (sel.position q) then
        raw.getD (g.chunks.flatten ((g.grid.chunkBox i).toLocal (sel.position q)) * g.itemsize +
          part.offset + k) 0
      else out.getD (sel.shape.flatten q * part.width + k) 0 := by
  rw [copyOut_eq_copyItems hlen hlayout hhits]
  obtain ⟨hall, -⟩ := Selection.eq_of_hits_eq_some hhits
  have hcopy := Selection.getD_copyOut_hits hlen hlayout hk (g.spanOf hits raw) out
    (fun l => (l - (hitSpan hits g.chunks.strides).1) * g.itemsize + part.offset) hq hout
  rw [← hall] at hcopy
  rw [hcopy]
  by_cases hbox : (g.grid.chunkBox i).Holds (sel.position q)
  · rw [if_pos hbox, if_pos hbox]
    -- The span of the hits was cut out of the chunk, so places are counted from its start.
    obtain ⟨hlow, hhigh⟩ := Selection.hitSpan_bounds hlen hlayout hhits hq hbox
    generalize g.chunks.flatten ((g.grid.chunkBox i).toLocal (sel.position q)) = place at *
    generalize hspan : hitSpan hits g.chunks.strides = span at *
    obtain ⟨place, rfl⟩ := Nat.exists_eq_add_of_le hlow
    have hlast : (place + 1) * g.itemsize ≤ (span.2 - span.1) * g.itemsize :=
      Nat.mul_le_mul_right _ (by omega)
    rw [Nat.succ_mul] at hlast
    rw [spanOf, hspan, Bytes.getD_slice, Nat.add_sub_cancel_left, if_pos (by omega), Nat.add_mul]
    congr 1
    omega
  · rw [if_neg hbox, if_neg hbox]

/-! ## Row of chunks -/

theorem gatherChunks_cons (out : Bytes) (i : Nat) (rest : List Nat) :
    gatherChunks g source sel part out (i :: rest) =
      match sel.hits (g.grid.chunkBox i) with
      | none => gatherChunks g source sel part out rest
      | some hits => Store.getRange source i ((hitSpan hits g.chunks.strides).1 * g.itemsize)
          (((hitSpan hits g.chunks.strides).2 - (hitSpan hits g.chunks.strides).1) * g.itemsize) >>=
          fun data =>
            if part.Cuts g.itemsize then
              gatherChunks g source sel part (g.copyOut sel part hits data out) rest
            else throw (.breakdown .emptyParts) := by
  cases hhits : sel.hits (g.grid.chunkBox i) with
  | none => simp only [gatherChunks, hhits]
  | some hits =>
    simp only [gatherChunks, hhits]
    rfl

theorem isQuery_gatherChunks (out : Bytes) (chunks : List Nat) :
    IsQuery (Store.Alike source) (gatherChunks g source sel part out chunks) := by
  induction chunks generalizing out with
  | nil => exact isQuery_pure Store.Alike.refl out
  | cons i rest ih =>
    rw [gatherChunks_cons]
    cases sel.hits (g.grid.chunkBox i) with
    | none => exact ih out
    | some hits =>
      refine (Store.isQuery_getRange source i _ _).bind (fun _ _ _ h h' => h.trans h') fun _ => ?_
      split
      · exact ih _
      · exact isQuery_throw Store.Alike.refl _

/-- A chunk that is hit is fetched first, and then its items are cut. -/
theorem outcome_gatherChunks_hit {i : Nat} {hits : List (List (Nat × Nat))} (out : Bytes)
    (rest : List Nat) (hhits : sel.hits (g.grid.chunkBox i) = some hits) :
    outcome (gatherChunks g source sel part out (i :: rest)) s =
      outcome (Store.getRange source i ((hitSpan hits g.chunks.strides).1 * g.itemsize)
          (((hitSpan hits g.chunks.strides).2 - (hitSpan hits g.chunks.strides).1) * g.itemsize)) s >>=
        fun data =>
          if part.Cuts g.itemsize then
            outcome (gatherChunks g source sel part (g.copyOut sel part hits data out) rest) s
          else .error (.breakdown .emptyParts) := by
  rw [gatherChunks_cons, hhits]
  dsimp only
  by_cases hcuts : part.Cuts g.itemsize
  · simp only [if_pos hcuts]
    rw [outcome_bind (Store.isQuery_getRange source i _ _) fun _ => isQuery_gatherChunks _ rest]
  · simp only [if_neg hcuts]
    rw [outcome_bind (Store.isQuery_getRange source i _ _) fun _ => isQuery_throw Store.Alike.refl _]
    rfl

/-- What a chunk holds of a selection is cut and copied if it can be read. -/
theorem outcome_gatherChunks_cons {i : Nat} {hits : List (List (Nat × Nat))} (out : Bytes)
    (rest : List Nat) (hg : g.Regular) (hlen : sel.length = (g.grid.chunkBox i).length)
    (hlayout : g.chunks.length = (g.grid.chunkBox i).length)
    (hhits : sel.hits (g.grid.chunkBox i) = some hits) (hread : g.HitsReadable s source sel i) :
    outcome (gatherChunks g source sel part out (i :: rest)) s =
      if part.Cuts g.itemsize then
        outcome (gatherChunks g source sel part
          (g.copyOut sel part hits (g.spanOf hits (s.raw source i)) out) rest) s
      else .error (.breakdown .emptyParts) := by
  have hpos : 0 < ((hitSpan hits g.chunks.strides).2 - (hitSpan hits g.chunks.strides).1) *
      g.itemsize := by
    have hspan := Selection.hitSpan_lt hlen hlayout hhits
    exact Nat.mul_pos (by omega) hg.itemsize_pos
  rw [outcome_gatherChunks_hit out rest hhits,
    Store.outcome_getRange_of_readable (hread hits hhits) hpos]
  rfl

section Row

variable {chunks : List Nat}

theorem length_chunkBox (hg : g.Regular) (hsel : sel.Fits g.shape) {i : Nat} (hi : i < g.nchunks) :
    sel.length = (g.grid.chunkBox i).length ∧ g.chunks.length = (g.grid.chunkBox i).length := by
  have hbox : (g.grid.chunkBox i).length = g.shape.length :=
    (ChunkGrid.chunkBox_inside hg.grid hi).length_eq
  have hchunks : g.shape.length = g.chunks.length := hg.grid.length_eq
  have hshape : sel.length = g.shape.length := hsel.length_eq
  exact ⟨by omega, by omega⟩

/-- If everything selected can be read, the output shows it where its chunk was visited. -/
theorem gatherChunks_of_readable (out : Bytes) (hg : g.Regular) (hsel : sel.Fits g.shape)
    (hcuts : part.Cuts g.itemsize) (hlt : ∀ i ∈ chunks, i < g.nchunks) (hpart : part.offset + part.width ≤ g.itemsize)
    (hread : ∀ i ∈ chunks, g.HitsReadable s source sel i) :
    ∃ res, outcome (gatherChunks g source sel part out chunks) s = .ok res ∧
      res.size = out.size ∧ ∀ q k, sel.shape.Holds q → k < part.width →
        sel.shape.flatten q * part.width + k < out.size →
        res.getD (sel.shape.flatten q * part.width + k) 0 =
          if g.grid.chunkOf (sel.position q) ∈ chunks then
            g.partByte s source part (sel.position q) k
          else out.getD (sel.shape.flatten q * part.width + k) 0 := by
  -- On the chunks that are left to visit. A chunk writes only the places of its own elements, so what an
  -- earlier chunk has written is still there at the end.
  induction chunks generalizing out with
  | nil => exact ⟨out, rfl, rfl, fun q k _ _ _ => rfl⟩
  | cons i rest ih =>
    have hi : i < g.nchunks := hlt i List.mem_cons_self
    have hrest := fun out => ih out (fun j hj => hlt j (List.mem_cons_of_mem _ hj))
      fun j hj => hread j (List.mem_cons_of_mem _ hj)
    have hmem (q : List Nat) (hq : sel.shape.Holds q) :
        (g.grid.chunkBox i).Holds (sel.position q) ↔ g.grid.chunkOf (sel.position q) = i :=
      ChunkGrid.holds_chunkBox_iff hg.grid hi (Selection.holds_position hsel hq)
    obtain ⟨hlen, hlayout⟩ := length_chunkBox hg hsel hi
    cases hhits : sel.hits (g.grid.chunkBox i) with
    | none =>
      obtain ⟨res, hres, hsize, hbytes⟩ := hrest out
      rw [gatherChunks_cons, hhits]
      refine ⟨res, hres, hsize, fun q k hq hk hout => ?_⟩
      have hmiss : g.grid.chunkOf (sel.position q) ≠ i := fun h =>
        Selection.not_holds_of_hits_eq_none hhits hq ((hmem q hq).2 h)
      rw [hbytes q k hq hk hout]
      simp only [List.mem_cons, hmiss, false_or]
    | some hits =>
      rw [outcome_gatherChunks_cons out rest hg hlen hlayout hhits (hread i List.mem_cons_self),
        if_pos hcuts]
      obtain ⟨res, hres, hsize, hbytes⟩ :=
        hrest (g.copyOut sel part hits (g.spanOf hits (s.raw source i)) out)
      rw [size_copyOut hlen hlayout hhits] at hsize hbytes
      refine ⟨res, hres, hsize, fun q k hq hk hout => ?_⟩
      rw [hbytes q k hq hk hout, getD_copyOut hlen hlayout hpart hhits hk hq hout]
      by_cases hlater : g.grid.chunkOf (sel.position q) ∈ rest
      · rw [if_pos hlater, if_pos (List.mem_cons_of_mem _ hlater)]
      · rw [if_neg hlater]
        by_cases hin : g.grid.chunkOf (sel.position q) = i
        · rw [if_pos ((hmem q hq).2 hin), if_pos (by rw [hin]; exact List.mem_cons_self), partByte,
            placeOf, hin]
        · rw [if_neg fun h => hin ((hmem q hq).1 h), if_neg fun h => ?_]
          exact (List.mem_cons.1 h).elim hin hlater

/-- If the chunks are gathered, everything that they hold of the selection can be read, and the items of
every chunk that is hit can be cut. -/
theorem readable_of_gatherChunks {out res : Bytes}
    (h : outcome (gatherChunks g source sel part out chunks) s = .ok res) :
    ∀ i ∈ chunks, g.HitsReadable s source sel i ∧
      (sel.hits (g.grid.chunkBox i) ≠ none → part.Cuts g.itemsize) := by
  -- On the chunks: a chunk that is hit was read and cut before the others were gathered.
  induction chunks generalizing out with
  | nil => exact fun i hi => absurd hi List.not_mem_nil
  | cons i rest ih =>
    cases hhits : sel.hits (g.grid.chunkBox i) with
    | none =>
      rw [gatherChunks_cons, hhits] at h
      refine List.forall_mem_cons.2 ⟨⟨fun hits hsome => ?_, fun hne => absurd hhits hne⟩, ih h⟩
      rw [hhits] at hsome
      cases hsome
    | some hits =>
      rw [outcome_gatherChunks_hit out rest hhits] at h
      obtain ⟨data, hdata, h⟩ := bind_eq_ok.1 h
      by_cases hcuts : part.Cuts g.itemsize
      · rw [if_pos hcuts] at h
        refine List.forall_mem_cons.2 ⟨⟨fun hits' hsome => ?_, fun _ => hcuts⟩, ih h⟩
        rw [hhits] at hsome
        cases hsome
        exact Store.readable_of_outcome_getRange hdata
      · rw [if_neg hcuts] at h
        cases h

end Row

end Geometry

end ChunkedArray
