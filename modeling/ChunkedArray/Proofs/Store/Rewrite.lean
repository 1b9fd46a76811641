import ChunkedArray.Proofs.Store.Reachable
import ChunkedArray.Proofs.Store.Refinement

/-!
# Rewriting chunks

A chunk is rewritten as a whole: its bytes are read, and the chunk is replaced by what becomes of them. If
that fails, wherever it fails, the slots answer as they did, and the error names the chunk.
-/

namespace ChunkedArray

open ChunkedArray.Action

/-! ## Errors of chunks -/

/-- An error that names the chunk that it concerns, if it is of a kind that names a chunk. -/
theorem Error.eq_of_atChunk_eq {i : Nat} {e : Error} (h : e.atChunk i = e) :
    (∀ k fault, e = .codec k fault → k = i) ∧
      ∀ k stored computed, e = .checksum k stored computed → k = i := by
  constructor
  · rintro k fault rfl
    cases h
    rfl
  · rintro k stored computed rfl
    cases h
    rfl

theorem atChunk_of_mapError_eq_error {α : Type} {r : Result α} {i : Nat} {e : Error}
    (h : r.mapError (Error.atChunk i) = .error e) : e.atChunk i = e := by
  cases r with
  | ok a => cases h
  | error e' =>
    cases h
    exact Error.atChunk_atChunk i i e'

namespace Store

variable {source : ChunkSource} {s s' : Store} {i : Nat} {e : Error}

theorem atChunk_of_fetch_eq_error (h : s.fetch source i = .error e) : e.atChunk i = e := by
  rw [fetch] at h
  split at h
  · cases h
    rfl
  · rename_i slot hslot
    cases slot with
    | loaded c => cases h
    | reserved =>
      cases h
      rfl
    | pending nbytes cbytes =>
      rw [Slot.fetch] at h
      split at h
      · rename_i e' hsource
        cases h
        exact atChunk_of_mapError_eq_error hsource
      · split at h
        · cases h
        · cases h
          rfl

theorem outcome_getChunk (s : Store) (source : ChunkSource) (i : Nat) :
    outcome (getChunk source i) s =
      s.fetch source i >>= fun c => c.decompress.mapError (Error.atChunk i) :=
  outcome_readWith source i Chunk.decompress s

theorem outcome_getChunk_congr (h : s'.fetch source i = s.fetch source i) :
    outcome (getChunk source i) s' = outcome (getChunk source i) s := by
  rw [outcome_getChunk, outcome_getChunk, h]

theorem atChunk_of_getChunk_eq_error (h : outcome (getChunk source i) s = .error e) :
    e.atChunk i = e := by
  rw [outcome_getChunk] at h
  cases hfetch : s.fetch source i with
  | error e' =>
    rw [hfetch] at h
    cases h
    exact atChunk_of_fetch_eq_error hfetch
  | ok c =>
    rw [hfetch] at h
    exact atChunk_of_mapError_eq_error h

/-! ## One chunk -/

/-- Reads a chunk and overwrites it with what becomes of its bytes. -/
def rewrite (source : ChunkSource) (i : Nat) (f : Bytes → Bytes) : StoreM Unit := do
  let raw ← getChunk source i
  replace source i (f raw)

/-- The error of a chunk that cannot be rewritten: it cannot be read, or what becomes of its bytes cannot
be compressed. -/
def RewriteFault (s : Store) (source : ChunkSource) (i : Nat) (f : Bytes → Bytes) (e : Error) : Prop :=
  outcome (getChunk source i) s = .error e ∨
    ∃ old, outcome (getChunk source i) s = .ok old ∧
      (Chunk.compress (f old) s.codec).mapError (Error.atChunk i) = .error e

/-- A store in which the bytes of some chunks were rewritten, each of them once, and no others. -/
structure Rewritten (source : ChunkSource) (f : Nat → Bytes → Bytes) (size : Nat) (done : List Nat)
    (s s' : Store) : Prop where
  rest : { s' with table := s.table, revision := s.revision } = s
  revision : s'.revision = s.revision + done.length
  written : ∀ j ∈ done, ∃ old c, outcome (getChunk source j) s = .ok old ∧ old.size = size ∧
    Chunk.compress (f j old) s.codec = .ok c ∧ s'.fetch source j = .ok c
  kept : ∀ j ∉ done, s'.fetch source j = s.fetch source j

theorem RewriteFault.atChunk {f : Bytes → Bytes} (h : s.RewriteFault source i f e) : e.atChunk i = e := by
  obtain hread | ⟨old, -, hcompress⟩ := h
  · exact atChunk_of_getChunk_eq_error hread
  · exact atChunk_of_mapError_eq_error hcompress

/-- A store in which pending chunks were fetched has no chunk rewritten. -/
theorem Alike.rewritten (h : Alike source s s') (f : Nat → Bytes → Bytes) (size : Nat) :
    Rewritten source f size [] s s' := by
  refine ⟨?_, h.revision, by simp, fun j _ => h.fetch j⟩
  rw [← h.revision]
  exact h.rest

theorem Rewritten.codec {f : Nat → Bytes → Bytes} {size : Nat} {done : List Nat}
    (h : Rewritten source f size done s s') : s'.codec = s.codec :=
  (congrArg Store.codec h.rest :)

theorem Rewritten.chunkSource {f : Nat → Bytes → Bytes} {size : Nat} {done : List Nat}
    (h : Rewritten source f size done s s') (fs : Files) : s'.chunkSource fs = s.chunkSource fs :=
  chunkSource_congr (congrArg Store.source h.rest :) fs

/-- Rewriting some chunks and then others rewrites all of them. -/
theorem Rewritten.trans {f : Nat → Bytes → Bytes} {size : Nat} {done done' : List Nat} {s'' : Store}
    (h : Rewritten source f size done s s') (h' : Rewritten source f size done' s' s'')
    (hdisjoint : ∀ j ∈ done, j ∉ done') : Rewritten source f size (done ++ done') s s'' := by
  refine ⟨?_, ?_, fun j hj => ?_, fun j hj => ?_⟩
  · rw [← h.rest, ← h'.rest]
  · rw [h'.revision, h.revision, List.length_append, Nat.add_assoc]
  · by_cases hfirst : j ∈ done
    · obtain ⟨old, c, hold, hsize, hc, hfetch⟩ := h.written j hfirst
      exact ⟨old, c, hold, hsize, hc, (h'.kept j (hdisjoint j hfirst)).trans hfetch⟩
    · obtain ⟨old, c, hold, hsize, hc, hfetch⟩ :=
        h'.written j ((List.mem_append.1 hj).resolve_left hfirst)
      rw [h.codec] at hc
      exact ⟨old, c, (outcome_getChunk_congr (h.kept j hfirst)).symm.trans hold, hsize, hc, hfetch⟩
  · rw [List.mem_append, not_or] at hj
    exact (h'.kept j hj.2).trans (h.kept j hj.1)

/-- What ends a rewrite depends on the answer of the slot alone. -/
theorem RewriteFault.congr {f : Bytes → Bytes} (h : s'.RewriteFault source i f e)
    (hfetch : s'.fetch source i = s.fetch source i) (hcodec : s'.codec = s.codec) :
    s.RewriteFault source i f e := by
  rw [RewriteFault, outcome_getChunk_congr hfetch, hcodec] at h
  exact h

/-- The bytes of a chunk that is read are those of the chunk that is then in its slot. -/
theorem exists_of_run_getChunk {old : Bytes} (h : Action.run (getChunk source i) s = (.ok old, s')) :
    ∃ c, s.fetch source i = .ok c ∧ c.decompress = .ok old ∧ s'.table.slots[i]? = some (.loaded c) := by
  obtain ⟨c, s₁, hchunk, hread⟩ := exists_of_run_bind_eq_ok h
  rw [Action.run_liftM] at hread
  obtain ⟨hdecompress, rfl⟩ := Prod.mk.inj hread
  have hfetch := outcome_chunk source i s
  rw [outcome, hchunk] at hfetch
  exact ⟨c, hfetch.symm, mapError_eq_ok.1 hdecompress, getElem?_of_run_chunk hchunk⟩

/-- A chunk is rewritten completely, or all chunks stay. -/
theorem run_rewrite {f : Nat → Bytes → Bytes} {size : Nat} (hf : ∀ raw, (f i raw).size = raw.size)
    (hchunk : ∀ c, s.fetch source i = .ok c → c.WellFormed ∧ c.nbytes = size) :
    (∃ e s', Action.run (rewrite source i (f i)) s = (.error e, s') ∧
      Rewritten source f size [] s s' ∧ s.RewriteFault source i (f i) e) ∨
    ∃ s', Action.run (rewrite source i (f i)) s = (.ok (), s') ∧ Rewritten source f size [i] s s' := by
  have halike := (isQuery_readWith source i Chunk.decompress).kept s
  -- Two steps can fail, the reading and the compression, and both come before the slot is filled.
  cases hread : Action.run (getChunk source i) s with
  | mk answer s₁ =>
    rw [← getChunk, hread] at halike
    have hanswer : outcome (getChunk source i) s = answer := congrArg Prod.fst hread
    cases answer with
    | error e =>
      refine .inl ⟨e, s₁, ?_, halike.rewritten f size, .inl hanswer⟩
      rw [rewrite, Action.run_bind, hread]
    | ok old =>
      obtain ⟨c, hfetch, hdecompress, hslot⟩ := exists_of_run_getChunk hread
      obtain ⟨hformed, hnbytes⟩ := hchunk c hfetch
      have hsize : old.size = size := (hformed.size_of_decompress hdecompress).trans hnbytes
      have hsame : ¬ c.nbytes ≠ (f i old).size := by rw [hf, hsize, hnbytes, not_not]
      have hreplace := InMemory.run_replace_of_loaded hslot (f i old) source
      rw [if_neg fun h => hsame h.1] at hreplace
      simp only [if_neg hsame] at hreplace
      cases hcompress : (Chunk.compress (f i old) s₁.codec).mapError (Error.atChunk i) with
      | error e =>
        rw [hcompress] at hreplace
        rw [halike.codec] at hcompress
        refine .inl ⟨e, s₁, ?_, halike.rewritten f size, .inr ⟨old, hanswer, hcompress⟩⟩
        rw [rewrite, Action.run_bind_of_ok hread, hreplace]
      | ok c' =>
        rw [hcompress] at hreplace
        rw [halike.codec] at hcompress
        obtain ⟨hlt, -⟩ := Array.getElem?_eq_some_iff.1 hslot
        refine .inr ⟨_, (Action.run_bind_of_ok hread).trans hreplace, ?_, ?_, fun j hj => ?_,
          fun j hj => ?_⟩
        · exact (halike.rewritten f size).rest
        · exact congrArg (· + 1) halike.revision
        · obtain rfl := List.mem_singleton.1 hj
          refine ⟨old, c', hanswer, hsize, mapError_eq_ok.1 hcompress, ?_⟩
          simp [fetch, ChunkTable.fill, hlt, Slot.fetch]
        · have hne : i ≠ j := fun h => hj (List.mem_singleton.2 h.symm)
          rw [← halike.fetch j]
          simp [fetch, ChunkTable.fill, Array.getElem?_setIfInBounds_ne hne, nchunks]

end Store

end ChunkedArray
