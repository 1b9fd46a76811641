import ChunkedArray.Proofs.Files.Faults
import ChunkedArray.Proofs.Tensor.Pack
import ChunkedArray.Tensor.Saved

/-!
# Refused saves

A save that is refused, by no fault of the file system, leaves a file layout and everything that stood
under its path as they were, since the frame is made in memory first. For the layout with a directory
the packed store is in memory as well, but its header is not yet: what stood under the path is removed,
and then the header is refused if its texts do not fit their fields.
-/

namespace ChunkedArray

/-- The texts of a store fit the fields of a frame header: the codec text and all metadata. -/
structure Store.FitsHeader (s : Store) : Prop where
  codec : s.codec.toJson.render.length ≤ FrameHeader.maxFieldLength
  entries : ∀ e ∈ s.metadata.rawEntries,
    e.1.toUTF8.size < 2 ^ 16 ∧ e.2.size ≤ FrameHeader.maxFieldLength

namespace Store

variable {s s' : Store} {chunks : List Chunk}

/-- A chunk that was added is the last one. -/
theorem slots_of_run_appendChunk {c : Chunk} {i : Nat}
    (h : Action.run (appendChunk c) s = (.ok i, s')) :
    s'.table.slots = s.table.slots.push (.loaded c) := by
  rw [appendChunk, Action.run_bind_of_ok (Action.run_get s)] at h
  split at h
  · split at h
    · cases h
    · rw [← (Prod.mk.inj h).2]
      rfl
  · rw [← (Prod.mk.inj h).2]
    rfl

/-- Chunks that were added are in memory behind those that were there. -/
theorem slots_of_run_appendChunks (h : Action.run (appendChunks chunks) s = (.ok (), s')) :
    s'.table.slots = s.table.slots ++ (chunks.map Slot.loaded).toArray := by
  induction chunks generalizing s with
  | nil =>
    cases h
    simp
  | cons c rest ih =>
    obtain ⟨i, s₁, hfirst, hrest⟩ := Action.exists_of_run_bind_eq_ok h
    rw [ih hrest, slots_of_run_appendChunk hfirst]
    simp

/-- What is left to do for the parts of a sparse frame of a store in memory is to write the header. -/
theorem exec_sparseParts_of_loaded (hslots : s.table.slots = (chunks.map Slot.loaded).toArray)
    (source : ChunkSource) :
    s.exec (sparseParts source) = (s.headerFor FrameHeader.sparseFlag chunks).toBytes.map fun head =>
      ((head, chunks), { s with metadata := s.metadata.compact.2 }) := by
  have hrun : s.run (sparseParts source) =
      ((s.headerFor FrameHeader.sparseFlag chunks).toBytes.map fun head => (head, chunks),
        { s with metadata := s.metadata.compact.2 }) := by
    change Action.run (sparseParts source) s = _
    rw [sparseParts, Action.run_bind_of_ok (run_frameParts_of_loaded hslots _ source)]
    dsimp only
    rw [Action.run_bind, Action.run_liftM]
    cases (s.headerFor FrameHeader.sparseFlag chunks).toBytes <;> rfl
  rw [exec, hrun]
  cases (s.headerFor FrameHeader.sparseFlag chunks).toBytes <;> rfl

/-- They are made exactly if its texts fit the header. -/
theorem exists_exec_sparseParts_iff (hslots : s.table.slots = (chunks.map Slot.loaded).toArray)
    (source : ChunkSource) :
    (∃ parts, s.exec (sparseParts source) = .ok parts) ↔ s.FitsHeader := by
  have hwritten : (∃ parts, s.exec (sparseParts source) = .ok parts) ↔
      ∃ head, (s.headerFor FrameHeader.sparseFlag chunks).toBytes = .ok head := by
    rw [exec_sparseParts_of_loaded hslots source]
    cases (s.headerFor FrameHeader.sparseFlag chunks).toBytes <;> simp [Except.map]
  rw [hwritten, FrameHeader.exists_toBytes_iff]
  exact ⟨fun ⟨hcodec, hentries⟩ => ⟨hcodec, hentries⟩, fun h => ⟨h.codec, h.entries⟩⟩

end Store

namespace Tensor

variable {t : Tensor} {path : Path} {params : PackParams} {fs fs' : Files} {e : Error} {s : Store}

/-- The chunks of a packed store are in memory. -/
theorem slots_of_packStore {codec : CodecConfig} {target : Nat}
    (h : t.packStore codec target = .ok s) :
    ∃ chunks : List Chunk, s.table.slots = (chunks.map Slot.loaded).toArray := by
  rw [packStore] at h
  split at h
  · cases h
  · obtain ⟨start, hnew, h⟩ := bind_eq_ok.1 h
    obtain ⟨-, -, rfl⟩ := Store.new_eq_ok hnew
    obtain ⟨m₁, -, h⟩ := bind_eq_ok.1 h
    obtain ⟨m₂, -, h⟩ := bind_eq_ok.1 h
    obtain ⟨chunks, -, h⟩ := bind_eq_ok.1 h
    obtain ⟨⟨⟨⟩, s'⟩, hrun, h⟩ := bind_eq_ok.1 h
    cases h
    have hslots := Store.slots_of_run_appendChunks (Store.exec_eq_ok_iff.1 hrun)
    exact ⟨chunks, hslots.trans (by simp)⟩

/-! ## Refusals -/

section Refused

variable (h : Action.run (save t path params) fs = (.error e, fs')) (hrefused : ∀ fault, e ≠ .io fault)
include h

/-- If a tensor cannot be packed, nothing changes. -/
theorem save_of_packStore_error {e' : Error}
    (hpack : t.packStore params.codec params.chunkSize = .error e') : fs' = fs := by
  rw [save, hpack, Action.run_bind, Action.run_liftM] at h
  exact (Prod.mk.inj h).2.symm

include hrefused

/-- If a file is refused, nothing changes. -/
theorem save_of_contiguous (hcontiguous : params.contiguous = true) : fs' = fs := by
  cases hpack : t.packStore params.codec params.chunkSize with
  | error e' => exact save_of_packStore_error h hpack
  | ok s =>
    rw [save, hpack, Action.run_bind_of_ok (Action.run_liftM _ fs), if_pos hcontiguous,
      Action.run_bind, Action.run_liftM] at h
    cases hframe : frameOf s with
    | error e' =>
      rw [hframe] at h
      exact (Prod.mk.inj h).2.symm
    | ok frame =>
      rw [hframe] at h
      obtain ⟨fault, rfl⟩ := Files.faultsOnly_replace path frame fs e (congrArg Prod.fst h)
      exact absurd rfl (hrefused fault)

/-- If a directory is refused, its header was, and what stood under the path is removed. -/
theorem save_of_sparse (hsparse : params.contiguous = false)
    (hpack : t.packStore params.codec params.chunkSize = .ok s) :
    ¬ s.FitsHeader ∧ Action.run (Files.remove path) fs = (.ok (), fs') := by
  rw [save, hpack, Action.run_bind_of_ok (Action.run_liftM _ fs), if_neg (by simp [hsparse]),
    Action.run_bind] at h
  have hremove := Files.faultsOnly_remove path fs
  revert h hremove
  cases Action.run (Files.remove path) fs with
  | mk answer fs₁ =>
    intro h hremove
    cases answer with
    | error e' =>
      cases h
      obtain ⟨fault, rfl⟩ := hremove _ rfl
      exact absurd rfl (hrefused fault)
    | ok u =>
      obtain ⟨chunks, hslots⟩ := slots_of_packStore hpack
      have hparts := Store.exists_exec_sparseParts_iff hslots (s.chunkSource {})
      dsimp only at h
      rw [Action.run_bind, Action.run_liftM] at h
      cases hexec : s.exec (Store.sparseParts (s.chunkSource {})) with
      | error e' =>
        rw [hexec] at h hparts
        refine ⟨fun hfits => ?_, ?_⟩
        · obtain ⟨parts, hparts⟩ := hparts.2 hfits
          cases hparts
        · rw [(Prod.mk.inj h).2]
      | ok parts =>
        obtain ⟨⟨head, chunks'⟩, s'⟩ := parts
        rw [hexec] at h
        obtain ⟨fault, rfl⟩ := Files.faultsOnly_writeAll path head chunks' fs₁ e (congrArg Prod.fst h)
        exact absurd rfl (hrefused fault)

/-- A refused save changes nothing exactly if the layout is a file, or the texts of the packed store fit
a header, so that it is the packing that was refused, or there was nothing under the path. -/
theorem save_refused_keeps_iff :
    fs' = fs ↔ params.contiguous = true ∨
      (∀ s, t.packStore params.codec params.chunkSize = .ok s → s.FitsHeader) ∨
      fs.locate path = .error .notFound := by
  cases hcontiguous : params.contiguous with
  | true => simp [save_of_contiguous h hrefused hcontiguous]
  | false =>
    cases hpack : t.packStore params.codec params.chunkSize with
    | error e' => simp [save_of_packStore_error h hpack]
    | ok s =>
      obtain ⟨hlong, hremove⟩ := save_of_sparse h hrefused hcontiguous hpack
      simp only [Bool.false_eq_true, Except.ok.injEq, forall_eq', hlong, false_or]
      constructor
      · rintro rfl
        exact Files.locate_of_run_remove hremove
      · intro habsent
        rw [Files.remove, Action.run_bind_of_ok (Action.run_get fs)] at hremove
        simp only [habsent] at hremove
        exact (Prod.mk.inj hremove).2.symm

end Refused

/-- A level that no codec has is refused, and nothing changes. -/
theorem save_refused_keeps_level :
    let t : Tensor := ⟨[1], .scalar .uint8, #[7]⟩
    let params : PackParams := { codec := { level := 12 }, contiguous := false }
    let fs : Files := { nodes := [([], .directory), (["t"], .file #[7])] }
    ∃ e fs', Action.run (save t ⟨["t"]⟩ params) fs = (.error e, fs') ∧ (∀ fault, e ≠ .io fault) ∧
      fs' = fs := by
  intro t params fs
  have hpack : t.packStore params.codec params.chunkSize = .error (.parameter (.level 12)) := rfl
  have hrun : Action.run (save t ⟨["t"]⟩ params) fs = (.error (.parameter (.level 12)), fs) := rfl
  have hrefused : ∀ fault, Error.parameter (.level 12) ≠ .io fault := fun fault h => by cases h
  refine ⟨_, fs, hrun, hrefused, (save_refused_keeps_iff hrun hrefused).2 (.inr (.inl ?_))⟩
  intro s hs
  rw [hpack] at hs
  cases hs

/-! ## Long codec texts -/

theorem sum_length_le_commaSeparated (parts : List (List UInt8)) :
    (parts.map List.length).sum ≤ (Json.commaSeparated parts).length := by
  induction parts with
  | nil => exact Nat.le_refl 0
  | cons part rest ih =>
    cases rest with
    | nil => simp [Json.commaSeparated]
    | cons next rest =>
      rw [Json.commaSeparated, List.map_cons, List.sum_cons, List.length_append, List.length_cons]
      · omega
      · simp

/-- The codec text lists the filters. -/
theorem length_filters_le (c : CodecConfig) : c.filters.length ≤ c.toJson.render.length := by
  have hnames : c.filters.length ≤
      (Json.array (c.filters.map fun f => Json.ofText f.name)).render.length := by
    have hsum := sum_length_le_commaSeparated
      ((c.filters.map fun f => Json.ofText f.name).map Json.render)
    have hcount := List.length_le_sum_of_one_le
      (((c.filters.map fun f => Json.ofText f.name).map Json.render).map List.length) (by
        simp only [List.forall_mem_map]
        intro f _
        rw [Json.ofText, Json.render]
        exact Nat.succ_pos _)
    simp only [List.length_map] at hcount
    rw [Json.render, DType.renderItems_eq_map, List.length_append, List.length_cons]
    omega
  have hmembers := sum_length_le_commaSeparated (Json.renderMembers [
    CodecConfig.jsonMember "codec" (Json.ofText c.codec.name),
    CodecConfig.jsonMember "level" (Json.ofInt c.level),
    CodecConfig.jsonMember "filters" (.array (c.filters.map fun f => Json.ofText f.name)),
    CodecConfig.jsonMember "block_size" (Json.ofInt c.blockSize),
    CodecConfig.jsonMember "typesize" (Json.ofInt c.typesize)])
  rw [CodecConfig.toJson, Json.render, List.length_append, List.length_cons]
  simp only [Json.renderMembers, CodecConfig.jsonMember, List.map_cons, List.sum_cons,
    List.length_cons, List.length_append] at hmembers ⊢
  omega

/-- Where the codec text is too long for a header, nothing takes the place of what was removed. -/
theorem run_save_of_long_codec (hsparse : params.contiguous = false)
    (hpack : t.packStore params.codec params.chunkSize = .ok s)
    (hlong : FrameHeader.maxFieldLength < s.codec.toJson.render.length)
    (hremove : Action.run (Files.remove path) fs = (.ok (), fs')) :
    Action.run (save t path params) fs =
      (.error (.format (.fieldLength s.codec.toJson.render.length 4)), fs') := by
  obtain ⟨chunks, hslots⟩ := slots_of_packStore hpack
  have hhead : (s.headerFor FrameHeader.sparseFlag chunks).toBytes =
      .error (.format (.fieldLength s.codec.toJson.render.length 4)) := by
    rw [FrameHeader.toBytes, FrameHeader.longField, if_neg (by simpa [Store.headerFor] using hlong)]
    rfl
  rw [save, hpack, Action.run_bind_of_ok (Action.run_liftM _ fs), if_neg (by simp [hsparse]),
    Action.run_bind_of_ok hremove, Store.exec_sparseParts_of_loaded hslots, hhead]
  rfl

/-- A file is lost to a save whose list of filters makes the codec text too long. -/
theorem save_loses_file :
    let t : Tensor := ⟨[0], .scalar .uint8, #[]⟩
    let fs : Files := { nodes := [([], .directory), (["t"], .file #[7])] }
    ∃ filters length fs', Action.run (save t ⟨["t"]⟩
        { codec := { codec := .noop, filters }, contiguous := false }) fs =
      (.error (.format (.fieldLength length 4)), fs') ∧
        fs.read ⟨["t"]⟩ = .ok #[7] ∧ fs'.read ⟨["t"]⟩ = .error (.io .notFound) := by
  intro t fs
  obtain ⟨filters, hfilters⟩ : ∃ filters : List Filter,
      FrameHeader.maxFieldLength < filters.length :=
    ⟨List.replicate (FrameHeader.maxFieldLength + 1) .shuffle, by
      rw [List.length_replicate]
      exact Nat.lt_succ_self _⟩
  have hsized : Sized t := ⟨by decide, by decide, by decide +kernel, by decide +kernel⟩
  have hpieces : t.pieces (4 * 1024 * 1024) = [] := by decide +kernel
  obtain ⟨s, hpack⟩ := @exists_packStore t { codec := .noop, filters } (4 * 1024 * 1024) hsized
    (by decide) rfl (by simp [hpieces]) (by decide +kernel) (by decide +kernel)
  obtain ⟨-, -, metadata, chunks, -, -, hs⟩ := packStore_eq_ok hsized hpack
  have hlong : FrameHeader.maxFieldLength < s.codec.toJson.render.length := by
    have hle := length_filters_le s.codec
    rw [hs] at hle ⊢
    exact lt_of_lt_of_le hfilters hle
  have hremove : Action.run (Files.remove ⟨["t"]⟩) fs = (.ok (), {}) := rfl
  exact ⟨filters, _, _, run_save_of_long_codec rfl hpack hlong hremove, rfl, rfl⟩

end Tensor

end ChunkedArray
