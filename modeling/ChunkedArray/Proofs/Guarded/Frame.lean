import ChunkedArray.Proofs.Frame.Contiguous
import ChunkedArray.Proofs.Guarded.Chunk

/-!
# Frames under guards

A frame is opened without an access outside of the byte string it is given as. The header is read by
a cursor that knows its position; every length in it is compared with what is left before it is used.
The chunks are cut out at running offsets, which stay inside because the sum of the sizes in the index
was compared with the length of the frame.
-/

namespace ChunkedArray.Guarded

open FrameHeader

/-! ## Cursors -/

/-- Reads a byte string from a position on, and moves the position. -/
abbrev Cursor (α : Type) := ReaderT Bytes (StateT Nat Guarded) α

/-- The number of bytes behind the position. -/
def left : Cursor Nat := fun b pos => do
  let n ← sub b.size pos
  pure (n, pos)

/-- The next `n` bytes, of which there are enough. -/
def cut (n : Nat) : Cursor (List UInt8) := fun b pos => do
  let stop ← add pos n
  let bytes ← slice b pos stop
  pure (bytes.toList, stop)

/-- The next `n` bytes. -/
def take (n : Nat) : Cursor (List UInt8) := do
  if (← left) < n then throw (.format .endOfHeader) else cut n

/-- A number of `width` bytes. -/
def number (width : Nat) : Cursor Nat := do
  pure (LittleEndian.toNat (← take width))

/-- A field behind its length in `width` bytes. -/
def field (width : Nat) : Cursor (List UInt8) := do
  let n ← number width
  let rest ← left
  if rest < n then throw (.format (.declaredLength n rest)) else take n

/-- The codec parameters, checked. -/
def codecField : Cursor CodecConfig := do
  let text ← field 4
  liftM (n := Cursor) (ofResult (CodecConfig.load text))

/-- Reads `count` metadata entries behind those in `done`, the last one first. -/
def metadataFields (done : List (String × Bytes)) : (count : Nat) → Cursor (List (String × Bytes))
  | 0 => pure done.reverse
  | count + 1 => do
    let key ← field 2
    let key ← liftM (n := Cursor)
      (ofResult ((Utf8.decode key).mapError fun fault => Error.format (.keyEncoding fault)))
    let value ← field 4
    metadataFields ((key, value.toArray) :: done) count

/-- Reads `count` rows of the index behind those in `done`, the last one first. -/
def rows (done : List IndexEntry) : (count : Nat) → Cursor (List IndexEntry)
  | 0 => pure done.reverse
  | count + 1 => do
    let cbytes ← number 8
    let nbytes ← number 8
    rows (⟨cbytes, nbytes⟩ :: done) count

/-- A header of `length` bytes behind the prefix. -/
def body (version : Nat) (flags : UInt16) (length : Nat) : Cursor FrameHeader := do
  let codec ← codecField
  let chunkSize ← number 8
  let nbytes ← number 8
  let resize ← number 1
  let entries ← number 4
  let metadata ← metadataFields [] entries
  let nchunks ← number 8
  if length / 16 < nchunks then throw (.format (.chunkCount nchunks length))
  let index ← rows [] nchunks
  let declared ← liftM (n := Cursor)
    (ofResult (checkedTotal "uncompressed" (index.map IndexEntry.nbytes)))
  if declared ≠ nbytes then throw (.format (.indexTotal declared nbytes))
  pure {
    version, flags, codec, chunkSize, nbytes, metadata, index
    allowResize := resize ≠ 0
    headerSize := prefixSize + length }

/-- Prefix and header at the front of a byte string. -/
def peek (b : Bytes) : Guarded FrameHeader :=
  if b.size < prefixSize then throw (.format (.frameTooSmall prefixSize b.size))
  else do
    let front ← slice b 0 4
    let version ← numberAt b 4 2
    let flags ← numberAt b 6 2
    let length ← numberAt b 8 4
    if front ≠ magic then throw (.format .magic)
    else if formatVersion < version then throw (.version version formatVersion)
    else if version = 0 then throw (.format .versionZero)
    else
      let stop ← add prefixSize length
      if b.size < stop then throw (.format .headerLength)
      else
        let text ← slice b prefixSize stop
        let (header, _) ← body version (UInt16.ofNat flags) length text 0
        pure header

/-! ## Readers of fields -/

section Follows

variable {α β : Type} {x : Cursor α} {y : FieldReader α} {post : α → Prop}

theorem bind_apply (x : Cursor α) (f : α → Cursor β) (b : Bytes) (pos : Nat) :
    (x >>= f) b pos = x b pos >>= fun p => f p.1 b p.2 := rfl

/-- From any position, a cursor and a reader of fields both fail with one error, or both give one
value, which satisfies `post`, and stop at one position. -/
def Follows (x : Cursor α) (y : FieldReader α) (post : α → Prop) : Prop :=
  ∀ ⦃b : Bytes⦄ ⦃pos : Nat⦄, b.size < 2 ^ 64 → pos ≤ b.size →
    (∃ e, x b pos = throw e ∧ y (b.toList.drop pos) = .error e) ∨
      ∃ a stop, post a ∧ stop ≤ b.size ∧ x b pos = pure (a, stop) ∧
        y (b.toList.drop pos) = .ok (a, b.toList.drop stop)

theorem Follows.pure {a : α} (h : post a) : Follows (pure a) (pure a) post :=
  fun _ pos _ hpos => .inr ⟨a, pos, h, hpos, rfl, rfl⟩

/-- Cursors in a row follow readers in a row. -/
theorem Follows.bind {post' : β → Prop} {f : α → Cursor β} {g : α → FieldReader β}
    (h : Follows x y post) (hnext : ∀ a, post a → Follows (f a) (g a) post') :
    Follows (x >>= f) (y >>= g) post' := by
  intro b pos hb hpos
  have hy (s : List UInt8) : (y >>= g) s = y s >>= fun p => g p.1 p.2 := rfl
  rw [bind_apply, hy]
  obtain ⟨e, hfail, hfail'⟩ | ⟨a, stop, ha, hstop, hread, hread'⟩ := h hb hpos
  · rw [hfail, hfail']
    exact .inl ⟨e, rfl, rfl⟩
  · rw [hread, hread']
    exact hnext a ha hb hstop

theorem Follows.ite {c : Prop} [Decidable c] {x' : Cursor α} {y' : FieldReader α}
    (h : c → Follows x y post) (h' : ¬ c → Follows x' y' post) :
    Follows (if c then x else x') (if c then y else y') post := by
  split
  · exact h ‹_›
  · exact h' ‹_›

theorem follows_liftM {r : Result α} (h : ∀ a, r = .ok a → post a) :
    Follows (liftM (n := Cursor) (ofResult r)) (liftM (n := FieldReader) r) post := by
  intro b pos _ hpos
  cases r with
  | error e => exact .inl ⟨e, rfl, rfl⟩
  | ok a => exact .inr ⟨a, pos, h a rfl, hpos, rfl, rfl⟩

/-- A whole byte string is read alike. -/
theorem Follows.run_eq (h : Follows x y post) {b : Bytes} (hb : b.size < 2 ^ 64) :
    (x b 0 >>= fun p => Pure.pure p.1) = ofResult (y.run b.toList >>= fun p => Pure.pure p.1) := by
  have hy : y.run b.toList = y (b.toList.drop 0) := rfl
  rw [hy]
  obtain ⟨e, hfail, hfail'⟩ | ⟨a, stop, -, -, hread, hread'⟩ := h hb (Nat.zero_le _)
  · rw [hfail, hfail']
    rfl
  · rw [hread, hread']
    rfl

theorem Follows.post_of_run (h : Follows x y post) {b : Bytes} (hb : b.size < 2 ^ 64) {a : α}
    {rest : List UInt8} (hread : y.run b.toList = .ok (a, rest)) : post a := by
  obtain ⟨e, -, hfail⟩ | ⟨a', stop, ha, -, -, hread'⟩ := h hb (Nat.zero_le _)
  · cases hread.symm.trans hfail
  · cases hread.symm.trans hread'
    exact ha

end Follows

/-- What follows a failure is not looked at. -/
theorem follows_throw_bind {α β : Type} {e : Error} {f : α → Cursor β} {g : α → FieldReader β}
    {post : β → Prop} : Follows (throw e >>= f) (throw e >>= g) post :=
  fun _ _ _ _ => .inl ⟨e, rfl, rfl⟩

section Fields

variable {b : Bytes} {pos : Nat}

theorem left_of_le (h : pos ≤ b.size) : left b pos = pure (b.size - pos, pos) := by
  rw [left, sub_of_le h, pure_bind]

theorem take_eq_of_lt {n : Nat} (h : pos ≤ b.size) (hn : b.size - pos < n) :
    take n b pos = throw (.format .endOfHeader) := by
  rw [take, bind_apply, left_of_le h, pure_bind, if_pos hn]
  rfl

theorem take_eq_of_le {n : Nat} (hb : b.size < 2 ^ 64) (h : pos + n ≤ b.size) :
    take n b pos = pure ((b.toList.drop pos).take n, pos + n) := by
  rw [take, bind_apply, left_of_le (by omega), pure_bind, if_neg (by omega), cut, add_of_lt (by omega),
    pure_bind, slice_of_le (by omega) h, pure_bind, Array.toList_extract, List.extract_eq_take_drop,
    Nat.add_sub_cancel_left]

theorem length_drop_toList (b : Bytes) (pos : Nat) : (b.toList.drop pos).length = b.size - pos := by
  rw [List.length_drop, Array.length_toList]

theorem length_take_drop_iff {n : Nat} :
    ((b.toList.drop pos).take n).length = n ↔ n ≤ b.size - pos := by
  rw [List.length_take, length_drop_toList, min_eq_left_iff]

theorem follows_take (n : Nat) :
    Follows (take n) (FrameHeader.take n) fun taken => taken.length = n := by
  intro b pos hb hpos
  by_cases hn : b.size - pos < n
  · exact .inl ⟨_, take_eq_of_lt hpos hn, if_neg (mt length_take_drop_iff.1 (Nat.not_le.2 hn))⟩
  · have htaken := length_take_drop_iff.2 (Nat.not_lt.1 hn)
    refine .inr ⟨_, pos + n, htaken, by omega, take_eq_of_le hb (by omega), ?_⟩
    rw [FrameHeader.take, if_pos htaken, List.drop_drop]

theorem follows_number (width : Nat) :
    Follows (number width) (FrameHeader.number width) fun n => n < 256 ^ width := by
  refine (follows_take width).bind fun taken htaken => .pure ?_
  rw [← htaken]
  exact LittleEndian.toNat_lt taken

theorem follows_field (width : Nat) :
    Follows (field width) (FrameHeader.field width) fun text => text.length < 256 ^ width := by
  refine (follows_number width).bind fun n hn => ?_
  intro b pos hb hpos
  rw [bind_apply, left_of_le hpos, pure_bind]
  by_cases hshort : b.size - pos < n
  · refine .inl ⟨.format (.declaredLength n (b.size - pos)), by rw [if_pos hshort]; rfl, ?_⟩
    rw [← length_drop_toList]
    exact if_neg (mt length_take_drop_iff.1 (Nat.not_le.2 hshort))
  · have htaken := length_take_drop_iff.2 (Nat.not_lt.1 hshort)
    refine .inr ⟨(b.toList.drop pos).take n, pos + n, htaken.trans_lt hn, by omega,
      by rw [if_neg hshort, take_eq_of_le hb (by omega)], ?_⟩
    dsimp only
    rw [if_pos htaken, List.drop_drop]

theorem follows_codecField : Follows codecField FrameHeader.codecField fun _ => True :=
  (follows_field 4).bind fun _ _ => follows_liftM fun _ _ => trivial

/-- The stored forms of metadata are short enough for their lengths. -/
def ShortValues (entries : List (String × Bytes)) : Prop :=
  ∀ e ∈ entries, e.2.size < 2 ^ 32

theorem follows_metadataFields (count : Nat) {done : List (String × Bytes)}
    (hdone : ShortValues done) :
    Follows (metadataFields done count) (FrameHeader.metadataFields done count) ShortValues := by
  induction count generalizing done with
  | zero => exact .pure fun e he => hdone e (List.mem_reverse.1 he)
  | succ count ih =>
    refine (follows_field 2).bind fun key _ => ?_
    refine (follows_liftM fun _ _ => True.intro).bind fun key _ => ?_
    refine (follows_field 4).bind fun value hvalue => ih ?_
    exact List.forall_mem_cons.2 ⟨by simpa using hvalue, hdone⟩

theorem follows_rows (done : List IndexEntry) (count : Nat) :
    Follows (rows done count) (FrameHeader.rows done count) fun _ => True := by
  induction count generalizing done with
  | zero => exact .pure trivial
  | succ count ih =>
    exact (follows_number 8).bind fun cbytes _ => (follows_number 8).bind fun nbytes _ =>
      ih (⟨cbytes, nbytes⟩ :: done)

end Fields

/-- What a header that was read is known to satisfy. -/
structure Bounded (h : FrameHeader) : Prop where
  headerSize : prefixSize ≤ h.headerSize
  headerSize_lt : h.headerSize < 2 ^ 33
  total : (h.index.map IndexEntry.nbytes).sum < 2 ^ 64
  metadata : ShortValues h.metadata

theorem follows_body (version : Nat) (flags : UInt16) {length : Nat} (hlength : length < 2 ^ 32) :
    Follows (body version flags length) (FrameHeader.body version flags length) Bounded := by
  refine follows_codecField.bind fun codec _ => ?_
  refine (follows_number 8).bind fun chunkSize _ => ?_
  refine (follows_number 8).bind fun nbytes _ => ?_
  refine (follows_number 1).bind fun resize _ => ?_
  refine (follows_number 4).bind fun entries _ => ?_
  refine (follows_metadataFields entries (by simp [ShortValues])).bind fun metadata hmetadata => ?_
  refine (follows_number 8).bind fun nchunks _ => ?_
  refine .ite (fun _ => follows_throw_bind) fun _ => (follows_rows [] nchunks).bind fun index _ => ?_
  refine (follows_liftM fun declared hdeclared => checkedTotal_eq_ok.1 hdeclared).bind
    fun declared hdeclared => ?_
  have hsize : prefixSize + length < 2 ^ 33 := by
    rw [prefixSize]
    omega
  exact .ite (fun _ => follows_throw_bind) fun _ =>
    .pure ⟨Nat.le_add_right _ _, hsize, hdeclared.1, hmetadata⟩

/-- Every byte string is read as a header or refused, with all accesses inside. -/
theorem peek_eq (b : Bytes) : peek b = ofResult (FrameHeader.peek b) := by
  rw [peek, FrameHeader.peek]
  split
  · rfl
  rename_i hlong
  have hlength := LittleEndian.readAt_lt b 8 4
  rw [prefixSize] at hlong
  rw [slice_of_le (by omega) (by omega), pure_bind, numberAt_of_le (by decide) (by omega), pure_bind,
    numberAt_of_le (by decide) (by omega), pure_bind, numberAt_of_le (by decide) (by omega), pure_bind]
  dsimp only
  rw [Bytes.slice, Nat.zero_add]
  split
  · rfl
  split
  · rfl
  split
  · rfl
  rw [add_of_lt (by rw [prefixSize]; omega), pure_bind]
  split
  · rfl
  rename_i hinside
  have htext : (b.extract prefixSize (prefixSize + LittleEndian.readAt b 8 4)).size < 2 ^ 64 := by
    rw [Array.size_extract, prefixSize]
    omega
  rw [slice_of_le (Nat.le_add_right _ _) (by omega), pure_bind]
  exact (follows_body _ _ hlength).run_eq htext

/-- What a header that was read satisfies. -/
theorem bounded_of_peek {b : Bytes} {h : FrameHeader} (hpeek : FrameHeader.peek b = .ok h) :
    Bounded h := by
  rw [FrameHeader.peek] at hpeek
  split at hpeek
  · cases hpeek
  split at hpeek
  · cases hpeek
  dsimp only at hpeek
  split at hpeek
  · cases hpeek
  split at hpeek
  · cases hpeek
  split at hpeek
  · cases hpeek
  obtain ⟨⟨header, rest⟩, hread, hheader⟩ := bind_eq_ok.1 hpeek
  cases hheader
  have hlength := LittleEndian.readAt_lt b 8 4
  have htext : (b.slice prefixSize (LittleEndian.readAt b 8 4)).size < 2 ^ 64 := by
    rw [Bytes.size_slice, prefixSize]
    omega
  exact (follows_body _ _ hlength).post_of_run htext hread

/-! ## Chunks -/

/-- Checks a chunk against its row of the index. -/
def restore (i : Nat) (data : Bytes) (entry : IndexEntry) : Guarded Chunk := do
  let chunk ← ofBytes data
  if chunk.nbytes = entry.nbytes then pure chunk
  else throw (.format (.chunkSize i chunk.nbytes entry.nbytes))

theorem restore_eq (i : Nat) (data : Bytes) (entry : IndexEntry) :
    restore i data entry = ofResult (Chunk.restore i data entry) := by
  refine bind_eq_ofResult (ofBytes_eq data) fun chunk _ => ?_
  rw [apply_ite ofResult]
  rfl

/-- The chunks from byte `pos` on; chunk `i` is the first. -/
def restoreChunks (b : Bytes) (pos i : Nat) : List IndexEntry → Guarded (List Chunk)
  | [] => pure []
  | entry :: rest => do
    let stop ← add pos entry.cbytes
    let chunk ← restore i (← slice b pos stop) entry
    let chunks ← restoreChunks b stop (i + 1) rest
    pure (chunk :: chunks)

/-- A byte string that holds as many bytes as the index says is cut inside. -/
theorem restoreChunks_eq {b : Bytes} {pos i : Nat} {index : List IndexEntry}
    (hstop : pos + (index.map IndexEntry.cbytes).sum ≤ b.size)
    (hword : pos + (index.map IndexEntry.cbytes).sum < 2 ^ 64) :
    restoreChunks b pos i index = ofResult (Store.restoreChunks b pos i index) := by
  induction index generalizing pos i with
  | nil => rfl
  | cons entry rest ih =>
    rw [List.map_cons, List.sum_cons] at hstop hword
    rw [restoreChunks, add_of_lt (by omega), pure_bind, slice_of_le (by omega) (by omega), pure_bind]
    refine bind_eq_ofResult (restore_eq i _ entry) fun chunk _ => ?_
    exact bind_eq_ofResult (ih (by omega) (by omega)) fun chunks _ => rfl

/-- The chunks of a frame have the sizes that the index says. -/
theorem map_nbytes_of_restoreChunks {b : Bytes} {pos i : Nat} {index : List IndexEntry}
    {chunks : List Chunk} (h : Store.restoreChunks b pos i index = .ok chunks) :
    chunks.map Chunk.nbytes = index.map IndexEntry.nbytes := by
  induction index generalizing pos i chunks with
  | nil =>
    cases h
    rfl
  | cons entry rest ih =>
    obtain ⟨c, hc, h⟩ := bind_eq_ok.1 h
    obtain ⟨others, hothers, h⟩ := bind_eq_ok.1 h
    cases h
    rw [List.map_cons, List.map_cons, ih hothers, (Store.ofBytes_of_restore hc).2]

/-- The offsets of slots from `offset` on, and the offset behind them. -/
def offsets (nominal offset : Nat) : List Slot → Guarded (List Nat × Nat)
  | [] => pure ([], offset)
  | slot :: rest => do
    let next ← add offset (slot.nbytes?.getD nominal)
    let (starts, stop) ← offsets nominal next rest
    pure (offset :: starts, stop)

theorem offsets_eq {nominal offset : Nat} {slots : List Slot}
    (hword : offset + (slots.map (Slot.extent nominal)).sum < 2 ^ 64) :
    offsets nominal offset slots = pure (ChunkTable.offsets nominal offset slots) := by
  induction slots generalizing offset with
  | nil => rfl
  | cons slot rest ih =>
    rw [List.map_cons, List.sum_cons] at hword
    rw [Slot.extent] at hword
    rw [offsets, add_of_lt (by omega), pure_bind, ih (by omega), pure_bind, ChunkTable.offsets]

theorem map_extent_loaded (nominal : Nat) (chunks : List Chunk) :
    (chunks.map Slot.loaded).map (Slot.extent nominal) = chunks.map Chunk.nbytes :=
  List.map_map

/-- A store with the given chunks in memory. -/
def ofChunks (codec : CodecConfig) (chunkSize : Nat) (allowResize : Bool) (chunks : List Chunk)
    (metadata : Metadata) : Guarded Store := do
  let s ← ofResult (Store.new codec chunkSize allowResize)
  let slots := chunks.map Slot.loaded
  let (starts, nbytes) ← offsets chunkSize 0 slots
  pure { s with
    table := ⟨slots.toArray, starts.toArray, nbytes⟩
    metadata }

theorem ofChunks_eq (codec : CodecConfig) (chunkSize : Nat) (allowResize : Bool)
    {chunks : List Chunk} (metadata : Metadata) (hword : (chunks.map Chunk.nbytes).sum < 2 ^ 64) :
    ofChunks codec chunkSize allowResize chunks metadata =
      ofResult (Store.ofChunks codec chunkSize allowResize chunks metadata) := by
  refine bind_eq_ofResult rfl fun s _ => ?_
  dsimp only
  rw [offsets_eq (by rwa [map_extent_loaded, Nat.zero_add]), pure_bind]
  rfl

/-- Restores metadata entries. -/
def insertAll (m : Metadata) : List (String × Bytes) → Guarded Metadata
  | [] => pure m
  | (key, data) :: rest => do
    let chunk ← ofBytes data
    insertAll { m with entries := m.entries.insert key (some chunk) } rest

theorem insertAll_eq (m : Metadata) (stored : List (String × Bytes)) :
    insertAll m stored = ofResult (m.insertAll stored) := by
  induction stored generalizing m with
  | nil => rfl
  | cons entry rest ih =>
    obtain ⟨key, data⟩ := entry
    rw [insertAll, ofBytes_eq, Metadata.insertAll, Metadata.insertRaw]
    cases Chunk.ofBytes data with
    | error e => rfl
    | ok chunk => exact ih _

/-- The store that a contiguous frame describes. -/
def ofFrame (b : Bytes) : Guarded Store := do
  let header ← peek b
  if header.isSparse then throw (.format .sparseHeader)
  let payload ← ofResult header.payloadSize
  let stop := header.headerSize + payload
  if 2 ^ 64 ≤ stop then throw (.format .payloadOverflow)
  if b.size < stop then throw (.format (.frameTruncated stop b.size))
  let chunks ← restoreChunks b header.headerSize 0 header.index
  let metadata ← insertAll {} header.metadata
  ofChunks header.codec header.chunkSize header.allowResize chunks metadata

/-- Every byte string is opened as a frame or refused, with all accesses inside. -/
theorem ofFrame_eq (b : Bytes) : ofFrame b = ofResult (Store.ofFrame b) := by
  refine bind_eq_ofResult (peek_eq b) fun header hheader => ?_
  have hbounded := bounded_of_peek hheader
  dsimp only
  split
  · rfl
  refine bind_eq_ofResult rfl fun payload hpayload => ?_
  obtain ⟨-, rfl⟩ := checkedTotal_eq_ok.1 hpayload
  split
  · rfl
  split
  · rfl
  refine bind_eq_ofResult (restoreChunks_eq (by omega) (by omega)) fun chunks hchunks => ?_
  refine bind_eq_ofResult (insertAll_eq {} header.metadata) fun metadata _ => ?_
  exact ofChunks_eq _ _ _ _ (by rw [map_nbytes_of_restoreChunks hchunks]; exact hbounded.total)

end ChunkedArray.Guarded
