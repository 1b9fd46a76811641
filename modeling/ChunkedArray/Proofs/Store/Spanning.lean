import ChunkedArray.Proofs.Guarded.Store
import ChunkedArray.Proofs.Store.Corrupt
import ChunkedArray.Proofs.Store.Rewrite

/-!
# Reads across slots

A byte range of a store is read slot after slot. The slots that are used are those that share a byte
with the range, and the empty ones inside it: where a slot ends is taken from its chunk, so a slot
without bytes is fetched like any other. Whatever state the slots are in, the read is the reads of the
parts in order, and ends with the first that fails.
-/

namespace ChunkedArray.Store

open ChunkedArray.Action
open ChunkedArray.Guarded (Checked)

variable {source : ChunkSource} {s : Store} {start stop : Nat}

/-- A store that can be made is one whose chunks were checked, while sizes are words. -/
theorem Reachable.checked (hs : s.Reachable) (fs : Files) (hword : s.nbytes < 2 ^ 64)
    (hsize : ∀ i c, s.fetch (s.chunkSource fs) i = .ok c → c.data.size < 2 ^ 63) :
    Checked (s.chunkSource fs) s :=
  ⟨hs.wellKept.tallied, hword, fun i c hc =>
    (hs.wellKept.kept_of_fetch (faithful_chunkSource s fs) hc).wellFormed (hsize i c hc)⟩

/-! ## Slots under a range -/

/-- A slot that shares a byte with a range. -/
def Overlaps (s : Store) (start stop i : Nat) : Prop :=
  max start (s.start i) < min stop (s.start (i + 1))

/-- A slot that a read of a range uses: one that shares a byte with it, or an empty one inside. -/
def Crosses (s : Store) (start stop i : Nat) : Prop :=
  s.Overlaps start stop i ∨ start < s.start i ∧ s.start i < stop ∧ s.start (i + 1) = s.start i

instance (s : Store) (start stop i : Nat) : Decidable (s.Overlaps start stop i) :=
  inferInstanceAs (Decidable (_ < _))

instance (s : Store) (start stop i : Nat) : Decidable (s.Crosses start stop i) :=
  inferInstanceAs (Decidable (_ ∨ _))

/-- The slots that a read of a range uses, in order. -/
def crossed (s : Store) (start stop : Nat) : List Nat :=
  (List.range s.nchunks).filter (s.Crosses start stop)

/-- The part of a range that lies in a slot, read as a range of the slot. -/
def part (s : Store) (source : ChunkSource) (start stop i : Nat) : Result Bytes :=
  let low := max start (s.start i)
  outcome (getRange source i (low - s.start i) (min stop (s.start (i + 1)) - low)) s

/-- A read uses the slots that end behind the start of the range and start in front of its end. -/
theorem crosses_iff (hrange : start < stop) {i : Nat} :
    s.Crosses start stop i ↔ start < s.start (i + 1) ∧ s.start i < stop := by
  have hle := s.start_mono (Nat.le_add_right i 1)
  rw [Crosses, Overlaps]
  omega

theorem not_crosses_of_le (hi : stop ≤ s.start i) : ¬ s.Crosses start stop i := by
  rw [Crosses, Overlaps]
  omega

/-- A read of a part that fails says why: the slot does not answer, or its chunk refuses the range. The
error names the slot. -/
theorem atChunk_of_part_eq_error {i : Nat} {e : Error} (h : s.part source start stop i = .error e) :
    e.atChunk i = e := by
  rw [part, getRange, outcome_readWith] at h
  cases hfetch : s.fetch source i with
  | error e' =>
    rw [hfetch] at h
    cases h
    exact atChunk_of_fetch_eq_error hfetch
  | ok c =>
    rw [hfetch] at h
    exact atChunk_of_mapError_eq_error h

/-! ## One slot after the other -/

/-- In a slot that a read uses it takes the part of the range. -/
theorem fetch_bind_pieceOf (h : s.Tallied) {i : Nat} (hi : i < s.nchunks)
    (hcrosses : s.Crosses start stop i) :
    (s.fetch source i >>= pieceOf start stop i (s.table.starts.getD i 0)) =
      s.part source start stop i := by
  rw [h.starts_getD hi, part, getRange, outcome_readWith]
  cases hfetch : s.fetch source i with
  | error e => rfl
  | ok c =>
    have hnext := start_succ_of_fetch hfetch
    change pieceOf start stop i (s.start i) c = _
    rw [hnext]
    simp only [pieceOf, bind, Except.bind]
    split
    · congr 2
      omega
    · -- An empty slot inside the range has nothing to read.
      rw [Crosses, Overlaps, hnext] at hcrosses
      have hlow : max start (s.start i) - s.start i = 0 := by omega
      have hlength : min stop (s.start i + c.nbytes) - max start (s.start i) = 0 := by omega
      rw [hlow, hlength]
      rfl

/-- A part has the bytes that its slot has of the range. -/
theorem size_of_part (h : Checked source s) {i : Nat} {data : Bytes}
    (hdata : s.part source start stop i = .ok data) :
    data.size = min stop (s.start (i + 1)) - max start (s.start i) := by
  rw [part, getRange, outcome_readWith, bind_eq_ok] at hdata
  obtain ⟨c, hfetch, hread⟩ := hdata
  have hrange := mapError_eq_ok.1 hread
  rcases Nat.eq_zero_or_pos (min stop (s.start (i + 1)) - max start (s.start i)) with hzero | hpos
  · rw [hzero, Chunk.decompressRange] at hrange
    split at hrange
    · cases hrange
    · cases hrange
      exact hzero.symm
  · exact (h.chunks i c hfetch).size_of_decompressRange hpos hrange

/-- What is read from a slot on is the parts of the slots that are used, however many slots more the
walk would be allowed. What was read before ends where the slot starts. -/
theorem outcome_readFrom (h : Checked source s) (hrange : start < stop) (hstop : stop ≤ s.nbytes)
    (slots : Nat) {i : Nat} (hslots : s.nchunks ≤ i + slots) (hi : start < s.start (i + 1)) (out : Bytes)
    (hout : out.size = min stop (s.start i) - start) :
    outcome (readFrom source start stop out i slots) s =
      (((List.range' i slots).filter (s.Crosses start stop)).mapM (s.part source start stop)).map
        fun parts => out ++ Bytes.concat parts := by
  -- On the slots left: the output so far ends where the next slot starts.
  induction slots generalizing i out with
  | zero => rfl
  | succ slots ih =>
    rw [outcome_readFrom_succ]
    split
    · -- The range ends in front of the slot, so neither it nor a later one is used.
      rename_i hfull
      have hnone : (List.range' i (slots + 1)).filter (s.Crosses start stop) = [] := by
        refine List.filter_eq_nil_iff.2 fun j hj => ?_
        have hstart := s.start_mono (List.left_le_of_mem_range' hj)
        simpa using not_crosses_of_le (by omega : stop ≤ s.start j)
      rw [hnone]
      rfl
    · rename_i hmissing
      have hbefore : s.start i < stop := by omega
      have hlt : i < s.nchunks := by
        by_contra hge
        have hend := h.tallied.start_of_le (Nat.le_of_not_lt hge)
        omega
      have hcrosses : s.Crosses start stop i := (crosses_iff hrange).2 ⟨hi, hbefore⟩
      have hle := s.start_mono (Nat.le_add_right i 1)
      have hnext := s.start_mono (Nat.le_add_right (i + 1) 1)
      rw [List.range'_succ, List.filter_cons_of_pos (by simpa using hcrosses), List.mapM_cons,
        ← bind_assoc, fetch_bind_pieceOf h.tallied hlt hcrosses]
      cases hpart : s.part source start stop i with
      | error e => rfl
      | ok piece =>
        have hsize := size_of_part h hpart
        change outcome (readFrom source start stop (out ++ piece) (i + 1) slots) s = _
        rw [ih (by omega) (by omega) (out ++ piece) (by rw [Array.size_append]; omega)]
        cases (List.filter (s.Crosses start stop) (List.range' (i + 1) slots)).mapM
            (s.part source start stop) with
        | error e => rfl
        | ok parts =>
          change Except.ok (out ++ piece ++ Bytes.concat parts) =
            Except.ok (out ++ Bytes.concat (piece :: parts))
          rw [Bytes.concat_cons, Array.append_assoc]

/-- Joined, the parts up to a slot have the bytes that the range has in front of it. -/
theorem size_concat_parts (h : Checked source s) (hrange : start < stop) (i slots : Nat)
    {parts : List Bytes}
    (hparts : ((List.range' i slots).filter (s.Crosses start stop)).mapM (s.part source start stop) =
      .ok parts) :
    min stop (s.start i) - start + (Bytes.concat parts).size = min stop (s.start (i + slots)) - start := by
  -- A slot that is used adds its overlap with the range, and one that is not overlaps it nowhere.
  induction slots generalizing i parts with
  | zero =>
    cases hparts
    rfl
  | succ slots ih =>
    have hle := s.start_mono (Nat.le_add_right i 1)
    rw [Nat.add_comm slots 1, ← Nat.add_assoc]
    rw [List.range'_succ, List.filter_cons] at hparts
    split at hparts
    · rename_i hcrosses
      obtain ⟨hfront, hback⟩ := (crosses_iff hrange).1 (of_decide_eq_true hcrosses)
      rw [List.mapM_cons, bind_eq_ok] at hparts
      obtain ⟨piece, hpiece, hparts⟩ := hparts
      obtain ⟨rest, hrest, hparts⟩ := bind_eq_ok.1 hparts
      cases hparts
      have hsize := size_of_part h hpiece
      have hstep := ih (i + 1) hrest
      rw [Bytes.concat_cons, Array.size_append]
      omega
    · rename_i hcrosses
      have houtside := mt (crosses_iff (s := s) (i := i) hrange).2 (by simpa using hcrosses)
      have hstep := ih (i + 1) hparts
      omega

/-- The slots that are used from the first slot under the range on are all that are used. -/
theorem filter_crosses_range' (h : s.Tallied) (hrange : start < stop) (hstop : stop ≤ s.nbytes)
    {first slots : Nat} (hfirst : s.start first ≤ start) (hslots : s.nchunks ≤ first + slots) :
    (List.range' first slots).filter (s.Crosses start stop) = s.crossed start stop := by
  have hbefore : (List.range' 0 first).filter (s.Crosses start stop) = [] := by
    refine List.filter_eq_nil_iff.2 fun j hj => ?_
    have hj' : j < first := by simpa using hj
    have hend : s.start (j + 1) ≤ s.start first := s.start_mono hj'
    simp only [decide_eq_true_eq, crosses_iff hrange]
    omega
  have hbehind : (List.range' s.nchunks (first + slots - s.nchunks)).filter (s.Crosses start stop) =
      [] := by
    refine List.filter_eq_nil_iff.2 fun j hj => ?_
    have hend := h.start_of_le (List.left_le_of_mem_range' hj)
    simpa using not_crosses_of_le (by omega : stop ≤ s.start j)
  have hall : List.range' 0 first ++ List.range' first slots =
      List.range s.nchunks ++ List.range' s.nchunks (first + slots - s.nchunks) := by
    have happend (m n : Nat) : List.range' 0 m ++ List.range' m n = List.range' 0 (m + n) := by
      simpa using List.range'_append_1 (s := 0) (m := m) (n := n)
    rw [happend, List.range_eq_range', happend, Nat.add_sub_cancel' hslots]
  have hfilter := congrArg (List.filter (s.Crosses start stop)) hall
  rwa [List.filter_append, List.filter_append, hbefore, hbehind, List.nil_append, List.append_nil]
    at hfilter

/-! ## The whole range -/

/-- A slot in use is a slot of the store. -/
theorem mem_crossed (h : s.Tallied) (hstop : stop ≤ s.nbytes) {i : Nat} :
    i ∈ s.crossed start stop ↔ s.Crosses start stop i := by
  simp only [crossed, List.mem_filter, List.mem_range, decide_eq_true_eq, and_iff_right_iff_imp]
  intro hcrosses
  by_contra hge
  have hend := h.start_of_le (Nat.le_of_not_lt hge)
  exact not_crosses_of_le (by omega) hcrosses

/-- The slots in use are looked at in order, up to the first whose part cannot be read. -/
theorem mapM_part_eq_error_iff (h : s.Tallied) (hstop : stop ≤ s.nbytes) {e : Error} :
    (s.crossed start stop).mapM (s.part source start stop) = .error e ↔
      ∃ i, s.Crosses start stop i ∧ s.part source start stop i = .error e ∧
        ∀ j < i, s.Crosses start stop j → ∃ bytes, s.part source start stop j = .ok bytes := by
  have hsorted : (s.crossed start stop).Pairwise (· < ·) := List.pairwise_lt_range.filter _
  rw [mapM_eq_error_iff]
  constructor
  · rintro ⟨front, i, rest, hsplit, hfront, hi⟩
    rw [hsplit, List.pairwise_append, List.pairwise_cons] at hsorted
    refine ⟨i, (mem_crossed h hstop).1 (by simp [hsplit]), hi, fun j hj hcrosses => hfront j ?_⟩
    have hmem := (mem_crossed h hstop).2 hcrosses
    rw [hsplit, List.mem_append, List.mem_cons] at hmem
    rcases hmem with hmem | rfl | hmem
    · exact hmem
    · omega
    · have hbehind := hsorted.2.1.1 j hmem
      omega
  · rintro ⟨i, hcrosses, hi, hbefore⟩
    obtain ⟨front, rest, hsplit⟩ := List.append_of_mem ((mem_crossed h hstop).2 hcrosses)
    refine ⟨front, i, rest, hsplit, fun j hj => ?_, hi⟩
    have hmem : j ∈ s.crossed start stop := by simp [hsplit, hj]
    rw [hsplit, List.pairwise_append] at hsorted
    exact hbefore j (hsorted.2.2 j hj i List.mem_cons_self) ((mem_crossed h hstop).1 hmem)

/-- A range without bytes uses no slot. -/
theorem crossed_self (s : Store) (start : Nat) : s.crossed start start = [] := by
  refine List.filter_eq_nil_iff.2 fun i _ => ?_
  have hnone : ¬ s.Crosses start start i := by
    rw [Crosses, Overlaps]
    omega
  simpa using hnone

/-- The walk that a read of a range is, started in the first slot under it. -/
theorem outcome_readFrom_first (h : Checked source s) (hle : start ≤ stop) (hstop : stop ≤ s.nbytes)
    {slots : Nat} (hslots : s.nchunks ≤ firstChunkAt s.table.starts start + slots) :
    outcome (readFrom source start stop #[] (firstChunkAt s.table.starts start) slots) s =
      ((s.crossed start stop).mapM (s.part source start stop)).map Bytes.concat := by
  rcases hle.eq_or_lt with rfl | hrange
  · rw [crossed_self]
    cases slots with
    | zero => rfl
    | succ slots =>
      rw [outcome_readFrom_succ, if_pos (by simp)]
      rfl
  · obtain ⟨-, hfirst, hnext⟩ := h.tallied.firstChunkAt_spec (by omega : start < s.nbytes)
    rw [outcome_readFrom h hrange hstop slots hslots hnext #[] (by rw [Array.size_empty]; omega),
      filter_crosses_range' h.tallied hrange hstop hfirst hslots]
    simp only [Array.empty_append]

theorem run_readBytes_of_le (h : s.nbytes < 2 ^ 64) {length : Nat} (hinside : start + length ≤ s.nbytes) :
    Action.run (readBytes source start length) s =
      Action.run (readFrom source start (start + length) #[] (firstChunkAt s.table.starts start)
        (s.nchunks - firstChunkAt s.table.starts start)) s := by
  have hstop : Chunk.saturatingAdd start length = start + length := by
    rw [Chunk.saturatingAdd]
    omega
  rw [readBytes, Action.run_bind_of_ok (Action.run_get s)]
  simp only [hstop]
  rw [if_neg (by omega)]

/-- A range that ends behind the store is refused before any slot is looked at. -/
theorem run_readBytes_of_lt (h : s.nbytes < 2 ^ 64 - 1) {length : Nat}
    (houtside : s.nbytes < start + length) :
    Action.run (readBytes source start length) s =
      (.error (.index (.storeRange start (Chunk.saturatingAdd start length) s.nbytes)), s) := by
  have hstop : s.nbytes < Chunk.saturatingAdd start length := by
    rw [Chunk.saturatingAdd]
    omega
  rw [readBytes, Action.run_bind_of_ok (Action.run_get s)]
  simp only [if_pos hstop]
  rfl

/-- A read of a range inside a store is the reads of the parts of the slots that it uses, in order. It
fails exactly if one of these fails, with the error of the first such slot, which names that slot; a read
that succeeds has all bytes of the range; and no walk with more slots would give anything else. A range
that ends behind the store is refused before any slot is looked at. -/
theorem readBytes_spanning (h : Checked source s) (start length : Nat) :
    (start + length ≤ s.nbytes →
      outcome (readBytes source start length) s =
          ((s.crossed start (start + length)).mapM (s.part source start (start + length))).map
            Bytes.concat ∧
        (∀ e, outcome (readBytes source start length) s = .error e ↔
          ∃ i, s.Crosses start (start + length) i ∧
            s.part source start (start + length) i = .error e ∧
            ∀ j < i, s.Crosses start (start + length) j →
              ∃ bytes, s.part source start (start + length) j = .ok bytes) ∧
        (∀ i e, s.part source start (start + length) i = .error e →
          (∀ k fault, e = .codec k fault → k = i) ∧
            ∀ k stored computed, e = .checksum k stored computed → k = i) ∧
        (∀ data, outcome (readBytes source start length) s = .ok data → data.size = length) ∧
        ∀ slots, s.nchunks ≤ firstChunkAt s.table.starts start + slots →
          outcome (readFrom source start (start + length) #[]
            (firstChunkAt s.table.starts start) slots) s = outcome (readBytes source start length) s) ∧
      (s.nbytes < start + length → s.nbytes < 2 ^ 64 - 1 →
        s.run (readBytes source start length) =
          (.error (.index (.storeRange start (Chunk.saturatingAdd start length) s.nbytes)), s)) := by
  refine ⟨fun hinside => ?_, fun houtside hword => run_readBytes_of_lt hword houtside⟩
  have hwalk {slots : Nat} (hslots : s.nchunks ≤ firstChunkAt s.table.starts start + slots) :=
    outcome_readFrom_first h (Nat.le_add_right start length) hinside hslots
  have hread : outcome (readBytes source start length) s =
      ((s.crossed start (start + length)).mapM (s.part source start (start + length))).map
        Bytes.concat := by
    rw [outcome, run_readBytes_of_le h.nbytes_lt hinside]
    exact hwalk (by omega)
  refine ⟨hread, fun e => ?_, fun i e he => ?_, fun data hdata => ?_, fun slots hslots => ?_⟩
  · rw [hread, ← mapM_part_eq_error_iff h.tallied hinside]
    cases (s.crossed start (start + length)).mapM (s.part source start (start + length)) <;>
      simp [Except.map]
  · exact Error.eq_of_atChunk_eq (atChunk_of_part_eq_error he)
  · rcases Nat.eq_zero_or_pos length with rfl | hpos
    · rw [hread, Nat.add_zero, crossed_self] at hdata
      cases hdata
      rfl
    · obtain ⟨parts, hparts, rfl⟩ := map_eq_ok.1 (hread ▸ hdata)
      rw [crossed, List.range_eq_range'] at hparts
      have hsize := size_concat_parts h (Nat.lt_add_of_pos_right hpos) 0 s.nchunks hparts
      rw [Nat.zero_add, h.tallied.start_of_le le_rfl, start_zero] at hsize
      omega
  · rw [hread, hwalk hslots]

theorem wellFormed_mismatchedStored : mismatchedStored.WellFormed := by
  have hsize : mismatchedStored.data.size < 2 ^ 64 - 1 := by decide
  exact Chunk.wellFormed_ofBytes hsize rfl

theorem wellFormed_mismatchedBlock : mismatchedBlock.WellFormed := by
  have hsize : mismatchedBlock.data.size < 2 ^ 64 - 1 := by decide
  exact Chunk.wellFormed_ofBytes hsize rfl

/-- A byte that is given out unchecked, one whose block has another checksum, and a place for a third. -/
def damaged : Store where
  codec := { codec := .noop }
  chunkSize := 1
  table := .ofSlots 1 #[.loaded mismatchedStored, .loaded mismatchedBlock, .reserved]

/-- The mismatched byte stops every read that comes to it, and the place only those that end in it. -/
theorem readBytes_spanning_damaged :
    Checked (damaged.chunkSource {}) damaged ∧
      outcome (readBytes (damaged.chunkSource {}) 0 1) damaged = .ok #[7] ∧
      outcome (readBytes (damaged.chunkSource {}) 0 3) damaged =
        .error (.checksum 1 0 (Crc32.checksum #[7])) ∧
      outcome (readBytes (damaged.chunkSource {}) 2 1) damaged = .error (.index (.reserved 2)) ∧
      damaged.run (readBytes (damaged.chunkSource {}) 2 2) =
        (.error (.index (.storeRange 2 4 3)), damaged) := by
  have hs : Checked (damaged.chunkSource {}) damaged := by
    refine ⟨rfl, by decide, fun i c hc => ?_⟩
    match i, hc with
    | 0, hc =>
      cases hc
      exact wellFormed_mismatchedStored
    | 1, hc =>
      cases hc
      exact wellFormed_mismatchedBlock
    | 2, hc => cases hc
    | i + 3, hc => cases hc
  obtain ⟨hone, -⟩ := (readBytes_spanning hs 0 1).1 (by decide)
  obtain ⟨-, hthree, -⟩ := (readBytes_spanning hs 0 3).1 (by decide)
  obtain ⟨-, hlast, -⟩ := (readBytes_spanning hs 2 1).1 (by decide)
  refine ⟨hs, hone, (hthree _).2 ⟨1, by decide, rfl, fun j hj _ => ?_⟩,
    (hlast _).2 ⟨2, by decide, rfl, fun j hj hcrosses => ?_⟩,
    (readBytes_spanning hs 2 2).2 (by decide) (by decide)⟩
  · obtain rfl : j = 0 := by omega
    exact ⟨#[7], rfl⟩
  · obtain rfl | rfl : j = 0 ∨ j = 1 := by omega
    · exact absurd hcrosses (by decide)
    · exact absurd hcrosses (by decide)

/-! ## Empty slots -/

/-- A frame of two bytes, with a chunk of no bytes between them. -/
def emptyBetween : SparseFrame where
  path := ⟨["d"]⟩
  header := {
    version := 1, flags := 1, codec := { codec := .noop }, chunkSize := 1, nbytes := 2
    allowResize := true, metadata := [], index := [⟨25, 1⟩, ⟨24, 0⟩, ⟨25, 1⟩] }

/-- Its files, but for that of the empty chunk. -/
def emptyBetweenFiles : Files where
  nodes := [([], .directory), (["d"], .directory), (["d", "chunks"], .directory),
    (["d", "chunks", "00000000.chunk"], .file mismatchedStored.data),
    (["d", "chunks", "00000002.chunk"], .file mismatchedStored.data)]

/-- The store in the frame. -/
def emptyBetweenStore : Store where
  codec := { codec := .noop }
  chunkSize := 1
  allowResize := true
  table := .ofSlots 1 #[.pending 1 25, .pending 0 24, .pending 1 25]
  source := some emptyBetween

/-- An empty chunk that is missing stops a read across it, though both slots that share a byte with the
range can be read. -/
theorem readBytes_across_missing_empty :
    Store.ofSource emptyBetween {} = .ok emptyBetweenStore ∧
      Checked (emptyBetweenStore.chunkSource emptyBetweenFiles) emptyBetweenStore ∧
      0 + 2 ≤ emptyBetweenStore.nbytes ∧
      (∀ i, emptyBetweenStore.Overlaps 0 2 i →
        emptyBetweenStore.part (emptyBetweenStore.chunkSource emptyBetweenFiles) 0 2 i = .ok #[7]) ∧
      outcome (readBytes (emptyBetweenStore.chunkSource emptyBetweenFiles) 0 2) emptyBetweenStore =
        .error (.io .notFound) := by
  have hfetch (i : Nat) (c : Chunk)
      (hc : emptyBetweenStore.fetch (emptyBetweenStore.chunkSource emptyBetweenFiles) i = .ok c) :
      c = mismatchedStored := by
    match i, hc with
    | 0, hc => exact (Except.ok.inj hc).symm
    | 1, hc => cases hc
    | 2, hc => exact (Except.ok.inj hc).symm
    | i + 3, hc => cases hc
  have htallied : emptyBetweenStore.Tallied := rfl
  refine ⟨rfl, ⟨htallied, by decide, fun i c hc => ?_⟩, by decide, fun i hi => ?_, rfl⟩
  · rw [hfetch i c hc]
    exact wellFormed_mismatchedStored
  · have hcrossed : emptyBetweenStore.crossed 0 2 = [0, 1, 2] := by decide
    have hmem := (mem_crossed htallied (by decide)).2 (Or.inl hi)
    rw [hcrossed] at hmem
    match i, hmem with
    | 0, _ => rfl
    | 1, _ => exact absurd hi (by decide)
    | 2, _ => rfl

end ChunkedArray.Store
