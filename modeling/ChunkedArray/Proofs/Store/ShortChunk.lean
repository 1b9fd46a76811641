import ChunkedArray.Proofs.Store.Starts

/-!
# Short chunks

Where sizes are fixed, a command adds a slot at the end or fills one with a chunk of the size for which
it counted. So all slots but the last keep the nominal size, apart from two commands that do not look at
it: slots are reserved behind a short chunk too, which then is not the last one any more, and a compressed
chunk is added whatever its size. The slots are in order all the way through a run of commands exactly if
it comes to neither.
-/

namespace ChunkedArray.Store

variable {s : Store} {source : ChunkSource}

/-! ## Sizes in order -/

/-- Every slot but the last is reserved or has the nominal size, and the last one has no larger size. -/
structure OnlyLastShort (s : Store) : Prop where
  front : ∀ slot ∈ s.table.slots.toList.dropLast, ∀ n ∈ slot.nbytes?, n = s.chunkSize
  last : ∀ slot ∈ s.table.slots.toList.getLast?, ∀ n ∈ slot.nbytes?, n ≤ s.chunkSize

/-- The last slot has a chunk of another size than the nominal one. -/
def EndsShort (s : Store) : Prop :=
  ∃ n ∈ s.extents.getLast?, n ≠ s.chunkSize

/-- A command puts a chunk where its size does not belong: slots are reserved behind a chunk of another
size than the nominal one, or a chunk is added that is larger. -/
def Misplaces (s : Store) : StoreCommand Chunk → Prop
  | .reserve count => 0 < count ∧ s.EndsShort
  | .appendChunk c => s.chunkSize < c.nbytes ∧ ¬ s.EndsShort
  | .append _ | .insertChunk _ _ | .replace _ _ => False

/-- A list of sizes in which only the last one may be below the nominal size. -/
def SizesInOrder (nominal : Nat) (sizes : List Nat) : Prop :=
  (∀ n ∈ sizes.dropLast, n = nominal) ∧ ∀ n ∈ sizes.getLast?, n ≤ nominal

/-- A reserved slot counts with the nominal size, so it is the sizes that count. -/
theorem onlyLastShort_iff : s.OnlyLastShort ↔ SizesInOrder s.chunkSize s.extents := by
  have hextent (slot : Slot) {P : Nat → Prop} (hnominal : P s.chunkSize) :
      P (slot.extent s.chunkSize) ↔ ∀ n ∈ slot.nbytes?, P n := by
    cases hsize : slot.nbytes? with
    | none => simpa [Slot.extent, hsize] using hnominal
    | some n => simp [Slot.extent, hsize]
  have hfront (slot : Slot) := hextent slot (P := (· = s.chunkSize)) rfl
  have hlast (slot : Slot) := hextent slot (P := (· ≤ s.chunkSize)) (Nat.le_refl _)
  constructor
  · rintro ⟨front, last⟩
    refine ⟨fun n hn => ?_, fun n hn => ?_⟩
    · rw [extents, ← List.map_dropLast] at hn
      obtain ⟨slot, hslot, rfl⟩ := List.mem_map.1 hn
      exact (hfront slot).2 (front slot hslot)
    · rw [extents, List.getLast?_map] at hn
      obtain ⟨slot, hslot, rfl⟩ := Option.mem_map.1 hn
      exact (hlast slot).2 (last slot hslot)
  · rintro ⟨front, last⟩
    refine ⟨fun slot hslot => (hfront slot).1 (front _ ?_), fun slot hslot =>
      (hlast slot).1 (last _ ?_)⟩
    · rw [extents, ← List.map_dropLast]
      exact List.mem_map_of_mem hslot
    · rw [extents, List.getLast?_map]
      exact Option.mem_map_of_mem _ hslot

section Sizes

variable {nominal : Nat} {sizes : List Nat}

/-- Sizes in order are all nominal if the last one is. -/
theorem SizesInOrder.forall_eq_iff (h : SizesInOrder nominal sizes) :
    (∀ n ∈ sizes, n = nominal) ↔ ∀ last ∈ sizes.getLast?, last = nominal := by
  constructor
  · exact fun hall last hlast => hall last (List.mem_of_getLast? hlast)
  · intro hlast n hn
    obtain rfl | ⟨front, last, rfl⟩ := List.eq_nil_or_concat sizes
    · cases hn
    · rw [List.concat_eq_append] at h hlast hn
      obtain hn | hn := List.mem_append.1 hn
      · exact h.1 n (by rwa [List.dropLast_concat])
      · exact hlast n (by rw [List.getLast?_concat, List.mem_singleton.1 hn]; rfl)

/-- A size may follow if the last one is nominal, and it may be smaller but not larger. -/
theorem SizesInOrder.concat_iff (h : SizesInOrder nominal sizes) (n : Nat) :
    SizesInOrder nominal (sizes ++ [n]) ↔ (∀ last ∈ sizes.getLast?, last = nominal) ∧ n ≤ nominal := by
  rw [← h.forall_eq_iff, SizesInOrder, List.dropLast_concat, List.getLast?_concat]
  simp

/-- Nominal sizes may follow if the last one is nominal, or if there are none of them. -/
theorem SizesInOrder.append_replicate_iff (h : SizesInOrder nominal sizes) (count : Nat) :
    SizesInOrder nominal (sizes ++ List.replicate count nominal) ↔
      (0 < count → ∀ last ∈ sizes.getLast?, last = nominal) := by
  cases count with
  | zero => simpa using h
  | succ count =>
    rw [List.replicate_succ', ← List.append_assoc, ← h.forall_eq_iff, SizesInOrder,
      List.dropLast_concat, List.getLast?_concat]
    simp only [List.mem_append, or_imp, forall_and, Nat.zero_lt_succ, forall_const]
    simp

end Sizes

/-! ## Commands -/

/-- A store that differs from another one in its slots only, with sizes fixed in both. -/
structure FixedWith (s s' : Store) (sizes : List Nat) : Prop where
  allowResize : s'.allowResize = false
  chunkSize : s'.chunkSize = s.chunkSize
  extents : s'.extents = sizes

theorem FixedWith.onlyLastShort_iff {s' : Store} {sizes : List Nat} (h : FixedWith s s' sizes) :
    s'.OnlyLastShort ↔ SizesInOrder s.chunkSize sizes := by
  rw [Store.onlyLastShort_iff, h.chunkSize, h.extents]

theorem endsShort_iff : s.EndsShort ↔ ¬ ∀ n ∈ s.extents.getLast?, n = s.chunkSize := by
  simp [EndsShort]

/-- The last slot is found short when a chunk is added. -/
theorem endsShort_iff_back :
    s.EndsShort ↔ ∃ n ∈ s.table.slots.back?.bind Slot.nbytes?, n ≠ s.chunkSize := by
  rw [EndsShort, extents, List.getLast?_map, Array.getLast?_toList]
  cases s.table.slots.back? with
  | none => simp
  | some slot => cases slot <;> simp [Slot.nbytes?]

section Fixed

variable (hfixed : s.allowResize = false)
include hfixed

theorem fixedWith_self : FixedWith s s s.extents := ⟨hfixed, rfl, rfl⟩

/-- Behind a short chunk nothing is added. -/
theorem fixedWith_appendChunk_of_endsShort (h : s.EndsShort) (c : Chunk) :
    FixedWith s (Action.run (appendChunk c) s).2 s.extents := by
  obtain ⟨n, hn, hne⟩ := endsShort_iff_back.1 h
  rw [appendChunk, Action.run_bind_of_ok (Action.run_get s), Option.mem_def.1 hn]
  simp only [hfixed, Bool.not_false, and_true, if_pos hne]
  exact fixedWith_self hfixed

/-- Elsewhere a chunk is added whatever its size. -/
theorem fixedWith_appendChunk (h : ¬ s.EndsShort) (c : Chunk) :
    FixedWith s (Action.run (appendChunk c) s).2 (s.extents ++ [c.nbytes]) := by
  have hpush (revision : Nat) : FixedWith s { s with table := s.table.push c, revision }
      (s.extents ++ [c.nbytes]) := by
    refine ⟨hfixed, rfl, ?_⟩
    simp [extents, ChunkTable.push]
  rw [appendChunk, Action.run_bind_of_ok (Action.run_get s)]
  cases hback : s.table.slots.back?.bind Slot.nbytes? with
  | none => exact hpush _
  | some n =>
    have hnominal : n = s.chunkSize := by
      by_contra hne
      exact h (endsShort_iff_back.2 ⟨n, hback, hne⟩)
    simp only [hnominal, ne_eq, not_true_eq_false, false_and, if_false]
    exact hpush _

/-- A byte string is added only if it is not too long and the last chunk is not short. -/
theorem fixedWith_append (raw : Bytes) :
    FixedWith s (Action.run (append raw) s).2 s.extents ∨
      ¬ s.EndsShort ∧ raw.size ≤ s.chunkSize ∧
        FixedWith s (Action.run (append raw) s).2 (s.extents ++ [raw.size]) := by
  rw [append, Action.run_bind_of_ok (Action.run_get s)]
  by_cases hlength : raw.isEmpty ∨ s.chunkSize < raw.size
  · rw [if_pos hlength]
    exact .inl (fixedWith_self hfixed)
  rw [if_neg hlength]
  cases hcompress : (Chunk.compress raw s.codec).mapError (Error.atChunk s.nchunks) with
  | error e => exact .inl (fixedWith_self hfixed)
  | ok c =>
    have hsize := Chunk.nbytes_of_compress (mapError_eq_ok.1 hcompress)
    by_cases hshort : s.EndsShort
    · exact .inl (fixedWith_appendChunk_of_endsShort hfixed hshort c)
    · refine .inr ⟨hshort, by omega, ?_⟩
      rw [← hsize]
      exact fixedWith_appendChunk hfixed hshort c

/-- Slots are reserved wherever the slots end. -/
theorem fixedWith_reserve (count : Nat) :
    FixedWith s (Action.run (reserve count) s).2
      (s.extents ++ List.replicate count s.chunkSize) := by
  rw [reserve, Action.run_bind_of_ok (Action.run_get s)]
  refine ⟨hfixed, rfl, ?_⟩
  simp [extents, commit, Action.run_map]

/-- A slot that is filled with a chunk of the size for which it counted leaves the sizes alone. -/
theorem fixedWith_fill {i : Nat} {slot : Slot} {c : Chunk} (hslot : s.table.slots[i]? = some slot)
    (hsize : slot.extent s.chunkSize = c.nbytes) (revision : Nat) :
    FixedWith s { s with table := s.table.fill i c, revision } s.extents :=
  ⟨hfixed, rfl, ChunkTable.map_extent_setIfInBounds (by simp [hslot, hsize])⟩

/-- A chunk is placed only if it has the nominal size, for which a reserved slot counts. -/
theorem fixedWith_insertChunk (i : Nat) (c : Chunk) :
    FixedWith s (Action.run (insertChunk i c) s).2 s.extents := by
  rw [insertChunk, Action.run_bind_of_ok (Action.run_get s)]
  by_cases hsize : c.nbytes ≠ s.chunkSize
  · simp only [hfixed, Bool.not_false, and_true, if_pos hsize]
    exact fixedWith_self hfixed
  simp only [hsize, false_and, if_false]
  cases hslot : s.table.slots[i]? with
  | none => exact fixedWith_self hfixed
  | some slot =>
    cases slot with
    | loaded old => exact fixedWith_self hfixed
    | pending nbytes cbytes => exact fixedWith_self hfixed
    | reserved =>
      simp only [hfixed, Bool.false_eq_true, if_false]
      exact fixedWith_fill hfixed hslot (not_not.1 hsize).symm _

/-- The use of a chunk, which fetches it if it is pending, leaves the sizes alone. -/
theorem fixedWith_chunk (source : ChunkSource) (i : Nat) :
    FixedWith s (Action.run (chunk source i) s).2 s.extents := by
  rw [run_chunk_eq_fill]
  cases hfetch : s.fetch source i with
  | error e => exact fixedWith_self hfixed
  | ok c =>
    obtain ⟨slot, hslot, hanswer⟩ := exists_slot_of_fetch hfetch
    exact fixedWith_fill hfixed hslot (Slot.extent_of_fetch hanswer _) _

/-- A chunk is overwritten only by one of its size. -/
theorem fixedWith_replace (source : ChunkSource) (i : Nat) (raw : Bytes) :
    FixedWith s (Action.run (replace source i raw) s).2 s.extents := by
  have hchunk := fixedWith_chunk hfixed source i
  rw [replace, Action.run_bind]
  cases hrun : Action.run (chunk source i) s with
  | mk answer s' =>
    rw [hrun] at hchunk
    cases answer with
    | error e => exact hchunk
    | ok old =>
      have hslot := getElem?_of_run_chunk hrun
      simp only [Action.run_bind, Action.run_get]
      by_cases hrefused : old.nbytes ≠ raw.size ∧ (!s'.allowResize) = true
      · simp only [if_pos hrefused]
        exact hchunk
      have hstill : s'.allowResize = false := hchunk.allowResize
      have hsame : ¬ old.nbytes ≠ raw.size := by simpa [hstill] using hrefused
      simp only [if_neg hrefused, if_neg hsame]
      cases hcompress : (Chunk.compress raw s'.codec).mapError (Error.atChunk i) with
      | error e => exact hchunk
      | ok c =>
        have hextent : (Slot.loaded old).extent s'.chunkSize = c.nbytes := by
          rw [Slot.extent_loaded, Chunk.nbytes_of_compress (mapError_eq_ok.1 hcompress),
            not_not.1 hsame]
        have hfill := fixedWith_fill hstill hslot hextent (s'.revision + 1)
        exact ⟨hfill.allowResize, hfill.chunkSize.trans hchunk.chunkSize,
          hfill.extents.trans hchunk.extents⟩

/-- A command keeps the slots in order exactly if it does not misplace a chunk. -/
theorem onlyLastShort_perform (h : s.OnlyLastShort) (source : ChunkSource)
    (cmd : StoreCommand Chunk) :
    (Action.run (perform source cmd) s).2.allowResize = false ∧
      ((Action.run (perform source cmd) s).2.OnlyLastShort ↔ ¬ s.Misplaces cmd) := by
  have hsizes := onlyLastShort_iff.1 h
  have hshort := @endsShort_iff s
  -- An addition of bytes checks both sizes, one of a chunk only that of the last slot, and a
  -- reservation none; overwriting and filling keep all sizes.
  cases cmd with
  | append raw =>
    simp only [perform, Action.run_map, Misplaces, not_false_eq_true, iff_true]
    obtain hsame | ⟨hlong, hle, hadded⟩ := fixedWith_append hfixed raw
    · exact ⟨hsame.allowResize, hsame.onlyLastShort_iff.2 hsizes⟩
    · refine ⟨hadded.allowResize, hadded.onlyLastShort_iff.2 ((hsizes.concat_iff _).2 ⟨?_, hle⟩)⟩
      rwa [hshort, not_not] at hlong
  | appendChunk c =>
    simp only [perform, Action.run_map, Misplaces]
    by_cases hends : s.EndsShort
    · have hsame := fixedWith_appendChunk_of_endsShort hfixed hends c
      exact ⟨hsame.allowResize, by simp [hsame.onlyLastShort_iff, hsizes, hends]⟩
    · have hadded := fixedWith_appendChunk hfixed hends c
      refine ⟨hadded.allowResize, ?_⟩
      rw [hadded.onlyLastShort_iff, hsizes.concat_iff, ← not_not (a := ∀ n ∈ _, _), ← hshort]
      simp [hends]
  | reserve count =>
    simp only [perform, Action.run_map, Misplaces]
    have hadded := fixedWith_reserve hfixed count
    refine ⟨hadded.allowResize, ?_⟩
    rw [hadded.onlyLastShort_iff, hsizes.append_replicate_iff, hshort]
    tauto
  | insertChunk i c =>
    have hsame := fixedWith_insertChunk hfixed i c
    simp only [perform, Action.run_map, Misplaces, not_false_eq_true, iff_true]
    exact ⟨hsame.allowResize, hsame.onlyLastShort_iff.2 hsizes⟩
  | replace i raw =>
    have hsame := fixedWith_replace hfixed source i raw
    simp only [perform, Action.run_map, Misplaces, not_false_eq_true, iff_true]
    exact ⟨hsame.allowResize, hsame.onlyLastShort_iff.2 hsizes⟩

end Fixed

/-! ## Runs -/

/-- Along a run of commands the slots stay in order exactly if no command misplaces a chunk. -/
theorem forall_onlyLastShort_iff (h : s.OnlyLastShort) (hfixed : s.allowResize = false)
    (source : ChunkSource) (cmds : List (StoreCommand Chunk)) :
    (∀ k, (s.performAll source (cmds.take k)).2.OnlyLastShort) ↔
      ∀ k cmd, cmds[k]? = some cmd → ¬ (s.performAll source (cmds.take k)).2.Misplaces cmd := by
  -- On the commands. The store behind the first one is in order exactly if that one did not misplace.
  induction cmds generalizing s with
  | nil => simpa [performAll] using h
  | cons cmd rest ih =>
    obtain ⟨hfixed', hstep⟩ := onlyLastShort_perform hfixed h source cmd
    have hrun (k : Nat) : (s.performAll source ((cmd :: rest).take (k + 1))).2 =
        ((Action.run (perform source cmd) s).2.performAll source (rest.take k)).2 := rfl
    constructor
    · intro hall k next hnext
      have hfirst : (Action.run (perform source cmd) s).2.OnlyLastShort := hall 1
      cases k with
      | zero =>
        cases hnext
        exact hstep.1 hfirst
      | succ k =>
        exact (ih hfirst hfixed').1 (fun j => hall (j + 1)) k next hnext
    · intro hall k
      cases k with
      | zero => exact h
      | succ k =>
        exact (ih (hstep.2 (hall 0 cmd rfl)) hfixed').2 (fun j next => hall (j + 1) next) k

theorem onlyLastShort_new {codec : CodecConfig} {chunkSize : Nat}
    (h : Store.new codec chunkSize = .ok s) : s.OnlyLastShort ∧ s.allowResize = false := by
  obtain ⟨-, -, rfl⟩ := new_eq_ok h
  exact ⟨⟨by simp, by simp⟩, rfl⟩

/-- A store that starts with fixed sizes has a chunk of another size at its end only, behind every
command of a run, exactly if no command of the run reserves slots behind a short chunk or adds a chunk
larger than the nominal size. -/
theorem performAll_onlyLastShort_iff {codec : CodecConfig} {chunkSize : Nat}
    (h : Store.new codec chunkSize = .ok s) (source : ChunkSource)
    (cmds : List (StoreCommand Chunk)) :
    (∀ k, (s.performAll source (cmds.take k)).2.OnlyLastShort) ↔
      ∀ k cmd, cmds[k]? = some cmd → ¬ (s.performAll source (cmds.take k)).2.Misplaces cmd :=
  have hstart := onlyLastShort_new h
  forall_onlyLastShort_iff hstart.1 hstart.2 source cmds

/-- Behind a chunk of the nominal size there is room for a reserved slot, and then for a short chunk. -/
theorem performAll_onlyLastShort_room :
    let s : Store := { codec := { codec := .noop }, chunkSize := 2 }
    let cmds : List (StoreCommand Chunk) := [.append #[1, 2], .reserve 1, .append #[3]]
    Store.new s.codec s.chunkSize = .ok s ∧
      ∀ k, (s.performAll (s.chunkSource {}) (cmds.take k)).2.OnlyLastShort := by
  intro s cmds
  have hnew : Store.new s.codec s.chunkSize = .ok s := rfl
  refine ⟨hnew, (performAll_onlyLastShort_iff hnew _ _).2 fun k cmd hcmd => ?_⟩
  match k with
  | 0 | 2 =>
    cases hcmd
    exact not_false
  | 1 =>
    cases hcmd
    rw [Misplaces, endsShort_iff]
    decide +kernel
  | _ + 3 => cases hcmd

/-- A store of chunks of two bytes takes a slot behind a chunk of one byte, and a chunk of three. -/
theorem performAll_misplaced :
    let s : Store := { codec := { codec := .noop }, chunkSize := 2 }
    Store.new s.codec s.chunkSize = .ok s ∧
      ¬ (s.performAll (s.chunkSource {}) [.append #[1], .reserve 1]).2.OnlyLastShort ∧
      ∃ c, Chunk.compress #[1, 2, 3] s.codec = .ok c ∧
        ¬ (s.performAll (s.chunkSource {}) [.appendChunk c]).2.OnlyLastShort := by
  simp only [onlyLastShort_iff, SizesInOrder]
  exact ⟨rfl, by decide +kernel, _, rfl, by decide +kernel⟩

end ChunkedArray.Store
