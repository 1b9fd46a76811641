import ChunkedArray.Frame.Sparse
import ChunkedArray.Proofs.Files.Follow

/-!
# Written files

A file that was written is read back under the same path, and it is still read back when files of other
names have been written after it, since a file never takes the place of a directory. The files of a sparse
frame have different names, so all of them are read back at the end, whatever stood in the directory
before.
-/

namespace ChunkedArray

namespace Files

open ChunkedArray.Path (Step)

variable {fs fs' : Files}

/-! ## Files of a name -/

/-- A path leads to a file of a certain name, with a certain content. -/
def HasFile (fs : Files) (path : Path) (name : String) (data : Bytes) : Prop :=
  ∃ loc, fs.locate path = .ok (loc, .file data) ∧ loc.getLast? = some name

theorem HasFile.read {path : Path} {name : String} {data : Bytes} (h : fs.HasFile path name data) :
    fs.read path = .ok data := by
  obtain ⟨loc, hlocate, -⟩ := h
  rw [Files.read, hlocate]

theorem directoryAt_eq_ok {steps : List Step} {dir : Location} (h : fs.directoryAt steps = .ok dir) :
    fs.follow [] steps = .ok (dir, .directory) := by
  obtain ⟨⟨loc, node⟩, hfollow, h⟩ := bind_eq_ok.1 h
  cases node with
  | file data => cases h
  | directory =>
    cases h
    exact hfollow

/-- A write to a path that ends with a name puts a file under that name, which is free or that of a file,
into the directory to which the steps in front of it lead. -/
theorem write_eq_ok {path : Path} {front : List Step} {name : String} {data : Bytes}
    (hsteps : path.steps = front ++ [.child name]) (h : fs.write path data = .ok fs') :
    ∃ dir, checkPath path = .ok () ∧ path.endsWithSlash = false ∧ ¬ maxName < name.utf8ByteSize ∧
      fs.follow [] front = .ok (dir, .directory) ∧ fs.node? (dir ++ [name]) ≠ some .directory ∧
      fs' = fs.put (dir ++ [name]) (.file data) := by
  have hlast : path.steps.getLast? = some (.child name) := by simp [hsteps]
  have hfront : path.steps.dropLast = front := by simp [hsteps]
  rw [write] at h
  split at h
  · rename_i loc htarget
    cases h
    obtain ⟨_, hcheck, htarget⟩ := bind_eq_ok.1 htarget
    simp only [hlast, hfront] at htarget
    -- A path that ends with a slash names a directory, and no file is written there.
    cases hslash : path.endsWithSlash with
    | true =>
      rw [hslash, if_pos rfl] at htarget
      obtain ⟨_, -, htarget⟩ := bind_eq_ok.1 htarget
      cases htarget
    | false =>
      rw [hslash, if_neg Bool.false_ne_true] at htarget
      obtain ⟨child, hchild, htarget⟩ := bind_eq_ok.1 htarget
      obtain ⟨dir, hdir, hchild⟩ := bind_eq_ok.1 hchild
      split at hchild
      · cases hchild
      · cases hchild
        split at htarget
        · cases htarget
        · rename_i hfree
          cases htarget
          exact ⟨dir, hcheck, rfl, ‹_›, directoryAt_eq_ok hdir, hfree, rfl⟩
  · cases h

/-- A file that was written is there. -/
theorem hasFile_of_write {path : Path} {front : List Step} {name : String} {data : Bytes}
    (hsteps : path.steps = front ++ [.child name]) (h : fs.write path data = .ok fs') :
    fs'.HasFile path name data := by
  obtain ⟨dir, hcheck, hslash, hname, hfront, hfree, rfl⟩ := write_eq_ok hsteps h
  have hne : dir ≠ dir ++ [name] := fun heq => by simpa using congrArg List.length heq
  have hfront' := follow_put_file hfree data hfront hne
  refine ⟨dir ++ [name], bind_eq_ok.2 ⟨(), hcheck, ?_⟩, List.getLast?_concat ..⟩
  rw [hslash, hsteps, if_neg Bool.false_ne_true, List.append_nil]
  have hlast : enter dir (.child name) = .ok (dir ++ [name]) := if_neg hname
  exact follow_append hfront' (follow_cons_eq_ok.2 ⟨node?_of_follow hfront', dir ++ [name], hlast,
    follow_nil_eq_ok.2 ⟨rfl, node?_put ..⟩⟩)

/-- A file is still there when one of another name was written. -/
theorem HasFile.write {path path' : Path} {front : List Step} {name name' : String}
    {data data' : Bytes} (h : fs.HasFile path name data) (hne : name ≠ name')
    (hsteps : path'.steps = front ++ [.child name']) (hwrite : fs.write path' data' = .ok fs') :
    fs'.HasFile path name data := by
  obtain ⟨loc, hlocate, hlast⟩ := h
  obtain ⟨dir, -, -, -, -, hfree, rfl⟩ := write_eq_ok hsteps hwrite
  obtain ⟨_, hcheck, hfollow⟩ := bind_eq_ok.1 hlocate
  have hloc : loc ≠ dir ++ [name'] := by
    rintro rfl
    rw [List.getLast?_concat] at hlast
    exact hne (Option.some.inj hlast).symm
  exact ⟨loc, bind_eq_ok.2 ⟨(), hcheck, follow_put_file hfree data' hfollow hloc⟩, hlast⟩

theorem run_change_eq_ok {operation : Files → Result Files} :
    Action.run (change operation) fs = (.ok (), fs') ↔ operation fs = .ok fs' := by
  rw [change, Action.run_bind_of_ok (Action.run_get fs), Action.run_liftM_bind_eq_ok]
  constructor
  · rintro ⟨next, hoperation, h⟩
    cases h
    exact hoperation
  · exact fun h => ⟨fs', h, rfl⟩

end Files

/-! ## The files of a sparse frame -/

namespace SparseFrame

open Files

variable {fs fs' : Files} {dir : Path}

/-- The number of a chunk is read off its file name, in which leading zeros do not count. -/
theorem ofDigitChars_paddedNumber (i : Nat) :
    Nat.ofDigitChars 10 (paddedNumber i).toList 0 = i := by
  have hdigits : (paddedNumber i).toList =
      List.replicate (8 - (Nat.toDigits 10 i).length) '0' ++ Nat.toDigits 10 i := by
    simp [paddedNumber, Nat.toString_eq_repr, Nat.toList_repr]
  rw [hdigits, Nat.ofDigitChars_append, Nat.ofDigitChars_replicate_zero, Nat.mul_zero,
    Nat.ofDigitChars_ten_toDigits]

theorem paddedNumber_injective : Function.Injective paddedNumber := by
  intro i j h
  rw [← ofDigitChars_paddedNumber i, h, ofDigitChars_paddedNumber j]

/-- The name of the file of a chunk. -/
def chunkName (i : Nat) : String := paddedNumber i ++ ".chunk"

theorem chunkName_injective : Function.Injective chunkName := by
  intro i j h
  refine paddedNumber_injective (String.toList_inj.1 ?_)
  have hlist := congrArg String.toList h
  rw [chunkName, chunkName, String.toList_append, String.toList_append] at hlist
  exact List.append_cancel_right hlist

/-- The name of a chunk file ends otherwise than that of a header file, or a step in place. -/
theorem chunkName_ne {i : Nat} {name : String} (h : name.toList.getLast? ≠ some 'k') :
    name ≠ chunkName i := by
  rintro rfl
  apply h
  rw [chunkName, String.toList_append, List.getLast?_append]
  rfl

theorem steps_chunkPath (dir : Path) (i : Nat) :
    (chunkPath dir i).steps = (chunksPath dir).steps ++ [.child (chunkName i)] := by
  refine Path.steps_join _ ?_
  have hne (name : String) (hlast : name.toList.getLast? ≠ some 'k') :
      paddedNumber i ++ ".chunk" ≠ name := (chunkName_ne hlast).symm
  rw [Path.Step.ofPiece?, if_neg (hne "" (by decide)), if_neg (hne "." (by decide)),
    if_neg (hne ".." (by decide))]

theorem steps_headerPath (dir : Path) :
    (headerPath dir).steps = dir.steps ++ [.child "frame.hdr"] :=
  Path.steps_join _ rfl

/-- Written chunks are there, each under its number, and so is every other file that was there. -/
theorem hasFile_of_writeChunks {chunks : List Chunk} {i : Nat}
    (h : Action.run (writeChunks dir i chunks) fs = (.ok (), fs')) :
    (∀ j c, chunks[j]? = some c → fs'.HasFile (chunkPath dir (i + j)) (chunkName (i + j)) c.data) ∧
      ∀ path name data, fs.HasFile path name data → (∀ j, i ≤ j → name ≠ chunkName j) →
        fs'.HasFile path name data := by
  -- On the chunks left. Later chunks have other numbers, so they keep the file of this one.
  induction chunks generalizing fs i with
  | nil =>
    cases h
    exact ⟨fun j c hc => by simp at hc, fun _ _ _ hfile _ => hfile⟩
  | cons c rest ih =>
    obtain ⟨_, fs₁, hfirst, hrest⟩ := Action.exists_of_run_bind_eq_ok h
    have hwrite := run_change_eq_ok.1 hfirst
    obtain ⟨hchunks, hothers⟩ := ih hrest
    constructor
    · intro j c' hc'
      cases j with
      | zero =>
        cases hc'
        refine hothers _ _ _ (hasFile_of_write (steps_chunkPath dir i) hwrite) fun j hj heq => ?_
        have hsame := chunkName_injective heq
        omega
      | succ j =>
        have hfile := hchunks j c' hc'
        rwa [Nat.add_assoc, Nat.add_comm 1 j] at hfile
    · intro path name data hfile hne
      exact hothers _ _ _ (hfile.write (hne i (Nat.le_refl i)) (steps_chunkPath dir i) hwrite)
        fun j hj => hne j (by omega)

/-- What is done to write a frame, one step after the other. -/
theorem run_writeAll_eq_ok {header : Bytes} {chunks : List Chunk} {written : Nat}
    (h : Action.run (writeAll dir header chunks) fs = (.ok written, fs')) : ∃ fs₀ fs₁ fs₂,
      (fs₀ = fs ∨ Action.run (removeDirectory (chunksPath dir)) fs = (.ok (), fs₀)) ∧
      Action.run (makeDirectories (chunksPath dir)) fs₀ = (.ok (), fs₁) ∧
      fs₁.write (headerPath dir) header = .ok fs₂ ∧
      Action.run (writeChunks dir 0 chunks) fs₂ = (.ok (), fs') ∧
      written = header.size + (chunks.map Chunk.cbytes).sum := by
  have hmade {fs₀ : Files} (h : Action.run (do
      makeDirectories (chunksPath dir)
      Files.change fun fs => fs.write (headerPath dir) header
      writeChunks dir 0 chunks
      pure (header.size + (chunks.map Chunk.cbytes).sum)) fs₀ = (.ok written, fs')) : ∃ fs₁ fs₂,
      Action.run (makeDirectories (chunksPath dir)) fs₀ = (.ok (), fs₁) ∧
      fs₁.write (headerPath dir) header = .ok fs₂ ∧
      Action.run (writeChunks dir 0 chunks) fs₂ = (.ok (), fs') ∧
      written = header.size + (chunks.map Chunk.cbytes).sum := by
    obtain ⟨_, fs₁, hmake, h⟩ := Action.exists_of_run_bind_eq_ok h
    obtain ⟨_, fs₂, hheader, h⟩ := Action.exists_of_run_bind_eq_ok h
    obtain ⟨_, fs₃, hchunks, h⟩ := Action.exists_of_run_bind_eq_ok h
    cases h
    exact ⟨fs₁, fs₂, hmake, run_change_eq_ok.1 hheader, hchunks, rfl⟩
  rw [writeAll, Action.run_bind_of_ok (Action.run_get fs)] at h
  split at h
  · obtain ⟨_, fs₀, hremove, h⟩ := Action.exists_of_run_bind_eq_ok h
    obtain ⟨fs₁, fs₂, hsteps⟩ := hmade h
    exact ⟨fs₀, fs₁, fs₂, .inr hremove, hsteps⟩
  · obtain ⟨fs₁, fs₂, hsteps⟩ := hmade h
    exact ⟨fs, fs₁, fs₂, .inl rfl, hsteps⟩

/-- A frame that was written has its header and all its chunks in their files. -/
theorem read_of_writeAll {header : Bytes} {chunks : List Chunk} {written : Nat}
    (h : Action.run (writeAll dir header chunks) fs = (.ok written, fs')) :
    fs'.read (headerPath dir) = .ok header ∧
      ∀ i c, chunks[i]? = some c → fs'.read (chunkPath dir i) = .ok c.data := by
  obtain ⟨fs₀, fs₁, fs₂, -, -, hheader, hchunks, -⟩ := run_writeAll_eq_ok h
  have hheader := hasFile_of_write (steps_headerPath dir) hheader
  obtain ⟨hchunks, hothers⟩ := hasFile_of_writeChunks hchunks
  refine ⟨(hothers _ _ _ hheader fun j _ => chunkName_ne (by decide)).read, fun i c hc => ?_⟩
  have hfile := hchunks i c hc
  rw [Nat.zero_add] at hfile
  exact hfile.read

end SparseFrame

end ChunkedArray
