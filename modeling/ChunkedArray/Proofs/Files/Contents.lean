import ChunkedArray.Proofs.Files.Faults
import ChunkedArray.Proofs.Files.Tree
import ChunkedArray.Proofs.Files.Written

/-!
# Files before and behind an operation

What is done to a tree leaves a tree. A removal that succeeds takes away the files at the place of its path
and below it, making directories touches no file, and a write adds the file that was written. So a file or a
sparse frame that takes the place of whatever stood at a path has the only files there.
-/

namespace ChunkedArray

namespace Files

open ChunkedArray.Path (Step)

variable {fs fs' : Files} {path : Path} {loc : Location}

/-! ## Operations that succeed -/

/-- What is written ends with a name. -/
theorem exists_child_of_write {data : Bytes} (h : fs.write path data = .ok fs') :
    ∃ front name, path.steps = front ++ [.child name] := by
  rw [write] at h
  split at h
  · rename_i target htarget
    obtain ⟨_, -, htarget⟩ := bind_eq_ok.1 htarget
    split at htarget
    · cases htarget
    · rename_i name hlast
      obtain ⟨front, hsteps⟩ := List.getLast?_eq_some_iff.1 hlast
      exact ⟨front, name, hsteps⟩
    · obtain ⟨_, -, htarget⟩ := bind_eq_ok.1 htarget
      cases htarget
  · cases h

theorem childAt_eq_ok {steps : List Step} {name : String} (h : fs.childAt steps name = .ok loc) :
    ∃ dir, fs.node? dir = some .directory ∧ loc = dir ++ [name] := by
  obtain ⟨dir, hdir, h⟩ := bind_eq_ok.1 h
  split at h
  · cases h
  · cases h
    exact ⟨dir, node?_of_follow (directoryAt_eq_ok hdir), rfl⟩

/-- A directory is made in a free place, in a directory or at the root. -/
theorem makeDirectory_eq_ok {steps : List Step} (h : fs.makeDirectory steps = .ok fs') :
    ∃ loc, fs' = fs.put loc .directory ∧ fs.node? loc = none ∧
      ∀ dir name, loc = dir ++ [name] → fs.node? dir = some .directory := by
  have hput (loc : Location) (h : (if (fs.node? loc).isSome = true then
      Except.error IoFault.alreadyExists else pure (fs.put loc .directory)) = .ok fs') :
      fs' = fs.put loc .directory ∧ fs.node? loc = none := by
    split at h
    · cases h
    · rename_i hnone
      cases h
      exact ⟨rfl, by simpa using hnone⟩
  rw [makeDirectory] at h
  split at h
  · obtain ⟨rfl, hnone⟩ := hput [] h
    exact ⟨[], rfl, hnone, fun dir name hdir => by simp at hdir⟩
  · obtain ⟨loc, hchild, h⟩ := bind_eq_ok.1 h
    obtain ⟨dir, hdir, rfl⟩ := childAt_eq_ok hchild
    obtain ⟨rfl, hnone⟩ := hput _ h
    refine ⟨_, rfl, hnone, fun dir' name' hsame => ?_⟩
    obtain ⟨rfl, -⟩ := List.append_inj' hsame rfl
    exact hdir
  · obtain ⟨_, -, h⟩ := bind_eq_ok.1 h
    cases h

theorem ensureDirectory_eq_ok {steps : List Step} (h : fs.ensureDirectory steps = .ok fs') :
    fs' = fs ∨ fs.makeDirectory steps = .ok fs' := by
  rw [ensureDirectory] at h
  split at h
  · split at h
    · cases h
      exact .inl rfl
    · cases h
  · exact .inr h

/-! ## Trees -/

theorem IsTree.write (h : fs.IsTree) {data : Bytes} (hwrite : fs.write path data = .ok fs') :
    fs'.IsTree := by
  obtain ⟨front, name, hsteps⟩ := exists_child_of_write hwrite
  obtain ⟨dir, -, -, -, hfront, hfree, rfl⟩ := write_eq_ok hsteps hwrite
  refine h.put (fun dir' name' hdir => ?_) hfree _
  obtain ⟨rfl, -⟩ := List.append_inj' hdir rfl
  exact node?_of_follow hfront

theorem IsTree.ensureDirectory (h : fs.IsTree) {steps : List Step}
    (hensure : fs.ensureDirectory steps = .ok fs') : fs'.IsTree := by
  obtain rfl | hmake := ensureDirectory_eq_ok hensure
  · exact h
  · obtain ⟨loc, rfl, hnone, hparent⟩ := makeDirectory_eq_ok hmake
    exact h.put hparent (by simp [hnone]) _

/-- So what is done to a tree leaves a tree, whether it succeeds or fails. -/
theorem closed_isTree : Closed IsTree :=
  ⟨fun loc h => h.drop loc, fun loc h => h.clear loc, fun h hwrite => h.write hwrite,
    fun h hensure => h.ensureDirectory hensure⟩

/-! ## Files -/

/-- A directory that was removed has left no files, and the files elsewhere are all there. -/
theorem contents_of_run_removeDirectory (htree : fs.IsTree)
    (h : Action.run (removeDirectory path) fs = (.ok (), fs')) :
    ∃ loc, place [] path.steps = .ok loc ∧ fs'.contents = fs.outside loc := by
  obtain ⟨loc, hlocate, hfs'⟩ := run_removeDirectory_eq_ok h
  have hcleared := htree.contents_clear (node?_of_locate hlocate)
  refine ⟨loc, place_of_locate hlocate, ?_⟩
  rcases hfs' with rfl | ⟨rfl, -⟩
  · rw [contents_drop, outside, hcleared, outside, List.filter_filter]
    simp only [Bool.and_self]
  · exact hcleared

/-- So has whatever stood at a path, be it nothing. -/
theorem contents_of_run_remove (htree : fs.IsTree) (hclimbs : fs.Climbs path)
    (hplace : place [] path.steps = .ok loc) (h : Action.run (remove path) fs = (.ok (), fs')) :
    fs'.contents = fs.outside loc := by
  obtain ⟨loc', data, hlocate, rfl⟩ | h | ⟨habsent, rfl⟩ := run_remove_eq_ok h
  · obtain rfl := Except.ok.inj ((place_of_locate hlocate).symm.trans hplace)
    exact contents_drop fs loc'
  · obtain ⟨loc', hplace', hcontents⟩ := contents_of_run_removeDirectory htree h
    obtain rfl := Except.ok.inj (hplace'.symm.trans hplace)
    exact hcontents
  · exact (htree.outside_of_notFound hclimbs hplace habsent).symm

/-- What can be removed has a text that paths may have. -/
theorem checkPath_of_run_remove (h : Action.run (remove path) fs = (.ok (), fs')) :
    checkPath path = .ok () := by
  have hfound {found : Location × Node} (hlocate : fs.locate path = .ok found) :
      checkPath path = .ok () := by
    obtain ⟨_, hcheck, -⟩ := bind_eq_ok.1 hlocate
    exact hcheck
  obtain ⟨loc', data, hlocate, -⟩ | h | ⟨habsent, -⟩ := run_remove_eq_ok h
  · exact hfound hlocate
  · obtain ⟨loc', hlocate, -⟩ := run_removeDirectory_eq_ok h
    exact hfound hlocate
  · exact (follow_of_notFound habsent).1

theorem contents_of_run_makeDirectories {r : Result Unit}
    (h : Action.run (makeDirectories path) fs = (r, fs')) : fs'.contents = fs.contents := by
  have hkeeps : Keeps (fun fs₁ => fs₁.contents = fs.contents) (makeDirectories path) := by
    refine keeps_makeDirectories (fun {fs₁ fs₂ steps} hfs₁ hensure => ?_) path
    obtain rfl | hmake := ensureDirectory_eq_ok hensure
    · exact hfs₁
    · obtain ⟨loc, rfl, hnone, -⟩ := makeDirectory_eq_ok hmake
      rw [contents_put_directory hnone, hfs₁]
  exact hkeeps.run rfl h

/-- A file that was written where there was none is one more file. -/
theorem contents_of_write {front : List Step} {name : String} {data : Bytes}
    (hsteps : path.steps = front ++ [.child name]) (hplace : place [] front = .ok loc)
    (hfree : ∀ f ∈ fs.contents, f.1 ≠ loc ++ [name]) (h : fs.write path data = .ok fs') :
    fs'.contents = fs.contents ++ [(loc ++ [name], data)] := by
  obtain ⟨dir, -, -, -, hfront, -, rfl⟩ := write_eq_ok hsteps h
  obtain rfl := Except.ok.inj ((place_of_follow hfront).symm.trans hplace)
  exact contents_put_file hfree data

/-- A file that takes the place of whatever stood at a path is the only one there. -/
theorem contents_of_replace {data : Bytes} {fs₁ : Files} (htree : fs.IsTree) (hclimbs : fs.Climbs path)
    (hremove : Action.run (remove path) fs = (.ok (), fs₁)) (h : fs₁.write path data = .ok fs') :
    ∃ loc, fs'.locate path = .ok (loc, .file data) ∧ fs'.contents = fs.outside loc ++ [(loc, data)] := by
  obtain ⟨front, name, hsteps⟩ := exists_child_of_write h
  obtain ⟨loc, hlocate, -⟩ := hasFile_of_write hsteps h
  have hplace := place_of_locate hlocate
  have hremoved := contents_of_run_remove htree hclimbs hplace hremove
  obtain ⟨dir, -, -, -, hfront, -, -⟩ := write_eq_ok hsteps h
  obtain rfl := place_concat_child (place_of_follow hfront) (hsteps ▸ hplace)
  refine ⟨dir ++ [name], hlocate, ?_⟩
  rw [← hremoved]
  refine contents_of_write hsteps (place_of_follow hfront) (fun f hf hsame => ?_) h
  rw [hremoved, mem_outside, hsame] at hf
  exact hf.2 (List.prefix_refl _)

end Files

/-! ## The files of a sparse frame -/

namespace SparseFrame

open Files

variable {fs fs' : Files} {dir : Path} {loc : Location} {header : Bytes} {chunks : List Chunk}

/-- The files of a sparse frame, at their locations in its directory. -/
def frameFiles (header : Bytes) (chunks : List Chunk) : List (Location × Bytes) :=
  (["frame.hdr"], header) :: chunks.zipIdx.map fun c => (["chunks", chunkName c.2], c.1.data)

theorem sum_size_frameFiles (header : Bytes) (chunks : List Chunk) :
    ((frameFiles header chunks).map fun f => f.2.size).sum =
      header.size + (chunks.map Chunk.cbytes).sum := by
  have hsizes : (chunks.zipIdx.map fun c => c.1.data.size) = chunks.map Chunk.cbytes := by
    rw [← List.zipIdx_map_fst 0 chunks, List.map_map, List.zipIdx_map_fst]
    rfl
  simp [frameFiles, Function.comp_def, hsizes]

/-- Chunks that are written where there are none are that many more files. -/
theorem contents_of_writeChunks {i : Nat} (hplace : place [] (chunksPath dir).steps = .ok loc)
    (hfree : ∀ j, i ≤ j → ∀ f ∈ fs.contents, f.1 ≠ loc ++ [chunkName j])
    (h : Action.run (writeChunks dir i chunks) fs = (.ok (), fs')) :
    fs'.contents = fs.contents ++
      (chunks.zipIdx i).map fun c => (loc ++ [chunkName c.2], c.1.data) := by
  -- On the chunks left, whose names are free as their numbers only grow.
  induction chunks generalizing fs i with
  | nil =>
    cases h
    simp
  | cons c rest ih =>
    obtain ⟨_, fs₁, hfirst, hrest⟩ := Action.exists_of_run_bind_eq_ok h
    have hcontents := contents_of_write (steps_chunkPath dir i) hplace (hfree i (Nat.le_refl i))
      (run_change_eq_ok.1 hfirst)
    rw [ih (fun j hj f hf => ?_) hrest, hcontents, List.zipIdx_cons, List.map_cons, List.append_assoc]
    · rfl
    · rw [hcontents, List.mem_append, List.mem_singleton] at hf
      rcases hf with hf | rfl
      · exact hfree j (by omega) f hf
      · intro hsame
        have hname : [chunkName i] = [chunkName j] := List.append_cancel_left hsame
        have hnumber := chunkName_injective (List.cons.inj hname).1
        omega

theorem place_chunksPath (hplace : place [] dir.steps = .ok loc) :
    place [] (chunksPath dir).steps = .ok (loc ++ ["chunks"]) := by
  have hsteps : (chunksPath dir).steps = dir.steps ++ [.child "chunks"] := Path.steps_join _ rfl
  have hname : enter loc (.child "chunks") = .ok (loc ++ ["chunks"]) :=
    enter_child_eq_ok.2 ⟨by decide, rfl⟩
  rw [hsteps, place_append, hplace]
  exact place_cons_eq_ok.2 ⟨_, hname, rfl⟩

/-- A frame that is written where there are no files has exactly its own. -/
theorem contents_of_writeAll {written : Nat} (htree : fs.IsTree)
    (hplace : place [] dir.steps = .ok loc) (hfree : ∀ f ∈ fs.contents, ¬ loc <+: f.1)
    (h : Action.run (writeAll dir header chunks) fs = (.ok written, fs')) :
    fs'.contents = fs.contents ++ (frameFiles header chunks).map (fun f => (loc ++ f.1, f.2)) ∧
      written = ((frameFiles header chunks).map fun f => f.2.size).sum := by
  obtain ⟨fs₀, fs₁, fs₂, hclear, hmake, hheader, hchunks, rfl⟩ := run_writeAll_eq_ok h
  have hchunksPath := place_chunksPath hplace
  have hfs₀ : fs₀.contents = fs.contents := by
    rcases hclear with rfl | hremove
    · rfl
    · obtain ⟨loc', hplace', hcontents⟩ := contents_of_run_removeDirectory htree hremove
      obtain rfl := Except.ok.inj (hplace'.symm.trans hchunksPath)
      refine hcontents.trans (outside_eq_contents_iff.2 fun f hf hbelow => ?_)
      exact hfree f hf ((List.prefix_append ..).trans hbelow)
  have hfs₁ : fs₁.contents = fs.contents := (contents_of_run_makeDirectories hmake).trans hfs₀
  have hfs₂ : fs₂.contents = fs.contents ++ [(loc ++ ["frame.hdr"], header)] := by
    rw [← hfs₁]
    refine contents_of_write (steps_headerPath dir) hplace (fun f hf hsame => ?_) hheader
    rw [hfs₁] at hf
    exact hfree f hf (hsame ▸ List.prefix_append ..)
  have hfs' := contents_of_writeChunks hchunksPath (fun j _ f hf hsame => ?_) hchunks
  · refine ⟨?_, (sum_size_frameFiles header chunks).symm⟩
    rw [hfs', hfs₂, frameFiles, List.map_cons, List.map_map, List.append_assoc]
    simp only [Function.comp_def, List.append_assoc, List.singleton_append]
  · rw [hfs₂, List.mem_append, List.mem_singleton] at hf
    rcases hf with hf | rfl
    · exact hfree f hf ⟨["chunks", chunkName j], by simp [hsame]⟩
    · simpa using congrArg List.length hsame

/-- The directory of a frame is found if its header is. -/
theorem locate_of_read_header (hcheck : checkPath dir = .ok ())
    (h : fs.read (headerPath dir) = .ok header) : ∃ loc, fs.locate dir = .ok (loc, .directory) := by
  rw [Files.read] at h
  split at h
  · rename_i file data hlocate
    obtain ⟨_, -, hfollow⟩ := bind_eq_ok.1 hlocate
    rw [steps_headerPath, List.append_assoc] at hfollow
    obtain ⟨loc, node, hdir, hnode⟩ := exists_follow_front hfollow
    obtain rfl := hnode (by simp)
    exact ⟨loc, locate_of_follow hcheck hdir⟩
  · cases h
  · cases h

/-- A frame that takes the place of whatever stood at a path has the only files there. -/
theorem contents_of_replace {written : Nat} {fs₁ : Files} (htree : fs.IsTree) (hclimbs : fs.Climbs dir)
    (hremove : Action.run (Files.remove dir) fs = (.ok (), fs₁))
    (h : Action.run (writeAll dir header chunks) fs₁ = (.ok written, fs')) :
    ∃ loc, fs'.locate dir = .ok (loc, .directory) ∧
      fs'.contents = fs.outside loc ++ (frameFiles header chunks).map (fun f => (loc ++ f.1, f.2)) ∧
      written = ((frameFiles header chunks).map fun f => f.2.size).sum := by
  obtain ⟨loc, hlocate⟩ :=
    locate_of_read_header (checkPath_of_run_remove hremove) (read_of_writeAll h).1
  have hplace := place_of_locate hlocate
  have hremoved := contents_of_run_remove htree hclimbs hplace hremove
  have htree₁ := (closed_isTree.keeps_remove dir).run htree hremove
  have hfree : ∀ f ∈ fs₁.contents, ¬ loc <+: f.1 := fun f hf => by
    rw [hremoved, mem_outside] at hf
    exact hf.2
  obtain ⟨hcontents, hwritten⟩ := contents_of_writeAll htree₁ hplace hfree h
  rw [hremoved] at hcontents
  exact ⟨loc, hlocate, hcontents, hwritten⟩

end SparseFrame

end ChunkedArray
