import ChunkedArray.Frame.Sparse
import ChunkedArray.Proofs.Files.Follow

/-!
# Faults of directory trees

What is done to a directory tree fails with a fault of the file system or not at all, and it keeps what
its single changes keep: nodes are dropped, files are written, and missing directories are made. A removal
that succeeds has changed the tree unless there was nothing at its path.
-/

namespace ChunkedArray

namespace Files

variable {α β : Type} {fs fs' : Files}

/-! ## Actions that keep an invariant -/

section Invariants

variable {inv : Files → Prop} {act : FilesM α}

/-- An action that keeps an invariant of the tree, whether it succeeds or fails, and fails with faults of
the file system only. -/
def Keeps (inv : Files → Prop) (act : FilesM α) : Prop :=
  Action.Ends inv (fun _ => True) (fun e => ∃ fault, e = .io fault) act

theorem Keeps.run (h : Keeps inv act) (hfs : inv fs) {r : Result α}
    (hrun : Action.run act fs = (r, fs')) : inv fs' := by
  have hkept := (h fs hfs).1
  rwa [hrun] at hkept

theorem Keeps.bind {next : α → FilesM β} (hact : Keeps inv act) (hnext : ∀ a, Keeps inv (next a)) :
    Keeps inv (act >>= next) :=
  Action.Ends.bind hact fun a _ => hnext a

theorem keeps_pure (a : α) : Keeps inv (pure a) :=
  Action.ends_pure trivial

theorem keeps_throw (fault : IoFault) : Keeps inv (throw (.io fault) : FilesM α) :=
  Action.ends_throw ⟨fault, rfl⟩

theorem keeps_set (h : inv fs) : Keeps inv (set fs) := by
  refine fun _ _ => ⟨h, fun _ _ => trivial, fun e he => ?_⟩
  cases he

/-- What is known of a tree is known when it is looked at. -/
theorem keeps_get_bind {next : Files → FilesM α} (h : ∀ fs, inv fs → Keeps inv (next fs)) :
    Keeps inv (get >>= next) :=
  Action.ends_get.bind h

theorem keeps_change {operation : Files → Result Files}
    (hok : ∀ {fs fs'}, inv fs → operation fs = .ok fs' → inv fs')
    (herror : ∀ fs e, operation fs = .error e → ∃ fault, e = .io fault) :
    Keeps inv (change operation) := by
  refine keeps_get_bind fun fs hfs => ?_
  have hnext : Action.Ends inv inv (fun e => ∃ fault, e = .io fault)
      (liftM (operation fs) : FilesM Files) :=
    Action.ends_liftM (fun _ => hok hfs) (herror fs)
  exact hnext.bind fun _ => keeps_set

/-- The failures of an operation, seen as faults. -/
theorem exists_fault_of_mapError {r : Except IoFault α} {e : Error}
    (h : r.mapError Error.io = .error e) : ∃ fault, e = .io fault := by
  cases r with
  | ok a => cases h
  | error fault =>
    cases h
    exact ⟨fault, rfl⟩

/-- What the making of one directory keeps, the making of those above it does. -/
theorem keeps_ensureUpward
    (h : ∀ {fs fs' steps}, inv fs → fs.ensureDirectory steps = .ok fs' → inv fs')
    (steps : List Path.Step) : Keeps inv (ensureUpward steps) := by
  have hensure (steps : List Path.Step) :
      Keeps inv (change fun fs => (fs.ensureDirectory steps).mapError .io) :=
    keeps_change (fun hfs hensure => h hfs (mapError_eq_ok.1 hensure)) fun _ _ =>
      exists_fault_of_mapError
  induction steps with
  | nil => exact hensure []
  | cons step above ih =>
    refine keeps_get_bind fun fs hfs => ?_
    dsimp only
    split
    · exact keeps_set (h hfs ‹_›)
    · exact ih.bind fun _ => hensure _
    · exact keeps_throw _

theorem keeps_makeDirectories
    (h : ∀ {fs fs' steps}, inv fs → fs.ensureDirectory steps = .ok fs' → inv fs') (path : Path) :
    Keeps inv (makeDirectories path) := by
  rw [makeDirectories]
  split
  · exact keeps_ensureUpward h _
  · exact keeps_throw _

/-- An invariant that every single change of a tree keeps. -/
structure Closed (inv : Files → Prop) : Prop where
  drop : ∀ {fs} loc, inv fs → inv (fs.drop loc)
  clear : ∀ {fs} loc, inv fs → inv (fs.clear loc)
  write : ∀ {fs fs' path data}, inv fs → fs.write path data = .ok fs' → inv fs'
  ensureDirectory : ∀ {fs fs' steps}, inv fs → fs.ensureDirectory steps = .ok fs' → inv fs'

namespace Closed

variable (h : Closed inv)
include h

theorem keeps_write (path : Path) (data : Bytes) :
    Keeps inv (change fun fs => fs.write path data) := by
  refine keeps_change h.write fun fs e he => ?_
  rw [Files.write] at he
  cases htarget : fs.writeTarget path with
  | ok loc =>
    rw [htarget] at he
    cases he
  | error fault =>
    rw [htarget] at he
    cases he
    exact ⟨fault, rfl⟩

theorem keeps_removeDirectory (path : Path) : Keeps inv (removeDirectory path) := by
  refine keeps_get_bind fun fs hfs => ?_
  split
  · exact keeps_throw _
  · exact keeps_throw _
  · refine (keeps_set (h.clear _ hfs)).bind fun _ => ?_
    split
    · split
      · exact keeps_throw _
      · exact keeps_set (h.drop _ (h.clear _ hfs))
    · exact keeps_pure _

theorem keeps_remove (path : Path) : Keeps inv (remove path) := by
  refine keeps_get_bind fun fs hfs => ?_
  split
  · exact h.keeps_removeDirectory path
  · exact keeps_set (h.drop _ hfs)
  · exact keeps_pure _
  · exact keeps_throw _

theorem keeps_writeChunks (dir : Path) (i : Nat) (chunks : List Chunk) :
    Keeps inv (SparseFrame.writeChunks dir i chunks) := by
  induction chunks generalizing i with
  | nil => exact keeps_pure _
  | cons c rest ih => exact (h.keeps_write _ _).bind fun _ => ih (i + 1)

theorem keeps_writeAll (dir : Path) (header : Bytes) (chunks : List Chunk) :
    Keeps inv (SparseFrame.writeAll dir header chunks) := by
  have hrest : Keeps inv (do
      makeDirectories (SparseFrame.chunksPath dir)
      change fun fs => fs.write (SparseFrame.headerPath dir) header
      SparseFrame.writeChunks dir 0 chunks
      pure (header.size + (chunks.map Chunk.cbytes).sum)) :=
    (keeps_makeDirectories h.ensureDirectory _).bind fun _ => (h.keeps_write _ _).bind fun _ =>
      (h.keeps_writeChunks dir 0 chunks).bind fun _ => keeps_pure _
  refine keeps_get_bind fun fs _ => ?_
  split
  · exact (h.keeps_removeDirectory _).bind fun _ => hrest
  · exact hrest

end Closed

end Invariants

/-! ## Faults -/

/-- An action on a tree that fails with faults of the file system only. -/
def FaultsOnly (act : FilesM α) : Prop :=
  ∀ fs e, (Action.run act fs).1 = .error e → ∃ fault, e = .io fault

theorem Keeps.faultsOnly {act : FilesM α} (h : Keeps (fun _ => True) act) : FaultsOnly act :=
  fun fs e he => (h fs trivial).2.2 e he

theorem closed_true : Closed fun _ => True :=
  ⟨fun _ _ => trivial, fun _ _ => trivial, fun _ _ => trivial, fun _ _ => trivial⟩

theorem faultsOnly_remove (path : Path) : FaultsOnly (remove path) :=
  (closed_true.keeps_remove path).faultsOnly

theorem faultsOnly_writeAll (dir : Path) (header : Bytes) (chunks : List Chunk) :
    FaultsOnly (SparseFrame.writeAll dir header chunks) :=
  (closed_true.keeps_writeAll dir header chunks).faultsOnly

/-- A file takes the place of what was removed, and its size is given. -/
theorem faultsOnly_replace (path : Path) (data : Bytes) : FaultsOnly (do
    remove path
    change fun fs => fs.write path data
    pure data.size) :=
  ((closed_true.keeps_remove path).bind fun _ => (closed_true.keeps_write path data).bind fun _ =>
    keeps_pure data.size).faultsOnly

/-! ## Removals -/

variable {path : Path}

/-- A removal of a directory that succeeds has emptied it, and has removed it as well unless the path
led by it. -/
theorem run_removeDirectory_eq_ok (h : Action.run (removeDirectory path) fs = (.ok (), fs')) :
    ∃ loc, fs.locate path = .ok (loc, .directory) ∧
      (fs' = (fs.clear loc).drop loc ∨ fs' = fs.clear loc ∧ (fs.clear loc).exists? path = false) := by
  rw [removeDirectory, Action.run_bind_of_ok (Action.run_get fs)] at h
  split at h
  · cases h
  · cases h
  · rename_i loc hlocate
    refine ⟨loc, hlocate, ?_⟩
    rw [Action.run_bind_of_ok (Action.run_set fs (fs.clear loc))] at h
    by_cases hexists : (fs.clear loc).exists? path = true
    · rw [if_pos hexists] at h
      split at h
      · cases h
      · exact .inl (Prod.mk.inj h).2.symm
    · rw [if_neg hexists] at h
      exact .inr ⟨(Prod.mk.inj h).2.symm, by simpa using hexists⟩

/-- A removal that succeeds has dropped a file, has removed a directory or found nothing. -/
theorem run_remove_eq_ok (h : Action.run (remove path) fs = (.ok (), fs')) :
    (∃ loc data, fs.locate path = .ok (loc, .file data) ∧ fs' = fs.drop loc) ∨
      Action.run (removeDirectory path) fs = (.ok (), fs') ∨
      fs.locate path = .error .notFound ∧ fs' = fs := by
  rw [remove, Action.run_bind_of_ok (Action.run_get fs)] at h
  split at h
  · exact .inr (.inl h)
  · exact .inl ⟨_, _, ‹_›, (Prod.mk.inj h).2.symm⟩
  · exact .inr (.inr ⟨‹_›, (Prod.mk.inj h).2.symm⟩)
  · cases h

/-- A removal that succeeds and changes nothing found nothing. -/
theorem locate_of_run_remove (h : Action.run (remove path) fs = (.ok (), fs)) :
    fs.locate path = .error .notFound := by
  obtain ⟨loc, data, hlocate, hsame⟩ | h | ⟨habsent, -⟩ := run_remove_eq_ok h
  · have hnode := node?_of_locate hlocate
    rw [hsame, node?_drop_self] at hnode
    cases hnode
  · obtain ⟨loc, hlocate, hsame | ⟨hsame, hexists⟩⟩ := run_removeDirectory_eq_ok h
    · have hnode := node?_of_locate hlocate
      rw [hsame, node?_drop_self] at hnode
      cases hnode
    · rw [← hsame, exists?, hlocate] at hexists
      cases hexists
  · exact habsent

end Files

end ChunkedArray
