import Mathlib.Data.List.Induction
import ChunkedArray.Proofs.Files.Follow

/-!
# Trees and their files

What is not the root of a tree stands in a directory, so there is nothing below what is missing. The files
of a tree are those at a location and below it, and those elsewhere. Where steps lead is a matter of the
steps alone, and whether anything stands there is one of the tree: a path that leads to nothing comes by a
place where nothing stands, unless it steps up again behind it.
-/

namespace ChunkedArray

/-- The content of a file. -/
def Node.content? : Node → Option Bytes
  | .file data => some data
  | .directory => none

namespace Files

open ChunkedArray.Path (Step)

variable {fs fs' : Files} {loc : Location} {path : Path}

/-! ## Nodes -/

theorem lookup_restrict (keep : Location → Bool) (nodes : List (Location × Node)) (loc : Location) :
    (nodes.filter fun n => keep n.1).lookup loc = if keep loc then nodes.lookup loc else none := by
  induction nodes with
  | nil => simp
  | cons entry rest ih =>
    obtain ⟨place, node⟩ := entry
    by_cases hsame : loc = place
    · subst hsame
      by_cases hkeep : keep loc
      · simp [List.filter_cons_of_pos, hkeep]
      · rw [List.filter_cons_of_neg (by simpa using hkeep), ih, if_neg hkeep, if_neg hkeep]
    · have hother : (loc == place) = false := by simpa using hsame
      rw [List.lookup_cons, hother, ← ih, List.filter_cons]
      split
      · rw [List.lookup_cons, hother]
      · rfl

theorem isSome_node?_iff : (fs.node? loc).isSome ↔ ∃ node, (loc, node) ∈ fs.nodes := by
  rw [Option.isSome_iff_ne_none, node?, Ne, List.lookup_eq_none_iff]
  simp

/-- The tree with the nodes at certain locations only. -/
def restrict (fs : Files) (keep : Location → Bool) : Files :=
  { fs with nodes := fs.nodes.filter fun n => keep n.1 }

theorem node?_restrict (fs : Files) (keep : Location → Bool) (loc : Location) :
    (fs.restrict keep).node? loc = if keep loc then fs.node? loc else none :=
  lookup_restrict keep fs.nodes loc

/-! ## Files -/

/-- All files of a tree with their contents. -/
def contents (fs : Files) : List (Location × Bytes) :=
  fs.nodes.filterMap fun n => n.2.content?.map (n.1, ·)

/-- The files at a location and below it. -/
def under (fs : Files) (loc : Location) : List (Location × Bytes) :=
  fs.contents.filter fun f => loc.isPrefixOf f.1

/-- The files elsewhere. -/
def outside (fs : Files) (loc : Location) : List (Location × Bytes) :=
  fs.contents.filter fun f => !loc.isPrefixOf f.1

theorem mem_contents {f : Location × Bytes} : f ∈ fs.contents ↔ (f.1, .file f.2) ∈ fs.nodes := by
  rw [contents, List.mem_filterMap]
  constructor
  · rintro ⟨⟨place, node⟩, hmem, hsome⟩
    cases node with
    | file data =>
      cases hsome
      exact hmem
    | directory => cases hsome
  · intro hmem
    exact ⟨_, hmem, rfl⟩

theorem not_isPrefixOf_iff {place : Location} : (!loc.isPrefixOf place) = true ↔ ¬ loc <+: place := by
  rw [Bool.not_eq_true', ← Bool.not_eq_true, List.isPrefixOf_iff_prefix]

theorem mem_outside {f : Location × Bytes} : f ∈ fs.outside loc ↔ f ∈ fs.contents ∧ ¬ loc <+: f.1 := by
  rw [outside, List.mem_filter, not_isPrefixOf_iff]

/-- All files are elsewhere if none is at the location or below it. -/
theorem outside_eq_contents_iff : fs.outside loc = fs.contents ↔ ∀ f ∈ fs.contents, ¬ loc <+: f.1 := by
  rw [outside, List.filter_eq_self]
  exact forall₂_congr fun f _ => not_isPrefixOf_iff

/-- What was added at a location and below it, with nothing else there, is what there is. -/
theorem under_of_contents {added : List (Location × Bytes)}
    (h : fs'.contents = fs.outside loc ++ added.map fun f => (loc ++ f.1, f.2)) :
    fs'.under loc = (added.map fun f => (loc ++ f.1, f.2)) ∧ fs'.outside loc = fs.outside loc := by
  have hbelow (f : Location × Bytes) : loc.isPrefixOf (loc ++ f.1) = true :=
    List.isPrefixOf_iff_prefix.2 (List.prefix_append ..)
  constructor
  · rw [under, h, List.filter_append, outside, List.filter_filter]
    simp [hbelow, List.filter_map, Function.comp_def]
  · rw [outside, h, List.filter_append, outside, List.filter_filter]
    simp [hbelow, List.filter_map, Function.comp_def]

theorem contents_restrict (fs : Files) (keep : Location → Bool) :
    (fs.restrict keep).contents = fs.contents.filter fun f => keep f.1 := by
  rw [contents, contents, restrict, List.filterMap_filter, List.filter_filterMap]
  refine List.filterMap_congr fun n _ => ?_
  obtain ⟨place, node⟩ := n
  cases node with
  | file data => simp [Node.content?, Option.filter]
  | directory => simp [Node.content?]

theorem contents_drop (fs : Files) (loc : Location) : (fs.drop loc).contents = fs.outside loc :=
  contents_restrict fs fun place => !loc.isPrefixOf place

/-- A directory in a free place is no file. -/
theorem contents_put_directory (h : fs.node? loc = none) :
    (fs.put loc .directory).contents = fs.contents := by
  have hkept : fs.nodes.filter (·.1 != loc) = fs.nodes := by
    rw [List.filter_eq_self]
    intro n hn
    have hne : loc ≠ n.1 := by simpa using List.lookup_eq_none_iff.1 h n hn
    simpa using hne.symm
  rw [contents, put, hkept, List.filterMap_append]
  simp [Node.content?, contents]

/-- A file where there was none is one more file. -/
theorem contents_put_file (h : ∀ f ∈ fs.contents, f.1 ≠ loc) (data : Bytes) :
    (fs.put loc (.file data)).contents = fs.contents ++ [(loc, data)] := by
  have hothers := contents_restrict fs (· != loc)
  rw [List.filter_eq_self.2 fun f hf => by simpa using h f hf] at hothers
  rw [contents, put, List.filterMap_append, ← hothers]
  rfl

/-! ## Trees -/

/-- No location occurs twice, and what is not the root stands in a directory. -/
structure IsTree (fs : Files) : Prop where
  nodup : (fs.nodes.map Prod.fst).Nodup
  parent : ∀ dir name, (fs.node? (dir ++ [name])).isSome → fs.node? dir = some .directory

/-- It is enough to look at the nodes that are there. -/
theorem isTree_iff : fs.IsTree ↔ (fs.nodes.map Prod.fst).Nodup ∧
    ∀ n ∈ fs.nodes, n.1 ≠ [] → fs.node? n.1.dropLast = some .directory := by
  constructor
  · intro h
    refine ⟨h.nodup, fun n hn hne => h.parent _ (n.1.getLast hne) ?_⟩
    rw [List.dropLast_append_getLast, isSome_node?_iff]
    exact ⟨n.2, hn⟩
  · rintro ⟨hnodup, hparent⟩
    refine ⟨hnodup, fun dir name hsome => ?_⟩
    obtain ⟨node, hmem⟩ := isSome_node?_iff.1 hsome
    have hdir := hparent _ hmem (by simp)
    rwa [List.dropLast_concat] at hdir

instance : Decidable fs.IsTree := decidable_of_iff _ isTree_iff.symm

namespace IsTree

variable (h : fs.IsTree)
include h

theorem node?_of_mem {node : Node} (hmem : (loc, node) ∈ fs.nodes) : fs.node? loc = some node := by
  obtain ⟨front, back, hnodes⟩ := List.append_of_mem hmem
  refine List.lookup_eq_some_iff.2 ⟨front, back, hnodes, fun n hn => ?_⟩
  have hnodup := h.nodup
  rw [hnodes, List.map_append, List.map_cons, List.nodup_append] at hnodup
  have hne := hnodup.2.2 n.1 (List.mem_map_of_mem hn) loc List.mem_cons_self
  simpa using hne.symm

/-- Nothing stands below what is missing. -/
theorem node?_append_of_none (hnone : fs.node? loc = none) (below : Location) :
    fs.node? (loc ++ below) = none := by
  induction below using List.reverseRecOn with
  | nil => rwa [List.append_nil]
  | append_singleton below name ih =>
    rw [← List.append_assoc, ← Option.not_isSome_iff_eq_none]
    intro hsome
    rw [h.parent _ _ hsome] at ih
    cases ih

/-- So there is no file below it either. -/
theorem outside_of_none (hnone : fs.node? loc = none) {below : Location} (hbelow : loc <+: below) :
    fs.outside below = fs.contents := by
  rw [outside_eq_contents_iff]
  intro f hf hbeneath
  obtain ⟨rest, hrest⟩ := hbelow.trans hbeneath
  have hsome := isSome_node?_iff.2 ⟨_, mem_contents.1 hf⟩
  rw [← hrest, h.node?_append_of_none hnone] at hsome
  cases hsome

/-- A directory that is cleared had no file in its own place. -/
theorem contents_clear (hdir : fs.node? loc = some .directory) :
    (fs.clear loc).contents = fs.outside loc := by
  refine (contents_restrict fs fun place => place == loc || !loc.isPrefixOf place).trans ?_
  refine List.filter_congr fun f hf => ?_
  have hne : f.1 ≠ loc := by
    rintro rfl
    have hfile := h.node?_of_mem (mem_contents.1 hf)
    rw [hdir] at hfile
    cases hfile
  simp [hne]

theorem restrict {keep : Location → Bool}
    (hkeep : ∀ dir name, keep (dir ++ [name]) = true → keep dir = true) :
    (fs.restrict keep).IsTree := by
  refine ⟨?_, fun dir name hsome => ?_⟩
  · exact h.nodup.sublist (List.filter_sublist.map _)
  · rw [node?_restrict] at hsome ⊢
    split at hsome
    · rw [if_pos (hkeep dir name ‹_›)]
      exact h.parent dir name hsome
    · cases hsome

theorem drop (loc : Location) : (fs.drop loc).IsTree := by
  change (fs.restrict fun place => !loc.isPrefixOf place).IsTree
  refine h.restrict fun dir name hkeep => ?_
  rw [not_isPrefixOf_iff] at hkeep ⊢
  exact fun hbeneath => hkeep (hbeneath.trans (List.prefix_append ..))

theorem clear (loc : Location) : (fs.clear loc).IsTree := by
  change (fs.restrict fun place => place == loc || !loc.isPrefixOf place).IsTree
  refine h.restrict fun dir name hkeep => ?_
  rw [Bool.or_eq_true, beq_iff_eq, not_isPrefixOf_iff] at hkeep ⊢
  refine .inr fun hbeneath => ?_
  rcases hkeep with hsame | hother
  · have hlength := hbeneath.length_le
    rw [← hsame, List.length_append, List.length_singleton] at hlength
    omega
  · exact hother (hbeneath.trans (List.prefix_append ..))

/-- What is put into a directory, in a place of no directory. -/
theorem put (hparent : ∀ dir name, loc = dir ++ [name] → fs.node? dir = some .directory)
    (hfree : fs.node? loc ≠ some .directory) (node : Node) : (fs.put loc node).IsTree := by
  refine ⟨?_, fun dir name hsome => ?_⟩
  · rw [Files.put, List.map_append, List.nodup_append]
    refine ⟨h.nodup.sublist (List.filter_sublist.map _), List.pairwise_singleton _ _, ?_⟩
    simp
  · have hdir : fs.node? dir = some .directory := by
      by_cases hsame : dir ++ [name] = loc
      · exact hparent dir name hsame.symm
      · rw [node?_put_of_ne hsame] at hsome
        exact h.parent dir name hsome
    have hne : dir ≠ loc := by
      rintro rfl
      exact hfree hdir
    rwa [node?_put_of_ne hne]

end IsTree

/-! ## Places -/

/-- Where steps lead from a location, in whatever tree. -/
def place (start : Location) (steps : List Step) : Except IoFault Location :=
  steps.foldlM enter start

theorem place_append (start : Location) (front back : List Step) :
    place start (front ++ back) = place start front >>= fun middle => place middle back :=
  List.foldlM_append ..

theorem place_cons_eq_ok {start stop : Location} {step : Step} {rest : List Step} :
    place start (step :: rest) = .ok stop ↔
      ∃ next, enter start step = .ok next ∧ place next rest = .ok stop := by
  rw [place, List.foldlM_cons]
  exact bind_eq_ok

theorem enter_child_eq_ok {start next : Location} {name : String} :
    enter start (.child name) = .ok next ↔
      ¬ maxName < name.utf8ByteSize ∧ start ++ [name] = next := by
  rw [enter]
  by_cases hlong : maxName < name.utf8ByteSize <;> simp [hlong]

/-- A step down leads to a name in the place to which the steps in front of it lead. -/
theorem place_concat_child {front : List Step} {name : String} {start dir stop : Location}
    (hfront : place start front = .ok dir) (h : place start (front ++ [.child name]) = .ok stop) :
    stop = dir ++ [name] := by
  rw [place_append, hfront] at h
  obtain ⟨next, henter, hnext⟩ := place_cons_eq_ok.1 h
  cases hnext
  exact (enter_child_eq_ok.1 henter).2.symm

/-- Steps that lead to a node lead to its place. -/
theorem place_of_follow {steps : List Step} {start stop : Location} {node : Node}
    (h : fs.follow start steps = .ok (stop, node)) : place start steps = .ok stop := by
  induction steps generalizing start with
  | nil =>
    obtain ⟨rfl, -⟩ := follow_nil_eq_ok.1 h
    rfl
  | cons step rest ih =>
    obtain ⟨-, next, henter, hrest⟩ := follow_cons_eq_ok.1 h
    exact place_cons_eq_ok.2 ⟨next, henter, ih hrest⟩

/-- Those in front of them lead to a node as well, which is a directory if more steps follow. -/
theorem exists_follow_front {front back : List Step} {start : Location} {found : Location × Node}
    (h : fs.follow start (front ++ back) = .ok found) :
    ∃ middle node, fs.follow start front = .ok (middle, node) ∧ (back ≠ [] → node = .directory) := by
  induction front generalizing start with
  | nil =>
    cases back with
    | nil =>
      obtain ⟨stop, node⟩ := found
      exact ⟨stop, node, h, fun hne => absurd rfl hne⟩
    | cons step rest =>
      obtain ⟨hstart, -⟩ := follow_cons_eq_ok.1 h
      exact ⟨start, .directory, follow_nil_eq_ok.2 ⟨rfl, hstart⟩, fun _ => rfl⟩
  | cons step rest ih =>
    obtain ⟨hstart, next, henter, hrest⟩ := follow_cons_eq_ok.1 h
    obtain ⟨middle, node, hmiddle, hdir⟩ := ih hrest
    exact ⟨middle, node, follow_cons_eq_ok.2 ⟨hstart, next, henter, hmiddle⟩, hdir⟩

/-- The steps of a path, with the one that stays in place for a slash at its end. -/
theorem place_slash (path : Path) (start : Location) :
    place start (path.steps ++ if path.endsWithSlash then [.here] else []) =
      place start path.steps := by
  rw [place_append]
  cases place start path.steps with
  | error fault => rfl
  | ok stop => cases path.endsWithSlash <;> rfl

/-- Steps that lead to a directory lead to it with a slash behind them as well. -/
theorem locate_of_follow (hcheck : checkPath path = .ok ())
    (h : fs.follow [] path.steps = .ok (loc, .directory)) : fs.locate path = .ok (loc, .directory) := by
  have hdir := node?_of_follow h
  refine bind_eq_ok.2 ⟨(), hcheck, follow_append h ?_⟩
  split
  · exact follow_cons_eq_ok.2 ⟨hdir, loc, rfl, follow_nil_eq_ok.2 ⟨rfl, hdir⟩⟩
  · exact follow_nil_eq_ok.2 ⟨rfl, hdir⟩

theorem place_of_locate {node : Node} (h : fs.locate path = .ok (loc, node)) :
    place [] path.steps = .ok loc := by
  obtain ⟨_, -, h⟩ := bind_eq_ok.1 h
  rw [← place_slash]
  exact place_of_follow h

/-- Steps down and in place lead below where they start. -/
theorem prefix_of_place {steps : List Step} {start stop : Location} (hup : Step.up ∉ steps)
    (h : place start steps = .ok stop) : start <+: stop := by
  induction steps generalizing start with
  | nil =>
    cases h
    exact List.prefix_refl _
  | cons step rest ih =>
    obtain ⟨next, henter, h⟩ := place_cons_eq_ok.1 h
    refine List.IsPrefix.trans ?_ (ih (fun hmem => hup (List.mem_cons_of_mem _ hmem)) h)
    cases step with
    | here =>
      cases henter
      exact List.prefix_refl _
    | up => exact absurd List.mem_cons_self hup
    | child name =>
      obtain ⟨-, rfl⟩ := enter_child_eq_ok.1 henter
      exact List.prefix_append ..

theorem follow_of_enter {start next : Location} {step : Step} {rest : List Step}
    (hstart : fs.node? start = some .directory) (henter : enter start step = .ok next) :
    fs.follow start (step :: rest) = fs.follow next rest := by
  rw [follow.eq_def, hstart]
  cases step with
  | here =>
    cases henter
    rfl
  | up =>
    rw [enter] at henter
    split at henter
    · cases henter
    · cases henter
      exact if_neg ‹_›
  | child name =>
    obtain ⟨hname, rfl⟩ := enter_child_eq_ok.1 henter
    exact if_neg hname

/-- If steps lead to nothing, they come by a place where there is nothing. -/
theorem exists_missing {steps : List Step} {start stop : Location}
    (hplace : place start steps = .ok stop) (h : fs.follow start steps = .error .notFound) :
    ∃ front back middle, steps = front ++ back ∧ place start front = .ok middle ∧
      place middle back = .ok stop ∧ fs.node? middle = none := by
  -- On the steps: the walk goes on as long as it stands in a directory.
  induction steps generalizing start with
  | nil =>
    cases hstart : fs.node? start with
    | none => exact ⟨[], [], start, rfl, rfl, hplace, hstart⟩
    | some node =>
      rw [follow, hstart] at h
      cases h
  | cons step rest ih =>
    obtain ⟨next, henter, hrest⟩ := place_cons_eq_ok.1 hplace
    cases hstart : fs.node? start with
    | none => exact ⟨[], step :: rest, start, rfl, rfl, hplace, hstart⟩
    | some node =>
      cases node with
      | file data =>
        rw [follow.eq_def, hstart] at h
        cases h
      | directory =>
        rw [follow_of_enter hstart henter] at h
        obtain ⟨front, back, middle, rfl, hfront, hback, hnone⟩ := ih hrest h
        exact ⟨step :: front, back, middle, rfl, place_cons_eq_ok.2 ⟨next, henter, hfront⟩, hback, hnone⟩

/-- What is not found has a text that paths may have, and its steps lead to nothing. -/
theorem follow_of_notFound (h : fs.locate path = .error .notFound) :
    checkPath path = .ok () ∧
      fs.follow [] (path.steps ++ if path.endsWithSlash then [.here] else []) = .error .notFound := by
  rw [locate] at h
  cases hcheck : checkPath path with
  | ok _ =>
    rw [hcheck] at h
    exact ⟨rfl, h⟩
  | error fault =>
    rw [hcheck] at h
    cases h
    rw [checkPath] at hcheck
    split at hcheck
    · cases hcheck
    · split at hcheck <;> cases hcheck

/-- Every step up along a path is made from a directory that is there. -/
def Climbs (fs : Files) (path : Path) : Prop :=
  ∀ front, front ++ [.up] <+: path.steps → ∃ dir, fs.follow [] front = .ok (dir, .directory)

theorem climbs_of_notMem (h : Step.up ∉ path.steps) : fs.Climbs path := by
  intro front hfront
  exact absurd (hfront.subset (List.mem_append_right _ List.mem_cons_self)) h

/-- A path that leads to nothing has no files at its place or below it. -/
theorem IsTree.outside_of_notFound (htree : fs.IsTree) (hclimbs : fs.Climbs path)
    (hplace : place [] path.steps = .ok loc) (h : fs.locate path = .error .notFound) :
    fs.outside loc = fs.contents := by
  obtain ⟨-, hfollow⟩ := follow_of_notFound h
  rw [← place_slash] at hplace
  obtain ⟨front, back, middle, hsteps, hfront, hback, hnone⟩ := exists_missing hplace hfollow
  refine htree.outside_of_none hnone (prefix_of_place (fun hup => ?_) hback)
  -- A step up behind the missing place would be made from a directory, to which one gets by that place.
  obtain ⟨before, after, rfl⟩ := List.append_of_mem hup
  have hclimb : (front ++ before) ++ [.up] <+: path.steps := by
    have hall : (front ++ before) ++ [.up] <+:
        path.steps ++ if path.endsWithSlash then [.here] else [] := ⟨after, by simp [hsteps]⟩
    split at hall
    · rcases List.prefix_concat_iff.1 hall with hsame | hclimb
      · cases (List.append_inj' hsame rfl).2
      · exact hclimb
    · rwa [List.append_nil] at hall
  obtain ⟨dir, hdir⟩ := hclimbs _ hclimb
  obtain ⟨middle', node, hmiddle, -⟩ := exists_follow_front hdir
  obtain rfl := Except.ok.inj ((place_of_follow hmiddle).symm.trans hfront)
  rw [node?_of_follow hmiddle] at hnone
  cases hnone

end Files

end ChunkedArray
