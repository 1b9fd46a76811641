import ChunkedArray.Files
import ChunkedArray.Proofs.Action

/-!
# Paths through trees

Steps are followed from directory to directory, and where each of them leads does not depend on the
tree. So a file that is put where no directory was leads no path elsewhere that ends at another node.
-/

namespace ChunkedArray

namespace Files

open ChunkedArray.Path (Step)

variable {fs : Files}

/-! ## Nodes -/

/-- A node that is put at a place is found nowhere else. -/
theorem lookup_replaced {loc other : Location} (hne : other ≠ loc) (node : Node)
    (nodes : List (Location × Node)) :
    (nodes.filter (·.1 != loc) ++ [(loc, node)]).lookup other = nodes.lookup other := by
  induction nodes with
  | nil =>
    have hother : (other == loc) = false := by simpa using hne
    simp [List.lookup_cons, hother]
  | cons entry rest ih =>
    obtain ⟨place, content⟩ := entry
    by_cases hplace : place = loc
    · have hother : (other == place) = false := by simpa [hplace] using hne
      simp only [hplace, bne_self_eq_false, Bool.false_eq_true, not_false_eq_true,
        List.filter_cons_of_neg, List.lookup_cons]
      rw [ih, ← hplace, hother]
    · rw [List.filter_cons_of_pos (by simpa using hplace), List.cons_append, List.lookup_cons,
        List.lookup_cons, ih]

theorem node?_put_of_ne {loc other : Location} (hne : other ≠ loc) (node : Node) :
    (fs.put loc node).node? other = fs.node? other :=
  lookup_replaced hne node fs.nodes

theorem node?_drop_self (fs : Files) (loc : Location) : (fs.drop loc).node? loc = none := by
  rw [node?, drop, List.lookup_eq_none_iff]
  intro entry hentry
  have hkept := (List.mem_filter.1 hentry).2
  have hne : loc ≠ entry.1 := by
    rintro rfl
    rw [List.isPrefixOf_iff_prefix.2 (List.prefix_refl _)] at hkept
    cases hkept
  simpa using hne

/-! ## Steps -/

/-- Where a step leads from a directory. -/
def enter (start : Location) : Step → Except IoFault Location
  | .here => .ok start
  | .up => if start.isEmpty then .error .notFound else .ok start.dropLast
  | .child name => if maxName < name.utf8ByteSize then .error .nameTooLong else .ok (start ++ [name])

theorem follow_nil_eq_ok {start stop : Location} {node : Node} :
    fs.follow start [] = .ok (stop, node) ↔ start = stop ∧ fs.node? start = some node := by
  rw [follow]
  cases fs.node? start <;> simp

/-- Steps are followed from a directory, one after the other. -/
theorem follow_cons_eq_ok {start : Location} {step : Step} {rest : List Step}
    {found : Location × Node} :
    fs.follow start (step :: rest) = .ok found ↔
      fs.node? start = some .directory ∧
        ∃ next, enter start step = .ok next ∧ fs.follow next rest = .ok found := by
  rw [follow.eq_def]
  cases fs.node? start with
  | none => simp
  | some node =>
    cases node with
    | file data => simp
    | directory =>
      cases step with
      | here => simp [enter]
      | up => by_cases hroot : start.isEmpty <;> simp [enter, hroot]
      | child name => by_cases hlong : maxName < name.utf8ByteSize <;> simp [enter, hlong]

/-- What steps lead to is in the tree. -/
theorem node?_of_follow {steps : List Step} {start stop : Location} {node : Node}
    (h : fs.follow start steps = .ok (stop, node)) : fs.node? stop = some node := by
  induction steps generalizing start with
  | nil =>
    obtain ⟨rfl, hnode⟩ := follow_nil_eq_ok.1 h
    exact hnode
  | cons step rest ih =>
    obtain ⟨-, next, -, hrest⟩ := follow_cons_eq_ok.1 h
    exact ih hrest

theorem node?_of_locate {path : Path} {loc : Location} {node : Node}
    (h : fs.locate path = .ok (loc, node)) : fs.node? loc = some node := by
  obtain ⟨_, -, h⟩ := bind_eq_ok.1 h
  exact node?_of_follow h

/-- Steps that end elsewhere are not led astray by a file where there was no directory before. -/
theorem follow_put_file {loc : Location} (hloc : fs.node? loc ≠ some .directory) (data : Bytes)
    {steps : List Step} {start stop : Location} {node : Node}
    (h : fs.follow start steps = .ok (stop, node)) (hne : stop ≠ loc) :
    (fs.put loc (.file data)).follow start steps = .ok (stop, node) := by
  induction steps generalizing start with
  | nil =>
    obtain ⟨rfl, hnode⟩ := follow_nil_eq_ok.1 h
    exact follow_nil_eq_ok.2 ⟨rfl, by rwa [node?_put_of_ne hne]⟩
  | cons step rest ih =>
    obtain ⟨hstart, next, henter, hrest⟩ := follow_cons_eq_ok.1 h
    have helsewhere : start ≠ loc := by
      rintro rfl
      exact hloc hstart
    exact follow_cons_eq_ok.2 ⟨by rwa [node?_put_of_ne helsewhere], next, henter, ih hrest⟩

/-- Steps are followed on from the directory to which those in front of them lead. -/
theorem follow_append {front back : List Step} {start middle : Location} {found : Location × Node}
    (hfront : fs.follow start front = .ok (middle, .directory))
    (hback : fs.follow middle back = .ok found) : fs.follow start (front ++ back) = .ok found := by
  induction front generalizing start with
  | nil =>
    obtain ⟨rfl, -⟩ := follow_nil_eq_ok.1 hfront
    exact hback
  | cons step rest ih =>
    obtain ⟨hstart, next, henter, hrest⟩ := follow_cons_eq_ok.1 hfront
    exact follow_cons_eq_ok.2 ⟨hstart, next, henter, ih hrest⟩

end Files

end ChunkedArray
