import ChunkedArray.Proofs.Workspace

/-!
# Damaged arrays

An array whose chunks were replaced here and there is read like the array that it was, as long as no
selected element lies in a chunk that was replaced. What stands in the place of a chunk does not
matter: bytes that do not decode, a reserved slot, or a file that cannot be read any more.
-/

namespace ChunkedArray

open ChunkedArray.Action

namespace Geometry

variable {g : Geometry} {source source' : ChunkSource} {s s' : Store} {sel : Selection}
variable {part : Projection}

/-- Chunks are gathered alike from slots that answer alike where the selection hits them. -/
theorem outcome_gatherChunks_congr (out : Bytes) {chunks : List Nat}
    (h : ∀ i ∈ chunks, sel.hits (g.grid.chunkBox i) ≠ none →
      s'.fetch source' i = s.fetch source i) :
    outcome (gatherChunks g source' sel part out chunks) s' =
      outcome (gatherChunks g source sel part out chunks) s := by
  induction chunks generalizing out with
  | nil => rfl
  | cons i rest ih =>
    obtain ⟨hfirst, hrest⟩ := List.forall_mem_cons.1 h
    cases hhits : sel.hits (g.grid.chunkBox i) with
    | none =>
      rw [gatherChunks_cons, gatherChunks_cons, hhits]
      exact ih out hrest
    | some hits =>
      have hfetch : s'.fetch source' i = s.fetch source i :=
        hfirst (by rw [hhits]; exact Option.some_ne_none hits)
      rw [outcome_gatherChunks_hit out rest hhits, outcome_gatherChunks_hit out rest hhits,
        Store.getRange, Store.getRange, Store.outcome_readWith, Store.outcome_readWith, hfetch]
      congr 1
      funext data
      rw [ih _ hrest]

/-- A selection is read alike from slots that answer alike where they hold a selected element. -/
theorem outcome_readParts_congr (hg : g.Regular) (hsel : sel.Fits g.shape)
    (h : ∀ i < g.nchunks, ∀ q, sel.shape.Holds q → (g.grid.chunkBox i).Holds (sel.position q) →
      s'.fetch source' i = s.fetch source i) :
    outcome (readParts g source' sel part) s' = outcome (readParts g source sel part) s := by
  rw [readParts, readParts]
  split
  · rfl
  · split
    · rfl
    · rename_i hempty
      apply outcome_gatherChunks_congr
      intro i hi hhits
      have hlt := lt_of_mem_intersecting hg hsel (Selection.size_pos_iff.2 hempty) hi
      obtain ⟨hits, hhits⟩ := Option.ne_none_iff_exists'.1 hhits
      obtain ⟨q, hq, hbox⟩ :=
        Selection.exists_of_hits_eq_some (length_chunkBox hg hsel hlt).1 hhits
      exact h i hlt q hq hbox

end Geometry

namespace NDArray

/-- An array and what became of it: every chunk that holds a needed element answers as it did, each
read from its own files; all other chunks may answer anything. -/
structure SameOn (needed : List Nat → Prop) (fs fs' : Files) (a a' : NDArray) : Prop where
  geometry : a'.geometry = a.geometry
  regular : a.geometry.Regular
  codec : a'.store.codec = a.store.codec
  revision : a'.store.revision = a.store.revision
  fetch : ∀ i < a.geometry.nchunks, ∀ c, needed c → (a.geometry.grid.chunkBox i).Holds c →
    a'.store.fetch (a'.store.chunkSource fs') i = a.store.fetch (a.store.chunkSource fs) i

variable {needed : List Nat → Prop} {fs fs' : Files} {a a' : NDArray}

/-- Fetching chunks of either array changes nothing about it. -/
theorem SameOn.alike (h : SameOn needed fs fs' a a') {b b' : NDArray} (hb : Alike fs a b)
    (hb' : Alike fs' a' b') : SameOn needed fs fs' b b' := by
  constructor
  · rw [hb'.geometry, hb.geometry, h.geometry]
  · rw [hb.geometry]
    exact h.regular
  · rw [hb'.store.codec, hb.store.codec, h.codec]
  · rw [hb'.store.revision, hb.store.revision, h.revision]
  · rw [hb.geometry]
    intro i hi c hc hbox
    rw [hb'.store.chunkSource, hb.store.chunkSource, hb'.store.fetch, hb.store.fetch]
    exact h.fetch i hi c hc hbox

/-- A selection of needed elements is read alike. -/
theorem SameOn.outcome_readParts (h : SameOn needed fs fs' a a') {sel : Selection}
    (hsel : sel.Fits a.shape) (hneeded : ∀ q, sel.shape.Holds q → needed (sel.position q))
    (part : Projection) :
    outcome (a'.geometry.readParts (a'.store.chunkSource fs') sel part) a'.store =
      outcome (a.geometry.readParts (a.store.chunkSource fs) sel part) a.store := by
  rw [h.geometry]
  apply Geometry.outcome_readParts_congr h.regular hsel
  intro i hi q hq hbox
  exact h.fetch i hi _ (hneeded q hq) hbox

/-- A region is read alike, bytes or error, whatever became of the chunks without a selected
element. -/
theorem SameOn.readRegion {region : Region}
    (h : SameOn (fun c => ∃ sel, region.resolve a.shape = .ok sel ∧ c ∈ sel.coords) fs fs' a a') :
    (a'.readRegion fs' region).1 = (a.readRegion fs region).1 := by
  change outcome (a'.geometry.readRegion (a'.store.chunkSource fs') region) a'.store =
    outcome (a.geometry.readRegion (a.store.chunkSource fs) region) a.store
  rw [Geometry.outcome_readRegion, Geometry.outcome_readRegion, h.geometry]
  cases hsel : region.resolve a.geometry.shape with
  | error e => rfl
  | ok sel =>
    have hparts := h.outcome_readParts (Region.fits_of_resolveWith hsel)
      (fun q hq => ⟨sel, hsel, Selection.mem_coords.2 ⟨q, hq, rfl⟩⟩) a.geometry.wholeItem
    rw [h.geometry] at hparts
    change (outcome _ _ >>= _) = (outcome _ _ >>= _)
    rw [hparts]

/-- An array with anything in the place of one slot. -/
def withSlot (a : NDArray) (i : Nat) (slot : Slot) : NDArray :=
  let slots := a.store.table.slots.setIfInBounds i slot
  { a with store := { a.store with table := { a.store.table with slots } } }

/-- To replace the slot of a chunk without a needed element leaves the array the same. -/
theorem sameOn_withSlot (hg : a.geometry.Regular) {i : Nat} (slot : Slot) (fs : Files)
    (h : ∀ c, needed c → ¬ Box.Holds (a.geometry.grid.chunkBox i) c) :
    SameOn needed fs fs a (a.withSlot i slot) := by
  refine ⟨rfl, hg, rfl, rfl, fun j _ c hc hbox => ?_⟩
  have hne : i ≠ j := by
    rintro rfl
    exact h c hc hbox
  have hslot : (a.withSlot i slot).store.table.slots[j]? = a.store.table.slots[j]? :=
    Array.getElem?_setIfInBounds_ne hne
  have hcount : (a.withSlot i slot).store.nchunks = a.store.nchunks := Array.size_setIfInBounds
  rw [Store.fetch, Store.fetch, hslot, hcount]
  rfl

end NDArray

end ChunkedArray
