import ChunkedArray.Proofs.Guarded.Frame
import ChunkedArray.Proofs.Store.Starts

/-!
# Reading stores under guards

A store whose chunks were checked is read by chunk and by byte range without an access outside of a
chunk or of the table of offsets. A read by byte range starts in the last slot that does not start
behind it, and while bytes are missing, the slot it looks at starts at or before the next byte of the
range; so it never looks behind the last slot.
-/

namespace ChunkedArray.Guarded

/-- An action on a store under guards. -/
abbrev StoreAction (α : Type) := ExceptT Error (StateT Store Option) α

namespace StoreAction

variable {α β : Type}

/-- Runs an action: nothing if a guard fails, and otherwise its outcome and the store behind it. -/
def run (act : StoreAction α) (s : Store) : Option (Result α × Store) :=
  StateT.run (ExceptT.run act) s

/-- A guarded computation that does not look at the store. -/
def lift (x : Guarded α) : StoreAction α :=
  ExceptT.mk fun s => x.run.map fun r => (r, s)

theorem run_lift_ofResult (r : Result α) (s : Store) : run (lift (ofResult r)) s = some (r, s) := rfl

theorem run_lift_pure (a : α) (s : Store) : run (lift (pure a)) s = some (.ok a, s) := rfl

theorem run_get_bind (f : Store → StoreAction β) (s : Store) : run (get >>= f) s = run (f s) s := rfl

theorem run_bind (x : StoreAction α) (f : α → StoreAction β) (s : Store) :
    run (x >>= f) s = (run x s).bind fun p =>
      match p.1 with
      | .ok a => run (f a) p.2
      | .error e => some (.error e, p.2) := by
  change run (ExceptT.bind x f) s = _
  simp only [run, ExceptT.run, ExceptT.bind, ExceptT.mk, StateT.run_bind]
  refine Option.bind_congr fun p _ => ?_
  obtain ⟨r, s'⟩ := p
  cases r <;> rfl

/-- With an invariant of the store, an action under guards does what the action without them does,
keeps the invariant, and gives values that satisfy `post`. -/
def Agrees (inv : Store → Prop) (x : StoreAction α) (act : StoreM α) (post : α → Prop) : Prop :=
  ∀ s, inv s → run x s = some (Action.run act s) ∧ inv (Action.run act s).2 ∧
    ∀ a, (Action.run act s).1 = .ok a → post a

variable {inv : Store → Prop} {x : StoreAction α} {act : StoreM α} {post : α → Prop}

theorem Agrees.run_eq (h : Agrees inv x act post) {s : Store} (hs : inv s) :
    run x s = some (s.run act) :=
  (h s hs).1

theorem Agrees.pure {a : α} (h : post a) : Agrees inv (pure a) (pure a) post :=
  fun _ hs => ⟨rfl, hs, fun _ ha => by cases ha; exact h⟩

theorem Agrees.throw (e : Error) : Agrees inv (throw e) (throw e) post :=
  fun _ hs => ⟨rfl, hs, fun _ ha => by cases ha⟩

theorem Agrees.get : Agrees inv get get inv :=
  fun _ hs => ⟨rfl, hs, fun _ ha => by cases ha; exact hs⟩

theorem Agrees.modify {f : Store → Store} (h : ∀ s, inv s → inv (f s)) :
    Agrees inv (modify f) (modify f) fun _ => True :=
  fun s hs => ⟨rfl, h s hs, fun _ _ => trivial⟩

theorem agrees_lift {y : Guarded α} {r : Result α} (hy : y = ofResult r)
    (h : ∀ a, r = .ok a → post a) : Agrees inv (lift y) (liftM (n := StoreM) r) post := by
  subst hy
  intro s hs
  rw [Action.run_liftM]
  exact ⟨rfl, hs, h⟩

/-- Steps that agree, one after the other. -/
theorem Agrees.bind {post' : β → Prop} {f : α → StoreAction β} {g : α → StoreM β}
    (h : Agrees inv x act post) (hnext : ∀ a, post a → Agrees inv (f a) (g a) post') :
    Agrees inv (x >>= f) (act >>= g) post' := by
  intro s hs
  obtain ⟨hrun, hinv, hpost⟩ := h s hs
  rw [run_bind, hrun, Action.run_bind]
  generalize Action.run act s = p at hinv hpost
  obtain ⟨r, s'⟩ := p
  cases r with
  | error e => exact ⟨rfl, hinv, fun _ ha => by cases ha⟩
  | ok a => exact hnext a (hpost a rfl) s' hinv

/-- A guarded step that gives a value goes on as what follows it. -/
theorem agrees_bind_of_pure {post' : β → Prop} {y : Guarded α} {a : α} {f : α → StoreAction β}
    {act' : StoreM β} (hy : y = Pure.pure a) (h : Agrees inv (f a) act' post') :
    Agrees inv (lift y >>= f) act' post' := by
  intro s hs
  rw [run_bind, hy, run_lift_pure]
  exact h s hs

theorem Agrees.ite {c : Prop} [Decidable c] {x' : StoreAction α} {act' : StoreM α}
    (h : c → Agrees inv x act post) (h' : ¬ c → Agrees inv x' act' post) :
    Agrees inv (if c then x else x') (if c then act else act') post := by
  split
  · exact h ‹_›
  · exact h' ‹_›

end StoreAction

open StoreAction

/-! ## Chunks -/

/-- Renames an error for the store. -/
def atChunk {α : Type} (i : Nat) (x : Guarded α) : Guarded α :=
  ExceptT.mk (x.run.map fun r => r.mapError (Error.atChunk i))

theorem atChunk_ofResult {α : Type} (i : Nat) (r : Result α) :
    atChunk i (ofResult r) = ofResult (r.mapError (Error.atChunk i)) := rfl

/-- The chunk of a slot; a pending one is fetched and put into its slot. -/
def chunk (source : ChunkSource) (i : Nat) : StoreAction Chunk := do
  let s ← get
  match s.table.slots[i]? with
  | none => throw (.index (.chunk i s.nchunks))
  | some .reserved => throw (.index (.reserved i))
  | some (.loaded chunk) => pure chunk
  | some (.pending nbytes _) =>
    let chunk ← lift (atChunk i (ofResult (source i)))
    if chunk.nbytes = nbytes then
      lift (require (i < s.table.slots.size))
      modify fun s => { s with table := s.table.fill i chunk }
      pure chunk
    else throw (.format (.lateChunk i chunk.nbytes nbytes))

theorem run_chunk_eq (source : ChunkSource) (i : Nat) (s : Store) :
    run (chunk source i) s = some (Action.run (Store.chunk source i) s) := by
  rw [chunk, run_get_bind, Store.chunk, Action.run_bind_of_ok (Action.run_get s)]
  cases hslot : s.table.slots[i]? with
  | none => rfl
  | some slot =>
    cases slot with
    | reserved => rfl
    | loaded c => rfl
    | pending nbytes cbytes =>
      obtain ⟨hi, -⟩ := Array.getElem?_eq_some_iff.1 hslot
      simp only [atChunk_ofResult, run_bind, Action.run_bind, run_lift_ofResult, Action.run_liftM,
        Option.bind_some]
      cases (source i).mapError (Error.atChunk i) with
      | error e => rfl
      | ok c =>
        dsimp only
        split
        · rw [run_bind, require_of hi]
          rfl
        · rfl

section Chunk

variable {source : ChunkSource} {inv : Store → Prop} {P : Chunk → Prop}

/-- An invariant that fetching leaves alone is kept when a chunk is taken from its slot. -/
theorem agrees_chunk_of_level (hlevel : ∀ s s', inv s → Store.Level source s s' → inv s') {i : Nat}
    (hfetch : ∀ s c, inv s → s.fetch source i = .ok c → P c) :
    Agrees inv (chunk source i) (Store.chunk source i) P := by
  intro s hs
  refine ⟨run_chunk_eq source i s, hlevel _ _ hs (Store.level_run_chunk source i s),
    fun c hc => hfetch s c hs ?_⟩
  rw [← Store.outcome_chunk]
  exact hc

/-- A chunk is taken from its slot as it would have been at the start. -/
theorem agrees_chunk (source : ChunkSource) (s₀ : Store) (i : Nat) :
    Agrees (Store.Level source s₀) (chunk source i) (Store.chunk source i)
      fun c => s₀.fetch source i = .ok c :=
  agrees_chunk_of_level (fun _ _ h h' => h.trans h') fun _ _ hs hc => hs.fetch i ▸ hc

end Chunk

/-- The outcome of reading a chunk, with errors naming the slot. -/
def readWith (source : ChunkSource) (i : Nat) (read : Chunk → Guarded Bytes) :
    StoreAction Bytes := do
  let c ← chunk source i
  lift (atChunk i (read c))

theorem agrees_readWith {source : ChunkSource} {inv : Store → Prop} {P : Chunk → Prop}
    {post : Bytes → Prop} {i : Nat} {read : Chunk → Guarded Bytes} {read' : Chunk → Result Bytes}
    (hchunk : Agrees inv (chunk source i) (Store.chunk source i) P)
    (hread : ∀ c, P c → read c = ofResult (read' c))
    (hpost : ∀ c b, P c → read' c = .ok b → post b) :
    Agrees inv (readWith source i read) (Store.readWith source i read') post :=
  hchunk.bind fun c hc => agrees_lift (by rw [hread c hc, atChunk_ofResult]) fun b hb =>
    hpost c b hc (mapError_eq_ok.1 hb)

/-- The content of a chunk. -/
def getChunk (source : ChunkSource) (i : Nat) : StoreAction Bytes :=
  readWith source i decompress

/-- The content of a chunk for a buffer of `length` bytes. -/
def getInto (source : ChunkSource) (i length : Nat) : StoreAction Bytes :=
  readWith source i fun c => decompressInto c length

/-- The bytes `start … start + length` of a chunk. -/
def getRange (source : ChunkSource) (i start length : Nat) : StoreAction Bytes :=
  readWith source i fun c => decompressRange c start length

/-- A store whose slots answer with checked chunks, and whose size is a word. -/
structure Checked (source : ChunkSource) (s : Store) : Prop where
  tallied : s.Tallied
  nbytes_lt : s.nbytes < 2 ^ 64
  chunks : ∀ i c, s.fetch source i = .ok c → c.WellFormed

/-! ## Byte ranges -/

/-- An offset in the table. -/
def startAt (starts : Array Nat) (i : Nat) : Guarded Nat := do
  require (i < starts.size)
  pure (starts.getD i 0)

/-- The part of a range that lies in a chunk. -/
def pieceOf (start stop i chunkStart : Nat) (c : Chunk) : Guarded Bytes := do
  let low ← sub (max start chunkStart) chunkStart
  let chunkStop ← add chunkStart c.nbytes
  let high ← sub (min stop chunkStop) chunkStart
  if low < high then
    let length ← sub high low
    atChunk i (decompressRange c low length)
  else pure #[]

/-- Joins what lies in `start … stop` from slot `i` on behind `out`, over at most `slots` slots, and
gives up if bytes are missing behind them. -/
def readFrom (source : ChunkSource) (start stop : Nat) (out : Bytes) (i : Nat) :
    (slots : Nat) → StoreAction Bytes
  | 0 => do
    lift (require (stop - start ≤ out.size))
    pure out
  | slots + 1 =>
    if stop - start ≤ out.size then pure out
    else do
      let s ← get
      let chunkStart ← lift (startAt s.table.starts i)
      let c ← chunk source i
      let piece ← lift (pieceOf start stop i chunkStart c)
      readFrom source start stop (out ++ piece) (i + 1) slots

/-- The bytes `start … start + length` of the content. -/
def readBytes (source : ChunkSource) (start length : Nat) : StoreAction Bytes := do
  let s ← get
  let stop := Chunk.saturatingAdd start length
  if s.nbytes < stop then throw (.index (.storeRange start stop s.nbytes))
  else
    let first := Store.firstChunkAt s.table.starts start
    readFrom source start stop #[] first (s.nchunks - first)

section Ranges

variable {source : ChunkSource} {s₀ : Store}

theorem startAt_eq (h : s₀.Tallied) {s : Store} (hs : Store.Level source s₀ s) {i : Nat}
    (hi : i < s₀.nchunks) : startAt s.table.starts i = pure (s₀.start i) := by
  have hsize : i < s₀.table.starts.size := by
    rw [← Array.length_toList, h.starts_eq, List.length_map, List.length_range]
    exact hi
  rw [startAt, hs.starts, require_of hsize, pure_bind, h.starts_getD hi]

theorem pieceOf_eq {c : Chunk} (h : c.WellFormed) {start stop i base : Nat} (hbase : base ≤ stop)
    (hword : base + c.nbytes < 2 ^ 64) :
    pieceOf start stop i base c = ofResult (Store.pieceOf start stop i base c) := by
  rw [pieceOf, sub_of_le (Nat.le_max_right _ _), pure_bind, add_of_lt hword, pure_bind,
    sub_of_le (by omega), pure_bind, Store.pieceOf, apply_ite ofResult]
  split
  · rw [sub_of_le (by omega), pure_bind, decompressRange_eq h, atChunk_ofResult]
  · rfl

/-- What was read up to a slot and its part of the range reach up to the next slot, or to the end. -/
theorem le_size_append_pieceOf {c : Chunk} (hc : c.WellFormed) {start stop i base : Nat}
    {out piece : Bytes} (hout : base ≤ start + out.size)
    (h : Store.pieceOf start stop i base c = .ok piece) :
    min stop (base + c.nbytes) ≤ start + (out ++ piece).size := by
  rw [Array.size_append]
  simp only [Store.pieceOf] at h
  split at h
  · have hsize := hc.size_of_decompressRange (by omega) (mapError_eq_ok.1 h)
    omega
  · omega

theorem agrees_readFrom (h : Checked source s₀) {start stop : Nat} (hstop : stop ≤ s₀.nbytes)
    (out : Bytes) (i slots : Nat) (hslots : s₀.nchunks ≤ i + slots)
    (hout : stop - start ≤ out.size ∨ s₀.start i ≤ start + out.size) :
    Agrees (Store.Level source s₀) (readFrom source start stop out i slots)
      (Store.readFrom source start stop out i slots) fun _ => True := by
  have hlast (j : Nat) (hj : s₀.nchunks ≤ j) : s₀.start j = s₀.nbytes := h.tallied.start_of_le hj
  induction slots generalizing out i with
  | zero =>
    have hend := hlast i hslots
    exact agrees_bind_of_pure (require_of (by omega)) (.pure trivial)
  | succ slots ih =>
    rw [readFrom, Store.readFrom_succ]
    refine .ite (fun _ => .pure trivial) fun hmissing => ?_
    -- Bytes are missing, so the slot starts in front of the end and is no slot behind the last one.
    have hbase : s₀.start i ≤ start + out.size := by omega
    have hi : i < s₀.nchunks := by
      by_contra hge
      have hend := hlast i (by omega)
      omega
    have hword := h.nbytes_lt
    refine Agrees.get.bind fun s hs => ?_
    refine agrees_bind_of_pure (startAt_eq h.tallied hs hi) ?_
    refine (agrees_chunk source s₀ i).bind fun c hc => ?_
    have hnext := Store.start_succ_of_fetch hc
    have htotal := h.tallied.start_le (i + 1)
    rw [hs.starts, h.tallied.starts_getD hi]
    refine (agrees_lift (pieceOf_eq (h.chunks i c hc) (by omega) (by omega)) fun piece hpiece =>
      le_size_append_pieceOf (h.chunks i c hc) hbase hpiece).bind fun piece hpiece => ?_
    exact ih (out ++ piece) (i + 1) (by omega) (by omega)

theorem agrees_readBytes (h : Checked source s₀) (start length : Nat) :
    Agrees (Store.Level source s₀) (readBytes source start length)
      (Store.readBytes source start length) fun _ => True := by
  refine Agrees.get.bind fun s hs => .ite (fun _ => .throw _) fun hinside => ?_
  have hstop : Chunk.saturatingAdd start length ≤ s₀.nbytes := by
    rw [← hs.nbytes]
    omega
  rw [hs.starts, hs.nchunks]
  refine agrees_readFrom h hstop #[] _ _ (by omega) ?_
  rw [Array.size_empty]
  by_cases hstart : start < s₀.nbytes
  · exact .inr (h.tallied.firstChunkAt_spec hstart).2.1
  · exact .inl (by omega)

end Ranges

end ChunkedArray.Guarded
