import Mathlib.Algebra.Order.BigOperators.Group.List
import ChunkedArray.Frame.Header
import ChunkedArray.Proofs.Bytes.LittleEndian
import ChunkedArray.Proofs.Chunk.Compress
import ChunkedArray.Proofs.Codec.Config

/-!
# Frame headers read back

Each reader of the header takes exactly the bytes that the writer of its field gives, whatever
follows, so readers in a row take fields in a row. A header that is short enough for its length to
fit four bytes is therefore read back whole from the front of the frame.
-/

namespace ChunkedArray

namespace Bytes

theorem toList_concat (parts : List Bytes) :
    (concat parts).toList = parts.flatMap Array.toList := by
  induction parts with
  | nil => rfl
  | cons part parts ih => rw [concat_cons, Array.toList_append, ih, List.flatMap_cons]

end Bytes

namespace FrameHeader

/-- A total is the sum, if that is a word. -/
theorem checkedTotal_eq_ok {what : String} {sizes : List Nat} {n : Nat} :
    checkedTotal what sizes = .ok n ↔ sizes.sum < 2 ^ 64 ∧ n = sizes.sum := by
  rw [checkedTotal]
  split
  · rename_i hword
    exact ⟨fun h => by cases h; exact ⟨hword, rfl⟩, fun h => by rw [h.2]⟩
  · rename_i hword
    exact ⟨fun h => (by cases h), fun h => absurd h.1 hword⟩

/-- A reader takes a text off the front, whatever follows, and gives a value. -/
def Reads {α : Type} (reader : FieldReader α) (text : List UInt8) (a : α) : Prop :=
  ∀ rest, reader.run (text ++ rest) = .ok (a, rest)

theorem Reads.pure {α : Type} (a : α) : Reads (Pure.pure a) [] a :=
  fun _ => rfl

theorem Reads.bind {α β : Type} {reader : FieldReader α} {next : α → FieldReader β}
    {text text' : List UInt8} {a : α} {b : β} (h : Reads reader text a)
    (h' : Reads (next a) text' b) : Reads (reader >>= next) (text ++ text') b := by
  intro rest
  rw [StateT.run_bind, List.append_assoc, h]
  exact h' rest

/-- A reader that takes nothing may stand in front. -/
theorem Reads.bind_nil {α β : Type} {reader : FieldReader α} {next : α → FieldReader β}
    {text : List UInt8} {a : α} {b : β} (h : Reads reader [] a)
    (h' : Reads (next a) text b) : Reads (reader >>= next) text b :=
  h.bind h'

/-- A reader that takes nothing may stand at the end. -/
theorem Reads.bind_end {α β : Type} {reader : FieldReader α} {next : α → FieldReader β}
    {text : List UInt8} {a : α} {b : β} (h : Reads reader text a) (h' : Reads (next a) [] b) :
    Reads (reader >>= next) text b := by
  have hbind := h.bind h'
  rwa [List.append_nil] at hbind

/-- A result that is no error is read off nothing. -/
theorem reads_liftM {α : Type} {r : Result α} {a : α} (h : r = .ok a) :
    Reads (liftM r) [] a := by
  subst h
  exact fun _ => rfl

/-! ## Fields -/

theorem reads_take {text : List UInt8} {n : Nat} (h : text.length = n) :
    Reads (take n) text text := by
  subst h
  intro rest
  simp [take, StateT.run]

theorem reads_number (width n : Nat) :
    Reads (number width) (LittleEndian.bytes width n).toList (n % 256 ^ width) := by
  have htake : Reads (take width) (LittleEndian.bytes width n).toList
      (LittleEndian.bytes width n).toList := reads_take (by simp)
  have hmap : Reads (number width) (LittleEndian.bytes width n).toList
      (LittleEndian.toNat (LittleEndian.bytes width n).toList) := htake.bind_end (Reads.pure _)
  rwa [LittleEndian.bytes, LittleEndian.toNat_ofNat] at hmap

/-- A number is read back if its field has room for it. -/
theorem reads_number_of_lt {width n : Nat} (h : n < 256 ^ width) :
    Reads (number width) (LittleEndian.bytes width n).toList n := by
  have hnumber := reads_number width n
  rwa [Nat.mod_eq_of_lt h] at hnumber

theorem reads_field {width : Nat} {b : List UInt8} (h : b.length < 256 ^ width) :
    Reads (field width) ((LittleEndian.bytes width b.length).toList ++ b) b := by
  refine (reads_number_of_lt h).bind fun rest => ?_
  simp [StateT.run]

/-- A field behind a short length is read back. -/
theorem reads_shortField {b f : Bytes} (h : shortField b = .ok f) :
    Reads (field 2) f.toList b.toList := by
  rw [shortField] at h
  split at h
  · rename_i hsize
    cases h
    rw [Array.toList_append, ← Array.length_toList]
    exact reads_field (by simpa using hsize)
  · cases h

/-- A field behind a long length is read back. -/
theorem reads_longField {b f : Bytes} (h : longField b = .ok f) :
    Reads (field 4) f.toList b.toList := by
  rw [longField, maxFieldLength] at h
  split at h
  · rename_i hsize
    cases h
    rw [Array.toList_append, ← Array.length_toList]
    refine reads_field ?_
    rw [Array.length_toList]
    omega
  · cases h

theorem reads_codecField {c : CodecConfig} {f : Bytes} (hvalid : c.validate = .ok ())
    (hblock : c.blockSize < 2 ^ 64) (h : longField c.toJson.render.toArray = .ok f) :
    Reads codecField f.toList c := by
  have hfield := reads_longField h
  rw [List.toList_toArray] at hfield
  have hload := CodecConfig.load_render_toJson hvalid hblock
  exact hfield.bind_end (reads_liftM hload)

/-- Metadata entries are read back in order. -/
theorem reads_metadataFields {entries : List (String × Bytes)} {parts : List Bytes}
    (h : metadataBytes entries = .ok parts) (done : List (String × Bytes)) :
    Reads (metadataFields done entries.length) (parts.flatMap Array.toList)
      (done.reverse ++ entries) := by
  induction entries generalizing parts done with
  | nil =>
    cases h
    rw [List.append_nil]
    exact Reads.pure done.reverse
  | cons entry rest ih =>
    obtain ⟨key, value⟩ := entry
    obtain ⟨keyField, hkey, h⟩ := bind_eq_ok.1 h
    obtain ⟨valueField, hvalue, h⟩ := bind_eq_ok.1 h
    obtain ⟨others, hothers, h⟩ := bind_eq_ok.1 h
    cases h
    have hdecode : (Utf8.decode key.toUTF8.data.toList).mapError
        (fun fault => Error.format (.keyEncoding fault)) = .ok key := by
      have hutf8 : Utf8.decode key.toUTF8.data.toList = .ok key := Utf8.decode_encode key
      rw [hutf8]
      rfl
    have hrest := ih hothers ((key, value) :: done)
    rw [List.reverse_cons, List.append_assoc, List.singleton_append] at hrest
    exact (reads_shortField hkey).bind ((reads_liftM hdecode).bind_nil
      ((reads_longField hvalue).bind hrest))

/-- Rows of the index are read back in order. -/
theorem reads_rows {index : List IndexEntry}
    (h : ∀ e ∈ index, e.cbytes < 2 ^ 64 ∧ e.nbytes < 2 ^ 64) (done : List IndexEntry) :
    Reads (rows done index.length) ((index.map rowBytes).flatMap Array.toList)
      (done.reverse ++ index) := by
  induction index generalizing done with
  | nil =>
    rw [List.append_nil]
    exact Reads.pure done.reverse
  | cons e rest ih =>
    obtain ⟨hcbytes, hnbytes⟩ := h e List.mem_cons_self
    have hrest := ih (fun e' he' => h e' (List.mem_cons_of_mem _ he')) (e :: done)
    rw [List.reverse_cons, List.append_assoc, List.singleton_append] at hrest
    rw [List.map_cons, List.flatMap_cons, rowBytes, Array.toList_append, List.append_assoc]
    exact (reads_number_of_lt (by simpa using hcbytes)).bind
      ((reads_number_of_lt (by simpa using hnbytes)).bind hrest)

/-! ## The whole header -/

/-- What a header must satisfy to be read back: valid parameters, sizes that are words, and a total
that is the sum of the index. -/
structure Consistent (h : FrameHeader) : Prop where
  valid : h.codec.validate = .ok ()
  blockSize : h.codec.blockSize < 2 ^ 64
  chunkSize : h.chunkSize < 2 ^ 64
  cbytes : ∀ e ∈ h.index, e.cbytes < 2 ^ 64
  total : (h.index.map IndexEntry.nbytes).sum = h.nbytes
  nbytes : h.nbytes < 2 ^ 64

/-- The fields of a header behind the prefix. -/
def bodyParts (h : FrameHeader) (codec : Bytes) (metadata : List Bytes) : List Bytes :=
  [codec, LittleEndian.bytes 8 h.chunkSize, LittleEndian.bytes 8 h.nbytes,
      #[if h.allowResize then 1 else 0], LittleEndian.bytes 4 h.metadata.length] ++
    metadata ++ LittleEndian.bytes 8 h.index.length :: h.index.map rowBytes

/-- The prefix of a header whose rest has a given length. -/
def prefixBytes (h : FrameHeader) (length : Nat) : Bytes :=
  magic ++ LittleEndian.bytes 2 formatVersion ++ LittleEndian.bytes 2 h.flags.toNat ++
    LittleEndian.bytes 4 length

theorem size_prefixBytes (h : FrameHeader) (length : Nat) :
    (h.prefixBytes length).size = prefixSize := by
  simp [prefixBytes, magic, prefixSize]

/-- A header is written as its prefix and its fields. -/
theorem toBytes_eq_ok {h : FrameHeader} {b : Bytes} (hb : h.toBytes = .ok b) :
    ∃ codec metadata, longField h.codec.toJson.render.toArray = .ok codec ∧
      metadataBytes h.metadata = .ok metadata ∧
      b = h.prefixBytes (Bytes.concat (h.bodyParts codec metadata)).size ++
        Bytes.concat (h.bodyParts codec metadata) := by
  obtain ⟨codec, hcodec, hb⟩ := bind_eq_ok.1 hb
  obtain ⟨metadata, hmetadata, hb⟩ := bind_eq_ok.1 hb
  cases hb
  exact ⟨codec, metadata, hcodec, hmetadata, rfl⟩

/-- Metadata that is written has short keys and values of bounded length. -/
theorem forall_of_metadataBytes {entries : List (String × Bytes)} {parts : List Bytes}
    (h : metadataBytes entries = .ok parts) :
    ∀ e ∈ entries, e.1.toUTF8.size < 2 ^ 16 ∧ e.2.size ≤ maxFieldLength := by
  induction entries generalizing parts with
  | nil => simp
  | cons entry rest ih =>
    obtain ⟨keyField, hkey, h⟩ := bind_eq_ok.1 h
    obtain ⟨valueField, hvalue, h⟩ := bind_eq_ok.1 h
    obtain ⟨others, hothers, -⟩ := bind_eq_ok.1 h
    refine List.forall_mem_cons.2 ⟨⟨?_, ?_⟩, ih hothers⟩
    · by_contra hlong
      have hlong' : ¬ entry.1.toUTF8.data.size < 2 ^ 16 := hlong
      rw [shortField, if_neg hlong'] at hkey
      cases hkey
    · by_contra hlong
      rw [longField, if_neg hlong] at hvalue
      cases hvalue

/-- Every metadata value of a header that is written is short. -/
theorem size_lt_of_toBytes {h : FrameHeader} {b : Bytes} (hb : h.toBytes = .ok b) :
    ∀ e ∈ h.metadata, e.2.size < 2 ^ 32 := by
  obtain ⟨-, metadata, -, hmetadata, -⟩ := toBytes_eq_ok hb
  exact fun e he => (forall_of_metadataBytes hmetadata e he).2.trans_lt (by decide)

/-- Every metadata entry takes up some bytes. -/
theorem length_le_of_metadataBytes {entries : List (String × Bytes)} {parts : List Bytes}
    (h : metadataBytes entries = .ok parts) : entries.length ≤ (Bytes.concat parts).size := by
  induction entries generalizing parts with
  | nil => exact Nat.zero_le _
  | cons entry rest ih =>
    obtain ⟨keyField, hkey, h⟩ := bind_eq_ok.1 h
    obtain ⟨valueField, -, h⟩ := bind_eq_ok.1 h
    obtain ⟨others, hothers, h⟩ := bind_eq_ok.1 h
    cases h
    have hsize : 2 ≤ keyField.size := by
      rw [shortField] at hkey
      split at hkey
      · cases hkey
        simp
      · cases hkey
    have hrest := ih hothers
    rw [Bytes.concat_cons, Bytes.concat_cons, Array.size_append, Array.size_append,
      List.length_cons]
    omega

theorem size_concat_rows (index : List IndexEntry) :
    (Bytes.concat (index.map rowBytes)).size = 16 * index.length := by
  induction index with
  | nil => rfl
  | cons e rest ih =>
    rw [List.map_cons, Bytes.concat_cons, Array.size_append, ih]
    simp [rowBytes]
    omega

/-- The entries and the rows of a header fit into its fields. -/
theorem size_concat_bodyParts (h : FrameHeader) (codec : Bytes) (metadata : List Bytes) :
    (Bytes.concat (h.bodyParts codec metadata)).size =
      codec.size + (Bytes.concat metadata).size + 16 * h.index.length + 29 := by
  have hrows := size_concat_rows h.index
  simp only [bodyParts, List.cons_append, List.nil_append, Bytes.concat_cons, Bytes.concat_append,
    Array.size_append, LittleEndian.size_bytes, hrows, List.size_toArray, List.length_cons,
    List.length_nil]
  omega

/-- Short keys and values of bounded length are written, each behind its length. -/
theorem exists_metadataBytes {entries : List (String × Bytes)}
    (hkeys : ∀ e ∈ entries, e.1.toUTF8.size < 2 ^ 16)
    (hvalues : ∀ e ∈ entries, e.2.size ≤ maxFieldLength) :
    ∃ parts, metadataBytes entries = .ok parts ∧
      (Bytes.concat parts).size = (entries.map fun e => e.1.toUTF8.size + e.2.size + 6).sum := by
  induction entries with
  | nil => exact ⟨[], rfl, rfl⟩
  | cons entry rest ih =>
    obtain ⟨parts, hparts, hsize⟩ := ih (fun e he => hkeys e (List.mem_cons_of_mem _ he))
      fun e he => hvalues e (List.mem_cons_of_mem _ he)
    have hkey := hkeys entry List.mem_cons_self
    have hvalue := hvalues entry List.mem_cons_self
    have hfield : shortField entry.1.toUTF8.data =
        .ok (LittleEndian.bytes 2 entry.1.toUTF8.size ++ entry.1.toUTF8.data) := if_pos hkey
    have hfield' : longField entry.2 = .ok (LittleEndian.bytes 4 entry.2.size ++ entry.2) :=
      if_pos hvalue
    refine ⟨_, by rw [metadataBytes, hfield, hfield', hparts]; rfl, ?_⟩
    have hlength : entry.1.toUTF8.data.size = entry.1.toUTF8.size := rfl
    simp only [Bytes.concat_cons, Array.size_append, LittleEndian.size_bytes, hsize, List.map_cons,
      List.sum_cons, hlength]
    omega

/-- A header whose codec text and metadata fit their fields is written. -/
theorem exists_toBytes {h : FrameHeader} (hcodec : h.codec.toJson.render.length ≤ maxFieldLength)
    (hkeys : ∀ e ∈ h.metadata, e.1.toUTF8.size < 2 ^ 16)
    (hvalues : ∀ e ∈ h.metadata, e.2.size ≤ maxFieldLength) :
    ∃ b, h.toBytes = .ok b ∧ b.size = prefixSize + (h.codec.toJson.render.length +
      (h.metadata.map fun e => e.1.toUTF8.size + e.2.size + 6).sum + 16 * h.index.length + 33) := by
  obtain ⟨parts, hparts, hsize⟩ := exists_metadataBytes hkeys hvalues
  have hfield : longField h.codec.toJson.render.toArray =
      .ok (LittleEndian.bytes 4 h.codec.toJson.render.length ++ h.codec.toJson.render.toArray) :=
    if_pos hcodec
  refine ⟨h.prefixBytes (Bytes.concat (h.bodyParts _ parts)).size ++
    Bytes.concat (h.bodyParts _ parts), by rw [toBytes, hfield, hparts]; rfl, ?_⟩
  rw [Array.size_append, size_prefixBytes, size_concat_bodyParts, hsize, Array.size_append,
    LittleEndian.size_bytes, List.size_toArray]
  omega

/-- A header is written exactly if its codec text and its metadata fit their fields. -/
theorem exists_toBytes_iff {h : FrameHeader} :
    (∃ b, h.toBytes = .ok b) ↔ h.codec.toJson.render.length ≤ maxFieldLength ∧
      ∀ e ∈ h.metadata, e.1.toUTF8.size < 2 ^ 16 ∧ e.2.size ≤ maxFieldLength := by
  constructor
  · rintro ⟨b, hb⟩
    obtain ⟨codec, metadata, hcodec, hmetadata, -⟩ := toBytes_eq_ok hb
    refine ⟨?_, forall_of_metadataBytes hmetadata⟩
    by_contra hlong
    rw [longField, if_neg (by simpa using hlong)] at hcodec
    cases hcodec
  · rintro ⟨hcodec, hentries⟩
    obtain ⟨b, hb, -⟩ := exists_toBytes hcodec (fun e he => (hentries e he).1) fun e he =>
      (hentries e he).2
    exact ⟨b, hb⟩

theorem Consistent.words {h : FrameHeader} (hconsistent : h.Consistent) :
    ∀ e ∈ h.index, e.cbytes < 2 ^ 64 ∧ e.nbytes < 2 ^ 64 := by
  intro e he
  have hle := List.single_le_sum (fun _ _ => Nat.zero_le _) _
    (List.mem_map_of_mem (f := IndexEntry.nbytes) he)
  rw [hconsistent.total] at hle
  exact ⟨hconsistent.cbytes e he, lt_of_le_of_lt hle hconsistent.nbytes⟩

/-- The fields of a consistent header are read back. -/
theorem reads_body {h : FrameHeader} {codec : Bytes} {metadata : List Bytes}
    (hconsistent : h.Consistent) (hcodec : longField h.codec.toJson.render.toArray = .ok codec)
    (hmetadata : metadataBytes h.metadata = .ok metadata) {length : Nat}
    (hlength : length = (Bytes.concat (h.bodyParts codec metadata)).size) (hword : length < 2 ^ 32) :
    Reads (body h.version h.flags length) (Bytes.concat (h.bodyParts codec metadata)).toList
      { h with headerSize := prefixSize + length } := by
  have hle := length_le_of_metadataBytes hmetadata
  rw [size_concat_bodyParts] at hlength
  have hcodec' := reads_codecField hconsistent.valid hconsistent.blockSize hcodec
  have hmetadata' := reads_metadataFields hmetadata []
  have hrows := reads_rows hconsistent.words []
  have hchunkSize : h.chunkSize < 256 ^ 8 := hconsistent.chunkSize
  have hnbytes : h.nbytes < 256 ^ 8 := hconsistent.nbytes
  have hentries : h.metadata.length < 256 ^ 4 := by omega
  have hcount : h.index.length < 256 ^ 8 := by omega
  have hfit : ¬ length / 16 < h.index.length := by omega
  have hresize : Reads (number 1) (#[if h.allowResize then 1 else 0] : Bytes).toList
      (if h.allowResize then 1 else 0) := by
    cases h.allowResize with
    | false => exact reads_number 1 0
    | true => exact reads_number 1 1
  have htotal : checkedTotal "uncompressed" (h.index.map IndexEntry.nbytes) = .ok h.nbytes := by
    rw [checkedTotal, hconsistent.total, if_pos hconsistent.nbytes]
  have hflag : ((if h.allowResize = true then 1 else 0) ≠ 0) = (h.allowResize = true) := by
    cases h.allowResize <;> simp
  rw [Bytes.toList_concat, bodyParts]
  simp only [List.flatMap_append, List.flatMap_cons, List.flatMap_nil, List.append_assoc,
    List.append_nil]
  -- The fields in the order in which they are written, each read off the front of what is left.
  refine hcodec'.bind ((reads_number_of_lt hchunkSize).bind ((reads_number_of_lt hnbytes).bind
    (hresize.bind ((reads_number_of_lt hentries).bind (hmetadata'.bind
      ((reads_number_of_lt hcount).bind ?_))))))
  rw [if_neg hfit]
  refine hrows.bind_end ((reads_liftM htotal).bind_nil ?_)
  rw [if_neg (by simp)]
  simp only [hflag, List.reverse_nil, List.nil_append, Bool.decide_eq_true]
  exact Reads.pure _

/-- The four fields of a prefix, read off a frame that it stands in front of. -/
theorem fields_prefixBytes (h : FrameHeader) {length : Nat} (hlength : length < 2 ^ 32)
    (behind : Bytes) :
    (h.prefixBytes length ++ behind).slice 0 4 = magic ∧
      LittleEndian.readAt (h.prefixBytes length ++ behind) 4 2 = formatVersion ∧
      LittleEndian.readAt (h.prefixBytes length ++ behind) 6 2 = h.flags.toNat ∧
      LittleEndian.readAt (h.prefixBytes length ++ behind) 8 4 = length := by
  have hframe : h.prefixBytes length ++ behind =
      magic ++ (LittleEndian.bytes 2 formatVersion ++ (LittleEndian.bytes 2 h.flags.toNat ++
        (LittleEndian.bytes 4 length ++ behind))) := by
    simp only [prefixBytes, Array.append_assoc]
  rw [hframe]
  refine ⟨?_, LittleEndian.readAt_append_bytes magic _ 2 formatVersion, ?_, ?_⟩
  · have hmiddle := Bytes.extract_middle #[] magic (LittleEndian.bytes 2 formatVersion ++
      (LittleEndian.bytes 2 h.flags.toNat ++ (LittleEndian.bytes 4 length ++ behind)))
    rwa [Array.empty_append] at hmiddle
  · have hread := LittleEndian.readAt_append_bytes (magic ++ LittleEndian.bytes 2 formatVersion)
      (LittleEndian.bytes 4 length ++ behind) 2 h.flags.toNat
    have hword : h.flags.toNat < 256 ^ 2 := h.flags.toNat_lt
    rwa [Nat.mod_eq_of_lt hword, Array.append_assoc] at hread
  · have hread := LittleEndian.readAt_append_bytes
      (magic ++ LittleEndian.bytes 2 formatVersion ++ LittleEndian.bytes 2 h.flags.toNat) behind 4 length
    rwa [Nat.mod_eq_of_lt (by omega), Array.append_assoc, Array.append_assoc] at hread

/-- The prefix leads to the fields behind it. -/
theorem peek_prefixBytes (h : FrameHeader) {rest : Bytes} (hshort : rest.size < 2 ^ 32)
    (payload : Bytes) :
    peek (h.prefixBytes rest.size ++ rest ++ payload) =
      (do
        let (header, _) ← (body formatVersion h.flags rest.size).run rest.toList
        pure header) := by
  obtain ⟨hmagic, hversion, hflags, hlength⟩ := h.fields_prefixBytes hshort (rest ++ payload)
  rw [← Array.append_assoc] at hmagic hversion hflags hlength
  have hrest : ((h.prefixBytes rest.size ++ rest ++ payload).slice prefixSize rest.size).toList =
      rest.toList := by
    have hmiddle := Bytes.extract_middle (h.prefixBytes rest.size) rest payload
    rw [size_prefixBytes, ← Array.append_assoc] at hmiddle
    rw [Bytes.slice, hmiddle]
  have hsize : ¬ (h.prefixBytes rest.size ++ rest ++ payload).size < prefixSize + rest.size := by
    rw [Array.size_append, Array.size_append, size_prefixBytes]
    omega
  rw [peek, if_neg (by omega), hmagic, if_neg (not_not_intro rfl)]
  simp only [hversion, hflags, hlength, hrest, UInt16.ofNat_toNat]
  rw [if_neg (by decide), if_neg (by decide), if_neg hsize]

/-- A consistent header whose length fits four bytes is read back from the front of a frame. -/
theorem peek_toBytes {h : FrameHeader} {b : Bytes} (hb : h.toBytes = .ok b)
    (hconsistent : h.Consistent) (hversion : h.version = formatVersion)
    (hshort : b.size < prefixSize + 2 ^ 32) (payload : Bytes) :
    peek (b ++ payload) = .ok { h with headerSize := b.size } := by
  obtain ⟨codec, metadata, hcodec, hmetadata, rfl⟩ := toBytes_eq_ok hb
  rw [Array.size_append, size_prefixBytes] at hshort ⊢
  have hbody := reads_body hconsistent hcodec hmetadata rfl (by omega) []
  rw [List.append_nil, hversion] at hbody
  rw [peek_prefixBytes h (by omega), hbody, ← hversion]
  rfl

end FrameHeader

end ChunkedArray
