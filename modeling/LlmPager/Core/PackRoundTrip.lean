import LlmPager.Core.Pack
import LlmPager.Lib.Fallible

/-!
# LlmPager.Core.PackRoundTrip

What a reader finds in a pack that was written.

Writer and reader agree through one picture of the file (`packImage`): the
header block, the index and its padding, and the padded blobs one after the
other, where `layout` says. The writer produces that picture
(`writePack_eq`), though it leaves the space of header and index open until the
end; the reader finds in it the metadata and the index (`openInner_image`) and,
at each entry, the blob (`Placed`).
-/

namespace LlmPager

open Lib

variable {Value : Type}

/-! ### Alignment -/

theorem alignUp_mod (v : Nat) : alignUp v % blockAlign = 0 := Nat.mul_mod_left _ _

theorem le_alignUp (v : Nat) : v ≤ alignUp v := by
  unfold alignUp blockAlign
  omega

theorem alignUp_block (v : Nat) : alignUp (blockAlign + v) = blockAlign + alignUp v := by
  unfold alignUp blockAlign
  omega

theorem alignUp_of_aligned {v : Nat} (h : v % blockAlign = 0) : alignUp v = v := by
  unfold alignUp blockAlign at *
  omega

theorem alignUp_mono {v w : Nat} (h : v ≤ w) : alignUp v ≤ alignUp w := by
  unfold alignUp blockAlign
  omega

/-! ### The picture of a pack -/

/-- A blob with its padding. -/
def padBlob (blob : List UInt8) : List UInt8 :=
  blob ++ List.replicate (alignUp blob.length - blob.length) 0

/-- Where the blobs stand, from `cursor` on. -/
def layout : Nat → List (List UInt8) → List IndexEntry
  | _, [] => []
  | cursor, blob :: rest => ⟨cursor, blob.length⟩ :: layout (cursor + alignUp blob.length) rest

def packData (blobs : List (List UInt8)) : List UInt8 := blobs.flatMap padBlob

/-- The end of a pack file. -/
def PackMeta.packEnd (m : PackMeta Value) (blobs : List (List UInt8)) : Nat :=
  m.indexEnd + (blobs.map fun b => alignUp b.length).sum

def entryBytes (e : IndexEntry) : List UInt8 := leBytes 8 e.offset ++ leBytes 8 e.nbytes

def headerBytes (codec : Codec Value) (m : PackMeta Value) : List UInt8 :=
  magic ++ (leBytes 4 formatVersion ++ (leBytes 4 (codec.toVec m).length ++ (codec.toVec m ++
    List.replicate (blockAlign - 16 - (codec.toVec m).length) 0)))

def indexBytes (m : PackMeta Value) (index : List IndexEntry) : List UInt8 :=
  index.flatMap entryBytes ++
    List.replicate (m.indexEnd - (blockAlign + m.total * indexEntryBytes)) 0

def packImage (codec : Codec Value) (m : PackMeta Value) (blobs : List (List UInt8)) :
    List UInt8 :=
  headerBytes codec m ++ (indexBytes m (layout m.indexEnd blobs) ++ packData blobs)

@[simp] theorem length_padBlob (blob : List UInt8) : (padBlob blob).length = alignUp blob.length := by
  have := le_alignUp blob.length
  simp only [padBlob, List.length_append, List.length_replicate]
  omega

theorem length_packData (blobs : List (List UInt8)) :
    (packData blobs).length = (blobs.map fun b => alignUp b.length).sum := by
  simp [packData, List.length_flatMap]

@[simp] theorem length_layout (cursor : Nat) (blobs : List (List UInt8)) :
    (layout cursor blobs).length = blobs.length := by
  induction blobs generalizing cursor with
  | nil => rfl
  | cons blob rest ih => simp [layout, ih]

@[simp] theorem length_entryBytes (e : IndexEntry) : (entryBytes e).length = 16 := by
  simp [entryBytes]

section

variable {codec : Codec Value} {m : PackMeta Value} {blobs : List (List UInt8)}

theorem length_headerBytes (hfits : (codec.toVec m).length ≤ blockAlign - 16) :
    (headerBytes codec m).length = blockAlign := by
  unfold blockAlign at *
  simp only [headerBytes, magic, List.length_append, length_leBytes, List.length_replicate,
    List.length_cons, List.length_nil, blockAlign]
  omega

theorem le_indexEnd (m : PackMeta Value) : blockAlign + m.total * indexEntryBytes ≤ m.indexEnd :=
  le_alignUp _

/-- Writer and reader compute the end of the index in two ways. -/
theorem indexEnd_eq (m : PackMeta Value) :
    m.indexEnd = blockAlign + alignUp (m.total * indexEntryBytes) := alignUp_block _

theorem length_indexBytes {index : List IndexEntry} (hindex : index.length = m.total) :
    (indexBytes m index).length = alignUp (m.total * indexEntryBytes) := by
  have hle := le_indexEnd m
  have heq := indexEnd_eq m
  have hlen := length_flatMap_of_const length_entryBytes index
  rw [hindex] at hlen
  simp only [indexBytes, List.length_append, hlen, List.length_replicate]
  unfold indexEntryBytes at *
  omega

/-! ### The writer -/

theorem writePad_eq (f : Sink UInt8) (pad : Nat) :
    writePad f pad = f.write (List.replicate pad 0) := by
  unfold writePad
  split
  · rfl
  · rename_i h
    have : pad = 0 := by omega
    simp [this]

/-- By induction on the blobs: what is appended is the data, and the cursor
walks along the layout. -/
theorem foldlM_addBlob (w : PackWriter Value) (blobs : List (List UInt8))
    (hcount : w.index.length + blobs.length = w.packMeta.total)
    (hend : w.cursor + (blobs.map fun b => alignUp b.length).sum < 2 ^ 64) :
    blobs.foldlM PackWriter.addBlob w = .ok { w with
      index := w.index ++ layout w.cursor blobs
      file := w.file.write (packData blobs)
      cursor := w.cursor + (blobs.map fun b => alignUp b.length).sum } := by
  induction blobs generalizing w with
  | nil =>
      show Except.ok w = _
      simp [layout, packData]
  | cons blob rest ih =>
      rw [List.length_cons] at hcount
      rw [List.map_cons, List.sum_cons] at hend
      have hadd : w.addBlob blob = .ok { w with
          index := w.index ++ [⟨w.cursor, blob.length⟩]
          file := w.file.write (padBlob blob)
          cursor := w.cursor + alignUp blob.length } := by
        rw [PackWriter.addBlob, if_neg (by omega), if_neg (by omega), writePad_eq,
          Sink.write_write]
        rfl
      rw [List.foldlM_cons, hadd]
      show rest.foldlM PackWriter.addBlob _ = _
      rw [ih _ (by simp; omega) (by simp; omega)]
      simp [layout, packData, Sink.write_write, Nat.add_assoc]

theorem foldl_entries (f : Sink UInt8) (index : List IndexEntry) :
    index.foldl (fun f e => (f.write (leBytes 8 e.offset)).write (leBytes 8 e.nbytes)) f =
      f.write (index.flatMap entryBytes) := by
  induction index generalizing f with
  | nil => exact (Sink.write_nil f).symm
  | cons e rest ih =>
      rw [List.foldl_cons, ih, Sink.write_write, Sink.write_write, List.flatMap_cons]
      rfl

/-- The space `create` skips is there once something follows it. -/
theorem drop_write_gap (n : Nat) (b : List UInt8) :
    ((⟨[], n⟩ : Sink UInt8).write b).data.drop n = b := by
  by_cases hb : b = []
  · simp [hb]
  · rw [Sink.write_end (Nat.zero_le _) hb]
    exact List.drop_left' (by simp)

/-- `finish` overwrites the start of the file, in one write. -/
theorem finish_eq {w : PackWriter Value} (hindex : w.index.length = w.packMeta.total)
    (hfits : (codec.toVec w.packMeta).length ≤ blockAlign - 16)
    (hend : w.indexEnd = w.packMeta.indexEnd) :
    w.finish codec = .ok ((w.file.seek 0).write
      (headerBytes codec w.packMeta ++ indexBytes w.packMeta w.index)).data := by
  rw [PackWriter.finish, if_neg (by simp [hindex]), if_neg (by omega)]
  show Except.ok (writePad (List.foldl _ (List.foldl _ _ _) _) _).data = _
  rw [writePad_eq, foldl_entries, Sink.foldl_write, Sink.write_write, Sink.write_write, hend]
  simp [headerBytes, indexBytes]

/-- **The writer draws the picture.** -/
theorem writePack_eq (hfits : (codec.toVec m).length ≤ blockAlign - 16)
    (hcount : blobs.length = m.total) (hend : m.packEnd blobs < 2 ^ 64) :
    writePack codec m blobs = .ok (packImage codec m blobs) := by
  have hstart : (headerBytes codec m ++ indexBytes m (layout m.indexEnd blobs)).length
      = m.indexEnd := by
    rw [List.length_append, length_headerBytes hfits,
      length_indexBytes ((length_layout m.indexEnd blobs).trans hcount), indexEnd_eq]
  unfold writePack
  rw [foldlM_addBlob (PackWriter.create m) blobs ((Nat.zero_add _).trans hcount) hend]
  show PackWriter.finish codec _ = _
  rw [finish_eq ((length_layout m.indexEnd blobs).trans hcount) hfits rfl]
  show Except.ok (Sink.write ((Sink.write ⟨[], m.indexEnd⟩ (packData blobs)).seek 0)
    (headerBytes codec m ++ indexBytes m (layout m.indexEnd blobs))).data = _
  rw [Sink.write_start rfl, hstart]
  show Except.ok (_ ++ (Sink.write ⟨[], m.indexEnd⟩ (packData blobs)).data.drop _) = _
  rw [drop_write_gap, packImage, List.append_assoc]

/-! ### The layout -/

/-- Where blob `i` stands in the data, and that it does. -/
structure Placed (start : Nat) (blobs : List (List UInt8)) (blob : List UInt8) (e : IndexEntry) :
    Prop where
  nbytes : e.nbytes = blob.length
  start_le : start ≤ e.offset
  aligned : start % blockAlign = 0 → e.offset % blockAlign = 0
  end_le : e.offset + alignUp e.nbytes ≤ start + (packData blobs).length
  bytes : slice (e.offset - start) (alignUp e.nbytes) (packData blobs) = padBlob blob

theorem placed (start : Nat) (blobs : List (List UInt8)) (i : Nat) {blob : List UInt8}
    (h : blobs[i]? = some blob) :
    ∃ e, (layout start blobs)[i]? = some e ∧ Placed start blobs blob e := by
  induction blobs generalizing start i with
  | nil => simp at h
  | cons first rest ih =>
      have hdata : packData (first :: rest) = padBlob first ++ packData rest := rfl
      cases i with
      | zero =>
          obtain rfl : first = blob := Option.some.inj h
          refine ⟨⟨start, first.length⟩, rfl, rfl, Nat.le_refl _, id, ?_, ?_⟩
          · simp [hdata]
          · rw [hdata, Nat.sub_self]
            exact slice_front (length_padBlob first)
      | succ i =>
          obtain ⟨e, he, hp⟩ := ih (start + alignUp first.length) i h
          have hstart := hp.start_le
          have hend := hp.end_le
          refine ⟨e, he, hp.nbytes, by omega, fun hs => hp.aligned ?_, ?_, ?_⟩
          · rw [Nat.add_mod, hs, alignUp_mod, Nat.zero_add, Nat.zero_mod]
          · rw [hdata, List.length_append, length_padBlob]
            omega
          · rw [hdata, slice_append_right (by rw [length_padBlob]; omega), length_padBlob,
              Nat.sub_sub]
            exact hp.bytes

theorem le_offset_of_mem_layout {start : Nat} {blobs : List (List UInt8)} {e : IndexEntry}
    (h : e ∈ layout start blobs) : start ≤ e.offset := by
  induction blobs generalizing start with
  | nil => cases h
  | cons first rest ih =>
      rcases List.mem_cons.mp h with rfl | h
      · exact Nat.le_refl _
      · have := ih h
        omega

/-- Blobs follow one another. -/
theorem layout_pairwise (start : Nat) (blobs : List (List UInt8)) :
    (layout start blobs).Pairwise fun a b => a.offset + alignUp a.nbytes ≤ b.offset := by
  induction blobs generalizing start with
  | nil => exact .nil
  | cons first rest ih => exact .cons (fun b hb => le_offset_of_mem_layout hb) (ih _)

/-- No entry ends beyond the pack. -/
theorem Placed.end_le_packEnd {blob : List UInt8} {e : IndexEntry}
    (h : Placed m.indexEnd blobs blob e) : e.offset + alignUp e.nbytes ≤ m.packEnd blobs := by
  have hle := h.end_le
  rwa [length_packData] at hle

/-- Everything in the index of a pack that ends below `2 ^ 64` is. -/
theorem layout_lt (hend : m.packEnd blobs < 2 ^ 64) :
    ∀ e ∈ layout m.indexEnd blobs, e.offset < 2 ^ 64 ∧ e.nbytes < 2 ^ 64 := by
  intro e he
  obtain ⟨i, hi, rfl⟩ := List.getElem_of_mem he
  obtain ⟨e, hget, hp⟩ := placed m.indexEnd blobs i
    (List.getElem?_eq_getElem (by simpa using hi))
  rw [List.getElem?_eq_getElem hi] at hget
  rw [Option.some.inj hget]
  have hle := hp.end_le_packEnd
  have hnbytes := le_alignUp e.nbytes
  omega

/-! ### The reader -/

theorem preadFull_ok {f : PackFile} {buf : Buf} {n offset : Nat}
    (hend : offset + n ≤ f.bytes.length) (haddr : f.direct = true → buf.addr % blockAlign = 0)
    (hn : n % blockAlign = 0) (hoff : offset % blockAlign = 0) :
    preadFull f buf n offset =
      .ok { buf with bytes := slice offset n f.bytes ++ buf.bytes.drop n } := by
  unfold preadFull
  by_cases hz : n = 0
  · rw [if_pos hz, hz]
    rfl
  · rw [if_neg hz, if_neg (fun h => h.2 ⟨haddr h.1, hn, hoff⟩), if_neg (by omega)]

/-- A buffer made for the read comes back with the bytes and nothing else. -/
theorem preadFull_aligned {f : PackFile} {n offset : Nat} (hend : offset + n ≤ f.bytes.length)
    (hn : n % blockAlign = 0) (hoff : offset % blockAlign = 0) :
    preadFull f (alignedBuf n) n offset = .ok ⟨0, slice offset n f.bytes⟩ := by
  rw [preadFull_ok hend (fun _ => rfl) hn hoff]
  simp [alignedBuf, alignUp_of_aligned hn]

/-- A record of the index, field by field. -/
theorem slice_indexBytes {index : List IndexEntry} {i : Nat} (hi : i < index.length) :
    slice (i * 16) 8 (indexBytes m index) = leBytes 8 index[i].offset ∧
      slice (i * 16 + 8) 8 (indexBytes m index) = leBytes 8 index[i].nbytes := by
  have hrecords := length_flatMap_of_const length_entryBytes index
  have hrecord : slice (i * 16) 16 (indexBytes m index) = entryBytes index[i] := by
    rw [indexBytes, slice_append_left (by omega)]
    exact slice_flatMap length_entryBytes index i hi
  constructor
  · show slice (i * 16 + 0) 8 _ = _
    rw [← slice_slice (by omega : 0 + 8 ≤ 16), hrecord]
    exact slice_front (length_leBytes 8 _)
  · rw [← slice_slice (by omega : 8 + 8 ≤ 16), hrecord, entryBytes,
      slice_append_right (by simp)]
    simp [slice]

/-- The records of the index read back. -/
theorem readIndex_eq {index : List IndexEntry} (hindex : index.length = m.total)
    (hlt : ∀ e ∈ index, e.offset < 2 ^ 64 ∧ e.nbytes < 2 ^ 64) :
    ((List.range m.total).map fun i =>
      (⟨leNat (slice (i * 16) 8 (indexBytes m index)),
        leNat (slice (i * 16 + 8) 8 (indexBytes m index))⟩ : IndexEntry)) = index := by
  refine List.ext_getElem (by simp [hindex]) fun i hi hi' => ?_
  obtain ⟨hoffset, hnbytes⟩ := slice_indexBytes (m := m) hi'
  obtain ⟨hoff, hn⟩ := hlt index[i] (List.getElem_mem hi')
  rw [List.getElem_map, List.getElem_range, hoffset, hnbytes, leNat_leBytes_of_lt hoff,
    leNat_leBytes_of_lt hn]

/-- The header, field by field. -/
theorem slice_headerBytes (hfits : (codec.toVec m).length ≤ blockAlign - 16) :
    slice 0 8 (headerBytes codec m) = magic ∧
      leNat (slice 8 4 (headerBytes codec m)) = formatVersion ∧
      slice 12 4 (headerBytes codec m) = leBytes 4 (codec.toVec m).length ∧
      leNat (leBytes 4 (codec.toVec m).length) = (codec.toVec m).length ∧
      slice 16 (codec.toVec m).length (headerBytes codec m) = codec.toVec m := by
  refine ⟨slice_front rfl, ?_, ?_, ?_, ?_⟩
  · rw [headerBytes, slice_append_right (by simp [magic])]
    show leNat (slice 0 4 _) = _
    rw [slice_front (length_leBytes 4 _)]
    exact leNat_leBytes_of_lt (by decide)
  · rw [headerBytes, slice_append_right (by simp [magic]), slice_append_right (by simp [magic])]
    show slice 0 4 _ = _
    rw [slice_front (length_leBytes 4 _)]
  · refine leNat_leBytes_of_lt ?_
    unfold blockAlign at hfits
    omega
  · rw [headerBytes, slice_append_right (by simp [magic]), slice_append_right (by simp [magic]),
      slice_append_right (by simp [magic])]
    exact slice_front rfl

/-- **The reader sees the picture.** -/
theorem openInner_image (hjson : codec.fromSlice (codec.toVec m) = some m)
    (hfits : (codec.toVec m).length ≤ blockAlign - 16) (hcount : blobs.length = m.total)
    (hend : m.packEnd blobs < 2 ^ 64) (direct : Bool) :
    PackReader.openInner codec (packImage codec m blobs) direct =
      .ok ⟨⟨packImage codec m blobs, direct⟩, m, layout m.indexEnd blobs, none⟩ := by
  have hheaderLen := length_headerBytes hfits
  have hindexLen := length_indexBytes ((length_layout m.indexEnd blobs).trans hcount)
  have hheader : preadFull ⟨packImage codec m blobs, direct⟩ (alignedBuf blockAlign) blockAlign 0
      = .ok ⟨0, headerBytes codec m⟩ := by
    rw [preadFull_aligned (by simp [packImage, hheaderLen]) rfl rfl]
    show Except.ok (⟨0, slice 0 blockAlign (packImage codec m blobs)⟩ : Buf) = _
    rw [packImage, slice_front hheaderLen]
  have hraw : preadFull ⟨packImage codec m blobs, direct⟩
      (alignedBuf (alignUp (m.total * indexEntryBytes))) (alignUp (m.total * indexEntryBytes))
      blockAlign = .ok ⟨0, indexBytes m (layout m.indexEnd blobs)⟩ := by
    rw [preadFull_aligned (by simp [packImage, hheaderLen, hindexLen]) (alignUp_mod _) rfl]
    show Except.ok (⟨0, slice blockAlign _ (packImage codec m blobs)⟩ : Buf) = _
    rw [packImage, slice_append_right hheaderLen.le, hheaderLen, Nat.sub_self,
      slice_front hindexLen]
  obtain ⟨hmagic, hversion, hlenBytes, hlen, hjsonBytes⟩ := slice_headerBytes hfits
  have hjsonLen : leNat (slice 12 4 (headerBytes codec m)) = (codec.toVec m).length := by
    rw [hlenBytes, hlen]
  have hindex := readIndex_eq ((length_layout m.indexEnd blobs).trans hcount)
    (layout_lt hend)
  have hroom : ¬ (headerBytes codec m).length < 16 + (codec.toVec m).length := by
    rw [hheaderLen]
    unfold blockAlign at *
    omega
  simp only [PackReader.openInner, hheader, hmagic, hversion, hjsonLen, hjsonBytes, hjson, hroom,
    hraw, hindex, bind, Except.bind, pure, Except.pure, ne_eq, not_true_eq_false, if_false]

/-! ### Reading blobs -/

namespace PackReader

variable {unzstd : List UInt8 → Nat → Option (List UInt8)} {r r' : PackReader Value}

/-- One successful `read_blob_into`. -/
def ReadStep (unzstd : List UInt8 → Nat → Option (List UInt8)) (r r' : PackReader Value) : Prop :=
  ∃ layer expert buf n buf', r.readBlobInto unzstd layer expert buf = .ok (n, buf', r')

/-- `r'` is the reader `r` but for the scratch buffer, which holds any frame. -/
structure SameButScratch (r r' : PackReader Value) : Prop where
  file : r'.file = r.file
  packMeta : r'.packMeta = r.packMeta
  index : r'.index = r.index
  scratch : ∀ b, r'.scratch = some b →
    b.addr % blockAlign = 0 ∧ alignUp r.maxStoredBytes ≤ b.bytes.length ∧
      alignUp r.maxStoredBytes < 2 ^ 63

theorem maxStoredBytes_congr (h : r'.index = r.index) : r'.maxStoredBytes = r.maxStoredBytes := by
  rw [maxStoredBytes, h]
  rfl

theorem nbytes_le_maxStored {e : IndexEntry} {layer expert : Nat}
    (h : r.entry layer expert = some e) : e.nbytes ≤ r.maxStoredBytes :=
  List.le_max?_getD_of_mem (List.mem_map_of_mem (List.mem_of_getElem? h))

/-- The longest of some lengths rounds up as they do. -/
theorem alignUp_max?_lt {lengths : List Nat} {n : Nat} (hn : 0 < n)
    (h : ∀ len ∈ lengths, alignUp len < n) : alignUp (lengths.max?.getD 0) < n := by
  cases hmax : lengths.max? with
  | none => exact hn
  | some longest => exact h longest (List.max?_mem hmax)

theorem newAligned_eq_some {len : Nat} {b : Buf} :
    newAligned len = some b ↔ alignUp len < 2 ^ 63 ∧ b = alignedBuf len := by
  unfold newAligned
  split
  · rename_i hlt
    rw [Option.some.injEq]
    exact ⟨fun h => ⟨hlt, h.symm⟩, fun h => h.2.symm⟩
  · rename_i hge
    exact ⟨nofun, fun h => absurd h.1 hge⟩

/-- The scratch buffer has room for every stored blob. -/
theorem SameButScratch.room (h : SameButScratch r r') {b : Buf} (hb : r'.scratchBuf = some b) :
    b.addr % blockAlign = 0 ∧ alignUp r.maxStoredBytes ≤ b.bytes.length ∧
      alignUp r.maxStoredBytes < 2 ^ 63 := by
  unfold scratchBuf at hb
  cases hs : r'.scratch with
  | some b' =>
      rw [hs, Option.some_or] at hb
      exact h.scratch b (hs.trans hb)
  | none =>
      rw [hs, Option.none_or] at hb
      obtain ⟨hlt, rfl⟩ := newAligned_eq_some.mp hb
      rw [maxStoredBytes_congr h.index, alignUp_of_aligned (alignUp_mod _)] at hlt
      refine ⟨rfl, ?_, hlt⟩
      show _ ≤ (List.replicate _ _).length
      rw [List.length_replicate, maxStoredBytes_congr h.index]
      exact le_alignUp _

theorem SameButScratch.scratchBuf_eq_none (h : SameButScratch r r')
    (hlong : ¬ alignUp r.maxStoredBytes < 2 ^ 63) : r'.scratchBuf = none := by
  cases hb : r'.scratchBuf with
  | none => rfl
  | some b => exact absurd (h.room hb).2.2 hlong

/-- There is a scratch buffer, unless it would be too long for a `Layout`. -/
theorem exists_scratchBuf (h : alignUp r.maxStoredBytes < 2 ^ 63) :
    ∃ b, r.scratchBuf = some b := by
  unfold scratchBuf
  cases r.scratch with
  | some b => exact ⟨b, rfl⟩
  | none =>
      refine ⟨_, newAligned_eq_some.mpr ⟨?_, rfl⟩⟩
      rwa [alignUp_of_aligned (alignUp_mod _)]

theorem lt_of_scratchBuf {b : Buf} (hr : r.scratch = none) (h : r.scratchBuf = some b) :
    alignUp r.maxStoredBytes < 2 ^ 63 := by
  rw [scratchBuf, hr, Option.none_or, newAligned_eq_some, alignUp_of_aligned (alignUp_mod _)] at h
  exact h.1

theorem preadFull_frame {f : PackFile} {buf buf' : Buf} {n offset : Nat}
    (h : preadFull f buf n offset = .ok buf') (hn : n ≤ buf.bytes.length) :
    buf'.addr = buf.addr ∧ buf'.bytes.length = buf.bytes.length := by
  unfold preadFull at h
  split at h
  · cases h
    exact ⟨rfl, rfl⟩
  · split at h
    · cases h
    · split at h
      · cases h
      · cases h
        refine ⟨rfl, ?_⟩
        simp only [slice, List.length_append, List.length_take, List.length_drop]
        omega

/-- A read fills the buffer's start, whatever the buffer held. -/
theorem preadFull_take {f : PackFile} {buf buf' : Buf} {k n offset : Nat} (h : preadFull f buf n offset = .ok buf')
    (hk : k ≤ n) : buf'.bytes.take k = (slice offset n f.bytes).take k := by
  unfold preadFull at h
  split at h
  · rename_i hn
    obtain rfl : k = 0 := by omega
    rfl
  · split at h
    · cases h
    · split at h
      · cases h
      · cases h
        refine List.take_append_of_le_length ?_
        simp only [slice, List.length_take, List.length_drop]
        omega

/-- **Inversion of `read_blob_into`**: a raw pack is read into the buffer, a
compressed one through the scratch buffer. -/
theorem readBlobInto_cases {layer expert n : Nat} {buf buf' : Buf}
    (h : r.readBlobInto unzstd layer expert buf = .ok (n, buf', r')) :
    ∃ e, r.entry layer expert = some e ∧ alignUp e.nbytes < 2 ^ 64 ∧
      ((r.packMeta.compression = none ∧ alignUp e.nbytes ≤ buf.bytes.length ∧
          preadFull r.file buf (alignUp e.nbytes) e.offset = .ok buf' ∧ n = e.nbytes ∧ r' = r) ∨
        (r.packMeta.compression ≠ none ∧ ∃ scratch b out, r.scratchBuf = some scratch ∧
          alignUp e.nbytes ≤ scratch.bytes.length ∧
            preadFull r.file scratch (alignUp e.nbytes) e.offset = .ok b ∧
            unzstd (b.bytes.take e.nbytes) buf.bytes.length = some out ∧ n = out.length ∧
            buf' = { buf with bytes := out ++ buf.bytes.drop out.length } ∧
            r' = { r with scratch := some b })) := by
  unfold readBlobInto at h
  split at h
  · cases h
  · rename_i e he
    simp only at h
    split at h
    · cases h
    · rename_i hspan
      refine ⟨e, he, Nat.not_le.mp hspan, ?_⟩
      split at h
      · rename_i hraw
        split at h
        · cases h
        · rename_i hlen
          split at h
          · cases h
          · cases hpread : preadFull r.file buf (alignUp e.nbytes) e.offset with
            | error err => rw [hpread] at h; cases h
            | ok b =>
                rw [hpread] at h
                cases h
                exact .inl ⟨hraw, by omega, rfl, rfl, rfl⟩
      · rename_i hzstd
        split at h
        · cases h
        · rename_i scratch hscratch
          split at h
          · cases h
          · rename_i hroom
            cases hpread : preadFull r.file scratch (alignUp e.nbytes) e.offset with
            | error err =>
                rw [hpread] at h
                cases h
            | ok b =>
                rw [hpread] at h
                simp only [bind, Except.bind] at h
                split at h
                · cases h
                · rename_i out hout
                  cases h
                  exact .inr ⟨hzstd, scratch, b, out, hscratch, Nat.not_lt.mp hroom, hpread, hout,
                    rfl, rfl, rfl⟩

theorem SameButScratch.step (h : SameButScratch r r') {r'' : PackReader Value}
    (hstep : ReadStep unzstd r' r'') : SameButScratch r r'' := by
  obtain ⟨layer, expert, buf, n, buf', hread⟩ := hstep
  obtain ⟨e, -, -, hcases⟩ := readBlobInto_cases hread
  rcases hcases with ⟨-, -, -, -, rfl⟩ | ⟨-, scratch, b, out, hscratch, hroom, hpread, -, -, -, rfl⟩
  · exact h
  · obtain ⟨haddr, hlen⟩ := preadFull_frame hpread hroom
    obtain ⟨haddr', hlen', hlt⟩ := h.room hscratch
    refine ⟨h.file, h.packMeta, h.index, fun b' hb' => ?_⟩
    cases hb'
    rw [haddr, hlen]
    exact ⟨haddr', hlen', hlt⟩

theorem SameButScratch.start (hr : r.scratch = none) : SameButScratch r r :=
  ⟨rfl, rfl, rfl, fun _ hb => absurd (hr.symm.trans hb) nofun⟩

theorem SameButScratch.run (hr : r.scratch = none)
    (h : Relation.ReflTransGen (ReadStep unzstd) r r') : SameButScratch r r' := by
  induction h with
  | refl => exact .start hr
  | tail _ hstep ih => exact ih.step hstep

/-- An entry of the file: aligned, inside, with the padded blob at its span. -/
structure Located (bytes blob : List UInt8) (e : IndexEntry) : Prop where
  nbytes : e.nbytes = blob.length
  aligned : e.offset % blockAlign = 0
  inside : e.offset + alignUp e.nbytes ≤ bytes.length
  bytes : slice e.offset (alignUp e.nbytes) bytes = padBlob blob

/-- Behind a front of the right size, the blobs are where the layout says. -/
theorem Located.behind {blob front : List UInt8} {e : IndexEntry}
    (hfront : front.length = m.indexEnd) (h : Placed m.indexEnd blobs blob e) :
    Located (front ++ packData blobs) blob e := by
  have hstart := h.start_le
  have hend := h.end_le
  refine ⟨h.nbytes, h.aligned (alignUp_mod _), ?_, ?_⟩
  · rw [List.length_append]
    omega
  · rw [slice_append_right (by omega), hfront]
    exact h.bytes

/-- In the picture, the blobs are where the layout says. -/
theorem Located.of_placed {blob : List UInt8} {e : IndexEntry}
    (hfits : (codec.toVec m).length ≤ blockAlign - 16) (hcount : blobs.length = m.total)
    (h : Placed m.indexEnd blobs blob e) : Located (packImage codec m blobs) blob e := by
  rw [packImage, ← List.append_assoc]
  refine .behind ?_ h
  rw [List.length_append, length_headerBytes hfits,
    length_indexBytes ((length_layout m.indexEnd blobs).trans hcount), indexEnd_eq]

variable {layer expert : Nat} {e : IndexEntry} {buf : Buf} {blob : List UInt8}

/-- A raw pack: the blob, then its padding. -/
theorem readBlobInto_raw (hentry : r.entry layer expert = some e)
    (hloc : Located r.file.bytes blob e) (hraw : r.packMeta.compression = none)
    (haddr : r.file.direct = true → buf.addr % blockAlign = 0)
    (hlen : alignUp e.nbytes ≤ buf.bytes.length) (hspan : alignUp e.nbytes < 2 ^ 64) :
    r.readBlobInto unzstd layer expert buf =
      .ok (blob.length, ⟨buf.addr, padBlob blob ++ buf.bytes.drop (alignUp e.nbytes)⟩, r) := by
  simp only [readBlobInto, hentry, hraw, if_true]
  rw [if_neg (by omega), if_neg (by omega), if_neg (fun h => h.2 (haddr h.1)),
    preadFull_ok hloc.inside haddr (alignUp_mod _) hloc.aligned, hloc.bytes, hloc.nbytes]
  rfl

/-- A compressed pack: what the blob decompresses to. -/
theorem readBlobInto_zstd (unzstd : List UInt8 → Nat → Option (List UInt8)) (buf : Buf)
    (hsame : SameButScratch r r') (hentry : r'.entry layer expert = some e)
    (hloc : Located r'.file.bytes blob e) (hzstd : r'.packMeta.compression ≠ none)
    (hroom : alignUp r'.maxStoredBytes < 2 ^ 63) :
    ∃ scratch, r'.readBlobInto unzstd layer expert buf =
      match unzstd blob buf.bytes.length with
      | none => .error .zstd
      | some out => .ok (out.length, { buf with bytes := out ++ buf.bytes.drop out.length },
          { r' with scratch := some scratch }) := by
  obtain ⟨b, hb⟩ := exists_scratchBuf hroom
  obtain ⟨haddr, hlen, -⟩ := hsame.room hb
  have hspan := alignUp_mono (nbytes_le_maxStored hentry)
  rw [← maxStoredBytes_congr hsame.index] at hlen
  have hframe : (padBlob blob ++ b.bytes.drop (alignUp e.nbytes)).take e.nbytes = blob := by
    rw [hloc.nbytes, padBlob, List.append_assoc, List.take_left']
    rfl
  refine ⟨⟨b.addr, padBlob blob ++ b.bytes.drop (alignUp e.nbytes)⟩, ?_⟩
  simp only [readBlobInto, hentry, hzstd, if_false, hb]
  rw [if_neg (by omega), if_neg (by omega), preadFull_ok hloc.inside (fun _ => haddr) (alignUp_mod _) hloc.aligned,
    hloc.bytes]
  cases hout : unzstd blob buf.bytes.length with
  | none => simp [bind, Except.bind, hframe, hout]
  | some out => simp [bind, Except.bind, hframe, hout]

/-- What a reader answers for one expert of a pack file. -/
structure Serves (unzstd : List UInt8 → Nat → Option (List UInt8)) (bytes : List UInt8)
    (r : PackReader Value) (layer expert : Nat) (blob : List UInt8) (e : IndexEntry) : Prop where
  entry : r.entry layer expert = some e
  nbytes : e.nbytes = blob.length
  aligned : e.offset % blockAlign = 0
  after : r.packMeta.indexEnd ≤ e.offset
  inside : e.offset + alignUp e.nbytes ≤ bytes.length
  /-- A raw pack returns the blob. -/
  raw : r.packMeta.compression = none → ∀ buf : Buf,
    (r.file.direct = true → buf.addr % blockAlign = 0) →
    alignUp e.nbytes ≤ buf.bytes.length → ∃ buf',
      r.readBlobInto unzstd layer expert buf = .ok (blob.length, buf', r) ∧
      buf'.bytes.take blob.length = blob
  /-- A compressed pack returns what the blob decompresses to. -/
  compressed : r.packMeta.compression ≠ none → alignUp r.maxStoredBytes < 2 ^ 63 →
    ∀ (buf : Buf) out,
    unzstd blob buf.bytes.length = some out → ∃ buf' r',
      r.readBlobInto unzstd layer expert buf = .ok (out.length, buf', r') ∧
      buf'.bytes.take out.length = out

end PackReader

/-- The index holds the lengths of the blobs. -/
theorem nbytes_layout (start : Nat) (blobs : List (List UInt8)) :
    (layout start blobs).map IndexEntry.nbytes = blobs.map List.length := by
  induction blobs generalizing start with
  | nil => rfl
  | cons blob rest ih => simp [layout, ih]

/-- **A pack serves its blobs**, whatever was read before. -/
theorem serves_image (unzstd : List UInt8 → Nat → Option (List UInt8)) {m : PackMeta Value}
    {blobs : List (List UInt8)} (hjson : codec.fromSlice (codec.toVec m) = some m)
    (hfits : (codec.toVec m).length ≤ blockAlign - 16) (hcount : blobs.length = m.total)
    (hend : m.packEnd blobs < 2 ^ 64) (direct : Bool) :
    ∃ r, PackReader.openInner codec (packImage codec m blobs) direct = .ok r ∧
      r.file.direct = direct ∧
      ∀ r', Relation.ReflTransGen (PackReader.ReadStep unzstd) r r' → r'.packMeta = m ∧
        r'.file = r.file ∧ r'.maxStoredBytes = (blobs.map List.length).max?.getD 0 ∧
        ∀ layer < m.numLayers.toNat, ∀ expert < m.expertsPerLayer.toNat, ∃ blob e,
          blobs[layer * m.expertsPerLayer.toNat + expert]? = some blob ∧
          r'.Serves unzstd (packImage codec m blobs) layer expert blob e := by
  refine ⟨_, openInner_image hjson hfits hcount hend direct, rfl, fun r' hreads => ?_⟩
  have hsame := PackReader.SameButScratch.run rfl hreads
  have hmeta : r'.packMeta = m := hsame.packMeta
  have hmax : r'.maxStoredBytes = (blobs.map List.length).max?.getD 0 := by
    rw [PackReader.maxStoredBytes_congr hsame.index]
    exact congrArg (fun l : List Nat => l.max?.getD 0) (nbytes_layout _ _)
  refine ⟨hmeta, hsame.file, hmax, fun layer hlayer expert hexpert => ?_⟩
  have hlt : flatId m.expertsPerLayer.toNat (layer, expert) < blobs.length := by
    rw [hcount]
    exact flatId_lt hlayer hexpert
  obtain ⟨e, he, hp⟩ := placed m.indexEnd blobs _ (List.getElem?_eq_getElem hlt)
  have hentry : r'.entry layer expert = some e := by
    rw [PackReader.entry, hmeta, hsame.index]
    exact he
  have hloc := PackReader.Located.of_placed hfits hcount hp
  have hloc' : PackReader.Located r'.file.bytes blobs[flatId m.expertsPerLayer.toNat (layer, expert)]
      e := by
    rw [hsame.file]
    exact hloc
  have hspan : alignUp e.nbytes < 2 ^ 64 := by
    have hle := hp.end_le_packEnd
    omega
  refine ⟨_, e, List.getElem?_eq_getElem hlt, hentry, hp.nbytes, hloc.aligned, hmeta ▸ hp.start_le,
    hloc.inside, fun hraw buf haddr hlen => ?_, fun hzstd hroom buf out hout => ?_⟩
  · exact ⟨_, PackReader.readBlobInto_raw hentry hloc' hraw haddr hlen hspan, by simp [padBlob]⟩
  · obtain ⟨scratch, hread⟩ :=
      PackReader.readBlobInto_zstd unzstd buf hsame hentry hloc' hzstd hroom
    rw [hout] at hread
    exact ⟨_, _, hread, by simp⟩

/-! ### Packs that were written -/

theorem addBlob_ok {w w' : PackWriter Value} {blob : List UInt8} (h : w.addBlob blob = .ok w') :
    w'.packMeta = w.packMeta ∧ w'.indexEnd = w.indexEnd ∧ w'.index.length = w.index.length + 1 ∧
      w'.cursor = w.cursor + alignUp blob.length ∧ w'.cursor < 2 ^ 64 := by
  unfold PackWriter.addBlob at h
  split at h
  · cases h
  · dsimp only at h
    split at h
    · cases h
    · next hend =>
      cases h
      exact ⟨rfl, rfl, by simp, rfl, by simpa using hend⟩

theorem foldlM_addBlob_ok {w w' : PackWriter Value} {blobs : List (List UInt8)}
    (h : blobs.foldlM PackWriter.addBlob w = .ok w') (hw : w.cursor < 2 ^ 64) :
    w'.packMeta = w.packMeta ∧ w'.indexEnd = w.indexEnd ∧
      w'.index.length = w.index.length + blobs.length ∧
      w'.cursor = w.cursor + (blobs.map fun b => alignUp b.length).sum ∧ w'.cursor < 2 ^ 64 := by
  induction blobs generalizing w with
  | nil =>
      cases h
      exact ⟨rfl, rfl, rfl, by simp, hw⟩
  | cons blob blobs ih =>
      rw [List.foldlM_cons] at h
      obtain ⟨w₁, hw₁, h⟩ := Except.ok_parts h
      obtain ⟨hmeta₁, hend₁, hlen₁, hcursor₁, hlt₁⟩ := addBlob_ok hw₁
      obtain ⟨hmeta, hend, hlen, hcursor, hlt⟩ := ih h hlt₁
      refine ⟨hmeta.trans hmeta₁, hend.trans hend₁, ?_, ?_, hlt⟩
      · rw [hlen, hlen₁, List.length_cons, Nat.add_assoc, Nat.add_comm 1]
      · rw [hcursor, hcursor₁, List.map_cons, List.sum_cons, Nat.add_assoc]

theorem indexEnd_lt (m : PackMeta Value) : m.indexEnd < 2 ^ 64 := by
  have hlayers := m.numLayers.toNat_lt
  have hexperts := m.expertsPerLayer.toNat_lt
  have htotal : m.total ≤ 2 ^ 16 * 2 ^ 16 := Nat.mul_le_mul hlayers.le hexperts.le
  unfold PackMeta.indexEnd alignUp blockAlign indexEntryBytes
  omega

/-- A pack that was written has as many blobs as its metadata says. -/
theorem writePack_ok {m : PackMeta Value} {blobs : List (List UInt8)} {bytes : List UInt8}
    (h : writePack codec m blobs = .ok bytes) :
    (codec.toVec m).length ≤ blockAlign - 16 ∧ blobs.length = m.total ∧
      m.packEnd blobs < 2 ^ 64 ∧ bytes = packImage codec m blobs := by
  have hwrite := h
  obtain ⟨w, hw, hfinish⟩ := Except.ok_parts h
  obtain ⟨hmeta, -, hlen, hcursor, hlt⟩ := foldlM_addBlob_ok hw (indexEnd_lt m)
  have hindex : w.index.length = m.total ∧ (codec.toVec m).length ≤ blockAlign - 16 := by
    have hm : w.packMeta = m := hmeta
    unfold PackWriter.finish at hfinish
    rw [hm] at hfinish
    split at hfinish
    · cases hfinish
    · next hcount =>
      dsimp only at hfinish
      split at hfinish
      · cases hfinish
      · next hfits => exact ⟨not_not.mp hcount, Nat.not_lt.mp hfits⟩
  have hcount : blobs.length = m.total := by
    rw [← hindex.1, hlen]
    simp [PackWriter.create]
  have hend : m.packEnd blobs < 2 ^ 64 := by
    rw [hcursor] at hlt
    exact hlt
  refine ⟨hindex.2, hcount, hend, ?_⟩
  rw [writePack_eq hindex.2 hcount hend] at hwrite
  exact (Except.ok.inj hwrite).symm

/-- The aligned span of an entry. -/
def IndexEntry.span (e : IndexEntry) : Set Nat :=
  Set.Ico e.offset (e.offset + alignUp e.nbytes)

/-- Spans of different entries are disjoint, in whichever order they come. -/
theorem layout_disjoint {start i j : Nat} {e e' : IndexEntry} (hij : i ≠ j)
    (hi : (layout start blobs)[i]? = some e) (hj : (layout start blobs)[j]? = some e') :
    Disjoint e.span e'.span := by
  have hpair := List.pairwise_iff_getElem.mp (layout_pairwise start blobs)
  obtain ⟨hi', rfl⟩ := List.getElem?_eq_some_iff.mp hi
  obtain ⟨hj', rfl⟩ := List.getElem?_eq_some_iff.mp hj
  refine Set.disjoint_left.mpr fun x hx hx' => ?_
  obtain ⟨hlo, hhi⟩ := hx
  obtain ⟨hlo', hhi'⟩ := hx'
  rcases Nat.lt_or_gt_of_ne hij with hlt | hlt
  · have := hpair i j hi' hj' hlt
    omega
  · have := hpair j i hj' hi' hlt
    omega

/-- **Round trip.** A pack written from any blobs opens, directly or through the
page cache, with the same metadata; every expert's entry is an aligned span
after the index and inside the file, the spans are disjoint, and reading it, in
any order and as often as one likes, gives back the blob — or, in a compressed
pack, what the blob decompresses to. -/
theorem round_trip (codec : Codec Value) (unzstd : List UInt8 → Nat → Option (List UInt8))
    (m : PackMeta Value) (blobs : List (List UInt8))
    (hjson : codec.fromSlice (codec.toVec m) = some m)
    (hfits : (codec.toVec m).length ≤ blockAlign - 16) (hcount : blobs.length = m.total)
    (hend : m.packEnd blobs < 2 ^ 64) :
    ∃ bytes, writePack codec m blobs = .ok bytes ∧ ∀ direct, ∃ r,
      PackReader.openInner codec bytes direct = .ok r ∧
      ∀ r', Relation.ReflTransGen (PackReader.ReadStep unzstd) r r' →
        r'.packMeta = m ∧
        (∀ layer < m.numLayers.toNat, ∀ expert < m.expertsPerLayer.toNat, ∃ blob e,
          blobs[layer * m.expertsPerLayer.toNat + expert]? = some blob ∧
          r'.Serves unzstd bytes layer expert blob e) ∧
        (∀ layer < m.numLayers.toNat, ∀ expert < m.expertsPerLayer.toNat,
          ∀ layer' < m.numLayers.toNat, ∀ expert' < m.expertsPerLayer.toNat, ∀ e e',
          (layer, expert) ≠ (layer', expert') → r'.entry layer expert = some e →
          r'.entry layer' expert' = some e' → Disjoint e.span e'.span) := by
  refine ⟨packImage codec m blobs, writePack_eq hfits hcount hend, fun direct => ?_⟩
  refine ⟨_, openInner_image hjson hfits hcount hend direct, fun r' hreads => ?_⟩
  have hsame := PackReader.SameButScratch.run rfl hreads
  have hmeta : r'.packMeta = m := hsame.packMeta
  have hentry : ∀ layer expert, r'.entry layer expert =
      (layout m.indexEnd blobs)[flatId m.expertsPerLayer.toNat (layer, expert)]? := by
    intro layer expert
    rw [PackReader.entry, hmeta, hsame.index]
  refine ⟨hmeta, fun layer hlayer expert hexpert => ?_, ?_⟩
  · have hlt : flatId m.expertsPerLayer.toNat (layer, expert) < blobs.length := by
      rw [hcount]
      exact flatId_lt hlayer hexpert
    obtain ⟨blob, hblob⟩ : ∃ blob,
        blobs[flatId m.expertsPerLayer.toNat (layer, expert)]? = some blob :=
      ⟨_, List.getElem?_eq_getElem hlt⟩
    obtain ⟨e, he, hp⟩ := placed m.indexEnd blobs _ hblob
    have hloc : PackReader.Located r'.file.bytes blob e := by
      rw [hsame.file]
      exact .of_placed hfits hcount hp
    have hspan : alignUp e.nbytes < 2 ^ 64 := by
      have hle := hp.end_le_packEnd
      omega
    refine ⟨blob, e, hblob, ?_⟩
    refine ⟨(hentry _ _).trans he, hp.nbytes, hloc.aligned, hmeta ▸ hp.start_le, ?_, ?_, ?_⟩
    · rw [hsame.file] at hloc
      exact hloc.inside
    · intro hraw buf haddr hlen
      refine ⟨_, PackReader.readBlobInto_raw ((hentry _ _).trans he) hloc hraw haddr hlen hspan, ?_⟩
      simp [padBlob]
    · intro hzstd hroom buf out hout
      obtain ⟨scratch, hread⟩ :=
        PackReader.readBlobInto_zstd unzstd buf hsame ((hentry _ _).trans he) hloc hzstd hroom
      rw [hout] at hread
      exact ⟨_, _, hread, by simp⟩
  · intro layer _ expert hexpert layer' _ expert' hexpert' e e' hne he he'
    rw [hentry] at he he'
    exact layout_disjoint (fun h => hne (flatId_injective hexpert hexpert' h)) he he'

end

/-! ### Two packs of two blobs -/

/-- The metadata of a pack of one layer of two experts. -/
def pairMeta (compression : Option String) : PackMeta Unit :=
  { model := "x", numLayers := 1, expertsPerLayer := 2, dtype := "raw", config := (),
    compression := compression, maxRawBlob := 0 }

/-- What `serde_json` writes for it: null, absent and zero fields are skipped. -/
def pairJson (compression : Option String) : List UInt8 :=
  let fields := "\"model\":\"x\",\"num_layers\":1,\"experts_per_layer\":2,\"dtype\":\"raw\""
  let zstd := if compression = none then "" else ",\"compression\":\"zstd\""
  ("\x7b" ++ fields ++ zstd ++ "\x7d").toList.map fun c => UInt8.ofNat c.toNat

/-- A codec that knows the raw and the compressed one. -/
def pairCodec : Codec Unit where
  toVec m := pairJson m.compression
  fromSlice bytes :=
    if bytes = pairJson none then some (pairMeta none)
    else if bytes = pairJson (some "zstd") then some (pairMeta (some "zstd"))
    else none

/-- A decompressor refuses what does not begin with the magic number of a
frame. -/
def refuse (frame : List UInt8) (_ : Nat) : Option (List UInt8) :=
  if frame.take 4 = [0x28, 0xB5, 0x2F, 0xFD] then some [] else none

/-- An empty blob and one of three bytes, in a raw pack. -/
theorem round_trip_pair :
    ∃ bytes r e buf, writePack pairCodec (pairMeta none) [[], [1, 2, 3]] = .ok bytes ∧
      PackReader.openInner pairCodec bytes true = .ok r ∧ r.entry 0 1 = some e ∧ e.nbytes = 3 ∧
      r.readBlobInto refuse 0 1 (alignedBuf 3) = .ok (3, buf, r) ∧ buf.bytes.take 3 = [1, 2, 3] := by
  obtain ⟨bytes, hwrite, hread⟩ := round_trip pairCodec refuse (pairMeta none) [[], [1, 2, 3]]
    (by decide) (by decide) rfl (by decide)
  obtain ⟨r, hopen, hserves⟩ := hread true
  obtain ⟨hmeta, hexpert, -⟩ := hserves r .refl
  obtain ⟨blob, e, hblob, hserve⟩ := hexpert 0 (by decide) 1 (by decide)
  obtain rfl : [1, 2, 3] = blob := Option.some.inj hblob
  obtain ⟨buf, hbuf, htake⟩ := hserve.raw (by rw [hmeta]; rfl) (alignedBuf 3) (fun _ => rfl)
    (by
      rw [hserve.nbytes]
      simp [alignedBuf])
  exact ⟨bytes, r, e, buf, hwrite, hopen, hserve.entry, hserve.nbytes, hbuf, htake⟩

/-- **A compressed pack stores frames, not blobs.** Three bytes that are no frame
are written without complaint, and reading them fails. -/
theorem compressed_pack_refuses_blob :
    pairCodec.fromSlice (pairCodec.toVec (pairMeta (some "zstd"))) = some (pairMeta (some "zstd")) ∧
    (pairCodec.toVec (pairMeta (some "zstd"))).length ≤ blockAlign - 16 ∧
    ∃ bytes r, writePack pairCodec (pairMeta (some "zstd")) [[], [1, 2, 3]] = .ok bytes ∧
      PackReader.openInner pairCodec bytes false = .ok r ∧
      r.readBlobInto refuse 0 1 (alignedBuf 3) = .error .zstd := by
  refine ⟨by decide, by decide, _, _, writePack_eq (by decide) rfl (by decide),
    openInner_image (by decide) (by decide) rfl (by decide) false, ?_⟩
  obtain ⟨e, he, hp⟩ := placed (pairMeta (some "zstd")).indexEnd [[], [1, 2, 3]] 1 rfl
  have hloc : PackReader.Located (packImage pairCodec _ _) _ e := .of_placed (by decide) rfl hp
  have hentry : (⟨⟨packImage pairCodec (pairMeta (some "zstd")) [[], [1, 2, 3]], false⟩,
      pairMeta (some "zstd"), layout (pairMeta (some "zstd")).indexEnd [[], [1, 2, 3]], none⟩ :
      PackReader Unit).entry 0 1 = some e := he
  obtain ⟨scratch, hread⟩ :=
    PackReader.readBlobInto_zstd refuse (alignedBuf 3) (.start rfl) hentry hloc (by decide) (by decide)
  exact hread

end LlmPager
