import LlmPager.Core.PackRoundTrip

/-!
# LlmPager.Core.PackCrash

What a reader finds in a pack whose writing stopped.

`packOps` are the file operations of `create`, `add_blob` and `finish` in
program order, up to the first error; replaying all of them gives what
`writePack` leaves (`replay_packOps`). A writer that stops has replayed a
prefix, byte by byte (`stoppedFile`): because a call returned an error, because
an underlying write failed, or because the process died.

`finish` writes the header before the index. Until the header's JSON is whole,
the file is rejected. From there on it opens, and the entries of the index that
have not been written read as zero (`cutEntry`): `stopped_complete_iff` says at
which points that goes unnoticed.
-/

namespace LlmPager

open Lib

variable {Value : Type}

/-! ### Stopping -/

namespace PackWriter

/-- The writes of `add_blob`; the cursor is advanced after them. No padding is
no byte. -/
def addBlobOps (w : PackWriter Value) (blob : List UInt8) : List (FileOp UInt8) :=
  if w.index.length = w.packMeta.total then []
  else [.write blob, .write (List.replicate (alignUp blob.length - blob.length) 0)]

/-- The operations of `finish`; the metadata is serialised after the seek. -/
def finishOps (codec : Codec Value) (w : PackWriter Value) : List (FileOp UInt8) :=
  if w.index.length ≠ w.packMeta.total then []
  else
    let json := codec.toVec w.packMeta
    .seek 0 ::
      if blockAlign - 16 < json.length then []
      else
        [.write magic, .write (leBytes 4 formatVersion), .write (leBytes 4 json.length),
          .write json, .write (List.replicate (blockAlign - 16 - json.length) 0)] ++
        w.index.flatMap (fun e => [.write (leBytes 8 e.offset), .write (leBytes 8 e.nbytes)]) ++
        [.write (List.replicate (w.indexEnd - (blockAlign + w.packMeta.total * indexEntryBytes)) 0)]

/-- The operations from a writer on, up to the first error. -/
def packOps (codec : Codec Value) : PackWriter Value → List (List UInt8) → List (FileOp UInt8)
  | w, [] => w.finishOps codec
  | w, blob :: rest =>
      w.addBlobOps blob ++
        match w.addBlob blob with
        | .ok w' => packOps codec w' rest
        | .error _ => []

end PackWriter

/-- All that is asked of the file of a pack. -/
def packOps (codec : Codec Value) (m : PackMeta Value) (blobs : List (List UInt8)) :
    List (FileOp UInt8) :=
  .seek m.indexEnd :: (PackWriter.create m).packOps codec blobs

/-- The file when writing stops after `n` steps: a step is a seek, or one byte. -/
def stoppedFile (codec : Codec Value) (m : PackMeta Value) (blobs : List (List UInt8)) (n : Nat) :
    List UInt8 :=
  ((⟨[], 0⟩ : Sink UInt8).replay (((packOps codec m blobs).flatMap FileOp.itemwise).take n)).data

/-- How many bytes of header and index have been written after `n` steps: before
them come two seeks and the data. -/
def finishReached (blobs : List (List UInt8)) (n : Nat) : Nat :=
  n - (2 + (packData blobs).length)

section

variable {codec : Codec Value} {m : PackMeta Value} {blobs : List (List UInt8)} {w : PackWriter Value}
  {n s : Nat}

theorem replay_addBlobOps {blob : List UInt8} {w' : PackWriter Value}
    (h : w.addBlob blob = .ok w') : w.file.replay (w.addBlobOps blob) = w'.file := by
  unfold PackWriter.addBlob at h
  unfold PackWriter.addBlobOps
  split at h
  · cases h
  · rename_i hfull
    rw [if_neg hfull]
    simp only at h
    split at h
    · cases h
    · cases h
      exact (writePad_eq _ _).symm

theorem replay_finishOps {bytes : List UInt8} (h : w.finish codec = .ok bytes) :
    (w.file.replay (w.finishOps codec)).data = bytes := by
  unfold PackWriter.finish at h
  unfold PackWriter.finishOps
  split at h
  · cases h
  · rename_i hindex
    rw [if_neg hindex]
    simp only at h ⊢
    split at h
    · cases h
    · rename_i hfits
      cases h
      rw [if_neg hfits]
      have hentries : ∀ f : Sink UInt8,
          f.replay (w.index.flatMap fun e => [.write (leBytes 8 e.offset),
            .write (leBytes 8 e.nbytes)]) =
          w.index.foldl (fun f e => (f.write (leBytes 8 e.offset)).write (leBytes 8 e.nbytes)) f := by
        intro f
        induction w.index generalizing f with
        | nil => rfl
        | cons e rest ih =>
            rw [List.flatMap_cons, Sink.replay_append]
            exact ih _
      rw [← List.singleton_append, Sink.replay_append, Sink.replay_append, Sink.replay_append,
        hentries, writePad_eq]
      rfl

theorem replay_writer {bytes : List UInt8} (h : (do
      let w ← blobs.foldlM PackWriter.addBlob w
      w.finish codec) = Except.ok bytes) :
    (w.file.replay (w.packOps codec blobs)).data = bytes := by
  induction blobs generalizing w with
  | nil => exact replay_finishOps h
  | cons blob rest ih =>
      rw [List.foldlM_cons] at h
      unfold PackWriter.packOps
      cases hadd : w.addBlob blob with
      | error err =>
          rw [hadd] at h
          cases h
      | ok w' =>
          rw [hadd] at h
          rw [Sink.replay_append, replay_addBlobOps hadd]
          exact ih h

/-- **Nothing is missing**: a pack that was written is the replay of its
operations. -/
theorem replay_packOps {bytes : List UInt8} (h : writePack codec m blobs = .ok bytes) :
    ((⟨[], 0⟩ : Sink UInt8).replay (packOps codec m blobs)).data = bytes :=
  replay_writer h

/-! ### How far it got -/

/-- The pack can be written. -/
structure Fits (codec : Codec Value) (m : PackMeta Value) (blobs : List (List UInt8)) : Prop where
  count : blobs.length = m.total
  json : (codec.toVec m).length ≤ blockAlign - 16
  size : m.packEnd blobs < 2 ^ 64

/-- Header and index of a pack, in the order in which they are written. -/
def frontBytes (codec : Codec Value) (m : PackMeta Value) (blobs : List (List UInt8)) : List UInt8 :=
  headerBytes codec m ++ indexBytes m (layout m.indexEnd blobs)

theorem length_frontBytes (hfits : Fits codec m blobs) :
    (frontBytes codec m blobs).length = m.indexEnd := by
  rw [frontBytes, List.length_append, length_headerBytes hfits.json,
    length_indexBytes ((length_layout m.indexEnd blobs).trans hfits.count), indexEnd_eq]

/-- A list of bytes as one-byte writes. -/
def byteWrites (b : List UInt8) : List (FileOp UInt8) := b.map fun x => .write [x]

theorem itemwise_entries (index : List IndexEntry) :
    (index.flatMap fun e => [FileOp.write (leBytes 8 e.offset),
      .write (leBytes 8 e.nbytes)]).flatMap FileOp.itemwise =
        byteWrites (index.flatMap entryBytes) := by
  induction index with
  | nil => rfl
  | cons e rest ih =>
      rw [List.flatMap_cons, List.flatMap_append, ih, List.flatMap_cons]
      simp [byteWrites, FileOp.itemwise, entryBytes]

variable (codec blobs) in
/-- What a writer asks of its file from some point on: the blobs that fit, and
the front only if all of them do. -/
theorem itemwise_packOps (hend : w.indexEnd = w.packMeta.indexEnd) (hcursor : w.cursor < 2 ^ 64) :
    (w.index.length + blobs.length = w.packMeta.total ∧
      (codec.toVec w.packMeta).length ≤ blockAlign - 16 ∧
      w.cursor + (blobs.map fun b => alignUp b.length).sum < 2 ^ 64 ∧
      (w.packOps codec blobs).flatMap FileOp.itemwise =
        byteWrites (packData blobs) ++ .seek 0 :: byteWrites (headerBytes codec w.packMeta ++
          indexBytes w.packMeta (w.index ++ layout w.cursor blobs))) ∨
    (¬(w.index.length + blobs.length = w.packMeta.total ∧
      (codec.toVec w.packMeta).length ≤ blockAlign - 16 ∧
      w.cursor + (blobs.map fun b => alignUp b.length).sum < 2 ^ 64) ∧
      ∃ data tail, (w.packOps codec blobs).flatMap FileOp.itemwise = byteWrites data ++ tail ∧
        (tail = [] ∨ tail = [.seek 0])) := by
  induction blobs generalizing w with
  | nil =>
      unfold PackWriter.packOps PackWriter.finishOps
      by_cases hindex : w.index.length = w.packMeta.total
      · rw [if_neg (by simp [hindex])]
        simp only
        by_cases hjson : blockAlign - 16 < (codec.toVec w.packMeta).length
        · rw [if_pos hjson]
          exact .inr ⟨fun h => absurd h.2.1 (by omega), [], [.seek 0], rfl, .inr rfl⟩
        · rw [if_neg hjson]
          refine .inl ⟨hindex, by omega, hcursor, ?_⟩
          rw [List.flatMap_cons, List.flatMap_append, List.flatMap_append, itemwise_entries, hend]
          simp [byteWrites, FileOp.itemwise, headerBytes, indexBytes, layout, packData]
      · rw [if_pos hindex]
        exact .inr ⟨fun h => hindex h.1, [], [], rfl, .inl rfl⟩
  | cons blob rest ih =>
      unfold PackWriter.packOps
      rw [List.length_cons, List.map_cons, List.sum_cons]
      have hpad : [FileOp.write blob,
          .write (List.replicate (alignUp blob.length - blob.length) 0)].flatMap FileOp.itemwise =
            byteWrites (padBlob blob) := by
        simp [byteWrites, FileOp.itemwise, padBlob]
      by_cases hfull : w.index.length = w.packMeta.total
      · -- there are blobs left, and no room for them
        refine .inr ⟨fun h => by omega, [], [], ?_, .inl rfl⟩
        simp [PackWriter.addBlobOps, PackWriter.addBlob, hfull, byteWrites]
      by_cases hover : 2 ^ 64 ≤ w.cursor + alignUp blob.length
      · refine .inr ⟨fun h => by omega, padBlob blob, [], ?_, .inl rfl⟩
        rw [PackWriter.addBlobOps, if_neg hfull, PackWriter.addBlob, if_neg hfull]
        simp only [if_pos hover, List.append_nil]
        exact hpad
      · rw [PackWriter.addBlobOps, if_neg hfull, PackWriter.addBlob, if_neg hfull]
        simp only [if_neg hover]
        rw [List.flatMap_append, hpad]
        rcases ih (w := { w with
            index := w.index ++ [⟨w.cursor, blob.length⟩]
            file := writePad (w.file.write blob) (alignUp blob.length - blob.length)
            cursor := w.cursor + alignUp blob.length }) hend (Nat.not_le.mp hover) with
          ⟨hcount, hjson, hsize, hops⟩ | ⟨hnot, data, tail, hops, htail⟩
        · refine .inl ⟨?_, hjson, ?_, ?_⟩
          · simp only [List.length_append, List.length_cons, List.length_nil] at hcount
            omega
          · simp only at hsize
            omega
          · rw [hops]
            simp [byteWrites, packData, layout]
        · refine .inr ⟨fun h => hnot ?_, padBlob blob ++ data, tail, ?_, htail⟩
          · simp only [List.length_append, List.length_cons, List.length_nil]
            omega
          · rw [hops]
            simp [byteWrites]

/-- Before `finish` comes to the header, the file begins with zeroes. -/
def Unfinished (m : PackMeta Value) (bytes : List UInt8) : Prop :=
  ∃ data, bytes = ((⟨[], m.indexEnd⟩ : Sink UInt8).write data).data

/-- What `finish` overwrites. -/
def reserved (m : PackMeta Value) (blobs : List (List UInt8)) : List UInt8 :=
  ((⟨[], m.indexEnd⟩ : Sink UInt8).write (packData blobs)).data

theorem not_fits_unfinished (hfits : ¬Fits codec m blobs) (n : Nat) :
    Unfinished m (stoppedFile codec m blobs n) := by
  have hops := itemwise_packOps codec blobs
    (show (PackWriter.create m).indexEnd = (PackWriter.create m).packMeta.indexEnd from rfl)
    (indexEnd_lt m)
  rcases hops with ⟨hcount, hjson, hsize, -⟩ | ⟨-, data, tail, hops, htail⟩
  · exact absurd ⟨(Nat.zero_add _).symm.trans hcount, hjson, hsize⟩ hfits
  · cases n with
    | zero => exact ⟨[], rfl⟩
    | succ n =>
        unfold stoppedFile packOps
        rw [List.flatMap_cons, hops]
        show Unfinished m ((⟨[], m.indexEnd⟩ : Sink UInt8).replay
          ((byteWrites data ++ tail).take n)).data
        rw [List.take_append, Sink.replay_append, byteWrites, Sink.replay_take_items]
        refine ⟨data.take n, ?_⟩
        generalize n - (data.map fun x => FileOp.write [x]).length = k
        rcases htail with rfl | rfl
        · rw [List.take_nil]
          rfl
        · cases k with
          | zero => rfl
          | succ k =>
              rw [List.take_succ_cons, List.take_nil]
              rfl

/-- The file of a pack that fits: unfinished, or with a part of the front. -/
theorem stoppedFile_eq (hfits : Fits codec m blobs) (n : Nat) :
    (finishReached blobs n = 0 ∧ Unfinished m (stoppedFile codec m blobs n)) ∨
    stoppedFile codec m blobs n =
      (frontBytes codec m blobs).take (finishReached blobs n) ++
        (reserved m blobs).drop ((frontBytes codec m blobs).take (finishReached blobs n)).length := by
  have hops := itemwise_packOps codec blobs
    (show (PackWriter.create m).indexEnd = (PackWriter.create m).packMeta.indexEnd from rfl)
    (indexEnd_lt m)
  rcases hops with ⟨-, -, -, hops⟩ | ⟨hnot, -⟩
  · cases n with
    | zero => exact .inl ⟨Nat.zero_sub _, [], rfl⟩
    | succ n =>
        have hfile : stoppedFile codec m blobs (n + 1) =
            ((⟨[], m.indexEnd⟩ : Sink UInt8).replay ((byteWrites (packData blobs) ++
              .seek 0 :: byteWrites (frontBytes codec m blobs)).take n)).data := by
          unfold stoppedFile packOps
          rw [List.flatMap_cons, hops]
          rfl
        have hlen : (byteWrites (packData blobs)).length = (packData blobs).length :=
          List.length_map ..
        rw [hfile, List.take_append, Sink.replay_append, hlen]
        rcases Nat.lt_or_ge (packData blobs).length n with hlt | hle
        · -- the header has been sought
          right
          obtain ⟨k, hk⟩ : ∃ k, n - (packData blobs).length = k + 1 :=
            ⟨n - (packData blobs).length - 1, by omega⟩
          have hreached : finishReached blobs (n + 1) = k := by
            unfold finishReached
            omega
          rw [hreached, hk, List.take_of_length_le (by omega), List.take_succ_cons, byteWrites,
            Sink.replay_items]
          show ((((⟨[], m.indexEnd⟩ : Sink UInt8).write (packData blobs)).seek 0).replay _).data = _
          rw [byteWrites, Sink.replay_take_items, Sink.write_start rfl]
          rfl
        · refine .inl ⟨by unfold finishReached; omega, (packData blobs).take n, ?_⟩
          rw [Nat.sub_eq_zero_of_le hle, List.take_zero, byteWrites, Sink.replay_take_items]
          rfl
  · exact absurd ⟨(Nat.zero_add _).trans hfits.count, hfits.json, hfits.size⟩ hnot

/-! ### What the reader finds -/

/-- A read of a whole buffer, or past the end. -/
theorem preadFull_aligned_eq {f : PackFile} {len offset : Nat} (hlen : len % blockAlign = 0)
    (hoff : offset % blockAlign = 0) (hpos : len ≠ 0) :
    preadFull f (alignedBuf len) len offset =
      if f.bytes.length < offset + len then .error .unexpectedEof
      else .ok ⟨0, slice offset len f.bytes⟩ := by
  by_cases hend : f.bytes.length < offset + len
  · rw [if_pos hend]
    unfold preadFull
    rw [if_neg hpos, if_neg (fun h => h.2 ⟨rfl, hlen, hoff⟩), if_pos hend]
  · rw [if_neg hend, preadFull_aligned (Nat.not_lt.mp hend) hlen hoff]

/-- The checks of the header. -/
def readHeader (codec : Codec Value) (header : List UInt8) : Except PackError (PackMeta Value) :=
  if slice 0 8 header ≠ magic then .error .notLlmpk
  else if leNat (slice 8 4 header) ≠ formatVersion then
    .error (.unsupportedVersion (leNat (slice 8 4 header)))
  else if header.length < 16 + leNat (slice 12 4 header) then .error .panic
  else
    match codec.fromSlice (slice 16 (leNat (slice 12 4 header)) header) with
    | none => .error .json
    | some m => .ok m

/-- The entries in the bytes of an index. -/
def entriesOf (total : Nat) (raw : List UInt8) : List IndexEntry :=
  (List.range total).map fun i =>
    { offset := leNat (slice (i * 16) 8 raw), nbytes := leNat (slice (i * 16 + 8) 8 raw) }

/-- Opening is the header's checks, then the index. -/
theorem openInner_eq (codec : Codec Value) {bytes : List UInt8} {direct : Bool}
    (hlen : blockAlign ≤ bytes.length) :
    PackReader.openInner codec bytes direct =
      (readHeader codec (slice 0 blockAlign bytes)).bind fun m =>
        (preadFull ⟨bytes, direct⟩ (alignedBuf (alignUp (m.total * indexEntryBytes)))
          (alignUp (m.total * indexEntryBytes)) blockAlign).bind fun raw =>
            .ok ⟨⟨bytes, direct⟩, m, entriesOf m.total raw.bytes, none⟩ := by
  have hheader : preadFull ⟨bytes, direct⟩ (alignedBuf blockAlign) blockAlign 0 =
      .ok ⟨0, slice 0 blockAlign bytes⟩ := preadFull_aligned (by simpa using hlen) rfl rfl
  unfold PackReader.openInner readHeader
  simp only [hheader, bind, Except.bind, ne_eq, ite_not]
  by_cases hmagic : slice 0 8 (slice 0 blockAlign bytes) = magic
  · by_cases hversion : leNat (slice 8 4 (slice 0 blockAlign bytes)) = formatVersion
    · by_cases hpanic : (slice 0 blockAlign bytes).length <
        16 + leNat (slice 12 4 (slice 0 blockAlign bytes))
      · simp only [if_pos hmagic, if_pos hversion, if_pos hpanic]
        rfl
      · simp only [if_pos hmagic, if_pos hversion, if_neg hpanic, pure, Except.pure]
        cases codec.fromSlice _ <;> rfl
    · simp only [if_pos hmagic, if_neg hversion]
      rfl
  · simp only [if_neg hmagic]
    rfl

/-- A file shorter than a header is rejected. -/
theorem openInner_short (codec : Codec Value) {bytes : List UInt8} {direct : Bool}
    (hlen : bytes.length < blockAlign) :
    PackReader.openInner codec bytes direct = .error .unexpectedEof := by
  have hheader : preadFull ⟨bytes, direct⟩ (alignedBuf blockAlign) blockAlign 0 =
      .error .unexpectedEof := by
    rw [preadFull_aligned_eq rfl rfl (by decide), if_pos (by simpa using hlen)]
  unfold PackReader.openInner
  simp only [hheader, bind, Except.bind]

/-- A file whose header fails a check is rejected. -/
theorem openInner_rejects {bytes : List UInt8} {err : PackError} (hpanic : err ≠ .panic)
    (hheader : readHeader codec (slice 0 blockAlign bytes) = .error err) (direct : Bool) :
    ∃ err, err ≠ .panic ∧ PackReader.openInner codec bytes direct = .error err := by
  rcases Nat.lt_or_ge bytes.length blockAlign with hlen | hlen
  · exact ⟨.unexpectedEof, nofun, openInner_short codec hlen⟩
  · refine ⟨err, hpanic, ?_⟩
    rw [openInner_eq codec hlen, hheader]
    rfl

/-- A file whose front was not begun is rejected. -/
theorem openInner_unfinished {bytes : List UInt8} (h : Unfinished m bytes) (direct : Bool) :
    ∃ err, err ≠ .panic ∧ PackReader.openInner codec bytes direct = .error err := by
  obtain ⟨data, rfl⟩ := h
  refine openInner_rejects (show PackError.notLlmpk ≠ .panic from nofun) (if_pos ?_) direct
  rw [slice_slice (by decide)]
  show (Sink.data _).take 8 ≠ magic
  by_cases hdata : data = []
  · rw [hdata]
    nofun
  · rw [Sink.write_end (Nat.zero_le _) hdata]
    have hle : 8 ≤ m.indexEnd := by
      have := le_indexEnd m
      unfold blockAlign at this
      omega
    show (([] ++ List.replicate (m.indexEnd - 0) 0) ++ data).take 8 ≠ magic
    rw [List.nil_append, Nat.sub_zero, List.take_append_of_le_length (by simp; exact hle),
      List.take_replicate, Nat.min_eq_left hle]
    decide

/-! ### A front that was begun -/

/-- The first `s` bytes of the front, over the zeroes that were reserved. -/
def cutFront (codec : Codec Value) (m : PackMeta Value) (blobs : List (List UInt8)) (s : Nat) :
    List UInt8 :=
  (frontBytes codec m blobs).take s ++
    List.replicate ((frontBytes codec m blobs).length - s) 0

theorem length_cutFront (hfits : Fits codec m blobs) (s : Nat) :
    (cutFront codec m blobs s).length = m.indexEnd := by
  have hlen := length_frontBytes hfits
  simp only [cutFront, List.length_append, List.length_take, List.length_replicate]
  omega

/-- The file behind a front that was begun: the data is there; without any, the
file ends with the front. -/
theorem begun_eq (hfits : Fits codec m blobs) (s : Nat) :
    let front := (frontBytes codec m blobs).take s
    let bytes := front ++ (reserved m blobs).drop front.length
    bytes = cutFront codec m blobs s ++ packData blobs ∨
      packData blobs = [] ∧ s < m.indexEnd ∧ bytes.length = s ∧
        bytes = (frontBytes codec m blobs).take s := by
  have hlen := length_frontBytes hfits
  simp only [reserved]
  by_cases hdata : packData blobs = []
  · rw [hdata, Sink.write_nil]
    show _ ++ ([] : List UInt8).drop _ = _ ∨ _
    rw [List.drop_nil, List.append_nil]
    rcases Nat.lt_or_ge s m.indexEnd with hlt | hge
    · exact .inr ⟨rfl, hlt, by rw [List.length_take]; omega, rfl⟩
    · left
      rw [cutFront, Nat.sub_eq_zero_of_le (by omega)]
      simp
  · left
    have hreserved : ((⟨[], m.indexEnd⟩ : Sink UInt8).write (packData blobs)).data =
        List.replicate m.indexEnd 0 ++ packData blobs := by
      rw [Sink.write_end (Nat.zero_le _) hdata]
      rfl
    have hend : min s (frontBytes codec m blobs).length - m.indexEnd = 0 := by omega
    have hgap : m.indexEnd - min s (frontBytes codec m blobs).length =
        (frontBytes codec m blobs).length - s := by omega
    rw [hreserved, cutFront, List.drop_append, List.drop_replicate, List.length_take,
      List.length_replicate, hend, hgap, List.drop_zero, List.append_assoc]

theorem slice_front_header (hfits : Fits codec m blobs) :
    slice 0 blockAlign (frontBytes codec m blobs) = headerBytes codec m :=
  slice_front (length_headerBytes hfits.json)

theorem slice_front_index (hfits : Fits codec m blobs) :
    slice blockAlign (alignUp (m.total * indexEntryBytes)) (frontBytes codec m blobs) =
      indexBytes m (layout m.indexEnd blobs) := by
  have hheader := length_headerBytes hfits.json
  have hindex := length_indexBytes ((length_layout m.indexEnd blobs).trans hfits.count)
  rw [frontBytes, slice_append_right hheader.le, hheader, Nat.sub_self]
  unfold slice
  rw [List.drop_zero, List.take_of_length_le hindex.le]

/-- The header of a cut front. -/
theorem slice_cutFront_header (hfits : Fits codec m blobs) (s : Nat) :
    slice 0 blockAlign (cutFront codec m blobs s) =
      (headerBytes codec m).take s ++ List.replicate (blockAlign - s) 0 := by
  have hle := le_indexEnd m
  rw [cutFront, slice_cut (by rw [length_frontBytes hfits]; omega), slice_front_header hfits]
  rfl

/-- The index of a cut front. -/
theorem slice_cutFront_index (hfits : Fits codec m blobs) (s : Nat) :
    slice blockAlign (alignUp (m.total * indexEntryBytes)) (cutFront codec m blobs s) =
      (indexBytes m (layout m.indexEnd blobs)).take (s - blockAlign) ++
        List.replicate ((indexBytes m (layout m.indexEnd blobs)).length - (s - blockAlign)) 0 := by
  have heq := indexEnd_eq m
  rw [cutFront, slice_cut (by rw [length_frontBytes hfits]; omega), slice_front_index hfits,
    length_indexBytes ((length_layout m.indexEnd blobs).trans hfits.count)]

/-- A header that ends in its JSON is rejected: the rest of the JSON reads as
zeroes. -/
theorem readHeader_cut (hfits : (codec.toVec m).length ≤ blockAlign - 16)
    (hne : codec.toVec m ≠ []) (hcut : ∀ k < (codec.toVec m).length, ∀ r,
      codec.fromSlice ((codec.toVec m).take k ++ List.replicate r 0) = none)
    (hs : s < 16 + (codec.toVec m).length) :
    ∃ err, err ≠ .panic ∧ readHeader codec
      ((headerBytes codec m).take s ++ List.replicate (blockAlign - s) 0) = .error err := by
  have hlen := length_headerBytes hfits
  obtain ⟨-, -, hlenBytes, hjsonLen, hjsonBytes⟩ := slice_headerBytes hfits
  unfold blockAlign at hfits hlen
  have hheader : (headerBytes codec m).take s ++ List.replicate (blockAlign - s) 0 =
      (headerBytes codec m).take s ++ List.replicate ((headerBytes codec m).length - s) 0 := by
    rw [hlen]
    rfl
  rw [hheader]
  generalize hh : (headerBytes codec m).take s ++
    List.replicate ((headerBytes codec m).length - s) 0 = header
  have hlength : header.length = 4096 := by
    rw [← hh, List.length_append, List.length_take, List.length_replicate, hlen]
    omega
  unfold readHeader
  by_cases hmagic : slice 0 8 header = magic
  case neg => exact ⟨.notLlmpk, nofun, if_pos hmagic⟩
  by_cases hversion : leNat (slice 8 4 header) = formatVersion
  case neg => exact ⟨.unsupportedVersion _, nofun, by rw [if_neg (by simpa), if_pos hversion]⟩
  -- the length that is read is at most the JSON's
  have hread : leNat (slice 12 4 header) = (codec.toVec m).length % 256 ^ (s - 12) := by
    rw [← hh, slice_cut (by omega), hlenBytes, leNat_cut (by omega)]
  have hle : leNat (slice 12 4 header) ≤ (codec.toVec m).length := by
    rw [hread]
    exact Nat.mod_le _ _
  have hjson : codec.fromSlice (slice 16 (leNat (slice 12 4 header)) header) = none := by
    generalize leNat (slice 12 4 header) = jsonLen at hread hle
    rcases Nat.lt_or_ge s 16 with hlt | hge
    · -- no byte of the JSON
      rw [← hh, slice_cut (by omega), Nat.sub_eq_zero_of_le hlt.le, List.take_zero]
      exact hcut 0 (List.length_pos_iff.mpr hne) _
    · have hall : jsonLen = (codec.toVec m).length := by
        rw [hread]
        have hpow : 256 ^ 4 ≤ 256 ^ (s - 12) := Nat.pow_le_pow_right (by decide) (by omega)
        exact Nat.mod_eq_of_lt (by omega)
      rw [hall, ← hh, slice_cut (by omega), hjsonBytes]
      exact hcut _ (by omega) _
  refine ⟨.json, nofun, ?_⟩
  rw [if_neg (by simpa), if_neg (by simpa), if_neg (by omega), hjson]

/-- From the end of the JSON on the header is padding, which reads the same
whether it was written or not. -/
theorem headerBytes_cut (hfits : (codec.toVec m).length ≤ blockAlign - 16)
    (hs : 16 + (codec.toVec m).length ≤ s) :
    (headerBytes codec m).take s ++ List.replicate (blockAlign - s) 0 = headerBytes codec m := by
  have hbegin : headerBytes codec m =
      (magic ++ (leBytes 4 formatVersion ++ (leBytes 4 (codec.toVec m).length ++ codec.toVec m))) ++
        List.replicate (blockAlign - 16 - (codec.toVec m).length) 0 := by
    simp [headerBytes]
  have hlen : (magic ++ (leBytes 4 formatVersion ++ (leBytes 4 (codec.toVec m).length ++
      codec.toVec m))).length = 16 + (codec.toVec m).length := by
    simp only [magic, List.length_append, length_leBytes, List.length_cons, List.length_nil]
    omega
  rw [hbegin, List.take_append, List.take_of_length_le (by omega), List.append_assoc,
    List.take_replicate, List.replicate_append_replicate, hlen]
  unfold blockAlign at *
  congr 2
  omega

theorem readHeader_headerBytes (hfits : (codec.toVec m).length ≤ blockAlign - 16)
    (hjson : codec.fromSlice (codec.toVec m) = some m) :
    readHeader codec (headerBytes codec m) = .ok m := by
  obtain ⟨hmagic, hversion, hlenBytes, hlen, hjsonBytes⟩ := slice_headerBytes hfits
  have hlength := length_headerBytes hfits
  unfold readHeader
  rw [hlenBytes, hlen, hjsonBytes, hjson, if_neg (by simpa), if_neg (by simpa), if_neg]
  unfold blockAlign at *
  omega

/-- Entry `i` of an index of which `t` bytes were written. -/
def cutEntry (t i : Nat) (e : IndexEntry) : IndexEntry :=
  { offset := e.offset % 256 ^ (t - i * 16), nbytes := e.nbytes % 256 ^ (t - (i * 16 + 8)) }

/-- The reader that opens a pack whose index was begun. -/
def cutReader (m : PackMeta Value) (blobs : List (List UInt8)) (s : Nat) (bytes : List UInt8)
    (direct : Bool) : PackReader Value :=
  ⟨⟨bytes, direct⟩, m, (layout m.indexEnd blobs).mapIdx (cutEntry (s - blockAlign)), none⟩

theorem entriesOf_cut (hfits : Fits codec m blobs) (t : Nat) :
    entriesOf m.total ((indexBytes m (layout m.indexEnd blobs)).take t ++
      List.replicate ((indexBytes m (layout m.indexEnd blobs)).length - t) 0) =
        (layout m.indexEnd blobs).mapIdx (cutEntry t) := by
  have hcount : (layout m.indexEnd blobs).length = m.total := (length_layout _ _).trans hfits.count
  have hindex := length_indexBytes hcount
  refine List.ext_getElem (by simp [entriesOf, hcount]) fun i hi hi' => ?_
  have hil : i < (layout m.indexEnd blobs).length := by simpa using hi'
  obtain ⟨hoffset, hnbytes⟩ := slice_indexBytes (m := m) hil
  have hroom : i * 16 + 16 ≤ (indexBytes m (layout m.indexEnd blobs)).length := by
    have := le_alignUp (m.total * indexEntryBytes)
    unfold indexEntryBytes at *
    omega
  have hlt := layout_lt hfits.size _ (List.getElem_mem hil)
  have hpow : (2 : Nat) ^ 64 = 256 ^ 8 := by decide
  obtain ⟨hoff, hn⟩ := hlt
  simp only [entriesOf, List.getElem_map, List.getElem_range, List.getElem_mapIdx]
  rw [slice_cut (by omega), slice_cut (by omega), hoffset, hnbytes, leNat_cut (hpow ▸ hoff),
    leNat_cut (hpow ▸ hn)]
  rfl

/-- With its JSON whole the pack opens, however little of the index is there. -/
theorem openInner_cut (hjson : codec.fromSlice (codec.toVec m) = some m)
    (hfits : Fits codec m blobs) (hs : 16 + (codec.toVec m).length ≤ s) (direct : Bool) :
    PackReader.openInner codec (cutFront codec m blobs s ++ packData blobs) direct =
      .ok (cutReader m blobs s (cutFront codec m blobs s ++ packData blobs) direct) := by
  have hlen := length_cutFront hfits s
  have heq := indexEnd_eq m
  have hheader : slice 0 blockAlign (cutFront codec m blobs s ++ packData blobs) =
      headerBytes codec m := by
    rw [slice_append_left (by omega), slice_cutFront_header hfits, headerBytes_cut hfits.json hs]
  have hraw : preadFull ⟨cutFront codec m blobs s ++ packData blobs, direct⟩
      (alignedBuf (alignUp (m.total * indexEntryBytes))) (alignUp (m.total * indexEntryBytes))
      blockAlign = .ok ⟨0, (indexBytes m (layout m.indexEnd blobs)).take (s - blockAlign) ++
        List.replicate ((indexBytes m (layout m.indexEnd blobs)).length - (s - blockAlign)) 0⟩ := by
    rw [preadFull_aligned (by simp only [List.length_append]; omega) (alignUp_mod _) rfl,
      ← slice_cutFront_index hfits]
    show Except.ok (⟨0, slice _ _ (_ ++ _)⟩ : Buf) = _
    rw [slice_append_left (by omega)]
  rw [openInner_eq codec (by rw [List.length_append]; omega), hheader,
    readHeader_headerBytes hfits.json hjson]
  simp only [Except.bind, hraw, entriesOf_cut hfits]
  rfl

/-- A pack without data that was not finished ends in its index. -/
theorem openInner_no_index (hjson : codec.fromSlice (codec.toVec m) = some m)
    (hfits : Fits codec m blobs) (hlt : s < m.indexEnd) (direct : Bool) :
    PackReader.openInner codec ((frontBytes codec m blobs).take s) direct =
      .error .unexpectedEof := by
  have hfront := length_frontBytes hfits
  have hlen : ((frontBytes codec m blobs).take s).length = s := by
    rw [List.length_take]
    omega
  have heq := indexEnd_eq m
  rcases Nat.lt_or_ge s blockAlign with hshort | hheader
  · exact openInner_short codec (by omega)
  · have hslice : slice 0 blockAlign ((frontBytes codec m blobs).take s) = headerBytes codec m := by
      rw [← slice_front_header hfits]
      unfold slice
      rw [List.drop_zero, List.drop_zero, List.take_take, Nat.min_eq_left hheader]
    have hraw : preadFull ⟨(frontBytes codec m blobs).take s, direct⟩
        (alignedBuf (alignUp (m.total * indexEntryBytes))) (alignUp (m.total * indexEntryBytes))
        blockAlign = .error .unexpectedEof := by
      rw [preadFull_aligned_eq (alignUp_mod _) rfl (by omega), if_pos (by simp only [hlen]; omega)]
    rw [openInner_eq codec (by omega), hslice, readHeader_headerBytes hfits.json hjson]
    simp only [Except.bind, hraw]

/-! ### Reading back -/

/-- An expert reads back as the blob that was added for it: from a raw pack the
blob itself, from a compressed one whatever the blob decompresses to. -/
structure PackReader.ReadsBack (unzstd : List UInt8 → Nat → Option (List UInt8))
    (r : PackReader Value) (layer expert : Nat) (blob : List UInt8) : Prop where
  raw : r.packMeta.compression = none → ∀ buf : Buf,
    (r.file.direct = true → buf.addr % blockAlign = 0) →
    alignUp blob.length ≤ buf.bytes.length → ∃ buf',
      r.readBlobInto unzstd layer expert buf = .ok (blob.length, buf', r) ∧
      buf'.bytes.take blob.length = blob
  compressed : r.packMeta.compression ≠ none → ∀ (buf : Buf) out,
    unzstd blob buf.bytes.length = some out → ∃ buf' r',
      r.readBlobInto unzstd layer expert buf = .ok (out.length, buf', r') ∧
      buf'.bytes.take out.length = out

/-- The pack is rejected, or every expert reads back, in any order and as often
as one likes. -/
def CompleteOrRejected (codec : Codec Value) (m : PackMeta Value) (blobs : List (List UInt8))
    (bytes : List UInt8) (direct : Bool) : Prop :=
  (∃ err, err ≠ .panic ∧ PackReader.openInner codec bytes direct = .error err) ∨
  ∃ r, PackReader.openInner codec bytes direct = .ok r ∧ r.packMeta = m ∧
    ∀ unzstd r', Relation.ReflTransGen (PackReader.ReadStep unzstd) r r' →
      ∀ layer < m.numLayers.toNat, ∀ expert < m.expertsPerLayer.toNat, ∃ blob,
        blobs[flatId m.expertsPerLayer.toNat (layer, expert)]? = some blob ∧
        r'.ReadsBack unzstd layer expert blob

section ReadsBack

variable {unzstd : List UInt8 → Nat → Option (List UInt8)} {r r' : PackReader Value}
  {layer expert : Nat} {e : IndexEntry} {blob bytes : List UInt8} {direct : Bool}

/-- An entry of no bytes reads back as nothing, wherever it points. -/
theorem readsBack_empty (hentry : r'.entry layer expert = some e) (hempty : e.nbytes = 0)
    (hroom : r'.packMeta.compression ≠ none → alignUp r'.maxStoredBytes < 2 ^ 63) :
    r'.ReadsBack unzstd layer expert [] := by
  have hspan : alignUp e.nbytes = 0 := by
    rw [hempty]
    rfl
  have hpread : ∀ buf, preadFull r'.file buf (alignUp e.nbytes) e.offset = .ok buf :=
    fun buf => if_pos hspan
  refine ⟨fun hraw buf haddr _ => ⟨buf, ?_, rfl⟩, fun hzstd buf out hout => ?_⟩
  · simp only [PackReader.readBlobInto, hentry, hraw, if_true, hpread]
    rw [if_neg (by omega), if_neg (by omega), if_neg (fun h => h.2 (haddr h.1))]
    show Except.ok (e.nbytes, buf, r') = _
    rw [hempty]
    rfl
  · obtain ⟨scratch, hscratch⟩ := PackReader.exists_scratchBuf (hroom hzstd)
    refine ⟨{ buf with bytes := out ++ buf.bytes.drop out.length },
      { r' with scratch := some scratch }, ?_, List.take_left' rfl⟩
    simp only [PackReader.readBlobInto, hentry, hzstd, if_false, hscratch, hpread]
    rw [if_neg (by omega), if_neg (by omega)]
    simp only [bind, Except.bind, hempty, List.take_zero, hout]

/-- An entry that is not cut reads back. -/
theorem readsBack_located (hsame : PackReader.SameButScratch r r')
    (hentry : r'.entry layer expert = some e) (hloc : PackReader.Located r'.file.bytes blob e)
    (hspan : alignUp e.nbytes < 2 ^ 64)
    (hroom : r'.packMeta.compression ≠ none → alignUp r'.maxStoredBytes < 2 ^ 63) :
    r'.ReadsBack unzstd layer expert blob := by
  refine ⟨fun hraw buf haddr hlen => ?_, fun hzstd buf out hout => ?_⟩
  · refine ⟨_, PackReader.readBlobInto_raw hentry hloc hraw haddr (by rw [hloc.nbytes]; exact hlen)
      hspan, ?_⟩
    simp [padBlob]
  · obtain ⟨scratch, hread⟩ :=
      PackReader.readBlobInto_zstd unzstd buf hsame hentry hloc hzstd (hroom hzstd)
    rw [hout] at hread
    exact ⟨_, _, hread, List.take_left' rfl⟩

/-- An entry of another length does not read back: not in a raw pack, and not
for every decompressor. -/
theorem nbytes_of_readsBack (hentry : r.entry layer expert = some e)
    (h : ∀ unzstd, r.ReadsBack unzstd layer expert blob) : e.nbytes = blob.length := by
  by_cases hraw : r.packMeta.compression = none
  · obtain ⟨buf', hread, -⟩ := (h fun _ _ => none).raw hraw (alignedBuf blob.length) (fun _ => rfl)
      (by simp [alignedBuf])
    obtain ⟨e', he', -, ⟨-, -, -, hn, -⟩ | ⟨hzstd, -⟩⟩ := PackReader.readBlobInto_cases hread
    · cases hentry.symm.trans he'
      exact hn.symm
    · exact absurd hraw hzstd
  · -- a decompressor that takes the blob only
    obtain ⟨buf', r', hread, -⟩ := (h fun frame _ => if frame = blob then some [] else none).compressed
      hraw (alignedBuf 0) [] (if_pos rfl)
    obtain ⟨e', he', -, ⟨hnone, -⟩ | ⟨-, scratch, b, out, -, hroom, hpread, hout, -⟩⟩ :=
      PackReader.readBlobInto_cases hread
    · exact absurd hnone hraw
    · cases hentry.symm.trans he'
      have hframe : b.bytes.take e.nbytes = blob := by
        by_contra hne
        rw [if_neg hne] at hout
        cases hout
      obtain ⟨-, hlen⟩ := PackReader.preadFull_frame hpread hroom
      have hle := le_alignUp e.nbytes
      rw [← hframe, List.length_take]
      omega

/-- What reads back from a compressed pack has gone through a scratch buffer. -/
theorem room_of_readsBack (hr : r.scratch = none) (hzstd : r.packMeta.compression ≠ none)
    (h : ∀ unzstd, r.ReadsBack unzstd layer expert blob) :
    alignUp r.maxStoredBytes < 2 ^ 63 := by
  obtain ⟨buf', r', hread, -⟩ := (h fun _ _ => some []).compressed hzstd (alignedBuf 0) [] rfl
  obtain ⟨e, -, -, ⟨hnone, -⟩ | ⟨-, scratch, b, out, hscratch, -⟩⟩ :=
    PackReader.readBlobInto_cases hread
  · exact absurd hnone hzstd
  · exact PackReader.lt_of_scratchBuf hr hscratch

end ReadsBack

/-- No blob of a compressed pack is too long for the scratch buffer of its reader. -/
def FitScratch (m : PackMeta Value) (blobs : List (List UInt8)) : Prop :=
  m.compression ≠ none → ∀ blob ∈ blobs, alignUp blob.length < 2 ^ 63

/-- A length in a cut index is never longer than the blob. -/
theorem cutReader_room {bytes : List UInt8} {direct : Bool} (h : FitScratch m blobs)
    (hzstd : m.compression ≠ none) :
    alignUp (cutReader m blobs s bytes direct).maxStoredBytes < 2 ^ 63 := by
  refine PackReader.alignUp_max?_lt (Nat.two_pow_pos 63) fun len hlen => ?_
  obtain ⟨e', he', rfl⟩ := List.mem_map.mp hlen
  obtain ⟨i, hi, rfl⟩ := List.mem_mapIdx.mp he'
  have hmem : (layout m.indexEnd blobs)[i].nbytes ∈ blobs.map List.length := by
    rw [← nbytes_layout m.indexEnd]
    exact List.mem_map_of_mem (List.getElem_mem hi)
  obtain ⟨blob, hblob, hnbytes⟩ := List.mem_map.mp hmem
  have hcut : (cutEntry (s - blockAlign) i (layout m.indexEnd blobs)[i]).nbytes ≤ blob.length := by
    rw [hnbytes]
    exact Nat.mod_le _ _
  exact (alignUp_mono hcut).trans_lt (h hzstd blob hblob)

theorem cutReader_entry {e : IndexEntry} {layer expert : Nat} {bytes : List UInt8} {direct : Bool}
    (h : (layout m.indexEnd blobs)[flatId m.expertsPerLayer.toNat (layer, expert)]? = some e) :
    (cutReader m blobs s bytes direct).entry layer expert =
      some (cutEntry (s - blockAlign) (flatId m.expertsPerLayer.toNat (layer, expert)) e) := by
  show ((layout m.indexEnd blobs).mapIdx _)[flatId m.expertsPerLayer.toNat (layer, expert)]? = _
  rw [List.getElem?_mapIdx, h]
  rfl

/-- A blob whose length is in the index up to its highest byte reads back. -/
theorem cutReader_readsBack {unzstd : List UInt8 → Nat → Option (List UInt8)}
    {layer expert : Nat} {blob : List UInt8} {direct : Bool} {r' : PackReader Value}
    (hfits : Fits codec m blobs)
    (hsame : PackReader.SameButScratch
      (cutReader m blobs s (cutFront codec m blobs s ++ packData blobs) direct) r')
    (hblob : blobs[flatId m.expertsPerLayer.toNat (layer, expert)]? = some blob)
    (hscratch : FitScratch m blobs)
    (hlen : blob.length < 256 ^
      (s - (blockAlign + flatId m.expertsPerLayer.toNat (layer, expert) * 16 + 8))) :
    r'.ReadsBack unzstd layer expert blob := by
  have hroom : r'.packMeta.compression ≠ none → alignUp r'.maxStoredBytes < 2 ^ 63 := by
    intro hzstd
    rw [PackReader.maxStoredBytes_congr hsame.index]
    refine cutReader_room hscratch ?_
    rwa [hsame.packMeta] at hzstd
  obtain ⟨e, he, hp⟩ := placed m.indexEnd blobs _ hblob
  have hentry : r'.entry layer expert = some (cutEntry (s - blockAlign)
      (flatId m.expertsPerLayer.toNat (layer, expert)) e) := by
    have hfresh : (cutReader m blobs s (cutFront codec m blobs s ++ packData blobs) direct).entry
        layer expert = _ := cutReader_entry he
    rw [← hfresh, PackReader.entry, PackReader.entry, hsame.index, hsame.packMeta]
  rw [show s - (blockAlign + flatId m.expertsPerLayer.toNat (layer, expert) * 16 + 8) =
    s - blockAlign - (flatId m.expertsPerLayer.toNat (layer, expert) * 16 + 8) by omega] at hlen
  generalize flatId m.expertsPerLayer.toNat (layer, expert) = i at hentry hlen he
  have hnbytes : (cutEntry (s - blockAlign) i e).nbytes = blob.length := by
    show e.nbytes % _ = _
    rw [hp.nbytes, Nat.mod_eq_of_lt hlen]
  by_cases hempty : blob = []
  · subst hempty
    exact readsBack_empty hentry hnbytes hroom
  · -- a byte of the length has been written, so the offset before it has
    have hwritten : i * 16 + 8 < s - blockAlign := by
      by_contra hnot
      rw [Nat.sub_eq_zero_of_le (by omega), Nat.pow_zero] at hlen
      exact hempty (List.length_eq_zero_iff.mp (Nat.lt_one_iff.mp hlen))
    have hoffset : e.offset < 256 ^ (s - blockAlign - i * 16) := by
      have hlt := (layout_lt hfits.size e (List.mem_of_getElem? he)).1
      have hpow : (2 : Nat) ^ 64 = 256 ^ 8 := by decide
      exact (hpow ▸ hlt).trans_le (Nat.pow_le_pow_right (by decide) (by omega))
    have huncut : cutEntry (s - blockAlign) i e = e :=
      congrArg₂ IndexEntry.mk (Nat.mod_eq_of_lt hoffset) (hnbytes.trans hp.nbytes.symm)
    rw [huncut] at hentry
    have hspan : alignUp e.nbytes < 2 ^ 64 :=
      ((Nat.le_add_left _ _).trans hp.end_le_packEnd).trans_lt hfits.size
    refine readsBack_located hsame hentry ?_ hspan hroom
    rw [hsame.file]
    exact .behind (length_cutFront hfits s) hp

theorem eq_nil_of_packData_nil (h : packData blobs = []) : ∀ blob ∈ blobs, blob = [] := by
  intro blob hblob
  have hpad : padBlob blob = [] := List.flatMap_eq_nil_iff.mp h blob hblob
  exact (List.append_eq_nil_iff.mp hpad).1

/-- **Where stopping goes unnoticed.** A pack that cannot be written is never
finished; one whose JSON is not whole is rejected; from there on a blob must
have its length in the index up to the highest byte, and must not be too long to be
read. -/
def SafeStop (codec : Codec Value) (m : PackMeta Value) (blobs : List (List UInt8)) (n : Nat) :
    Prop :=
  ¬Fits codec m blobs ∨ finishReached blobs n < 16 + (codec.toVec m).length ∨
  FitScratch m blobs ∧ ∀ (i : Nat) blob, blobs[i]? = some blob →
    blob.length < 256 ^ (finishReached blobs n - (blockAlign + i * 16 + 8))

/-- The file of a pack that stopped past its JSON, and what opens it. -/
theorem stopped_past_json (hjson : codec.fromSlice (codec.toVec m) = some m)
    (hfits : Fits codec m blobs)
    (hs : 16 + (codec.toVec m).length ≤ finishReached blobs n) (direct : Bool) :
    (packData blobs = [] ∧
      PackReader.openInner codec (stoppedFile codec m blobs n) direct = .error .unexpectedEof) ∨
    PackReader.openInner codec (stoppedFile codec m blobs n) direct =
      .ok (cutReader m blobs (finishReached blobs n)
        (cutFront codec m blobs (finishReached blobs n) ++ packData blobs) direct) := by
  rcases stoppedFile_eq hfits n with ⟨hzero, -⟩ | hfile
  · omega
  · rcases begun_eq hfits (finishReached blobs n) with hbegun | ⟨hdata, hlt, -, hbegun⟩
    · right
      rw [hfile, hbegun]
      exact openInner_cut hjson hfits hs direct
    · left
      rw [hfile, hbegun]
      exact ⟨hdata, openInner_no_index hjson hfits hlt direct⟩

/-- The file of a pack that stopped before is rejected. -/
theorem stopped_before_json (hne : codec.toVec m ≠ [])
    (hcut : ∀ k < (codec.toVec m).length, ∀ r,
      codec.fromSlice ((codec.toVec m).take k ++ List.replicate r 0) = none)
    (hfits : Fits codec m blobs)
    (hs : finishReached blobs n < 16 + (codec.toVec m).length) (direct : Bool) :
    ∃ err, err ≠ .panic ∧
      PackReader.openInner codec (stoppedFile codec m blobs n) direct = .error err := by
  rcases stoppedFile_eq hfits n with ⟨-, hunfinished⟩ | hfile
  · exact openInner_unfinished hunfinished direct
  · rw [hfile]
    have hle := hfits.json
    rcases begun_eq hfits (finishReached blobs n) with hbegun | ⟨-, -, hlen, -⟩
    · obtain ⟨err, hpanic, hheader⟩ := readHeader_cut hfits.json hne hcut hs
      refine openInner_rejects hpanic ?_ direct
      have hend := le_indexEnd m
      rw [hbegun, slice_append_left (by rw [length_cutFront hfits]; omega),
        slice_cutFront_header hfits]
      exact hheader
    · refine ⟨.unexpectedEof, nofun, openInner_short codec ?_⟩
      rw [hlen]
      unfold blockAlign at *
      omega

/-- A blob that reads back has its length in the index, and fits the scratch buffer. -/
theorem length_of_readsBack {i : Nat} {blob bytes : List UInt8} {direct : Bool}
    (hfits : Fits codec m blobs) (hblob : blobs[i]? = some blob)
    (hreads : ∀ unzstd, ∀ layer < m.numLayers.toNat, ∀ expert < m.expertsPerLayer.toNat,
      ∃ blob, blobs[flatId m.expertsPerLayer.toNat (layer, expert)]? = some blob ∧
        (cutReader m blobs s bytes direct).ReadsBack unzstd layer expert blob) :
    blob.length < 256 ^ (s - (blockAlign + i * 16 + 8)) ∧
      (m.compression ≠ none → alignUp blob.length < 2 ^ 63) := by
  -- blob `i` is that of an expert
  obtain ⟨hi, -⟩ := List.getElem?_eq_some_iff.mp hblob
  rw [hfits.count] at hi
  have hpos : 0 < m.expertsPerLayer.toNat := Nat.pos_of_ne_zero fun hzero => by
    rw [PackMeta.total, hzero] at hi
    omega
  have hflat : flatId m.expertsPerLayer.toNat
      (i / m.expertsPerLayer.toNat, i % m.expertsPerLayer.toNat) = i := Nat.div_add_mod' _ _
  have hlayer : i / m.expertsPerLayer.toNat < m.numLayers.toNat :=
    (Nat.div_lt_iff_lt_mul hpos).mpr hi
  obtain ⟨e, he, hp⟩ := placed m.indexEnd blobs i hblob
  rw [← hflat] at he
  have hback : ∀ unzstd, (cutReader m blobs s bytes direct).ReadsBack unzstd
      (i / m.expertsPerLayer.toNat) (i % m.expertsPerLayer.toNat) blob := by
    intro unzstd
    obtain ⟨blob', hblob', hback⟩ := hreads unzstd _ hlayer _ (Nat.mod_lt i hpos)
    rw [hflat] at hblob'
    cases hblob.symm.trans hblob'
    exact hback
  have hentry : (cutReader m blobs s bytes direct).entry _ _ = _ := cutReader_entry he
  have hnbytes := nbytes_of_readsBack hentry hback
  have hstored := alignUp_mono (PackReader.nbytes_le_maxStored hentry)
  rw [hnbytes] at hstored
  refine ⟨?_, fun hzstd => hstored.trans_lt (room_of_readsBack rfl hzstd hback)⟩
  rw [hflat] at hnbytes
  have hmod : e.nbytes % 256 ^ (s - blockAlign - (i * 16 + 8)) = blob.length := hnbytes
  rw [show s - (blockAlign + i * 16 + 8) = s - blockAlign - (i * 16 + 8) by omega, ← hmod]
  exact Nat.mod_lt _ (Nat.pow_pos (by decide))

/-- A pack whose writing stopped is rejected or complete exactly at the safe
points. -/
theorem stopped_complete_iff (codec : Codec Value) (m : PackMeta Value)
    (blobs : List (List UInt8)) (n : Nat) (direct : Bool)
    (hjson : codec.fromSlice (codec.toVec m) = some m) (hne : codec.toVec m ≠ [])
    (hcut : ∀ k < (codec.toVec m).length, ∀ r,
      codec.fromSlice ((codec.toVec m).take k ++ List.replicate r 0) = none) :
    CompleteOrRejected codec m blobs (stoppedFile codec m blobs n) direct ↔
      SafeStop codec m blobs n := by
  by_cases hfits : Fits codec m blobs
  case neg =>
    exact ⟨fun _ => .inl hfits,
      fun _ => .inl (openInner_unfinished (not_fits_unfinished hfits n) direct)⟩
  by_cases hs : finishReached blobs n < 16 + (codec.toVec m).length
  · exact ⟨fun _ => .inr (.inl hs), fun _ => .inl (stopped_before_json hne hcut hfits hs direct)⟩
  rcases stopped_past_json hjson hfits (Nat.not_lt.mp hs) direct with ⟨hdata, hopen⟩ | hopen
  · have hempty := eq_nil_of_packData_nil hdata
    refine ⟨fun _ => .inr (.inr ⟨fun _ blob hblob => ?_, fun i blob hblob => ?_⟩),
      fun _ => .inl ⟨.unexpectedEof, nofun, hopen⟩⟩
    · rw [hempty blob hblob]
      decide
    · rw [hempty blob (List.mem_of_getElem? hblob)]
      exact Nat.pow_pos (by decide)
  · constructor
    · intro hcomplete
      obtain ⟨err, -, herr⟩ | ⟨r, hr, -, hreads⟩ := hcomplete
      · rw [hopen] at herr
        cases herr
      cases hopen.symm.trans hr
      have hlength : ∀ {i blob}, blobs[i]? = some blob → _ := fun hblob =>
        length_of_readsBack hfits hblob fun unzstd => hreads unzstd _ .refl
      refine .inr (.inr ⟨fun hzstd blob hblob => ?_, fun i blob hblob => (hlength hblob).1⟩)
      obtain ⟨i, hi⟩ := List.getElem?_of_mem hblob
      exact (hlength hi).2 hzstd
    · intro hsafe
      obtain ⟨hscratch, hlen⟩ := (hsafe.resolve_left (not_not_intro hfits)).resolve_left hs
      refine .inr ⟨_, hopen, rfl, fun unzstd r' hreads layer hlayer expert hexpert => ?_⟩
      have hlt : flatId m.expertsPerLayer.toNat (layer, expert) < blobs.length := by
        rw [hfits.count]
        exact flatId_lt hlayer hexpert
      have hblob := List.getElem?_eq_getElem hlt
      exact ⟨_, hblob, cutReader_readsBack hfits (PackReader.SameButScratch.run rfl hreads) hblob
        hscratch (hlen _ _ hblob)⟩

end

/-! ### A pack of two blobs that stops between header and index -/

theorem pairCodec_cut (k : Nat) (hk : k < (pairCodec.toVec (pairMeta none)).length) (r : Nat) :
    pairCodec.fromSlice ((pairCodec.toVec (pairMeta none)).take k ++ List.replicate r 0) =
      none := by
  have hne : ∀ compression, (pairJson none).length ≤ (pairJson compression).length →
      (pairJson none).take k ++ List.replicate r 0 ≠ pairJson compression := by
    intro compression hlong heq
    cases r with
    | zero =>
        have hlen := congrArg List.length heq
        simp only [List.replicate_zero, List.append_nil, List.length_take] at hlen
        have : k < (pairJson none).length := hk
        omega
    | succ r =>
        -- JSON does not end in a zero
        have hlast := congrArg List.getLast? heq
        rw [List.replicate_succ', ← List.append_assoc, List.getLast?_concat] at hlast
        cases compression with
        | none => exact absurd hlast (by decide)
        | some c =>
            have hjson : pairJson (some c) = pairJson (some "zstd") := rfl
            rw [hjson] at hlast
            exact absurd hlast (by decide)
  exact (if_neg (hne none (Nat.le_refl _))).trans (if_neg (hne (some "zstd") (by decide)))

/-- Where stopping is safe: with the length of the second blob in the index. -/
theorem stopped_complete_pair :
    CompleteOrRejected pairCodec (pairMeta none) [[], [1, 2, 3]]
      (stoppedFile pairCodec (pairMeta none) [[], [1, 2, 3]] 8219) true := by
  refine (stopped_complete_iff pairCodec (pairMeta none) [[], [1, 2, 3]] 8219 true (by decide)
    (by decide) pairCodec_cut).mpr (.inr (.inr ⟨fun hzstd => absurd rfl hzstd, fun i blob hblob => ?_⟩))
  have hreached : finishReached [[], [1, 2, 3]] 8219 = 4121 := by
    rw [finishReached, length_packData]
    rfl
  rw [hreached]
  match i, hblob with
  | 0, hblob =>
      cases hblob
      exact Nat.pow_pos (by decide)
  | 1, hblob =>
      cases hblob
      decide

/-- **A header without an index.** Writing stops when the header is complete and
nothing of the index is there: the pack opens, and the second blob is gone. -/
theorem stopped_pack_opens :
    ¬CompleteOrRejected pairCodec (pairMeta none) [[], [1, 2, 3]]
      (stoppedFile pairCodec (pairMeta none) [[], [1, 2, 3]] 8194) true := by
  have hreached : finishReached [[], [1, 2, 3]] 8194 = 4096 := by
    rw [finishReached, length_packData]
    rfl
  have hfits : Fits pairCodec (pairMeta none) [[], [1, 2, 3]] :=
    ⟨by decide, by decide, by decide⟩
  have hpast := stopped_past_json (n := 8194) (by decide) hfits (by rw [hreached]; decide) true
  rw [hreached] at hpast
  obtain ⟨hdata, -⟩ | hopen := hpast
  · exact absurd (eq_nil_of_packData_nil hdata [1, 2, 3] (by decide)) nofun
  intro hcomplete
  obtain ⟨err, -, herr⟩ | ⟨r, hr, -, hreads⟩ := hcomplete
  · rw [hopen] at herr
    cases herr
  · cases hopen.symm.trans hr
    have hlt : [(1 : UInt8), 2, 3].length < 256 ^ (4096 - (blockAlign + 1 * 16 + 8)) :=
      (length_of_readsBack (i := 1) hfits rfl fun unzstd => hreads unzstd _ .refl).1
    exact absurd hlt (by decide)

end LlmPager
