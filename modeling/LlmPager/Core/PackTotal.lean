import LlmPager.Core.PackCrash

/-!
# LlmPager.Core.PackTotal

The pack reader on files that nobody wrote as packs.

Opening a file and reading the blobs of a raw pack never goes out of range if and only if
two of the lengths that the file claims are in bounds: that of the JSON, and those of the
blobs, which are rounded up in 64 bits (`total_iff`). All others are.
-/

namespace LlmPager

open Lib

variable {Value : Type}

/-! ### What the file claims -/

/-- A file that passes the checks that `open` makes of its first words. -/
structure LooksLikePack (bytes : List UInt8) : Prop where
  block : blockAlign ≤ bytes.length
  magic : slice 0 8 bytes = magic
  version : leNat (slice 8 4 bytes) = formatVersion

/-- `json_len`. -/
def jsonLen (bytes : List UInt8) : Nat := leNat (slice 12 4 bytes)

/-- The entry of the index that the file has at a place. -/
def claimed (bytes : List UInt8) (i : Nat) : IndexEntry where
  offset := leNat (slice (blockAlign + i * 16) 8 bytes)
  nbytes := leNat (slice (blockAlign + i * 16 + 8) 8 bytes)

/-- The JSON ends in the header's block. -/
def JsonFits (bytes : List UInt8) : Prop :=
  LooksLikePack bytes → jsonLen bytes ≤ blockAlign - 16

/-- The blobs of a raw pack are shorter than `2 ^ 64` bytes when rounded up. -/
def BlobsFit (codec : Codec Value) (bytes : List UInt8) : Prop :=
  LooksLikePack bytes → ∀ m, codec.fromSlice (slice 16 (jsonLen bytes) bytes) = some m →
    m.compression = none → blockAlign + alignUp (m.total * indexEntryBytes) ≤ bytes.length →
      ∀ i < m.total, (claimed bytes i).nbytes ≤ 2 ^ 64 - blockAlign

/-! ### What is promised -/

namespace PackReader

/-- `read_blob_into` answers an error, or the bytes of the file that the entry tells. -/
def Answers (unzstd : List UInt8 → Nat → Option (List UInt8)) (r : PackReader Value)
    (bytes : List UInt8) (layer expert : Nat) (buf : Buf) : Prop :=
  (∃ err, err ≠ .panic ∧ r.readBlobInto unzstd layer expert buf = .error err) ∨
  ∃ n buf', r.readBlobInto unzstd layer expert buf = .ok (n, buf', r) ∧ n ≤ buf.bytes.length ∧
    buf'.bytes.length = buf.bytes.length ∧
    ∃ e, r.entry layer expert = some e ∧ n = e.nbytes ∧ (0 < n → e.offset + n ≤ bytes.length) ∧
      buf'.bytes.take n = slice e.offset n bytes

/-- `open` answers an error or a reader, whose index is in the file, and a reader of a raw
pack answers any read of an expert. -/
structure Total (codec : Codec Value) (unzstd : List UInt8 → Nat → Option (List UInt8))
    (bytes : List UInt8) (direct : Bool) : Prop where
  opens : openInner codec bytes direct ≠ .error .panic
  index : ∀ r, openInner codec bytes direct = .ok r →
    blockAlign + r.packMeta.total * indexEntryBytes ≤ bytes.length ∧
    r.index = (List.range r.packMeta.total).map (claimed bytes)
  reads : ∀ r, openInner codec bytes direct = .ok r → r.packMeta.compression = none →
    ∀ layer < r.packMeta.numLayers.toNat, ∀ expert < r.packMeta.expertsPerLayer.toNat, ∀ buf,
      r.Answers unzstd bytes layer expert buf

end PackReader

/-! ### Rounding up -/

theorem alignUp_lt_iff (v : Nat) : alignUp v < 2 ^ 64 ↔ v ≤ 2 ^ 64 - blockAlign := by
  unfold alignUp blockAlign
  omega

/-- `open` can always make the buffer for the index, which has at most `2 ^ 36` bytes. -/
theorem newAligned_index (m : PackMeta Value) :
    newAligned (alignUp (m.total * indexEntryBytes)) =
      some (alignedBuf (alignUp (m.total * indexEntryBytes))) := by
  have hlayers := m.numLayers.toNat_lt
  have hexperts := m.expertsPerLayer.toNat_lt
  have htotal : m.total ≤ 2 ^ 16 * 2 ^ 16 := Nat.mul_le_mul hlayers.le hexperts.le
  refine PackReader.newAligned_eq_some.mpr ⟨?_, rfl⟩
  unfold alignUp indexEntryBytes blockAlign
  omega

/-! ### Opening -/

section Opening

variable {codec : Codec Value} {bytes : List UInt8} {direct : Bool}

theorem slice_header {off len : Nat} (h : off + len ≤ blockAlign) :
    slice off len (slice 0 blockAlign bytes) = slice off len bytes := by
  rw [slice_slice h, Nat.zero_add]

theorem readHeader_eq (hpack : LooksLikePack bytes) :
    readHeader codec (slice 0 blockAlign bytes) =
      if blockAlign - 16 < jsonLen bytes then .error .panic
      else match codec.fromSlice (slice 16 (jsonLen bytes) bytes) with
        | none => .error .json
        | some m => .ok m := by
  have hlength : (slice 0 blockAlign bytes).length = blockAlign :=
    length_slice (by simpa using hpack.block)
  unfold readHeader
  rw [slice_header (by decide), slice_header (by decide), slice_header (by decide), hlength,
    if_neg (not_not.mpr hpack.magic), if_neg (not_not.mpr hpack.version)]
  by_cases hjson : blockAlign - 16 < jsonLen bytes
  · rw [if_pos hjson, if_pos]
    unfold jsonLen at hjson
    unfold blockAlign at hjson ⊢
    omega
  · have hin : 16 + jsonLen bytes ≤ blockAlign := by
      unfold blockAlign at hjson ⊢
      omega
    show (if blockAlign < 16 + jsonLen bytes then _ else _) = _
    rw [if_neg hjson, if_neg (Nat.not_lt.mpr hin)]
    show (match codec.fromSlice (slice 16 (jsonLen bytes) (slice 0 blockAlign bytes)) with
      | none => _
      | some m => _) = _
    rw [slice_header hin]

/-- A file that does not look like a pack is rejected. -/
theorem openInner_stranger (codec : Codec Value) (hpack : ¬ LooksLikePack bytes) (direct : Bool) :
    ∃ err, err ≠ .panic ∧ PackReader.openInner codec bytes direct = .error err := by
  rcases Nat.lt_or_ge bytes.length blockAlign with hlen | hlen
  · exact ⟨.unexpectedEof, by simp, openInner_short codec hlen⟩
  · have hheader : ∃ err, err ≠ .panic ∧
        readHeader codec (slice 0 blockAlign bytes) = .error err := by
      unfold readHeader
      rw [slice_header (by decide), slice_header (by decide)]
      by_cases hmagic : slice 0 8 bytes = magic
      · by_cases hversion : leNat (slice 8 4 bytes) = formatVersion
        · exact absurd ⟨hlen, hmagic, hversion⟩ hpack
        · rw [if_neg (not_not.mpr hmagic), if_pos hversion]
          exact ⟨_, by simp, rfl⟩
      · rw [if_pos hmagic]
        exact ⟨_, by simp, rfl⟩
    obtain ⟨err, hpanic, hheader⟩ := hheader
    exact openInner_rejects hpanic hheader direct

theorem entriesOf_claimed (bytes : List UInt8) (total : Nat) :
    entriesOf total (slice blockAlign (alignUp (total * 16)) bytes) =
      (List.range total).map (claimed bytes) := by
  unfold entriesOf
  refine List.map_congr_left fun i hi => ?_
  have hle := le_alignUp (total * 16)
  have hlt := List.mem_range.mp hi
  have hoffset : slice (i * 16) 8 (slice blockAlign (alignUp (total * 16)) bytes) =
      slice (blockAlign + i * 16) 8 bytes := slice_slice (by omega)
  have hnbytes : slice (i * 16 + 8) 8 (slice blockAlign (alignUp (total * 16)) bytes) =
      slice (blockAlign + (i * 16 + 8)) 8 bytes := slice_slice (by omega)
  rw [hoffset, hnbytes]
  rfl

/-- **What opening does**, by what the file claims. -/
theorem openInner_pack (codec : Codec Value) (hpack : LooksLikePack bytes) (direct : Bool) :
    PackReader.openInner codec bytes direct =
      if blockAlign - 16 < jsonLen bytes then .error .panic
      else match codec.fromSlice (slice 16 (jsonLen bytes) bytes) with
        | none => .error .json
        | some m =>
            if bytes.length < blockAlign + alignUp (m.total * indexEntryBytes) then
              .error .unexpectedEof
            else .ok ⟨⟨bytes, direct⟩, m, (List.range m.total).map (claimed bytes), none⟩ := by
  rw [openInner_eq codec hpack.block, readHeader_eq hpack]
  by_cases hjson : blockAlign - 16 < jsonLen bytes
  · rw [if_pos hjson, if_pos hjson]
    rfl
  · rw [if_neg hjson, if_neg hjson]
    cases codec.fromSlice (slice 16 (jsonLen bytes) bytes) with
    | none => rfl
    | some m =>
        show (preadFull _ _ _ _).bind _ = ite _ _ _
        by_cases hzero : alignUp (m.total * indexEntryBytes) = 0
        · -- no entries, so nothing is read
          have htotal : m.total = 0 := by
            have hspan := le_alignUp (m.total * indexEntryBytes)
            unfold indexEntryBytes at hspan hzero
            omega
          rw [hzero, Nat.add_zero, if_neg (Nat.not_lt.mpr hpack.block), preadFull, if_pos rfl, htotal]
          rfl
        · rw [preadFull_aligned_eq (alignUp_mod _) rfl hzero]
          by_cases hend : bytes.length < blockAlign + alignUp (m.total * indexEntryBytes)
          · rw [if_pos hend, if_pos hend]
            rfl
          · rw [if_neg hend, if_neg hend, ← entriesOf_claimed]
            rfl

/-- A reader was opened on a file whose claims it passed. -/
theorem openInner_ok {r : PackReader Value} (h : PackReader.openInner codec bytes direct = .ok r) :
    LooksLikePack bytes ∧ jsonLen bytes ≤ blockAlign - 16 ∧
      codec.fromSlice (slice 16 (jsonLen bytes) bytes) = some r.packMeta ∧
      blockAlign + alignUp (r.packMeta.total * indexEntryBytes) ≤ bytes.length ∧
      r.file = ⟨bytes, direct⟩ ∧
      r.index = (List.range r.packMeta.total).map (claimed bytes) := by
  by_cases hpack : LooksLikePack bytes
  · rw [openInner_pack codec hpack] at h
    split at h
    · cases h
    · next hjson =>
      split at h
      · cases h
      · next m hm =>
        split at h
        · cases h
        · next hin =>
          cases h
          exact ⟨hpack, Nat.not_lt.mp hjson, hm, Nat.not_lt.mp hin, rfl, rfl⟩
  · obtain ⟨err, -, hopen⟩ := openInner_stranger codec hpack direct
    rw [hopen] at h
    cases h

end Opening

/-! ### Reading -/

namespace PackReader

variable {unzstd : List UInt8 → Nat → Option (List UInt8)} {r : PackReader Value}
  {layer expert : Nat} {e : IndexEntry}

theorem readBlobInto_overflow (hentry : r.entry layer expert = some e)
    (h : 2 ^ 64 ≤ alignUp e.nbytes) (buf : Buf) :
    r.readBlobInto unzstd layer expert buf = .error .panic := by
  simp only [readBlobInto, hentry]
  exact if_pos h

theorem preadFull_error {f : PackFile} {buf : Buf} {n offset : Nat} {err : PackError}
    (h : preadFull f buf n offset = .error err) : err ≠ .panic := by
  unfold preadFull at h
  split at h
  · cases h
  · split at h
    · cases h
      simp
    · split at h
      · cases h
        simp
      · cases h

theorem answers (hraw : r.packMeta.compression = none) (hentry : r.entry layer expert = some e)
    (h : alignUp e.nbytes < 2 ^ 64) (buf : Buf) :
    r.Answers unzstd r.file.bytes layer expert buf := by
  unfold Answers
  simp only [readBlobInto, hentry, hraw, if_true]
  rw [if_neg (by omega)]
  by_cases hsmall : buf.bytes.length < alignUp e.nbytes
  · rw [if_pos hsmall]
    exact .inl ⟨_, by simp, rfl⟩
  · rw [if_neg hsmall]
    by_cases haddr : r.file.direct = true ∧ buf.addr % blockAlign ≠ 0
    · rw [if_pos haddr]
      exact .inl ⟨_, by simp, rfl⟩
    · rw [if_neg haddr]
      have hle := le_alignUp e.nbytes
      cases hread : preadFull r.file buf (alignUp e.nbytes) e.offset with
      | error err => exact .inl ⟨err, preadFull_error hread, rfl⟩
      | ok buf' =>
          refine .inr ⟨e.nbytes, buf', rfl, by omega,
            (preadFull_frame hread (Nat.not_lt.mp hsmall)).2, e, rfl, rfl, ?_, ?_⟩
          · intro hpos
            unfold preadFull at hread
            rw [if_neg (by omega)] at hread
            split at hread
            · cases hread
            · split at hread
              · cases hread
              · omega
          · rw [preadFull_take hread hle]
            unfold slice
            rw [List.take_take, Nat.min_eq_left hle]

/-- **The pack reader is total** on a file if and only if the lengths of the JSON and of the
blobs that it claims are in bounds. -/
theorem total_iff (codec : Codec Value)
    (unzstd : List UInt8 → Nat → Option (List UInt8)) (bytes : List UInt8) (direct : Bool) :
    Total codec unzstd bytes direct ↔ JsonFits bytes ∧ BlobsFit codec bytes := by
  constructor
  · intro h
    have hjson : JsonFits bytes := by
      intro hpack
      by_contra hlong
      refine h.opens ?_
      rw [openInner_pack codec hpack, if_pos (Nat.lt_of_not_le hlong)]
    refine ⟨hjson, fun hpack m hm hraw hin i hi => ?_⟩
    have hopen : openInner codec bytes direct =
        .ok ⟨⟨bytes, direct⟩, m, (List.range m.total).map (claimed bytes), none⟩ := by
      rw [openInner_pack codec hpack, if_neg (Nat.not_lt.mpr (hjson hpack)), hm]
      exact if_neg (Nat.not_lt.mpr hin)
    -- the expert whose entry it is
    have hpos : 0 < m.expertsPerLayer.toNat := Nat.pos_of_ne_zero fun hzero => by
      unfold PackMeta.total at hi
      rw [hzero, Nat.mul_zero] at hi
      exact absurd hi (Nat.not_lt_zero i)
    have hlayer : i / m.expertsPerLayer.toNat < m.numLayers.toNat :=
      Nat.div_lt_of_lt_mul ((Nat.mul_comm _ _).symm ▸ hi)
    have hflat : flatId m.expertsPerLayer.toNat
        (i / m.expertsPerLayer.toNat, i % m.expertsPerLayer.toNat) = i := Nat.div_add_mod' i _
    have hentry : (PackReader.mk ⟨bytes, direct⟩ m ((List.range m.total).map (claimed bytes))
        none).entry (i / m.expertsPerLayer.toNat) (i % m.expertsPerLayer.toNat) =
          some (claimed bytes i) := by
      unfold entry
      rw [hflat]
      simp [hi]
    by_contra hlong
    have hover : 2 ^ 64 ≤ alignUp (claimed bytes i).nbytes := by
      rwa [← alignUp_lt_iff, Nat.not_lt] at hlong
    rcases h.reads _ hopen hraw _ hlayer _ (Nat.mod_lt i hpos) (alignedBuf 0) with
      ⟨err, hpanic, hread⟩ | ⟨n, buf', hread, -⟩
    · rw [readBlobInto_overflow hentry hover] at hread
      cases hread
      exact hpanic rfl
    · rw [readBlobInto_overflow hentry hover] at hread
      cases hread
  · intro h
    obtain ⟨hjson, hblobs⟩ := h
    refine ⟨fun hpanic => ?_, fun r hopen => ?_, fun r hopen hraw layer hlayer expert hexpert buf => ?_⟩
    · by_cases hpack : LooksLikePack bytes
      · rw [openInner_pack codec hpack, if_neg (Nat.not_lt.mpr (hjson hpack))] at hpanic
        split at hpanic
        · cases hpanic
        · split at hpanic
          · cases hpanic
          · cases hpanic
      · obtain ⟨err, herr, hopen⟩ := openInner_stranger codec hpack direct
        rw [hopen] at hpanic
        exact herr (Except.error.inj hpanic)
    · obtain ⟨-, -, -, hin, -, hindex⟩ := openInner_ok hopen
      exact ⟨(Nat.add_le_add_left (le_alignUp _) _).trans hin, hindex⟩
    · obtain ⟨hpack, -, hm, hin, hfile, hindex⟩ := openInner_ok hopen
      have hlt : flatId r.packMeta.expertsPerLayer.toNat (layer, expert) < r.packMeta.total :=
        flatId_lt hlayer hexpert
      have hentry : r.entry layer expert =
          some (claimed bytes (flatId r.packMeta.expertsPerLayer.toNat (layer, expert))) := by
        unfold entry
        rw [hindex]
        simp [hlt]
      have hfits := hblobs hpack _ hm hraw hin _ hlt
      have hanswers : r.Answers unzstd r.file.bytes layer expert buf :=
        answers hraw hentry ((alignUp_lt_iff _).mpr hfits) buf
      rw [hfile] at hanswers
      exact hanswers

end PackReader

/-! ### A JSON that does not end -/

/-- A header that claims one byte of JSON more than its block has. -/
def longJson : List UInt8 :=
  (magic ++ (leBytes 4 formatVersion ++ leBytes 4 4081)) ++ List.replicate 4080 0

theorem longJson_pack : LooksLikePack longJson ∧ jsonLen longJson = 4081 := by
  have hslice : ∀ {off len}, off + len ≤ 16 → slice off len longJson =
      slice off len (magic ++ (leBytes 4 formatVersion ++ leBytes 4 4081)) :=
    fun h => slice_append_left h
  refine ⟨⟨?_, ?_, ?_⟩, ?_⟩
  · unfold longJson
    rw [List.length_append, List.length_replicate]
    decide
  · rw [hslice (by decide)]
    decide
  · rw [hslice (by decide)]
    decide
  · unfold jsonLen
    rw [hslice (by decide)]
    decide

/-- Opening it slices out of range. -/
theorem longJson_not_total : ¬ PackReader.Total pairCodec refuse longJson false := by
  intro h
  refine h.opens ?_
  rw [openInner_pack pairCodec longJson_pack.1, longJson_pack.2]
  decide

end LlmPager
