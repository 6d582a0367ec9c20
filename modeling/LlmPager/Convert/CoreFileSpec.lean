import LlmPager.Convert.CoreFile
import LlmPager.Lib.Fallible

/-!
# LlmPager.Convert.CoreFileSpec

Reading back the resident core: the reader lists the new names and returns the tensors of
the checkpoint under them (`core_round_trip`).

The two passes over the tensors keep in step: the cursor of the header is the length of the
data copied so far (`passes_agree`), so that a tensor lies in the data where its entry says
(`Placed`). The reader adds what is in front of the data.
-/

namespace LlmPager

open Lib (leBytes leNat slice Json JsonCodec)

/-! ### Reads -/

theorem readExactAt_ok {file buf : List UInt8} {n off : Nat} (h : readExactAt file n off = .ok buf) :
    buf.length = n := by
  unfold readExactAt at h
  split at h
  · next h0 =>
    cases h
    exact h0.symm
  · split at h
    · next hin =>
      cases h
      exact Lib.length_slice hin
    · cases h

theorem readExactAt_slice {file : List UInt8} {n off : Nat} (h : off + n ≤ file.length) :
    readExactAt file n off = .ok (slice off n file) := by
  unfold readExactAt
  split
  · next h0 => simp [h0, slice]
  · rfl

namespace Shards

variable {ckpt : Checkpoint}

theorem Checkpoint.tensor_ok {name : String} {loc : TensorLoc} (h : ckpt.tensor name = .ok loc) :
    ckpt.tensors[name]? = some loc := by
  unfold Checkpoint.tensor at h
  split at h
  · next hloc =>
    cases h
    exact hloc
  · cases h

/-- The bytes that were read are as many as the header's entry counts. -/
theorem Checkpoint.length_readRaw {loc : TensorLoc} {raw : List UInt8} {len : UInt64}
    (hraw : ckpt.readRaw loc = .ok raw) (hlen : loc.size = .ok len) : raw.length = len.toNat := by
  obtain ⟨n, hn, hread⟩ := Lib.Except.ok_parts hraw
  obtain rfl : n = len := Except.ok.inj (hn.symm.trans hlen)
  split at hread
  · unfold readVec at hread
    split at hread
    · exact readExactAt_ok hread
    · cases hread
  · cases hread

/-! ### The passes -/

/-- A tensor is in the data, where the header's entry of its new name says. -/
def Placed (ckpt : Checkpoint) (header : Std.TreeMap String Json) (data : List UInt8)
    (pair : String × String) : Prop :=
  ∃ loc raw off, ckpt.tensors[pair.1]? = some loc ∧ ckpt.readRaw loc = .ok raw ∧
    off + raw.length ≤ data.length ∧ slice off raw.length data = raw ∧
    header[pair.2]? = some (headerEntry loc (UInt64.ofNat off) (UInt64.ofNat raw.length))

/-- What one turn of each loop does with a tensor. -/
theorem steps_ok {st st' : HeaderState} {data data' : List UInt8} {pair : String × String}
    (hheader : headerStep ckpt st pair = .ok st') (hdata : copyStep ckpt data pair = .ok data') :
    ∃ loc raw, ckpt.tensors[pair.1]? = some loc ∧ ckpt.readRaw loc = .ok raw ∧
      data' = data ++ raw ∧
      st'.header = st.header.insert pair.2 (headerEntry loc st.cursor (UInt64.ofNat raw.length)) ∧
      st'.cursor = st.cursor + UInt64.ofNat raw.length := by
  obtain ⟨loc, hloc, hrest⟩ := Lib.Except.ok_parts hheader
  obtain ⟨len, hlen, hst⟩ := Lib.Except.ok_parts hrest
  obtain ⟨loc', hloc', hcopy⟩ := Lib.Except.ok_parts hdata
  obtain rfl : loc = loc' := Except.ok.inj (hloc.symm.trans hloc')
  obtain ⟨raw, hraw, hdata'⟩ := Lib.Except.ok_parts hcopy
  have hcount : UInt64.ofNat raw.length = len := by
    rw [Checkpoint.length_readRaw hraw hlen, UInt64.ofNat_toNat]
  cases hst
  cases hdata'
  refine ⟨loc, raw, Checkpoint.tensor_ok hloc, hraw, rfl, ?_, ?_⟩
  · rw [hcount]
  · rw [hcount]

/-- **The two passes keep in step**: every tensor is placed, and nothing else is listed. -/
theorem passes_agree {names : List (String × String)} {st st' : HeaderState}
    {data data' : List UInt8} (hheader : names.foldlM (headerStep ckpt) st = .ok st')
    (hdata : names.foldlM (copyStep ckpt) data = .ok data')
    (hcursor : st.cursor = UInt64.ofNat data.length) (hnodup : (names.map Prod.snd).Nodup) :
    (∃ more, data' = data ++ more) ∧
      (∀ k, k ∉ names.map Prod.snd → st'.header[k]? = st.header[k]?) ∧
      ∀ pair ∈ names, Placed ckpt st'.header data' pair := by
  induction names generalizing st data with
  | nil =>
      cases hheader
      cases hdata
      exact ⟨⟨[], by simp⟩, fun _ _ => rfl, fun _ h => by cases h⟩
  | cons pair names ih =>
      rw [List.foldlM_cons] at hheader hdata
      obtain ⟨st₁, hturn, hheaders⟩ := Lib.Except.ok_parts hheader
      obtain ⟨data₁, hcopy, hcopies⟩ := Lib.Except.ok_parts hdata
      rw [List.map_cons, List.nodup_cons] at hnodup
      obtain ⟨loc, raw, hloc, hraw, hdata₁, hheader₁, hcursor₁⟩ := steps_ok hturn hcopy
      have hcursor' : st₁.cursor = UInt64.ofNat data₁.length := by
        rw [hcursor₁, hdata₁, hcursor, List.length_append, UInt64.ofNat_add]
      obtain ⟨hmore, hlisted, hplaced⟩ := ih hheaders hcopies hcursor' hnodup.2
      obtain ⟨more, hmore⟩ := hmore
      refine ⟨⟨raw ++ more, by rw [hmore, hdata₁, List.append_assoc]⟩, ?_, ?_⟩
      · intro k hk
        rw [List.map_cons, List.mem_cons, not_or] at hk
        rw [hlisted k hk.2, hheader₁, Lib.getElem?_insert_of_ne (Ne.symm hk.1)]
      · intro p hp
        rcases List.mem_cons.mp hp with rfl | hp
        · refine ⟨loc, raw, data.length, hloc, hraw, ?_, ?_, ?_⟩
          · rw [hmore, hdata₁, List.length_append, List.length_append]
            omega
          · rw [hmore, hdata₁, List.append_assoc, Lib.slice_append_right le_rfl, Nat.sub_self]
            exact Lib.slice_front rfl
          · rw [hlisted _ hnodup.1, hheader₁, hcursor, Std.TreeMap.getElem?_insert_self]
        · exact hplaced p hp

/-! ### The reader -/

/-- An entry of the header, read back. -/
theorem tensorInfo_headerEntry {dataBase : UInt64} (name : String) (loc : TensorLoc)
    {off len : Nat} (hfits : dataBase.toNat + (off + len) < 2 ^ 64) :
    tensorInfo dataBase name (headerEntry loc (UInt64.ofNat off) (UInt64.ofNat len)) =
      .ok ⟨loc.dtype, loc.shape, dataBase + UInt64.ofNat off,
        dataBase + (UInt64.ofNat off + UInt64.ofNat len)⟩ := by
  have hoff : dataBase.toNat + (UInt64.ofNat off).toNat < 2 ^ 64 := by
    rw [UInt64.toNat_ofNat', Nat.mod_eq_of_lt (by omega)]
    omega
  have hstop : dataBase.toNat + (UInt64.ofNat off + UInt64.ofNat len).toNat < 2 ^ 64 := by
    rw [← UInt64.ofNat_add, UInt64.toNat_ofNat', Nat.mod_eq_of_lt (by omega)]
    exact hfits
  generalize UInt64.ofNat off = cursor at *
  generalize UInt64.ofNat len = len at *
  have hget : ∀ {key : String} {v : Json},
      (key, v) ∈ [("dtype", Json.str loc.dtype), ("shape", .arr (loc.shape.map .num)),
        ("data_offsets", .arr [.num cursor, .num (cursor + len)])] →
          (headerEntry loc cursor len).get key = v :=
    fun h => Json.get_object (by simp) h
  have hshape : (loc.shape.map Json.num).filterMap Json.asU64 = loc.shape := by
    induction loc.shape with
    | nil => rfl
    | cons n shape ih => simpa [Json.asU64] using ih
  have hoffsets : (headerEntry loc cursor len).get "data_offsets" =
      .arr [.num cursor, .num (cursor + len)] := hget (by simp)
  have hdtype : (headerEntry loc cursor len).get "dtype" = .str loc.dtype := hget (by simp)
  have hshapes : (headerEntry loc cursor len).get "shape" = .arr (loc.shape.map .num) :=
    hget (by simp)
  unfold tensorInfo
  rw [hoffsets, hdtype, hshapes]
  simp only [Json.asArray, Json.asStr, Json.asU64, Option.getD_some, Option.map_some, hshape]
  rw [addOffset_of_lt hoff, addOffset_of_lt hstop]
  rfl

/-- The loop over entries of which none fails. -/
theorem foldlM_openEntry {dataBase : UInt64} {entries : List (String × Json)}
    (tensors : Std.TreeMap String TensorInfo)
    (hinfo : ∀ kv ∈ entries, kv.1 ≠ "__metadata__" ∧
      ∃ info, tensorInfo dataBase kv.1 kv.2 = .ok info)
    (hnodup : (entries.map Prod.fst).Nodup) :
    ∃ tensors', entries.foldlM (SafeTensors.openEntry dataBase) tensors = .ok tensors' ∧
      (∀ kv ∈ entries, ∀ info, tensorInfo dataBase kv.1 kv.2 = .ok info →
        tensors'[kv.1]? = some info) ∧
      ∀ k, k ∉ entries.map Prod.fst → tensors'[k]? = tensors[k]? := by
  induction entries generalizing tensors with
  | nil => exact ⟨tensors, rfl, by simp, fun _ _ => rfl⟩
  | cons kv entries ih =>
      rw [List.map_cons, List.nodup_cons] at hnodup
      obtain ⟨hne, info, hkv⟩ := hinfo kv (by simp)
      obtain ⟨tensors', hrun, hmem, hout⟩ := ih (tensors.insert kv.1 info)
        (fun kv' h => hinfo kv' (by simp [h])) hnodup.2
      have hstep : SafeTensors.openEntry dataBase tensors kv = .ok (tensors.insert kv.1 info) := by
        unfold SafeTensors.openEntry
        rw [if_neg hne, hkv]
        rfl
      refine ⟨tensors', ?_, ?_, ?_⟩
      · rw [List.foldlM_cons, hstep]
        exact hrun
      · intro kv' h info' hinfo'
        rcases List.mem_cons.mp h with rfl | hin
        · rw [hout _ hnodup.1, Std.TreeMap.getElem?_insert_self]
          exact congrArg some (Except.ok.inj (hkv.symm.trans hinfo'))
        · exact hmem kv' hin info' hinfo'
      · intro k hk
        rw [List.map_cons, List.mem_cons, not_or] at hk
        rw [hout k hk.2, Lib.getElem?_insert_of_ne (Ne.symm hk.1)]

theorem readJsonHeader_ok {codec : JsonCodec} {file len8 hdr : List UInt8}
    {entries : List (String × Json)} (hlen8 : readExactAt file 8 0 = .ok len8)
    (hhdr : readVec file (UInt64.ofNat (leNat len8)) 8 = .ok hdr)
    (hparse : codec.fromSlice hdr = some (.obj entries)) :
    readJsonHeader codec file = .ok ⟨8 + UInt64.ofNat (leNat len8), entries⟩ := by
  simp [readJsonHeader, bind, Except.bind, hlen8, hhdr, hparse, Json.asObject]

/-- A file that opens: its header is an object of which no entry fails. -/
theorem openFile_ok {codec : JsonCodec} {file : List UInt8} {h : Header}
    {tensors : Std.TreeMap String TensorInfo} (hheader : readJsonHeader codec file = .ok h)
    (hentries : h.entries.foldlM (SafeTensors.openEntry h.dataBase) ∅ = .ok tensors) :
    SafeTensors.openFile codec file = .ok ⟨file, tensors⟩ := by
  simp [SafeTensors.openFile, bind, Except.bind, hheader, hentries]
  rfl

/-- A tensor is read where its entry says, behind what is in front of the data. -/
theorem raw_of_placed {front data raw : List UInt8} {off : Nat} {st : SafeTensors} {name : String}
    {info : TensorInfo} (hfile : st.file = front ++ data) (hsize : st.file.length < 2 ^ 63)
    (hoff : off + raw.length ≤ data.length) (hraw : slice off raw.length data = raw)
    (hinfo : st.info name = .ok info) (hstart : info.start = UInt64.ofNat (front.length + off))
    (hstop : info.stop = UInt64.ofNat (front.length + off) + UInt64.ofNat raw.length) :
    st.raw name = .ok (raw, info) := by
  have hlength : st.file.length = front.length + data.length := by
    rw [hfile, List.length_append]
  have hstart' : (UInt64.ofNat (front.length + off)).toNat = front.length + off := by
    rw [UInt64.toNat_ofNat']
    omega
  have hlen : (UInt64.ofNat raw.length).toNat = raw.length := by
    rw [UInt64.toNat_ofNat']
    omega
  have hordered : ¬ info.stop < info.start := by
    rw [hstart, hstop, UInt64.lt_iff_toNat_lt, UInt64.toNat_add, hstart', hlen]
    omega
  have hcount : info.stop - info.start = UInt64.ofNat raw.length := by
    rw [hstart, hstop, UInt64.add_comm, UInt64.add_sub_cancel]
  have hread : readVec st.file (UInt64.ofNat raw.length) info.start = .ok raw := by
    rw [readVec_of_lt (by omega), hlen, hstart, hstart', readExactAt_slice (by omega), hfile,
      Lib.slice_append_right (Nat.le_add_right _ _), Nat.add_sub_cancel_left, hraw]
  unfold SafeTensors.raw
  rw [hinfo]
  show (if info.stop < info.start then _ else _) = _
  rw [if_neg hordered, hcount, hread]
  rfl

/-! ### The round trip -/

/-- What the writer computed, when it wrote the file. -/
theorem writeSafetensorsRenamed_ok {codec : JsonCodec} {names : List (String × String)}
    {file : List UInt8} {n : Nat} (h : writeSafetensorsRenamed codec ckpt names = .ok (file, n)) :
    ∃ st data, makeHeader ckpt names = .ok st ∧ names.foldlM (copyStep ckpt) [] = .ok data ∧
      file = leBytes 8 (padHeader (codec.toVec (.obj st.header.toList))).length ++
        padHeader (codec.toVec (.obj st.header.toList)) ++ data ∧
      file.length < 2 ^ 63 ∧
      n = 8 + (padHeader (codec.toVec (.obj st.header.toList))).length + data.length := by
  obtain ⟨st, hst, h⟩ := Lib.Except.ok_parts h
  obtain ⟨data, hdata, hout⟩ := Lib.Except.ok_parts h
  refine ⟨st, data, hst, hdata, ?_⟩
  dsimp only at hout
  split at hout
  · cases hout
  · next hsize =>
    cases hout
    exact ⟨rfl, not_le.mp hsize, rfl⟩

/-- An entry of the header is a tensor's, and where the tensor is placed. -/
theorem entry_of_placed {names : List (String × String)} {header : Std.TreeMap String Json}
    {data : List UInt8} (hlisted : ∀ k, k ∉ names.map Prod.snd → header[k]? = none)
    (hplaced : ∀ pair ∈ names, Placed ckpt header data pair) {kv : String × Json}
    (h : kv ∈ header.toList) : ∃ pair ∈ names, pair.2 = kv.1 ∧ ∃ loc off len,
      off + len ≤ data.length ∧ kv.2 = headerEntry loc (UInt64.ofNat off) (UInt64.ofNat len) := by
  obtain ⟨k, v⟩ := kv
  rw [Std.TreeMap.mem_toList_iff_getElem?_eq_some] at h
  have hkey : k ∈ names.map Prod.snd := by
    by_contra hnot
    rw [hlisted k hnot] at h
    cases h
  obtain ⟨pair, hpair, rfl⟩ := List.mem_map.mp hkey
  obtain ⟨loc, raw, off, -, -, hoff, -, hget⟩ := hplaced pair hpair
  exact ⟨pair, hpair, rfl, loc, off, raw.length, hoff, Option.some.inj (h.symm.trans hget)⟩

/-- **What the reader finds in the core file**: the new names, and under each the tensor of
the checkpoint. -/
theorem core_tensors {codec : JsonCodec} {names : List (String × String)} {file : List UInt8}
    {n : Nat} (hnodup : (names.map Prod.snd).Nodup) (hmeta : "__metadata__" ∉ names.map Prod.snd)
    (hjson : ∀ st, makeHeader ckpt names = .ok st → codec.Decodes (.obj st.header.toList))
    (h : writeSafetensorsRenamed codec ckpt names = .ok (file, n)) :
    ∃ st, SafeTensors.openFile codec file = .ok st ∧ st.names.Perm (names.map Prod.snd) ∧
      ∀ pair ∈ names, ∃ loc raw info, ckpt.tensors[pair.1]? = some loc ∧
        ckpt.readRaw loc = .ok raw ∧ st.info pair.2 = .ok info ∧
        st.raw pair.2 = .ok (raw, info) ∧ info.dtype = loc.dtype ∧ info.shape = loc.shape := by
  obtain ⟨st, data, hheader, hdata, hfile, hsize, -⟩ := writeSafetensorsRenamed_ok h
  obtain ⟨-, hsame, hplaced⟩ := passes_agree hheader hdata rfl hnodup
  have hlisted : ∀ k, k ∉ names.map Prod.snd → st.header[k]? = none :=
    fun k hk => (hsame k hk).trans Std.TreeMap.getElem?_emptyc
  generalize hhdr : padHeader (codec.toVec (.obj st.header.toList)) = hdr at hfile
  have hlength : file.length = 8 + hdr.length + data.length := by
    rw [hfile, List.length_append, List.length_append, Lib.length_leBytes]
  -- the front of the file
  have hlen8 : readExactAt file 8 0 = .ok (leBytes 8 hdr.length) := by
    rw [readExactAt_slice (by omega), hfile, List.append_assoc, Lib.slice_front (by simp)]
  have hcount : UInt64.ofNat (leNat (leBytes 8 hdr.length)) = UInt64.ofNat hdr.length := by
    rw [Lib.leNat_leBytes_of_lt (by omega)]
  have hread : readVec file (UInt64.ofNat hdr.length) 8 = .ok hdr := by
    have hcount' : (UInt64.ofNat hdr.length).toNat = hdr.length := by
      rw [UInt64.toNat_ofNat']
      omega
    rw [readVec_of_lt (by omega), hcount']
    show readExactAt file hdr.length 8 = _
    rw [readExactAt_slice (by omega), hfile, List.append_assoc,
      Lib.slice_append_right (by simp), Lib.length_leBytes, Lib.slice_front rfl]
  have hparse : codec.fromSlice hdr = some (.obj st.header.toList) := by
    rw [← hhdr]
    exact hjson st hheader _
  have hbound : ∀ k, k ≤ data.length → (8 + UInt64.ofNat hdr.length).toNat + k < 2 ^ 64 := by
    intro k hk
    have hbase : (8 + UInt64.ofNat hdr.length).toNat = 8 + hdr.length := by
      rw [UInt64.toNat_add, UInt64.toNat_ofNat']
      show (8 + hdr.length % 2 ^ 64) % 2 ^ 64 = _
      omega
    omega
  -- the loop over the entries
  have hinfo : ∀ kv ∈ st.header.toList, kv.1 ≠ "__metadata__" ∧
      ∃ info, tensorInfo (8 + UInt64.ofNat hdr.length) kv.1 kv.2 = .ok info := by
    intro kv hkv
    obtain ⟨pair, hpair, hkey, loc, off, len, hoff, hv⟩ := entry_of_placed hlisted hplaced hkv
    refine ⟨fun heq => hmeta ?_, _, hv ▸ tensorInfo_headerEntry kv.1 loc (hbound _ hoff)⟩
    rw [← heq, ← hkey]
    exact List.mem_map_of_mem hpair
  have hnodupKeys : (st.header.toList.map Prod.fst).Nodup := by
    rw [Std.TreeMap.map_fst_toList_eq_keys]
    exact st.header.nodup_keys
  obtain ⟨tensors, hrun, hmem, hout⟩ := foldlM_openEntry ∅ hinfo hnodupKeys
  have hopen : SafeTensors.openFile codec file = .ok ⟨file, tensors⟩ := by
    have hheader' := readJsonHeader_ok hlen8 (by rw [hcount, hread]) hparse
    rw [hcount] at hheader'
    exact openFile_ok hheader' hrun
  have hfound : ∀ pair ∈ names, ∃ loc raw off, ckpt.tensors[pair.1]? = some loc ∧
      ckpt.readRaw loc = .ok raw ∧ off + raw.length ≤ data.length ∧
      slice off raw.length data = raw ∧ tensors[pair.2]? = some ⟨loc.dtype, loc.shape,
        8 + UInt64.ofNat hdr.length + UInt64.ofNat off,
        8 + UInt64.ofNat hdr.length + (UInt64.ofNat off + UInt64.ofNat raw.length)⟩ := by
    intro pair hpair
    obtain ⟨loc, raw, off, hloc, hraw, hoff, hslice, hget⟩ := hplaced pair hpair
    exact ⟨loc, raw, off, hloc, hraw, hoff, hslice,
      hmem (pair.2, _) (Std.TreeMap.mem_toList_iff_getElem?_eq_some.mpr hget) _
        (tensorInfo_headerEntry _ _ (hbound _ hoff))⟩
  refine ⟨⟨file, tensors⟩, hopen, ?_, ?_⟩
  · refine (List.perm_ext_iff_of_nodup tensors.nodup_keys hnodup).mpr fun k => ?_
    show k ∈ tensors.keys ↔ _
    rw [Std.TreeMap.mem_keys, ← Std.TreeMap.isSome_getElem?_iff_mem]
    constructor
    · intro hsome
      by_contra hnot
      have hkey : k ∉ st.header.toList.map Prod.fst := by
        rw [Std.TreeMap.map_fst_toList_eq_keys, Std.TreeMap.mem_keys,
          ← Std.TreeMap.isSome_getElem?_iff_mem, hlisted k hnot]
        simp
      rw [hout k hkey, Std.TreeMap.getElem?_emptyc] at hsome
      cases hsome
    · intro hk
      obtain ⟨pair, hpair, rfl⟩ := List.mem_map.mp hk
      obtain ⟨loc, raw, off, -, -, -, -, hget⟩ := hfound pair hpair
      rw [hget]
      rfl
  · intro pair hpair
    obtain ⟨loc, raw, off, hloc, hraw, hoff, hslice, hget⟩ := hfound pair hpair
    have hbase : ∀ k, (8 : UInt64) + UInt64.ofNat hdr.length + UInt64.ofNat k =
        UInt64.ofNat ((leBytes 8 hdr.length ++ hdr).length + k) := by
      intro k
      rw [List.length_append, Lib.length_leBytes, UInt64.ofNat_add, UInt64.ofNat_add]
      rfl
    have hgot : (SafeTensors.mk file tensors).info pair.2 = .ok ⟨loc.dtype, loc.shape,
        8 + UInt64.ofNat hdr.length + UInt64.ofNat off,
        8 + UInt64.ofNat hdr.length + (UInt64.ofNat off + UInt64.ofNat raw.length)⟩ := by
      unfold SafeTensors.info
      rw [hget]
    refine ⟨loc, raw, _, hloc, hraw, hgot,
      raw_of_placed hfile hsize hoff hslice hgot (hbase off) ?_, rfl, rfl⟩
    show _ + (_ + _) = _
    rw [← UInt64.add_assoc, hbase]

/-- **The resident core round trip**: the file has as many bytes as are returned, and holds
the tensors of the checkpoint under their new names. -/
theorem core_round_trip {codec : JsonCodec} {names : List (String × String)} {file : List UInt8}
    {n : Nat} (hnodup : (names.map Prod.snd).Nodup) (hmeta : "__metadata__" ∉ names.map Prod.snd)
    (hjson : ∀ st, makeHeader ckpt names = .ok st → codec.Decodes (.obj st.header.toList))
    (h : writeSafetensorsRenamed codec ckpt names = .ok (file, n)) :
    n = file.length ∧ ∃ st, SafeTensors.openFile codec file = .ok st ∧
      st.names.Perm (names.map Prod.snd) ∧
      ∀ pair ∈ names, ∃ loc raw info, ckpt.tensors[pair.1]? = some loc ∧
        ckpt.readRaw loc = .ok raw ∧ st.info pair.2 = .ok info ∧
        st.raw pair.2 = .ok (raw, info) ∧ info.dtype = loc.dtype ∧ info.shape = loc.shape := by
  obtain ⟨st, data, -, -, hfile, -, hn⟩ := writeSafetensorsRenamed_ok h
  refine ⟨?_, core_tensors hnodup hmeta hjson h⟩
  rw [hn, hfile, List.length_append, List.length_append, Lib.length_leBytes]

/-! ### Two shards -/

def pairCkpt : Checkpoint where
  files := [[4], [1, 2, 3]]
  tensors := ((∅ : Std.TreeMap String TensorLoc).insert "a" ⟨1, "BF16", [1], 1, 3⟩).insert "b"
    ⟨0, "F32", [0], 1, 1⟩
  config := .null

def pairNames : List (String × String) := [("b", "y"), ("a", "x")]

def pairHeader : Json :=
  .obj [("x", .obj [("data_offsets", .arr [.num 0, .num 2]), ("dtype", .str "BF16"),
      ("shape", .arr [.num 1])]),
    ("y", .obj [("data_offsets", .arr [.num 0, .num 0]), ("dtype", .str "F32"),
      ("shape", .arr [.num 0])])]

/-- The text of that header, on which the codec is as `serde_json` is. -/
def pairText : List UInt8 :=
  ("\x7b\"x\":\x7b\"data_offsets\":[0,2],\"dtype\":\"BF16\",\"shape\":[1]\x7d,\"y\":\x7b" ++
    "\"data_offsets\":[0,0],\"dtype\":\"F32\",\"shape\":[0]\x7d\x7d").toList.map fun c =>
      UInt8.ofNat c.toNat

def pairCodec : JsonCodec where
  toVec _ := pairText
  fromSlice bs :=
    if bs = pairText ++ List.replicate (bs.length - pairText.length) 0x20 then some pairHeader
    else none

theorem core_round_trip_pair : ∃ file n,
    writeSafetensorsRenamed pairCodec pairCkpt pairNames = .ok (file, n) ∧ n = file.length ∧
      ∃ st, SafeTensors.openFile pairCodec file = .ok st ∧ st.names.Perm ["y", "x"] := by
  obtain ⟨out, hout⟩ : ∃ out, writeSafetensorsRenamed pairCodec pairCkpt pairNames = .ok out := by
    have hok : (writeSafetensorsRenamed pairCodec pairCkpt pairNames).toOption.isSome = true := by
      decide +kernel
    cases hrun : writeSafetensorsRenamed pairCodec pairCkpt pairNames with
    | error e =>
        rw [hrun] at hok
        cases hok
    | ok out => exact ⟨out, rfl⟩
  have hjson : ∀ st, makeHeader pairCkpt pairNames = .ok st →
      pairCodec.Decodes (.obj st.header.toList) := by
    intro st hst spaces
    have hheader : Json.obj st.header.toList = pairHeader := by
      cases hst
      rfl
    have hlen : (pairText ++ List.replicate spaces 0x20).length - pairText.length = spaces := by
      rw [List.length_append, List.length_replicate, Nat.add_sub_cancel_left]
    rw [hheader]
    exact if_pos (congrArg (pairText ++ List.replicate · 0x20) hlen.symm)
  obtain ⟨hn, st, hst, hnames, -⟩ := core_round_trip (by decide) (by decide) hjson
    (show _ = Except.ok (out.1, out.2) from hout)
  exact ⟨out.1, out.2, hout, hn, st, hst, hnames⟩

end Shards

end LlmPager
