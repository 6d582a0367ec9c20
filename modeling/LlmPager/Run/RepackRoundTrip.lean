import LlmPager.Run.QuantRoundTrip

/-!
# LlmPager.Run.RepackRoundTrip

`q4_dequantize` on what `build_kimi_blob` repacked, with the dimensions and the group that
the blob's header records.

A repacked region is the scales, each an f16 now, and behind them the packed tensor as it
was (`repack_eq`). But the shapes are compared after a truncating division, so columns that
are no multiple of the group pass, and the header keeps 32 bits of a dimension: then there
is nothing that `q4_dequantize` accepts (`kimiBlob_decodes_iff`).
-/

namespace LlmPager

open Lib (leBytes leNat slice)

/-! ### The header -/

/-- The rows and columns of a projection, as the header has them. -/
def headerDims (blob : List UInt8) (p : Proj) : Nat × Nat :=
  (leNat (slice (p.index * 8) 4 blob), leNat (slice (p.index * 8 + 4) 4 blob))

def headerGroup (blob : List UInt8) : Nat := leNat (slice 24 4 blob)

theorem leNat_headerWord (group : Nat) (region : Proj → Region) {i : Nat} (hi : i < 8) :
    leNat (slice (i * 4) 4 (assembleBlob group [region .gate, region .up, region .down])) =
      [(region .gate).rows, (region .gate).cols, (region .up).rows, (region .up).cols,
        (region .down).rows, (region .down).cols, group, 0].getD i 0 % 2 ^ 32 := by
  have hwords : assembleBlob group [region .gate, region .up, region .down] =
      [(region .gate).rows, (region .gate).cols, (region .up).rows, (region .up).cols,
        (region .down).rows, (region .down).cols, group, 0].flatMap (leBytes 4) ++
          [region .gate, region .up, region .down].flatMap Region.bytes := by
    simp [assembleBlob]
  rw [hwords, Lib.slice_append_left (by simp; omega),
    Lib.slice_flatMap (Lib.length_leBytes 4) _ i (by simpa using hi), Lib.leNat_leBytes,
    List.getD_eq_getElem?_getD, List.getElem?_eq_getElem (by simpa using hi), Option.getD_some]
  rfl

theorem headerDims_assembleBlob (group : Nat) (region : Proj → Region) (p : Proj) :
    headerDims (assembleBlob group [region .gate, region .up, region .down]) p =
      ((region p).rows % 2 ^ 32, (region p).cols % 2 ^ 32) := by
  have hword := fun i hi => leNat_headerWord group region (i := i) hi
  cases p with
  | gate => exact Prod.ext (hword 0 (by decide)) (hword 1 (by decide))
  | up => exact Prod.ext (hword 2 (by decide)) (hword 3 (by decide))
  | down => exact Prod.ext (hword 4 (by decide)) (hword 5 (by decide))

theorem headerGroup_assembleBlob {group : Nat} (hgroup : group < 2 ^ 32)
    (region : Proj → Region) :
    headerGroup (assembleBlob group [region .gate, region .up, region .down]) = group :=
  (leNat_headerWord group region (show 6 < 8 by decide)).trans (Nat.mod_eq_of_lt hgroup)

/-! ### Regions -/

section Region

variable {scalesRaw packed buf : List UInt8} {rows cols : Nat}

theorem length_repack (h : repack scalesRaw packed rows cols = some buf) :
    buf.length = q4Bytes rows cols KIMI_GROUP := by
  obtain ⟨sdst, hsdst, h⟩ := Option.bind_eq_some_iff.mp h
  obtain ⟨ddst, hddst, h⟩ := Option.bind_eq_some_iff.mp h
  cases h
  have hsplit := congrArg List.length (List.take_append_drop (rows * (cols / KIMI_GROUP) * 2)
    (List.replicate (q4Bytes rows cols KIMI_GROUP) (0 : UInt8)))
  rw [List.length_append, List.length_replicate] at hsplit
  rw [List.length_append, Lib.length_pokeAll hsdst, Lib.length_pokeAll hddst, hsplit]

/-- The bytes of a region whose rows are whole groups. -/
theorem q4Bytes_kimi (rows : Nat) (hcols : KIMI_GROUP ∣ cols) : q4Bytes rows cols KIMI_GROUP =
    rows * (cols / KIMI_GROUP) * 2 + rows * (cols / 8) * 4 := by
  have hwords : cols / 8 = cols / KIMI_GROUP * 4 := by
    unfold KIMI_GROUP at *
    omega
  rw [q4Bytes_groups rows rfl (Nat.div_mul_cancel hcols).symm, hwords, ← Nat.mul_assoc rows,
    Nat.mul_assoc _ 4 4]
  rfl

/-- **The nibble stream copies through.** -/
theorem repack_eq (hcols : KIMI_GROUP ∣ cols) (hpacked : packed.length = rows * (cols / 8) * 4)
    (hscales : scalesRaw.length = rows * (cols / KIMI_GROUP) * 2) :
    repack scalesRaw packed rows cols =
      some (((List.range (rows * (cols / KIMI_GROUP))).flatMap fun i =>
        kimiScale (slice (i * 2) 2 scalesRaw)) ++ packed) := by
  have hbytes := q4Bytes_kimi rows hcols
  have hword : ∀ w ∈ List.range (packed.length / 4), packedWord packed w = slice (w * 4) 4 packed :=
    fun w hw => if_pos (List.mem_range.mp hw)
  have hcopied : ((List.range (packed.length / 4)).map fun w => (w * 4, slice (w * 4) 4 packed)) =
      (List.range (packed.length / 4)).map fun w => (w * 4, packedWord packed w) :=
    List.map_congr_left fun w hw => by rw [hword w hw]
  have hall : ((List.range (packed.length / 4)).flatMap (packedWord packed)) = packed := by
    have hwhole := Lib.flatMap_slice 0 4 (packed.length / 4) packed
    simp only [Nat.zero_add] at hwhole
    rw [List.flatMap_congr hword, hwhole, hpacked, Nat.mul_div_cancel _ (by decide), ← hpacked]
    simp [slice]
  have hcount : scalesRaw.length / 2 = rows * (cols / KIMI_GROUP) := by omega
  have hscalesOut := Lib.pokeAll_range_full (w := 2)
    (g := fun i => kimiScale (slice (i * 2) 2 scalesRaw)) (fun _ => Lib.length_leBytes 2 _)
    (l := (List.replicate (q4Bytes rows cols KIMI_GROUP) (0 : UInt8)).take
      (rows * (cols / KIMI_GROUP) * 2)) (n := rows * (cols / KIMI_GROUP)) (by simp; omega)
  have hdataOut := Lib.pokeAll_range_full (length_packedWord packed)
    (l := (List.replicate (q4Bytes rows cols KIMI_GROUP) (0 : UInt8)).drop
      (rows * (cols / KIMI_GROUP) * 2)) (n := packed.length / 4) (by simp; omega)
  unfold repack
  rw [hcount, hcopied]
  simp only [hscalesOut, hdataOut, hall]
  rfl

/-- **What a repacked region decodes to.** -/
theorem repacked_value {V : Type} (mul : Int → UInt32 → V) (hcols : KIMI_GROUP ∣ cols)
    (hpacked : packed.length = rows * (cols / 8) * 4)
    (hscales : scalesRaw.length = rows * (cols / KIMI_GROUP) * 2)
    (h : repack scalesRaw packed rows cols = some buf) {r c : Nat} (hr : r < rows) (hc : c < cols) :
    q4Value mul buf rows cols KIMI_GROUP (r * cols + c) =
      mul (wordNibble (leU32 (slice ((r * cols + c) / 8 * 4) 4 packed)) ((r * cols + c) % 8) - 8)
        (f16Round (bf16ToF32
          (slice ((r * (cols / KIMI_GROUP) + c / KIMI_GROUP) * 2) 2 scalesRaw))) := by
  rw [repack_eq hcols hpacked hscales] at h
  cases h
  have hgroup : (r * cols + c) / KIMI_GROUP = r * (cols / KIMI_GROUP) + c / KIMI_GROUP := by
    conv_lhs => rw [← Nat.div_mul_cancel hcols, ← Nat.mul_assoc]
    rw [Nat.mul_comm _ KIMI_GROUP, Nat.mul_add_div (by decide)]
  have hflat := Lib.block_lt hr hc
  have hblock := Lib.block_lt hr (Nat.div_lt_div_of_lt_of_dvd hcols hc)
  have hwords : rows * (cols / 8) * 8 = rows * cols := by
    have hcols8 : cols / 8 * 8 = cols := by
      unfold KIMI_GROUP at hcols
      omega
    rw [Nat.mul_assoc, hcols8]
  have hlength : ∀ i, (kimiScale (slice (i * 2) 2 scalesRaw)).length = 2 :=
    fun i => Lib.length_leBytes 2 _
  have htable : ((List.range (rows * (cols / KIMI_GROUP))).flatMap fun i =>
      kimiScale (slice (i * 2) 2 scalesRaw)).length = rows * (cols / KIMI_GROUP) * 2 := by
    rw [Lib.length_flatMap_of_const hlength, List.length_range]
  generalize hk : r * cols + c = k at *
  have hscale : q4Scale (((List.range (rows * (cols / KIMI_GROUP))).flatMap fun i =>
      kimiScale (slice (i * 2) 2 scalesRaw)) ++ packed) (k / KIMI_GROUP) =
        f32ToF16Bits (bf16ToF32 (slice (k / KIMI_GROUP * 2) 2 scalesRaw)) := by
    rw [← hgroup] at hblock
    rw [q4Scale, Lib.slice_append_left (by rw [htable]; omega),
      Lib.slice_flatMap hlength _ _ (by simpa using hblock), List.getElem_range, kimiScale,
      Lib.leNat_leBytes_of_lt (UInt16.toNat_lt _), UInt16.ofNat_toNat]
  have hnibble : q4Nibble (((List.range (rows * (cols / KIMI_GROUP))).flatMap fun i =>
      kimiScale (slice (i * 2) 2 scalesRaw)) ++ packed) (rows * (cols / KIMI_GROUP)) k =
        wordNibble (leU32 (slice (k / 8 * 4) 4 packed)) (k % 8) := by
    have hplace : 8 * (k / 8) + k % 8 = k := Nat.div_add_mod k 8
    have hin : rows * (cols / KIMI_GROUP) * 2 + 4 * (k / 8) + 4 ≤
        (((List.range (rows * (cols / KIMI_GROUP))).flatMap fun i =>
          kimiScale (slice (i * 2) 2 scalesRaw)) ++ packed).length := by
      rw [List.length_append, htable, hpacked]
      omega
    have hword := wordNibble_slice hin (Nat.mod_lt k (by decide))
    rw [hplace, Lib.slice_append_right (by rw [htable]; omega), htable, Nat.add_sub_cancel_left,
      Nat.mul_comm 4] at hword
    exact hword.symm
  rw [q4Value, hscale, hnibble, hgroup]
  rfl

end Region

/-! ### Blobs -/

/-- The bytes of an element, of the dtypes of a packed tensor and its scales. -/
def dtypeBytes (dtype : String) : Option Nat :=
  if dtype = "I32" then some 4 else if dtype = "BF16" then some 2 else none

/-- A tensor has as many bytes as its dtype and its shape say. -/
def TensorLoc.Sized (loc : TensorLoc) : Prop :=
  ∀ raw width, loc.raw = some raw → dtypeBytes loc.dtype = some width →
    raw.length = loc.shape.prod * width

/-- The dimensions that `build_kimi_blob` takes for a projection. -/
def sourceDims (ckpt : Checkpoint) (base : Option String) : Nat × Nat :=
  match base with
  | some base => match ckpt.tensors (base ++ "_packed") with
    | some loc => match kimiDims ckpt base loc with
      | some (.ok dims) => dims
      | _ => (0, 0)
    | none => (0, 0)
  | none => (0, 0)

/-- The bytes of a projection's region. -/
def regionSize (ckpt : Checkpoint) (names : Proj → Option String) (p : Proj) : Nat :=
  q4Bytes (sourceDims ckpt (names p)).1 (sourceDims ckpt (names p)).2 KIMI_GROUP

/-- The value of row `r` and column `c` in the checkpoint. -/
def checkpointValue {V : Type} (mul : Int → UInt32 → V) (ckpt : Checkpoint) (base : Option String)
    (cols r c : Nat) : V :=
  let i := r * cols + c
  let word := leU32 (slice (i / 8 * 4) 4 (sourceRaw ckpt base "_packed"))
  let scale := bf16ToF32
    (slice ((r * (cols / KIMI_GROUP) + c / KIMI_GROUP) * 2) 2 (sourceRaw ckpt base "_scale"))
  mul (wordNibble word (i % 8) - 8) (f16Round scale)

/-- The region of a projection, decoded by what the header says, is its tensor. -/
def Decodes {V : Type} [Inhabited V] (mul : Int → UInt32 → V) (ckpt : Checkpoint)
    (names : Proj → Option String) (blob : List UInt8) (p : Proj) : Prop :=
  ∃ out, q4Dequantize mul
      (slice (regionOff (regionSize ckpt names) p) (regionSize ckpt names p) blob)
      (headerDims blob p).1 (headerDims blob p).2 (headerGroup blob)
      (List.replicate ((headerDims blob p).1 * (headerDims blob p).2) default) = some (.ok out) ∧
    ∀ r < (headerDims blob p).1, ∀ c < (headerDims blob p).2,
      out[r * (headerDims blob p).2 + c]? =
        some (checkpointValue mul ckpt (names p) (headerDims blob p).2 r c)

/-- Whole groups, and dimensions that the header can hold. -/
def WholeGroups (rows cols : Nat) : Prop :=
  KIMI_GROUP ∣ cols ∧ (rows * cols = 0 ∨ rows < 2 ^ 32 ∧ cols < 2 ^ 32)

theorem dvd_cols_mod (cols : Nat) : KIMI_GROUP ∣ cols % 2 ^ 32 ↔ KIMI_GROUP ∣ cols :=
  Nat.dvd_mod_iff (by decide)

/-- Regions of as many bytes have as many groups. -/
theorem groups_of_q4Bytes {rows cols rows' cols' : Nat} (hcols : KIMI_GROUP ∣ cols)
    (hcols' : KIMI_GROUP ∣ cols')
    (h : q4Bytes rows cols KIMI_GROUP = q4Bytes rows' cols' KIMI_GROUP) :
    rows * (cols / KIMI_GROUP) = rows' * (cols' / KIMI_GROUP) := by
  rw [q4Bytes_groups rows rfl (Nat.div_mul_cancel hcols).symm,
    q4Bytes_groups rows' rfl (Nat.div_mul_cancel hcols').symm] at h
  rw [← Nat.mul_add, ← Nat.mul_add] at h
  exact Nat.eq_of_mul_eq_mul_right (show 0 < 2 + KIMI_GROUP / 2 by decide) h

/-- A region that `q4_dequantize` accepts with 32 bits of each dimension. -/
theorem wholeGroups_of_accepted {rows cols : Nat} (hcols' : KIMI_GROUP ∣ cols % 2 ^ 32)
    (hlength : q4Bytes rows cols KIMI_GROUP = q4Bytes (rows % 2 ^ 32) (cols % 2 ^ 32) KIMI_GROUP) :
    WholeGroups rows cols := by
  have hcols := (dvd_cols_mod cols).mp hcols'
  refine ⟨hcols, or_iff_not_imp_left.mpr fun hne => ?_⟩
  have hgroups := groups_of_q4Bytes hcols hcols' hlength
  have hrows0 : 0 < rows := Nat.pos_of_ne_zero fun h0 => hne (by rw [h0, Nat.zero_mul])
  have hcols0 : 0 < cols := Nat.pos_of_ne_zero fun h0 => hne (by rw [h0, Nat.mul_zero])
  have hg : 0 < cols / KIMI_GROUP := Nat.div_pos (Nat.le_of_dvd hcols0 hcols) (by decide)
  have hrowsLe := Nat.mod_le rows (2 ^ 32)
  have hgLe : cols % 2 ^ 32 / KIMI_GROUP ≤ cols / KIMI_GROUP := Nat.div_le_div_right (Nat.mod_le _ _)
  constructor
  · by_contra hbig
    have hlt : rows % 2 ^ 32 < rows := (Nat.mod_lt _ (by decide)).trans_le (not_lt.mp hbig)
    have hfewer : rows % 2 ^ 32 * (cols % 2 ^ 32 / KIMI_GROUP) < rows * (cols / KIMI_GROUP) :=
      Nat.mul_lt_mul_of_lt_of_le hlt hgLe hg
    omega
  · by_contra hbig
    have hlt : cols % 2 ^ 32 / KIMI_GROUP < cols / KIMI_GROUP :=
      Nat.div_lt_div_of_lt_of_dvd hcols ((Nat.mod_lt _ (by decide)).trans_le (not_lt.mp hbig))
    have hfewer : rows % 2 ^ 32 * (cols % 2 ^ 32 / KIMI_GROUP) < rows * (cols / KIMI_GROUP) :=
      Nat.mul_lt_mul_of_le_of_lt hrowsLe hlt hrows0
    omega

/-- The header's dimensions are the tensor's, or neither has values. -/
theorem WholeGroups.dims {rows cols : Nat} (h : WholeGroups rows cols) :
    (rows * cols = 0 ∧ rows % 2 ^ 32 * (cols % 2 ^ 32) = 0) ∨
      (rows % 2 ^ 32 = rows ∧ cols % 2 ^ 32 = cols) := by
  rcases h.2 with h0 | hlt
  · rcases Nat.mul_eq_zero.mp h0 with rfl | rfl <;> simp
  · exact .inr ⟨Nat.mod_eq_of_lt hlt.1, Nat.mod_eq_of_lt hlt.2⟩

theorem WholeGroups.length {rows cols : Nat} (h : WholeGroups rows cols) :
    q4Bytes rows cols KIMI_GROUP = q4Bytes (rows % 2 ^ 32) (cols % 2 ^ 32) KIMI_GROUP := by
  have hempty : ∀ {rows cols : Nat}, KIMI_GROUP ∣ cols → rows * cols = 0 →
      q4Bytes rows cols KIMI_GROUP = 0 := by
    intro rows cols hcols h0
    rcases Nat.mul_eq_zero.mp h0 with rfl | rfl <;> simp [q4Bytes]
  rcases h.dims with ⟨h0, h0'⟩ | ⟨hrows, hcols⟩
  · rw [hempty h.1 h0, hempty ((dvd_cols_mod cols).mpr h.1) h0']
  · rw [hrows, hcols]

/-- **A repacked blob decodes to the checkpoint's values if and only if its columns are
whole groups** and its header holds its dimensions. -/
theorem kimiBlob_decodes_iff {V : Type} [Inhabited V] (mul : Int → UInt32 → V) {ckpt : Checkpoint}
    {names : Proj → Option String} {layer expert : Nat} {blob : List UInt8}
    (hsized : ∀ p base part loc, names p = some base → part = "_packed" ∨ part = "_scale" →
      ckpt.tensors (base ++ part) = some loc → loc.Sized)
    (h : buildKimiBlob ckpt names layer expert = some (.ok blob)) (p : Proj) :
    Decodes mul ckpt names blob p ↔
      WholeGroups (sourceDims ckpt (names p)).1 (sourceDims ckpt (names p)).2 := by
  obtain ⟨res, hres, hmap⟩ := Option.map_eq_some_iff.mp h
  cases res with
  | error e => cases hmap
  | ok regions =>
      cases hmap
      obtain ⟨region, hregion, rfl⟩ := buildRegions_ok hres
      have hdims : ∀ p, sourceDims ckpt (names p) = ((region p).rows, (region p).cols) := by
        intro p
        obtain ⟨base, hname, ⟨src⟩⟩ := buildKimiRegion_ok (hregion p)
        simp [sourceDims, hname, src.packed_found, src.dims]
      have hsize : ∀ p, regionSize ckpt names p = (region p).bytes.length := by
        intro p
        obtain ⟨base, -, ⟨src⟩⟩ := buildKimiRegion_ok (hregion p)
        rw [regionSize, hdims, length_repack src.bytes]
      have hoff : regionSize ckpt names = fun p => (region p).bytes.length := funext hsize
      obtain ⟨base, hname, ⟨src⟩⟩ := buildKimiRegion_ok (hregion p)
      have hlength := length_repack src.bytes
      unfold Decodes
      rw [hoff, slice_assembleBlob, headerDims_assembleBlob, headerGroup_assembleBlob (by decide),
        hdims]
      constructor
      · intro hdecodes
        obtain ⟨out, hout, -⟩ := hdecodes
        unfold q4Dequantize at hout
        split at hout
        · cases hout
        · next haccepted =>
          simp only [not_or, not_not] at haccepted
          exact wholeGroups_of_accepted (Nat.dvd_of_mod_eq_zero haccepted.2.1)
            (hlength.symm.trans haccepted.2.2.1)
      · intro hwhole
        have hpacked : src.packed.length = (region p).rows * ((region p).cols / 8) * 4 := by
          rw [hsized p base "_packed" _ hname (.inl rfl) src.packed_found _ 4 src.packed_raw
            (by rw [src.packed_dtype]; rfl), src.packed_shape]
          simp
        have hscales : src.scalesRaw.length =
            (region p).rows * ((region p).cols / KIMI_GROUP) * 2 := by
          rw [hsized p base "_scale" _ hname (.inr rfl) src.scale_found _ 2 src.scale_raw
            (by rw [src.scale_dtype]; rfl), src.scale_shape]
          simp
        refine ⟨_, q4Dequantize_ok mul (by decide) rfl ((dvd_cols_mod _).mpr hwhole.1)
          (hlength.trans hwhole.length) (by simp), ?_⟩
        intro r hr c hc
        rcases hwhole.dims with ⟨-, h0⟩ | ⟨hrows, hcols⟩
        · -- a tensor without values
          have hcell : r * _ + c < (region p).rows % 2 ^ 32 * ((region p).cols % 2 ^ 32) :=
            Lib.block_lt hr hc
          exact absurd (hcell.trans_eq h0) (Nat.not_lt_zero _)
        · rw [hrows] at hr
          rw [hcols] at hc
          have hraw : sourceRaw ckpt (names p) "_packed" = src.packed ∧
              sourceRaw ckpt (names p) "_scale" = src.scalesRaw := by
            simp [sourceRaw, hname, src.packed_found, src.packed_raw, src.scale_found, src.scale_raw]
          simp only [hrows, hcols]
          rw [List.getElem?_map, List.getElem?_range (Lib.block_lt hr hc), Option.map_some,
            repacked_value mul hwhole.1 hpacked hscales src.bytes hr hc]
          simp only [checkpointValue, hraw]

/-! ### Small experts -/

/-- A checkpoint with one packed tensor: its bytes, and those of its scales. -/
def packedCkpt (packed scale : Nat → UInt8) (rows cols : Nat) : Checkpoint where
  tensors name :=
    if name = "w_packed" then
      some ⟨"I32", [rows, cols / 8], some ((List.range (rows * (cols / 8) * 4)).map packed)⟩
    else if name = "w_scale" then
      some ⟨"BF16", [rows, cols / 32], some ((List.range (rows * (cols / 32) * 2)).map scale)⟩
    else none

theorem packedCkpt_sized (packed scale : Nat → UInt8) (rows cols : Nat) (p : Proj)
    (base part : String) (loc : TensorLoc)
    (_ : (fun _ : Proj => some "w") p = some base) (_ : part = "_packed" ∨ part = "_scale")
    (h : (packedCkpt packed scale rows cols).tensors (base ++ part) = some loc) : loc.Sized := by
  unfold packedCkpt at h
  intro raw width hraw hwidth
  dsimp only at h
  split at h
  · cases h
    cases hraw
    cases hwidth
    simp
  · split at h
    · cases h
      cases hraw
      cases hwidth
      simp
    · cases h

/-- Nibbles from 1 up, under a scale of one and a half. -/
def rampCkpt32 : Checkpoint :=
  packedCkpt (fun i => UInt8.ofNat (0x21 + 17 * i)) (fun i => if i % 2 = 0 then 0xC0 else 0x3F) 2 64

theorem kimiBlob_decodes_ramp :
    ∃ blob, buildKimiBlob rampCkpt32 (fun _ => some "w") 0 0 = some (.ok blob) ∧
      Decodes exactScale rampCkpt32 (fun _ => some "w") blob .down := by
  obtain ⟨blob, hblob⟩ : ∃ blob, buildKimiBlob rampCkpt32 (fun _ => some "w") 0 0 =
      some (.ok blob) := ⟨_, rfl⟩
  refine ⟨blob, hblob, (kimiBlob_decodes_iff exactScale (packedCkpt_sized _ _ 2 64) hblob
    .down).mpr ?_⟩
  exact ⟨by decide, .inr ⟨by decide, by decide⟩⟩

/-- A row of 40 columns, of which one group is whole: `build_kimi_blob` repacks it, and
`q4_dequantize` refuses what it made. -/
theorem kimiBlob_part_group :
    (∀ p base part loc, (fun _ : Proj => some "w") p = some base →
      part = "_packed" ∨ part = "_scale" →
        (packedCkpt (fun _ => 0) (fun _ => 0) 1 40).tensors (base ++ part) = some loc → loc.Sized) ∧
      ∃ blob, buildKimiBlob (packedCkpt (fun _ => 0) (fun _ => 0) 1 40) (fun _ => some "w") 0 0 =
          some (.ok blob) ∧
        ∀ p, ¬ Decodes exactScale (packedCkpt (fun _ => 0) (fun _ => 0) 1 40) (fun _ => some "w")
          blob p := by
  refine ⟨packedCkpt_sized _ _ 1 40, (List.replicate 3 [1, 0, 0, 0, 40, 0, 0, 0]).flatten ++
    [32, 0, 0, 0, 0, 0, 0, 0] ++ List.replicate 66 0, rfl, fun p hdecodes => ?_⟩
  obtain ⟨out, hout, -⟩ := hdecodes
  have hcols : ∀ p, (headerDims ((List.replicate 3 [1, 0, 0, 0, 40, 0, 0, 0]).flatten ++
      [32, 0, 0, 0, 0, 0, 0, 0] ++ List.replicate 66 0) p).2 % headerGroup
        ((List.replicate 3 [1, 0, 0, 0, 40, 0, 0, 0]).flatten ++ [32, 0, 0, 0, 0, 0, 0, 0] ++
          List.replicate 66 0) ≠ 0 := by
    intro p
    cases p <;> decide
  cases (if_pos (.inr (.inl (hcols p)))).symm.trans hout

end LlmPager
