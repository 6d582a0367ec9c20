import LlmPager.Run.ExpertGemv

/-!
# LlmPager.Run.BlobLayout

The layout of an expert's blob is computed three times: by the converter from
the tensors' shapes, by the decoder from the model's config, and by the kernel
from its arguments. The header that carries the dimensions is never read.

A region is two tables of groups, the scales and the nibbles (`IsQ4`), whichever
of the two builders wrote it; the decoder's offsets are where the regions begin,
and what the kernel reads for a group is that group's cell (`Agrees`). This needs
the dimensions to be `int`s (`blob_layout`); `gemv_truncates` is one that is not.
-/

namespace LlmPager

open Lib (leBytes slice poke pokeAll table asI32 sizeT asI32_of_lt sizeT_of_lt)

/-! ### Regions -/

/-- What a builder wrote for a group, and where in the region. -/
structure Written where
  scaleAt : Nat
  scale : List UInt8
  nibblesAt : Nat
  nibbles : List UInt8

/-- The region of a tensor: the table of its scales, then the table of its
nibbles. -/
structure IsQ4 (group rows cols : Nat) (bytes : List UInt8) (written : Nat → Nat → Written) :
    Prop where
  bytes_eq : bytes = (table rows (cols / group) fun r g => (written r g).scale) ++
    table rows (cols / group) fun r g => (written r g).nibbles
  scale_length : ∀ r g, (written r g).scale.length = 2
  nibbles_length : ∀ r g, (written r g).nibbles.length = group / 2
  scaleAt : ∀ r g, (written r g).scaleAt = (r * (cols / group) + g) * 2
  nibblesAt : ∀ r g, (written r g).nibblesAt =
    rows * (cols / group) * 2 + (r * (cols / group) + g) * (group / 2)

theorem mul_div_two {group : Nat} (heven : group % 2 = 0) (g : Nat) :
    g * group / 2 = g * (group / 2) :=
  Nat.mul_div_assoc g (Nat.dvd_of_mod_eq_zero heven)

theorem row_div_two {cols group : Nat} (heven : group % 2 = 0) (hcols : cols = cols / group * group)
    (r : Nat) : r * cols / 2 = r * (cols / group * (group / 2)) := by
  have hassoc : r * cols = r * (cols / group) * group := by rw [Nat.mul_assoc, ← hcols]
  rw [hassoc, mul_div_two heven, Nat.mul_assoc]

theorem q4Bytes_groups (rows : Nat) {cols group : Nat} (heven : group % 2 = 0)
    (hcols : cols = cols / group * group) : q4Bytes rows cols group =
      rows * (cols / group) * 2 + rows * (cols / group) * (group / 2) := by
  unfold q4Bytes
  rw [row_div_two heven hcols, Nat.mul_assoc rows (cols / group) (group / 2)]

namespace IsQ4

variable {group rows cols : Nat} {bytes : List UInt8} {written : Nat → Nat → Written}

theorem length_scales (h : IsQ4 group rows cols bytes written) :
    (table rows (cols / group) fun r g => (written r g).scale).length =
      rows * (cols / group) * 2 := Lib.length_table h.scale_length

theorem length_bytes (h : IsQ4 group rows cols bytes written) :
    bytes.length = rows * (cols / group) * 2 + rows * (cols / group) * (group / 2) := by
  rw [h.bytes_eq, List.length_append, h.length_scales, Lib.length_table h.nibbles_length]

/-- The group's scale is where it was written. -/
theorem slice_scale (h : IsQ4 group rows cols bytes written) {r g : Nat} (hr : r < rows)
    (hg : g < cols / group) : slice (written r g).scaleAt 2 bytes = (written r g).scale := by
  have hin : (r * (cols / group) + g) * 2 + 2 ≤ rows * (cols / group) * 2 := by
    have := Lib.block_lt hr hg
    omega
  rw [h.scaleAt, h.bytes_eq, Lib.slice_append_left (by rw [h.length_scales]; exact hin),
    Lib.slice_table h.scale_length hr hg]

theorem slice_nibbles (h : IsQ4 group rows cols bytes written) {r g : Nat} (hr : r < rows)
    (hg : g < cols / group) :
    slice (written r g).nibblesAt (group / 2) bytes = (written r g).nibbles := by
  rw [h.nibblesAt, h.bytes_eq, Lib.slice_append_right (by rw [h.length_scales]; omega),
    h.length_scales, Nat.add_sub_cancel_left, Lib.slice_table h.nibbles_length hr hg]

end IsQ4

/-! ### The quantiser -/

/-- What `q4_quantize` writes for a group. -/
def quantWritten (ops : FloatOps) (src : List UInt32) (rows cols group r g : Nat) : Written where
  scaleAt := (r * (cols / group) + g) * 2
  scale := scaleBytes ops (groupVals src cols group r g)
  nibblesAt := rows * (cols / group) * 2 + (r * cols / 2 + g * group / 2)
  nibbles := (List.range (group / 2)).map (nibbleByte ops (groupVals src cols group r g))

theorem length_scaleBytes (ops : FloatOps) (vals : List UInt32) :
    (scaleBytes ops vals).length = 2 := Lib.length_leBytes 2 _

theorem quantizeScaleWrites_eq (ops : FloatOps) (src : List UInt32) (rows cols group : Nat) :
    quantizeScaleWrites ops src rows cols group =
      (List.range (rows * (cols / group))).map fun k =>
        (k * 2, scaleBytes ops (groupVals src cols group (k / (cols / group)) (k % (cols / group)))) := by
  unfold quantizeScaleWrites
  rw [Lib.flatMap_map_range]
  refine List.map_congr_left fun k _ => ?_
  have hk := Nat.div_add_mod' k (cols / group)
  simp only [hk]

theorem quantizeDataWrites_eq (ops : FloatOps) (src : List UInt32) {rows cols group : Nat}
    (heven : group % 2 = 0) (hcols : cols = cols / group * group) :
    quantizeDataWrites ops src rows cols group =
      (List.range (rows * (cols / group * (group / 2)))).map fun k =>
        (k * 1, [nibbleByte ops (groupVals src cols group (k / (cols / group * (group / 2)))
          (k % (cols / group * (group / 2)) / (group / 2)))
          (k % (cols / group * (group / 2)) % (group / 2))]) := by
  unfold quantizeDataWrites
  simp only [Lib.flatMap_map_range]
  refine List.map_congr_left fun k _ => ?_
  -- the number of the byte from its row, its group and its place there
  have hk := Nat.div_add_mod' k (cols / group * (group / 2))
  have hk' := Nat.div_add_mod' (k % (cols / group * (group / 2))) (group / 2)
  have haddr : k / (cols / group * (group / 2)) * cols / 2 +
      k % (cols / group * (group / 2)) / (group / 2) * group / 2 +
        k % (cols / group * (group / 2)) % (group / 2) = k * 1 := by
    rw [row_div_two heven hcols, mul_div_two heven, Nat.add_assoc, hk', hk, Nat.mul_one]
  rw [haddr]

/-- Quantising values that are there fills the buffer. -/
theorem q4Quantize_ok (ops : FloatOps) {src : List UInt32} {rows cols group : Nat}
    (hgroup : ¬(group = 0 ∨ group % 8 ≠ 0 ∨ cols % group ≠ 0)) (hsrc : src.length = rows * cols) :
    q4Quantize ops src rows cols group (List.replicate (q4Bytes rows cols group) 0) =
      some (.ok ((table rows (cols / group) fun r g => (quantWritten ops src rows cols group r g).scale) ++
        table rows (cols / group) fun r g => (quantWritten ops src rows cols group r g).nibbles)) := by
  have hguard := hgroup
  simp only [not_or, not_not] at hgroup
  obtain ⟨-, height, hcols⟩ := hgroup
  have heven : group % 2 = 0 := by omega
  have hdiv : cols = cols / group * group := (Nat.div_mul_cancel (Nat.dvd_of_mod_eq_zero hcols)).symm
  have hbytes := q4Bytes_groups rows heven hdiv
  have hlen : rows * (cols / group) * 2 ≤ q4Bytes rows cols group := by omega
  have hscales : pokeAll ((List.replicate (q4Bytes rows cols group) (0 : UInt8)).take
      (rows * (cols / group) * 2)) (quantizeScaleWrites ops src rows cols group) =
        some (table rows (cols / group) fun r g => (quantWritten ops src rows cols group r g).scale) := by
    rw [quantizeScaleWrites_eq, Lib.table_eq_range]
    refine Lib.pokeAll_range_full (fun _ => length_scaleBytes ops _) ?_
    rw [List.take_replicate, List.length_replicate, Nat.min_eq_left hlen]
  have hdata : pokeAll ((List.replicate (q4Bytes rows cols group) (0 : UInt8)).drop
      (rows * (cols / group) * 2)) (quantizeDataWrites ops src rows cols group) =
        some (table rows (cols / group) fun r g =>
          (quantWritten ops src rows cols group r g).nibbles) := by
    rw [quantizeDataWrites_eq ops src heven hdiv, Lib.pokeAll_range_full (w := 1) (fun _ => rfl)
      (by rw [List.drop_replicate, List.length_replicate, hbytes, ← Nat.mul_assoc]; omega)]
    have hcells := Lib.table_table rows (cols / group) (group / 2) fun r g i =>
      [nibbleByte ops (groupVals src cols group r g) i]
    rw [Lib.table_eq_range] at hcells
    rw [hcells]
    simp only [quantWritten, List.map_eq_flatMap]
  unfold q4Quantize
  rw [if_neg hguard, if_neg (not_not.mpr hsrc), if_neg (by simp)]
  simp only [hscales, hdata]
  rfl

/-- What was quantised is a region, each group where the loop put it. -/
theorem q4Quantize_isQ4 {ops : FloatOps} {src : List UInt32} {rows cols group : Nat}
    {buf : List UInt8} (h : q4Quantize ops src rows cols group
      (List.replicate (q4Bytes rows cols group) 0) = some (.ok buf)) :
    IsQ4 group rows cols buf (quantWritten ops src rows cols group) := by
  by_cases hgroup : group = 0 ∨ group % 8 ≠ 0 ∨ cols % group ≠ 0
  · unfold q4Quantize at h
    rw [if_pos hgroup] at h
    cases h
  by_cases hsrc : src.length ≠ rows * cols
  · unfold q4Quantize at h
    rw [if_neg hgroup, if_pos hsrc] at h
    cases h
  rw [q4Quantize_ok ops hgroup (not_not.mp hsrc)] at h
  cases h
  simp only [not_or, not_not] at hgroup
  obtain ⟨-, height, hcols⟩ := hgroup
  have heven : group % 2 = 0 := by omega
  have hdiv : cols = cols / group * group := (Nat.div_mul_cancel (Nat.dvd_of_mod_eq_zero hcols)).symm
  exact {
    bytes_eq := rfl
    scale_length := fun r g => length_scaleBytes ops _
    nibbles_length := fun r g => by simp [quantWritten]
    scaleAt := fun r g => rfl
    nibblesAt := fun r g => by
      show rows * (cols / group) * 2 + (r * cols / 2 + g * group / 2) = _
      rw [mul_div_two heven, row_div_two heven hdiv, Nat.add_mul]
      ring }

/-! ### The repacker -/

/-- Word `w` of the packed tensor: what `repack` copies, or the buffer's zeros
behind the end of a tensor that is too short. -/
def packedWord (packed : List UInt8) (w : Nat) : List UInt8 :=
  if w < packed.length / 4 then slice (w * 4) 4 packed else List.replicate 4 0

/-- Scale `i` of the scale tensor, likewise. -/
def packedScale (scalesRaw : List UInt8) (i : Nat) : List UInt8 :=
  if i < scalesRaw.length / 2 then kimiScale (slice (i * 2) 2 scalesRaw) else List.replicate 2 0

/-- What `build_kimi_blob` writes for a group: four words of the row. -/
def kimiWritten (scalesRaw packed : List UInt8) (rows cols r g : Nat) : Written where
  scaleAt := (r * (cols / KIMI_GROUP) + g) * 2
  scale := packedScale scalesRaw (r * (cols / KIMI_GROUP) + g)
  nibblesAt := rows * (cols / KIMI_GROUP) * 2 + (r * (cols / 8) + g * 4) * 4
  nibbles := (List.range 4).flatMap fun j => packedWord packed (r * (cols / 8) + g * 4 + j)

theorem length_packedScale (scalesRaw : List UInt8) (i : Nat) :
    (packedScale scalesRaw i).length = 2 := by
  unfold packedScale
  split
  · exact Lib.length_leBytes 2 _
  · simp

theorem length_packedWord (packed : List UInt8) (w : Nat) : (packedWord packed w).length = 4 := by
  unfold packedWord
  split
  · exact Lib.length_slice (by omega)
  · simp

/-- What was repacked is a region, each group where its words were copied. -/
theorem repack_isQ4 {scalesRaw packed buf : List UInt8} {rows cols : Nat}
    (hcols : cols % KIMI_GROUP = 0) (h : repack scalesRaw packed rows cols = some buf) :
    IsQ4 KIMI_GROUP rows cols buf (kimiWritten scalesRaw packed rows cols) := by
  have hdiv : cols = cols / KIMI_GROUP * KIMI_GROUP :=
    (Nat.div_mul_cancel (Nat.dvd_of_mod_eq_zero hcols)).symm
  have hwords : cols / 8 = cols / KIMI_GROUP * 4 := by
    unfold KIMI_GROUP at *
    omega
  have hbytes : q4Bytes rows cols KIMI_GROUP =
      rows * (cols / KIMI_GROUP) * 2 + rows * (cols / 8) * 4 := by
    rw [q4Bytes_groups rows rfl hdiv, hwords, ← Nat.mul_assoc rows, Nat.mul_assoc _ 4 4]
    rfl
  unfold repack at h
  obtain ⟨sdst, hsdst, h⟩ := Option.bind_eq_some_iff.mp h
  obtain ⟨ddst, hddst, h⟩ := Option.bind_eq_some_iff.mp h
  cases h
  have hscales : sdst = table rows (cols / KIMI_GROUP) fun r g =>
      (kimiWritten scalesRaw packed rows cols r g).scale := by
    have hcopied : ∀ i ∈ List.range (scalesRaw.length / 2),
        (i * 2, kimiScale (slice (i * 2) 2 scalesRaw)) = (i * 2, packedScale scalesRaw i) :=
      fun i hi => by rw [packedScale, if_pos (List.mem_range.mp hi)]
    rw [List.take_replicate, Nat.min_eq_left (by omega), List.map_congr_left hcopied] at hsdst
    rw [Lib.pokeAll_range_padded (by omega) (length_packedScale scalesRaw) hsdst]
    simp only [kimiWritten, Lib.table_of_range]
    refine List.flatMap_congr fun i _ => ?_
    by_cases hi : i < scalesRaw.length / 2
    · rw [if_pos hi]
    · rw [if_neg hi, packedScale, if_neg hi]
  have hdata : ddst = table rows (cols / KIMI_GROUP) fun r g =>
      (kimiWritten scalesRaw packed rows cols r g).nibbles := by
    have hcopied : ∀ w ∈ List.range (packed.length / 4),
        (w * 4, slice (w * 4) 4 packed) = (w * 4, packedWord packed w) :=
      fun w hw => by rw [packedWord, if_pos (List.mem_range.mp hw)]
    rw [List.drop_replicate, hbytes, Nat.add_sub_cancel_left, List.map_congr_left hcopied] at hddst
    rw [Lib.pokeAll_range_padded (by omega) (length_packedWord packed) hddst]
    have hwordwise : ∀ w ∈ List.range (rows * (cols / 8)),
        (if w < packed.length / 4 then packedWord packed w else List.replicate 4 0) =
          packedWord packed w := by
      intro w _
      by_cases hw : w < packed.length / 4
      · rw [if_pos hw]
      · rw [if_neg hw, packedWord, if_neg hw]
    -- four words a group
    have hcells := Lib.table_table rows (cols / KIMI_GROUP) 4 fun r g j =>
      packedWord packed (r * (cols / 8) + g * 4 + j)
    simp only [Nat.add_assoc, Nat.div_add_mod', ← hwords, Lib.table_of_range] at hcells
    rw [List.flatMap_congr hwordwise, hcells]
    simp only [kimiWritten, Nat.add_assoc]
  exact {
    bytes_eq := by rw [hscales, hdata]
    scale_length := fun r g => length_packedScale _ _
    nibbles_length := fun r g => by
      show ((List.range 4).flatMap fun j => packedWord packed _).length = KIMI_GROUP / 2
      rw [Lib.length_flatMap_of_const fun j => length_packedWord packed _]
      rfl
    scaleAt := fun r g => rfl
    nibblesAt := fun r g => by
      show rows * (cols / KIMI_GROUP) * 2 + (r * (cols / 8) + g * 4) * 4 =
        rows * (cols / KIMI_GROUP) * 2 + (r * (cols / KIMI_GROUP) + g) * 16
      rw [hwords]
      ring }

/-! ### The kernel -/

/-- What the kernel reads of a region of `rows` rows of `groups` groups at `off`. -/
structure Reads (a : GemvArgs) (off size rows groups : Nat) (blob : List UInt8)
    (written : Nat → Nat → Written) : Prop where
  /-- Each group of each row is read. -/
  visits : ∀ row g : Nat, a.Visits row g ↔ row < rows ∧ g < groups
  /-- Where it was written. -/
  scaleAddr : ∀ row < rows, ∀ g < groups, a.scaleAddr row g = off + (written row g).scaleAt
  wordAddr : ∀ row < rows, ∀ g < groups, ∀ i : Nat, i < a.words →
    a.wordAddr row g i = off + (written row g).nibblesAt + 4 * i
  /-- The group's own bytes. -/
  scale : ∀ row < rows, ∀ g < groups, slice (a.scaleAddr row g) 2 blob = (written row g).scale
  nibbles : ∀ row < rows, ∀ g < groups,
    ((List.range a.words.toNat).flatMap fun i : Nat => slice (a.wordAddr row g i) 4 blob) =
      (written row g).nibbles
  /-- Inside the region. -/
  scale_inside : ∀ row < rows, ∀ g < groups,
    off ≤ a.scaleAddr row g ∧ a.scaleAddr row g + 2 ≤ off + size
  word_inside : ∀ row < rows, ∀ g < groups, ∀ i : Nat, i < a.words →
    off ≤ a.wordAddr row g i ∧ a.wordAddr row g i + 4 ≤ off + size

section

variable {group rows cols off : Nat} {bytes blob : List UInt8} {written : Nat → Nat → Written}

/-- The kernel's arguments for a tensor whose dimensions are `int`s. -/
theorem gemv_eq (off : Nat) (hrows : rows < 2 ^ 31) (hcols : cols < 2 ^ 31) :
    (⟨off, asI32 rows, asI32 cols, group⟩ : GemvArgs) = ⟨off, rows, cols, group⟩ := by
  rw [asI32_of_lt hrows, asI32_of_lt hcols]

theorem gemv_groups : GemvArgs.groups ⟨off, rows, cols, group⟩ = (cols / group : Nat) := by
  show Int.tdiv cols group = _
  rw [Int.tdiv_eq_ediv_of_nonneg (Int.natCast_nonneg cols)]
  rfl

theorem gemv_words : GemvArgs.words ⟨off, rows, cols, group⟩ = (group / 8 : Nat) := rfl

/-- Without a wrap the addresses are those of the region's layout. -/
theorem scaleAddr_eq {row g : Nat} (h : off + (row * (cols / group) + g) * 2 < 2 ^ 64) :
    GemvArgs.scaleAddr ⟨off, rows, cols, group⟩ row g = off + (row * (cols / group) + g) * 2 := by
  have hcast : (off : Int) + (row * (cols / group : Nat) + g) * 2 =
      (off + (row * (cols / group) + g) * 2 : Nat) := by
    push_cast
    ring
  unfold GemvArgs.scaleAddr
  rw [gemv_groups]
  exact (congrArg sizeT hcast).trans (sizeT_of_lt h)

theorem wordAddr_eq (heven : group % 2 = 0) (hcols : cols = cols / group * group) {row g i : Nat}
    (h : off + (rows * (cols / group) * 2 + (row * (cols / group) + g) * (group / 2)) + 4 * i <
      2 ^ 64) :
    GemvArgs.wordAddr ⟨off, rows, cols, group⟩ row g i =
      off + (rows * (cols / group) * 2 + (row * (cols / group) + g) * (group / 2)) + 4 * i := by
  have hhalf : cols / 2 = cols / group * (group / 2) := by
    have := row_div_two heven hcols 1
    rwa [Nat.one_mul, Nat.one_mul] at this
  have hcast : (off : Int) + rows * (cols / group : Nat) * 2 + row * ((cols / 2 : Nat) : Int) +
      g * ((group / 2 : Nat) : Int) + 4 * i =
        (off + (rows * (cols / group) * 2 + (row * (cols / group) + g) * (group / 2)) + 4 * i :
          Nat) := by
    rw [hhalf]
    push_cast
    ring
  unfold GemvArgs.wordAddr
  rw [gemv_groups]
  exact (congrArg sizeT hcast).trans (sizeT_of_lt h)

theorem region_reads (h : IsQ4 group rows cols bytes written)
    (height : group % 8 = 0) (hcols : cols = cols / group * group)
    (hrows : rows < 2 ^ 31) (hcols' : cols < 2 ^ 31) (hblob : blob.length < 2 ^ 64)
    (hend : off + bytes.length ≤ blob.length) (hat : slice off bytes.length blob = bytes) :
    Reads ⟨off, asI32 rows, asI32 cols, group⟩ off bytes.length rows (cols / group) blob written := by
  rw [gemv_eq off hrows hcols']
  have hsize := h.length_bytes
  -- a group's bytes, in its region
  have hscale : ∀ {row g}, row < rows → g < cols / group →
      (written row g).scaleAt + 2 ≤ bytes.length := by
    intro row g hrow hg
    have := Lib.block_lt hrow hg
    rw [h.scaleAt]
    omega
  have hnibbles : ∀ {row g}, row < rows → g < cols / group →
      (written row g).nibblesAt + group / 2 ≤ bytes.length := by
    intro row g hrow hg
    have := Lib.mul_row_le (Lib.block_lt hrow hg) (group / 2)
    rw [h.nibblesAt]
    omega
  have hscaleAddr : ∀ row < rows, ∀ g < cols / group,
      GemvArgs.scaleAddr ⟨off, rows, cols, group⟩ row g = off + (written row g).scaleAt := by
    intro row hrow g hg
    have hin := hscale hrow hg
    rw [h.scaleAt] at hin ⊢
    exact scaleAddr_eq (by omega)
  have hwordAddr : ∀ row < rows, ∀ g < cols / group, ∀ i : Nat, i < group / 8 →
      GemvArgs.wordAddr ⟨off, rows, cols, group⟩ row g i =
        off + (written row g).nibblesAt + 4 * i := by
    intro row hrow g hg i hi
    have hin := hnibbles hrow hg
    rw [h.nibblesAt] at hin ⊢
    exact wordAddr_eq (by omega) hcols (by omega)
  have hwords : ∀ {i : Nat}, (i : Int) < GemvArgs.words ⟨off, rows, cols, group⟩ → i < group / 8 :=
    fun hi => by
      rw [gemv_words] at hi
      omega
  exact {
    visits := fun row g => by
      constructor
      · intro hv
        have hrow : (row : Int) < rows := hv.row_lt
        have hg := hv.g_lt
        rw [gemv_groups] at hg
        exact ⟨Int.ofNat_lt.mp hrow, Int.ofNat_lt.mp hg⟩
      · intro ⟨hrow, hg⟩
        refine ⟨Int.natCast_nonneg row, Int.ofNat_lt.mpr hrow, Int.natCast_nonneg g, ?_⟩
        rw [gemv_groups]
        exact Int.ofNat_lt.mpr hg
    scaleAddr := hscaleAddr
    wordAddr := fun row hrow g hg i hi => hwordAddr row hrow g hg i (hwords hi)
    scale := fun row hrow g hg => by
      rw [hscaleAddr row hrow g hg, ← Lib.slice_slice (hscale hrow hg), hat]
      exact h.slice_scale hrow hg
    nibbles := fun row hrow g hg => by
      have haddr : ∀ i ∈ List.range (group / 8),
          slice (GemvArgs.wordAddr ⟨off, rows, cols, group⟩ row g i) 4 blob =
            slice (off + (written row g).nibblesAt + i * 4) 4 blob := by
        intro i hi
        rw [hwordAddr row hrow g hg i (List.mem_range.mp hi), Nat.mul_comm 4 i]
      have hhalf : group / 8 * 4 = group / 2 := by omega
      show ((List.range (group / 8)).flatMap fun i : Nat => _) = _
      rw [List.flatMap_congr haddr, Lib.flatMap_slice, hhalf,
        ← Lib.slice_slice (hnibbles hrow hg), hat]
      exact h.slice_nibbles hrow hg
    scale_inside := fun row hrow g hg => by
      have := hscale hrow hg
      rw [hscaleAddr row hrow g hg]
      omega
    word_inside := fun row hrow g hg i hi => by
      have := hnibbles hrow hg
      have := hwords hi
      rw [hwordAddr row hrow g hg i (hwords hi)]
      omega }

end

/-! ### Blobs -/

theorem assembleBlob_eq (group : Nat) (gate up down : Region) :
    ∃ header : List UInt8, header.length = 32 ∧
      assembleBlob group [gate, up, down] = header ++ (gate.bytes ++ (up.bytes ++ down.bytes)) := by
  refine ⟨([gate, up, down].flatMap fun r => leBytes 4 r.rows ++ leBytes 4 r.cols) ++
    leBytes 4 group ++ leBytes 4 0, by simp, ?_⟩
  simp [assembleBlob]

/-- Where a projection's region begins. -/
def regionOff (size : Proj → Nat) : Proj → Nat
  | .gate => BLOB_HEADER_BYTES
  | .up => BLOB_HEADER_BYTES + size .gate
  | .down => BLOB_HEADER_BYTES + size .gate + size .up

theorem slice_assembleBlob (group : Nat) (region : Proj → Region) (p : Proj) :
    slice (regionOff (fun p => (region p).bytes.length) p) (region p).bytes.length
      (assembleBlob group [region .gate, region .up, region .down]) = (region p).bytes := by
  obtain ⟨header, hheader, hblob⟩ := assembleBlob_eq group (region .gate) (region .up) (region .down)
  have hoff : header.length ≤ regionOff (fun p => (region p).bytes.length) p := by
    rw [hheader]
    cases p <;> simp [regionOff, BLOB_HEADER_BYTES]
    omega
  rw [hblob, Lib.slice_append_right hoff, hheader]
  cases p with
  | gate => exact Lib.slice_front rfl
  | up =>
      show slice (32 + (region .gate).bytes.length - 32) _ _ = _
      rw [Nat.add_sub_cancel_left, Lib.slice_append_right le_rfl, Nat.sub_self]
      exact Lib.slice_front rfl
  | down =>
      show slice (32 + (region .gate).bytes.length + (region .up).bytes.length - 32) _ _ = _
      rw [Nat.add_assoc, Nat.add_sub_cancel_left, Lib.slice_append_right (Nat.le_add_right _ _),
        Nat.add_sub_cancel_left, Lib.slice_append_right le_rfl, Nat.sub_self]
      unfold slice
      simp

theorem buildRegions_ok {build : Proj → Option (Except BlobError Region)} {regions : List Region}
    (h : buildRegions build Proj.all = some (.ok regions)) :
    ∃ r : Proj → Region, (∀ p, build p = some (.ok (r p))) ∧
      regions = [r .gate, r .up, r .down] := by
  have hcons : ∀ {p ps regions}, buildRegions build (p :: ps) = some (.ok regions) →
      ∃ r rest, build p = some (.ok r) ∧ buildRegions build ps = some (.ok rest) ∧
        regions = r :: rest := by
    intro p ps regions h
    rw [buildRegions] at h
    split at h
    · cases h
    · cases h
    · next r hr =>
      obtain ⟨res, hres, hmap⟩ := Option.map_eq_some_iff.mp h
      cases res with
      | error e => cases hmap
      | ok rest =>
          cases hmap
          exact ⟨r, rest, hr, hres, rfl⟩
  obtain ⟨gate, afterGate, hgate, hups, rfl⟩ := hcons h
  obtain ⟨up, afterUp, hup, hdowns, rfl⟩ := hcons hups
  obtain ⟨down, afterDown, hdown, hnone, rfl⟩ := hcons hdowns
  cases hnone
  refine ⟨fun p => Proj.casesOn p gate up down, fun p => ?_, rfl⟩
  cases p <;> assumption

/-- The two builders: `build_blob` and `build_kimi_blob`. -/
inductive Builder
  | quantise (ops : FloatOps)
  | repack

namespace Builder

def group : Builder → Nat
  | quantise _ => GROUP
  | repack => KIMI_GROUP

/-- The dtype of the pack that it is for. -/
def dtype : Builder → String
  | quantise _ => "q4g64-gud"
  | repack => "q4g32-gud"

def region : Builder → Checkpoint → (Proj → Option String) → Nat → Nat → Proj →
    Option (Except BlobError Region)
  | quantise ops => buildRegion ops
  | repack => buildKimiRegion

def blob : Builder → Checkpoint → (Proj → Option String) → Nat → Nat →
    Option (Except BlobError (List UInt8))
  | quantise ops => buildBlob ops
  | repack => buildKimiBlob

theorem blob_eq (b : Builder) (ckpt : Checkpoint) (names : Proj → Option String)
    (layer expert : Nat) : b.blob ckpt names layer expert =
      (buildRegions (b.region ckpt names layer expert) Proj.all).map
        (Except.map (assembleBlob b.group)) := by
  cases b <;> rfl

end Builder

/-- The values of a projection's tensor. -/
def sourceVals (ckpt : Checkpoint) (name : Option String) : List UInt32 :=
  match name with
  | some name => match ckpt.readF32 name with
    | .ok (vals, _) => vals
    | .error _ => []
  | none => []

/-- The bytes of one of a projection's packed tensors. -/
def sourceRaw (ckpt : Checkpoint) (base : Option String) (part : String) : List UInt8 :=
  match base with
  | some base => match ckpt.tensors (base ++ part) with
    | some loc => loc.raw.getD []
    | none => []
  | none => []

/-- What the builder writes for the groups of a tensor. -/
def Builder.written (ckpt : Checkpoint) (name : Option String) (rows cols : Nat) :
    Builder → Nat → Nat → Written
  | quantise ops => quantWritten ops (sourceVals ckpt name) rows cols GROUP
  | repack => kimiWritten (sourceRaw ckpt name "_scale") (sourceRaw ckpt name "_packed") rows cols

theorem buildRegion_isQ4 {ops : FloatOps} {ckpt : Checkpoint} {names : Proj → Option String}
    {layer expert : Nat} {p : Proj} {r : Region}
    (h : buildRegion ops ckpt names layer expert p = some (.ok r)) :
    IsQ4 GROUP r.rows r.cols r.bytes
      (Builder.written ckpt (names p) r.rows r.cols (.quantise ops)) := by
  unfold buildRegion at h
  split at h
  · cases h
  · next name hname =>
    split at h
    · cases h
    · next vals rows cols hread =>
      split at h
      · cases h
      · split at h
        · cases h
        · cases h
        · next buf hbuf =>
          cases h
          have hvals : sourceVals ckpt (names p) = vals := by simp [sourceVals, hname, hread]
          show IsQ4 GROUP rows cols buf (quantWritten ops (sourceVals ckpt (names p)) rows cols GROUP)
          rw [hvals]
          exact q4Quantize_isQ4 hbuf
    · cases h

theorem buildRegion_of_readF32 {ops : FloatOps} {ckpt : Checkpoint} {names : Proj → Option String}
    {layer expert : Nat} {p : Proj} {name : String} {vals : List UInt32} {rows cols : Nat}
    (hname : names p = some name) (hread : ckpt.readF32 name = .ok (vals, [rows, cols]))
    (hcols : GROUP ∣ cols) (hvals : vals.length = rows * cols) :
    ∃ bytes, buildRegion ops ckpt names layer expert p = some (.ok ⟨rows, cols, bytes⟩) := by
  have hmod : cols % GROUP = 0 := Nat.mod_eq_zero_of_dvd hcols
  have hgroup : ¬(GROUP = 0 ∨ GROUP % 8 ≠ 0 ∨ cols % GROUP ≠ 0) := by
    rw [hmod]
    decide
  obtain ⟨buf, hbuf⟩ : ∃ buf, q4Quantize ops vals rows cols GROUP
      (List.replicate (q4Bytes rows cols GROUP) 0) = some (.ok buf) :=
    ⟨_, q4Quantize_ok ops hgroup hvals⟩
  refine ⟨buf, ?_⟩
  unfold buildRegion q4g64Bytes
  simp [hname, hread, hmod, hbuf]

theorem readRaw_ok {loc : TensorLoc} {raw : List UInt8} (h : Checkpoint.readRaw loc = .ok raw) :
    loc.raw = some raw := by
  unfold Checkpoint.readRaw at h
  split at h
  · next hraw =>
    cases h
    exact hraw
  · cases h

/-- The tensors that a projection was repacked from. -/
structure RepackedFrom (ckpt : Checkpoint) (base : String) (r : Region) where
  packedLoc : TensorLoc
  scaleLoc : TensorLoc
  packed : List UInt8
  scalesRaw : List UInt8
  packed_found : ckpt.tensors (base ++ "_packed") = some packedLoc
  scale_found : ckpt.tensors (base ++ "_scale") = some scaleLoc
  packed_dtype : packedLoc.dtype = "I32"
  scale_dtype : scaleLoc.dtype = "BF16"
  dims : kimiDims ckpt base packedLoc = some (.ok (r.rows, r.cols))
  packed_shape : packedLoc.shape = [r.rows, r.cols / 8]
  scale_shape : scaleLoc.shape = [r.rows, r.cols / KIMI_GROUP]
  packed_raw : packedLoc.raw = some packed
  scale_raw : scaleLoc.raw = some scalesRaw
  bytes : repack scalesRaw packed r.rows r.cols = some r.bytes

theorem buildKimiRegion_ok {ckpt : Checkpoint} {names : Proj → Option String} {layer expert : Nat}
    {p : Proj} {r : Region} (h : buildKimiRegion ckpt names layer expert p = some (.ok r)) :
    ∃ base, names p = some base ∧ Nonempty (RepackedFrom ckpt base r) := by
  unfold buildKimiRegion at h
  split at h
  · cases h
  · next base hname =>
    refine ⟨base, hname, ?_⟩
    split at h
    · cases h
    · next packedLoc hpacked =>
      split at h
      · cases h
      · next scaleLoc hscale =>
        split at h
        · cases h
        · next hdtypes =>
          rw [not_or, not_not, not_not] at hdtypes
          split at h
          · cases h
          · cases h
          · next rows cols hdims =>
            split at h
            · cases h
            · next hpackedShape =>
              split at h
              · cases h
              · next hscaleShape =>
                split at h
                · next packed scalesRaw hp hs =>
                  obtain ⟨buf, hbuf, hr⟩ := Option.map_eq_some_iff.mp h
                  cases hr
                  exact ⟨⟨packedLoc, scaleLoc, packed, scalesRaw, hpacked, hscale, hdtypes.1,
                    hdtypes.2, hdims, not_not.mp hpackedShape, not_not.mp hscaleShape,
                    readRaw_ok hp, readRaw_ok hs, hbuf⟩⟩
                · cases h
                · cases h

theorem buildKimiRegion_isQ4 {ckpt : Checkpoint} {names : Proj → Option String}
    {layer expert : Nat} {p : Proj} {r : Region} (hcols : r.cols % KIMI_GROUP = 0)
    (h : buildKimiRegion ckpt names layer expert p = some (.ok r)) :
    IsQ4 KIMI_GROUP r.rows r.cols r.bytes
      (Builder.written ckpt (names p) r.rows r.cols .repack) := by
  obtain ⟨base, hname, ⟨src⟩⟩ := buildKimiRegion_ok h
  have hpacked : sourceRaw ckpt (names p) "_packed" = src.packed := by
    simp [sourceRaw, hname, src.packed_found, src.packed_raw]
  have hscales : sourceRaw ckpt (names p) "_scale" = src.scalesRaw := by
    simp [sourceRaw, hname, src.scale_found, src.scale_raw]
  show IsQ4 KIMI_GROUP r.rows r.cols r.bytes (kimiWritten _ _ r.rows r.cols)
  rw [hpacked, hscales]
  exact repack_isQ4 hcols src.bytes

namespace Proj

/-- The shape of a projection: gate and up `[I, H]`, down `[H, I]`. -/
def rows (moeInter hidden : Nat) : Proj → Nat
  | gate => moeInter
  | up => moeInter
  | down => hidden

def cols (moeInter hidden : Nat) : Proj → Nat
  | gate => hidden
  | up => hidden
  | down => moeInter

end Proj

def Regions.off (r : Regions) : Proj → Nat
  | .gate => r.gateOff
  | .up => r.upOff
  | .down => r.downOff

/-- The decoder's regions are those of the blob, one behind the other up to its
end, and the kernel reads of each what the builder wrote. -/
structure Agrees (r : Regions) (moeInter hidden : Nat) (blob : List UInt8)
    (bytes : Proj → List UInt8) (written : Proj → Nat → Nat → Written) : Prop where
  starts : ∀ p, slice (r.off p) (bytes p).length blob = bytes p
  gate_end : r.gateOff + (bytes .gate).length = r.upOff
  up_end : r.upOff + (bytes .up).length = r.downOff
  down_end : r.downOff + (bytes .down).length = blob.length
  reads : ∀ p, Reads (r.gemv moeInter hidden p) (r.off p) (bytes p).length (p.rows moeInter hidden)
    (p.cols moeInter hidden / r.expertGroup) blob (written p)

/-- A projection and its transpose have as many groups. -/
theorem groups_comm {moeInter hidden group : Nat} (hI : group ∣ moeInter) (hH : group ∣ hidden) :
    hidden * (moeInter / group) = moeInter * (hidden / group) := by
  rw [← Nat.mul_div_assoc _ hI, ← Nat.mul_div_assoc _ hH, Nat.mul_comm]

theorem agrees {moeInter hidden group : Nat} {region : Proj → Region}
    {written : Proj → Nat → Nat → Written} (hgroup : group = 32 ∨ group = 64)
    (hI : group ∣ moeInter) (hH : group ∣ hidden) (hI' : moeInter < 2 ^ 31) (hH' : hidden < 2 ^ 31)
    (hq4 : ∀ p, IsQ4 group (p.rows moeInter hidden) (p.cols moeInter hidden) (region p).bytes
      (written p)) :
    Agrees (q4Regions moeInter hidden group) moeInter hidden
      (assembleBlob group [region .gate, region .up, region .down]) (fun p => (region p).bytes)
      written := by
  have height : group % 8 = 0 := by omega
  have hcols : ∀ p : Proj, p.cols moeInter hidden = p.cols moeInter hidden / group * group := by
    intro p
    cases p
    · exact (Nat.div_mul_cancel hH).symm
    · exact (Nat.div_mul_cancel hH).symm
    · exact (Nat.div_mul_cancel hI).symm
  have hgate : q4Bytes moeInter hidden group =
      moeInter * (hidden / group) * 2 + moeInter * (hidden / group) * (group / 2) :=
    q4Bytes_groups moeInter (by omega) (hcols .gate)
  -- all three regions have the size of the gate
  have hsize : ∀ p, (region p).bytes.length = q4Bytes moeInter hidden group := by
    intro p
    rw [(hq4 p).length_bytes, hgate]
    cases p
    · rfl
    · rfl
    · show hidden * (moeInter / group) * 2 + hidden * (moeInter / group) * (group / 2) = _
      rw [groups_comm hI hH]
  have hlength : (assembleBlob group [region .gate, region .up, region .down]).length =
      32 + 3 * q4Bytes moeInter hidden group := by
    obtain ⟨header, hheader, hblob⟩ :=
      assembleBlob_eq group (region .gate) (region .up) (region .down)
    rw [hblob, List.length_append, List.length_append, List.length_append, hheader, hsize, hsize,
      hsize]
    omega
  have hlt : 32 + 3 * q4Bytes moeInter hidden group < 2 ^ 64 := by
    have hprod : moeInter * (hidden / group) * group < 2 ^ 31 * 2 ^ 31 := by
      rw [Nat.mul_assoc, Nat.div_mul_cancel hH]
      exact Nat.mul_lt_mul'' hI' hH'
    rw [hgate]
    rcases hgroup with rfl | rfl <;> omega
  have hstarts : ∀ p, slice ((q4Regions moeInter hidden group).off p) (region p).bytes.length
      (assembleBlob group [region .gate, region .up, region .down]) = (region p).bytes := by
    intro p
    have hoff : (q4Regions moeInter hidden group).off p =
        regionOff (fun p => (region p).bytes.length) p := by
      cases p <;> simp [Regions.off, q4Regions, regionOff, BLOB_HEADER_BYTES, hsize]
      omega
    rw [hoff]
    exact slice_assembleBlob group region p
  exact {
    starts := hstarts
    gate_end := by
      show 32 + (region .gate).bytes.length = 32 + q4Bytes moeInter hidden group
      rw [hsize]
    up_end := by
      show 32 + q4Bytes moeInter hidden group + (region .up).bytes.length =
        32 + 2 * q4Bytes moeInter hidden group
      rw [hsize]
      omega
    down_end := by
      show 32 + 2 * q4Bytes moeInter hidden group + (region .down).bytes.length = _
      rw [hlength, hsize]
      omega
    reads := fun p => by
      have hend : (q4Regions moeInter hidden group).off p + (region p).bytes.length ≤
          32 + 3 * q4Bytes moeInter hidden group := by
        rw [hsize]
        cases p <;> simp [Regions.off, q4Regions] <;> omega
      have hread := region_reads (hq4 p) height
        (hcols p) (by cases p <;> assumption) (by cases p <;> assumption)
        (by rw [hlength]; exact hlt) (by rw [hlength]; exact hend) (hstarts p)
      cases p <;> exact hread }

/-- Whatever `build_blob` or `build_kimi_blob` emits for an expert of sizes that
are `int`s, either decoder and the kernel find every group where it was written. -/
theorem Builder.blob_layout (b : Builder) {ckpt : Checkpoint} {names : Proj → Option String}
    {layer expert moeInter hidden : Nat} {blob : List UInt8}
    (hI : b.group ∣ moeInter) (hH : b.group ∣ hidden) (hI' : moeInter < 2 ^ 31)
    (hH' : hidden < 2 ^ 31) (hblob : b.blob ckpt names layer expert = some (.ok blob))
    (hshape : ∀ p r, b.region ckpt names layer expert p = some (.ok r) →
      r.rows = p.rows moeInter hidden ∧ r.cols = p.cols moeInter hidden) :
    ∃ bytes : Proj → List UInt8, ∃ r : Regions,
      (∀ p, b.region ckpt names layer expert p =
        some (.ok ⟨p.rows moeInter hidden, p.cols moeInter hidden, bytes p⟩)) ∧
      Qwen.regions b.dtype moeInter hidden = .ok r ∧ Kimi.regions b.dtype moeInter hidden = .ok r ∧
      r.expertGroup = b.group ∧
      Agrees r moeInter hidden blob bytes fun p =>
        b.written ckpt (names p) (p.rows moeInter hidden) (p.cols moeInter hidden) := by
  rw [b.blob_eq] at hblob
  obtain ⟨res, hres, hmap⟩ := Option.map_eq_some_iff.mp hblob
  cases res with
  | error e => cases hmap
  | ok regions =>
      cases hmap
      obtain ⟨region, hregion, rfl⟩ := buildRegions_ok hres
      have hsizes := fun p => hshape p _ (hregion p)
      have hgroup : b.group = 32 ∨ b.group = 64 := by
        cases b with
        | quantise ops => exact .inr rfl
        | repack => exact .inl rfl
      have hq4 : ∀ p, IsQ4 b.group (p.rows moeInter hidden) (p.cols moeInter hidden)
          (region p).bytes (b.written ckpt (names p) (p.rows moeInter hidden)
            (p.cols moeInter hidden)) := by
        intro p
        rw [← (hsizes p).1, ← (hsizes p).2]
        cases b with
        | quantise ops => exact buildRegion_isQ4 (hregion p)
        | repack =>
            refine buildKimiRegion_isQ4 (Nat.mod_eq_zero_of_dvd ?_) (hregion p)
            rw [(hsizes p).2]
            cases p
            · exact hH
            · exact hH
            · exact hI
      refine ⟨fun p => (region p).bytes, q4Regions moeInter hidden b.group, fun p => ?_, ?_, ?_, rfl,
        agrees hgroup hI hH hI' hH' hq4⟩
      · rw [hregion p, ← (hsizes p).1, ← (hsizes p).2]
      · cases b <;> rfl
      · cases b <;> rfl

/-! ### An expert whose bytes count up -/

def rampTensor (rows cols : Nat) : TensorLoc :=
  ⟨"F32", [rows, cols], some ((List.range (rows * cols * 4)).map UInt8.ofNat)⟩

def rampCkpt (moeInter hidden : Nat) : Checkpoint where
  tensors name :=
    if name = "gate" then some (rampTensor moeInter hidden)
    else if name = "up" then some (rampTensor moeInter hidden)
    else if name = "down" then some (rampTensor hidden moeInter)
    else none

def rampNames : Proj → Option String
  | .gate => some "gate"
  | .up => some "up"
  | .down => some "down"

def zeroOps : FloatOps where
  scaleOf _ := 0
  quantizeOne _ _ := 8

/-- A scale of a half, and nibbles from 1 to 15. -/
def rampOps : FloatOps where
  scaleOf _ := 0x3F000000
  quantizeOne v _ := v.toNat % 15 + 1

theorem rampCkpt_region (ops : FloatOps) {moeInter hidden : Nat} (hI : 64 ∣ moeInter)
    (hH : 64 ∣ hidden) (p : Proj) :
    ∃ bytes, buildRegion ops (rampCkpt moeInter hidden) rampNames 0 0 p =
      some (.ok ⟨p.rows moeInter hidden, p.cols moeInter hidden, bytes⟩) := by
  have hread : ∀ name rows cols, (rampCkpt moeInter hidden).tensors name = some (rampTensor rows cols) →
      ∃ vals : List UInt32, vals.length = rows * cols ∧
        (rampCkpt moeInter hidden).readF32 name = .ok (vals, [rows, cols]) := by
    intro name rows cols hname
    refine ⟨(chunksExact 4 ((List.range (rows * cols * 4)).map UInt8.ofNat)).map leU32, ?_, ?_⟩
    · simp [chunksExact]
    · unfold Checkpoint.readF32
      rw [hname]
      rfl
  have hbuild : ∀ name rows cols, rampNames p = some name → 64 ∣ cols →
      (rampCkpt moeInter hidden).tensors name = some (rampTensor rows cols) →
      ∃ bytes, buildRegion ops (rampCkpt moeInter hidden) rampNames 0 0 p =
        some (.ok ⟨rows, cols, bytes⟩) := by
    intro name rows cols hname hcols htensor
    obtain ⟨vals, hvals, hread⟩ := hread name rows cols htensor
    exact buildRegion_of_readF32 hname hread hcols hvals
  cases p with
  | gate => exact hbuild "gate" moeInter hidden rfl hH rfl
  | up => exact hbuild "up" moeInter hidden rfl hH rfl
  | down => exact hbuild "down" hidden moeInter rfl hI rfl

theorem rampCkpt_blob (ops : FloatOps) {moeInter hidden : Nat} (hI : 64 ∣ moeInter)
    (hH : 64 ∣ hidden) :
    (∃ blob, buildBlob ops (rampCkpt moeInter hidden) rampNames 0 0 = some (.ok blob)) ∧
    ∀ p r, buildRegion ops (rampCkpt moeInter hidden) rampNames 0 0 p = some (.ok r) →
      r.rows = p.rows moeInter hidden ∧ r.cols = p.cols moeInter hidden := by
  constructor
  · obtain ⟨gate, hgate⟩ := rampCkpt_region ops hI hH .gate
    obtain ⟨up, hup⟩ := rampCkpt_region ops hI hH .up
    obtain ⟨down, hdown⟩ := rampCkpt_region ops hI hH .down
    unfold buildBlob Proj.all
    simp only [buildRegions, hgate, hup, hdown]
    exact ⟨_, rfl⟩
  · intro p r h
    obtain ⟨bytes, hbytes⟩ := rampCkpt_region ops hI hH p
    rw [hbytes] at h
    cases h
    exact ⟨rfl, rfl⟩

theorem blob_layout_ramp : ∃ blob : List UInt8, ∃ bytes : Proj → List UInt8, ∃ r : Regions,
    buildBlob rampOps (rampCkpt 64 128) rampNames 0 0 = some (.ok blob) ∧
    Qwen.regions "q4g64-gud" 64 128 = .ok r ∧
    Agrees r 64 128 blob bytes fun p => (Builder.quantise rampOps).written (rampCkpt 64 128)
      (rampNames p) (p.rows 64 128) (p.cols 64 128) := by
  obtain ⟨⟨blob, hblob⟩, hshape⟩ := rampCkpt_blob rampOps (show 64 ∣ 64 by decide)
    (show 64 ∣ 128 by decide)
  obtain ⟨bytes, r, -, hqwen, -, -, hagrees⟩ := (Builder.quantise rampOps).blob_layout
    (show GROUP ∣ 64 by decide) (show GROUP ∣ 128 by decide) (by decide) (by decide) hblob hshape
  exact ⟨blob, bytes, r, hblob, hqwen, hagrees⟩

/-- A hidden size beyond an `int`, of which the kernel sees 64: it takes a scale of
the first row for the first word of its nibbles. -/
theorem gemv_truncates : ∃ blob : List UInt8, ∃ r : Regions,
    buildBlob zeroOps (rampCkpt 64 (2 ^ 32 + 64)) rampNames 0 0 = some (.ok blob) ∧
    (∀ p region, buildRegion zeroOps (rampCkpt 64 (2 ^ 32 + 64)) rampNames 0 0 p =
      some (.ok region) →
        region.rows = p.rows 64 (2 ^ 32 + 64) ∧ region.cols = p.cols 64 (2 ^ 32 + 64)) ∧
    Qwen.regions "q4g64-gud" 64 (2 ^ 32 + 64) = .ok r ∧
    (r.gemv 64 (2 ^ 32 + 64) .gate).Visits 0 0 ∧
    (r.gemv 64 (2 ^ 32 + 64) .gate).wordAddr 0 0 0 ≠
      r.gateOff + ((Builder.quantise zeroOps).written (rampCkpt 64 (2 ^ 32 + 64)) (rampNames .gate)
        64 (2 ^ 32 + 64) 0 0).nibblesAt := by
  obtain ⟨⟨blob, hblob⟩, hshape⟩ := rampCkpt_blob zeroOps (show 64 ∣ 64 by decide)
    (show 64 ∣ 2 ^ 32 + 64 by decide)
  refine ⟨blob, q4Regions 64 (2 ^ 32 + 64) 64, hblob, hshape, rfl, ?_, ?_⟩
  · exact ⟨by decide, by decide, by decide, by decide⟩
  · show _ ≠ 32 + (64 * ((2 ^ 32 + 64) / 64) * 2 + (0 * (2 ^ 32 + 64) / 2 + 0 * 64 / 2))
    decide

end LlmPager
