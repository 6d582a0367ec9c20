import LlmPager.Run.GemvKernel
import LlmPager.Run.QuantRoundTrip

/-!
# LlmPager.Run.GemvSpec

What the q4 GEMVs compute: the reference dequantisation times the input, if their loads
are aligned, and nothing if they are not (`gemv_iff`).

The nibbles behind the scales are read as words of four bytes, and there are two bytes of
scales for each group: with an odd number of groups the words are not aligned, unless
the tensor itself starts two bytes off.
-/

namespace LlmPager

open Lib (Format binary16 binary32 leNat slice strided warpReduce store or_eq_add)

namespace Gemv

/-! ### Unpacking -/

theorem value_magic {n : Nat} (hn : n < 16) : binary16.value (25 * 2 ^ 10 + n) - 1032 = n - 8 := by
  have hpack : 25 * 2 ^ 10 + n = binary16.pack 0 25 n := by simp [Format.pack, binary16]
  rw [hpack, Format.value_pack (by decide) (hn.trans (by decide)), Format.magnitude,
    if_neg (by decide)]
  have hunit : (2 : ℚ) ^ ((25 : ℕ) - binary16.bias - binary16.fracBits : ℤ) = 1 := by
    show (2 : ℚ) ^ ((25 : ℕ) - 15 - 10 : ℤ) = 1
    norm_num
  rw [hunit]
  show (-1 : ℚ) ^ 0 * ((2 ^ 10 + n) * 1) - 1032 = n - 8
  ring

/-- Both halves of a word set on `0x6400`. -/
theorem toNat_magic (b : UInt32) {k : Nat} (hk : k < 4) : (magic b (UInt32.ofNat (4 * k))).toNat =
    (25 * 2 ^ 10 + wordNibble b (k + 4)) * 2 ^ 16 + (25 * 2 ^ 10 + wordNibble b k) := by
  have hset : ∀ v : Nat, (v % 16) ||| 0x6400 = 25 * 2 ^ 10 + v % 16 := by
    intro v
    have hor := or_eq_add (a := 25) (show v % 16 < 2 ^ 10 by omega)
    rw [Nat.or_comm]
    exact hor
  have hshift : (b >>> UInt32.ofNat (4 * k)).toNat = b.toNat / 16 ^ k := by
    have hamount : (UInt32.ofNat (4 * k)).toNat % 32 = 4 * k := by
      rw [UInt32.toNat_ofNat']
      omega
    rw [UInt32.toNat_shiftRight, hamount, Nat.shiftRight_eq_div_pow, Nat.pow_mul]
  have hsplit := Nat.div_add_mod' (b.toNat / 16 ^ k) (2 ^ 16)
  have hmask : ((b.toNat / 16 ^ k) &&& 0x000F000F) =
      (b.toNat / 16 ^ k / 2 ^ 16 % 16) * 2 ^ 16 + b.toNat / 16 ^ k % 2 ^ 16 % 16 := by
    have hand := Lib.and_split (a := b.toNat / 16 ^ k / 2 ^ 16) (b := b.toNat / 16 ^ k % 2 ^ 16)
      (c := 15) (d := 15) (n := 16) (Nat.mod_lt _ (by decide)) (by decide)
    rw [hsplit] at hand
    rw [← Nat.and_two_pow_sub_one_eq_mod _ 4, ← Nat.and_two_pow_sub_one_eq_mod _ 4]
    exact hand
  have hhigh : b.toNat / 16 ^ k / 2 ^ 16 = b.toNat / 16 ^ (k + 4) := by
    rw [Nat.div_div_eq_div_mul, Nat.pow_add]
    rfl
  have hlow : b.toNat / 16 ^ k % 2 ^ 16 % 16 = b.toNat / 16 ^ k % 16 :=
    Nat.mod_mod_of_dvd _ (by decide)
  have hor := Lib.or_split (a := wordNibble b (k + 4)) (b := wordNibble b k) (c := 0x6400)
    (d := 0x6400) (n := 16) (by unfold wordNibble; omega) (by decide)
  rw [magic, UInt32.toNat_or, UInt32.toNat_and, hshift]
  show (b.toNat / 16 ^ k &&& 0x000F000F) ||| (0x6400 * 2 ^ 16 + 0x6400) = _
  rw [hmask, hhigh, hlow]
  refine hor.trans ?_
  unfold wordNibble
  rw [hset, hset]

theorem unbias_magic (b : UInt32) {k : Nat} (hk : k < 4) :
    unbias (magic b (UInt32.ofNat (4 * k))) =
      ((wordNibble b k : ℚ) - 8, (wordNibble b (k + 4) : ℚ) - 8) := by
  have hlow : wordNibble b k < 16 := Nat.mod_lt _ (by decide)
  have hhigh : wordNibble b (k + 4) < 16 := Nat.mod_lt _ (by decide)
  have hbits := toNat_magic b hk
  have hmask : (magic b (UInt32.ofNat (4 * k)) &&& 0xFFFF).toNat = 25 * 2 ^ 10 + wordNibble b k := by
    rw [UInt32.toNat_and, hbits]
    show _ &&& (2 ^ 16 - 1) = _
    rw [Nat.and_two_pow_sub_one_eq_mod]
    omega
  have hshift : (magic b (UInt32.ofNat (4 * k)) >>> 16).toNat =
      25 * 2 ^ 10 + wordNibble b (k + 4) := by
    rw [UInt32.toNat_shiftRight, hbits]
    show _ >>> 16 = _
    rw [Nat.shiftRight_eq_div_pow]
    omega
  rw [unbias, hmask, hshift, value_magic hlow, value_magic hhigh]

/-- **A word's weights**: every nibble, less 8, with its own element. -/
theorem wordSum_eq (b : UInt32) (x : Nat → ℚ) (i : Nat) (sum : ℚ) :
    wordSum b ⟨x (4 * (2 * i)), x (4 * (2 * i) + 1), x (4 * (2 * i) + 2), x (4 * (2 * i) + 3)⟩
      ⟨x (4 * (2 * i + 1)), x (4 * (2 * i + 1) + 1), x (4 * (2 * i + 1) + 2),
        x (4 * (2 * i + 1) + 3)⟩ sum =
      sum + ((List.range 4).flatMap fun n =>
        [((wordNibble b n : ℚ) - 8) * x (4 * (2 * i) + n),
          ((wordNibble b (n + 4) : ℚ) - 8) * x (4 * (2 * i + 1) + n)]).sum := by
  have h0 := unbias_magic b (k := 0) (by decide)
  have h1 := unbias_magic b (k := 1) (by decide)
  have h2 := unbias_magic b (k := 2) (by decide)
  have h3 := unbias_magic b (k := 3) (by decide)
  simp only [Nat.mul_zero, Nat.mul_one, Nat.reduceMul, UInt32.reduceOfNat] at h0 h1 h2 h3
  simp [wordSum, h0, h1, h2, h3, List.range_succ]
  ring

/-! ### Uses -/

theorem wordUses_perm (group g i : Nat) :
    ((List.range 4).flatMap fun n => [(⟨g, i, n, g * group + (4 * (2 * i) + n)⟩ : Use),
      ⟨g, i, n + 4, g * group + (4 * (2 * i + 1) + n)⟩]).Perm
      ((List.range 8).map fun n => ⟨g, i, n, g * group + (8 * i + n)⟩) := by
  have horder : ((List.range 4).flatMap fun n => [n, n + 4]).Perm (List.range 8) := by decide
  have huses : ((List.range 4).flatMap fun n => [(⟨g, i, n, g * group + (4 * (2 * i) + n)⟩ : Use),
      ⟨g, i, n + 4, g * group + (4 * (2 * i + 1) + n)⟩]) =
      ((List.range 4).flatMap fun n => [n, n + 4]).map fun n =>
        (⟨g, i, n, g * group + (8 * i + n)⟩ : Use) := by
    rw [List.map_flatMap]
    refine List.flatMap_congr fun n _ => ?_
    have hfirst : 4 * (2 * i) + n = 8 * i + n := by omega
    have hsecond : 4 * (2 * i + 1) + n = 8 * i + (n + 4) := by omega
    rw [hfirst, hsecond]
    rfl
  rw [huses]
  exact horder.map _

/-- **The lanes use every nibble of the row once**, each with the element in its column. -/
theorem laneUses_perm {cols group : Nat} (height : group % 8 = 0)
    (hcols : group ∣ cols) :
    ((List.range 32).flatMap (laneUses (cols / group) group)).Perm (rowUses cols group) := by
  have hwords : group / 8 * 8 = group := by omega
  have hgrid : ((List.range (cols / group)).flatMap fun g => (List.range (group / 8)).flatMap fun i =>
      (List.range 8).map fun n => (⟨g, i, n, g * group + (8 * i + n)⟩ : Use)) =
        rowUses cols group := by
    simp only [Lib.flatMap_map_range, hwords, Nat.div_mul_cancel hcols]
    refine List.map_congr_left fun c _ => ?_
    have hcol : c / group * group + (8 * (c % group / 8) + c % group % 8) = c := by
      rw [Nat.div_add_mod, Nat.div_add_mod']
    rw [hcol, Nat.mod_mod_of_dvd c (Nat.dvd_of_mod_eq_zero height)]
  rw [← hgrid]
  unfold laneUses
  rw [← List.flatMap_assoc]
  refine ((Lib.strided_perm (by decide) _).flatMap_right _).trans ?_
  exact List.Perm.flatMap_left _ fun g _ => List.Perm.flatMap_left _ fun i _ =>
    wordUses_perm group g i

theorem gridRows_eq (rows : Nat) : gridRows rows = List.range ((rows + 3) / 4 * 4) := by
  simp only [gridRows, Lib.flatMap_map_range, Nat.div_add_mod', List.map_id']

/-- **Every row is written by one warp.** -/
theorem gridRows_filter (rows : Nat) :
    (gridRows rows).filter (fun row => row < rows) = List.range rows := by
  obtain ⟨more, hmore⟩ : ∃ more, (rows + 3) / 4 * 4 = rows + more :=
    ⟨(rows + 3) / 4 * 4 - rows, by omega⟩
  rw [gridRows_eq, hmore, List.range_add, List.filter_append, List.filter_eq_self.mpr,
    List.filter_eq_nil_iff.mpr, List.append_nil]
  · intro row hrow
    obtain ⟨k, -, rfl⟩ := List.mem_map.mp hrow
    simp
  · intro row hrow
    simpa using hrow

/-! ### Loads -/

section Row

/-- A tensor is in device memory. -/
structure Holds (mem : Nat → UInt8) (addr : Nat) (region : List UInt8) : Prop where
  byte : ∀ i < region.length, mem (addr + i) = region.getD i 0
  inside : addr + region.length ≤ 2 ^ 64

/-- The loads of the launch are aligned, or there are none. -/
def Aligned (blob xAddr rows cols group : Nat) : Prop :=
  rows = 0 ∨ cols = 0 ∨ (blob + rows * (cols / group) * 2) % 4 = 0 ∧ xAddr % 16 = 0

variable {mem : Nat → UInt8} {blob rows cols group : Nat} {region : List UInt8} {x : Vec}

theorem Holds.load (h : Holds mem blob region) {off w : Nat} (hin : off + w ≤ region.length) :
    ((List.range w).map fun i => mem (blob + off + i)) = slice off w region := by
  refine List.ext_getElem (by simp [slice]; omega) fun i hi _ => ?_
  have hi' : i < w := by simpa using hi
  have hlt : off + i < region.length := by omega
  simp [slice, Nat.add_assoc, h.byte (off + i) hlt, List.getD_eq_getElem?_getD, hlt]

/-- What a nibble contributes to its row. -/
def useTerm (region : List UInt8) (x : Vec) (rows cols group row : Nat) (u : Use) : ℚ :=
  binary16.value (q4Scale region (row * (cols / group) + u.group)).toNat *
    (((q4Nibble region (rows * (cols / group))
      (8 * ((row * (cols / group) + u.group) * (group / 8) + u.word) + u.nibble) : ℚ) - 8) *
        x.elems u.elem)

/-- The place of a group in its region. -/
theorem group_inside (height : group % 8 = 0) (hcols : group ∣ cols)
    (hlength : region.length = q4Bytes rows cols group) {row g : Nat} (hrow : row < rows)
    (hg : g < cols / group) :
    (row * (cols / group) + g) * 2 + 2 ≤ rows * (cols / group) * 2 ∧
      rows * (cols / group) * 2 + (row * (cols / group) + g) * (group / 2) + group / 2 ≤
        region.length := by
  have hblock := Lib.block_lt hrow hg
  have hrest := Lib.mul_row_le hblock (group / 2)
  rw [hlength, q4Bytes_groups rows (by omega) (Nat.div_mul_cancel hcols).symm]
  omega

theorem groupTerm_eq (height : group % 8 = 0) (hcols : group ∣ cols)
    (hlength : region.length = q4Bytes rows cols group) (h : Holds mem blob region)
    (hdata : (blob + rows * (cols / group) * 2) % 4 = 0) (hx : x.addr % 16 = 0) {row g : Nat}
    (hrow : row < rows) (hg : g < cols / group) :
    groupTerm mem ⟨blob, rows, cols, group⟩ x row g =
      some (((List.range (group / 8)).flatMap fun i => (List.range 4).flatMap fun n =>
        [(⟨g, i, n, g * group + (4 * (2 * i) + n)⟩ : Use),
          ⟨g, i, n + 4, g * group + (4 * (2 * i + 1) + n)⟩]).map
            (useTerm region x rows cols group row)).sum := by
  obtain ⟨hscaleIn, hwordsIn⟩ := group_inside height hcols hlength hrow hg
  have hinside := h.inside
  have hhalf : group / 2 = group / 8 * 4 := by omega
  have hscale : loadHalf mem (GemvArgs.scaleAddr ⟨blob, rows, cols, group⟩ row g) =
      some (q4Scale region (row * (cols / group) + g)) := by
    rw [scaleAddr_eq (by omega), loadHalf, if_pos (by omega), h.load (by omega), q4Scale]
  have hword : ∀ i < group / 8, loadWord mem (GemvArgs.wordAddr ⟨blob, rows, cols, group⟩ row g i) =
      some (UInt32.ofNat (leNat (slice (rows * (cols / group) * 2 +
        4 * ((row * (cols / group) + g) * (group / 8) + i)) 4 region))) := by
    intro i hi
    have hoff : blob + (rows * (cols / group) * 2 + (row * (cols / group) + g) * (group / 2)) + 4 * i =
        blob + (rows * (cols / group) * 2 +
          4 * ((row * (cols / group) + g) * (group / 8) + i)) := by
      rw [hhalf]
      ring
    rw [wordAddr_eq (by omega) (Nat.div_mul_cancel hcols).symm (by omega), hoff, loadWord,
      if_pos (by omega), h.load (by rw [hhalf, ← Nat.mul_assoc] at hwordsIn; omega)]
  have hfloat : ∀ k, loadFloat4 (x.from (g * group)).addr (x.from (g * group)).elems (4 * k) =
      some ⟨x.elems (g * group + 4 * k), x.elems (g * group + (4 * k + 1)),
        x.elems (g * group + (4 * k + 2)), x.elems (g * group + (4 * k + 3))⟩ := by
    intro k
    have haddr : (x.addr + 4 * (g * group) + 4 * (4 * k)) % 16 = 0 := by
      have hgroup : g * group = 8 * (g * (group / 8)) := by
        conv_lhs => rw [← Nat.div_mul_cancel (Nat.dvd_of_mod_eq_zero height)]
        ring
      omega
    rw [loadFloat4, Vec.from, if_pos haddr]
  have hwords : (GemvArgs.words ⟨blob, rows, cols, group⟩).toNat = group / 8 := by
    rw [gemv_words, Int.toNat_natCast]
  unfold groupTerm
  rw [hwords, hscale]
  simp only [Int.toNat_natCast, Option.bind_eq_bind, Option.bind_some, Option.pure_def]
  rw [Lib.foldlM_some (g := fun i => ((List.range 4).flatMap fun n =>
      [((q4Nibble region (rows * (cols / group))
          (8 * ((row * (cols / group) + g) * (group / 8) + i) + n) : ℚ) - 8) *
            x.elems (g * group + (4 * (2 * i) + n)),
        ((q4Nibble region (rows * (cols / group))
          (8 * ((row * (cols / group) + g) * (group / 8) + i) + (n + 4)) : ℚ) - 8) *
            x.elems (g * group + (4 * (2 * i + 1) + n))]).sum)]
  · rw [Option.bind_some, zero_add, Lib.sum_flatMap, ← List.sum_map_mul_left]
    congr 2
    refine List.map_congr_left fun i _ => ?_
    simp only [List.range_succ, List.range_zero, List.nil_append, List.flatMap_append,
      List.flatMap_singleton, List.map_append, List.map_cons, List.map_nil, List.sum_append,
      List.sum_cons, List.sum_nil, useTerm]
    ring
  · intro i hi acc
    rw [List.mem_range] at hi
    rw [hword i hi, hfloat, hfloat]
    refine congrArg some ((wordSum_eq _ (fun j => x.elems (g * group + j)) i acc).trans ?_)
    congr 2
    refine List.flatMap_congr fun n hn => ?_
    rw [List.mem_range] at hn
    have hin : rows * (cols / group) * 2 + 4 * ((row * (cols / group) + g) * (group / 8) + i) + 4 ≤
        region.length := by
      rw [hhalf, ← Nat.mul_assoc] at hwordsIn
      omega
    rw [wordNibble_slice hin (by omega), wordNibble_slice hin (by omega)]

/-- The scales of a region are numbers. -/
def FiniteScales (region : List UInt8) (rows cols group : Nat) : Prop :=
  ∀ i < rows * (cols / group), binary16.IsFinite (q4Scale region i).toNat

instance (region : List UInt8) (rows cols group : Nat) :
    Decidable (FiniteScales region rows cols group) :=
  inferInstanceAs (Decidable (∀ i < rows * (cols / group), binary16.IsFinite _))

/-- Row `row` of the tensor times `x`. -/
def rowDot (region : List UInt8) (x : Vec) (rows cols group row : Nat) : ℚ :=
  ∑ c ∈ Finset.range cols, q4Value exactScale region rows cols group (row * cols + c) * x.elems c

theorem rowUses_sum (height : group % 8 = 0) (hcols : group ∣ cols) (hgroup : 0 < group)
    (hfin : FiniteScales region rows cols group) {row : Nat} (hrow : row < rows) :
    ((rowUses cols group).map (useTerm region x rows cols group row)).sum =
      rowDot region x rows cols group row := by
  rw [rowUses, List.map_map, rowDot, ← Lib.sum_range_list]
  congr 1
  refine List.map_congr_left fun c hc => ?_
  rw [List.mem_range] at hc
  have hwords : group / 8 * 8 = group := by omega
  have hscale : (row * cols + c) / group = row * (cols / group) + c / group := by
    conv_lhs => rw [← Nat.div_mul_cancel hcols, ← Nat.mul_assoc]
    rw [Nat.mul_comm _ group, Nat.mul_add_div hgroup]
  have hnibble : 8 * ((row * (cols / group) + c / group) * (group / 8) + c % group / 8) + c % 8 =
      row * cols + c := by
    have hcol : c / group * group + (8 * (c % group / 8) + c % 8) = c := by
      rw [← Nat.mod_mod_of_dvd c (Nat.dvd_of_mod_eq_zero height), Nat.div_add_mod, Nat.div_add_mod']
    calc _ = (row * (cols / group) + c / group) * (group / 8 * 8) + (8 * (c % group / 8) + c % 8) := by
          ring
      _ = row * (cols / group * group) + (c / group * group + (8 * (c % group / 8) + c % 8)) := by
          rw [hwords]
          ring
      _ = row * cols + c := by rw [Nat.div_mul_cancel hcols, hcol]
  have hlt := Lib.block_lt hrow (Nat.div_lt_div_of_lt_of_dvd hcols hc)
  simp only [Function.comp_apply, useTerm, q4Value, exactScale, hnibble, hscale,
    f16BitsToF32_value (hfin _ hlt)]
  push_cast
  ring

theorem laneAcc_eq (height : group % 8 = 0) (hcols : group ∣ cols)
    (hlength : region.length = q4Bytes rows cols group) (h : Holds mem blob region)
    (halign : Aligned blob x.addr rows cols group) {row : Nat} (hrow : row < rows) (lane : Nat) :
    laneAcc mem ⟨blob, rows, cols, group⟩ x row lane =
      some ((laneUses (cols / group) group lane).map (useTerm region x rows cols group row)).sum := by
  unfold laneAcc laneUses
  rw [gemv_groups, Int.toNat_natCast, Lib.sum_flatMap, ← zero_add (List.sum _)]
  refine Lib.foldlM_some (fun g hg acc => ?_) 0
  have hg' := ((Lib.mem_strided (by decide)).mp hg).1
  have hcols0 : cols ≠ 0 := fun h0 => by simp [h0] at hg'
  obtain ⟨hdata, hx⟩ := (halign.resolve_left (by omega)).resolve_left hcols0
  rw [groupTerm_eq height hcols hlength h hdata hx hrow hg']
  rfl

/-- **A warp computes its row.** -/
theorem warp_eq (hgroup : 0 < group) (height : group % 8 = 0) (hcols : group ∣ cols)
    (hlength : region.length = q4Bytes rows cols group) (h : Holds mem blob region)
    (hfin : FiniteScales region rows cols group) (halign : Aligned blob x.addr rows cols group)
    (row yAt : Nat) :
    warp mem ⟨blob, rows, cols, group⟩ x row yAt =
      some (if rows ≤ row then [] else [(yAt + row, rowDot region x rows cols group row)]) := by
  unfold warp
  by_cases hout : rows ≤ row
  · rw [if_pos (Int.ofNat_le.mpr hout), if_pos hout]
    rfl
  · have hrow := not_le.mp hout
    have hlanes : (List.range 32).mapM (laneAcc mem ⟨blob, rows, cols, group⟩ x row) =
        some ((List.range 32).map fun lane =>
          ((laneUses (cols / group) group lane).map (useTerm region x rows cols group row)).sum) :=
      Lib.mapM_some fun lane _ => laneAcc_eq height hcols hlength h halign hrow lane
    have hsum : ∑ lane ∈ Finset.range 32, ((List.range 32).map fun lane =>
        ((laneUses (cols / group) group lane).map (useTerm region x rows cols group row)).sum).getD
          lane 0 = rowDot region x rows cols group row := by
      rw [← rowUses_sum height hcols hgroup hfin hrow,
        ← ((laneUses_perm height hcols).map _).sum_eq, Lib.sum_flatMap, Lib.sum_range_list]
      refine Finset.sum_congr rfl fun lane hlane => ?_
      rw [List.getD_eq_getElem?_getD, List.getElem?_map, List.getElem?_range (Finset.mem_range.mp hlane)]
      rfl
    rw [if_neg (fun hle => hout (Int.ofNat_le.mp hle)), if_neg hout, hlanes]
    simp only [Option.bind_eq_bind, Option.bind_some, Option.pure_def, Lib.warpReduce_zero, hsum]

/-- **A launch whose loads are not aligned traps**, in the first lane of the first row. -/
theorem warp_none (height : group % 8 = 0) (hgroup : 0 < group) (hcols : group ∣ cols)
    (hlength : region.length = q4Bytes rows cols group) (h : Holds mem blob region)
    (halign : ¬ Aligned blob x.addr rows cols group) (yAt : Nat) :
    0 < rows ∧ warp mem ⟨blob, rows, cols, group⟩ x 0 yAt = none := by
  simp only [Aligned, not_or] at halign
  obtain ⟨hrows, hcols0, hmis⟩ := halign
  have hrow : 0 < rows := Nat.pos_of_ne_zero hrows
  have hg : 0 < cols / group := Nat.div_pos (Nat.le_of_dvd (Nat.pos_of_ne_zero hcols0) hcols) hgroup
  obtain ⟨-, hwordsIn⟩ := group_inside height hcols hlength hrow hg
  have hinside := h.inside
  have hterm : groupTerm mem ⟨blob, rows, cols, group⟩ x 0 0 = none := by
    have hword : loadWord mem (GemvArgs.wordAddr ⟨blob, rows, cols, group⟩ (0 : Nat) (0 : Nat)
        (0 : Nat)) = none ∨ loadFloat4 (x.from (0 * group)).addr (x.from (0 * group)).elems
          (4 * (2 * 0)) = none := by
      rw [wordAddr_eq (by omega) (Nat.div_mul_cancel hcols).symm (by omega), loadWord, loadFloat4,
        Vec.from]
      simp only [Nat.zero_mul, Nat.zero_add, Nat.mul_zero, Nat.add_zero]
      by_cases hdata : (blob + rows * (cols / group) * 2) % 4 = 0
      · exact .inr (if_neg fun hx => hmis ⟨hdata, hx⟩)
      · exact .inl (if_neg hdata)
    have hwords : (GemvArgs.words ⟨blob, rows, cols, group⟩).toNat = group / 8 := by
      rw [gemv_words, Int.toNat_natCast]
    unfold groupTerm
    cases loadHalf mem (GemvArgs.scaleAddr ⟨blob, rows, cols, group⟩ (0 : Nat) (0 : Nat)) with
    | none => rfl
    | some s =>
        simp only [Option.bind_eq_bind, Option.bind_some, hwords, Int.toNat_natCast]
        rw [Lib.foldlM_none (b := 0) (List.mem_range.mpr (by omega))]
        · rfl
        · intro acc
          rcases hword with hword | hfloat
          · rw [hword]
            rfl
          · rw [hfloat]
            cases loadWord mem _ <;> rfl
  refine ⟨hrow, ?_⟩
  have hlane : laneAcc mem ⟨blob, rows, cols, group⟩ x 0 0 = none := by
    unfold laneAcc
    rw [gemv_groups, Int.toNat_natCast]
    refine Lib.foldlM_none (b := 0) ((Lib.mem_strided (by decide)).mpr ⟨hg, by simp⟩) ?_ 0
    intro acc
    rw [hterm]
    rfl
  unfold warp
  rw [if_neg (by simpa using hrows), Lib.mapM_none (List.mem_range.mpr (by decide)) hlane]
  rfl

end Row

/-! ### Launches -/

section Launch

variable {mem : Nat → UInt8} {rows cols group : Nat} {x : Vec}

/-- One tensor is a batch of one. -/
theorem q4g64Gemv_eq_batch (blob : Nat) (y : Nat → ℚ) : q4g64Gemv mem blob x y rows cols group =
    q4g64GemvBatch mem (fun _ => blob) 0 x 0 y rows cols group 1 := by
  simp [q4g64Gemv, q4g64GemvBatch, batchGrid, Vec.from, List.mapM_map, Function.comp_def]

variable {blobs : Nat → Nat} {regionOff experts xStride : Nat} {regions : Nat → List UInt8}

/-- **An aligned launch writes every row of every expert once.** -/
theorem q4g64GemvBatch_eq (hgroup : 0 < group) (height : group % 8 = 0) (hcols : group ∣ cols)
    (hlength : ∀ e < experts, (regions e).length = q4Bytes rows cols group)
    (h : ∀ e < experts, Holds mem (blobs e + regionOff) (regions e))
    (hfin : ∀ e < experts, FiniteScales (regions e) rows cols group)
    (halign : ∀ e < experts,
      Aligned (blobs e + regionOff) (x.addr + 4 * (e * xStride)) rows cols group)
    (y : Nat → ℚ) :
    q4g64GemvBatch mem blobs regionOff x xStride y rows cols group experts =
      some (store y ((List.range experts).flatMap fun e => (List.range rows).map fun row =>
        (e * rows + row, rowDot (regions e) (x.from (e * xStride)) rows cols group row))) := by
  have hwarps : ∀ w ∈ batchGrid rows experts,
      warp mem ⟨blobs w.1 + regionOff, rows, cols, group⟩ (x.from (w.1 * xStride)) w.2 (w.1 * rows) =
        some (if rows ≤ w.2 then [] else
          [(w.1 * rows + w.2, rowDot (regions w.1) (x.from (w.1 * xStride)) rows cols group w.2)]) := by
    intro w hw
    simp only [batchGrid, List.mem_flatMap, List.mem_range, List.mem_map] at hw
    obtain ⟨e, he, row, -, rfl⟩ := hw
    exact warp_eq hgroup height hcols (hlength e he) (h e he) (hfin e he) (halign e he) row (e * rows)
  have hrun := Lib.mapM_some hwarps
  unfold q4g64GemvBatch
  rw [hrun]
  simp only [Option.bind_eq_bind, Option.bind_some, Option.pure_def, Lib.flatten_guarded, not_le]
  simp only [batchGrid, List.filter_flatMap, List.filter_map, List.map_flatMap, List.map_map,
    Function.comp_def, gridRows_filter]

/-- A launch that is not aligned traps. -/
theorem q4g64GemvBatch_none (hgroup : 0 < group) (height : group % 8 = 0) (hcols : group ∣ cols)
    {e : Nat} (he : e < experts) (hlength : (regions e).length = q4Bytes rows cols group)
    (h : Holds mem (blobs e + regionOff) (regions e))
    (halign : ¬ Aligned (blobs e + regionOff) (x.addr + 4 * (e * xStride)) rows cols group)
    (y : Nat → ℚ) :
    q4g64GemvBatch mem blobs regionOff x xStride y rows cols group experts = none := by
  obtain ⟨hrow, hnone⟩ := warp_none (x := x.from (e * xStride)) height hgroup hcols hlength h halign
    (e * rows)
  have hmem : (e, 0) ∈ batchGrid rows experts := by
    simp only [batchGrid, List.mem_flatMap, List.mem_range, List.mem_map, gridRows_eq]
    exact ⟨e, he, 0, by omega, rfl⟩
  have hrun := Lib.mapM_none (f := fun w : Nat × Nat => warp mem
    ⟨blobs w.1 + regionOff, rows, cols, group⟩ (x.from (w.1 * xStride)) w.2 (w.1 * rows)) hmem hnone
  unfold q4g64GemvBatch
  rw [hrun]
  rfl

/-- The values of every row of a batch. -/
theorem q4g64GemvBatch_iff (hgroup : 0 < group) (height : group % 8 = 0) (hcols : group ∣ cols)
    (hlength : ∀ e < experts, (regions e).length = q4Bytes rows cols group)
    (h : ∀ e < experts, Holds mem (blobs e + regionOff) (regions e))
    (hfin : ∀ e < experts, FiniteScales (regions e) rows cols group) (y : Nat → ℚ) :
    (∃ y', q4g64GemvBatch mem blobs regionOff x xStride y rows cols group experts = some y' ∧
      ∀ e < experts, ∀ row < rows, y' (e * rows + row) =
        rowDot (regions e) (x.from (e * xStride)) rows cols group row) ↔
      ∀ e < experts, Aligned (blobs e + regionOff) (x.addr + 4 * (e * xStride)) rows cols group := by
  constructor
  · intro hrun e he
    by_contra halign
    obtain ⟨y', hy', -⟩ := hrun
    rw [q4g64GemvBatch_none hgroup height hcols he (hlength e he) (h e he) halign] at hy'
    cases hy'
  · intro halign
    refine ⟨_, q4g64GemvBatch_eq hgroup height hcols hlength h hfin halign y, fun e he row hrow => ?_⟩
    refine Lib.store_mem ?_ ?_
    · simp only [List.mem_flatMap, List.mem_range, List.mem_map]
      exact ⟨e, he, row, hrow, rfl⟩
    · intro w hw haddr
      simp only [List.mem_flatMap, List.mem_range, List.mem_map] at hw
      obtain ⟨e', -, row', hrow', rfl⟩ := hw
      obtain ⟨rfl, rfl⟩ := Lib.radix_inj hrow' hrow haddr
      rfl

/-- A row of what `q4_dequantize` makes of a region, times `x`. -/
theorem rowDot_eq {region : List UInt8} {row : Nat} (hrow : row < rows) (x : Vec) :
    ∑ c ∈ Finset.range cols, ((List.range (rows * cols)).map
        (q4Value exactScale region rows cols group)).getD (row * cols + c) 0 * x.elems c =
      rowDot region x rows cols group row := by
  refine Finset.sum_congr rfl fun c hc => ?_
  have hlt := Lib.block_lt hrow (Finset.mem_range.mp hc)
  simp [List.getD_eq_getElem?_getD, hlt]

/-- **The GEMVs compute the reference dequantisation times the input if and only if their
loads are aligned**, each nibble of a row used once, with the element in its column, each row
written once. -/
theorem gemv_iff (hgroup : 0 < group) (height : group % 8 = 0) (hcols : group ∣ cols)
    (hlength : ∀ e < experts, (regions e).length = q4Bytes rows cols group)
    (h : ∀ e < experts, Holds mem (blobs e + regionOff) (regions e))
    (hfin : ∀ e < experts, FiniteScales (regions e) rows cols group) (y : Nat → ℚ) :
    ((List.range 32).flatMap (laneUses (cols / group) group)).Perm (rowUses cols group) ∧
      (gridRows rows).filter (fun row => row < rows) = List.range rows ∧
      ∃ outs : Nat → List ℚ,
        (∀ e < experts, q4Dequantize exactScale (regions e) rows cols group
          (List.replicate (rows * cols) 0) = some (.ok (outs e))) ∧
        (∀ e < experts,
          ((∃ y', q4g64Gemv mem (blobs e + regionOff) x y rows cols group = some y' ∧
            ∀ row < rows, y' row =
              ∑ c ∈ Finset.range cols, (outs e).getD (row * cols + c) 0 * x.elems c) ↔
            Aligned (blobs e + regionOff) x.addr rows cols group)) ∧
        ((∃ y', q4g64GemvBatch mem blobs regionOff x xStride y rows cols group experts = some y' ∧
          ∀ e < experts, ∀ row < rows, y' (e * rows + row) =
            ∑ c ∈ Finset.range cols,
              (outs e).getD (row * cols + c) 0 * x.elems (e * xStride + c)) ↔
          ∀ e < experts,
            Aligned (blobs e + regionOff) (x.addr + 4 * (e * xStride)) rows cols group) := by
  refine ⟨laneUses_perm height hcols, gridRows_filter rows,
    fun e => (List.range (rows * cols)).map (q4Value exactScale (regions e) rows cols group),
    fun e he => q4Dequantize_ok exactScale hgroup (by omega) hcols (hlength e he) (by simp), ?_, ?_⟩
  · intro e he
    -- a batch of one, of which the region is at the blob's own address
    have hone := @q4g64GemvBatch_iff mem rows cols group x (fun _ => blobs e + regionOff) 0 1 0
      (fun _ => regions e) hgroup height hcols (fun _ _ => hlength e he) (fun _ _ => h e he)
      (fun _ _ => hfin e he) y
    simp only [Nat.lt_one_iff, forall_eq, Nat.zero_mul, Nat.mul_zero, Nat.zero_add, Nat.add_zero]
      at hone
    rw [q4g64Gemv_eq_batch, ← hone]
    refine exists_congr fun y' => and_congr_right fun _ => forall₂_congr fun row hrow => ?_
    rw [rowDot_eq hrow x]
    simp [rowDot, Vec.from]
  · rw [← q4g64GemvBatch_iff hgroup height hcols hlength h hfin y]
    refine exists_congr fun y' => and_congr_right fun _ => forall₂_congr fun e _ =>
      forall₂_congr fun row hrow => ?_
    rw [← rowDot_eq hrow]
    rfl

end Launch

/-- Memory that holds the same byte everywhere. -/
theorem holds_replicate (b : UInt8) {addr n : Nat} (hin : addr + n ≤ 2 ^ 64) :
    Holds (fun _ => b) addr (List.replicate n b) := by
  refine ⟨fun i hi => ?_, by rwa [List.length_replicate]⟩
  rw [List.length_replicate] at hi
  rw [List.getD_eq_getElem?_getD, List.getElem?_replicate_of_lt hi]
  rfl

/-- Two experts, of two rows each. -/
theorem gemv_iff_two_experts :
    ∃ y', q4g64GemvBatch (fun _ => 0x11) (fun e => 256 * e) 32 ⟨0, fun i => i⟩ 64 (fun _ => 0)
        2 64 64 2 = some y' ∧
      ∃ outs : Nat → List ℚ, (∀ e < 2, q4Dequantize exactScale (List.replicate 68 0x11) 2 64 64
          (List.replicate (2 * 64) 0) = some (.ok (outs e))) ∧
        ∀ e < 2, ∀ row < 2, y' (e * 2 + row) =
          ∑ c ∈ Finset.range 64, (outs e).getD (row * 64 + c) 0 * (e * 64 + c : Nat) := by
  have hholds : ∀ e < 2, Holds (fun _ => 0x11) (256 * e + 32) (List.replicate 68 0x11) :=
    fun e he => holds_replicate 0x11 (by omega)
  have hfin : ∀ e < 2, FiniteScales (List.replicate 68 0x11) 2 64 64 := fun _ _ => by decide
  obtain ⟨-, -, outs, houts, -, hiff⟩ := @gemv_iff (fun _ => 0x11) 2 64 64 ⟨0, fun i => i⟩
    (fun e => 256 * e) 32 2 64 (fun _ => List.replicate 68 0x11) (by decide) (by decide) (by decide)
    (fun _ _ => rfl) hholds hfin fun _ => 0
  obtain ⟨y', hy', hrows⟩ := hiff.mpr fun e he =>
    .inr (.inr ⟨by omega, by simp; omega⟩)
  exact ⟨y', hy', outs, houts, hrows⟩

/-- One row of one group, at address 0: its words start two bytes off, and the launch traps. -/
theorem gemv_one_group_traps :
    Holds (fun _ => 0) 0 (List.replicate (q4Bytes 1 64 64) 0) ∧
      FiniteScales (List.replicate (q4Bytes 1 64 64) 0) 1 64 64 ∧
      (q4g64Gemv (fun _ => 0) 0 ⟨0, fun _ => 1⟩ (fun _ => 0) 1 64 64).isNone = true := by
  exact ⟨holds_replicate 0 (by decide), by decide, by decide⟩

end Gemv

end LlmPager
