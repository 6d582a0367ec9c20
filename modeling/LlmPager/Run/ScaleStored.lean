import LlmPager.Core.HalfNearest
import LlmPager.Run.QuantRoundTrip

/-!
# LlmPager.Run.ScaleStored

The scale that `q4_quantize` divides by, `max(f16_round(a), 1e-7)`, against the scale that
it stores. From `1.5 * 2^-24` on, `f16_round(a)` is at least two units of a subnormal f16,
above the clamp, and stored as it is; below, the clamp wins, and `1e-7` is no f16
(`clampScale_stored_iff`).

The errors that `quantize_one` folds into `max_err` are those of the scale it divides by,
so `max_err` is the largest error of what is decoded where every scale is stored as it is
(`scaleStored_iff`).
-/

namespace LlmPager

open Lib (Format binary16 binary32 roundAway)

/-! ### The clamp -/

/-- `f16_round(a).max(1e-7)`. -/
def clampScale (a : UInt32) : UInt32 := f32Max (f16Round a) (f32OfRat (1 / 10 ^ 7))

theorem scaleOf_eq (vals : List UInt32) : exactOps.scaleOf vals = clampScale (rawScale vals) := rfl

/-- `1e-7` as an f32, and its value among the halves of small units. -/
theorem clamp_word : f32OfRat (1 / 10 ^ 7) = 0x33D6BF95 ∧
    (f32Value 0x33D6BF95 ≤ 1 / 2 ^ 23 ∧ 1 / 2 ^ 24 < f32Value 0x33D6BF95) ∧
    f32Value 0x33C00000 = 3 / 2 ^ 25 ∧ 1 / 2 ^ 23 ≤ f32Value (f16Round 0x33C00000) ∧
    binary32.magnitude 103 0x400000 = 3 / 2 ^ 25 := by decide +kernel

variable {a : UInt32}

/-- Two units of the last place or more. -/
theorem le_f16Round (hfin : binary32.IsFinite a.toNat) (hhigh : f32Value a ≤ 65504)
    (hlow : 3 / 2 ^ 25 ≤ f32Value a) : 1 / 2 ^ 23 ≤ f32Value (f16Round a) := by
  have hpos : 0 < f32Value a := lt_of_lt_of_le (by norm_num) hlow
  by_cases hlost : LosesCarry a
  · obtain ⟨-, k, x, -, hnear, hvalue, -, hround⟩ := hlost.units hfin
    have hunit : (2 : ℚ) ^ (-24 : ℤ) ≤ 2 ^ (k - 24 : ℤ) := zpow_le_zpow_right₀ one_le_two (by omega)
    have hend : ((2 ^ 11 : ℕ) : ℚ) = 2048 := by norm_num
    have hstart : ((2 ^ 10 : ℕ) : ℚ) = 1024 := by norm_num
    have hleast : (1 : ℚ) / 2 ^ 23 ≤ 1024 * 2 ^ (-24 : ℤ) := by norm_num
    rw [hend] at hnear
    rw [hstart] at hround
    have hx : 0 < x := by linarith [(abs_le.mp hnear).2]
    rcases sign_cases a with hs | hs
    · rw [hs, pow_zero, one_mul] at hround
      rw [f32Value, hround]
      exact hleast.trans (mul_le_mul_of_nonneg_left hunit (by norm_num))
    · rw [hs, pow_one, neg_one_mul] at hvalue
      have hneg : f32Value a < 0 := by
        rw [f32Value, hvalue]
        exact neg_neg_of_pos (by positivity)
      exact absurd hpos hneg.not_gt
  · obtain ⟨-, -, hend, hstart, -⟩ := clamp_word
    have hmono := extended_mono (b := 0x33C00000) (by decide) hfin (by decide) hlost
      (hend.trans_le hlow)
    have hsmall : |f32Value a| < 65520 := by
      rw [abs_of_pos hpos]
      linarith
    rw [extended_finite (by decide), extended_finite (f16Round_half hfin hsmall).2.1,
      WithBot.coe_le_coe, WithTop.coe_le_coe] at hmono
    exact hstart.trans hmono

/-- One unit or none. -/
theorem f16Round_le (hfin : binary32.IsFinite a.toNat) (hnonneg : 0 ≤ f32Value a)
    (hlow : f32Value a < 3 / 2 ^ 25) : f32Value (f16Round a) ≤ 1 / 2 ^ 24 := by
  have hm : binary32.fracField a.toNat < 2 ^ 23 := Format.fracField_lt a.toNat
  have hmag : binary32.magnitude (binary32.expField a.toNat) (binary32.fracField a.toNat) =
      f32Value a := by
    rw [← Format.abs_value]
    exact abs_of_nonneg hnonneg
  obtain ⟨-, -, -, -, hend⟩ := clamp_word
  have he : binary32.expField a.toNat ≤ 103 := by
    by_contra hgt
    have hlt : binary32.magnitude 103 0x400000 <
        binary32.magnitude (binary32.expField a.toNat) (binary32.fracField a.toNat) :=
      Format.magnitude_lt (by decide) (Or.inl (by omega))
    rw [hend, hmag] at hlt
    exact lt_asymm hlow hlt
  have hsmall : |f32Value a| < 65520 := by
    rw [abs_of_nonneg hnonneg]
    linarith
  have hexp : halfExp (binary32.expField a.toNat) = 0 := by
    unfold halfExp
    omega
  have hnear := abs_halfCount_sub (e := binary32.expField a.toNat) hm
  have hcount : halfCount (binary32.expField a.toNat) (binary32.fracField a.toNat) ≤ 1 := by
    have hlt : halfUnits (binary32.expField a.toNat) (binary32.fracField a.toNat) < 3 / 2 := by
      rw [halfUnits, hmag, hexp, div_lt_iff₀ (by positivity)]
      refine lt_of_lt_of_eq hlow ?_
      norm_num
    have hle := (abs_le.mp hnear).2
    have hlt' : ((halfCount (binary32.expField a.toNat) (binary32.fracField a.toNat) : ℕ) : ℚ) <
        (2 : ℕ) := by
      push_cast
      linarith
    exact Nat.lt_succ_iff.mp (Nat.cast_lt.mp hlt')
  have hround := (f16Round_half hfin hsmall).2.2.2
  rw [halfBits_eq (by omega) hm (by omega), hexp,
    value_half (hcount.trans (by decide)) (Or.inl rfl) (Nat.zero_le _)] at hround
  have hunit : (2 : ℚ) ^ ((0 : ℕ) - 24 : ℤ) = 1 / 2 ^ 24 := by norm_num
  have hcount' : ((halfCount (binary32.expField a.toNat) (binary32.fracField a.toNat) : ℕ) : ℚ) ≤ 1 := by
    exact_mod_cast hcount
  rw [hunit] at hround
  refine (le_abs_self _).trans ?_
  rw [f32Value, hround, abs_mul, abs_pow, abs_neg, abs_one, one_pow, one_mul, abs_of_nonneg (by positivity)]
  exact mul_le_of_le_one_left (by norm_num) hcount'

/-- **The scale that is stored**: it is the one that is divided by exactly from `1.5 * 2^-24`
on, and else no f16 is. -/
theorem clampScale_stored_iff (hfin : binary32.IsFinite a.toNat) (hnonneg : 0 ≤ f32Value a)
    (hhigh : f32Value a ≤ 65504) :
    (f16BitsToF32 (f32ToF16Bits (clampScale a)) = clampScale a ↔ 3 / 2 ^ 25 ≤ f32Value a) ∧
    ((∃ h : UInt16, binary16.IsFinite h.toNat ∧ f16BitsToF32 h = clampScale a) ↔
      3 / 2 ^ 25 ≤ f32Value a) := by
  have hclamp : f32Value (f32OfRat (1 / 10 ^ 7)) ≤ 1 / 2 ^ 23 ∧
      1 / 2 ^ 24 < f32Value (f32OfRat (1 / 10 ^ 7)) := by
    obtain ⟨hword, hrange, -⟩ := clamp_word
    rw [hword]
    exact hrange
  have hsmall : |f32Value a| < 65520 := by
    rw [abs_of_nonneg hnonneg]
    linarith
  have hhalf := (f16Round_half hfin hsmall).1
  by_cases hlow : 3 / 2 ^ 25 ≤ f32Value a
  · have hkept : clampScale a = f16Round a :=
      if_neg (not_lt.mpr (hclamp.1.trans (le_f16Round hfin hhigh hlow)))
    rw [hkept]
    refine ⟨iff_of_true ?_ hlow, iff_of_true ⟨_, hhalf, rfl⟩ hlow⟩
    exact f16Round_f16BitsToF32 fun hmax => absurd hmax hhalf
  · have hclamped : clampScale a = 0x33D6BF95 := by
      rw [← clamp_word.1]
      exact if_pos ((f16Round_le hfin hnonneg (not_le.mp hlow)).trans_lt hclamp.2)
    have hlost : f16BitsToF32 (f32ToF16Bits 0x33D6BF95) ≠ 0x33D6BF95 := by decide
    rw [hclamped]
    refine ⟨iff_of_false hlost hlow, iff_of_false ?_ hlow⟩
    intro hsome
    obtain ⟨h, hfin', hword⟩ := hsome
    refine hlost ?_
    rw [← hword]
    exact f16Round_f16BitsToF32 fun hmax => absurd hmax hfin'

/-! ### The largest error -/

/-- `quantize_one`'s error of a value. -/
def quantizeErr (scale x : UInt32) : ℚ :=
  |f32Value x - exactScale (exactOps.quantizeOne x scale - 8) scale|

/-- `if err > *max_err { *max_err = err; }` -/
def foldErr (maxErr err : ℚ) : ℚ := if maxErr < err then err else maxErr

/-- The `max_err` that `q4_quantize` answers. -/
def quantizeMaxErr (src : List UInt32) (rows cols group : Nat) : ℚ :=
  (List.range rows).foldl (fun maxErr r =>
    (List.range (cols / group)).foldl (fun maxErr g =>
      let vals := groupVals src cols group r g
      let scale := exactOps.scaleOf vals
      (List.range (group / 2)).foldl (fun maxErr i =>
        foldErr (foldErr maxErr (quantizeErr scale (vals.getD (2 * i) 0)))
          (quantizeErr scale (vals.getD (2 * i + 1) 0))) maxErr) maxErr) 0

/-- The largest error of what is decoded. -/
def decodedMaxErr (src : List UInt32) (out : List ℚ) : ℚ :=
  ((List.range src.length).map fun k => |f32Value (src.getD k 0) - out.getD k 0|).foldl max 0

/-- A fold is below a bound when its start is and what each item adds. -/
theorem foldl_le_iff {α : Type} {step : ℚ → α → ℚ} {c : ℚ} {Below : α → Prop}
    (h : ∀ m x, step m x ≤ c ↔ m ≤ c ∧ Below x) (l : List α) (m : ℚ) :
    l.foldl step m ≤ c ↔ m ≤ c ∧ ∀ x ∈ l, Below x := by
  induction l generalizing m with
  | nil => simp
  | cons x l ih =>
      rw [List.foldl_cons, ih, h, List.forall_mem_cons, and_assoc]

theorem foldErr_le_iff {c : ℚ} (m err : ℚ) : foldErr m err ≤ c ↔ m ≤ c ∧ err ≤ c := by
  unfold foldErr
  split_ifs with hlt
  · constructor
    · intro hle
      exact ⟨hlt.le.trans hle, hle⟩
    · intro hle
      exact hle.2
  · constructor
    · intro hle
      exact ⟨hle, (not_lt.mp hlt).trans hle⟩
    · intro hle
      exact hle.1

theorem decodedMaxErr_le_iff {src : List UInt32} {out : List ℚ} {c : ℚ} :
    decodedMaxErr src out ≤ c ↔
      0 ≤ c ∧ ∀ k < src.length, |f32Value (src.getD k 0) - out.getD k 0| ≤ c := by
  have hstep : ∀ m err : ℚ, max m err ≤ c ↔ m ≤ c ∧ err ≤ c := fun m err => max_le_iff
  rw [decodedMaxErr, foldl_le_iff hstep]
  simp

variable {src : List UInt32} {rows cols group : Nat}

theorem quantizeMaxErr_le_iff (heven : group % 2 = 0) {c : ℚ} :
    quantizeMaxErr src rows cols group ≤ c ↔
      0 ≤ c ∧ ∀ r < rows, ∀ g < cols / group, ∀ j < group,
        quantizeErr (exactOps.scaleOf (groupVals src cols group r g))
          (src.getD (r * cols + (g * group + j)) 0) ≤ c := by
  unfold quantizeMaxErr
  rw [foldl_le_iff fun m r => foldl_le_iff (fun m g => foldl_le_iff (fun m i => by
    rw [foldErr_le_iff, foldErr_le_iff, and_assoc]) _ m) _ m]
  simp only [List.mem_range]
  refine and_congr_right fun _ => forall₂_congr fun r _ => forall₂_congr fun g _ => ?_
  constructor
  · intro hpairs j hj
    have hpair := hpairs (j / 2) (by omega)
    rw [← groupVals_getD hj]
    rcases Nat.mod_two_eq_zero_or_one j with hj0 | hj1
    · have hplace : 2 * (j / 2) = j := by omega
      rw [← hplace]
      exact hpair.1
    · have hplace : 2 * (j / 2) + 1 = j := by omega
      rw [← hplace]
      exact hpair.2
  · intro hall i hi
    rw [groupVals_getD (by omega), groupVals_getD (by omega)]
    exact ⟨hall _ (by omega), hall _ (by omega)⟩

/-- Every place of a tensor is in a group. -/
theorem exists_group (hcols : group ∣ cols) {k : Nat} (hk : k < rows * cols) :
    ∃ r < rows, ∃ g < cols / group, ∃ j < group, k = r * cols + (g * group + j) := by
  have hpos : 0 < cols := by
    by_contra h0
    rw [Nat.eq_zero_of_not_pos h0, Nat.mul_zero] at hk
    exact absurd hk (Nat.not_lt_zero k)
  have hgroup : 0 < group := Nat.pos_of_dvd_of_pos hcols hpos
  refine ⟨k / cols, Nat.div_lt_of_lt_mul (by rwa [Nat.mul_comm]), k % cols / group, ?_,
    k % cols % group, Nat.mod_lt _ hgroup, ?_⟩
  · rw [Nat.div_lt_iff_lt_mul hgroup, Nat.div_mul_cancel hcols]
    exact Nat.mod_lt _ hpos
  · rw [Nat.div_add_mod', Nat.div_add_mod']

/-- **The scale used is the scale stored**, and `max_err` the largest error of what is
decoded, exactly if no group's `amax / 7` is below `1.5 * 2^-24`. -/
theorem scaleStored_iff (hgroup : 0 < group) (height : group % 8 = 0) (hcols : group ∣ cols)
    (hsrc : src.length = rows * cols) (hfin : ∀ v ∈ src, binary32.IsFinite v.toNat)
    (hscales : ∀ r < rows, ∀ g < cols / group, f32Value (rawScale (groupVals src cols group r g)) ≤ 65504) :
    (∀ a, binary32.IsFinite a.toNat → 0 ≤ f32Value a → f32Value a ≤ 65504 →
      ((f16BitsToF32 (f32ToF16Bits (clampScale a)) = clampScale a ↔ 3 / 2 ^ 25 ≤ f32Value a) ∧
        ((∃ h : UInt16, binary16.IsFinite h.toNat ∧ f16BitsToF32 h = clampScale a) ↔
          3 / 2 ^ 25 ≤ f32Value a))) ∧
    ∃ buf out, q4Quantize exactOps src rows cols group
        (List.replicate (q4Bytes rows cols group) 0) = some (.ok buf) ∧
      q4Dequantize exactScale buf rows cols group (List.replicate (rows * cols) 0) =
        some (.ok out) ∧
      (((∀ r < rows, ∀ g < cols / group, f16BitsToF32 (q4Scale buf (r * (cols / group) + g)) =
            exactOps.scaleOf (groupVals src cols group r g)) ∧
          quantizeMaxErr src rows cols group = decodedMaxErr src out) ↔
        ∀ r < rows, ∀ g < cols / group,
          3 / 2 ^ 25 ≤ f32Value (rawScale (groupVals src cols group r g))) := by
  refine ⟨fun a hfin hnonneg hhigh => clampScale_stored_iff hfin hnonneg hhigh, ?_⟩
  obtain ⟨buf, out, hquant, hdequant, hgroups⟩ := quantize_dequantize hgroup height hcols hsrc
  refine ⟨buf, out, hquant, hdequant, ?_⟩
  have hstored : ∀ r < rows, ∀ g < cols / group,
      f16BitsToF32 (q4Scale buf (r * (cols / group) + g)) =
          exactOps.scaleOf (groupVals src cols group r g) ↔
        3 / 2 ^ 25 ≤ f32Value (rawScale (groupVals src cols group r g)) := by
    intro r hr g hg
    have hfin' : ∀ v ∈ groupVals src cols group r g, binary32.IsFinite v.toNat :=
      fun v hv => hfin v (List.mem_of_mem_drop (List.mem_of_mem_take hv))
    have hsign := signField_rawScale hfin'
    have hhigh := hscales r hr g hg
    rw [(hgroups r hr g hg).1, scaleOf_eq]
    generalize rawScale (groupVals src cols group r g) = a at *
    have hnonneg : 0 ≤ f32Value a := by
      rw [f32Value, Format.value, hsign, pow_zero, one_mul]
      exact Format.magnitude_nonneg
    refine (clampScale_stored_iff ?_ hnonneg hhigh).1
    have hsmall : |f32Value a| < 65520 := by
      rw [abs_of_nonneg hnonneg]
      linarith
    rw [f32Value, Format.abs_value, small_iff (Format.fracField_lt (f := binary32) a.toNat)] at hsmall
    show binary32.expField a.toNat ≠ 255
    omega
  constructor
  · intro hspec r hr g hg
    exact (hstored r hr g hg).mp (hspec.1 r hr g hg)
  · intro hlow
    refine ⟨fun r hr g hg => (hstored r hr g hg).mpr (hlow r hr g hg), ?_⟩
    -- the same errors on both sides
    have herr : ∀ r < rows, ∀ g < cols / group, ∀ j < group,
        quantizeErr (exactOps.scaleOf (groupVals src cols group r g))
            (src.getD (r * cols + (g * group + j)) 0) =
          |f32Value (src.getD (r * cols + (g * group + j)) 0) -
            out.getD (r * cols + (g * group + j)) 0| := by
      intro r hr g hg j hj
      have hsame := (hstored r hr g hg).mpr (hlow r hr g hg)
      rw [(hgroups r hr g hg).1] at hsame
      rw [(hgroups r hr g hg).2 j hj, hsame]
      rfl
    refine eq_of_forall_ge_iff fun c => ?_
    rw [quantizeMaxErr_le_iff (by omega), decodedMaxErr_le_iff]
    refine and_congr_right fun _ => ?_
    constructor
    · intro hall k hk
      rw [hsrc] at hk
      obtain ⟨r, hr, g, hg, j, hj, rfl⟩ := exists_group hcols hk
      rw [← herr r hr g hg j hj]
      exact hall r hr g hg j hj
    · intro hall r hr g hg j hj
      rw [herr r hr g hg j hj]
      refine hall _ ?_
      have hrow := Lib.mul_row_le hr cols
      have hin := Lib.mul_row_le hg group
      rw [Nat.div_mul_cancel hcols] at hin
      omega

theorem scaleStored_sevens :
    ∃ buf out, q4Quantize exactOps (List.replicate 16 0x40E00000) 2 8 8
        (List.replicate (q4Bytes 2 8 8) 0) = some (.ok buf) ∧
      q4Dequantize exactScale buf 2 8 8 (List.replicate (2 * 8) 0) = some (.ok out) ∧
      quantizeMaxErr (List.replicate 16 0x40E00000) 2 8 8 =
        decodedMaxErr (List.replicate 16 0x40E00000) out := by
  have hfin : ∀ v ∈ List.replicate 16 (0x40E00000 : UInt32), binary32.IsFinite v.toNat := by
    intro v hv
    rw [List.eq_of_mem_replicate hv]
    decide
  have hscales : ∀ r < 2, ∀ g < 8 / 8,
      f32Value (rawScale (groupVals (List.replicate 16 0x40E00000) 8 8 r g)) ≤ 65504 := by
    decide +kernel
  have hlow : ∀ r < 2, ∀ g < 8 / 8,
      3 / 2 ^ 25 ≤ f32Value (rawScale (groupVals (List.replicate 16 0x40E00000) 8 8 r g)) := by
    decide +kernel
  obtain ⟨-, buf, out, hquant, hdequant, hiff⟩ := scaleStored_iff (show 0 < 8 by decide) (by decide)
    (show 8 ∣ 8 by decide) (show (List.replicate 16 (0x40E00000 : UInt32)).length = 2 * 8 from rfl)
    hfin hscales
  exact ⟨buf, out, hquant, hdequant, (hiff.mpr hlow).2⟩

/-- A group of one `1e-7` and zeros: `1e-7` is divided by, and `2^-23` is stored. The error
that is answered is zero, the value comes back a fifth too large. -/
theorem scale_changes_stored :
    ∃ buf out, q4Quantize exactOps (0x33D6BF95 :: List.replicate 7 0) 1 8 8 (List.replicate 6 0) =
        some (.ok buf) ∧
      q4Dequantize exactScale buf 1 8 8 (List.replicate 8 0) = some (.ok out) ∧
      f32Value (rawScale (groupVals (0x33D6BF95 :: List.replicate 7 0) 8 8 0 0)) ≤ 65504 ∧
      f16BitsToF32 (q4Scale buf 0) ≠
        exactOps.scaleOf (groupVals (0x33D6BF95 :: List.replicate 7 0) 8 8 0 0) ∧
      quantizeMaxErr (0x33D6BF95 :: List.replicate 7 0) 1 8 8 = 0 ∧
      0 < decodedMaxErr (0x33D6BF95 :: List.replicate 7 0) out :=
  ⟨[0x02, 0x00, 0x89, 0x88, 0x88, 0x88], [1 / 2 ^ 23, 0, 0, 0, 0, 0, 0, 0], by decide +kernel,
    by decide +kernel, by decide +kernel, by decide +kernel, by decide +kernel, by decide +kernel⟩

end LlmPager
