import LlmPager.Core.HalfFloat

/-!
# LlmPager.Core.HalfNearest

The f16 conversions of `quant.rs` on all numbers: `f16_bits_to_f32` loses nothing, so that
`f32_to_f16_bits` gives every number of an f16 back (`f32ToF16Bits_f16BitsToF32`), and
`f16_round` answers a nearest one, but where it loses a carry (`roundsToNearest_iff`).

Rounding is to whole units of the last place, halves up (`halfCount`). The word is the sum
of that count, with its leading bit, and of the exponent less one.
-/

namespace LlmPager

open Lib (Format binary16 binary32 or_eq_add)

/-! ### Words -/

/-- The words that `f32_to_f16_bits` makes of finite numbers, without the sign. -/
def halfBits (e m : Nat) : Nat :=
  if 143 ≤ e then 31 * 2 ^ 10
  else if e < 102 then 0
  else if e ≤ 112 then ((2 ^ 23 + m) / 2 ^ (113 - e) + 2 ^ 12) / 2 ^ 13
  else (roundedFields (e - 112) m).1 * 2 ^ 10 + (roundedFields (e - 112) m).2

theorem shifted_le {e m : Nat} (he : e ≤ 112) (hm : m < 2 ^ 23) :
    (2 ^ 23 + m) / 2 ^ (113 - e) < 2 ^ 23 := by
  have hpow : 2 ^ 1 ≤ 2 ^ (113 - e) := Nat.pow_le_pow_right Nat.two_pos (by omega)
  rw [Nat.div_lt_iff_lt_mul (by positivity)]
  calc 2 ^ 23 + m < 2 ^ 23 * 2 ^ 1 := by omega
    _ ≤ 2 ^ 23 * 2 ^ (113 - e) := Nat.mul_le_mul_left _ hpow

theorem f32ToF16Bits_toNat {b : UInt32} (hfin : binary32.IsFinite b.toNat) :
    (f32ToF16Bits b).toNat = binary32.signField b.toNat * 2 ^ 15 +
      halfBits (binary32.expField b.toNat) (binary32.fracField b.toNat) := by
  by_cases hnormal : 113 ≤ binary32.expField b.toNat ∧ binary32.expField b.toNat ≤ 142
  · rw [f32ToF16Bits_normal hnormal.1 hnormal.2, halfBits, if_neg (by omega), if_neg (by omega),
      if_neg (by omega)]
    rfl
  have hsign := toNat_sign32 b
  have hexp := toNat_exp32 b
  have hfrac := toNat_frac32 b
  have hmlt : binary32.fracField b.toNat < 2 ^ 23 := Format.fracField_lt b.toNat
  rw [Format.IsFinite] at hfin
  unfold f32ToF16Bits
  generalize ((b >>> 16) &&& 0x8000).toUInt16 = sign at *
  generalize (b &&& 0x7FFFFF) = frac at *
  generalize binary32.signField b.toNat = s at *
  dsimp only
  rw [hexp]
  generalize binary32.expField b.toNat = e at *
  rw [← hfrac] at hmlt ⊢
  rw [if_neg (show ¬ e = 0xFF from hfin)]
  unfold halfBits
  by_cases hlarge : 143 ≤ e
  · have hinf : (0x7C00 : UInt16).toNat = 31 * 2 ^ 10 := rfl
    rw [if_pos (by omega), if_pos hlarge, UInt16.toNat_or, hsign, hinf]
    exact or_eq_add (show 31 * 2 ^ 10 < 2 ^ 15 by decide)
  rw [if_neg (by omega), if_neg hlarge, if_pos (by omega)]
  by_cases hsmall : e < 102
  · rw [if_pos (by omega), if_pos hsmall, hsign, Nat.add_zero]
  rw [if_neg (by omega), if_neg hsmall, if_pos (by omega)]
  have hshift : (1 - ((e : Int) - 127 + 15)).toNat = 113 - e := by omega
  have hm : ((frac ||| 0x800000) >>> UInt32.ofNat (113 - e)).toNat =
      (2 ^ 23 + frac.toNat) / 2 ^ (113 - e) := by
    have hor : (frac ||| 0x800000).toNat = 2 ^ 23 + frac.toNat := by
      rw [UInt32.toNat_or, Nat.lor_comm]
      have := or_eq_add (a := 1) hmlt
      rwa [Nat.one_mul] at this
    have hplaces : (UInt32.ofNat (113 - e)).toNat % 32 = 113 - e := by
      rw [UInt32.toNat_ofNat']
      omega
    rw [UInt32.toNat_shiftRight, hplaces, hor, Nat.shiftRight_eq_div_pow]
  have hlt := shifted_le (show e ≤ 112 by omega) hmlt
  have hround : ((((frac ||| 0x800000) >>> UInt32.ofNat (113 - e)) + 0x1000) >>> 13).toUInt16.toNat =
      ((2 ^ 23 + frac.toNat) / 2 ^ (113 - e) + 2 ^ 12) / 2 ^ 13 := by
    show ((((frac ||| 0x800000) >>> UInt32.ofNat (113 - e)).toNat + 0x1000) % 2 ^ 32) >>> 13 % 2 ^ 16 = _
    rw [hm, Nat.shiftRight_eq_div_pow]
    omega
  rw [hshift, UInt16.toNat_or, hsign, hround]
  exact or_eq_add (by omega)

/-! ### Back and forth -/

theorem expField_signed {s k : Nat} (hk : k < 2 ^ 15) :
    binary16.signField (s * 2 ^ 15 + k) = s ∧
      binary16.expField (s * 2 ^ 15 + k) = binary16.expField k ∧
      binary16.fracField (s * 2 ^ 15 + k) = binary16.fracField k := by
  refine ⟨?_, ?_, ?_⟩
  · show (s * 2 ^ 15 + k) / 2 ^ 15 = s
    omega
  · show (s * 2 ^ 15 + k) / 2 ^ 10 % 2 ^ 5 = k / 2 ^ 10 % 2 ^ 5
    omega
  · show (s * 2 ^ 15 + k) % 2 ^ 10 = k % 2 ^ 10
    omega

theorem value_signed {s k : Nat} (hk : k < 2 ^ 15) :
    binary16.value (s * 2 ^ 15 + k) = (-1) ^ s * binary16.value k := by
  obtain ⟨hs, he, hm⟩ := expField_signed (s := s) hk
  have hs0 : binary16.signField k = 0 := Nat.div_eq_of_lt hk
  rw [Format.value, Format.value, hs, he, hm, hs0, pow_zero, one_mul]

theorem roundedFields_exact {e m : Nat} (hm : m < 2 ^ 10) : roundedFields e (m * 2 ^ 13) = (e, m) := by
  have hkeep : (m * 2 ^ 13 + 0x1000) / 2 ^ 13 = m := by omega
  rw [roundedFields, hkeep, if_pos hm]

/-- The f32 of a finite f16, and what it is rounded to. -/
theorem f16BitsToF32_pack {h : UInt16} (hfin : binary16.IsFinite h.toNat) : ∃ E M,
    E < 2 ^ 8 - 1 ∧ M < 2 ^ 23 ∧
      (f16BitsToF32 h).toNat = binary32.pack (binary16.signField h.toNat) E M ∧
      halfBits E M = binary16.expField h.toNat * 2 ^ 10 + binary16.fracField h.toNat := by
  have helt : binary16.expField h.toNat < 2 ^ 5 := Format.expField_lt h.toNat
  have hmlt : binary16.fracField h.toNat < 2 ^ 10 := Format.fracField_lt h.toNat
  have hmax : binary16.expField h.toNat ≠ 31 := hfin
  have hword := f16BitsToF32_toNat hfin
  generalize binary16.signField h.toNat = s at *
  generalize binary16.expField h.toNat = e at *
  generalize binary16.fracField h.toNat = m at *
  dsimp only at hword
  split_ifs at hword with he hm
  · exact ⟨0, 0, by decide, by decide, hword, by simp [halfBits, he, hm]⟩
  · obtain ⟨hlog, hlow, hhigh⟩ := lead_bounds hm hmlt
    refine ⟨_, _, by omega, by omega, hword, ?_⟩
    have hlead : 2 ^ 23 + (m * 2 ^ (23 - m.log2) - 2 ^ 23) = m * 2 ^ 13 * 2 ^ (10 - m.log2) := by
      rw [Nat.add_sub_of_le hlow, Nat.mul_assoc, ← Nat.pow_add]
      congr 2
      omega
    have hplaces : 113 - (m.log2 + 103) = 10 - m.log2 := by omega
    rw [halfBits, if_neg (by omega), if_neg (by omega), if_pos (by omega), hlead, hplaces,
      Nat.mul_div_cancel _ (by positivity), he]
    omega
  · refine ⟨_, _, by omega, by omega, hword, ?_⟩
    rw [halfBits, if_neg (by omega), if_neg (by omega), if_neg (by omega), Nat.add_sub_cancel,
      roundedFields_exact hmlt]

/-- It is finite and has the sign. -/
theorem f16BitsToF32_finite {h : UInt16} (hfin : binary16.IsFinite h.toNat) :
    binary32.IsFinite (f16BitsToF32 h).toNat ∧
      binary32.signField (f16BitsToF32 h).toNat = binary16.signField h.toNat := by
  obtain ⟨E, M, hE, hM, hpack, -⟩ := f16BitsToF32_pack hfin
  obtain ⟨hs, he, -⟩ := Format.fields_pack (f := binary32) (s := binary16.signField h.toNat)
    (show E < 2 ^ 8 by omega) (show M < 2 ^ 23 from hM)
  rw [hpack]
  refine ⟨?_, hs⟩
  rw [Format.IsFinite, he]
  exact hE.ne

/-- **From f16 to f32 and back**: every word but the NaNs is kept. -/
theorem f32ToF16Bits_f16BitsToF32 {h : UInt16}
    (hnum : binary16.expField h.toNat = 31 → binary16.fracField h.toNat = 0) :
    f32ToF16Bits (f16BitsToF32 h) = h := by
  by_cases hfin : binary16.IsFinite h.toNat
  · have hfin32 := f16BitsToF32_finite hfin
    obtain ⟨E, M, hE, hM, hpack, hbits⟩ := f16BitsToF32_pack hfin
    obtain ⟨-, he, hm⟩ := Format.fields_pack (f := binary32) (s := binary16.signField h.toNat)
      (show E < 2 ^ 8 by omega) (show M < 2 ^ 23 from hM)
    refine UInt16.toNat_inj.mp ?_
    rw [f32ToF16Bits_toNat hfin32.1, hfin32.2, hpack, he, hm, hbits]
    exact Format.pack_fields (f := binary16) h.toNat
  · -- an infinity
    have hlt := h.toNat_lt
    have hmax : h.toNat / 2 ^ 10 % 2 ^ 5 = 31 := not_not.mp hfin
    have hfrac : h.toNat % 2 ^ 10 = 0 := hnum hmax
    have hinf : h = 0x7C00 ∨ h = 0xFC00 := by
      have hword : h.toNat = 0x7C00 ∨ h.toNat = 0xFC00 := by omega
      exact hword.imp (fun heq => UInt16.toNat_inj.mp heq) fun heq => UInt16.toNat_inj.mp heq
    rcases hinf with rfl | rfl
    · decide
    · decide

/-- A number that was rounded is rounded to itself. -/
theorem f16Round_f16BitsToF32 {h : UInt16}
    (hnum : binary16.expField h.toNat = 31 → binary16.fracField h.toNat = 0) :
    f16Round (f16BitsToF32 h) = f16BitsToF32 h := by
  rw [f16Round, f32ToF16Bits_f16BitsToF32 hnum]

/-! ### Units of the last place -/

/-- The exponent field of the f16 less one, before a carry. -/
def halfExp (e : Nat) : Nat := max e 113 - 113

/-- The units of the last place that a number is rounded to. -/
def halfCount (e m : Nat) : Nat :=
  if e < 102 then 0
  else if e ≤ 112 then ((2 ^ 23 + m) / 2 ^ (113 - e) + 2 ^ 12) / 2 ^ 13
  else (2 ^ 23 + m + 2 ^ 12) / 2 ^ 13

/-- A number in units of the last place of the f16. -/
def halfUnits (e m : Nat) : ℚ := binary32.magnitude e m / 2 ^ (halfExp e - 24 : ℤ)

theorem halfUnits_mul (e m : Nat) :
    halfUnits e m * 2 ^ (halfExp e - 24 : ℤ) = binary32.magnitude e m :=
  div_mul_cancel₀ _ (by positivity)

/-- Halves are rounded up. -/
theorem abs_halfUp_sub {a d : Nat} (hd : 0 < d) :
    |(((a + d) / (2 * d) : ℕ) : ℚ) - a / (2 * d : ℕ)| ≤ 1 / 2 := by
  have hdiv := Nat.div_add_mod (a + d) (2 * d)
  have hmod := Nat.mod_lt (a + d) (show 0 < 2 * d by omega)
  have hd' : (0 : ℚ) < (2 * d : ℕ) := by exact_mod_cast (by omega : 0 < 2 * d)
  have hlow : ((2 * d : ℕ) : ℚ) * ((a + d) / (2 * d) : ℕ) ≤ a + d := by
    exact_mod_cast (by omega : 2 * d * ((a + d) / (2 * d)) ≤ a + d)
  have hhigh : (a : ℚ) ≤ (2 * d : ℕ) * ((a + d) / (2 * d) : ℕ) + d := by
    exact_mod_cast (by omega : a ≤ 2 * d * ((a + d) / (2 * d)) + d)
  have hquot : (a : ℚ) / (2 * d : ℕ) * (2 * d : ℕ) = a := div_mul_cancel₀ _ hd'.ne'
  have htwo : ((2 * d : ℕ) : ℚ) = 2 * d := by push_cast; ring
  rw [abs_le]
  constructor
  · nlinarith
  · nlinarith

theorem magnitude_normal {e : Nat} (he : e ≠ 0) (m : Nat) :
    binary32.magnitude e m = ((2 ^ 23 + m : ℕ) : ℚ) * 2 ^ (e - 150 : ℤ) := by
  have hexp : (e - binary32.bias - binary32.fracBits : ℤ) = e - 150 := by
    show (e - 127 - 23 : ℤ) = e - 150
    ring
  rw [Format.magnitude, if_neg he, hexp]
  push_cast
  rfl

theorem div_units (a : ℚ) {x y z : ℤ} (h : x + z = y) : a * 2 ^ x / 2 ^ y = a / 2 ^ z := by
  rw [div_eq_div_iff (by positivity) (by positivity), mul_assoc, ← zpow_add₀ two_ne_zero, h]

theorem cast_double_pow (k : ℕ) : ((2 * 2 ^ k : ℕ) : ℚ) = 2 ^ (k + 1 : ℤ) := by
  rw [zpow_add_one₀ two_ne_zero, zpow_natCast]
  push_cast
  ring

/-- The count is the number of units, rounded. -/
theorem abs_halfCount_sub {e m : Nat} (hm : m < 2 ^ 23) :
    |(halfCount e m : ℚ) - halfUnits e m| ≤ 1 / 2 := by
  unfold halfCount halfUnits halfExp
  split_ifs with hsmall hsub
  · have hunit : ((max e 113 - 113 : ℕ) - 24 : ℤ) = -24 := by omega
    have hlt : binary32.magnitude e m < binary32.magnitude 102 0 :=
      Format.magnitude_lt hm (Or.inl hsmall)
    have hleast : binary32.magnitude 102 0 / 2 ^ (-24 : ℤ) = 1 / 2 := by
      rw [magnitude_normal (by decide), div_units _ (show (102 : ℕ) - 150 + 24 = (-24 : ℤ) by decide)]
      norm_num
    have hle : binary32.magnitude e m / 2 ^ (-24 : ℤ) ≤ 1 / 2 := by
      rw [← hleast]
      exact div_le_div_of_nonneg_right hlt.le (by positivity)
    have hpos : 0 ≤ binary32.magnitude e m / 2 ^ (-24 : ℤ) :=
      div_nonneg Format.magnitude_nonneg (by positivity)
    rw [hunit, Nat.cast_zero, zero_sub, abs_neg, abs_of_nonneg hpos]
    exact hle
  · obtain ⟨k, hk⟩ : ∃ k, e + k = 125 := ⟨125 - e, by omega⟩
    have hunit : ((max e 113 - 113 : ℕ) - 24 : ℤ) = -24 := by omega
    have hplaces : k = 12 + (113 - e) := by omega
    have hcount : ((2 ^ 23 + m) / 2 ^ (113 - e) + 2 ^ 12) / 2 ^ 13 =
        (2 ^ 23 + m + 2 ^ k) / (2 * 2 ^ k) := by
      have hhalf : 2 ^ k = 2 ^ 12 * 2 ^ (113 - e) := by
        rw [hplaces]
        exact Nat.pow_add 2 12 (113 - e)
      have hfull : 2 * 2 ^ k = 2 ^ (113 - e) * 2 ^ 13 := by
        rw [hhalf]
        ring
      rw [hfull, ← Nat.div_div_eq_div_mul, hhalf, Nat.add_mul_div_right _ _ (by positivity)]
    rw [hunit, hcount, magnitude_normal (by omega),
      div_units _ (show (e - 150 : ℤ) + (k + 1) = -24 by omega), ← cast_double_pow]
    exact abs_halfUp_sub (by positivity)
  · have hunit : ((max e 113 - 113 : ℕ) - 24 : ℤ) = e - 137 := by omega
    rw [hunit, magnitude_normal (by omega),
      div_units _ (show (e - 150 : ℤ) + ((12 : ℕ) + 1) = e - 137 by push_cast; ring),
      ← cast_double_pow]
    exact abs_halfUp_sub (by positivity)

/-! ### The nearest half -/

/-- A carry into the exponent is lost. -/
def LosesCarry (b : UInt32) : Prop :=
  113 ≤ binary32.expField b.toNat ∧ binary32.expField b.toNat ≤ 142 ∧ CarryLost b

instance (b : UInt32) : Decidable (LosesCarry b) := inferInstanceAs (Decidable (_ ∧ _ ∧ _))

theorem halfCount_lead (e : Nat) {m : Nat} (hm : m < 2 ^ 23) : halfCount e m ≤ 2 ^ (10 + 1) ∧
    (halfExp e = 0 ∨ 2 ^ 10 ≤ halfCount e m) ∧
      (halfExp e = 0 ∨ 2 ^ 10 ≤ halfUnits e m) := by
  have hsub : e ≤ 112 → (2 ^ 23 + m) / 2 ^ (113 - e) < 2 ^ 23 := fun he => shifted_le he hm
  refine ⟨?_, ?_, ?_⟩
  · unfold halfCount
    split_ifs with hsmall hle
    · exact Nat.zero_le _
    · have := hsub hle
      omega
    · omega
  · by_cases he : e ≤ 113
    · exact Or.inl (by unfold halfExp; omega)
    · right
      rw [halfCount, if_neg (by omega), if_neg (by omega)]
      omega
  · by_cases he : e ≤ 113
    · exact Or.inl (by unfold halfExp; omega)
    · right
      have hunit : (halfExp e - 24 : ℤ) = e - 137 := by unfold halfExp; omega
      rw [halfUnits, hunit, magnitude_normal (by omega),
        div_units _ (show (e - 150 : ℤ) + 13 = e - 137 by ring), le_div_iff₀ (by positivity)]
      have hlead : ((2 ^ 23 : ℕ) : ℚ) ≤ (2 ^ 23 + m : ℕ) := by exact_mod_cast Nat.le_add_right _ _
      refine le_trans ?_ hlead
      norm_num

/-- But for a carry that is lost, the word is the count after the exponent. -/
theorem halfBits_eq {e m : Nat} (he : e ≤ 142) (hm : m < 2 ^ 23)
    (hkept : ¬ (113 ≤ e ∧ e % 2 = 1 ∧ 0x7FF000 ≤ m)) :
    halfBits e m = halfExp e * 2 ^ 10 + halfCount e m := by
  unfold halfBits halfCount halfExp
  rw [if_neg (by omega)]
  split_ifs with hsmall hsub
  · omega
  · omega
  · simp only [roundedFields]
    split_ifs <;> omega

theorem halfBits_lost {e m : Nat} (hlow : 113 ≤ e) (hhigh : e ≤ 142) (hodd : e % 2 = 1)
    (hm : m < 2 ^ 23) (htop : 0x7FF000 ≤ m) : halfBits e m = halfExp e * 2 ^ 10 + 2 ^ 10 := by
  unfold halfBits halfExp
  rw [if_neg (by omega), if_neg (by omega), if_neg (by omega), roundedFields]
  split_ifs <;> omega

theorem halfBits_finite {e m : Nat} (hm : m < 2 ^ 23) (hsmall : e < 142 ∨ e = 142 ∧ m < 0x7FF000) :
    halfBits e m < 31 * 2 ^ 10 := by
  unfold halfBits
  rw [if_neg (by omega)]
  split_ifs with hzero hsub
  · decide
  · have := shifted_le hsub hm
    omega
  · simp only [roundedFields]
    split_ifs <;> omega

theorem unit_half (k : Nat) : (k + 1 - binary16.bias - binary16.fracBits : ℤ) = k - 24 := by
  show (k + 1 - 15 - 10 : ℤ) = _
  ring

/-- The value of a word below the infinities, counted in units. -/
theorem value_half {k n : Nat} (hn : n ≤ 2 ^ (10 + 1)) (hlead : k = 0 ∨ 2 ^ 10 ≤ n) (hk : k ≤ 29) :
    binary16.value (k * 2 ^ 10 + n) = n * 2 ^ (k - 24 : ℤ) := by
  have hvalue := Format.value_significand (f := binary16) (e := k) hn hlead
    (by show k + 2 < 2 ^ 5; omega)
  rwa [unit_half] at hvalue

theorem finite_of_lt {k : Nat} (hk : k < 31 * 2 ^ 10) : binary16.IsFinite k := by
  show k / 2 ^ 10 % 2 ^ 5 ≠ 31
  omega

theorem halfBits_nearest {e m : Nat} (hm : m < 2 ^ 23) (hsmall : e < 142 ∨ e = 142 ∧ m < 0x7FF000)
    (hkept : ¬ (113 ≤ e ∧ e % 2 = 1 ∧ 0x7FF000 ≤ m)) :
    binary16.IsNearest (binary32.magnitude e m) (halfBits e m) := by
  have hfin := halfBits_finite hm hsmall
  obtain ⟨hcount, hlead, hunits⟩ := halfCount_lead e hm
  have hnear := abs_halfCount_sub (e := e) hm
  rw [halfBits_eq (by omega) hm hkept] at hfin ⊢
  unfold halfUnits at hunits hnear
  rw [← unit_half (halfExp e)] at hunits hnear
  exact Format.significand_nearest (f := binary16) hcount hlead
    (by show halfExp e + 2 < 2 ^ 5; unfold halfExp; omega) (finite_of_lt hfin) hunits hnear

/-- The numbers that are not too large are told by the fields. -/
theorem small_iff {e m : Nat} (hm : m < 2 ^ 23) :
    binary32.magnitude e m < 65520 ↔ e < 142 ∨ e = 142 ∧ m < 0x7FF000 := by
  have hend : binary32.magnitude 142 0x7FF000 = 65520 := by
    rw [magnitude_normal (by decide)]
    norm_num
  rw [← hend]
  constructor
  · intro hlt
    by_contra hlarge
    by_cases heq : e = 142 ∧ m = 0x7FF000
    · rw [heq.1, heq.2] at hlt
      exact lt_irrefl _ hlt
    · have hgt : binary32.magnitude 142 0x7FF000 < binary32.magnitude e m :=
        Format.magnitude_lt (by decide) (by omega)
      exact lt_asymm hlt hgt
  · exact Format.magnitude_lt hm

theorem sign_cases (b : UInt32) :
    binary32.signField b.toNat = 0 ∨ binary32.signField b.toNat = 1 := by
  have hlt := b.toNat_lt
  show b.toNat / 2 ^ 31 = 0 ∨ b.toNat / 2 ^ 31 = 1
  omega

variable {b b' : UInt32}

/-- **`f32_to_f16_bits` answers a nearest half**, unless it loses a carry. -/
theorem f32ToF16Bits_nearest (hfin : binary32.IsFinite b.toNat)
    (hsmall : |binary32.value b.toNat| < 65520) (hkept : ¬ LosesCarry b) :
    binary16.IsNearest (binary32.value b.toNat) (f32ToF16Bits b).toNat := by
  have hm : binary32.fracField b.toNat < 2 ^ 23 := Format.fracField_lt b.toNat
  rw [Format.abs_value, small_iff hm] at hsmall
  have hnear := halfBits_nearest hm hsmall
    (fun hlost => hkept ⟨hlost.1, by omega, hlost.2.1, hlost.2.2⟩)
  have hbits := f32ToF16Bits_toNat hfin
  rw [hbits, Format.value]
  rcases sign_cases b with hs | hs
  · rw [hs, Nat.zero_mul, Nat.zero_add, pow_zero, one_mul]
    exact hnear
  · rw [hs, Nat.one_mul, pow_one, neg_one_mul]
    exact hnear.neg

/-- What a number that is not too large is rounded to. -/
theorem f16Round_half (hfin : binary32.IsFinite b.toNat) (hsmall : |binary32.value b.toNat| < 65520) :
    binary16.IsFinite (f32ToF16Bits b).toNat ∧ binary32.IsFinite (f16Round b).toNat ∧
      binary32.signField (f16Round b).toNat = binary32.signField b.toNat ∧
      binary32.value (f16Round b).toNat = (-1) ^ binary32.signField b.toNat *
        binary16.value (halfBits (binary32.expField b.toNat) (binary32.fracField b.toNat)) := by
  have hm : binary32.fracField b.toNat < 2 ^ 23 := Format.fracField_lt b.toNat
  rw [Format.abs_value, small_iff hm] at hsmall
  have hlt := halfBits_finite hm hsmall
  have hlt' : halfBits (binary32.expField b.toNat) (binary32.fracField b.toNat) < 2 ^ 15 := by omega
  have hbits := f32ToF16Bits_toNat hfin
  obtain ⟨hs, he, -⟩ := expField_signed (s := binary32.signField b.toNat) hlt'
  rw [← hbits] at hs he
  have hhalf : binary16.IsFinite (f32ToF16Bits b).toNat := by
    rw [Format.IsFinite, he]
    exact finite_of_lt hlt
  obtain ⟨hround, hsign⟩ := f16BitsToF32_finite hhalf
  refine ⟨hhalf, hround, hsign.trans hs, ?_⟩
  rw [f16Round, f16BitsToF32_value hhalf, hbits, value_signed hlt']

theorem f16Round_large (hfin : binary32.IsFinite b.toNat) (hlarge : 65520 ≤ |binary32.value b.toNat|) :
    (f16Round b).toNat = binary32.pack (binary32.signField b.toNat) 255 0 := by
  have hm : binary32.fracField b.toNat < 2 ^ 23 := Format.fracField_lt b.toNat
  rw [← not_lt, Format.abs_value, small_iff hm] at hlarge
  have hinf : halfBits (binary32.expField b.toNat) (binary32.fracField b.toNat) = 31 * 2 ^ 10 := by
    unfold halfBits
    split_ifs
    · rfl
    · omega
    · omega
    · rw [roundedFields]
      split_ifs <;> omega
  have hbits := f32ToF16Bits_toNat hfin
  rw [hinf] at hbits
  rcases sign_cases b with hs | hs
  · have hword : f32ToF16Bits b = 0x7C00 := UInt16.toNat_inj.mp (by rw [hbits, hs]; rfl)
    rw [f16Round, hword, hs]
    decide
  · have hword : f32ToF16Bits b = 0xFC00 := UInt16.toNat_inj.mp (by rw [hbits, hs]; rfl)
    rw [f16Round, hword, hs]
    decide

/-- A finite number is rounded to a nearest half and keeps its sign. -/
structure RoundsToNearest (b : UInt32) : Prop where
  half : binary16.IsFinite (f32ToF16Bits b).toNat
  finite : binary32.IsFinite (f16Round b).toNat
  sign : binary32.signField (f16Round b).toNat = binary32.signField b.toNat
  nearest : ∀ h : UInt16, binary16.IsFinite h.toNat →
    |binary32.value (f16Round b).toNat - binary32.value b.toNat| ≤
      |binary32.value (f16BitsToF32 h).toNat - binary32.value b.toNat|

theorem abs_signed_sub (s : Nat) (x y : ℚ) : |(-1) ^ s * x - (-1) ^ s * y| = |x - y| := by
  rw [← mul_sub, abs_mul, abs_pow, abs_neg, abs_one, one_pow, one_mul]

/-- A number half a unit from the end of a binade is far from its start. -/
theorem nearer_end {x u : ℚ} (hu : 0 < u) (hnear : |((2 ^ 11 : ℕ) : ℚ) - x| ≤ 1 / 2) :
    |((2 ^ 11 : ℕ) : ℚ) * u - x * u| < |((2 ^ 10 : ℕ) : ℚ) * u - x * u| := by
  rw [← sub_mul, ← sub_mul, abs_mul, abs_mul]
  refine mul_lt_mul_of_pos_right ?_ (abs_pos.mpr hu.ne')
  have hend : ((2 ^ 11 : ℕ) : ℚ) = 2048 := by norm_num
  have hstart : ((2 ^ 10 : ℕ) : ℚ) = 1024 := by norm_num
  rw [hend] at hnear ⊢
  rw [hstart]
  obtain ⟨hlow, hhigh⟩ := abs_le.mp hnear
  calc |2048 - x| ≤ 1 / 2 := hnear
    _ < x - 1024 := by linarith
    _ ≤ |1024 - x| := by
        rw [abs_sub_comm]
        exact le_abs_self _

/-- The halves of a binade. -/
theorem exists_half {s k n : Nat} (hs : s ≤ 1) (hk : k ≤ 28) (hlow : 2 ^ 10 ≤ n)
    (hhigh : n ≤ 2 ^ (10 + 1)) : ∃ w : UInt16, binary16.IsFinite w.toNat ∧
      binary16.value w.toNat = (-1) ^ s * (n * 2 ^ (k - 24 : ℤ)) := by
  have hbelow : k * 2 ^ 10 + n < 31 * 2 ^ 10 := by omega
  have hlt : k * 2 ^ 10 + n < 2 ^ 15 := by omega
  have hsize : s * 2 ^ 15 + (k * 2 ^ 10 + n) < 2 ^ 16 :=
    calc s * 2 ^ 15 + (k * 2 ^ 10 + n) < 1 * 2 ^ 15 + 2 ^ 15 :=
          Nat.add_lt_add_of_le_of_lt (Nat.mul_le_mul_right _ hs) hlt
      _ = 2 ^ 16 := rfl
  have hw : (UInt16.ofNat (s * 2 ^ 15 + (k * 2 ^ 10 + n))).toNat = s * 2 ^ 15 + (k * 2 ^ 10 + n) := by
    rw [UInt16.toNat_ofNat', Nat.mod_eq_of_lt hsize]
  refine ⟨UInt16.ofNat (s * 2 ^ 15 + (k * 2 ^ 10 + n)), ?_, ?_⟩
  · rw [hw, Format.IsFinite, (expField_signed hlt).2.1]
    exact finite_of_lt hbelow
  · rw [hw, value_signed hlt, value_half hhigh (Or.inr hlow) (by omega)]

/-- Where the carry is lost the number is at the end of a binade and rounded to its start. -/
theorem LosesCarry.units (h : LosesCarry b) (hfin : binary32.IsFinite b.toNat) :
    |binary32.value b.toNat| < 65520 ∧ ∃ (k : Nat) (x : ℚ), k ≤ 28 ∧
      |((2 ^ 11 : ℕ) : ℚ) - x| ≤ 1 / 2 ∧
      binary32.value b.toNat = (-1) ^ binary32.signField b.toNat * (x * 2 ^ (k - 24 : ℤ)) ∧
      binary32.IsFinite (f16Round b).toNat ∧ binary32.value (f16Round b).toNat =
        (-1) ^ binary32.signField b.toNat * ((2 ^ 10 : ℕ) * 2 ^ (k - 24 : ℤ)) := by
  obtain ⟨hlow, hhigh, hodd, htop⟩ := h
  have hm : binary32.fracField b.toNat < 2 ^ 23 := Format.fracField_lt b.toNat
  have hsmall : |binary32.value b.toNat| < 65520 := by
    rw [Format.abs_value, small_iff hm]
    omega
  have hround := (f16Round_half hfin hsmall).2
  have hexp : halfExp (binary32.expField b.toNat) ≤ 28 := by
    unfold halfExp
    omega
  have hcount : halfCount (binary32.expField b.toNat) (binary32.fracField b.toNat) = 2 ^ 11 := by
    rw [halfCount, if_neg (by omega), if_neg (by omega)]
    omega
  have hnear := abs_halfCount_sub (e := binary32.expField b.toNat) hm
  rw [hcount] at hnear
  refine ⟨hsmall, _, _, hexp, hnear, ?_, hround.1, ?_⟩
  · rw [halfUnits_mul, Format.value]
  · rw [hround.2.2, halfBits_lost hlow hhigh hodd hm htop,
      value_half (by decide) (Or.inr le_rfl) (by omega)]

/-- The end of the binade is nearer. -/
theorem LosesCarry.not_nearest (h : LosesCarry b) (hfin : binary32.IsFinite b.toNat) :
    ∃ w : UInt16, binary16.IsFinite w.toNat ∧
      |binary32.value (f16BitsToF32 w).toNat - binary32.value b.toNat| <
        |binary32.value (f16Round b).toNat - binary32.value b.toNat| := by
  obtain ⟨-, k, x, hk, hnear, hvalue, -, hround⟩ := h.units hfin
  obtain ⟨w, hw, hend⟩ := exists_half (s := binary32.signField b.toNat) (n := 2 ^ 11)
    (by have := sign_cases b; omega) hk (by decide) le_rfl
  refine ⟨w, hw, ?_⟩
  rw [f16BitsToF32_value hw, hend, hround, hvalue, abs_signed_sub, abs_signed_sub]
  exact nearer_end (by positivity) hnear

/-- **Which numbers are rounded to nearest.** -/
theorem roundsToNearest_iff (hfin : binary32.IsFinite b.toNat)
    (hsmall : |binary32.value b.toNat| < 65520) : RoundsToNearest b ↔ ¬ LosesCarry b := by
  constructor
  · intro hround hlost
    obtain ⟨w, hw, hlt⟩ := hlost.not_nearest hfin
    exact absurd (hround.nearest w hw) (not_le.mpr hlt)
  · intro hkept
    have hnear := f32ToF16Bits_nearest hfin hsmall hkept
    obtain ⟨hhalf, hround, hsign, -⟩ := f16Round_half hfin hsmall
    refine ⟨hhalf, hround, hsign, ?_⟩
    intro w hw
    rw [f16Round, f16BitsToF32_value hhalf, f16BitsToF32_value hw]
    exact hnear.least w.toNat hw

/-! ### Order -/

theorem extended_finite {w : Nat} (hfin : binary32.IsFinite w) :
    binary32.extended w = ((binary32.value w : WithTop ℚ) : WithBot (WithTop ℚ)) := if_pos hfin

theorem extended_large (hfin : binary32.IsFinite b.toNat)
    (hlarge : 65520 ≤ |binary32.value b.toNat|) : binary32.extended (f16Round b).toNat =
      if 0 < binary32.value b.toNat then ((⊤ : WithTop ℚ) : WithBot (WithTop ℚ)) else ⊥ := by
  have hpos : 0 < binary32.magnitude (binary32.expField b.toNat) (binary32.fracField b.toNat) := by
    rw [← Format.abs_value]
    linarith
  have hvalue : binary32.value b.toNat = (-1) ^ binary32.signField b.toNat *
      binary32.magnitude (binary32.expField b.toNat) (binary32.fracField b.toNat) := rfl
  rw [f16Round_large hfin hlarge]
  rcases sign_cases b with hs | hs
  · rw [hs, pow_zero, one_mul] at hvalue
    rw [hs, if_pos (by rw [hvalue]; exact hpos)]
    rfl
  · rw [hs, pow_one, neg_one_mul] at hvalue
    rw [hs, if_neg (by rw [hvalue]; linarith)]
    rfl

/-- Equal numbers are rounded to equal ones. -/
theorem value_f16Round_congr (hfin : binary32.IsFinite b.toNat) (hfin' : binary32.IsFinite b'.toNat)
    (hsmall : |binary32.value b.toNat| < 65520)
    (heq : binary32.value b.toNat = binary32.value b'.toNat) :
    binary32.value (f16Round b).toNat = binary32.value (f16Round b').toNat := by
  have hround := (f16Round_half hfin hsmall).2.2.2
  have hround' := (f16Round_half hfin' (heq ▸ hsmall)).2.2.2
  have habs := congrArg (fun q => |q|) heq
  simp only [Format.abs_value] at habs
  obtain ⟨he, hm⟩ := Format.magnitude_inj (f := binary32) (Format.fracField_lt _)
    (Format.fracField_lt _) habs
  rw [hround, hround', ← he, ← hm]
  rw [Format.value, Format.value, ← he, ← hm] at heq
  -- signs differ at zero only
  rcases mul_eq_mul_right_iff.mp heq with hsign | hzero
  · rw [hsign]
  · have hzero' : binary32.magnitude (binary32.expField b.toNat) (binary32.fracField b.toNat) =
        binary32.magnitude 0 0 := by
      rw [hzero]
      simp [Format.magnitude]
    obtain ⟨he0, hm0⟩ := Format.magnitude_inj (f := binary32) (Format.fracField_lt _) (by decide) hzero'
    have hbits : binary16.value (halfBits 0 0) = 0 := by decide +kernel
    rw [he0, hm0, hbits, mul_zero, mul_zero]

/-- Rounding two numbers keeps their order. -/
def KeepsOrder (b b' : UInt32) : Prop :=
  (binary32.value b.toNat ≤ binary32.value b'.toNat →
    binary32.extended (f16Round b).toNat ≤ binary32.extended (f16Round b').toNat) ∧
  (binary32.value b'.toNat ≤ binary32.value b.toNat →
    binary32.extended (f16Round b').toNat ≤ binary32.extended (f16Round b).toNat)

theorem extended_mono (hfin : binary32.IsFinite b.toNat) (hfin' : binary32.IsFinite b'.toNat)
    (hkept : ¬ LosesCarry b) (hkept' : ¬ LosesCarry b')
    (hle : binary32.value b.toNat ≤ binary32.value b'.toNat) :
    binary32.extended (f16Round b).toNat ≤ binary32.extended (f16Round b').toNat := by
  by_cases hsmall : |binary32.value b.toNat| < 65520
  · have hround := f16Round_half hfin hsmall
    by_cases hsmall' : |binary32.value b'.toNat| < 65520
    · have hround' := f16Round_half hfin' hsmall'
      rw [extended_finite hround.2.1, extended_finite hround'.2.1, WithBot.coe_le_coe,
        WithTop.coe_le_coe]
      rcases hle.lt_or_eq with hlt | heq
      · rw [f16Round, f16Round, f16BitsToF32_value hround.1, f16BitsToF32_value hround'.1]
        exact (f32ToF16Bits_nearest hfin hsmall hkept).mono
          (f32ToF16Bits_nearest hfin' hsmall' hkept') hlt
      · exact (value_f16Round_congr hfin hfin' hsmall heq).le
    · -- only the upper one is too large
      have hpos : 0 < binary32.value b'.toNat := by
        rw [abs_lt] at hsmall
        by_contra hneg
        rw [abs_of_nonpos (not_lt.mp hneg)] at hsmall'
        linarith
      rw [extended_large hfin' (not_lt.mp hsmall'), if_pos hpos, extended_finite hround.2.1,
        WithBot.coe_le_coe]
      exact le_top
  · rw [extended_large hfin (not_lt.mp hsmall)]
    split_ifs with hpos
    · rw [abs_of_pos hpos] at hsmall
      have hpos' : 0 < binary32.value b'.toNat := hpos.trans_le hle
      rw [extended_large hfin' (by rw [abs_of_pos hpos']; linarith), if_pos hpos']
    · exact bot_le

theorem exact_roundsToNearest {w : UInt16} (hw : binary16.IsFinite w.toNat) :
    RoundsToNearest (f16BitsToF32 w) := by
  have hback := f32ToF16Bits_f16BitsToF32 (h := w) (fun hmax => absurd hmax hw)
  have hround := f16Round_f16BitsToF32 (h := w) (fun hmax => absurd hmax hw)
  refine ⟨?_, ?_, ?_, ?_⟩
  · rw [hback]
    exact hw
  · rw [hround]
    exact (f16BitsToF32_finite hw).1
  · rw [hround]
  · intro v _
    rw [hround, sub_self, abs_zero]
    exact abs_nonneg _

/-- A number with a lost carry falls below smaller ones. -/
theorem LosesCarry.not_keepsOrder (h : LosesCarry b) (hfin : binary32.IsFinite b.toNat) :
    ∃ b', binary32.IsFinite b'.toNat ∧ ¬ LosesCarry b' ∧ ¬ KeepsOrder b b' := by
  obtain ⟨hsmall, k, x, hk, hnear, hvalue, hround, hstart⟩ := h.units hfin
  obtain ⟨w, hw, hnext⟩ := exists_half (s := binary32.signField b.toNat) (n := 2 ^ 10 + 1)
    (by have := sign_cases b; omega) hk (by decide) (by decide)
  have hkeep := f16Round_f16BitsToF32 (h := w) (fun hmax => absurd hmax hw)
  have hfin' := (f16BitsToF32_finite hw).1
  rw [← f16BitsToF32_value hw] at hnext
  have hu : (0 : ℚ) < 2 ^ (k - 24 : ℤ) := by positivity
  generalize (2 : ℚ) ^ (k - 24 : ℤ) = u at *
  have hxlow : (1025 : ℚ) < x := by
    have hend : ((2 ^ 11 : ℕ) : ℚ) = 2048 := by norm_num
    rw [hend] at hnear
    linarith [(abs_le.mp hnear).2]
  have hn : ((2 ^ 10 + 1 : ℕ) : ℚ) = 1025 := by norm_num
  have hn' : ((2 ^ 10 : ℕ) : ℚ) = 1024 := by norm_num
  rw [hn] at hnext
  rw [hn'] at hstart
  have hless : 1025 * u < x * u := mul_lt_mul_of_pos_right hxlow hu
  have hfar : 1024 * u < 1025 * u := mul_lt_mul_of_pos_right (by norm_num) hu
  have hsmall' : |binary32.value (f16BitsToF32 w).toNat| < 65520 := by
    refine lt_trans ?_ hsmall
    rw [hnext, hvalue, abs_mul, abs_mul _ (x * u), abs_pow, abs_neg, abs_one, one_pow, one_mul,
      one_mul, abs_of_pos (by positivity), abs_of_pos (by positivity)]
    exact hless
  refine ⟨f16BitsToF32 w, hfin', (roundsToNearest_iff hfin' hsmall').mp (exact_roundsToNearest hw), ?_⟩
  rintro ⟨hup, hdown⟩
  rw [hkeep, extended_finite hfin', extended_finite hround, WithBot.coe_le_coe,
    WithTop.coe_le_coe] at hup hdown
  rw [hnext, hvalue, hstart] at hup hdown
  rcases sign_cases b with hs | hs
  · rw [hs, pow_zero, one_mul, one_mul, one_mul] at hdown
    exact absurd (hdown hless.le) (not_le.mpr hfar)
  · rw [hs, pow_one, neg_one_mul, neg_one_mul, neg_one_mul] at hup
    exact absurd (hup (neg_le_neg hless.le)) (not_le.mpr (neg_lt_neg hfar))

/-- **Where halves are rounded to nearest and in order**: below 65520 where no carry is
lost; from there the infinity; and in the order of the numbers where neither loses one. -/
theorem f16Round_nearest_iff (hfin : binary32.IsFinite b.toNat) :
    (|binary32.value b.toNat| < 65520 → (RoundsToNearest b ↔ ¬ LosesCarry b)) ∧
    (65520 ≤ |binary32.value b.toNat| →
      (f16Round b).toNat = binary32.pack (binary32.signField b.toNat) 255 0) ∧
    ((∀ b', binary32.IsFinite b'.toNat → ¬ LosesCarry b' → KeepsOrder b b') ↔ ¬ LosesCarry b) := by
  refine ⟨roundsToNearest_iff hfin, f16Round_large hfin, ?_⟩
  constructor
  · intro hkeeps hlost
    obtain ⟨b', hfin', hkept', hbreaks⟩ := hlost.not_keepsOrder hfin
    exact hbreaks (hkeeps b' hfin' hkept')
  · intro hkept b' hfin' hkept'
    exact ⟨extended_mono hfin hfin' hkept hkept', extended_mono hfin' hfin hkept' hkept⟩

theorem f16Round_nearest_one : binary32.IsFinite (0x3F800000 : UInt32).toNat ∧
    (∀ b', binary32.IsFinite b'.toNat → ¬ LosesCarry b' → KeepsOrder 0x3F800000 b') := by
  have hfin : binary32.IsFinite (0x3F800000 : UInt32).toNat := by decide
  exact ⟨hfin, (f16Round_nearest_iff hfin).2.2.mpr (by decide)⟩

/-- A number just below 2 is rounded to 1. -/
theorem f16Round_halves : binary32.IsFinite (0x3FFFF000 : UInt32).toNat ∧
    |binary32.value (0x3FFFF000 : UInt32).toNat| < 65520 ∧ ¬ RoundsToNearest 0x3FFFF000 := by
  refine ⟨by decide, by decide +kernel, ?_⟩
  intro hround
  have hnear := hround.nearest 0x4000 (by decide)
  revert hnear
  decide +kernel

end LlmPager
