import LlmPager.Core.Dequant

/-!
# LlmPager.Core.HalfFloat

The f16 conversions of `quant.rs` as numbers. `f16_bits_to_f32` is exact
(`f16BitsToF32_value`). `f32_to_f16_bits` rounds the fraction of a normal number to ten
bits and puts it under the exponent with `|` (`f32ToF16Bits_normal`): where the rounding
carries into the exponent, the carry is lost if the exponent is odd.
-/

namespace LlmPager

open Lib (Format binary16 binary32 or_eq_add)

/-! ### f16 to f32 -/

theorem toNat_sign (h : UInt16) : ((h &&& 0x8000).toUInt32 <<< 16).toNat =
    binary16.signField h.toNat * 2 ^ 31 := by
  have hlt := h.toNat_lt
  have hbit : h.toNat &&& 2 ^ 15 = h.toNat / 2 ^ 15 * 2 ^ 15 := by
    rw [Nat.and_two_pow, Nat.toNat_testBit, Nat.mod_eq_of_lt (by omega)]
  have hsign : h.toNat / 2 ^ 15 ≤ 1 := by omega
  show ((h.toNat &&& 2 ^ 15) <<< 16) % 2 ^ 32 = h.toNat / 2 ^ 15 * 2 ^ 31
  rw [hbit, Nat.shiftLeft_eq]
  omega

theorem toNat_exp (h : UInt16) : (((h >>> 10) &&& 0x1F).toUInt32).toNat =
    binary16.expField h.toNat := by
  show (h.toNat >>> 10) &&& (2 ^ 5 - 1) = h.toNat / 2 ^ 10 % 2 ^ 5
  rw [Nat.and_two_pow_sub_one_eq_mod, Nat.shiftRight_eq_div_pow]

theorem toNat_frac (h : UInt16) : ((h &&& 0x3FF).toUInt32).toNat = binary16.fracField h.toNat := by
  show h.toNat &&& (2 ^ 10 - 1) = h.toNat % 2 ^ 10
  rw [Nat.and_two_pow_sub_one_eq_mod]

theorem toNat_shiftLeft {x k : UInt32} (hk : k.toNat < 32) (h : x.toNat * 2 ^ k.toNat < 2 ^ 32) :
    (x <<< k).toNat = x.toNat * 2 ^ k.toNat := by
  rw [UInt32.toNat_shiftLeft, Nat.mod_eq_of_lt hk, Nat.shiftLeft_eq, Nat.mod_eq_of_lt h]

theorem toNat_rebias {exp : UInt32} (h : exp.toNat < 32) :
    (((exp + 127 - 15 : UInt32)) <<< 23).toNat = (exp.toNat + 112) * 2 ^ 23 := by
  have hexp : (exp + 127 - 15 : UInt32).toNat = exp.toNat + 112 := by
    rw [UInt32.toNat_sub, UInt32.toNat_add]
    show (2 ^ 32 - 15 + (exp.toNat + 127) % 2 ^ 32) % 2 ^ 32 = _
    omega
  have hfits : (exp.toNat + 112) * 2 ^ 23 < 2 ^ 32 := by omega
  rw [← hexp] at hfits ⊢
  exact toNat_shiftLeft (by decide) hfits

theorem toNat_shiftLeft_frac {frac : UInt32} (h : frac.toNat < 2 ^ 10) :
    (frac <<< 13).toNat = frac.toNat * 2 ^ 13 := by
  have hfits : frac.toNat * 2 ^ 13 < 2 ^ 32 := by omega
  exact toNat_shiftLeft (by decide) hfits

/-- A fraction, moved until its leading bit is in place 23. -/
theorem lead_bounds {n : Nat} (hpos : n ≠ 0) (h : n < 2 ^ 10) :
    n.log2 < 10 ∧ 2 ^ 23 ≤ n * 2 ^ (23 - n.log2) ∧ n * 2 ^ (23 - n.log2) < 2 ^ 24 := by
  have hlog : n.log2 < 10 := (Nat.log2_lt hpos).mpr h
  have hpow : 2 ^ n.log2 * 2 ^ (23 - n.log2) = 2 ^ 23 := by
    rw [← Nat.pow_add]
    congr 1
    omega
  have hpow' : 2 ^ (n.log2 + 1) * 2 ^ (23 - n.log2) = 2 ^ 24 := by
    rw [← Nat.pow_add]
    congr 1
    omega
  rw [← hpow, ← hpow']
  exact ⟨hlog, Nat.mul_le_mul_right _ (Nat.log2_self_le hpos),
    Nat.mul_lt_mul_of_pos_right Nat.lt_log2_self (by positivity)⟩

theorem toNat_normalized {frac : UInt32} (h0 : frac ≠ 0) (h : frac.toNat < 2 ^ 10) :
    ((127 - 15 - (leadingZeros frac - 21) + 1 : UInt32) <<< 23).toNat =
      (frac.toNat.log2 + 103) * 2 ^ 23 ∧
    ((frac <<< (leadingZeros frac - 21 + 13)) &&& 0x7FFFFF).toNat =
      frac.toNat * 2 ^ (23 - frac.toNat.log2) - 2 ^ 23 := by
  have hpos : frac.toNat ≠ 0 := fun h => h0 (UInt32.toNat_inj.mp h)
  obtain ⟨hlog, hlow, hhigh⟩ := lead_bounds hpos h
  have hshift : (leadingZeros frac - 21).toNat = 10 - frac.toNat.log2 := by
    rw [leadingZeros, if_neg h0, UInt32.toNat_sub, UInt32.toNat_ofNat']
    show (2 ^ 32 - 21 + (31 - frac.toNat.log2) % 2 ^ 32) % 2 ^ 32 = _
    omega
  constructor
  · have hexp : (127 - 15 - (leadingZeros frac - 21) + 1 : UInt32).toNat = frac.toNat.log2 + 103 := by
      rw [UInt32.toNat_add, UInt32.toNat_sub, hshift]
      show ((2 ^ 32 - (10 - frac.toNat.log2) + 112) % 2 ^ 32 + 1) % 2 ^ 32 = _
      omega
    have hfits : (frac.toNat.log2 + 103) * 2 ^ 23 < 2 ^ 32 := by omega
    rw [← hexp] at hfits ⊢
    exact toNat_shiftLeft (by decide) hfits
  · have hplaces : (leadingZeros frac - 21 + 13).toNat = 23 - frac.toNat.log2 := by
      rw [UInt32.toNat_add, hshift]
      show (10 - frac.toNat.log2 + 13) % 2 ^ 32 = _
      omega
    have hmask : (0x7FFFFF : UInt32).toNat = 2 ^ 23 - 1 := rfl
    rw [UInt32.toNat_and, toNat_shiftLeft (by omega) (by rw [hplaces]; omega), hplaces, hmask,
      Nat.and_two_pow_sub_one_eq_mod]
    omega

theorem signField_le (h : UInt16) : binary16.signField h.toNat ≤ 1 := by
  have hlt := h.toNat_lt
  show h.toNat / 2 ^ 15 ≤ 1
  omega

/-- The words that `f16_bits_to_f32` puts together. -/
theorem f16BitsToF32_toNat {h : UInt16} (hfin : binary16.IsFinite h.toNat) :
    (f16BitsToF32 h).toNat =
      let s := binary16.signField h.toNat
      let e := binary16.expField h.toNat
      let m := binary16.fracField h.toNat
      if e = 0 then
        if m = 0 then binary32.pack s 0 0
        else binary32.pack s (m.log2 + 103) (m * 2 ^ (23 - m.log2) - 2 ^ 23)
      else binary32.pack s (e + 112) (m * 2 ^ 13) := by
  have hs := toNat_sign h
  have he := toNat_exp h
  have hm := toNat_frac h
  have helt := Format.expField_lt (f := binary16) h.toNat
  have hmlt := Format.fracField_lt (f := binary16) h.toNat
  have hsle := signField_le h
  unfold f16BitsToF32
  generalize (h &&& 0x8000).toUInt32 <<< 16 = sign at *
  generalize ((h >>> 10) &&& 0x1F).toUInt32 = exp at *
  generalize (h &&& 0x3FF).toUInt32 = frac at *
  rw [Format.IsFinite] at hfin
  rw [← he] at hfin helt ⊢
  rw [← hm] at hmlt ⊢
  have hexp0 : exp = 0 ↔ exp.toNat = 0 := UInt32.toNat_inj.symm
  have hfrac0 : frac = 0 ↔ frac.toNat = 0 := UInt32.toNat_inj.symm
  have hexpmax : exp ≠ 0x1F := fun heq => hfin (congrArg UInt32.toNat heq)
  dsimp only
  simp only [hexp0, hfrac0, if_neg hexpmax]
  split_ifs with hexp hfrac
  · rw [hs]
    simp [Format.pack, binary32]
  · obtain ⟨hlog, hlow, hhigh⟩ := lead_bounds hfrac hmlt
    have hnorm := toNat_normalized (fun h0 => hfrac (hfrac0.mp h0)) hmlt
    rw [UInt32.toNat_or, UInt32.toNat_or, hs, hnorm.1, hnorm.2]
    refine Format.or_fields (f := binary32) ?_ ?_
    · show frac.toNat.log2 + 103 < 2 ^ 8
      omega
    · show frac.toNat * 2 ^ (23 - frac.toNat.log2) - 2 ^ 23 < 2 ^ 23
      omega
  · have helt : exp.toNat < 2 ^ 5 := helt
    have hmlt : frac.toNat < 2 ^ 10 := hmlt
    rw [UInt32.toNat_or, UInt32.toNat_or, hs, toNat_rebias helt, toNat_shiftLeft_frac hmlt]
    refine Format.or_fields (f := binary32) ?_ ?_
    · show exp.toNat + 112 < 2 ^ 8
      omega
    · show frac.toNat * 2 ^ 13 < 2 ^ 23
      omega

/-- **From f16 to f32 nothing is lost.** -/
theorem f16BitsToF32_value {h : UInt16} (hfin : binary16.IsFinite h.toNat) :
    binary32.value (f16BitsToF32 h).toNat = binary16.value h.toNat := by
  have helt : binary16.expField h.toNat < 2 ^ 5 := Format.expField_lt h.toNat
  have hmlt : binary16.fracField h.toNat < 2 ^ 10 := Format.fracField_lt h.toNat
  have hvalue : binary16.value h.toNat = (-1) ^ binary16.signField h.toNat *
      binary16.magnitude (binary16.expField h.toNat) (binary16.fracField h.toNat) := rfl
  rw [f16BitsToF32_toNat hfin, hvalue]
  generalize binary16.signField h.toNat = s
  generalize binary16.expField h.toNat = e at *
  generalize binary16.fracField h.toNat = m at *
  dsimp only
  split_ifs with he hm
  · rw [Format.value_pack (by decide) (by decide), he, hm]
    simp [Format.magnitude]
  · obtain ⟨hlog, hlow, hhigh⟩ := lead_bounds hm hmlt
    rw [Format.value_pack (by show m.log2 + 103 < 2 ^ 8; omega)
      (by show m * 2 ^ (23 - m.log2) - 2 ^ 23 < 2 ^ 23; omega), he]
    congr 1
    have hscale : (2 : ℚ) ^ (23 - m.log2) * 2 ^ ((m.log2 + 103 : ℕ) - 127 - 23 : ℤ) =
        2 ^ (1 - 15 - 10 : ℤ) := by
      rw [← zpow_natCast, ← zpow_add₀ two_ne_zero, Nat.cast_sub (by omega)]
      congr 1
      push_cast
      ring
    rw [Format.magnitude, if_neg (by omega), Format.magnitude, if_pos rfl, Nat.cast_sub hlow]
    show (2 ^ 23 + ((m * 2 ^ (23 - m.log2) : ℕ) - (2 ^ 23 : ℕ) : ℚ)) *
      2 ^ ((m.log2 + 103 : ℕ) - 127 - 23 : ℤ) = m * 2 ^ (1 - 15 - 10 : ℤ)
    rw [← hscale]
    push_cast
    ring
  · rw [Format.value_pack (by show e + 112 < 2 ^ 8; omega) (by show m * 2 ^ 13 < 2 ^ 23; omega)]
    congr 1
    have hscale : (2 : ℚ) ^ 13 * 2 ^ ((e + 112 : ℕ) - 127 - 23 : ℤ) = 2 ^ (e - 15 - 10 : ℤ) := by
      rw [← zpow_natCast, ← zpow_add₀ two_ne_zero]
      congr 1
      push_cast
      ring
    rw [Format.magnitude, if_neg (by omega), Format.magnitude, if_neg he]
    show (2 ^ 23 + ((m * 2 ^ 13 : ℕ) : ℚ)) * 2 ^ ((e + 112 : ℕ) - 127 - 23 : ℤ) =
      (2 ^ 10 + m) * 2 ^ (e - 15 - 10 : ℤ)
    rw [← hscale]
    push_cast
    ring

/-! ### f32 to f16 -/

theorem or_one (e : Nat) : e ||| 1 = if e % 2 = 1 then e else e + 1 := by
  have hsplit := Nat.div_add_mod' e 2
  have hor : e / 2 * 2 ^ 1 ||| 1 = e / 2 * 2 + 1 := or_eq_add (by decide)
  split_ifs with hodd
  · have he : e = e / 2 * 2 ^ 1 ||| 1 := by omega
    rw [he, Nat.or_assoc, Nat.or_self]
  · have he : e = e / 2 * 2 ^ 1 := by omega
    rw [← he] at hor
    omega

theorem toNat_sign32 (b : UInt32) :
    (((b >>> 16) &&& 0x8000).toUInt16).toNat = binary32.signField b.toNat * 2 ^ 15 := by
  have hlt := b.toNat_lt
  have hbit : b.toNat / 2 ^ 16 &&& 2 ^ 15 = b.toNat / 2 ^ 31 * 2 ^ 15 := by
    rw [Nat.and_two_pow, Nat.toNat_testBit]
    omega
  show ((b.toNat >>> 16) &&& 2 ^ 15) % 2 ^ 16 = b.toNat / 2 ^ 31 * 2 ^ 15
  rw [Nat.shiftRight_eq_div_pow, hbit]
  omega

theorem toNat_exp32 (b : UInt32) : ((b >>> 23) &&& 0xFF).toNat = binary32.expField b.toNat := by
  show (b.toNat >>> 23) &&& (2 ^ 8 - 1) = b.toNat / 2 ^ 23 % 2 ^ 8
  rw [Nat.and_two_pow_sub_one_eq_mod, Nat.shiftRight_eq_div_pow]

theorem toNat_frac32 (b : UInt32) : (b &&& 0x7FFFFF).toNat = binary32.fracField b.toNat := by
  show b.toNat &&& (2 ^ 23 - 1) = b.toNat % 2 ^ 23
  rw [Nat.and_two_pow_sub_one_eq_mod]

/-- The fields that `f32_to_f16_bits` rounds a normal number to. -/
def roundedFields (e m : Nat) : Nat × Nat :=
  let rounded := (m + 0x1000) / 2 ^ 13
  if rounded < 2 ^ 10 then (e, rounded)
  else if e % 2 = 1 then (e, 0)
  else (e + 1, 0)

theorem f32ToF16Bits_normal {b : UInt32} (hlow : 113 ≤ binary32.expField b.toNat)
    (hhigh : binary32.expField b.toNat ≤ 142) :
    (f32ToF16Bits b).toNat =
      let fields := roundedFields (binary32.expField b.toNat - 112) (binary32.fracField b.toNat)
      binary16.pack (binary32.signField b.toNat) fields.1 fields.2 := by
  have hexp := toNat_exp32 b
  have hfrac := toNat_frac32 b
  have hsign := toNat_sign32 b
  have hmlt : binary32.fracField b.toNat < 2 ^ 23 := Format.fracField_lt b.toNat
  unfold f32ToF16Bits
  generalize ((b >>> 16) &&& 0x8000).toUInt16 = sign at *
  generalize (b &&& 0x7FFFFF) = frac at *
  generalize binary32.signField b.toNat = s at *
  dsimp only
  rw [hexp]
  generalize binary32.expField b.toNat = e at *
  rw [← hfrac] at hmlt ⊢
  have he : (e : Int) - 127 + 15 = ((e - 112 : ℕ) : Int) := by omega
  rw [he, if_neg (by omega), if_neg (by omega), if_neg (by omega), Int.toNat_natCast]
  have hplace : (UInt32.ofNat (e - 112) <<< 10).toUInt16.toNat = (e - 112) * 2 ^ 10 := by
    have hofNat : (UInt32.ofNat (e - 112)).toNat = e - 112 := by
      rw [UInt32.toNat_ofNat']
      omega
    have hfits : (e - 112) * 2 ^ 10 < 2 ^ 16 := by omega
    rw [UInt32.toNat_toUInt16, toNat_shiftLeft (by decide)
      (by rw [hofNat]; exact hfits.trans (by decide)), hofNat]
    exact Nat.mod_eq_of_lt hfits
  have hrounded : (((frac + 0x1000) >>> 13).toUInt16).toNat = (frac.toNat + 0x1000) / 2 ^ 13 := by
    show ((frac.toNat + 0x1000) % 2 ^ 32) >>> 13 % 2 ^ 16 = _
    rw [Nat.shiftRight_eq_div_pow]
    omega
  rw [UInt16.toNat_or, UInt16.toNat_or, hsign, hplace, hrounded, roundedFields]
  have hcarry : (frac.toNat + 0x1000) / 2 ^ 13 ≤ 2 ^ 10 := by omega
  split_ifs with hfits hodd
  · exact Format.or_fields (f := binary16) (by show e - 112 < 2 ^ 5; omega) hfits
  all_goals
    have hfull : (frac.toNat + 0x1000) / 2 ^ 13 = 1 * 2 ^ 10 := by omega
    rw [hfull, Nat.or_assoc, ← Nat.shiftLeft_eq _ 10, ← Nat.shiftLeft_eq 1 10,
      ← Nat.shiftLeft_or_distrib, or_one, Nat.shiftLeft_eq]
  · rw [if_pos hodd]
    exact (Nat.or_zero _).symm.trans
      (Format.or_fields (f := binary16) (by show e - 112 < 2 ^ 5; omega) (by decide))
  · rw [if_neg hodd]
    exact (Nat.or_zero _).symm.trans
      (Format.or_fields (f := binary16) (by show e - 112 + 1 < 2 ^ 5; omega) (by decide))

/-! ### Rounding -/

/-- Rounding carries into an odd exponent, whose last bit is set already. -/
def CarryLost (b : UInt32) : Prop :=
  binary32.expField b.toNat % 2 = 1 ∧ 0x7FF000 ≤ binary32.fracField b.toNat

instance (b : UInt32) : Decidable (CarryLost b) := inferInstanceAs (Decidable (_ ∧ _))

/-- A positive number from `2^-14` to `65504`. -/
structure HalfNormal (b : UInt32) : Prop where
  sign : binary32.signField b.toNat = 0
  low : 113 ≤ binary32.expField b.toNat
  high : binary32.expField b.toNat ≤ 142
  top : binary32.expField b.toNat = 142 → binary32.fracField b.toNat < 0x7FF000

variable {b : UInt32}

theorem HalfNormal.fields (h : HalfNormal b) : ∃ e m,
    roundedFields (binary32.expField b.toNat - 112) (binary32.fracField b.toNat) = (e, m) ∧
      1 ≤ e ∧ e ≤ 30 ∧ m < 2 ^ 10 := by
  obtain ⟨-, hlow, hhigh, htop⟩ := h
  have hmlt : binary32.fracField b.toNat < 2 ^ 23 := Format.fracField_lt b.toNat
  simp only [roundedFields]
  split_ifs with hfits hodd
  · exact ⟨_, _, rfl, by omega, by omega, hfits⟩
  · exact ⟨_, _, rfl, by omega, by omega, Nat.two_pow_pos 10⟩
  · exact ⟨_, _, rfl, by omega, by omega, Nat.two_pow_pos 10⟩

/-- The rounded number in words of both formats: rounding it again changes nothing. -/
theorem HalfNormal.f16Round (h : HalfNormal b) : ∃ e m,
    roundedFields (binary32.expField b.toNat - 112) (binary32.fracField b.toNat) = (e, m) ∧
      1 ≤ e ∧ e ≤ 30 ∧ m < 2 ^ 10 ∧
      (LlmPager.f16Round b).toNat = binary32.pack 0 (e + 112) (m * 2 ^ 13) ∧
      f32ToF16Bits (LlmPager.f16Round b) = f32ToF16Bits b := by
  obtain ⟨e, m, hfields, hpos, hle, hmlt⟩ := h.fields
  refine ⟨e, m, hfields, hpos, hle, hmlt, ?_⟩
  have hbits : (f32ToF16Bits b).toNat = binary16.pack 0 e m := by
    rw [f32ToF16Bits_normal h.low h.high, h.sign, hfields]
  obtain ⟨hs, he, hm⟩ := Format.fields_pack (f := binary16) (s := 0)
    (show e < 2 ^ 5 by omega) hmlt
  have hfin : binary16.IsFinite (f32ToF16Bits b).toNat := by
    rw [Format.IsFinite, hbits, he]
    show e ≠ 31
    omega
  have hround : (LlmPager.f16Round b).toNat = binary32.pack 0 (e + 112) (m * 2 ^ 13) := by
    rw [LlmPager.f16Round, f16BitsToF32_toNat hfin, hbits]
    dsimp only
    rw [hs, he, hm, if_neg (by omega)]
  refine ⟨hround, UInt16.toNat_inj.mp ?_⟩
  obtain ⟨hs', he', hm'⟩ := Format.fields_pack (f := binary32) (s := 0)
    (show e + 112 < 2 ^ 8 by omega) (show m * 2 ^ 13 < 2 ^ 23 by omega)
  have hagain : roundedFields e (m * 2 ^ 13) = (e, m) := by
    have hkeep : (m * 2 ^ 13 + 0x1000) / 2 ^ 13 = m := by omega
    rw [roundedFields, hkeep, if_pos hmlt]
  rw [f32ToF16Bits_normal (by rw [hround, he']; omega) (by rw [hround, he']; omega), hround, hs',
    he', hm', hbits, Nat.add_sub_cancel, hagain]

/-- A normal number, by its unit. -/
theorem HalfNormal.value (h : HalfNormal b) : binary32.value b.toNat =
    (2 ^ 23 + binary32.fracField b.toNat) * 2 ^ (binary32.expField b.toNat - 150 : ℤ) := by
  have hlow := h.low
  rw [Format.value, h.sign, Format.magnitude, if_neg (by omega), pow_zero, one_mul]
  congr 2
  show (binary32.expField b.toNat : ℤ) - 127 - 23 = _
  ring

/-- The error of rounding, of a carry that is lost nearly the number's half. -/
theorem HalfNormal.value_f16Round (h : HalfNormal b) :
    2 ^ (-14 : ℤ) ≤ binary32.value (LlmPager.f16Round b).toNat ∧
      (¬ CarryLost b → |binary32.value (LlmPager.f16Round b).toNat - binary32.value b.toNat| ≤
        binary32.value b.toNat / 2 ^ 11) ∧
      (CarryLost b → (2 - 1 / 2 ^ 11) * binary32.value (LlmPager.f16Round b).toNat ≤
        binary32.value b.toNat) := by
  obtain ⟨e, m, hfields, hpos, hle, hmlt, hround, -⟩ := h.f16Round
  have hvalue : binary32.value (LlmPager.f16Round b).toNat =
      (2 ^ 10 + m) * 2 ^ 13 * 2 ^ (e - 38 : ℤ) := by
    rw [hround, Format.value_pack (show e + 112 < 2 ^ 8 by omega)
      (show m * 2 ^ 13 < 2 ^ 23 by omega), Format.magnitude, if_neg (by omega)]
    have hexp : ((e + 112 : ℕ) - binary32.bias - binary32.fracBits : ℤ) = e - 38 := by
      show ((e + 112 : ℕ) - 127 - 23 : ℤ) = _
      push_cast
      ring
    rw [hexp]
    show (-1 : ℚ) ^ 0 * ((2 ^ 23 + ((m * 2 ^ 13 : ℕ) : ℚ)) * _) = _
    push_cast
    ring
  have hlow := h.low
  have hF : binary32.fracField b.toNat < 2 ^ 23 := Format.fracField_lt b.toNat
  have hunit : (0 : ℚ) < 2 ^ (binary32.expField b.toNat - 150 : ℤ) := by positivity
  rw [h.value]
  refine ⟨?_, ?_, ?_⟩
  · have hmin : (2 : ℚ) ^ (-37 : ℤ) ≤ 2 ^ (e - 38 : ℤ) :=
      zpow_le_zpow_right₀ one_le_two (by omega)
    rw [hvalue]
    calc (2 : ℚ) ^ (-14 : ℤ) = (2 ^ 10 + 0) * 2 ^ 13 * 2 ^ (-37 : ℤ) := by norm_num
      _ ≤ (2 ^ 10 + m) * 2 ^ 13 * 2 ^ (e - 38 : ℤ) := by gcongr; exact Nat.cast_nonneg m
  · intro hkept
    have hsame : (2 ^ 10 + m) * 2 ^ 13 * 2 ^ (e - 38 : ℤ) =
        (2 ^ 10 + ((binary32.fracField b.toNat + 0x1000) / 2 ^ 13 : ℕ)) * 2 ^ 13 *
          (2 : ℚ) ^ (binary32.expField b.toNat - 150 : ℤ) := by
      simp only [roundedFields] at hfields
      split_ifs at hfields with hfits hodd
      · obtain ⟨rfl, rfl⟩ := Prod.mk.inj hfields
        have hexp : ((binary32.expField b.toNat - 112 : ℕ) - 38 : ℤ) =
            binary32.expField b.toNat - 150 := by omega
        rw [hexp]
      · exact absurd ⟨by omega, by omega⟩ hkept
      · obtain ⟨rfl, rfl⟩ := Prod.mk.inj hfields
        have hfull : (binary32.fracField b.toNat + 0x1000) / 2 ^ 13 = 2 ^ 10 := by omega
        have hexp : ((binary32.expField b.toNat - 112 + 1 : ℕ) - 38 : ℤ) =
            (binary32.expField b.toNat - 150) + 1 := by omega
        rw [hfull, hexp, zpow_add_one₀ two_ne_zero]
        push_cast
        ring
    have hnear : |((2 : ℚ) ^ 10 + ((binary32.fracField b.toNat + 0x1000) / 2 ^ 13 : ℕ)) * 2 ^ 13 -
        (2 ^ 23 + binary32.fracField b.toNat)| ≤ 2 ^ 12 := by
      have hlow : (binary32.fracField b.toNat : ℚ) ≤
          ((binary32.fracField b.toNat + 0x1000) / 2 ^ 13 : ℕ) * 2 ^ 13 + 2 ^ 12 := by
        exact_mod_cast (by omega)
      have hhigh : ((binary32.fracField b.toNat + 0x1000) / 2 ^ 13 : ℕ) * 2 ^ 13 ≤
          (binary32.fracField b.toNat : ℚ) + 2 ^ 12 := by
        exact_mod_cast (by omega)
      rw [abs_le]
      constructor <;> linarith
    rw [hvalue, hsame, ← sub_mul, abs_mul, abs_of_pos hunit, mul_div_right_comm]
    refine mul_le_mul_of_nonneg_right (hnear.trans ?_) hunit.le
    rw [le_div_iff₀ (by norm_num)]
    linarith [Nat.cast_nonneg (α := ℚ) (binary32.fracField b.toNat)]
  · intro hlost
    obtain ⟨hodd, htop⟩ := hlost
    obtain ⟨rfl, rfl⟩ : e = binary32.expField b.toNat - 112 ∧ m = 0 := by
      rw [roundedFields, if_neg (by omega), if_pos (by omega)] at hfields
      exact ⟨(Prod.mk.inj hfields).1.symm, (Prod.mk.inj hfields).2.symm⟩
    have hexp : ((binary32.expField b.toNat - 112 : ℕ) - 38 : ℤ) = binary32.expField b.toNat - 150 := by
      omega
    have htop' : (0x7FF000 : ℚ) ≤ binary32.fracField b.toNat := by exact_mod_cast htop
    rw [hvalue, hexp, ← mul_assoc]
    refine mul_le_mul_of_nonneg_right ?_ hunit.le
    push_cast
    linarith

end LlmPager
