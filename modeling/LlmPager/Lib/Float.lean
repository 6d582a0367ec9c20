import Mathlib

/-!
# LlmPager.Lib.Float

Binary interchange formats: the fields of a word, the rational it stands for, and the
word nearest to a positive rational. Over whole numbers, rounding to so many bits
(`roundSignificant`) is what a narrower format makes of one, whatever power of two
it is divided by (`Format.value_nearest_div`).

A word is a natural number, the sum of its fields (`pack`); what shifts and `|` put
together is a sum as long as the fields do not overlap (`or_eq_add`). Rounding is to
integers: of the significand in units of the last place.
-/

namespace LlmPager.Lib

/-! ### Words -/

/-- Disjoint bit fields. -/
theorem or_eq_add {a b n : Nat} (hb : b < 2 ^ n) : a * 2 ^ n ||| b = a * 2 ^ n + b := by
  rw [← Nat.shiftLeft_eq, Nat.shiftLeft_add_eq_or_of_lt hb]

/-- Two fields, masked and set apart. -/
theorem and_split {a b c d n : Nat} (hb : b < 2 ^ n) (hd : d < 2 ^ n) :
    (a * 2 ^ n + b) &&& (c * 2 ^ n + d) = (a &&& c) * 2 ^ n + (b &&& d) := by
  have hbd : b &&& d < 2 ^ n := Nat.and_le_left.trans_lt hb
  refine Nat.eq_of_testBit_eq fun j => ?_
  simp only [Nat.mul_comm _ (2 ^ n), Nat.testBit_and, Nat.testBit_two_pow_mul_add _ hb,
    Nat.testBit_two_pow_mul_add _ hd, Nat.testBit_two_pow_mul_add _ hbd]
  split <;> rfl

theorem or_split {a b c d n : Nat} (hb : b < 2 ^ n) (hd : d < 2 ^ n) :
    (a * 2 ^ n + b) ||| (c * 2 ^ n + d) = (a ||| c) * 2 ^ n + (b ||| d) := by
  have hbd : b ||| d < 2 ^ n := Nat.or_lt_two_pow hb hd
  refine Nat.eq_of_testBit_eq fun j => ?_
  simp only [Nat.mul_comm _ (2 ^ n), Nat.testBit_or, Nat.testBit_two_pow_mul_add _ hb,
    Nat.testBit_two_pow_mul_add _ hd, Nat.testBit_two_pow_mul_add _ hbd]
  split <;> rfl

/-- A format, by the widths of its exponent and of its fraction. -/
structure Format where
  expBits : Nat
  fracBits : Nat
  deriving Repr, DecidableEq

def binary32 : Format := ⟨8, 23⟩

def binary16 : Format := ⟨5, 10⟩

namespace Format

variable (f : Format)

def bias : Nat := 2 ^ (f.expBits - 1) - 1

def signField (w : Nat) : Nat := w / 2 ^ (f.expBits + f.fracBits)

def expField (w : Nat) : Nat := w / 2 ^ f.fracBits % 2 ^ f.expBits

def fracField (w : Nat) : Nat := w % 2 ^ f.fracBits

/-- Neither infinite nor a NaN. -/
def IsFinite (w : Nat) : Prop := f.expField w ≠ 2 ^ f.expBits - 1

instance (w : Nat) : Decidable (f.IsFinite w) := inferInstanceAs (Decidable (_ ≠ _))

/-- The number of an exponent field and a fraction; exponent field `0` is subnormal. -/
def magnitude (e m : Nat) : ℚ :=
  if e = 0 then m * 2 ^ (1 - f.bias - f.fracBits : ℤ)
  else (2 ^ f.fracBits + m) * 2 ^ (e - f.bias - f.fracBits : ℤ)

/-- The number that a finite word stands for. -/
def value (w : Nat) : ℚ := (-1) ^ f.signField w * f.magnitude (f.expField w) (f.fracField w)

/-- The number or the infinity of a word. -/
def extended (w : Nat) : WithBot (WithTop ℚ) :=
  if f.IsFinite w then ((f.value w : WithTop ℚ) : WithBot (WithTop ℚ))
  else if f.signField w = 0 then ((⊤ : WithTop ℚ) : WithBot (WithTop ℚ))
  else ⊥

def pack (s e m : Nat) : Nat := s * 2 ^ (f.expBits + f.fracBits) + (e * 2 ^ f.fracBits + m)

variable {f} {s e m : Nat}

theorem fields_pack (he : e < 2 ^ f.expBits) (hm : m < 2 ^ f.fracBits) :
    f.signField (f.pack s e m) = s ∧ f.expField (f.pack s e m) = e ∧
      f.fracField (f.pack s e m) = m := by
  have hrow : e * 2 ^ f.fracBits + m < 2 ^ (f.expBits + f.fracBits) := by
    have hle := Nat.mul_le_mul_right (2 ^ f.fracBits) (Nat.succ_le_of_lt he)
    rw [Nat.succ_mul, ← Nat.pow_add] at hle
    omega
  have hsplit : f.pack s e m = (s * 2 ^ f.expBits + e) * 2 ^ f.fracBits + m := by
    unfold pack
    rw [Nat.pow_add]
    ring
  refine ⟨?_, ?_, ?_⟩
  · rw [signField, pack, Nat.mul_comm s, Nat.mul_add_div (by positivity), Nat.div_eq_of_lt hrow,
      Nat.add_zero]
  · rw [expField, hsplit, Nat.mul_comm _ (2 ^ f.fracBits), Nat.mul_add_div (by positivity),
      Nat.div_eq_of_lt hm, Nat.add_zero, Nat.mul_add_mod_of_lt he]
  · rw [fracField, hsplit, Nat.mul_add_mod_of_lt hm]

/-- Fields put together bit by bit. -/
theorem or_fields (he : e < 2 ^ f.expBits) (hm : m < 2 ^ f.fracBits) :
    s * 2 ^ (f.expBits + f.fracBits) ||| e * 2 ^ f.fracBits ||| m = f.pack s e m := by
  have hsplit : s * 2 ^ (f.expBits + f.fracBits) = s * 2 ^ f.expBits * 2 ^ f.fracBits := by
    rw [Nat.pow_add, Nat.mul_assoc]
  have hrow : e * 2 ^ f.fracBits < 2 ^ (f.expBits + f.fracBits) := by
    rw [Nat.pow_add]
    exact Nat.mul_lt_mul_of_pos_right he (by positivity)
  rw [or_eq_add hrow, hsplit, ← Nat.add_mul, or_eq_add hm, pack, hsplit]
  ring

theorem value_pack (he : e < 2 ^ f.expBits) (hm : m < 2 ^ f.fracBits) :
    f.value (f.pack s e m) = (-1) ^ s * f.magnitude e m := by
  obtain ⟨hs, he, hm⟩ := fields_pack (s := s) he hm
  rw [value, hs, he, hm]

theorem expField_lt (w : Nat) : f.expField w < 2 ^ f.expBits := Nat.mod_lt _ (by positivity)

theorem fracField_lt (w : Nat) : f.fracField w < 2 ^ f.fracBits := Nat.mod_lt _ (by positivity)

/-- A word is its fields. -/
theorem pack_fields (w : Nat) : f.pack (f.signField w) (f.expField w) (f.fracField w) = w := by
  have hexp := Nat.div_add_mod' (w / 2 ^ f.fracBits) (2 ^ f.expBits)
  have hfrac := Nat.div_add_mod' w (2 ^ f.fracBits)
  rw [Nat.div_div_eq_div_mul, Nat.mul_comm (2 ^ f.fracBits)] at hexp
  unfold pack signField expField fracField
  rw [Nat.pow_add, ← Nat.mul_assoc, ← Nat.add_assoc, ← Nat.add_mul, hexp, hfrac]

theorem magnitude_nonneg : 0 ≤ f.magnitude e m := by
  unfold magnitude
  split <;> positivity

theorem abs_value (w : Nat) : |f.value w| = f.magnitude (f.expField w) (f.fracField w) := by
  rw [value, abs_mul, abs_pow, abs_neg, abs_one, one_pow, one_mul, abs_of_nonneg magnitude_nonneg]

end Format

/-! ### Rounding -/

/-- To the nearest integer, halves to the even one. -/
def roundEven (q : ℚ) : ℤ :=
  if q - ⌊q⌋ < 1 / 2 ∨ q - ⌊q⌋ = 1 / 2 ∧ ⌊q⌋ % 2 = 0 then ⌊q⌋ else ⌊q⌋ + 1

/-- To the nearest integer, halves away from zero (`f32::round`). -/
def roundAway (q : ℚ) : ℤ := if 0 ≤ q then ⌊q + 1 / 2⌋ else -⌊-q + 1 / 2⌋

theorem abs_roundEven_sub (q : ℚ) : |(roundEven q : ℚ) - q| ≤ 1 / 2 := by
  have hlow := Int.floor_le q
  have hhigh := Int.lt_floor_add_one q
  unfold roundEven
  split_ifs with h
  · rw [abs_le]
    constructor
    · rcases h with h | ⟨h, -⟩ <;> linarith
    · linarith
  · have hhalf : 1 / 2 ≤ q - ⌊q⌋ := not_lt.mp fun hlt => h (.inl hlt)
    push_cast
    rw [abs_le]
    constructor <;> linarith

theorem le_roundEven {q : ℚ} {n : ℤ} (h : (n : ℚ) ≤ q) : n ≤ roundEven q := by
  have hfloor := Int.le_floor.mpr h
  unfold roundEven
  split_ifs <;> omega

theorem roundEven_le {q : ℚ} {n : ℤ} (h : q ≤ n) : roundEven q ≤ n := by
  have hfloor := Int.floor_le q
  have hle : ⌊q⌋ ≤ n := by exact_mod_cast hfloor.trans h
  unfold roundEven
  split_ifs with hdown
  · exact hle
  · refine Int.add_one_le_of_lt (lt_of_le_of_ne hle fun heq => hdown (.inl ?_))
    rw [heq]
    linarith

theorem abs_roundAway_sub (q : ℚ) : |(roundAway q : ℚ) - q| ≤ 1 / 2 := by
  unfold roundAway
  split_ifs with h
  · have hlow := Int.floor_le (q + 1 / 2)
    have hhigh := Int.lt_floor_add_one (q + 1 / 2)
    rw [abs_le]
    constructor <;> linarith
  · have hlow := Int.floor_le (-q + 1 / 2)
    have hhigh := Int.lt_floor_add_one (-q + 1 / 2)
    push_cast
    rw [abs_le]
    constructor <;> linarith

namespace Format

variable (f : Format)

/-- The exponent of the last place of a positive number. -/
def lastPlace (q : ℚ) : ℤ := max (Int.log 2 q) (1 - f.bias) - f.fracBits

/-- The word nearest to a positive number below the largest: the significand with its
leading bit, which counts towards the exponent. -/
def nearest (q : ℚ) : Nat :=
  (f.lastPlace q + f.fracBits + f.bias - 1).toNat * 2 ^ f.fracBits +
    (roundEven (q / 2 ^ f.lastPlace q)).toNat

variable {f}

/-- A significand with its leading bit, added to an exponent field less one. -/
theorem value_significand {e m : Nat} (hm : m ≤ 2 ^ (f.fracBits + 1))
    (hlead : e = 0 ∨ 2 ^ f.fracBits ≤ m) (he : e + 2 < 2 ^ f.expBits) :
    f.value (e * 2 ^ f.fracBits + m) = m * 2 ^ (e + 1 - f.bias - f.fracBits : ℤ) := by
  have hpos : 0 < 2 ^ f.fracBits := by positivity
  have hdouble : 2 ^ (f.fracBits + 1) = 2 * 2 ^ f.fracBits := by ring
  by_cases hsub : m < 2 ^ f.fracBits
  · have he0 : e = 0 := hlead.resolve_right (by omega)
    have hpack : e * 2 ^ f.fracBits + m = f.pack 0 0 m := by simp [pack, he0]
    rw [hpack, value_pack (by omega) hsub, magnitude, if_pos rfl, he0]
    simp
  by_cases hcarry : m < 2 ^ (f.fracBits + 1)
  · have hpack : e * 2 ^ f.fracBits + m = f.pack 0 (e + 1) (m - 2 ^ f.fracBits) := by
      rw [pack, Nat.succ_mul]
      omega
    rw [hpack, value_pack (by omega) (by omega), magnitude, if_neg (by omega), Nat.cast_sub (by omega)]
    push_cast
    ring
  · have hpack : e * 2 ^ f.fracBits + m = f.pack 0 (e + 2) 0 := by
      rw [pack, Nat.add_mul]
      omega
    have hm' : m = 2 * 2 ^ f.fracBits := by omega
    rw [hpack, value_pack (by omega) hpos, magnitude, if_neg (by omega), hm']
    have hexp : ((e + 2 : ℕ) - f.bias - f.fracBits : ℤ) = (e + 1 - f.bias - f.fracBits) + 1 := by
      push_cast
      ring
    rw [hexp, zpow_add_one₀ (by norm_num)]
    push_cast
    ring

/-- The significand and the exponent field less one of the nearest word. -/
theorem nearest_significand {q : ℚ} (hq : 0 < q) (hlarge : q < 2 ^ f.bias) (hbits : 2 ≤ f.expBits) :
    ∃ e m : Nat, f.nearest q = e * 2 ^ f.fracBits + m ∧ (roundEven (q / 2 ^ f.lastPlace q) : ℤ) = m ∧
      (e + 1 - f.bias - f.fracBits : ℤ) = f.lastPlace q ∧ m ≤ 2 ^ (f.fracBits + 1) ∧
      (e = 0 ∨ 2 ^ f.fracBits ≤ m) ∧ e + 2 < 2 ^ f.expBits := by
  have hunit : (0 : ℚ) < 2 ^ f.lastPlace q := by positivity
  have hexp : 2 ^ f.expBits = 2 * (f.bias + 1) := by
    rw [bias, Nat.sub_add_cancel Nat.one_le_two_pow, ← pow_succ', Nat.sub_add_cancel (by omega)]
  have hlog : Int.log 2 q < f.bias :=
    (Int.lt_zpow_iff_log_lt one_lt_two hq).mp (by exact_mod_cast hlarge)
  have hbias : 0 < f.bias := by
    have := Nat.pow_le_pow_right Nat.two_pos hbits
    omega
  obtain ⟨e, he⟩ : ∃ e : Nat, f.lastPlace q + f.fracBits + f.bias - 1 = e :=
    Int.eq_ofNat_of_zero_le (by unfold lastPlace; omega)
  obtain ⟨m, hm⟩ : ∃ m : Nat, roundEven (q / 2 ^ f.lastPlace q) = m :=
    Int.eq_ofNat_of_zero_le (le_roundEven (by simpa using (div_pos hq hunit).le))
  refine ⟨e, m, ?_, hm, by omega, ?_, ?_, ?_⟩
  · rw [nearest, he, hm, Int.toNat_natCast, Int.toNat_natCast]
  · have hup : q ≤ 2 ^ (f.lastPlace q + (f.fracBits + 1 : ℕ)) := by
      refine (Int.lt_zpow_succ_log_self one_lt_two q).le.trans ?_
      refine zpow_le_zpow_right₀ one_le_two ?_
      unfold lastPlace
      push_cast
      omega
    have hround : roundEven (q / 2 ^ f.lastPlace q) ≤ (2 ^ (f.fracBits + 1) : ℕ) := by
      refine roundEven_le ?_
      rw [div_le_iff₀ hunit, mul_comm]
      rw [zpow_add₀ two_ne_zero, zpow_natCast] at hup
      exact_mod_cast hup
    omega
  · by_cases hnormal : Int.log 2 q < 1 - f.bias
    · left
      rw [lastPlace, max_eq_right hnormal.le] at he
      omega
    · right
      have hlow : (2 : ℚ) ^ (f.lastPlace q + (f.fracBits : ℕ)) ≤ q := by
        rw [lastPlace, max_eq_left (not_lt.mp hnormal), sub_add_cancel]
        exact Int.zpow_log_le_self one_lt_two hq
      have hround : ((2 ^ f.fracBits : ℕ) : ℤ) ≤ roundEven (q / 2 ^ f.lastPlace q) := by
        refine le_roundEven ?_
        rw [le_div_iff₀ hunit, mul_comm]
        rw [zpow_add₀ two_ne_zero, zpow_natCast] at hlow
        exact_mod_cast hlow
      omega
  · unfold lastPlace at he
    omega

theorem value_nearest {q : ℚ} (hq : 0 < q) (hlarge : q < 2 ^ f.bias) (hbits : 2 ≤ f.expBits) :
    f.value (f.nearest q) = roundEven (q / 2 ^ f.lastPlace q) * 2 ^ f.lastPlace q := by
  obtain ⟨e, m, hnearest, hround, hplace, hm, hlead, he⟩ := nearest_significand hq hlarge hbits
  rw [hnearest, value_significand hm hlead he, hround, hplace]
  simp

/-- It has no sign. -/
theorem nearest_lt {q : ℚ} (hq : 0 < q) (hlarge : q < 2 ^ f.bias) (hbits : 2 ≤ f.expBits) :
    f.nearest q < 2 ^ (f.expBits + f.fracBits) := by
  obtain ⟨e, m, hnearest, -, -, hm, -, he⟩ := nearest_significand hq hlarge hbits
  have hle := Nat.mul_le_mul_right (2 ^ f.fracBits) (Nat.succ_le_of_lt he)
  rw [← Nat.pow_add, Nat.succ_mul, Nat.add_mul] at hle
  rw [hnearest]
  have hdouble : 2 ^ (f.fracBits + 1) = 2 * 2 ^ f.fracBits := by ring
  have hpos : 0 < 2 ^ f.fracBits := by positivity
  omega

/-- Half a unit of the last place at most. -/
theorem nearest_error {q : ℚ} (hq : 0 < q) (hlarge : q < 2 ^ f.bias) (hbits : 2 ≤ f.expBits) :
    |f.value (f.nearest q) - q| ≤ 2 ^ f.lastPlace q / 2 := by
  have hunit : (0 : ℚ) < 2 ^ f.lastPlace q := by positivity
  rw [value_nearest hq hlarge hbits]
  have hround := abs_roundEven_sub (q / 2 ^ f.lastPlace q)
  have hscale : (roundEven (q / 2 ^ f.lastPlace q) : ℚ) * 2 ^ f.lastPlace q - q =
      (roundEven (q / 2 ^ f.lastPlace q) - q / 2 ^ f.lastPlace q) * 2 ^ f.lastPlace q := by
    rw [sub_mul, div_mul_cancel₀ q hunit.ne']
  rw [hscale, abs_mul, abs_of_pos hunit]
  linarith [mul_le_mul_of_nonneg_right hround hunit.le]

/-- The last place, in proportion to the number or that of the subnormal ones. -/
theorem lastPlace_le {q : ℚ} (hq : 0 < q) :
    (2 : ℚ) ^ f.lastPlace q ≤ max (q / 2 ^ f.fracBits) (2 ^ (1 - f.bias - f.fracBits : ℤ)) := by
  by_cases hnormal : Int.log 2 q < 1 - f.bias
  · rw [lastPlace, max_eq_right hnormal.le]
    exact le_max_right _ _
  · refine le_max_of_le_left ?_
    rw [lastPlace, max_eq_left (not_lt.mp hnormal), zpow_sub₀ two_ne_zero, zpow_natCast]
    exact div_le_div_of_nonneg_right (Int.zpow_log_le_self one_lt_two hq) (by positivity)

/-- The binade of a word, by its exponent field. -/
theorem magnitude_binade {e m : Nat} (he : e ≠ 0) (hm : m < 2 ^ f.fracBits) :
    2 ^ (e - f.bias : ℤ) ≤ f.magnitude e m ∧ f.magnitude e m < 2 ^ (e - f.bias + 1 : ℤ) := by
  have hunit : (0 : ℚ) < 2 ^ (e - f.bias - f.fracBits : ℤ) := by positivity
  have hsplit : (2 : ℚ) ^ (e - f.bias : ℤ) = 2 ^ f.fracBits * 2 ^ (e - f.bias - f.fracBits : ℤ) := by
    rw [← zpow_natCast, ← zpow_add₀ two_ne_zero]
    congr 1
    ring
  have hm' : (m : ℚ) < 2 ^ f.fracBits := by exact_mod_cast hm
  rw [zpow_add_one₀ two_ne_zero, hsplit, magnitude, if_neg he]
  constructor
  · exact mul_le_mul_of_nonneg_right (by linarith [Nat.cast_nonneg (α := ℚ) m]) hunit.le
  · rw [mul_right_comm]
    exact mul_lt_mul_of_pos_right (by linarith) hunit

/-- Magnitudes are in the order of their words. -/
theorem magnitude_lt {e' m' : Nat} (hm : m < 2 ^ f.fracBits) (h : e < e' ∨ e = e' ∧ m < m') :
    f.magnitude e m < f.magnitude e' m' := by
  rcases h with hexp | ⟨rfl, hfrac⟩
  · have hpos : e' ≠ 0 := by omega
    have hlow : (2 : ℚ) ^ (e' - f.bias : ℤ) ≤ f.magnitude e' m' := by
      have hsplit : (2 : ℚ) ^ (e' - f.bias : ℤ) =
          2 ^ f.fracBits * 2 ^ (e' - f.bias - f.fracBits : ℤ) := by
        rw [← zpow_natCast, ← zpow_add₀ two_ne_zero]
        congr 1
        ring
      rw [magnitude, if_neg hpos, hsplit]
      exact mul_le_mul_of_nonneg_right (by simp) (by positivity)
    refine lt_of_lt_of_le ?_ hlow
    by_cases h0 : e = 0
    · have hm' : (m : ℚ) < 2 ^ f.fracBits := by exact_mod_cast hm
      rw [magnitude, if_pos h0]
      calc (m : ℚ) * 2 ^ (1 - f.bias - f.fracBits : ℤ)
          < 2 ^ f.fracBits * 2 ^ (1 - f.bias - f.fracBits : ℤ) :=
            mul_lt_mul_of_pos_right hm' (by positivity)
        _ = 2 ^ (1 - f.bias : ℤ) := by
            rw [← zpow_natCast, ← zpow_add₀ two_ne_zero]
            congr 1
            ring
        _ ≤ 2 ^ (e' - f.bias : ℤ) := zpow_le_zpow_right₀ one_le_two (by omega)
    · exact (magnitude_binade h0 hm).2.trans_le (zpow_le_zpow_right₀ one_le_two (by omega))
  · have hfrac' : (m : ℚ) < m' := by exact_mod_cast hfrac
    unfold magnitude
    split
    · exact mul_lt_mul_of_pos_right hfrac' (by positivity)
    · exact mul_lt_mul_of_pos_right (by linarith) (by positivity)

theorem magnitude_inj {e' m' : Nat} (hm : m < 2 ^ f.fracBits) (hm' : m' < 2 ^ f.fracBits)
    (h : f.magnitude e m = f.magnitude e' m') : e = e' ∧ m = m' := by
  rcases Nat.lt_trichotomy e e' with hlt | rfl | hgt
  · exact absurd h (magnitude_lt hm (Or.inl hlt)).ne
  · rcases Nat.lt_trichotomy m m' with hlt | rfl | hgt
    · exact absurd h (magnitude_lt hm (Or.inr ⟨rfl, hlt⟩)).ne
    · exact ⟨rfl, rfl⟩
    · exact absurd h (magnitude_lt hm' (Or.inr ⟨rfl, hgt⟩)).ne'
  · exact absurd h (magnitude_lt hm' (Or.inl hgt)).ne'

/-! ### Nearest words -/

/-- No finite word is nearer. -/
structure IsNearest (f : Format) (q : ℚ) (w : Nat) : Prop where
  finite : f.IsFinite w
  least : ∀ v, f.IsFinite v → |f.value w - q| ≤ |f.value v - q|

/-- Nearest words are in the order of the numbers, however halves are rounded. -/
theorem IsNearest.mono {q q' : ℚ} {w w' : Nat} (h : f.IsNearest q w) (h' : f.IsNearest q' w')
    (hlt : q < q') : f.value w ≤ f.value w' := by
  have hw := h.least w' h'.finite
  have hw' := h'.least w h.finite
  by_contra hgt
  rw [not_le] at hgt
  -- both numbers are on the wrong side of the middle
  have hlow : f.value w' + f.value w ≤ 2 * q := by
    rw [← sq_le_sq] at hw
    nlinarith
  have hhigh : 2 * q' ≤ f.value w' + f.value w := by
    rw [← sq_le_sq] at hw'
    nlinarith
  linarith

/-- Above a binade's lower end the words are whole multiples of its last place. -/
theorem value_multiple (e : Nat) (v : Nat) :
    (∃ k : ℤ, f.value v = k * 2 ^ (e + 1 - f.bias - f.fracBits : ℤ)) ∨
      1 ≤ e ∧ f.value v ≤ 2 ^ f.fracBits * 2 ^ (e + 1 - f.bias - f.fracBits : ℤ) := by
  by_cases hbelow : 1 ≤ e ∧ f.expField v ≤ e
  · right
    refine ⟨hbelow.1, ?_⟩
    have hlt : f.magnitude (f.expField v) (f.fracField v) < f.magnitude (e + 1) 0 :=
      magnitude_lt (fracField_lt v) (Or.inl (by omega))
    have htop : f.magnitude (e + 1) 0 = 2 ^ f.fracBits * 2 ^ (e + 1 - f.bias - f.fracBits : ℤ) := by
      rw [magnitude, if_neg (by omega)]
      push_cast
      ring
    rw [← htop]
    exact (le_abs_self _).trans ((abs_value v).trans_le hlt.le)
  · left
    have hmult : ∃ n : ℕ, f.magnitude (f.expField v) (f.fracField v) =
        n * 2 ^ (e + 1 - f.bias - f.fracBits : ℤ) := by
      by_cases h0 : f.expField v = 0
      · refine ⟨f.fracField v, ?_⟩
        have he : (e : ℤ) + 1 = 1 := by omega
        rw [magnitude, if_pos h0, he]
      · refine ⟨(2 ^ f.fracBits + f.fracField v) * 2 ^ (f.expField v - 1 - e), ?_⟩
        have hexp : (f.expField v - f.bias - f.fracBits : ℤ) =
            ((f.expField v - 1 - e : ℕ) : ℤ) + (e + 1 - f.bias - f.fracBits) := by omega
        rw [magnitude, if_neg h0, hexp, zpow_add₀ two_ne_zero, zpow_natCast]
        push_cast
        ring
    obtain ⟨n, hn⟩ := hmult
    refine ⟨(-1) ^ f.signField v * n, ?_⟩
    rw [value, hn]
    push_cast
    ring

/-- A count of units within half a unit of a number makes its nearest word. -/
theorem significand_nearest {q : ℚ} {e m : Nat} (hm : m ≤ 2 ^ (f.fracBits + 1))
    (hlead : e = 0 ∨ 2 ^ f.fracBits ≤ m) (he : e + 2 < 2 ^ f.expBits)
    (hfin : f.IsFinite (e * 2 ^ f.fracBits + m))
    (hlow : e = 0 ∨ 2 ^ f.fracBits ≤ q / 2 ^ (e + 1 - f.bias - f.fracBits : ℤ))
    (hnear : |(m : ℚ) - q / 2 ^ (e + 1 - f.bias - f.fracBits : ℤ)| ≤ 1 / 2) :
    f.IsNearest q (e * 2 ^ f.fracBits + m) := by
  refine ⟨hfin, ?_⟩
  intro v _
  have hvalue := value_significand hm hlead he
  have hmult := value_multiple (f := f) e v
  have hunit : (0 : ℚ) < 2 ^ (e + 1 - f.bias - f.fracBits : ℤ) := by positivity
  rw [hvalue]
  generalize (2 : ℚ) ^ (e + 1 - f.bias - f.fracBits : ℤ) = u at *
  obtain ⟨x, rfl⟩ : ∃ x, q = x * u := ⟨q / u, (div_mul_cancel₀ q hunit.ne').symm⟩
  rw [mul_div_cancel_right₀ x hunit.ne'] at hlow hnear
  -- no whole number of units is nearer
  have hwhole : ∀ k : ℤ, |(m : ℚ) - x| ≤ |k - x| := by
    intro k
    by_cases hk : k = m
    · simp [hk]
    · have hapart : 1 ≤ |(k : ℚ) - m| := by
        have hone : (1 : ℤ) ≤ |k - m| := Int.one_le_abs (sub_ne_zero.mpr hk)
        exact_mod_cast hone
      have htri : |(k : ℚ) - m| ≤ |k - x| + |m - x| := by
        have hsplit : (k : ℚ) - m = (k - x) - (m - x) := by ring
        rw [hsplit]
        exact abs_sub _ _
      linarith
  have hscale : ∀ y : ℚ, |y * u - x * u| = |y - x| * u := by
    intro y
    rw [← sub_mul, abs_mul, abs_of_pos hunit]
  rcases hmult with ⟨k, hk⟩ | ⟨hpos, hbelow⟩
  · rw [hk, hscale, hscale]
    exact mul_le_mul_of_nonneg_right (hwhole k) hunit.le
  · have hx : (2 : ℚ) ^ f.fracBits ≤ x := hlow.resolve_left (by omega)
    have hend := hwhole (2 ^ f.fracBits)
    push_cast at hend
    rw [hscale]
    calc |(m : ℚ) - x| * u ≤ |2 ^ f.fracBits - x| * u := mul_le_mul_of_nonneg_right hend hunit.le
      _ = x * u - 2 ^ f.fracBits * u := by
          rw [abs_sub_comm, abs_of_nonneg (by linarith), sub_mul]
      _ ≤ x * u - f.value v := by linarith
      _ ≤ |f.value v - x * u| := by
          rw [abs_sub_comm]
          exact le_abs_self _

/-- The other sign. -/
theorem IsNearest.neg {q : ℚ} {w : Nat} (h : f.IsNearest q w) :
    f.IsNearest (-q) (2 ^ (f.expBits + f.fracBits) + w) := by
  have hflip : ∀ v, f.expField (2 ^ (f.expBits + f.fracBits) + v) = f.expField v ∧
      f.value (2 ^ (f.expBits + f.fracBits) + v) = -f.value v := by
    intro v
    have hpack : 2 ^ (f.expBits + f.fracBits) + v =
        f.pack (f.signField v + 1) (f.expField v) (f.fracField v) := by
      have hv := pack_fields (f := f) v
      rw [pack] at hv ⊢
      rw [Nat.succ_mul]
      omega
    constructor
    · rw [hpack, (fields_pack (expField_lt v) (fracField_lt v)).2.1]
    · rw [hpack, value_pack (expField_lt v) (fracField_lt v), value, pow_succ]
      ring
  refine ⟨?_, ?_⟩
  · rw [IsFinite, (hflip w).1]
    exact h.finite
  · intro v hv
    have hleast := h.least (2 ^ (f.expBits + f.fracBits) + v) (by rw [IsFinite, (hflip v).1]; exact hv)
    rw [(hflip v).2] at hleast
    rw [(hflip w).2]
    have hneg : ∀ a b : ℚ, |-a - b| = |a - -b| := by
      intro a b
      rw [← abs_neg]
      congr 1
      ring
    rwa [hneg, neg_neg, ← hneg]

end Format

/-! ### Whole numbers -/

/-- To the nearest multiple of `u`, halves to the even one. -/
def roundMultiple (u k : Nat) : Nat :=
  if 2 * (k % u) < u ∨ 2 * (k % u) = u ∧ k / u % 2 = 0 then k / u * u else (k / u + 1) * u

/-- To `p` significant bits, halves to the even one. -/
def roundSignificant (p k : Nat) : Nat := roundMultiple (2 ^ (k.log2 + 1 - p)) k

theorem roundMultiple_near {u : Nat} (hu : 0 < u) (k : Nat) :
    2 * roundMultiple u k ≤ 2 * k + u ∧ 2 * k ≤ 2 * roundMultiple u k + u := by
  have hdiv := Nat.div_add_mod' k u
  have hmod := Nat.mod_lt k hu
  have hnext := Nat.add_one_mul (k / u) u
  unfold roundMultiple
  split_ifs with h
  · omega
  · omega

theorem le_roundMultiple {u k m : Nat} (hu : 0 < u) (h : m * u ≤ k) : m * u ≤ roundMultiple u k := by
  have hle := Nat.mul_le_mul_right u ((Nat.le_div_iff_mul_le hu).mpr h)
  have hnext := Nat.add_one_mul (k / u) u
  unfold roundMultiple
  split_ifs
  · exact hle
  · omega

theorem roundMultiple_le {u k m : Nat} (hu : 0 < u) (h : k ≤ m * u) : roundMultiple u k ≤ m * u := by
  have hdiv := Nat.div_add_mod' k u
  have hfloor : k / u ≤ m := Nat.div_le_of_le_mul (by rwa [Nat.mul_comm])
  unfold roundMultiple
  split_ifs with hdown
  · exact Nat.mul_le_mul_right u hfloor
  · refine Nat.mul_le_mul_right u (Nat.succ_le_of_lt (lt_of_le_of_ne hfloor fun heq => hdown ?_))
    rw [heq] at hdiv
    exact .inl (by omega)

theorem roundMultiple_mono {u : Nat} (hu : 0 < u) : Monotone (roundMultiple u) := by
  intro k k' hk
  have hdiv := Nat.div_add_mod' k u
  have hdiv' := Nat.div_add_mod' k' u
  rcases Nat.lt_or_eq_of_le (Nat.div_le_div_right (c := u) hk) with hlt | heq
  · have hup : k ≤ (k / u + 1) * u := (Nat.lt_mul_of_div_lt (Nat.lt_succ_self _) hu).le
    have hdown : (k / u + 1) * u ≤ k' := (Nat.le_div_iff_mul_le hu).mp hlt
    exact (roundMultiple_le hu hup).trans (le_roundMultiple hu hdown)
  · have hnext := Nat.add_one_mul (k / u) u
    unfold roundMultiple
    rw [← heq] at hdiv' ⊢
    split_ifs <;> omega

section Significant

variable {p n k : Nat}

theorem roundSignificant_mono (hp : 0 < p) : Monotone (roundSignificant p) := by
  intro k k' hk
  obtain ⟨s, hs⟩ : ∃ s, k.log2 + 1 - p = s := ⟨_, rfl⟩
  obtain ⟨s', hs'⟩ : ∃ s', k'.log2 + 1 - p = s' := ⟨_, rfl⟩
  have hlog : k.log2 ≤ k'.log2 := by
    rw [Nat.log2_eq_log_two, Nat.log2_eq_log_two]
    exact Nat.log_mono_right hk
  unfold roundSignificant
  rw [hs, hs']
  rcases Nat.eq_or_lt_of_le (show s ≤ s' by omega) with rfl | hlt
  · exact roundMultiple_mono (Nat.two_pow_pos s) hk
  · -- between the two there is a power of two, a multiple of either unit
    have hk0 : k' ≠ 0 := by
      rintro rfl
      simp at hs'
      omega
    have hbelow : k ≤ 2 ^ p * 2 ^ s := by
      rw [← Nat.pow_add]
      exact Nat.lt_log2_self.le.trans (Nat.pow_le_pow_right Nat.two_pos (by omega))
    have habove : 2 ^ (p - 1) * 2 ^ s' ≤ k' := by
      have hpow : 2 ^ (p - 1) * 2 ^ s' = 2 ^ k'.log2 := by
        rw [← Nat.pow_add]
        congr 1
        omega
      rw [hpow]
      exact Nat.log2_self_le hk0
    have hmid : 2 ^ p * 2 ^ s ≤ 2 ^ (p - 1) * 2 ^ s' := by
      rw [← Nat.pow_add, ← Nat.pow_add]
      exact Nat.pow_le_pow_right Nat.two_pos (by omega)
    exact (roundMultiple_le (Nat.two_pow_pos s) hbelow).trans
      (hmid.trans (le_roundMultiple (Nat.two_pow_pos s') habove))

/-- The unit of the last place is that of numbers of `n` bits at most. -/
theorem log2_le_of_lt (hk : k < 2 ^ n) (hn : 0 < n) : k.log2 + 1 ≤ n := by
  rw [Nat.log2_eq_log_two]
  exact Nat.log_lt_of_lt_pow' (by omega) hk

theorem roundSignificant_near (hn : 0 < n) (hk : k < 2 ^ n) :
    2 * roundSignificant p k ≤ 2 * k + 2 ^ (n - p) ∧
      2 * k ≤ 2 * roundSignificant p k + 2 ^ (n - p) := by
  have hnear := roundMultiple_near (Nat.two_pow_pos (k.log2 + 1 - p)) k
  have hunit : 2 ^ (k.log2 + 1 - p) ≤ 2 ^ (n - p) :=
    Nat.pow_le_pow_right Nat.two_pos (Nat.sub_le_sub_right (log2_le_of_lt hk hn) p)
  unfold roundSignificant
  omega

theorem roundSignificant_le (hn : 0 < n) (hk : k < 2 ^ n) : roundSignificant p k ≤ 2 ^ n := by
  have hlog := log2_le_of_lt hk hn
  have hpow : 2 ^ n = 2 ^ (n - (k.log2 + 1 - p)) * 2 ^ (k.log2 + 1 - p) := by
    rw [← Nat.pow_add]
    congr 1
    omega
  have hle := roundMultiple_le (Nat.two_pow_pos (k.log2 + 1 - p)) (hpow ▸ hk.le)
  rwa [← hpow] at hle

end Significant

theorem roundEven_natCast (m : Nat) : roundEven m = m :=
  le_antisymm (roundEven_le (by simp)) (le_roundEven (by simp))

theorem roundEven_div {u : Nat} (hu : 0 < u) (k : Nat) :
    (roundEven ((k : ℚ) / u) : ℚ) * u = roundMultiple u k := by
  have hu' : (0 : ℚ) < u := by exact_mod_cast hu
  have hfloor : ⌊(k : ℚ) / u⌋ = ((k / u : Nat) : ℤ) := by
    rw [Rat.floor_natCast_div_natCast, Int.natCast_ediv]
  have hdiv : (k : ℚ) / u - ((k / u : Nat) : ℚ) = (k % u : Nat) / u := by
    rw [eq_div_iff hu'.ne', sub_mul, div_mul_cancel₀ _ hu'.ne', sub_eq_iff_eq_add]
    exact_mod_cast (Nat.mod_add_div' k u).symm
  have hlt : (k : ℚ) / u - ((k / u : Nat) : ℚ) < 1 / 2 ↔ 2 * (k % u) < u := by
    rw [hdiv, div_lt_div_iff₀ hu' two_pos, one_mul, mul_comm]
    exact_mod_cast Iff.rfl
  have heq : (k : ℚ) / u - ((k / u : Nat) : ℚ) = 1 / 2 ↔ 2 * (k % u) = u := by
    rw [hdiv, div_eq_div_iff hu'.ne' two_ne_zero, one_mul, mul_comm]
    exact_mod_cast Iff.rfl
  have heven : ((k / u : Nat) : ℤ) % 2 = 0 ↔ k / u % 2 = 0 := by omega
  unfold roundEven roundMultiple
  rw [hfloor]
  simp only [Int.cast_natCast, hlt, heq, heven]
  split_ifs <;> push_cast <;> rfl

/-- **Rounding to the format's bits.** A whole number divided by a power of two, below
`1` and not subnormal. -/
theorem Format.value_nearest_div {f : Format} {n k : Nat} (hk0 : 0 < k) (hk : k < 2 ^ n)
    (hn : n < f.bias) (hbits : 2 ≤ f.expBits) :
    f.value (f.nearest ((k : ℚ) / 2 ^ n)) = (roundSignificant (f.fracBits + 1) k : ℚ) / 2 ^ n := by
  have hpow : (0 : ℚ) < 2 ^ n := by positivity
  have hq : (0 : ℚ) < (k : ℚ) / 2 ^ n := by positivity
  have hq1 : (k : ℚ) / 2 ^ n < 1 := by
    rw [div_lt_one hpow]
    exact_mod_cast hk
  have hlarge : (k : ℚ) / 2 ^ n < 2 ^ f.bias := hq1.trans_le (one_le_pow₀ one_le_two)
  have hlow : 2 ^ k.log2 ≤ k := Nat.log2_self_le hk0.ne'
  have hhigh : k < 2 ^ (k.log2 + 1) := Nat.lt_log2_self
  have hscale : ∀ z : ℤ, (2 : ℚ) ^ (z - n) = 2 ^ z / 2 ^ n := by
    intro z
    rw [zpow_sub₀ two_ne_zero, zpow_natCast]
  have hlog : Int.log 2 ((k : ℚ) / 2 ^ n) = k.log2 - n := by
    refine le_antisymm (Int.lt_add_one_iff.mp ?_) ?_
    · rw [← Int.lt_zpow_iff_log_lt one_lt_two hq, Nat.cast_ofNat, sub_add_eq_add_sub, hscale]
      exact div_lt_div_of_pos_right (by exact_mod_cast hhigh) hpow
    · rw [← Int.zpow_le_iff_le_log one_lt_two hq, Nat.cast_ofNat, hscale]
      exact div_le_div_of_nonneg_right (by exact_mod_cast hlow) hpow.le
  have hplace : f.lastPlace ((k : ℚ) / 2 ^ n) = k.log2 - f.fracBits - n := by
    rw [Format.lastPlace, hlog, max_eq_left (by omega)]
    ring
  rw [value_nearest hq hlarge hbits, hplace, hscale, div_div_div_cancel_right₀ hpow.ne',
    mul_div_assoc']
  congr 1
  -- the last place is a whole number, or the number has few enough bits
  rcases Nat.le_total k.log2 f.fracBits with hfew | hmany
  · obtain ⟨d, hd⟩ := Nat.exists_eq_add_of_le hfew
    have hunit : (2 : ℚ) ^ ((k.log2 : ℤ) - f.fracBits) = (2 ^ d)⁻¹ := by
      rw [hd, Nat.cast_add, sub_add_cancel_left, zpow_neg, zpow_natCast]
    have hshift : (k : ℚ) / (2 ^ d)⁻¹ = ((k * 2 ^ d : Nat) : ℚ) := by
      rw [div_inv_eq_mul]
      push_cast
      rfl
    have hone : k.log2 + 1 - (f.fracBits + 1) = 0 := by omega
    have hsame : roundSignificant (f.fracBits + 1) k = k := by
      simp [roundSignificant, hone, roundMultiple, Nat.mod_one]
    rw [hunit, hshift, roundEven_natCast, hsame]
    push_cast
    rw [mul_inv_cancel_right₀ (by positivity)]
  · obtain ⟨d, hd⟩ := Nat.exists_eq_add_of_le hmany
    have hunit : (2 : ℚ) ^ ((k.log2 : ℤ) - f.fracBits) = ((2 ^ d : Nat) : ℚ) := by
      rw [hd, Nat.cast_add, add_sub_cancel_left, zpow_natCast]
      push_cast
      rfl
    have hplaces : k.log2 + 1 - (f.fracBits + 1) = d := by omega
    rw [hunit, roundEven_div (Nat.two_pow_pos d), roundSignificant, hplaces]

end LlmPager.Lib
