import Mathlib

/-!
# LlmPager.Lib.XorShift

The period of a generator that is linear over bits.

A word is a natural number, and so is a polynomial over the field of two elements: its bits
are the coefficients. A polynomial in the step `f` maps words to words (`eval`). Where a
polynomial of degree `w` in the step annihilates a word, powers of the step are computed on
that word by squaring modulo the polynomial (`eval_powMod`), which is how a period near `2 ^ w`
can be checked at all. If it is `2 ^ w - 1`, every word but zero is on the one cycle
(`FullPeriod`).
-/

namespace LlmPager.Lib

open Function (IsPeriodicPt minimalPeriod)

/-- The words' sum is `xor`. -/
def XorLinear (f : Nat → Nat) : Prop := ∀ x y, f (x ^^^ y) = f x ^^^ f y

/-- A polynomial of `n` coefficients in the step, at a word. -/
def eval (f : Nat → Nat) : Nat → Nat → Nat → Nat
  | 0, _, _ => 0
  | n + 1, a, x => (if a % 2 = 1 then x else 0) ^^^ eval f n (a / 2) (f x)

/-- A polynomial times the variable, modulo one of degree `w`. -/
def timesX (w P a : Nat) : Nat := if 2 * a < 2 ^ w then 2 * a else 2 * a ^^^ P

/-- The product modulo `P` with a polynomial of `n` coefficients. -/
def mulMod (w P : Nat) : Nat → Nat → Nat → Nat
  | 0, _, _ => 0
  | n + 1, a, b => (if b % 2 = 1 then a else 0) ^^^ mulMod w P n (timesX w P a) (b / 2)

/-- The variable to a power below `2 ^ n`, modulo `P`. -/
def powMod (w P : Nat) : Nat → Nat → Nat
  | 0, _ => 1
  | n + 1, e =>
      let r := powMod w P n (e / 2)
      let s := mulMod w P w r r
      if e % 2 = 1 then timesX w P s else s

section

variable {f : Nat → Nat}

theorem XorLinear.zero (hf : XorLinear f) : f 0 = 0 := by
  have h := hf 0 0
  rwa [Nat.xor_self, Nat.xor_self] at h

theorem XorLinear.iterate (hf : XorLinear f) (k : Nat) : XorLinear f^[k] := by
  induction k with
  | zero => exact fun _ _ => rfl
  | succ k ih =>
      intro x y
      rw [Function.iterate_succ_apply, hf, ih]
      rfl

theorem xor_xor_comm (a b c d : Nat) : (a ^^^ b) ^^^ (c ^^^ d) = (a ^^^ c) ^^^ (b ^^^ d) := by
  rw [Nat.xor_assoc, ← Nat.xor_assoc b, Nat.xor_comm b c, Nat.xor_assoc, ← Nat.xor_assoc]

/-- A word and a linear image of it. -/
theorem XorLinear.xor_self (hf : XorLinear f) : XorLinear fun x => x ^^^ f x := by
  intro x y
  dsimp only
  rw [hf, xor_xor_comm]

/-- A shift to the left, in `w` bits. -/
theorem XorLinear.shiftLeft (k w : Nat) : XorLinear fun x => x <<< k % 2 ^ w := by
  intro x y
  dsimp only
  rw [Nat.shiftLeft_xor_distrib, Nat.xor_mod_two_pow]

theorem XorLinear.shiftRight (k : Nat) : XorLinear fun x => x >>> k :=
  fun _ _ => Nat.shiftRight_xor_distrib

theorem XorLinear.comp {g : Nat → Nat} (hf : XorLinear f) (hg : XorLinear g) :
    XorLinear fun x => f (g x) := by
  intro x y
  dsimp only
  rw [hg, hf]

/-- Coefficients add up. -/
theorem eval_xor (f : Nat → Nat) (n a b x : Nat) :
    eval f n (a ^^^ b) x = eval f n a x ^^^ eval f n b x := by
  induction n generalizing a b x with
  | zero => simp [eval]
  | succ n ih =>
      have hbit : (if (a ^^^ b) % 2 = 1 then x else 0) =
          (if a % 2 = 1 then x else 0) ^^^ (if b % 2 = 1 then x else 0) := by
        have hodd : (a ^^^ b) % 2 = 1 ↔ ¬(a % 2 = 1 ↔ b % 2 = 1) := Nat.xor_mod_two_eq_one
        simp only [hodd]
        by_cases ha : a % 2 = 1 <;> by_cases hb : b % 2 = 1 <;> simp [ha, hb]
      simp only [eval, Nat.xor_div_two, ih, hbit, xor_xor_comm]

/-- Polynomials in the step commute with it. -/
theorem eval_step (hf : XorLinear f) (n a x : Nat) : eval f n a (f x) = f (eval f n a x) := by
  induction n generalizing a x with
  | zero => exact hf.zero.symm
  | succ n ih =>
      simp only [eval, ih]
      rw [hf]
      split
      · rfl
      · rw [hf.zero]

theorem eval_iterate (hf : XorLinear f) (n a k x : Nat) : eval f n a (f^[k] x) = f^[k] (eval f n a x) := by
  induction k generalizing x with
  | zero => rfl
  | succ k ih => rw [Function.iterate_succ_apply, Function.iterate_succ_apply, ih, eval_step hf]

@[simp] theorem eval_zero (n x : Nat) : eval f n 0 x = 0 := by
  induction n generalizing x with
  | zero => rfl
  | succ n ih => simp [eval, ih]

theorem eval_one (n x : Nat) : eval f (n + 1) 1 x = x := by simp [eval]

/-- Coefficients that are zero do not count. -/
theorem eval_of_lt {n m a : Nat} (ha : a < 2 ^ n) (hn : n ≤ m) (x : Nat) :
    eval f m a x = eval f n a x := by
  induction n generalizing m a x with
  | zero =>
      obtain rfl : a = 0 := by simpa using ha
      simp
  | succ n ih =>
      obtain ⟨m, rfl⟩ : ∃ k, m = k + 1 := ⟨m - 1, by omega⟩
      rw [pow_succ] at ha
      simp only [eval]
      rw [ih (by omega) (by omega)]

theorem eval_double (n a x : Nat) : eval f (n + 1) (2 * a) x = eval f n a (f x) := by
  simp [eval]

variable {w P x₀ : Nat}

theorem timesX_lt (hP : 2 ^ w ≤ P ∧ P < 2 ^ (w + 1)) {a : Nat} (ha : a < 2 ^ w) :
    timesX w P a < 2 ^ w := by
  unfold timesX
  split
  · assumption
  · next hle =>
    have hbit : ∀ n, 2 ^ w ≤ n → n < 2 ^ (w + 1) → n.testBit w = true := by
      intro n hn hn'
      rw [Nat.testBit_eq_decide_div_mod_eq, decide_eq_true_eq]
      rw [pow_succ] at hn'
      have hdiv : n / 2 ^ w = 1 := by
        apply Nat.div_eq_of_lt_le <;> omega
      rw [hdiv]
    have hlt : 2 * a ^^^ P < 2 ^ (w + 1) := Nat.xor_lt_two_pow (by rw [pow_succ]; omega) hP.2
    refine Nat.lt_of_testBit w ?_ ?_ ?_
    · rw [Nat.testBit_xor, hbit _ (by omega) (by rw [pow_succ]; omega), hbit _ hP.1 hP.2]
      rfl
    · simp
    · intro j hj
      rw [Nat.testBit_lt_two_pow (hlt.trans_le (Nat.pow_le_pow_right (by omega) hj)),
        Nat.testBit_two_pow_of_ne (by omega)]

theorem eval_timesX (hf : XorLinear f) (hroot : eval f (w + 1) P x₀ = 0) {a : Nat} (ha : a < 2 ^ w) :
    eval f (w + 1) (timesX w P a) x₀ = f (eval f (w + 1) a x₀) := by
  have hdouble : eval f (w + 1) (2 * a) x₀ = f (eval f (w + 1) a x₀) := by
    rw [eval_double, eval_step hf, eval_of_lt ha (Nat.le_succ w)]
  unfold timesX
  split
  · exact hdouble
  · rw [eval_xor, hroot, Nat.xor_zero, hdouble]

theorem mulMod_lt (hP : 2 ^ w ≤ P ∧ P < 2 ^ (w + 1)) (n : Nat) {a b : Nat} (ha : a < 2 ^ w) :
    mulMod w P n a b < 2 ^ w := by
  induction n generalizing a b with
  | zero => exact Nat.two_pow_pos w
  | succ n ih =>
      refine Nat.xor_lt_two_pow ?_ (ih (timesX_lt hP ha))
      split
      · exact ha
      · exact Nat.two_pow_pos w

/-- Multiplying polynomials composes them. -/
theorem eval_mulMod (hf : XorLinear f) (hP : 2 ^ w ≤ P ∧ P < 2 ^ (w + 1))
    (hroot : eval f (w + 1) P x₀ = 0) (n : Nat) {a b : Nat} (ha : a < 2 ^ w) :
    eval f (w + 1) (mulMod w P n a b) x₀ = eval f n b (eval f (w + 1) a x₀) := by
  induction n generalizing a b with
  | zero => exact eval_zero _ _
  | succ n ih =>
      rw [mulMod, eval_xor, ih (timesX_lt hP ha), eval_timesX hf hroot ha]
      show _ = (if b % 2 = 1 then _ else 0) ^^^ eval f n (b / 2) (f _)
      split
      · rfl
      · rw [eval_zero]

theorem powMod_lt (hw : 0 < w) (hP : 2 ^ w ≤ P ∧ P < 2 ^ (w + 1)) (n e : Nat) :
    powMod w P n e < 2 ^ w := by
  induction n generalizing e with
  | zero => exact Nat.one_lt_two_pow hw.ne'
  | succ n ih =>
      simp only [powMod]
      split
      · exact timesX_lt hP (mulMod_lt hP w (ih _))
      · exact mulMod_lt hP w (ih _)

/-- **Powers of the step by squaring.** -/
theorem eval_powMod (hf : XorLinear f) (hw : 0 < w) (hP : 2 ^ w ≤ P ∧ P < 2 ^ (w + 1))
    (hroot : eval f (w + 1) P x₀ = 0) {n e : Nat} (he : e < 2 ^ n) :
    eval f (w + 1) (powMod w P n e) x₀ = f^[e] x₀ := by
  induction n generalizing e with
  | zero =>
      obtain rfl : e = 0 := by simpa using he
      exact eval_one w x₀
  | succ n ih =>
      have hlt := powMod_lt hw hP n (e / 2)
      have hhalf := ih (show e / 2 < 2 ^ n by rw [pow_succ] at he; omega)
      have hsquare : eval f (w + 1) (mulMod w P w (powMod w P n (e / 2)) (powMod w P n (e / 2))) x₀ =
          f^[e / 2 + e / 2] x₀ := by
        rw [eval_mulMod hf hP hroot w hlt, hhalf, ← eval_of_lt hlt (Nat.le_succ w), eval_iterate hf,
          hhalf, Function.iterate_add_apply]
      simp only [powMod]
      split
      · rw [eval_timesX hf hroot (mulMod_lt hP w hlt), hsquare, ← Function.iterate_succ_apply' f]
        congr 2
        omega
      · rw [hsquare]
        congr 2
        omega

end

/-! ### Periods -/

/-- A period that no division by a prime shortens. -/
theorem minimalPeriod_eq_of_prime {α : Type*} {f : α → α} {x : α} {N : Nat}
    (hper : IsPeriodicPt f N x) (hprime : ∀ p, p.Prime → p ∣ N → ¬IsPeriodicPt f (N / p) x) :
    minimalPeriod f x = N := by
  obtain ⟨k, hk⟩ := hper.minimalPeriod_dvd
  by_contra hne
  have hk1 : k ≠ 1 := by
    rintro rfl
    exact hne (by rw [hk, Nat.mul_one])
  obtain ⟨p, hp, m, rfl⟩ := Nat.exists_prime_and_dvd hk1
  refine hprime p hp ⟨minimalPeriod f x * m, by rw [hk]; ring⟩ ?_
  rw [Function.isPeriodicPt_iff_minimalPeriod_dvd]
  refine ⟨m, Nat.div_eq_of_eq_mul_left hp.pos ?_⟩
  rw [hk]
  ring

/-- What is checked of a word's period: a polynomial of degree `w` annihilates the word, and
the step is back at it after `2 ^ w - 1` turns, but not after that divided by a prime. -/
structure PeriodCertificate (f : Nat → Nat) (w x₀ : Nat) where
  poly : Nat
  bounds : 2 ^ w ≤ poly ∧ poly < 2 ^ (w + 1)
  root : eval f (w + 1) poly x₀ = 0
  back : eval f (w + 1) (powMod w poly w (2 ^ w - 1)) x₀ = x₀
  primes : List Nat
  mem_primes : ∀ p, p.Prime → p ∣ 2 ^ w - 1 → p ∈ primes
  away : ∀ p ∈ primes, eval f (w + 1) (powMod w poly w ((2 ^ w - 1) / p)) x₀ ≠ x₀

theorem PeriodCertificate.minimalPeriod_eq {f : Nat → Nat} {w x₀ : Nat}
    (c : PeriodCertificate f w x₀) (hf : XorLinear f) (hw : 0 < w) :
    minimalPeriod f x₀ = 2 ^ w - 1 := by
  have hpow : ∀ {e}, e < 2 ^ w → f^[e] x₀ = eval f (w + 1) (powMod w c.poly w e) x₀ :=
    fun he => (eval_powMod hf hw c.bounds c.root he).symm
  have hlt : 2 ^ w - 1 < 2 ^ w := Nat.sub_lt (Nat.two_pow_pos w) Nat.one_pos
  refine minimalPeriod_eq_of_prime ((hpow hlt).trans c.back) fun p hp hdvd hperiodic => ?_
  refine c.away p (c.mem_primes p hp hdvd) ?_
  rw [← hpow ((Nat.div_le_self _ _).trans_lt hlt)]
  exact hperiodic

/-- The words of `w` bits but zero are one cycle of the step. -/
structure FullPeriod (w : Nat) (f : Nat → Nat) : Prop where
  period : ∀ x, 0 < x → x < 2 ^ w → minimalPeriod f x = 2 ^ w - 1
  covers : ∀ x, 0 < x → x < 2 ^ w →
    (Finset.range (2 ^ w - 1)).image (fun k => f^[k] x) = Finset.Ioo 0 (2 ^ w)

/-- One word of the longest period is enough. -/
theorem FullPeriod.of_word {w x₀ : Nat} {f : Nat → Nat} (hf : XorLinear f)
    (hlt : ∀ x < 2 ^ w, f x < 2 ^ w) (hpos : 0 < x₀) (hx₀ : x₀ < 2 ^ w)
    (hperiod : minimalPeriod f x₀ = 2 ^ w - 1) : FullPeriod w f := by
  have hN : 0 < 2 ^ w - 1 := by omega
  have hcycle : x₀ ∈ Function.periodicPts f :=
    Function.minimalPeriod_pos_iff_mem_periodicPts.mp (hperiod ▸ hN)
  have hbound : ∀ k, f^[k] x₀ < 2 ^ w := by
    intro k
    induction k with
    | zero => exact hx₀
    | succ k ih =>
        rw [Function.iterate_succ_apply']
        exact hlt _ ih
  have hzero : ∀ k j, f^[k] x₀ = 0 → f^[j + k] x₀ = 0 := by
    intro k j hk
    rw [Function.iterate_add_apply, hk]
    exact (hf.iterate j).zero
  have hne : ∀ k, 0 < f^[k] x₀ := by
    intro k
    by_contra h
    have hback := hzero k (k * (2 ^ w - 1) - k) (by omega)
    rw [Nat.sub_add_cancel (Nat.le_mul_of_pos_right k hN), ← hperiod, Nat.mul_comm,
      (Function.isPeriodicPt_minimalPeriod f x₀).mul_const k] at hback
    exact hpos.ne' hback
  have hperiodOf : ∀ k, minimalPeriod f (f^[k] x₀) = 2 ^ w - 1 := fun k =>
    (Function.minimalPeriod_apply_iterate hcycle k).trans hperiod
  have himage : ∀ i, (Finset.range (2 ^ w - 1)).image (fun k => f^[k] (f^[i] x₀)) =
      Finset.Ioo 0 (2 ^ w) := by
    intro i
    refine Finset.eq_of_subset_of_card_le ?_ ?_
    · intro y hy
      obtain ⟨k, -, rfl⟩ := Finset.mem_image.mp hy
      rw [← Function.iterate_add_apply]
      exact Finset.mem_Ioo.mpr ⟨hne _, hbound _⟩
    · rw [Finset.card_image_of_injOn, Finset.card_range, Nat.card_Ioo]
      · omega
      · rw [← hperiodOf i]
        intro a ha b hb hab
        exact Function.iterate_injOn_Iio_minimalPeriod (by simpa using ha) (by simpa using hb) hab
  have horbit : ∀ x, 0 < x → x < 2 ^ w → ∃ k, f^[k] x₀ = x := by
    intro x hx hxw
    have hmem : x ∈ (Finset.range (2 ^ w - 1)).image (fun k => f^[k] (f^[0] x₀)) := by
      rw [himage 0]
      exact Finset.mem_Ioo.mpr ⟨hx, hxw⟩
    obtain ⟨k, -, hk⟩ := Finset.mem_image.mp hmem
    exact ⟨k, hk⟩
  constructor
  · intro x hx hxw
    obtain ⟨k, rfl⟩ := horbit x hx hxw
    exact hperiodOf k
  · intro x hx hxw
    obtain ⟨k, rfl⟩ := horbit x hx hxw
    exact himage k

namespace FullPeriod

variable {w : Nat} {f : Nat → Nat}

/-- What the words of a whole period are counted by. -/
theorem card_filter (h : FullPeriod w f) {x : Nat} (hpos : 0 < x) (hlt : x < 2 ^ w) (Q : Nat → Prop)
    [DecidablePred Q] : ((Finset.range (2 ^ w - 1)).filter fun k => Q (f^[k] x)).card =
      ((Finset.Ioo 0 (2 ^ w)).filter Q).card := by
  have hinj : Set.InjOn (fun k => f^[k] x) (Finset.range (2 ^ w - 1) : Set Nat) := by
    rw [← h.period x hpos hlt]
    intro a ha b hb hab
    exact Function.iterate_injOn_Iio_minimalPeriod (by simpa using ha) (by simpa using hb) hab
  rw [← h.covers x hpos hlt, Finset.filter_image, Finset.card_image_of_injOn]
  exact hinj.mono fun k hk => (Finset.mem_filter.mp hk).1

end FullPeriod

end LlmPager.Lib
