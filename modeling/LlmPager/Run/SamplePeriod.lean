import LlmPager.Lib.XorShift
import LlmPager.Run.SampleSpec

/-!
# LlmPager.Run.SamplePeriod

What the generator behind the draws is worth.

Its step is linear over bits, with an annihilating polynomial of degree 64, so that its
period can be checked: it is `2 ^ 64 - 1`, from every seed (`sampleRng_period`). Over a whole
period each state but zero occurs once. A draw keeps 24 significant bits of 53, so that a
threshold is off by `2 ^ 28` of the `2 ^ 53` at most (`exists_cut`), and a token is drawn as often
as its mass says, up to `2 ^ 40 + 2 ^ 11` draws of the `2 ^ 64` (`sample_frequency`).
-/

namespace LlmPager.Sample

open Lib (UnstableSort XorLinear FullPeriod PeriodCertificate descLe firstSum roundSignificant)

variable {F : Type}

/-! ### The period -/

/-- The step of the generator, on numbers. -/
def xorshift (x : Nat) : Nat :=
  let x := x ^^^ (x <<< 13 % 2 ^ 64)
  let x := x ^^^ (x >>> 7)
  x ^^^ (x <<< 17 % 2 ^ 64)

theorem xorshift_linear : XorLinear xorshift :=
  (XorLinear.shiftLeft 17 64).xor_self.comp
    ((XorLinear.shiftRight 7).xor_self.comp (XorLinear.shiftLeft 13 64).xor_self)

theorem xorshift_lt {x : Nat} (hx : x < 2 ^ 64) : xorshift x < 2 ^ 64 := by
  have hmod : ∀ y, y % 2 ^ 64 < 2 ^ 64 := fun y => Nat.mod_lt _ (Nat.two_pow_pos 64)
  have hshift : ∀ {y}, y < 2 ^ 64 → y >>> 7 < 2 ^ 64 := fun hy =>
    (Nat.shiftRight_le _ _).trans_lt hy
  unfold xorshift
  have hfirst := Nat.xor_lt_two_pow hx (hmod (x <<< 13))
  have hsecond := Nat.xor_lt_two_pow hfirst (hshift hfirst)
  exact Nat.xor_lt_two_pow hsecond (hmod _)

/-- The polynomial of degree 64 that annihilates the state `1`. -/
def xorshiftPoly : Nat := 0x1013ed4a358913201

/-- The primes that divide `2 ^ 64 - 1`. -/
def periodPrimes : List Nat := [3, 5, 17, 257, 641, 65537, 6700417]

theorem mem_periodPrimes {p : Nat} (hp : p.Prime) (h : p ∣ 2 ^ 64 - 1) : p ∈ periodPrimes := by
  have hprod : 2 ^ 64 - 1 = periodPrimes.prod := by decide
  have hprimes : ∀ q ∈ periodPrimes, q.Prime := by
    simp only [periodPrimes, List.forall_mem_cons]
    norm_num
  rw [hprod] at h
  obtain ⟨q, hq, hdvd⟩ := (hp.prime.dvd_prod_iff).mp h
  rwa [(Nat.prime_dvd_prime_iff_eq hp (hprimes q hq)).mp hdvd]

def xorshiftPeriod : PeriodCertificate xorshift 64 1 where
  poly := xorshiftPoly
  bounds := by decide
  root := by decide +kernel
  back := by decide +kernel
  primes := periodPrimes
  mem_primes _ := mem_periodPrimes
  away := by decide +kernel

theorem xorshift_period : FullPeriod 64 xorshift :=
  .of_word xorshift_linear (fun _ => xorshift_lt) (by decide) (by decide)
    (xorshiftPeriod.minimalPeriod_eq xorshift_linear (by decide))

/-! ### The stream -/

section Stream

variable [Field F]

theorem toNat_xorshift (x : UInt64) :
    ((x ^^^ (x <<< 13)) ^^^ ((x ^^^ (x <<< 13)) >>> 7) ^^^
      (((x ^^^ (x <<< 13)) ^^^ ((x ^^^ (x <<< 13)) >>> 7)) <<< 17)).toNat = xorshift x.toNat := by
  simp [xorshift, UInt64.toNat_xor, UInt64.toNat_shiftLeft, UInt64.toNat_shiftRight]

variable (F) in
/-- The generator after a draw. -/
def next (rng : SampleRng) : SampleRng := (rng.unit (F := F)).2

theorem toNat_next (rng : SampleRng) : (next F rng).state.toNat = xorshift rng.state.toNat :=
  toNat_xorshift rng.state

theorem toNat_iterate_next (k : Nat) (rng : SampleRng) :
    ((next F)^[k] rng).state.toNat = xorshift^[k] rng.state.toNat := by
  induction k generalizing rng with
  | zero => rfl
  | succ k ih => rw [Function.iterate_succ_apply, ih, toNat_next, ← Function.iterate_succ_apply]

/-- A draw, from the state it leaves. -/
theorem unit_fst (rng : SampleRng) : (rng.unit (F := F)).1 =
    (roundSignificant 24 (xorshift rng.state.toNat / 2 ^ 11) : F) / 2 ^ 53 := by
  have hunit : (rng.unit (F := F)).1 =
      (roundSignificant 24 ((next F rng).state >>> 11).toNat : F) / 2 ^ 53 := rfl
  rw [hunit, UInt64.toNat_shiftRight, toNat_next, Nat.shiftRight_eq_div_pow]
  rfl

theorem seed_pos (seed : UInt64) : 0 < (SampleRng.new seed).state.toNat := by
  show 0 < (if seed ≤ 1 then 1 else seed).toNat
  split
  · decide
  · next hlt =>
    rw [UInt64.le_iff_toNat_le] at hlt
    exact Nat.lt_of_lt_of_le Nat.one_pos (Nat.le_of_not_le hlt)

/-- **The period of the generator.** From every seed, each state but zero comes exactly once
in `2 ^ 64 - 1` draws, and then the seed again. -/
theorem sampleRng_period (seed : UInt64) :
    (next F)^[2 ^ 64 - 1] (SampleRng.new seed) = SampleRng.new seed ∧
      (∀ k, ((next F)^[k] (SampleRng.new seed)).state ≠ 0) ∧
      ∀ state : UInt64, state ≠ 0 →
        ∃! k, k < 2 ^ 64 - 1 ∧ ((next F)^[k] (SampleRng.new seed)).state = state := by
  have hpos := seed_pos seed
  have hlt := (SampleRng.new seed).state.toNat_lt
  have hperiod := xorshift_period.period _ hpos hlt
  have hback : xorshift^[2 ^ 64 - 1] (SampleRng.new seed).state.toNat =
      (SampleRng.new seed).state.toNat := by
    have hiter := Function.iterate_minimalPeriod (f := xorshift)
      (x := (SampleRng.new seed).state.toNat)
    rwa [hperiod] at hiter
  have hext : ∀ rng rng' : SampleRng, rng.state.toNat = rng'.state.toNat → rng = rng' := by
    intro rng rng' h
    have hstate := UInt64.toNat_inj.mp h
    cases rng
    cases rng'
    exact congrArg SampleRng.mk hstate
  have hmem : ∀ k, xorshift^[k] (SampleRng.new seed).state.toNat ∈ Finset.Ioo 0 (2 ^ 64) := by
    intro k
    rw [← xorshift_period.covers _ hpos hlt]
    refine Finset.mem_image.mpr ⟨k % (2 ^ 64 - 1), ?_, ?_⟩
    · exact Finset.mem_range.mpr (Nat.mod_lt _ (by decide))
    · rw [← hperiod]
      exact Function.iterate_mod_minimalPeriod_eq
  refine ⟨hext _ _ ((toNat_iterate_next _ _).trans hback), fun k hzero => ?_, fun state hstate => ?_⟩
  · have hk := (Finset.mem_Ioo.mp (hmem k)).1
    rw [← toNat_iterate_next (F := F), hzero] at hk
    exact absurd hk (by decide)
  · have hstate' : state.toNat ∈ Finset.Ioo 0 (2 ^ 64) := by
      refine Finset.mem_Ioo.mpr ⟨Nat.pos_of_ne_zero fun h => hstate ?_, state.toNat_lt⟩
      exact UInt64.toNat_inj.mp h
    rw [← xorshift_period.covers _ hpos hlt] at hstate'
    obtain ⟨k, hk, hiter⟩ := Finset.mem_image.mp hstate'
    refine ⟨k, ⟨Finset.mem_range.mp hk, ?_⟩, fun j hj => ?_⟩
    · exact UInt64.toNat_inj.mp ((toNat_iterate_next _ _).trans hiter)
    · have hj' := congrArg UInt64.toNat hj.2
      rw [toNat_iterate_next, ← hiter] at hj'
      have hinj := Function.iterate_injOn_Iio_minimalPeriod (f := xorshift)
        (x := (SampleRng.new seed).state.toNat)
      rw [hperiod] at hinj
      exact hinj (by simpa using hj.1) (by simpa using hk) hj'

end Stream

/-! ### Frequencies -/

section Frequency

variable [Field F] [LinearOrder F] [IsStrictOrderedRing F]

/-- What a monotone rounding, off by `E` at most, puts below a threshold are the first few
numbers, about as many as the threshold says. -/
theorem exists_cut {R : Nat → Nat} (hmono : Monotone R) {M E : Nat}
    (hnear : ∀ k < M, R k ≤ k + E ∧ k ≤ R k + E) {t : F} (h0 : 0 ≤ t) (ht : t ≤ M) :
    ∃ n ≤ M, (∀ k < M, (R k : F) < t ↔ k < n) ∧ t - E ≤ n ∧ (n : F) ≤ t + E + 1 := by
  have hE : (0 : F) ≤ E := Nat.cast_nonneg E
  have hstop : ∃ n, M ≤ n ∨ t ≤ R n := ⟨M, .inl le_rfl⟩
  obtain ⟨n, hn⟩ : ∃ n, Nat.find hstop = n := ⟨_, rfl⟩
  have hspec : M ≤ n ∨ t ≤ R n := hn ▸ Nat.find_spec hstop
  have hbefore : ∀ k < n, (R k : F) < t := by
    intro k hk
    have hno := Nat.find_min hstop (hn.symm ▸ hk)
    exact not_le.mp fun hle => hno (.inr hle)
  have hnM : n ≤ M := hn ▸ Nat.find_min' hstop (.inl le_rfl)
  refine ⟨n, hnM, fun k hk => ⟨fun hlt => ?_, hbefore k⟩, ?_, ?_⟩
  · by_contra hge
    have hle : t ≤ R n := hspec.resolve_left (by omega)
    have hRle : (R n : F) ≤ R k := by exact_mod_cast hmono (not_lt.mp hge)
    exact absurd hlt (not_lt.mpr (hle.trans hRle))
  · rcases Nat.eq_or_lt_of_le hnM with rfl | hlt
    · linarith
    · have hle : t ≤ R n := hspec.resolve_left (by omega)
      have hRn : (R n : F) ≤ n + E := by exact_mod_cast (hnear n hlt).1
      linarith
  · cases n with
    | zero =>
        push_cast
        linarith
    | succ m =>
        have hlt := hbefore m (Nat.lt_succ_self m)
        have hm : (m : F) ≤ R m + E := by exact_mod_cast (hnear m hnM).2
        push_cast
        linarith

/-- The words but zero that an interval of leading parts gets, where `B` words have one leading
part and the ends of the interval are off by `E`. -/
theorem card_interval {B M E lo hi : Nat} (hB : 0 < B) (hlohi : lo ≤ hi) (hhi : hi ≤ M) {a b : F}
    (ha : 0 ≤ a) (hlo : a - E ≤ lo ∧ (lo : F) ≤ a + E + 1) (hb : b - E ≤ hi ∧ (hi : F) ≤ b + E + 1) :
    |(((Finset.Ioo 0 (B * M)).filter fun y => lo ≤ y / B ∧ y / B < hi).card : F) - B * (b - a)| ≤
      B * (2 * E + 1) := by
  have hB1 : (1 : F) ≤ B := by exact_mod_cast hB
  have hB' : (0 : F) ≤ B := zero_le_one.trans hB1
  have hE : (0 : F) ≤ B * E := mul_nonneg hB' (Nat.cast_nonneg E)
  have hset : (Finset.Ioo 0 (B * M)).filter (fun y => lo ≤ y / B ∧ y / B < hi) =
      (Finset.Ico (B * lo) (B * hi)).erase 0 := by
    ext y
    have hbound : y < B * hi → y < B * M := fun hy => hy.trans_le (Nat.mul_le_mul_left B hhi)
    simp only [Finset.mem_filter, Finset.mem_Ioo, Finset.mem_erase, Finset.mem_Ico,
      Nat.le_div_iff_mul_le hB, Nat.div_lt_iff_lt_mul hB, Nat.mul_comm _ B, Nat.pos_iff_ne_zero]
    tauto
  have hsize : (((Finset.Ico (B * lo) (B * hi)).card : Nat) : F) = B * hi - B * lo := by
    rw [Nat.card_Ico, Nat.cast_sub (Nat.mul_le_mul_left B hlohi)]
    push_cast
    rfl
  have hloLow := mul_le_mul_of_nonneg_left hlo.1 hB'
  have hloHigh := mul_le_mul_of_nonneg_left hlo.2 hB'
  have hhiLow := mul_le_mul_of_nonneg_left hb.1 hB'
  have hhiHigh := mul_le_mul_of_nonneg_left hb.2 hB'
  rw [hset, abs_le]
  by_cases hzero : 0 ∈ Finset.Ico (B * lo) (B * hi)
  · -- the state that never comes
    have hlo0 : lo = 0 := by
      have := (Finset.mem_Ico.mp hzero).1
      simpa [hB.ne'] using this
    have hcard : (((Finset.Ico (B * lo) (B * hi)).erase 0).card : F) = B * hi - B * lo - 1 := by
      rw [Finset.card_erase_of_mem hzero, Nat.cast_sub (Finset.card_pos.mpr ⟨0, hzero⟩), hsize,
        Nat.cast_one]
    have ha0 := mul_nonneg hB' ha
    rw [hcard]
    rw [hlo0, Nat.cast_zero, mul_zero] at hloLow hloHigh ⊢
    constructor <;> linarith
  · rw [Finset.erase_eq_of_notMem hzero, hsize]
    constructor <;> linarith

/-- The draws that return one of the tokens; the last one also has what is not below the sum of
all masses. -/
theorem draw_eq_some_iff {topP : F} {idx₀ idx : List Nat} {probs₀ probs : List F}
    (h : Kept topP idx₀ probs₀ idx probs) (hnodup : idx.Nodup) {i t : Nat} (ht : idx[i]? = some t)
    {r : F} (hr : 0 ≤ r) :
    draw r idx probs = some t ↔
      (probs.take i).sum ≤ r ∧ (i + 1 < probs.length → r < (probs.take (i + 1)).sum) := by
  obtain ⟨hi, hti⟩ := List.getElem?_eq_some_iff.mp ht
  rw [← h.length] at hi
  have hmono : ∀ {k l}, k ≤ l → (probs.take k).sum ≤ (probs.take l).sum :=
    fun hkl => Lib.sum_take_le_sum_take h.pos hkl
  -- the position that a draw comes to
  obtain ⟨j, hj, hdraw, hjle, hjlt⟩ : ∃ j < probs.length, draw r idx probs = idx[j]? ∧
      (probs.take j).sum ≤ r ∧ (j + 1 < probs.length → r < (probs.take (j + 1)).sum) := by
    have hbelow : ∀ j, (∀ k < j, ¬ r < (probs.take (k + 1)).sum) → (probs.take j).sum ≤ r := by
      intro j hmin
      cases j with
      | zero => simpa using hr
      | succ k => exact not_lt.mp (hmin k (Nat.lt_succ_self k))
    cases hfirst : firstSum (fun acc => r < acc) 0 probs with
    | none =>
        refine ⟨probs.length - 1, by omega, ?_, hbelow _ fun k hk => ?_, by omega⟩
        · simp [draw, hfirst]
        · simpa using Lib.firstSum_eq_none.mp hfirst k (by omega)
    | some j =>
        obtain ⟨hjlen, hjsum, hjmin⟩ := Lib.firstSum_eq_some.mp hfirst
        simp only [zero_add, decide_eq_true_eq] at hjsum hjmin
        exact ⟨j, hjlen, by simp [draw, hfirst], hbelow j hjmin, fun _ => hjsum⟩
  rw [hdraw]
  constructor
  · intro hjt
    have hij : j = i := (List.getElem?_inj (h.length ▸ hj) hnodup).mp (hjt.trans ht.symm)
    subst hij
    exact ⟨hjle, hjlt⟩
  · intro hsum
    have hij : j = i := by
      by_contra hne
      rcases Nat.lt_or_gt_of_ne hne with hlt | hlt
      · exact absurd ((hjlt (by omega)).trans_le (hmono hlt)) (not_lt.mpr hsum.1)
      · exact absurd ((hsum.2 (by omega)).trans_le (hmono hlt)) (not_lt.mpr hjle)
    rw [hij, ht]

section Shares

variable {topP : F} {idx₀ idx : List Nat} {probs₀ probs : List F}

/-- The words that draw a token are its share of all words. -/
theorem Kept.card_drawn (h : Kept topP idx₀ probs₀ idx probs)
    (hnodup : idx.Nodup) {i t : Nat} {p : F} (ht : idx[i]? = some t) (hp : probs[i]? = some p) :
    |(((Finset.Ioo 0 (2 ^ 64)).filter fun y =>
      draw ((roundSignificant 24 (y / 2 ^ 11) : F) / 2 ^ 53) idx probs = some t).card : F) -
        2 ^ 64 * p| ≤ 2 ^ 40 + 2 ^ 11 := by
  obtain ⟨hi, hpi⟩ := List.getElem?_eq_some_iff.mp hp
  have hM : ((2 ^ 53 : Nat) : F) = 2 ^ 53 := by norm_num
  have hMpos : (0 : F) < 2 ^ 53 := by positivity
  have hsplit : (probs.take (i + 1)).sum = (probs.take i).sum + p := by
    rw [List.take_add_one, hp, List.sum_append]
    simp
  have hp0 : 0 < p := hpi ▸ h.pos _ (List.getElem_mem hi)
  have hstart : 0 ≤ (probs.take i).sum := by
    simpa using Lib.sum_take_le_sum_take h.pos (Nat.zero_le i)
  have hstop : (probs.take (i + 1)).sum ≤ 1 := by
    have hle := Lib.sum_take_le_sum_take h.pos (show i + 1 ≤ probs.length from hi)
    rwa [List.take_length, h.sum] at hle
  have hnear : ∀ k < 2 ^ 53, roundSignificant 24 k ≤ k + 2 ^ 28 ∧ k ≤ roundSignificant 24 k + 2 ^ 28 := by
    intro k hk
    have := Lib.roundSignificant_near (p := 24) (by decide) hk
    omega
  have hcut : ∀ a : F, 0 ≤ a → a ≤ 1 → ∃ n ≤ 2 ^ 53,
      (∀ k < 2 ^ 53, (roundSignificant 24 k : F) < a * 2 ^ 53 ↔ k < n) ∧
        a * 2 ^ 53 - (2 ^ 28 : Nat) ≤ n ∧ (n : F) ≤ a * 2 ^ 53 + (2 ^ 28 : Nat) + 1 := by
    intro a ha0 ha1
    exact exists_cut (Lib.roundSignificant_mono (by decide)) hnear (by positivity)
      (by rw [hM]; exact mul_le_of_le_one_left hMpos.le ha1)
  obtain ⟨lo, hloM, hlo, hlonear⟩ := hcut _ hstart (by linarith)
  -- the last token has all there is above its threshold
  obtain ⟨hi', hhiM, hhi, hhinear⟩ : ∃ n ≤ 2 ^ 53,
      (∀ k < 2 ^ 53, (i + 1 < probs.length →
        (roundSignificant 24 k : F) < (probs.take (i + 1)).sum * 2 ^ 53) ↔ k < n) ∧
        (probs.take (i + 1)).sum * 2 ^ 53 - (2 ^ 28 : Nat) ≤ n ∧
          (n : F) ≤ (probs.take (i + 1)).sum * 2 ^ 53 + (2 ^ 28 : Nat) + 1 := by
    by_cases hlast : i + 1 < probs.length
    · simpa only [hlast, true_implies] using hcut _ (by linarith) hstop
    · have hall : (probs.take (i + 1)).sum = 1 := by
        rw [List.take_of_length_le (by omega), h.sum]
      refine ⟨2 ^ 53, le_rfl, fun k hk => iff_of_true (fun h => absurd h hlast) hk, ?_, ?_⟩
      · rw [hall, hM]
        norm_num
      · rw [hall, hM]
        norm_num
  have hlohi : lo ≤ hi' := by
    by_contra hlt
    have hbelow := (hlo hi' (by omega)).mpr (by omega)
    have habove := (hhi hi' (by omega)).mp fun _ => hbelow.trans_le
      (mul_le_mul_of_nonneg_right (by linarith) hMpos.le)
    exact absurd habove (Nat.lt_irrefl _)
  have hdrawn : ((Finset.Ioo 0 (2 ^ 64)).filter fun y =>
      draw ((roundSignificant 24 (y / 2 ^ 11) : F) / 2 ^ 53) idx probs = some t) =
      (Finset.Ioo 0 (2 ^ 11 * 2 ^ 53)).filter fun y => lo ≤ y / 2 ^ 11 ∧ y / 2 ^ 11 < hi' := by
    have hpow : 2 ^ 64 = 2 ^ 11 * 2 ^ 53 := by decide
    rw [← hpow]
    refine Finset.filter_congr fun y hy => ?_
    have hdiv : y / 2 ^ 11 < 2 ^ 53 :=
      Nat.div_lt_of_lt_mul (by simpa using (Finset.mem_Ioo.mp hy).2)
    rw [draw_eq_some_iff h hnodup ht (by positivity), le_div_iff₀ hMpos, div_lt_iff₀ hMpos,
      ← hhi _ hdiv, ← not_lt, hlo _ hdiv, not_lt]
  have hbound := card_interval (show 0 < 2 ^ 11 by decide) hlohi hhiM (by positivity) hlonear hhinear
  rw [← hdrawn] at hbound
  have hwidth : ((2 ^ 11 : Nat) : F) * ((probs.take (i + 1)).sum * 2 ^ 53 - (probs.take i).sum * 2 ^ 53) =
      2 ^ 64 * p := by
    rw [hsplit]
    push_cast
    ring
  have hsize : ((2 ^ 11 : Nat) : F) * (2 * (2 ^ 28 : Nat) + 1) = 2 ^ 40 + 2 ^ 11 := by norm_num
  rwa [hwidth, hsize] at hbound

omit [IsStrictOrderedRing F] in
theorem Kept.not_drawn (h : Kept topP idx₀ probs₀ idx probs) {t : Nat} (ht : t ∉ idx) (r : F) :
    draw r idx probs ≠ some t := by
  intro hdraw
  obtain ⟨i, hi, u, hu, hget⟩ := draw_position h.length h.ne_nil r
  obtain rfl := Option.some.inj (hdraw.symm.trans hu)
  exact ht (List.mem_of_getElem? hget)

end Shares

/-- How many draws of a whole period return a token. -/
def drawCount (exp : F → F) (sort : UnstableSort Nat) (s : Sampling F) (logits : List F)
    (recent : List Nat) (seed : UInt64) (t : Nat) : Nat :=
  ((Finset.range (2 ^ 64 - 1)).filter fun k =>
    (sample exp sort s logits recent ((next F)^[k] (SampleRng.new seed))).map Prod.fst = some t).card

omit [LinearOrder F] [IsStrictOrderedRing F] in
/-- The draws of a whole period that meet a condition, by the words they come from. -/
theorem card_draws (seed : UInt64) (Q : F → Prop) [DecidablePred Q] :
    ((Finset.range (2 ^ 64 - 1)).filter fun k =>
      Q (((next F)^[k] (SampleRng.new seed)).unit (F := F)).1).card =
      ((Finset.Ioo 0 (2 ^ 64)).filter fun y =>
        Q ((roundSignificant 24 (y / 2 ^ 11) : F) / 2 ^ 53)).card := by
  have hpos := seed_pos seed
  have hlt := (SampleRng.new seed).state.toNat_lt
  have hfirst : xorshift (SampleRng.new seed).state.toNat ∈ Finset.Ioo 0 (2 ^ 64) := by
    rw [← xorshift_period.covers _ hpos hlt]
    exact Finset.mem_image.mpr ⟨1, Finset.mem_range.mpr (by decide), rfl⟩
  obtain ⟨hpos', hlt'⟩ := Finset.mem_Ioo.mp hfirst
  have hunit : ∀ k, (((next F)^[k] (SampleRng.new seed)).unit (F := F)).1 =
      (roundSignificant 24 (xorshift^[k] (xorshift (SampleRng.new seed).state.toNat) / 2 ^ 11) : F) /
        2 ^ 53 := by
    intro k
    rw [unit_fst, toNat_iterate_next, ← Function.iterate_succ_apply' xorshift,
      Function.iterate_succ_apply]
  simp only [hunit]
  exact xorshift_period.card_filter hpos' hlt' fun y =>
    Q ((roundSignificant 24 (y / 2 ^ 11) : F) / 2 ^ 53)

omit [IsStrictOrderedRing F] in
theorem candidates_nodup (sort : UnstableSort Nat) (topK : Nat) (adjusted : List F) :
    (candidates sort topK adjusted).Nodup := by
  have hall : (sort.sort (descLe (logit adjusted)) (List.range (adjusted.length % 2 ^ 32))).Nodup :=
    (sort.perm _ _).nodup_iff.mpr List.nodup_range
  unfold candidates
  dsimp only
  split
  · exact hall.sublist (List.take_sublist _ _)
  · exact hall

/-- **Frequencies of sampling.** Of the `2 ^ 64 - 1` samples of a whole period, a token that
was kept is drawn as often as its mass says, up to `2 ^ 40 + 2 ^ 11`, and another one never. -/
theorem sample_frequency {exp : F → F} (hexp : ∀ x, 0 < exp x)
    (sort : UnstableSort Nat) {s : Sampling F} (htemp : 0 < s.temperature) {logits : List F}
    (hne : logits ≠ []) (hlen : logits.length < 2 ^ 32) {recent : List Nat}
    (hrecent : ∀ t ∈ recent, t < logits.length) (seed : UInt64) :
    ∃ (adjusted : List F) (idx : List Nat) (probs : List F),
      adjust s logits recent = some adjusted ∧
      kept exp sort s adjusted = some (idx, probs) ∧ probs.length = idx.length ∧ probs.sum = 1 ∧
      (∀ (i t : Nat) (p : F), idx[i]? = some t → probs[i]? = some p →
        |(drawCount exp sort s logits recent seed t : F) - 2 ^ 64 * p| ≤ 2 ^ 40 + 2 ^ 11) ∧
      ∀ t, t ∉ idx → drawCount exp sort s logits recent seed t = 0 := by
  obtain ⟨adjusted, hadjust, hlength⟩ := adjust_length (s := s) hrecent
  have hadjusted : adjusted ≠ [] := by
    rw [← List.length_pos_iff_ne_nil, hlength]
    exact List.length_pos_of_ne_nil hne
  obtain ⟨idx, probs, hkept, hcut⟩ := kept_spec hexp sort s (hlength ▸ hlen) hadjusted
  have hsample : ∀ rng, (sample exp sort s logits recent rng).map Prod.fst =
      draw (rng.unit (F := F)).1 idx probs := by
    intro rng
    obtain ⟨i, -, t, hdraw, -⟩ := draw_position hcut.length hcut.ne_nil (rng.unit (F := F)).1
    have hgreedy : s.isGreedy = false := by simp [Sampling.isGreedy, htemp]
    simp [sample, hgreedy, hadjust, hkept, hdraw]
  have hcount : ∀ t, drawCount exp sort s logits recent seed t =
      ((Finset.Ioo 0 (2 ^ 64)).filter fun y =>
        draw ((roundSignificant 24 (y / 2 ^ 11) : F) / 2 ^ 53) idx probs = some t).card := by
    intro t
    simp only [drawCount, hsample]
    exact card_draws seed fun r => draw r idx probs = some t
  have hnodup : idx.Nodup := (candidates_nodup sort s.topK adjusted).sublist hcut.pre.sublist
  refine ⟨adjusted, idx, probs, hadjust, hkept, hcut.length, hcut.sum, fun i t p ht hp => ?_,
    fun t ht => ?_⟩
  · rw [hcount]
    exact hcut.card_drawn hnodup ht hp
  · rw [hcount, Finset.card_eq_zero, Finset.filter_eq_empty_iff]
    exact fun y _ => hcut.not_drawn ht _

/-- Of two logits that are apart by one and a temperature of one. -/
theorem sample_frequency_two :
    ∃ (adjusted : List ℚ) (idx : List Nat) (probs : List ℚ),
      adjust (⟨1, 1, 0, 1, 64⟩ : Sampling ℚ) [1, 0] [] = some adjusted ∧
      kept Lib.rising UnstableSort.stable ⟨1, 1, 0, 1, 64⟩ adjusted = some (idx, probs) ∧
      probs.length = idx.length ∧ probs.sum = 1 ∧
      (∀ (i t : Nat) (p : ℚ), idx[i]? = some t → probs[i]? = some p →
        |(drawCount Lib.rising UnstableSort.stable ⟨1, 1, 0, 1, 64⟩ [1, 0] [] 0x5eed t : ℚ) -
          2 ^ 64 * p| ≤ 2 ^ 40 + 2 ^ 11) ∧
      ∀ t, t ∉ idx →
        drawCount Lib.rising UnstableSort.stable ⟨1, 1, 0, 1, 64⟩ [1, 0] [] 0x5eed t = 0 :=
  sample_frequency Lib.rising_pos UnstableSort.stable (by norm_num) (by simp) (by simp) (by simp) _

end Frequency

end LlmPager.Sample
