import LlmPager.Run.Sample

/-!
# LlmPager.Run.SampleSpec

What the penalty does, and what a draw can return.

The loop of the penalty multiplies it up for a token that occurs more than once
(`penalizeAll_eq`), so only where that makes no difference are the logits penalized
as documented (`adjust_once_iff`). A draw returns a token of the candidates' kept
prefix, and from the position in that prefix follows what may be ahead of it
(`sample_support`).
-/

namespace LlmPager.Sample

open Lib (UnstableSort Descending descLe firstSum roundSignificant)

variable {F : Type}

/-! ### The penalty -/

theorem window_mem {s : Sampling F} {recent : List Nat} {t : Nat} (h : t ∈ window s recent) :
    t ∈ recent := List.mem_of_mem_drop h

variable [Field F] [LinearOrder F]

section Penalty

/-- The documented adjustment: tokens present in the window are penalized. -/
def penalizedOnce (penalty : F) (tokens : List Nat) (logits : List F) : List F :=
  logits.mapIdx fun i v => if i ∈ tokens then penalize penalty v else v

/-- Penalizing again makes no difference: the penalty is off, or what occurs more than
once in the window has logit `0`. -/
def RepeatsHarmless (s : Sampling F) (logits : List F) (recent : List Nat) : Prop :=
  s.repeatPenalty = 1 ∨
    ∀ t, 2 ≤ (window s recent).count t → logits[t]? = some 0

theorem penalizeAll_eq (penalty : F) {tokens : List Nat} {logits : List F}
    (h : ∀ t ∈ tokens, t < logits.length) : penalizeAll penalty tokens logits =
      some (logits.mapIdx fun i v => (penalize penalty)^[tokens.count i] v) := by
  induction tokens generalizing logits with
  | nil =>
      refine congrArg some (List.ext_getElem (by simp) fun i _ _ => ?_)
      simp
  | cons t tokens ih =>
      have ht : t < logits.length := h t (by simp)
      have hstep : penalizeAll penalty (t :: tokens) logits =
          penalizeAll penalty tokens (logits.set t (penalize penalty logits[t])) := by
        simp [penalizeAll, List.getElem?_eq_getElem ht]
      rw [hstep, ih fun u hu => by simpa using h u (by simp [hu])]
      congr 1
      refine List.ext_getElem (by simp) fun i hi _ => ?_
      simp only [List.getElem_mapIdx, List.getElem_set, List.count_cons, beq_iff_eq]
      by_cases hti : t = i
      · subst hti
        simp
      · simp [hti]

theorem adjust_length {s : Sampling F} {logits : List F} {recent : List Nat}
    (hrecent : ∀ t ∈ recent, t < logits.length) :
    ∃ adjusted, adjust s logits recent = some adjusted ∧ adjusted.length = logits.length := by
  unfold adjust
  by_cases hone : s.repeatPenalty ≠ 1
  · rw [if_pos hone, penalizeAll_eq _ fun t ht => hrecent t (window_mem ht)]
    exact ⟨_, rfl, List.length_mapIdx⟩
  · rw [if_neg hone]
    exact ⟨logits, rfl, rfl⟩

variable [IsStrictOrderedRing F]

theorem penalize_iterate_pos {penalty v : F} (hp : 0 < penalty) (hv : 0 < v) (n : Nat) :
    (penalize penalty)^[n] v = v / penalty ^ n := by
  induction n generalizing v with
  | zero => simp
  | succ n ih =>
      rw [Function.iterate_succ_apply, penalize, if_pos hv, ih (div_pos hv hp), div_div, pow_succ']

theorem penalize_iterate_nonpos {penalty v : F} (hp : 0 < penalty) (hv : v ≤ 0) (n : Nat) :
    (penalize penalty)^[n] v = v * penalty ^ n := by
  induction n generalizing v with
  | zero => simp
  | succ n ih =>
      rw [Function.iterate_succ_apply, penalize, if_neg hv.not_gt,
        ih (mul_nonpos_of_nonpos_of_nonneg hv hp.le), mul_assoc, pow_succ']

/-- More than once is once only for a penalty of `1`, or a logit of `0`. -/
theorem penalize_again_iff {penalty v : F} (hp : 0 < penalty) {n : Nat} (hn : 2 ≤ n) :
    (penalize penalty)^[n] v = penalize penalty v ↔ penalty = 1 ∨ v = 0 := by
  have hpow : penalty ^ n = penalty ↔ penalty = 1 := by
    obtain ⟨k, rfl⟩ : ∃ k, n = k + 1 := ⟨n - 1, by omega⟩
    rw [pow_succ, mul_eq_right₀ hp.ne', pow_eq_one_iff_of_nonneg hp.le (by omega)]
  by_cases hv : 0 < v
  · rw [penalize_iterate_pos hp hv, penalize, if_pos hv, div_eq_div_iff (by positivity) hp.ne',
      mul_right_inj' hv.ne', eq_comm, hpow]
    simp [hv.ne']
  · rw [penalize_iterate_nonpos hp (not_lt.mp hv), penalize, if_neg hv, mul_eq_mul_left_iff, hpow]

theorem mapIdx_once_iff {s : Sampling F} {logits : List F} {recent : List Nat}
    (hpenalty : 0 < s.repeatPenalty) (hrecent : ∀ t ∈ recent, t < logits.length) :
    (logits.mapIdx fun i v => (penalize s.repeatPenalty)^[(window s recent).count i] v) =
        penalizedOnce s.repeatPenalty (window s recent) logits ↔
      RepeatsHarmless s logits recent := by
  have hpoint : ∀ i (hi : i < logits.length),
      (penalize s.repeatPenalty)^[(window s recent).count i] logits[i] =
          (if i ∈ window s recent then penalize s.repeatPenalty logits[i] else logits[i]) ↔
        (2 ≤ (window s recent).count i → s.repeatPenalty = 1 ∨ logits[i] = 0) := by
    intro i hi
    by_cases hmem : i ∈ window s recent
    · rw [if_pos hmem]
      have hpos := List.count_pos_iff.mpr hmem
      by_cases htwo : 2 ≤ (window s recent).count i
      · simp [htwo, penalize_again_iff hpenalty htwo]
      · have hone : (window s recent).count i = 1 := by omega
        simp [hone]
    · simp [hmem, List.count_eq_zero_of_not_mem hmem]
  unfold penalizedOnce RepeatsHarmless
  rw [List.ext_getElem_iff]
  simp only [List.length_mapIdx, List.getElem_mapIdx, true_and]
  constructor
  · intro h
    rw [or_iff_not_imp_left]
    intro hne t ht
    have hlt := hrecent t (window_mem (List.count_pos_iff.mp (Nat.lt_of_lt_of_le Nat.two_pos ht)))
    rw [List.getElem?_eq_getElem hlt,
      ((hpoint t hlt).mp (h t hlt hlt) ht).resolve_left hne]
  · intro h i hi _
    rw [hpoint i hi]
    intro htwo
    refine h.imp_right fun hzero => ?_
    simpa [List.getElem?_eq_getElem hi] using hzero i htwo

/-- The logits are those penalized once exactly if repeats are harmless. -/
theorem adjust_once_iff {s : Sampling F} {logits : List F} {recent : List Nat}
    (hpenalty : 0 < s.repeatPenalty) (hrecent : ∀ t ∈ recent, t < logits.length) :
    adjust s logits recent = some (penalizedOnce s.repeatPenalty (window s recent) logits) ↔
      RepeatsHarmless s logits recent := by
  unfold adjust
  by_cases hone : s.repeatPenalty = 1
  · have hsame : penalizedOnce s.repeatPenalty (window s recent) logits = logits := by
      refine List.ext_getElem (by simp [penalizedOnce]) fun i _ _ => ?_
      simp [penalizedOnce, penalize, hone]
    rw [hsame, if_neg (not_not.mpr hone)]
    simp [RepeatsHarmless, hone]
  · rw [if_pos hone, penalizeAll_eq _ fun t ht => hrecent t (window_mem ht), Option.some_inj,
      mapIdx_once_iff hpenalty hrecent]

/-- **The penalty counts presence exactly where repeats are harmless**; and two such
histories with the same tokens in the window give the same sample. -/
theorem penalty_presence_iff (s : Sampling F) (logits : List F) (recent : List Nat)
    (hpenalty : 0 < s.repeatPenalty) (hrecent : ∀ t ∈ recent, t < logits.length) :
    (adjust s logits recent = some (penalizedOnce s.repeatPenalty (window s recent) logits) ↔
      RepeatsHarmless s logits recent) ∧
    ∀ recent', (∀ t ∈ recent', t < logits.length) →
      (∀ t, t ∈ window s recent ↔ t ∈ window s recent') →
      RepeatsHarmless s logits recent → RepeatsHarmless s logits recent' →
      ∀ exp sort rng, sample exp sort s logits recent rng = sample exp sort s logits recent' rng := by
  refine ⟨adjust_once_iff hpenalty hrecent, ?_⟩
  intro recent' hrecent' hsame hharmless hharmless' exp sort rng
  have hadjust : adjust s logits recent = adjust s logits recent' := by
    rw [(adjust_once_iff hpenalty hrecent).mpr hharmless,
      (adjust_once_iff hpenalty hrecent').mpr hharmless']
    simp only [penalizedOnce, hsame]
  unfold sample
  rw [hadjust]

theorem penalty_presence_iff_halved :
    (adjust (⟨0, 1, 0, 2, 64⟩ : Sampling ℚ) [8, 3] [0, 1] =
        some (penalizedOnce 2 (window (⟨0, 1, 0, 2, 64⟩ : Sampling ℚ) [0, 1]) [8, 3]) ↔
      RepeatsHarmless (⟨0, 1, 0, 2, 64⟩ : Sampling ℚ) [8, 3] [0, 1]) ∧
    sample id UnstableSort.stable (⟨0, 1, 0, 2, 64⟩ : Sampling ℚ) [8, 3] [0, 1] ⟨1⟩ =
      sample id UnstableSort.stable (⟨0, 1, 0, 2, 64⟩ : Sampling ℚ) [8, 3] [1, 0] ⟨1⟩ := by
  have hspec := penalty_presence_iff (⟨0, 1, 0, 2, 64⟩ : Sampling ℚ) [8, 3] [0, 1] (by norm_num)
    (by simp)
  have honce : ∀ recent : List Nat, recent.Nodup →
      RepeatsHarmless (⟨0, 1, 0, 2, 64⟩ : Sampling ℚ) [8, 3] recent := by
    intro recent hnodup
    refine .inr fun t ht => absurd ht (Nat.not_le_of_lt (Nat.lt_succ_of_le ?_))
    exact List.nodup_iff_count_le_one.mp (hnodup.sublist (List.drop_sublist _ _)) t
  refine ⟨hspec.1, hspec.2 [1, 0] (by simp) ?_ (honce _ (by decide)) (honce _ (by decide)) _ _ _⟩
  intro t
  simp [window, or_comm]

/-- The last token twice in the window: its logit is divided twice, and the choice goes
elsewhere than after a history that has it once. -/
theorem repeat_penalized_twice :
    adjust (⟨0, 1, 0, 2, 64⟩ : Sampling ℚ) [8, 3] [0, 0] ≠
        some (penalizedOnce 2 (window (⟨0, 1, 0, 2, 64⟩ : Sampling ℚ) [0, 0]) [8, 3]) ∧
      (sample id UnstableSort.stable (⟨0, 1, 0, 2, 64⟩ : Sampling ℚ) [8, 3] [0, 0] ⟨1⟩).map (·.1) =
        some 1 ∧
      (sample id UnstableSort.stable (⟨0, 1, 0, 2, 64⟩ : Sampling ℚ) [8, 3] [0] ⟨1⟩).map (·.1) =
        some 0 := by
  decide +kernel

end Penalty

/-! ### Selection -/

section Selection

theorem bits_lt (x : UInt64) : (x >>> 11).toNat < 2 ^ 53 := by
  have hx := x.toNat_lt
  rw [UInt64.toNat_shiftRight, Nat.shiftRight_eq_div_pow]
  exact Nat.div_lt_of_lt_mul (by simpa using hx)

theorem unit_range [IsStrictOrderedRing F] (rng : SampleRng) :
    0 ≤ (rng.unit (F := F)).1 ∧ (rng.unit (F := F)).1 ≤ 1 := by
  have hle : ∀ x : UInt64, roundSignificant 24 (x >>> 11).toNat ≤ 2 ^ 53 :=
    fun x => Lib.roundSignificant_le (by decide) (bits_lt x)
  unfold SampleRng.unit
  constructor
  · positivity
  · rw [div_le_one (by positivity)]
    exact_mod_cast hle _

/-- The last cast: a draw other than `0` is the `f32` nearest to its `f64`. -/
theorem unit_nearest (rng : SampleRng) (hbits : 0 < ((rng.unit (F := ℚ)).2.state >>> 11).toNat) :
    (rng.unit (F := ℚ)).1 = Lib.binary32.value
      (Lib.binary32.nearest ((((rng.unit (F := ℚ)).2.state >>> 11).toNat : ℚ) / 2 ^ 53)) := by
  have hunit : (rng.unit (F := ℚ)).1 =
      (roundSignificant 24 ((rng.unit (F := ℚ)).2.state >>> 11).toNat : ℚ) / 2 ^ 53 := rfl
  have hplaces : Lib.binary32.fracBits + 1 = 24 := rfl
  rw [hunit, Lib.Format.value_nearest_div hbits (bits_lt _) (by decide) (by decide), hplaces]

omit [LinearOrder F] in
theorem logits_eq_map (adjusted : List F) :
    adjusted = (List.range adjusted.length).map (logit adjusted) := by
  refine List.ext_getElem (by simp) fun i hi _ => ?_
  simp [logit, hi]

/-- The candidates are the first of the tokens in descending order of their logits. -/
theorem candidates_eq_take (sort : UnstableSort Nat) (topK : Nat) {adjusted : List F}
    (hlen : adjusted.length < 2 ^ 32) :
    ∃ order, order.Perm (List.range adjusted.length) ∧ Descending (logit adjusted) order ∧
      ∃ m, candidates sort topK adjusted = order.take m ∧ (0 < topK → m ≤ topK) ∧
        (adjusted ≠ [] → 0 < m) := by
  have hperm := sort.perm (descLe (logit adjusted)) (List.range (adjusted.length % 2 ^ 32))
  have hdesc := sort.descending (logit adjusted) (List.range (adjusted.length % 2 ^ 32))
  rw [Nat.mod_eq_of_lt hlen] at hperm hdesc
  refine ⟨_, hperm, hdesc, ?_⟩
  unfold candidates
  rw [Nat.mod_eq_of_lt hlen]
  by_cases hcap : 0 < topK ∧
      topK < (sort.sort (descLe (logit adjusted)) (List.range adjusted.length)).length
  · exact ⟨topK, if_pos hcap, fun _ => Nat.le_refl topK, fun _ => hcap.1⟩
  · refine ⟨adjusted.length, ?_, ?_, List.length_pos_of_ne_nil⟩
    · rw [if_neg hcap, List.take_of_length_le (by simp [hperm.length_eq])]
    · intro hpos
      rw [hperm.length_eq, List.length_range] at hcap
      omega

/-- Fewer tokens have a larger logit than there are candidates up to this one. -/
theorem larger_lt {sort : UnstableSort Nat} {topK : Nat} {adjusted : List F}
    (hlen : adjusted.length < 2 ^ 32) {i t : Nat} (ht : (candidates sort topK adjusted)[i]? = some t) :
    (adjusted.filter fun v => logit adjusted t < v).length ≤ i ∧ (0 < topK → i < topK) := by
  obtain ⟨order, hperm, hdesc, m, hcands, hm, -⟩ := candidates_eq_take sort topK hlen
  rw [hcands, List.getElem?_take] at ht
  have him : i < m := by
    by_contra h
    simp [h] at ht
  rw [if_pos him] at ht
  constructor
  · have hcount : (adjusted.filter fun v => logit adjusted t < v).length =
        (order.filter fun u => logit adjusted t < logit adjusted u).length := by
      conv_lhs => rw [logits_eq_map adjusted]
      rw [List.filter_map, List.length_map, (hperm.filter _).length_eq, ← logits_eq_map]
      rfl
    rw [hcount]
    exact hdesc.length_above ht
  · intro hpos
    exact him.trans_le (hm hpos)

theorem candidates_ordered (sort : UnstableSort Nat) (topK : Nat) {adjusted : List F}
    (hlen : adjusted.length < 2 ^ 32) (hne : adjusted ≠ []) :
    Descending (logit adjusted) (candidates sort topK adjusted) ∧
      candidates sort topK adjusted ≠ [] := by
  obtain ⟨order, hperm, hdesc, m, hcands, -, hm⟩ := candidates_eq_take sort topK hlen
  rw [hcands]
  refine ⟨hdesc.sublist (List.take_sublist m order), ?_⟩
  rw [← List.length_pos_iff_ne_nil, List.length_take, hperm.length_eq, List.length_range]
  exact lt_min (hm hne) (List.length_pos_of_ne_nil hne)

theorem candidates_lt {sort : UnstableSort Nat} {topK : Nat} {adjusted : List F}
    (hlen : adjusted.length < 2 ^ 32) {t : Nat} (ht : t ∈ candidates sort topK adjusted) :
    t < adjusted.length := by
  obtain ⟨order, hperm, -, m, hcands, -⟩ := candidates_eq_take sort topK hlen
  rw [hcands] at ht
  exact List.mem_range.mp (hperm.subset (List.mem_of_mem_take ht))

/-- Token ids are `u32`: of `2 ^ 32` logits none is a candidate. -/
theorem candidates_wrapped (sort : UnstableSort Nat) (topK : Nat) {adjusted : List F}
    (hlen : adjusted.length = 2 ^ 32) : candidates sort topK adjusted = [] := by
  have hsorted := (sort.perm (descLe (logit adjusted)) []).eq_nil
  simp only [candidates, hlen, Nat.mod_self, List.range_zero, hsorted]
  simp

/-- The weight of a candidate, `1` at the first for the `exp` that is one at `0`. -/
def weight (exp : F → F) (temperature : F) (adjusted : List F) (idx : List Nat) (i : Nat) : F :=
  exp ((logit adjusted i - logit adjusted (idx.headD 0)) / temperature)

/-- The probability mass, among all candidates, of those that satisfy `p`. -/
def mass (exp : F → F) (temperature : F) (adjusted : List F) (idx : List Nat) (p : Nat → Bool) : F :=
  ((idx.filter p).map (weight exp temperature adjusted idx)).sum /
    (idx.map (weight exp temperature adjusted idx)).sum

theorem weight_pos {exp : F → F} (hexp : ∀ x, 0 < exp x) (temperature : F) (adjusted : List F)
    (idx l : List Nat) : ∀ w ∈ l.map (weight exp temperature adjusted idx), 0 < w := by
  intro w hw
  obtain ⟨u, -, rfl⟩ := List.mem_map.mp hw
  exact hexp _

omit [LinearOrder F] in
theorem softmax_eq (exp : F → F) (temperature : F) (adjusted : List F) {idx : List Nat}
    (hne : idx ≠ []) : softmax exp temperature adjusted idx =
      some (normalize (idx.map (weight exp temperature adjusted idx))) := by
  cases idx with
  | nil => exact absurd rfl hne
  | cons first idx => rfl

variable [IsStrictOrderedRing F]

omit [LinearOrder F] [IsStrictOrderedRing F] in
theorem sum_map_div (xs : List F) (z : F) : (xs.map (· / z)).sum = xs.sum / z := by
  simp only [div_eq_mul_inv, List.sum_map_mul_right, List.map_id']

theorem normalize_pos {xs : List F} (hxs : ∀ x ∈ xs, 0 < x) : ∀ x ∈ normalize xs, 0 < x := by
  intro x hx
  obtain ⟨y, hy, rfl⟩ := List.mem_map.mp hx
  exact div_pos (hxs y hy) (List.sum_pos xs hxs (List.ne_nil_of_mem hy))

theorem sum_normalize {xs : List F} (hxs : ∀ x ∈ xs, 0 < x) (hne : xs ≠ []) :
    (normalize xs).sum = 1 := by
  rw [normalize, sum_map_div]
  exact div_self (List.sum_pos xs hxs hne).ne'

/-- What is kept of the candidates and their masses: as many of both, the masses positive
and again `1` together; before a kept one there is less than `top_p`. -/
structure Kept (topP : F) (idx : List Nat) (probs : List F) (idx' : List Nat) (probs' : List F) :
    Prop where
  whole : ∀ p ∈ probs, 0 < p
  pre : idx' <+: idx
  length : probs'.length = idx'.length
  ne_nil : idx' ≠ []
  pos : ∀ p ∈ probs', 0 < p
  sum : probs'.sum = 1
  before : topP < 1 → ∀ i < idx'.length, i ≠ 0 → (probs.take i).sum < topP

theorem nucleus_kept (topP : F) {idx : List Nat} {probs : List F}
    (hlength : probs.length = idx.length) (hne : idx ≠ []) (hpos : ∀ p ∈ probs, 0 < p)
    (hsum : probs.sum = 1) :
    Kept topP idx probs (nucleus topP idx probs).1 (nucleus topP idx probs).2 := by
  have hidx := List.length_pos_of_ne_nil hne
  unfold nucleus
  by_cases hcut : topP < 1
  · rw [if_pos hcut]
    obtain ⟨keep, hkeep, hkeep0, hbefore⟩ : ∃ keep,
        ((firstSum (fun acc => topP ≤ acc) 0 probs).map (· + 1)).getD probs.length = keep ∧
          0 < keep ∧ ∀ i < keep, i < probs.length → i ≠ 0 → (probs.take i).sum < topP := by
      cases hfirst : firstSum (fun acc => topP ≤ acc) 0 probs with
      | none =>
          refine ⟨probs.length, rfl, by omega, fun i hi _ hi0 => ?_⟩
          have hno := Lib.firstSum_eq_none.mp hfirst (i - 1) (by omega)
          rw [Nat.sub_add_cancel (by omega)] at hno
          simpa using hno
      | some k =>
          refine ⟨k + 1, rfl, by omega, fun i hi _ hi0 => ?_⟩
          have hno := (Lib.firstSum_eq_some.mp hfirst).2.2 (i - 1) (by omega)
          rw [Nat.sub_add_cancel (by omega)] at hno
          simpa using hno
    show Kept topP idx probs (idx.take _) (normalize (probs.take _))
    rw [hkeep]
    have hpos' : ∀ p ∈ probs.take keep, 0 < p := fun p hp => hpos p (List.mem_of_mem_take hp)
    have hprobs : probs.take keep ≠ [] := by
      rw [← List.length_pos_iff_ne_nil, List.length_take]
      omega
    refine ⟨hpos, List.take_prefix keep idx, by simp [normalize, hlength], ?_, normalize_pos hpos',
      sum_normalize hpos' hprobs, ?_⟩
    · rw [← List.length_pos_iff_ne_nil, List.length_take]
      omega
    · intro _ i hi hi0
      rw [List.length_take] at hi
      exact hbefore i (by omega) (by omega) hi0
  · rw [if_neg hcut]
    exact ⟨hpos, List.prefix_rfl, hlength, hne, hpos, hsum, fun h => absurd h hcut⟩

omit [IsStrictOrderedRing F] in
/-- A draw returns one of the tokens. -/
theorem draw_position {idx : List Nat} {probs : List F} (hlength : probs.length = idx.length)
    (hne : idx ≠ []) (r : F) : ∃ i < idx.length, ∃ t, draw r idx probs = some t ∧ idx[i]? = some t := by
  have hidx := List.length_pos_of_ne_nil hne
  unfold draw
  cases hfirst : firstSum (fun acc => r < acc) 0 probs with
  | none =>
      have hlast : probs.length - 1 < idx.length := by omega
      exact ⟨probs.length - 1, hlast, _, List.getElem?_eq_getElem hlast,
        List.getElem?_eq_getElem hlast⟩
  | some i =>
      have hi : i < idx.length := hlength ▸ (Lib.firstSum_eq_some.mp hfirst).1
      exact ⟨i, hi, idx[i], List.getElem?_eq_getElem hi, List.getElem?_eq_getElem hi⟩

/-- Every kept token is drawn, at what the masses before it add up to. -/
theorem Kept.drawn {topP : F} {idx idx' : List Nat} {probs probs' : List F}
    (h : Kept topP idx probs idx' probs') {t : Nat} (ht : t ∈ idx') :
    ∃ r, 0 ≤ r ∧ r < 1 ∧ draw r idx' probs' = some t := by
  obtain ⟨i, hi, rfl⟩ := List.getElem_of_mem ht
  have hi' : i < probs'.length := by rwa [h.length]
  refine ⟨(probs'.take i).sum, ?_, ?_, ?_⟩
  · simpa using Lib.sum_take_le_sum_take h.pos (Nat.zero_le i)
  · calc (probs'.take i).sum < (probs'.take (i + 1)).sum := Lib.sum_take_lt h.pos hi'
      _ ≤ (probs'.take probs'.length).sum := Lib.sum_take_le_sum_take h.pos hi'
      _ = 1 := by rw [List.take_length, h.sum]
  · unfold draw
    rw [Lib.firstSum_drawn h.pos hi']
    exact List.getElem?_eq_getElem hi

/-- The candidates ahead of one have at most the mass of those before it. -/
theorem mass_larger_le {exp : F → F} (hexp : ∀ x, 0 < exp x) (temperature : F) {adjusted : List F}
    {idx : List Nat} (hdesc : Descending (logit adjusted) idx) {i t : Nat} (ht : idx[i]? = some t) :
    mass exp temperature adjusted idx (fun u => logit adjusted t < logit adjusted u) ≤
      ((normalize (idx.map (weight exp temperature adjusted idx))).take i).sum := by
  have hpos := weight_pos hexp temperature adjusted idx
  have htotal : 0 < (idx.map (weight exp temperature adjusted idx)).sum := by
    refine List.sum_pos _ (hpos idx) ?_
    simpa using List.ne_nil_of_mem (List.mem_of_getElem? ht)
  rw [mass, hdesc.filter_above ht, normalize, ← List.map_take, sum_map_div, ← List.map_take]
  refine div_le_div_of_nonneg_right ?_ htotal.le
  exact (List.filter_sublist.map _).sum_le_sum fun w hw => (hpos _ w hw).le

/-- There is something to draw from. -/
theorem kept_spec {exp : F → F} (hexp : ∀ x, 0 < exp x) (sort : UnstableSort Nat) (s : Sampling F)
    {adjusted : List F} (hlen : adjusted.length < 2 ^ 32) (hne : adjusted ≠ []) :
    ∃ idx probs, kept exp sort s adjusted = some (idx, probs) ∧
      Kept s.topP (candidates sort s.topK adjusted)
        (normalize ((candidates sort s.topK adjusted).map
          (weight exp s.temperature adjusted (candidates sort s.topK adjusted)))) idx probs := by
  obtain ⟨-, hcands⟩ := candidates_ordered sort s.topK hlen hne
  have hweights := weight_pos hexp s.temperature adjusted (candidates sort s.topK adjusted)
    (candidates sort s.topK adjusted)
  refine ⟨_, _, ?_, nucleus_kept s.topP (by simp [normalize]) hcands (normalize_pos hweights)
    (sum_normalize hweights (by simpa using hcands))⟩
  simp [kept, softmax_eq _ _ _ hcands]

/-- **Support of sampling.** With fewer than `2 ^ 32` logits and a history within the
vocabulary, a sample at a temperature over `0` is a token of the vocabulary, with fewer
than `top_k` tokens ahead of it; for a `top_p` below `1` the candidates ahead of it have
less mass than that, and are none if there is no such mass. Every token kept is drawn. -/
theorem sample_support {exp : F → F} (hexp : ∀ x, 0 < exp x) (sort : UnstableSort Nat)
    {s : Sampling F} (htemp : 0 < s.temperature) {logits : List F} (hne : logits ≠ [])
    (hlen : logits.length < 2 ^ 32) {recent : List Nat}
    (hrecent : ∀ t ∈ recent, t < logits.length) (rng : SampleRng) :
    ∃ adjusted t rng' idx probs, adjust s logits recent = some adjusted ∧
      sample exp sort s logits recent rng = some (t, rng') ∧ t < logits.length ∧
      (0 < s.topK → (adjusted.filter fun v => logit adjusted t < v).length < s.topK) ∧
      (s.topP ≤ 0 → ∀ u ∈ candidates sort s.topK adjusted, logit adjusted u ≤ logit adjusted t) ∧
      (0 < s.topP → s.topP < 1 →
        mass exp s.temperature adjusted (candidates sort s.topK adjusted)
          (fun u => logit adjusted t < logit adjusted u) < s.topP) ∧
      kept exp sort s adjusted = some (idx, probs) ∧
      ∀ u ∈ idx, ∃ r, 0 ≤ r ∧ r < 1 ∧ draw r idx probs = some u := by
  obtain ⟨adjusted, hadjust, hlength⟩ := adjust_length hrecent
  rw [← hlength] at hlen ⊢
  have hadjusted : adjusted ≠ [] := by
    rw [← List.length_pos_iff_ne_nil, hlength]
    exact List.length_pos_of_ne_nil hne
  obtain ⟨hdesc, -⟩ := candidates_ordered sort s.topK hlen hadjusted
  obtain ⟨idx, probs, hkept, hcut⟩ := kept_spec hexp sort s hlen hadjusted
  obtain ⟨i, hi, t, hdraw, hget⟩ := draw_position hcut.length hcut.ne_nil (rng.unit (F := F)).1
  obtain ⟨rest, hrest⟩ := hcut.pre
  have ht : (candidates sort s.topK adjusted)[i]? = some t := by
    rw [← hrest, List.getElem?_append_left hi, hget]
  have hlarger := larger_lt hlen ht
  -- all that is ahead of the token is before position `i`
  have hfirst : i = 0 → ∀ u ∈ candidates sort s.topK adjusted, logit adjusted u ≤ logit adjusted t := by
    intro hi0 u hu
    have hnone := hdesc.filter_above ht
    rw [hi0, List.take_zero, List.filter_nil, List.filter_eq_nil_iff] at hnone
    simpa using hnone u hu
  have hmass := mass_larger_le hexp s.temperature hdesc ht
  refine ⟨adjusted, t, (rng.unit (F := F)).2, idx, probs, hadjust, ?_, ?_, ?_, ?_, ?_, hkept, ?_⟩
  · have hgreedy : s.isGreedy = false := by simp [Sampling.isGreedy, htemp]
    simp [sample, hgreedy, hadjust, hkept, hdraw]
  · exact candidates_lt hlen (List.mem_of_getElem? ht)
  · intro hk
    exact hlarger.1.trans_lt (hlarger.2 hk)
  · intro hp
    refine hfirst ?_
    by_contra hi0
    have hbefore := hcut.before (hp.trans_lt one_pos) i hi hi0
    have hnonneg := Lib.sum_take_le_sum_take hcut.whole (Nat.zero_le i)
    rw [List.take_zero, List.sum_nil] at hnonneg
    exact (hnonneg.trans_lt hbefore).not_ge hp
  · intro hp hp1
    by_cases hi0 : i = 0
    · refine lt_of_le_of_lt hmass ?_
      simpa [hi0] using hp
    · exact hmass.trans_lt (hcut.before hp1 i hi hi0)
  · intro u hu
    exact hcut.drawn hu

theorem sample_support_two_kept :
    ∃ adjusted t rng' idx probs,
      adjust (⟨1, 1 / 2, 3, 2, 64⟩ : Sampling ℚ) [8, 3, 4, -1] [0] = some adjusted ∧
      sample Lib.rising UnstableSort.stable ⟨1, 1 / 2, 3, 2, 64⟩ [8, 3, 4, -1] [0] ⟨1⟩ =
        some (t, rng') ∧ t < [8, 3, 4, -1].length ∧
      (0 < 3 → (adjusted.filter fun v => logit adjusted t < v).length < 3) ∧
      (1 / 2 ≤ (0 : ℚ) → ∀ u ∈ candidates UnstableSort.stable 3 adjusted,
        logit adjusted u ≤ logit adjusted t) ∧
      (0 < (1 / 2 : ℚ) → (1 / 2 : ℚ) < 1 →
        mass Lib.rising 1 adjusted (candidates UnstableSort.stable 3 adjusted)
          (fun u => logit adjusted t < logit adjusted u) < 1 / 2) ∧
      kept Lib.rising UnstableSort.stable ⟨1, 1 / 2, 3, 2, 64⟩ adjusted = some (idx, probs) ∧
      ∀ u ∈ idx, ∃ r, 0 ≤ r ∧ r < 1 ∧ draw r idx probs = some u :=
  sample_support Lib.rising_pos UnstableSort.stable (by norm_num) (by simp) (by simp) (by simp) ⟨1⟩

theorem sample_wrapped (exp : F → F) (sort : UnstableSort Nat) (topK window : Nat)
    {logits : List F} (hlen : logits.length = 2 ^ 32) (rng : SampleRng) :
    sample exp sort ⟨1, 1, topK, 1, window⟩ logits [] rng = none := by
  have hcands := candidates_wrapped sort topK hlen
  simp [sample, Sampling.isGreedy, adjust, kept, softmax, hcands, (zero_lt_one' F).not_ge]

/-- There is no sample of `2 ^ 32` logits, and none where a token of the history is outside
the vocabulary. -/
theorem sample_none :
    sample Lib.rising UnstableSort.stable ⟨1, 1, 0, 1, 64⟩ (List.replicate (2 ^ 32) 0) [] ⟨1⟩ =
        none ∧
      sample Lib.rising UnstableSort.stable ⟨1, 1, 0, 2, 64⟩ [0] [1] ⟨1⟩ = none := by
  constructor
  · exact sample_wrapped Lib.rising UnstableSort.stable 0 64 List.length_replicate ⟨1⟩
  · decide

end Selection

end LlmPager.Sample
