import LlmPager.Lib.Ranking

/-!
# LlmPager.Run.Routing

The router of the Kimi engine, `sigmoid_topk`: which experts a token goes to, by score
and bias, and with what weights, by score alone.

Arithmetic is exact and the sigmoid is a parameter. The sort is stable. A comparison
that reads a bias that is not there is a panic, `none`; every element is compared if
there are two.
-/

namespace LlmPager.Routing

open Lib (descLe Descending)

variable {F : Type} [Field F] [LinearOrder F]

/-- Score plus bias of an expert, what it is selected by. -/
def selection (scores bias : List F) (i : Nat) : F := scores.getD i 0 + bias.getD i 0

/-- The experts selected, as indices. -/
def ranked (scores bias : List F) (k : Nat) : List Nat :=
  ((List.range scores.length).mergeSort (descLe (selection scores bias))).take k

/-- `if renorm { .. }`. -/
def renormalize (picks : List (Nat × F)) : List (Nat × F) :=
  let s := (picks.map (·.2)).sum
  if 0 < s then picks.map fun p => (p.1, p.2 / s) else picks

/-- Expert ids are `u16`. -/
def sigmoidTopk (sigmoid : F → F) (logits bias : List F) (k : Nat) (renorm : Bool)
    (scaling minWeight : F) : Option (List (Nat × F)) :=
  let scores := logits.map sigmoid
  if 2 ≤ scores.length ∧ bias.length < scores.length then none
  else
    let picks := (ranked scores bias k).map fun i => (i % 2 ^ 16, scores.getD i 0)
    let picks := if renorm then renormalize picks else picks
    let picks := picks.map fun p => (p.1, p.2 * scaling)
    some (if 0 < minWeight then picks.filter fun p => minWeight ≤ p.2 else picks)

/-! ### Selection -/

section Selection

variable {scores bias : List F} {k : Nat}

theorem ranked_length : (ranked scores bias k).length = min k scores.length := by
  simp [ranked]

theorem ranked_nodup : (ranked scores bias k).Nodup :=
  ((List.mergeSort_perm _ _).nodup_iff.mpr List.nodup_range).sublist (List.take_sublist _ _)

theorem ranked_lt {i : Nat} (hi : i ∈ ranked scores bias k) : i < scores.length :=
  List.mem_range.mp (List.mem_mergeSort.mp (List.mem_of_mem_take hi))

/-- A selected expert is ahead of one that is not: by score and bias, or by index. -/
theorem ranked_ahead {i j : Nat} (hi : i ∈ ranked scores bias k) (hj : j < scores.length)
    (hout : j ∉ ranked scores bias k) :
    selection scores bias j < selection scores bias i ∨
      selection scores bias j = selection scores bias i ∧ i < j := by
  have hall : ((List.range scores.length).mergeSort (descLe (selection scores bias))).Pairwise
      fun a b => selection scores bias b < selection scores bias a ∨
        selection scores bias b = selection scores bias a ∧ [a, b].Sublist (List.range scores.length) :=
    Lib.mergeSort_ties List.nodup_range
  rw [← List.take_append_drop k (List.mergeSort _ _), List.pairwise_append] at hall
  have hrest : j ∈ ((List.range scores.length).mergeSort
      (descLe (selection scores bias))).drop k := by
    have hmem : j ∈ (List.range scores.length).mergeSort (descLe (selection scores bias)) :=
      List.mem_mergeSort.mpr (List.mem_range.mpr hj)
    rw [← List.take_append_drop k (List.mergeSort _ _), List.mem_append] at hmem
    exact hmem.resolve_left hout
  refine (hall.2.2 i hi j hrest).imp_right fun h => ⟨h.1, ?_⟩
  exact List.pairwise_iff_forall_sublist.mp List.pairwise_lt_range h.2

end Selection

/-! ### Weights -/

section Weights

/-- The weight of an expert among those picked. -/
def weight (scores : List F) (picked : List Nat) (renorm : Bool) (scaling : F) (i : Nat) : F :=
  (if renorm then scores.getD i 0 / (picked.map (scores.getD · 0)).sum else scores.getD i 0) *
    scaling

omit [LinearOrder F] in
/-- The weights depend on which experts are picked, not on their order. -/
theorem weight_perm {scores : List F} {picked picked' : List Nat} (h : picked.Perm picked')
    (renorm : Bool) (scaling : F) :
    weight scores picked renorm scaling = weight scores picked' renorm scaling := by
  funext i
  rw [weight, weight, (h.map _).sum_eq]

variable [IsStrictOrderedRing F]

theorem scores_sum_pos {sigmoid : F → F} (hsigmoid : ∀ x, 0 < sigmoid x) {logits : List F}
    {picked : List Nat} (hpicked : ∀ i ∈ picked, i < logits.length) (hne : picked ≠ []) :
    0 < (picked.map ((logits.map sigmoid).getD · 0)).sum := by
  refine List.sum_pos _ ?_ (by simpa using hne)
  intro x hx
  obtain ⟨i, hi, rfl⟩ := List.mem_map.mp hx
  simpa [hpicked i hi] using hsigmoid _

theorem sum_weights {sigmoid : F → F} (hsigmoid : ∀ x, 0 < sigmoid x) {logits : List F}
    {picked : List Nat} (hpicked : ∀ i ∈ picked, i < logits.length) (hne : picked ≠ [])
    (scaling : F) :
    (picked.map (weight (logits.map sigmoid) picked true scaling)).sum = scaling := by
  have hpos := scores_sum_pos hsigmoid hpicked hne
  have hweight : weight (logits.map sigmoid) picked true scaling = fun i =>
      (logits.map sigmoid).getD i 0 * (scaling / (picked.map ((logits.map sigmoid).getD · 0)).sum) := by
    funext i
    rw [weight, if_pos rfl, div_mul_eq_mul_div, mul_div_assoc]
  rw [hweight, List.sum_map_mul_right, mul_div_cancel₀ scaling hpos.ne']

/-- What is returned: the ranked experts, each with its weight, of at least the least. -/
theorem sigmoidTopk_eq {sigmoid : F → F} (hsigmoid : ∀ x, 0 < sigmoid x) {logits bias : List F}
    (hbias : bias.length = logits.length) (hlen : logits.length ≤ 2 ^ 16) (k : Nat) (renorm : Bool)
    (scaling minWeight : F) :
    let picked := ranked (logits.map sigmoid) bias k
    let picks := picked.map fun i => (i, weight (logits.map sigmoid) picked renorm scaling i)
    sigmoidTopk sigmoid logits bias k renorm scaling minWeight =
      some (if 0 < minWeight then picks.filter fun p => minWeight ≤ p.2 else picks) := by
  intro picked picks
  have hlt : ∀ i ∈ picked, i < logits.length := fun i hi => by simpa using ranked_lt hi
  have hids : picked.map (fun i => (i % 2 ^ 16, (logits.map sigmoid).getD i 0)) =
      picked.map fun i => (i, (logits.map sigmoid).getD i 0) := by
    refine List.map_congr_left fun i hi => ?_
    rw [Nat.mod_eq_of_lt ((hlt i hi).trans_le hlen)]
  have hweights : (if renorm then renormalize (picked.map fun i =>
        (i, (logits.map sigmoid).getD i 0)) else picked.map fun i =>
        (i, (logits.map sigmoid).getD i 0)).map (fun p => (p.1, p.2 * scaling)) = picks := by
    cases renorm with
    | false => simp [picks, weight]
    | true =>
        by_cases hne : picked = []
        · simp [picks, hne, renormalize]
        · have hpos := scores_sum_pos hsigmoid hlt hne
          have hsum : ((picked.map fun i => (i, (logits.map sigmoid).getD i 0)).map (·.2)).sum =
              (picked.map ((logits.map sigmoid).getD · 0)).sum := by
            rw [List.map_map]
            rfl
          rw [if_pos rfl, renormalize, hsum, if_pos hpos]
          simp [picks, weight]
  unfold sigmoidTopk
  rw [if_neg (by simp [hbias])]
  show some (if 0 < minWeight then List.filter _ (List.map _ (if renorm then
    renormalize (picked.map _) else picked.map _)) else _) = _
  rw [hids, hweights]

end Weights

/-- **Routing.** What is picked, with what weights, and what the least weight drops; the
weights depend on the picked set alone. -/
theorem sigmoidTopk_spec [IsStrictOrderedRing F] {sigmoid : F → F} (hsigmoid : ∀ x, 0 < sigmoid x)
    {logits bias : List F} (hbias : bias.length = logits.length) (hlen : logits.length ≤ 2 ^ 16)
    (k : Nat) (renorm : Bool) (scaling : F) :
    let scores := logits.map sigmoid
    ∃ picks, sigmoidTopk sigmoid logits bias k renorm scaling 0 = some picks ∧
      let ids := picks.map (·.1)
      ids.length = min k logits.length ∧ ids.Nodup ∧ (∀ i ∈ ids, i < logits.length) ∧
      (∀ i ∈ ids, ∀ j < logits.length, j ∉ ids → selection scores bias j < selection scores bias i ∨
        selection scores bias j = selection scores bias i ∧ i < j) ∧
      (∀ p ∈ picks, p.2 = weight scores ids renorm scaling p.1) ∧
      (renorm → picks ≠ [] → (picks.map (·.2)).sum = scaling) ∧
      (∀ minWeight, 0 < minWeight → sigmoidTopk sigmoid logits bias k renorm scaling minWeight =
        some (picks.filter fun p => minWeight ≤ p.2)) ∧
      ∀ bias' picks', bias'.length = logits.length →
        sigmoidTopk sigmoid logits bias' k renorm scaling 0 = some picks' →
        (∀ i, i ∈ ids ↔ i ∈ picks'.map (·.1)) → ∀ p, p ∈ picks ↔ p ∈ picks' := by
  intro scores
  have hzero : ∀ bias : List F, bias.length = logits.length →
      sigmoidTopk sigmoid logits bias k renorm scaling 0 =
        some ((ranked scores bias k).map fun i =>
          (i, weight scores (ranked scores bias k) renorm scaling i)) := by
    intro bias hbias
    rw [sigmoidTopk_eq hsigmoid hbias hlen, if_neg (lt_irrefl _)]
  have hids : ∀ bias : List F, ((ranked scores bias k).map fun i =>
      (i, weight scores (ranked scores bias k) renorm scaling i)).map (·.1) =
        ranked scores bias k := by
    intro bias
    rw [List.map_map]
    exact List.map_id _
  have hlength : scores.length = logits.length := List.length_map sigmoid
  have hlt : ∀ i ∈ ranked scores bias k, i < logits.length := fun i hi => hlength ▸ ranked_lt hi
  refine ⟨_, hzero bias hbias, ?_⟩
  rw [hids bias]
  refine ⟨by rw [ranked_length, hlength], ranked_nodup, hlt, ?_, by simp, ?_, ?_, ?_⟩
  · intro i hi j hj hout
    exact ranked_ahead hi (by rwa [hlength]) hout
  · intro hrenorm hne
    rw [hrenorm, List.map_map]
    exact sum_weights hsigmoid hlt (by simpa using hne) scaling
  · intro minWeight hmin
    rw [sigmoidTopk_eq hsigmoid hbias hlen, if_pos hmin]
  · intro bias' picks' hbias' hpicks' hsame p
    obtain rfl := Option.some.inj ((hzero bias' hbias').symm.trans hpicks')
    rw [hids bias'] at hsame
    have hperm := (List.perm_ext_iff_of_nodup ranked_nodup ranked_nodup).mpr hsame
    rw [weight_perm hperm]
    exact (hperm.map _).mem_iff

theorem sigmoidTopk_spec_two_of_three :
    ∃ picks : List (Nat × ℚ), sigmoidTopk Lib.rising [2, -2, 1] [0, 0, 5] 2 true 2 0 = some picks ∧
      (picks.map (·.1)).Nodup ∧ (picks.map (·.2)).sum = 2 := by
  have hspec := sigmoidTopk_spec Lib.rising_pos (show [0, 0, 5].length = [2, -2, 1].length from rfl)
    (by decide) 2 true 2
  obtain ⟨picks, hpicks, hlength, hnodup, -, -, -, hsum, -⟩ := hspec
  refine ⟨picks, hpicks, hnodup, hsum rfl ?_⟩
  intro hnil
  rw [hnil] at hlength
  exact absurd hlength (by decide)

/-- Of no experts the weights do not sum to the scaling. -/
theorem renorm_of_none :
    (sigmoidTopk Lib.rising [1] [0] 0 true 2 0).map (fun picks => (picks.map (·.2)).sum) =
      some 0 := by
  decide

end LlmPager.Routing
