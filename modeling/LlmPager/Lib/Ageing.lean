import Mathlib

/-!
# LlmPager.Lib.Ageing

A counter that halves, in a population that gives up its zeros.

One member of a population of `size` is watched. Nothing raises its counter, an
insertion while the counter is zero uses up a zero counter of somebody else, and
the counters are halved when at least `lo` and at most `hi` insertions have
passed since the last time. `Age.patience` bounds how many insertions the watched
member can outlive: it falls with every one of them (`Age.Step.patience`).
-/

namespace LlmPager.Lib

theorem size_half {n : Nat} (h : 0 < n) : Nat.size n = Nat.size (n / 2) + 1 := by
  apply Nat.le_antisymm
  · rw [Nat.size_le, pow_succ]
    have := Nat.lt_size_self (n / 2)
    omega
  · rw [Nat.succ_le_iff, Nat.lt_size]
    rcases Nat.eq_zero_or_pos (n / 2) with hzero | hpos
    · rw [hzero, Nat.size_zero, pow_zero]
      exact h
    · obtain ⟨k, hk⟩ := Nat.exists_eq_succ_of_ne_zero (Nat.size_pos.mpr hpos).ne'
      have hle : 2 ^ k ≤ n / 2 := by
        rw [← Nat.lt_size, hk]
        exact Nat.lt_succ_self k
      rw [hk, pow_succ]
      omega

/-- The watched counter, the number of counters at zero, and the insertions
since the last halving. -/
structure Age where
  freq : Nat
  zeros : Nat
  inserts : Nat

namespace Age

/-- A step, and how many insertions it is. -/
inductive Step (lo hi size : Nat) : Age → Nat → Age → Prop
  /-- Somebody else's counter rises. -/
  | quiet {f z n z' : Nat} : z' ≤ z → Step lo hi size ⟨f, z, n⟩ 0 ⟨f, z', n⟩
  /-- Somebody else is replaced. -/
  | insert {f z n z' : Nat} : n < hi → (f = 0 → z' < z) →
      Step lo hi size ⟨f, z, n⟩ 1 ⟨f, z', n + 1⟩
  | halve {f z n z' : Nat} : lo ≤ n → Step lo hi size ⟨f, z, n⟩ 0 ⟨f / 2, z', 0⟩

/-- There are at most `size` zeros, and the watched counter is among them when
it is zero. -/
structure Ok (size : Nat) (a : Age) : Prop where
  zeros_le : a.zeros ≤ size
  watched : a.freq = 0 → 0 < a.zeros

/-- How many insertions the watched member can outlive. At zero, with enough
insertions left before the counters can be halved, one for each zero; else the
rest of this round and another; above zero, one round for every bit. -/
def patience (lo hi size : Nat) (a : Age) : Nat :=
  if a.freq = 0 then
    if a.zeros ≤ lo - a.inserts then a.zeros else hi - a.inserts + size
  else hi - a.inserts + (Nat.size a.freq - 1) * hi + size

variable {lo hi size k : Nat} {a b : Age}

theorem patience_pos (hsize : 0 < size) (ha : a.Ok size) : 0 < a.patience lo hi size := by
  unfold patience
  by_cases hf : a.freq = 0
  · rw [if_pos hf]
    split
    · exact ha.watched hf
    · omega
  · rw [if_neg hf]
    omega

theorem patience_le (hsize : size ≤ lo) (hlo : lo ≤ hi) (a : Age) :
    a.patience lo hi size ≤ (Nat.size a.freq + 2) * hi := by
  unfold patience
  by_cases hf : a.freq = 0
  · rw [if_pos hf, hf, Nat.size_zero, Nat.zero_add, Nat.two_mul]
    split <;> omega
  · rw [if_neg hf]
    obtain ⟨m, hm⟩ := Nat.exists_eq_succ_of_ne_zero
      (Nat.size_pos.mpr (Nat.pos_of_ne_zero hf)).ne'
    rw [hm, Nat.succ_sub_one]
    have hexpand : (m.succ + 2) * hi = m * hi + 3 * hi := by
      rw [Nat.succ_eq_add_one]
      ring
    omega

/-- **Step lemma.** Every insertion costs patience, and nothing restores it. -/
theorem Step.patience (h : Step lo hi size a k b) (hsize : size ≤ lo) (ha : a.Ok size)
    (hb : b.Ok size) : b.patience lo hi size + k ≤ a.patience lo hi size := by
  cases h with
  | @quiet f z n z' hz =>
      have hle : z ≤ size := ha.zeros_le
      unfold Age.patience
      by_cases hf : f = 0
      · simp only [hf, if_true]
        split <;> split <;> omega
      · simp only [hf, if_false]
        omega
  | @insert f z n z' hn hz =>
      have hle : z' ≤ size := hb.zeros_le
      unfold Age.patience
      by_cases hf : f = 0
      · have hpos : 0 < z' := hb.watched hf
        have hlt := hz hf
        simp only [hf, if_true]
        split <;> split <;> omega
      · simp only [hf, if_false]
        omega
  | @halve f z n z' hn =>
      have hle : z' ≤ size := hb.zeros_le
      have hhalf : (if z' ≤ lo - 0 then z' else hi - 0 + size) = z' := if_pos (by omega)
      unfold Age.patience
      by_cases hf : f = 0
      · have hpos : 0 < z := ha.watched hf
        have hnone : ¬z ≤ lo - n := by omega
        simp only [hf, Nat.zero_div, if_true, hhalf, if_neg hnone]
        omega
      · have hbits := size_half (Nat.pos_of_ne_zero hf)
        simp only [hf, if_false]
        by_cases hlast : f / 2 = 0
        · simp only [hlast, if_true, hhalf]
          omega
        · obtain ⟨m, hm⟩ := Nat.exists_eq_succ_of_ne_zero
            (Nat.size_pos.mpr (Nat.pos_of_ne_zero hlast)).ne'
          simp only [hlast, if_false, hbits, hm, Nat.succ_eq_add_one, Nat.add_sub_cancel,
            Nat.add_mul, Nat.one_mul]
          omega

end Age

end LlmPager.Lib
