import Mathlib

/-!
# LlmPager.Lib.Circular

Indices handed out in turn from a circle of `m`, and a queue of those still in
use: the oldest leaves at the front, the next joins at the back. As long as
fewer than `m` are queued, the next one is none of them.
-/

namespace LlmPager.Lib

/-- The queue `l` holds successive indices modulo `m`, and `next` follows them. -/
def InTurn (m next : Nat) (l : List Nat) : Prop :=
  ∃ head, l = (List.range l.length).map (fun i => (head + i) % m) ∧
    next = (head + l.length) % m

namespace InTurn

variable {m next : Nat} {l : List Nat}

theorem nil (h : next < m) : InTurn m next [] := by
  refine ⟨next, rfl, ?_⟩
  simp [Nat.mod_eq_of_lt h]

theorem tail {x : Nat} (h : InTurn m next (x :: l)) : InTurn m next l := by
  obtain ⟨head, hl, hnext⟩ := h
  refine ⟨head + 1, ?_, ?_⟩
  · rw [List.length_cons, List.range_succ_eq_map, List.map_cons, List.map_map] at hl
    calc l = (List.range l.length).map ((fun i => (head + i) % m) ∘ Nat.succ) :=
          (List.cons.inj hl).2
      _ = (List.range l.length).map (fun i => (head + 1 + i) % m) :=
          List.map_congr_left fun i _ => by
            simp only [Function.comp_apply]
            congr 1
            omega
  · rw [hnext, List.length_cons]
    congr 1
    omega

/-- Any number may leave at the front. -/
theorem suffix {l' : List Nat} (h : InTurn m next l) (hl : l' <:+ l) : InTurn m next l' := by
  induction l with
  | nil => rwa [List.suffix_nil.mp hl]
  | cons x l ih =>
      rcases List.suffix_cons_iff.mp hl with rfl | hl
      · exact h
      · exact ih h.tail hl

theorem push (h : InTurn m next l) : InTurn m ((next + 1) % m) (l ++ [next]) := by
  obtain ⟨head, hl, hnext⟩ := h
  refine ⟨head, ?_, ?_⟩
  · rw [List.length_append, List.length_singleton, List.range_succ, List.map_append, ← hl, hnext]
    rfl
  · rw [List.length_append, List.length_singleton, hnext, Nat.mod_add_mod, Nat.add_assoc]

/-- **The next index is free** while the circle is not full. -/
theorem fresh (h : InTurn m next l) (hlen : l.length < m) : next ∉ l := by
  obtain ⟨head, hl, hnext⟩ := h
  intro hmem
  rw [hl] at hmem
  obtain ⟨i, hi, heq⟩ := List.mem_map.mp hmem
  have hi : i < l.length := List.mem_range.mp hi
  have hmod : i ≡ l.length [MOD m] := Nat.ModEq.add_left_cancel' head (heq.trans hnext)
  have := hmod.eq_of_lt_of_lt (hi.trans hlen) hlen
  omega

end InTurn

end LlmPager.Lib
