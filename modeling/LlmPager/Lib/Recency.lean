import Mathlib

/-!
# LlmPager.Lib.Recency

Lists kept in the order of last use.

A history has the latest use first, so the index of an item in it says how long
ago the item was last used. A list is ordered by a history when these indices
increase along it: what stands last is what was used least recently.
-/

namespace LlmPager.Lib

variable {α : Type*} [DecidableEq α] {history l l' : List α} {a b : α}

/-- The items of `l` stand in `history`, the more recent ones first. -/
structure Recent (history l : List α) : Prop where
  mem : ∀ a ∈ l, a ∈ history
  ordered : l.Pairwise fun a b => history.idxOf a < history.idxOf b

namespace Recent

theorem nil : Recent history [] := ⟨by simp, .nil⟩

theorem nodup (h : Recent history l) : l.Nodup :=
  h.ordered.imp fun hab heq => by
    rw [heq] at hab
    exact Nat.lt_irrefl _ hab

/-- Items may leave from anywhere. -/
theorem sublist (h : Recent history l) (hl : l'.Sublist l) : Recent history l' :=
  ⟨fun a ha => h.mem a (hl.subset ha), h.ordered.sublist hl⟩

/-- What stands before a cut was used after what stands behind it. -/
theorem lt_of_append {kept gone : List α} (h : Recent history (kept ++ gone)) (ha : a ∈ kept)
    (hb : b ∈ gone) : history.idxOf a < history.idxOf b :=
  (List.pairwise_append.mp h.ordered).2.2 a ha b hb

/-- A use of `a`, of which the rest of the list is free, puts it in front. -/
theorem use (h : Recent history l) (ha : a ∉ l) : Recent (a :: history) (a :: l) := by
  have hne : ∀ b ∈ l, b ≠ a := fun b hb heq => ha (heq ▸ hb)
  have hidx : ∀ b ∈ l, (a :: history).idxOf b = history.idxOf b + 1 := fun b hb =>
    List.idxOf_cons_ne _ (hne b hb).symm
  constructor
  · intro b hb
    rcases List.mem_cons.mp hb with rfl | hb
    · exact List.mem_cons_self
    · exact List.mem_cons_of_mem _ (h.mem b hb)
  · refine List.pairwise_cons.mpr ⟨fun b hb => ?_, ?_⟩
    · rw [hidx b hb, List.idxOf_cons_self]
      exact Nat.succ_pos _
    · refine h.ordered.imp_of_mem fun {b c} hb hc hbc => ?_
      rw [hidx b hb, hidx c hc]
      exact Nat.succ_lt_succ hbc

end Recent

end LlmPager.Lib
