import Mathlib

/-!
# LlmPager.Lib.Parties

A pool of parties is a list, a party its position. What the parties hold
together is a `flatMap`, and when one of them moves, only its share changes:
up to order the rest is the same list before and after.
-/

namespace LlmPager.Lib

variable {α β : Type*} {l : List α} {i : Nat} {a : α}

/-- What everybody but party `i` holds. -/
def others (f : α → List β) (l : List α) (i : Nat) : List β := (l.eraseIdx i).flatMap f

/-- The pool's holdings are one party's share and the rest. -/
theorem flatMap_perm_share (f : α → List β) (h : l[i]? = some a) :
    (l.flatMap f).Perm (f a ++ others f l i) := by
  obtain ⟨hlt, rfl⟩ := List.getElem?_eq_some_iff.mp h
  exact (List.getElem_cons_eraseIdx_perm hlt).symm.flatMap_right f

/-- After party `i` has moved, the rest is what it was. -/
theorem flatMap_set_perm (f : α → List β) (h : l[i]? = some a) (b : α) :
    ((l.set i b).flatMap f).Perm (f b ++ others f l i) := by
  obtain ⟨hlt, -⟩ := List.getElem?_eq_some_iff.mp h
  exact (List.set_perm_cons_eraseIdx hlt b).flatMap_right f

/-- A party whose share stays the same changes nothing. -/
theorem flatMap_perm_set {f : α → List β} {b : α} (h : l[i]? = some a) (hf : f b = f a) :
    (l.flatMap f).Perm ((l.set i b).flatMap f) := by
  exact (flatMap_perm_share f h).trans (hf ▸ (flatMap_set_perm f h b).symm)

/-- A party gains `new`. -/
theorem flatMap_perm_gain {f : α → List β} {b : α} (new : List β) (h : l[i]? = some a)
    (hf : (f b).Perm (new ++ f a)) : (new ++ l.flatMap f).Perm ((l.set i b).flatMap f) := by
  refine ((flatMap_perm_share f h).append_left new).trans ?_
  rw [← List.append_assoc]
  exact (hf.symm.append_right _).trans (flatMap_set_perm f h b).symm

/-- A party loses `old`. -/
theorem flatMap_perm_lose {f : α → List β} {b : α} (old : List β) (h : l[i]? = some a)
    (hf : (f a).Perm (old ++ f b)) : (l.flatMap f).Perm (old ++ (l.set i b).flatMap f) := by
  refine (flatMap_perm_share f h).trans ((hf.append_right _).trans ?_)
  rw [List.append_assoc]
  exact (flatMap_set_perm f h b).symm.append_left old

/-- What another party holds is in the rest. -/
theorem mem_others {f : α → List β} {j : Nat} {b : α} {x : β} (hj : l[j]? = some b) (hne : j ≠ i)
    (hx : x ∈ f b) : x ∈ others f l i :=
  List.mem_flatMap.mpr ⟨b, List.mem_eraseIdx_iff_getElem?.mpr ⟨j, hne, hj⟩, hx⟩

theorem mem_flatMap_set {f : α → List β} {b : α} {x : β}
    (hx : x ∈ (l.set i b).flatMap f) : x ∈ f b ∨ x ∈ l.flatMap f := by
  obtain ⟨c, hc, hxc⟩ := List.mem_flatMap.mp hx
  rcases List.mem_or_eq_of_mem_set hc with hold | rfl
  · exact .inr (List.mem_flatMap.mpr ⟨c, hold, hxc⟩)
  · exact .inl hxc

end LlmPager.Lib
