import Mathlib

/-!
# LlmPager.Lib.Waves

Sets as sorted lists, taken in waves.

`sortedUnion` is the idiom *flatten, sort, drop repeats*: a list without
repeats that holds exactly what the given lists hold. `chunks n` cuts a list
into consecutive pieces of at most `n` items, as Rust's `slice::chunks` does;
put together again the pieces are the list.
-/

namespace LlmPager.Lib

variable {α : Type*}

/-! ### Sorted unions -/

/-- The members of all the lists, ascending and without repeats. -/
def sortedUnion (ls : List (List Nat)) : List Nat :=
  (ls.flatten.mergeSort (· ≤ ·)).destutter (· ≠ ·)

/-- Dropping repeats drops no member. -/
theorem mem_destutter_ne [DecidableEq α] {l : List α} {x : α} :
    x ∈ l.destutter (· ≠ ·) ↔ x ∈ l := by
  refine ⟨fun h => (l.destutter_sublist _).subset h, fun h => ?_⟩
  cases l with
  | nil => cases h
  | cons a l =>
      rw [List.destutter_cons']
      induction l generalizing a with
      | nil => exact h
      | cons b l ih =>
          by_cases hab : a = b
          · subst hab
            rw [List.destutter'_cons_neg _ (by simp)]
            refine ih a ?_
            rcases List.mem_cons.mp h with rfl | h
            · exact List.mem_cons_self
            · exact h
          · rw [List.destutter'_cons_pos _ hab]
            rcases List.mem_cons.mp h with rfl | h
            · exact List.mem_cons_self
            · exact List.mem_cons_of_mem _ (ih b h)

theorem mem_sortedUnion {ls : List (List Nat)} {x : Nat} :
    x ∈ sortedUnion ls ↔ ∃ l ∈ ls, x ∈ l := by
  rw [sortedUnion, mem_destutter_ne, List.mem_mergeSort, List.mem_flatten]

/-- A sorted union is strictly ascending. -/
theorem sortedUnion_pairwise (ls : List (List Nat)) : (sortedUnion ls).Pairwise (· < ·) := by
  have hsorted : (ls.flatten.mergeSort (· ≤ ·)).Pairwise (· ≤ ·) := by
    refine (List.pairwise_mergeSort ?_ ?_ _).imp fun h => of_decide_eq_true h
    · intro a b c hab hbc
      exact decide_eq_true (Nat.le_trans (of_decide_eq_true hab) (of_decide_eq_true hbc))
    · intro a b
      rcases Nat.le_total a b with h | h
      · simp [h]
      · simp [h]
  have hle : (sortedUnion ls).Pairwise (· ≤ ·) := hsorted.sublist (List.destutter_sublist _ _)
  have hne : (sortedUnion ls).IsChain (· ≠ ·) := List.isChain_destutter _ _
  refine List.isChain_iff_pairwise.mp (List.isChain_iff_forall_rel_of_append_cons_cons.mpr ?_)
  intro a b l₁ l₂ heq
  exact Nat.lt_of_le_of_ne
    (List.isChain_iff_forall_rel_of_append_cons_cons.mp hle.isChain heq)
    (List.isChain_iff_forall_rel_of_append_cons_cons.mp hne heq)

theorem sortedUnion_nodup (ls : List (List Nat)) : (sortedUnion ls).Nodup :=
  (sortedUnion_pairwise ls).imp fun h => Nat.ne_of_lt h

/-! ### Chunks -/

/-- `chunks`, one piece per unit of fuel. -/
def chunksAux (n : Nat) : Nat → List α → List (List α)
  | 0, _ => []
  | _ + 1, [] => []
  | fuel + 1, l => l.take n :: chunksAux n fuel (l.drop n)

/-- Consecutive pieces of `n` items, the last one possibly shorter. -/
def chunks (n : Nat) (l : List α) : List (List α) := chunksAux n l.length l

theorem chunksAux_flatten {n fuel : Nat} (hn : 0 < n) {l : List α} (h : l.length ≤ fuel) :
    (chunksAux n fuel l).flatten = l := by
  induction fuel generalizing l with
  | zero =>
      rw [List.length_eq_zero_iff.mp (Nat.le_zero.mp h)]
      rfl
  | succ fuel ih =>
      cases l with
      | nil => rfl
      | cons a l =>
          rw [chunksAux, List.flatten_cons, ih, List.take_append_drop]
          · rw [List.length_drop]
            omega
          · exact nofun

/-- The pieces make up the list. -/
theorem chunks_flatten {n : Nat} (hn : 0 < n) (l : List α) : (chunks n l).flatten = l :=
  chunksAux_flatten hn (Nat.le_refl _)

theorem chunksAux_length_le {n fuel : Nat} {l c : List α} (h : c ∈ chunksAux n fuel l) :
    c.length ≤ n := by
  induction fuel generalizing l with
  | zero => cases h
  | succ fuel ih =>
      cases l with
      | nil => cases h
      | cons a l =>
          rw [chunksAux] at h
          · rcases List.mem_cons.mp h with rfl | h
            · rw [List.length_take]
              exact Nat.min_le_left _ _
            · exact ih h
          · exact nofun

theorem length_le_of_mem_chunks {n : Nat} {l c : List α} (h : c ∈ chunks n l) : c.length ≤ n :=
  chunksAux_length_le h

theorem chunksAux_ne_nil {n fuel : Nat} (hn : 0 < n) {l c : List α}
    (h : c ∈ chunksAux n fuel l) : c ≠ [] := by
  induction fuel generalizing l with
  | zero => cases h
  | succ fuel ih =>
      cases l with
      | nil => cases h
      | cons a l =>
          rw [chunksAux] at h
          · rcases List.mem_cons.mp h with rfl | h
            · obtain ⟨k, rfl⟩ := Nat.exists_eq_succ_of_ne_zero (Nat.ne_of_gt hn)
              simp
            · exact ih h
          · exact nofun

theorem ne_nil_of_mem_chunks {n : Nat} (hn : 0 < n) {l c : List α} (h : c ∈ chunks n l) :
    c ≠ [] :=
  chunksAux_ne_nil hn h

theorem mem_of_mem_chunks {n : Nat} (hn : 0 < n) {l c : List α} {x : α} (hc : c ∈ chunks n l)
    (hx : x ∈ c) : x ∈ l := by
  rw [← chunks_flatten hn l]
  exact List.mem_flatten.mpr ⟨c, hc, hx⟩

/-! ### A partition by waves -/

/-- Waves that hold every key of a list once share its items out among them. -/
theorem flatMap_filter_perm {κ : Type*} [DecidableEq κ] (key : α → κ) {l : List α}
    {ws : List (List κ)} (hnd : ws.flatten.Nodup) (hall : ∀ a ∈ l, key a ∈ ws.flatten) :
    (ws.flatMap fun w => l.filter fun a => w.contains (key a)).Perm l := by
  induction ws generalizing l with
  | nil =>
      cases l with
      | nil => rfl
      | cons a l => simpa using hall a List.mem_cons_self
  | cons w ws ih =>
      have hdisj : List.Disjoint w ws.flatten := List.disjoint_of_nodup_append (by simpa using hnd)
      have hws : ws.flatten.Nodup := (List.nodup_append.mp (by simpa using hnd)).2.1
      -- the later waves take their items from what the first one leaves
      have hlater : (ws.flatMap fun w' => l.filter fun a => w'.contains (key a)) =
          ws.flatMap fun w' =>
            (l.filter fun a => !w.contains (key a)).filter fun a => w'.contains (key a) := by
        apply List.flatMap_congr
        intro w' hw'
        rw [List.filter_filter]
        apply List.filter_congr
        intro a _
        by_cases ha : key a ∈ w'
        · have hnot : key a ∉ w := fun hmem =>
            hdisj hmem (List.mem_flatten.mpr ⟨w', hw', ha⟩)
          simp [ha, hnot]
        · simp [ha]
      rw [List.flatMap_cons, hlater]
      refine ((ih hws ?_).append_left _).trans (List.filter_append_perm _ l)
      intro a ha
      obtain ⟨hal, hout⟩ := List.mem_filter.mp ha
      have hmem := hall a hal
      rw [List.flatten_cons, List.mem_append] at hmem
      rcases hmem with hin | hin
      · simp [hin] at hout
      · exact hin

end LlmPager.Lib
