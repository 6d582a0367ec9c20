import Mathlib

/-!
# LlmPager.Lib.Ranking

Lists in descending order of a key (`Descending`), and sorts that make them so: a
stable one, where equal keys keep their order (`List.mergeSort`), and any that may
reorder them (`UnstableSort`). Of the first `k` elements none has a smaller key than
one of the rest; what has a larger key than an element stands before it. So the first `k`
are `k` of the largest (`TopSet`), and any such choice is what some unstable sort puts first.

Over a list of weights, the first position at which the running sum passes a test
(`firstSum`): a cut at a total, or a draw.
-/

namespace LlmPager.Lib

variable {α : Type}

/-- A sort that may put elements that compare equal in any order: for a total preorder
`le`, `sort le l` is an ordering of `l`. -/
structure UnstableSort (α : Type) where
  sort : (α → α → Bool) → List α → List α
  perm : ∀ le l, (sort le l).Perm l
  pairwise : ∀ le, (∀ a b c, le a b → le b c → le a c) → (∀ a b, le a b || le b a) →
    ∀ l, (sort le l).Pairwise fun a b => le a b

namespace UnstableSort

/-- Sorting stably, of what has been put in some order first. -/
def after (arrange : List α → List α) (harrange : ∀ l, (arrange l).Perm l) : UnstableSort α where
  sort le l := (arrange l).mergeSort le
  perm _ l := (List.mergeSort_perm _ _).trans (harrange l)
  pairwise _ htrans htotal l := List.pairwise_mergeSort htrans htotal (arrange l)

/-- A stable sort is one. -/
def stable : UnstableSort α := after id fun _ => .refl _

end UnstableSort

section Descending

variable {K : Type} [LinearOrder K]

/-- `|a, b| key(b).cmp(&key(a))`, as whether `a` may stand before `b`. -/
def descLe (key : α → K) (a b : α) : Bool := decide (key b ≤ key a)

def Descending (key : α → K) (l : List α) : Prop := l.Pairwise fun a b => key b ≤ key a

theorem descLe_trans (key : α → K) (a b c : α) (hab : descLe key a b) (hbc : descLe key b c) :
    descLe key a c := by
  simp only [descLe, decide_eq_true_eq] at *
  exact hbc.trans hab

theorem descLe_total (key : α → K) (a b : α) : descLe key a b || descLe key b a := by
  simp only [descLe, Bool.or_eq_true, decide_eq_true_eq]
  exact le_total _ _

theorem UnstableSort.descending (s : UnstableSort α) (key : α → K) (l : List α) :
    Descending key (s.sort (descLe key) l) :=
  (s.pairwise _ (descLe_trans key) (descLe_total key) l).imp of_decide_eq_true

theorem descending_mergeSort (key : α → K) (l : List α) :
    Descending key (l.mergeSort (descLe key)) :=
  (UnstableSort.stable (α := α)).descending key l

variable {key : α → K} {l : List α}

theorem Descending.take_drop (h : Descending key l) {k : Nat} {a b : α} (ha : a ∈ l.take k)
    (hb : b ∈ l.drop k) : key b ≤ key a := by
  rw [Descending, ← List.take_append_drop k l, List.pairwise_append] at h
  exact h.2.2 a ha b hb

/-- What has a larger key than element `j` stands before it. -/
theorem Descending.filter_above (h : Descending key l) {j : Nat} {x : α} (hx : l[j]? = some x) :
    (l.filter fun a => key x < key a) = (l.take j).filter fun a => key x < key a := by
  obtain ⟨hj, hget⟩ := List.getElem?_eq_some_iff.mp hx
  have hdrop : l.drop j = x :: l.drop (j + 1) := by rw [← hget]; exact List.drop_eq_getElem_cons hj
  have hrest : (l.drop j).filter (fun a => key x < key a) = [] := by
    rw [List.filter_eq_nil_iff]
    intro a ha
    have hsub : (l.drop j).Pairwise fun a b => key b ≤ key a := h.sublist (List.drop_sublist j l)
    rw [hdrop] at hsub ha
    rcases List.mem_cons.mp ha with rfl | ha
    · simp
    · simpa using (List.pairwise_cons.mp hsub).1 a ha
  calc _ = ((l.take j ++ l.drop j).filter fun a => key x < key a) := by rw [List.take_append_drop]
    _ = _ := by rw [List.filter_append, hrest, List.append_nil]

theorem Descending.length_above (h : Descending key l) {j : Nat} {x : α} (hx : l[j]? = some x) :
    (l.filter fun a => key x < key a).length ≤ j := by
  rw [h.filter_above hx]
  exact (List.length_filter_le _ _).trans (List.length_take_le j l)

theorem pair_sublist_or {a b : α} (ha : a ∈ l) (hb : b ∈ l) (hne : a ≠ b) :
    [a, b].Sublist l ∨ [b, a].Sublist l := by
  have hpairs : l.Pairwise fun x y => [x, y].Sublist l ∨ [y, x].Sublist l :=
    List.pairwise_iff_forall_sublist.mpr Or.inl
  have : Std.Symm fun x y => [x, y].Sublist l ∨ [y, x].Sublist l := ⟨fun _ _ => Or.symm⟩
  exact hpairs.forall ha hb hne

theorem not_pair_swap {a b : α} (hl : l.Nodup) (h : [a, b].Sublist l) : ¬ [b, a].Sublist l := by
  induction l with
  | nil => cases h
  | cons x l ih =>
      obtain ⟨hx, hl⟩ := List.nodup_cons.mp hl
      intro hswap
      rcases List.cons_sublist_cons'.mp h with hl₁ | ⟨ha, hb⟩
      · rcases List.cons_sublist_cons'.mp hswap with hl₂ | ⟨hbx, -⟩
        · exact ih hl hl₁ hl₂
        · exact hx (hbx ▸ hl₁.subset (by simp))
      · rcases List.cons_sublist_cons'.mp hswap with hl₂ | ⟨-, ha'⟩
        · exact hx (ha ▸ hl₂.subset (by simp))
        · exact hx (ha ▸ ha'.subset (by simp))

/-- A stable sort keeps the order of what has the same key. -/
theorem mergeSort_ties (hl : l.Nodup) : (l.mergeSort (descLe key)).Pairwise fun a b =>
    key b < key a ∨ key b = key a ∧ [a, b].Sublist l := by
  have hsorted : (l.mergeSort (descLe key)).Nodup := (List.mergeSort_perm l _).nodup_iff.mpr hl
  rw [List.pairwise_iff_forall_sublist]
  intro a b hab
  have hle := List.pairwise_iff_forall_sublist.mp (descending_mergeSort key l) hab
  refine hle.lt_or_eq.imp_right fun heq => ⟨heq, ?_⟩
  have hne : a ≠ b := by
    rintro rfl
    simpa using hsorted.sublist hab
  have ha : a ∈ l := List.mem_mergeSort.mp (hab.subset (by simp))
  have hb : b ∈ l := List.mem_mergeSort.mp (hab.subset (by simp))
  refine (pair_sublist_or ha hb hne).resolve_right fun hswap => not_pair_swap hsorted hab ?_
  exact List.pair_sublist_mergeSort (descLe_trans key) (descLe_total key)
    (decide_eq_true heq.ge) hswap

/-! ### The largest elements -/

/-- `s` are `k` of the candidates, or all there are, such that none of the others has a larger
key. -/
structure TopSet (key : α → K) (candidates : Finset α) (k : Nat) (s : Finset α) : Prop where
  subset : s ⊆ candidates
  card : s.card = min k candidates.card
  top : ∀ a ∈ s, ∀ b ∈ candidates, b ∉ s → key b ≤ key a

theorem TopSet.image {β : Type} [DecidableEq β] {f : α → β} {key' : β → K} {C s : Finset α}
    {k : Nat} (h : TopSet key C k s) (hf : Set.InjOn f C) (hkey : ∀ a ∈ C, key' (f a) = key a) :
    TopSet key' (C.image f) k (s.image f) := by
  have hsub : (s : Set α) ⊆ C := h.subset
  refine ⟨Finset.image_subset_image h.subset, ?_, ?_⟩
  · rw [Finset.card_image_of_injOn (hf.mono hsub), Finset.card_image_of_injOn hf, h.card]
  · intro x hx y hy hout
    obtain ⟨a, ha, rfl⟩ := Finset.mem_image.mp hx
    obtain ⟨b, hb, rfl⟩ := Finset.mem_image.mp hy
    rw [hkey a (h.subset ha), hkey b hb]
    exact h.top a ha b hb fun hin => hout (Finset.mem_image_of_mem f hin)

/-- If what satisfies `p` stands before the rest, it is the beginning of the list. -/
theorem take_filter_of_pairwise {p : α → Bool} (h : l.Pairwise fun a b => p b → p a) :
    l.take (l.filter p).length = l.filter p := by
  induction l with
  | nil => rfl
  | cons x l ih =>
      obtain ⟨hx, hl⟩ := List.pairwise_cons.mp h
      by_cases hp : p x
      · rw [List.filter_cons_of_pos hp, List.length_cons, List.take_succ_cons, ih hl]
      · have hnone : (x :: l).filter p = [] := by
          rw [List.filter_cons_of_neg hp, List.filter_eq_nil_iff]
          intro b hb hpb
          exact hp (hx b hb hpb)
        rw [hnone]
        rfl

section Choice

variable [DecidableEq α] {k : Nat}

theorem Descending.topSet (h : Descending key l) (hl : l.Nodup) (k : Nat) :
    TopSet key l.toFinset k (l.take k).toFinset := by
  refine ⟨fun a ha => ?_, ?_, ?_⟩
  · rw [List.mem_toFinset] at ha ⊢
    exact List.mem_of_mem_take ha
  · have htake : (l.take k).Nodup := hl.sublist (List.take_sublist k l)
    rw [List.toFinset_card_of_nodup htake, List.toFinset_card_of_nodup hl, List.length_take]
  · intro a ha b hb hout
    rw [List.mem_toFinset] at ha hb hout
    rw [← List.take_append_drop k l, List.mem_append] at hb
    exact h.take_drop ha (hb.resolve_left hout)

/-- The first `k` elements that a sort leaves are `k` of the largest. -/
theorem UnstableSort.topSet (s : UnstableSort α) (key : α → K) (hl : l.Nodup) (k : Nat) :
    TopSet key l.toFinset k ((s.sort (descLe key) l).take k).toFinset := by
  have hperm := s.perm (descLe key) l
  rw [← List.toFinset_eq_of_perm _ _ hperm]
  exact (s.descending key l).topSet (hperm.nodup_iff.mpr hl) k

/-- The sort that puts a set first among what has the same key. -/
def UnstableSort.preferring (s : Finset α) : UnstableSort α :=
  after (fun l => l.filter (· ∈ s) ++ l.filter (· ∉ s)) fun l => by
    simpa using List.filter_append_perm (· ∈ s) l

/-- **Any choice of the largest elements** is what some sort puts first. -/
theorem TopSet.exists_sort {s : Finset α} (h : TopSet key l.toFinset k s) (hl : l.Nodup) :
    (((UnstableSort.preferring s).sort (descLe key) l).take k).toFinset = s := by
  let m := (UnstableSort.preferring s).sort (descLe key) l
  have hperm : m.Perm l := (UnstableSort.preferring s).perm _ l
  have hmem : ∀ a, a ∈ m ↔ a ∈ l.toFinset := fun a => hperm.mem_iff.trans List.mem_toFinset.symm
  have harranged : (l.filter (· ∈ s) ++ l.filter (· ∉ s)).Nodup :=
    (show (l.filter (· ∈ s) ++ l.filter (· ∉ s)).Perm l by
      simpa using List.filter_append_perm (· ∈ s) l).nodup_iff.mpr hl
  have hfirst : m.Pairwise fun a b => decide (b ∈ s) → decide (a ∈ s) := by
    have hties : m.Pairwise fun a b => key b < key a ∨
        key b = key a ∧ [a, b].Sublist (l.filter (· ∈ s) ++ l.filter (· ∉ s)) :=
      mergeSort_ties harranged
    refine hties.imp_of_mem fun {a b} ha hb htie => ?_
    simp only [decide_eq_true_eq]
    intro hbs
    by_contra has
    rcases htie with hlt | ⟨-, hsub⟩
    · exact (h.top b hbs a ((hmem a).mp ha) has).not_gt hlt
    · -- a member stands before any other in the arranged list
      have hswap : [b, a].Sublist (l.filter (· ∈ s) ++ l.filter (· ∉ s)) := by
        have hb' : [b].Sublist (l.filter (· ∈ s)) := by
          rw [List.singleton_sublist, List.mem_filter]
          exact ⟨hperm.mem_iff.mp hb, by simpa using hbs⟩
        have ha' : [a].Sublist (l.filter (· ∉ s)) := by
          rw [List.singleton_sublist, List.mem_filter]
          exact ⟨hperm.mem_iff.mp ha, by simpa using has⟩
        exact hb'.append ha'
      exact not_pair_swap harranged hsub hswap
  have hfilter : (m.filter (· ∈ s)).toFinset = s := by
    ext a
    rw [List.mem_toFinset, List.mem_filter, decide_eq_true_eq, hmem]
    exact ⟨fun h => h.2, fun has => ⟨h.subset has, has⟩⟩
  have hcount : (m.filter (· ∈ s)).length = min k m.length := by
    have hnodup : m.Nodup := hperm.nodup_iff.mpr hl
    rw [← List.toFinset_card_of_nodup (hnodup.filter _), hfilter, h.card,
      List.toFinset_card_of_nodup hl, hperm.length_eq]
  show (m.take k).toFinset = s
  rw [List.take_eq_take_min, ← hcount, take_filter_of_pairwise hfirst, hfilter]

end Choice

end Descending

section Sums

variable {F : Type} [AddMonoid F]

/-- The first position at which the running sum, from `acc` on, passes the test. -/
def firstSum (test : F → Bool) (acc : F) : List F → Option Nat
  | [] => none
  | x :: xs => if test (acc + x) then some 0 else (firstSum test (acc + x) xs).map (· + 1)

theorem firstSum_eq_none {test : F → Bool} {acc : F} {xs : List F} :
    firstSum test acc xs = none ↔ ∀ j < xs.length, ¬ test (acc + (xs.take (j + 1)).sum) := by
  induction xs generalizing acc with
  | nil => simp [firstSum]
  | cons x xs ih =>
      unfold firstSum
      by_cases hx : test (acc + x)
      · rw [if_pos hx]
        simp only [reduceCtorEq, false_iff]
        intro h
        exact h 0 (by simp) (by simpa using hx)
      · rw [if_neg hx, Option.map_eq_none_iff, ih]
        constructor
        · intro h j hj
          cases j with
          | zero => simpa using hx
          | succ j => simpa [add_assoc] using h j (by simpa using hj)
        · intro h j hj
          simpa [add_assoc] using h (j + 1) (by simpa using hj)

theorem firstSum_eq_some {test : F → Bool} {acc : F} {xs : List F} {i : Nat} :
    firstSum test acc xs = some i ↔ i < xs.length ∧ test (acc + (xs.take (i + 1)).sum) ∧
      ∀ j < i, ¬ test (acc + (xs.take (j + 1)).sum) := by
  induction xs generalizing acc i with
  | nil => simp [firstSum]
  | cons x xs ih =>
      unfold firstSum
      by_cases hx : test (acc + x)
      · rw [if_pos hx, Option.some_inj]
        constructor
        · intro h
          subst h
          exact ⟨by simp, by simpa using hx, by simp⟩
        · intro h
          by_contra hne
          exact h.2.2 0 (by omega) (by simpa using hx)
      · rw [if_neg hx, Option.map_eq_some_iff]
        constructor
        · intro h
          obtain ⟨k, hk, rfl⟩ := h
          obtain ⟨hlt, htest, hbefore⟩ := ih.mp hk
          refine ⟨by simpa using hlt, by simpa [add_assoc] using htest, fun j hj => ?_⟩
          cases j with
          | zero => simpa using hx
          | succ j => simpa [add_assoc] using hbefore j (by omega)
        · intro h
          obtain ⟨hlt, htest, hbefore⟩ := h
          cases i with
          | zero => exact absurd (by simpa using htest) hx
          | succ k =>
              refine ⟨k, ih.mpr ⟨by simpa using hlt, by simpa [add_assoc] using htest, ?_⟩, rfl⟩
              intro j hj
              simpa [add_assoc] using hbefore (j + 1) (by omega)

end Sums

section Masses

variable {F : Type} [AddCommGroup F] [LinearOrder F] [IsOrderedAddMonoid F]

theorem sum_take_le_sum_take {xs : List F} (hxs : ∀ x ∈ xs, 0 < x) {i j : Nat} (hij : i ≤ j) :
    (xs.take i).sum ≤ (xs.take j).sum := by
  refine List.Sublist.sum_le_sum ?_ ?_
  · exact (List.take_prefix_take_left hij).sublist
  · intro x hx
    exact (hxs x (List.mem_of_mem_take hx)).le

theorem sum_take_lt {xs : List F} (hxs : ∀ x ∈ xs, 0 < x) {i : Nat} (hi : i < xs.length) :
    (xs.take i).sum < (xs.take (i + 1)).sum := by
  rw [List.sum_take_succ xs i hi]
  exact lt_add_of_pos_right _ (hxs _ (List.getElem_mem hi))

/-- Every position is drawn: the one at which the running sum passes that of those before. -/
theorem firstSum_drawn {xs : List F} (hxs : ∀ x ∈ xs, 0 < x) {i : Nat} (hi : i < xs.length) :
    firstSum (fun acc => (xs.take i).sum < acc) 0 xs = some i := by
  rw [firstSum_eq_some]
  simp only [zero_add, decide_eq_true_eq]
  refine ⟨hi, sum_take_lt hxs hi, fun j hj => ?_⟩
  exact (sum_take_le_sum_take hxs (by omega)).not_gt

end Masses

/-- A positive and increasing function that computes, in the place of `exp` or a sigmoid. -/
def rising (x : ℚ) : ℚ := if x < 0 then 1 / (1 - x) else 1 + x

theorem rising_pos (x : ℚ) : 0 < rising x := by
  unfold rising
  split
  · exact div_pos one_pos (by linarith)
  · linarith

end LlmPager.Lib
