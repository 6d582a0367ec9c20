import LlmPager.Run.Mla

/-!
# LlmPager.Run.Rope

The rotary position embeddings of the two engines: `rope_f32` of `decode.cu`, that
pairs the halves of a head, and `mla_rope_f32` of `mla.cu`, that pairs neighbours.

Both rotate in place. An iteration of the grid-stride loop reads and writes the two
cells of its pair, so a launch is its iterations in any order. Arithmetic is exact, and
`__cosf` and `__sinf` are a cosine and a sine with the laws of differences, such as
those of the real numbers (the approximations of the device have them only about);
`__powf` may be anything.

A query rotated to its position and a key rotated to its own have a dot product that
depends on the distance alone (`rope_shift`): moving both by as much changes no score.
-/

namespace LlmPager.Rope

open Lib (strided OwnCells mem_strided strided_perm radix_inj)
open Mla (grid1d)

/-- `cos` and `sin`, as far as rotations need them. -/
structure Angles (F : Type) [Field F] where
  cos : F → F
  sin : F → F
  cos_sub : ∀ a b, cos (a - b) = cos a * cos b + sin a * sin b
  sin_sub : ∀ a b, sin (a - b) = sin a * cos b - cos a * sin b

/-- Those of the real numbers. -/
noncomputable def Angles.real : Angles ℝ where
  cos := Real.cos
  sin := Real.sin
  cos_sub := Real.cos_sub
  sin_sub := Real.sin_sub

variable {F : Type} [Field F] (ang : Angles F)

/-! ### Kernels -/

/-- The iterations of a grid-stride loop over `n`, of a launch sized for `size`. -/
def iterations (size n : Nat) : List Nat :=
  let threads := grid1d size 256 * 256
  (List.range threads).flatMap fun t => strided t threads n

/-- A pair of cells, rotated by an angle and scaled. -/
def rotate (mscale angle : F) (a b : Nat) (x : Nat → F) : Nat → F :=
  let c := ang.cos angle * mscale
  let s := ang.sin angle * mscale
  let x1 := x a
  let x2 := x b
  Function.update (Function.update x a (x1 * c - x2 * s)) b (x1 * s + x2 * c)

/-- One iteration of `rope_f32`. -/
def ropePair (powf : F → F → F) (headDim pos : Nat) (base : F) (idx : Nat) : (Nat → F) → Nat → F :=
  let half := headDim / 2
  let h := idx / half
  let i := idx % half
  let freq := powf base (-((2 : ℕ) : F) * (i : F) / (headDim : F))
  rotate ang 1 ((pos : F) * freq) (h * headDim + i) (h * headDim + i + half)

/-- `rope_f32`, its iterations in the order that the threads come to them. -/
def ropeF32 (powf : F → F → F) (headDim pos : Nat) (base : F) (order : List Nat) (x : Nat → F) :
    Nat → F :=
  order.foldl (fun x idx => ropePair ang powf headDim pos base idx x) x

/-- The orders of `Kernels::rope`. -/
def RopeOrder (heads headDim : Nat) (order : List Nat) : Prop :=
  order.Perm (iterations (heads * headDim / 2) (heads * (headDim / 2)))

/-- One iteration of `mla_rope_f32`. -/
def mlaRopePair (stride offset half pos : Nat) (invFreq : Nat → F) (mscale : F) (idx : Nat) :
    (Nat → F) → Nat → F :=
  let v := idx / half
  let i := idx % half
  let p := v * stride + offset + 2 * i
  rotate ang mscale ((pos : F) * invFreq i) p (p + 1)

def mlaRopeF32 (stride offset half pos : Nat) (invFreq : Nat → F) (mscale : F) (order : List Nat)
    (x : Nat → F) : Nat → F :=
  order.foldl (fun x idx => mlaRopePair ang stride offset half pos invFreq mscale idx x) x

/-- The orders of `Kernels::mla_rope`. -/
def MlaRopeOrder (nVecs half : Nat) (order : List Nat) : Prop :=
  order.Perm (iterations (nVecs * half) (nVecs * half))

/-! ### Iterations -/

theorem iterations_perm (size n : Nat) : (iterations size n).Perm (List.range n) := by
  refine strided_perm ?_ n
  unfold grid1d
  omega

theorem mem_iterations {size n idx : Nat} : idx ∈ iterations size n ↔ idx < n := by
  rw [(iterations_perm size n).mem_iff, List.mem_range]

theorem nodup_iterations (size n : Nat) : (iterations size n).Nodup :=
  (iterations_perm size n).nodup_iff.mpr List.nodup_range

/-! ### Rotations -/

theorem rotate_fst (mscale angle : F) {a b : Nat} (hab : a ≠ b) (x : Nat → F) :
    rotate ang mscale angle a b x a =
      x a * (ang.cos angle * mscale) - x b * (ang.sin angle * mscale) := by
  simp [rotate, Function.update_of_ne hab]

theorem rotate_snd (mscale angle : F) (a b : Nat) (x : Nat → F) :
    rotate ang mscale angle a b x b =
      x a * (ang.sin angle * mscale) + x b * (ang.cos angle * mscale) := by
  simp [rotate]

theorem rotate_other (mscale angle : F) {a b c : Nat} (ha : c ≠ a) (hb : c ≠ b) (x : Nat → F) :
    rotate ang mscale angle a b x c = x c := by
  simp [rotate, Function.update_of_ne ha, Function.update_of_ne hb]

/-- Iterations that each rotate a pair of their own. -/
theorem rotate_ownCells (mscale : F) (angle : Nat → F) (fst snd : Nat → Nat) (l : List Nat)
    (hne : ∀ i, fst i ≠ snd i)
    (hapart : ∀ i ∈ l, ∀ j ∈ l, ∀ a, (a = fst i ∨ a = snd i) → (a = fst j ∨ a = snd j) → i = j) :
    OwnCells (fun i a => a = fst i ∨ a = snd i)
      (fun i => rotate ang mscale (angle i) (fst i) (snd i)) l where
  frame i buf a ha := by
    rw [not_or] at ha
    exact rotate_other ang _ _ ha.1 ha.2 buf
  reads i buf buf' h a ha := by
    have hfst := h (fst i) (.inl rfl)
    have hsnd := h (snd i) (.inr rfl)
    rcases ha with rfl | rfl
    · rw [rotate_fst ang _ _ (hne i), rotate_fst ang _ _ (hne i), hfst, hsnd]
    · rw [rotate_snd, rotate_snd, hfst, hsnd]
  apart := hapart

/-- **Rotations and distance**: two pairs, each rotated by its position, have the dot
product of one rotation by the difference. -/
theorem rotated_dot (mscale α β x1 x2 y1 y2 : F) :
    (x1 * (ang.cos α * mscale) - x2 * (ang.sin α * mscale)) *
        (y1 * (ang.cos β * mscale) - y2 * (ang.sin β * mscale)) +
      (x1 * (ang.sin α * mscale) + x2 * (ang.cos α * mscale)) *
        (y1 * (ang.sin β * mscale) + y2 * (ang.cos β * mscale)) =
      ((x1 * y1 + x2 * y2) * ang.cos (α - β) + (x1 * y2 - x2 * y1) * ang.sin (α - β)) *
        (mscale * mscale) := by
  rw [ang.cos_sub, ang.sin_sub]
  ring

/-! ### `rope_f32` -/

section Halves

variable {powf : F → F → F} {heads headDim : Nat} {base : F} {order : List Nat}

/-- The frequency of pair `i` of a head. -/
def ropeFreq (powf : F → F → F) (headDim : Nat) (base : F) (i : Nat) : F :=
  powf base (-((2 : ℕ) : F) * (i : F) / (headDim : F))

/-- Pairs of different indices are of different heads or of different columns. -/
theorem pair_inj {half i j : Nat} (hhalf : 2 * half ≤ headDim) (hpos : 0 < half)
    (ci cj : Nat) (hci : ci = i % half ∨ ci = i % half + half)
    (hcj : cj = j % half ∨ cj = j % half + half)
    (h : i / half * headDim + ci = j / half * headDim + cj) : i = j := by
  have hi := Nat.mod_lt i hpos
  have hj := Nat.mod_lt j hpos
  obtain ⟨hdiv, hcol⟩ := radix_inj (by omega) (by omega) h
  have hmod : i % half = j % half := by omega
  rw [← Nat.div_add_mod i half, ← Nat.div_add_mod j half, hdiv, hmod]

theorem rope_ownCells (powf : F → F → F) {headDim : Nat} (hpos : 0 < headDim / 2) (pos : Nat)
    (base : F) (l : List Nat) :
    OwnCells (fun idx a => a = idx / (headDim / 2) * headDim + idx % (headDim / 2) ∨
        a = idx / (headDim / 2) * headDim + idx % (headDim / 2) + headDim / 2)
      (fun idx => ropePair ang powf headDim pos base idx) l := by
  refine rotate_ownCells ang 1 (fun idx => (pos : F) * ropeFreq powf headDim base
    (idx % (headDim / 2))) _ _ l (fun i => by omega) ?_
  intro i _ j _ a hi hj
  have hhalf : 2 * (headDim / 2) ≤ headDim := Nat.mul_div_le headDim 2
  rcases hi with rfl | rfl
  · rcases hj with hj | hj
    · exact pair_inj hhalf hpos _ _ (.inl rfl) (.inl rfl) hj
    · exact pair_inj hhalf hpos _ _ (.inl rfl) (.inr rfl) (hj.trans (Nat.add_assoc _ _ _))
  · rcases hj with hj | hj
    · exact pair_inj hhalf hpos _ _ (.inr rfl) (.inl rfl) ((Nat.add_assoc _ _ _).symm.trans hj)
    · refine pair_inj hhalf hpos _ _ (.inr rfl) (.inr rfl) ?_
      rwa [← Nat.add_assoc, ← Nat.add_assoc]

/-- What a launch leaves in the two cells of a pair. -/
theorem ropeF32_pair (powf : F → F → F) (base : F) (horder : RopeOrder heads headDim order)
    (pos : Nat) (x : Nat → F) {h i : Nat} (hh : h < heads) (hi : i < headDim / 2) :
    ropeF32 ang powf headDim pos base order x (h * headDim + i) =
        x (h * headDim + i) * (ang.cos (pos * ropeFreq powf headDim base i) * 1) -
          x (h * headDim + i + headDim / 2) * (ang.sin (pos * ropeFreq powf headDim base i) * 1) ∧
      ropeF32 ang powf headDim pos base order x (h * headDim + i + headDim / 2) =
        x (h * headDim + i) * (ang.sin (pos * ropeFreq powf headDim base i) * 1) +
          x (h * headDim + i + headDim / 2) * (ang.cos (pos * ropeFreq powf headDim base i) * 1) := by
  have hpos : 0 < headDim / 2 := Nat.zero_lt_of_lt hi
  have hown := rope_ownCells ang powf hpos pos base order
  have hnd : order.Nodup := horder.nodup_iff.mpr (nodup_iterations _ _)
  have hdiv : (h * (headDim / 2) + i) / (headDim / 2) = h := by
    rw [Nat.mul_comm, Nat.mul_add_div hpos, Nat.div_eq_of_lt hi, Nat.add_zero]
  have hmod : (h * (headDim / 2) + i) % (headDim / 2) = i := Nat.mul_add_mod_of_lt hi
  have hmem : h * (headDim / 2) + i ∈ order := by
    rw [horder.mem_iff, mem_iterations]
    calc h * (headDim / 2) + i < h * (headDim / 2) + headDim / 2 := Nat.add_lt_add_left hi _
      _ = (h + 1) * (headDim / 2) := (Nat.succ_mul h _).symm
      _ ≤ heads * (headDim / 2) := Nat.mul_le_mul_right _ hh
  have hfst := hown.foldl_apply hnd hmem (a := h * headDim + i) (.inl (by rw [hdiv, hmod])) x
  have hsnd := hown.foldl_apply hnd hmem (a := h * headDim + i + headDim / 2)
    (.inr (by rw [hdiv, hmod])) x
  have hne : h * headDim + i ≠ h * headDim + i + headDim / 2 := by omega
  simp only [ropePair, hdiv, hmod] at hfst hsnd
  exact ⟨hfst.trans (rotate_fst ang _ _ hne x), hsnd.trans (rotate_snd ang _ _ _ _ x)⟩

/-- The last dimension of a head of odd size is left alone. -/
theorem ropeF32_odd (horder : RopeOrder heads headDim order) (pos : Nat) (x : Nat → F) (h : Nat)
    {d : Nat} (hd : 2 * (headDim / 2) ≤ d) (hlt : d < headDim) :
    ropeF32 ang powf headDim pos base order x (h * headDim + d) = x (h * headDim + d) := by
  by_cases hpos : 0 < headDim / 2
  · refine (rope_ownCells ang powf hpos pos base order).foldl_outside (fun idx _ hcell => ?_) x
    have hmod := Nat.mod_lt idx hpos
    rcases hcell with hcell | hcell
    · obtain ⟨-, hcol⟩ := radix_inj hlt (by omega) hcell
      omega
    · obtain ⟨-, hcol⟩ := radix_inj hlt (by omega) (hcell.trans (Nat.add_assoc _ _ _))
      omega
  · have hnil : order = [] := by
      rw [List.eq_nil_iff_forall_not_mem]
      intro idx hidx
      have hlt := mem_iterations.mp (horder.subset hidx)
      rw [Nat.eq_zero_of_not_pos hpos] at hlt
      omega
    rw [ropeF32, hnil]
    rfl

/-- A head's dimensions: its pairs, and what is left of an odd number. -/
theorem sum_halves (n : Nat) (f : Nat → F) :
    ∑ d ∈ Finset.range n, f d =
      (∑ i ∈ Finset.range (n / 2), (f i + f (i + n / 2))) +
        ∑ j ∈ Finset.range (n % 2), f (2 * (n / 2) + j) := by
  have hsplit : n = n / 2 + n / 2 + n % 2 := by omega
  conv_lhs => rw [hsplit]
  rw [Finset.sum_range_add, Finset.sum_range_add, ← Finset.sum_add_distrib, ← Nat.two_mul]
  simp only [Nat.add_comm]

/-- The score of a rotated query and a rotated key, pair by pair. -/
theorem ropeF32_dot {kvHeads : Nat} {order' : List Nat} (horder : RopeOrder heads headDim order)
    (horder' : RopeOrder kvHeads headDim order') (m n : Nat) (q k : Nat → F) {h g : Nat}
    (hh : h < heads) (hg : g < kvHeads) :
    ∑ d ∈ Finset.range headDim, ropeF32 ang powf headDim m base order q (h * headDim + d) *
        ropeF32 ang powf headDim n base order' k (g * headDim + d) =
      (∑ i ∈ Finset.range (headDim / 2),
        ((q (h * headDim + i) * k (g * headDim + i) +
            q (h * headDim + i + headDim / 2) * k (g * headDim + i + headDim / 2)) *
            ang.cos ((m - n) * ropeFreq powf headDim base i) +
          (q (h * headDim + i) * k (g * headDim + i + headDim / 2) -
            q (h * headDim + i + headDim / 2) * k (g * headDim + i)) *
            ang.sin ((m - n) * ropeFreq powf headDim base i)) * (1 * 1)) +
      ∑ j ∈ Finset.range (headDim % 2), q (h * headDim + (2 * (headDim / 2) + j)) *
        k (g * headDim + (2 * (headDim / 2) + j)) := by
  rw [sum_halves]
  congr 1
  · refine Finset.sum_congr rfl fun i hi => ?_
    have hi := Finset.mem_range.mp hi
    obtain ⟨hq, hq'⟩ := ropeF32_pair ang powf base horder m q hh hi
    obtain ⟨hk, hk'⟩ := ropeF32_pair ang powf base horder' n k hg hi
    rw [← Nat.add_assoc, ← Nat.add_assoc, hq, hq', hk, hk', rotated_dot, ← sub_mul]
  · refine Finset.sum_congr rfl fun j hj => ?_
    have hj := Finset.mem_range.mp hj
    have hlt : 2 * (headDim / 2) + j < headDim := by omega
    rw [ropeF32_odd ang horder m q h (Nat.le_add_right _ _) hlt,
      ropeF32_odd ang horder' n k g (Nat.le_add_right _ _) hlt]

end Halves

/-! ### `mla_rope_f32` -/

section Neighbours

variable {nVecs stride offset half : Nat} {invFreq : Nat → F} {mscale : F} {order : List Nat}

theorem mlaRope_ownCells (hstride : offset + 2 * half ≤ stride) (pos : Nat) (invFreq : Nat → F)
    (mscale : F) {n : Nat} {l : List Nat} (hl : ∀ idx ∈ l, idx < n * half) :
    OwnCells (fun idx a => a = idx / half * stride + offset + 2 * (idx % half) ∨
        a = idx / half * stride + offset + 2 * (idx % half) + 1)
      (fun idx => mlaRopePair ang stride offset half pos invFreq mscale idx) l := by
  refine rotate_ownCells ang mscale (fun idx => (pos : F) * invFreq (idx % half)) _ _ l
    (fun i => by omega) ?_
  intro i hi j hj a hci hcj
  have hhalf : 0 < half := Nat.pos_of_mul_pos_left (Nat.zero_lt_of_lt (hl i hi))
  have hmi := Nat.mod_lt i hhalf
  have hmj := Nat.mod_lt j hhalf
  have hsame : ∀ bi bj, bi ≤ 1 → bj ≤ 1 →
      i / half * stride + offset + 2 * (i % half) + bi =
        j / half * stride + offset + 2 * (j % half) + bj → i = j := by
    intro bi bj hbi hbj h
    simp only [Nat.add_assoc] at h
    obtain ⟨hdiv, hcol⟩ := radix_inj (by omega) (by omega) h
    have hmod : i % half = j % half := by omega
    rw [← Nat.div_add_mod i half, ← Nat.div_add_mod j half, hdiv, hmod]
  rcases hci with rfl | rfl
  · rcases hcj with hcj | hcj
    · exact hsame 0 0 (by omega) (by omega) hcj
    · exact hsame 0 1 (by omega) (by omega) hcj
  · rcases hcj with hcj | hcj
    · exact hsame 1 0 (by omega) (by omega) hcj
    · exact hsame 1 1 (by omega) (by omega) hcj

theorem mlaRopeF32_pair (invFreq : Nat → F) (mscale : F) (hstride : offset + 2 * half ≤ stride)
    (horder : MlaRopeOrder nVecs half order) (pos : Nat) (x : Nat → F) {v i : Nat}
    (hv : v < nVecs) (hi : i < half) :
    mlaRopeF32 ang stride offset half pos invFreq mscale order x (v * stride + offset + 2 * i) =
        x (v * stride + offset + 2 * i) * (ang.cos (pos * invFreq i) * mscale) -
          x (v * stride + offset + 2 * i + 1) * (ang.sin (pos * invFreq i) * mscale) ∧
      mlaRopeF32 ang stride offset half pos invFreq mscale order x (v * stride + offset + 2 * i + 1) =
        x (v * stride + offset + 2 * i) * (ang.sin (pos * invFreq i) * mscale) +
          x (v * stride + offset + 2 * i + 1) * (ang.cos (pos * invFreq i) * mscale) := by
  have hpos : 0 < half := Nat.zero_lt_of_lt hi
  have hown := mlaRope_ownCells ang hstride pos invFreq mscale (n := nVecs) (l := order)
    fun idx hidx => mem_iterations.mp (horder.subset hidx)
  have hnd : order.Nodup := horder.nodup_iff.mpr (nodup_iterations _ _)
  have hdiv : (v * half + i) / half = v := by
    rw [Nat.mul_comm, Nat.mul_add_div hpos, Nat.div_eq_of_lt hi, Nat.add_zero]
  have hmod : (v * half + i) % half = i := Nat.mul_add_mod_of_lt hi
  have hmem : v * half + i ∈ order := by
    rw [horder.mem_iff, mem_iterations]
    calc v * half + i < v * half + half := Nat.add_lt_add_left hi _
      _ = (v + 1) * half := (Nat.succ_mul v _).symm
      _ ≤ nVecs * half := Nat.mul_le_mul_right _ hv
  have hfst := hown.foldl_apply hnd hmem (a := v * stride + offset + 2 * i)
    (.inl (by rw [hdiv, hmod])) x
  have hsnd := hown.foldl_apply hnd hmem (a := v * stride + offset + 2 * i + 1)
    (.inr (by rw [hdiv, hmod])) x
  simp only [mlaRopePair, hdiv, hmod] at hfst hsnd
  exact ⟨hfst.trans (rotate_fst ang _ _ (by omega) x), hsnd.trans (rotate_snd ang _ _ _ _ x)⟩

theorem sum_neighbours (n : Nat) (f : Nat → F) :
    ∑ r ∈ Finset.range (2 * n), f r = ∑ i ∈ Finset.range n, (f (2 * i) + f (2 * i + 1)) := by
  induction n with
  | zero => rfl
  | succ n ih => rw [Nat.mul_succ, Finset.sum_range_succ, Finset.sum_range_succ, ih,
      Finset.sum_range_succ, add_assoc]

theorem mlaRopeF32_dot {nVecs' stride' offset' : Nat} {order' : List Nat}
    (hstride : offset + 2 * half ≤ stride) (hstride' : offset' + 2 * half ≤ stride')
    (horder : MlaRopeOrder nVecs half order) (horder' : MlaRopeOrder nVecs' half order') (m n : Nat)
    (q k : Nat → F) {v w : Nat} (hv : v < nVecs) (hw : w < nVecs') :
    ∑ r ∈ Finset.range (2 * half),
        mlaRopeF32 ang stride offset half m invFreq mscale order q (v * stride + offset + r) *
          mlaRopeF32 ang stride' offset' half n invFreq mscale order' k
            (w * stride' + offset' + r) =
      ∑ i ∈ Finset.range half,
        ((q (v * stride + offset + 2 * i) * k (w * stride' + offset' + 2 * i) +
            q (v * stride + offset + 2 * i + 1) * k (w * stride' + offset' + 2 * i + 1)) *
            ang.cos ((m - n) * invFreq i) +
          (q (v * stride + offset + 2 * i) * k (w * stride' + offset' + 2 * i + 1) -
            q (v * stride + offset + 2 * i + 1) * k (w * stride' + offset' + 2 * i)) *
            ang.sin ((m - n) * invFreq i)) * (mscale * mscale) := by
  rw [sum_neighbours]
  refine Finset.sum_congr rfl fun i hi => ?_
  have hi := Finset.mem_range.mp hi
  obtain ⟨hq, hq'⟩ := mlaRopeF32_pair ang invFreq mscale hstride horder m q hv hi
  obtain ⟨hk, hk'⟩ := mlaRopeF32_pair ang invFreq mscale hstride' horder' n k hw hi
  rw [← Nat.add_assoc, ← Nat.add_assoc, hq, hq', hk, hk', rotated_dot, ← sub_mul]

end Neighbours

/-! ### Distances -/

/-- **Scores depend on the distance alone**, in both engines: a query's position and a
key's may be moved by as much, and the launches may go through their iterations in any
order, without a change to any head's dot product. -/
theorem rope_shift (t : Nat) :
    (∀ (powf : F → F → F) (base : F) (heads kvHeads headDim : Nat) (oq oq' ok ok' : List Nat),
      RopeOrder heads headDim oq → RopeOrder heads headDim oq' →
      RopeOrder kvHeads headDim ok → RopeOrder kvHeads headDim ok' →
      ∀ (q k : Nat → F) (m n h g : Nat), h < heads → g < kvHeads →
        ∑ d ∈ Finset.range headDim,
            ropeF32 ang powf headDim (m + t) base oq' q (h * headDim + d) *
              ropeF32 ang powf headDim (n + t) base ok' k (g * headDim + d) =
          ∑ d ∈ Finset.range headDim, ropeF32 ang powf headDim m base oq q (h * headDim + d) *
            ropeF32 ang powf headDim n base ok k (g * headDim + d)) ∧
    ∀ (invFreq : Nat → F) (mscale : F) (nVecs stride offset nVecs' stride' offset' half : Nat)
      (oq oq' ok ok' : List Nat), offset + 2 * half ≤ stride → offset' + 2 * half ≤ stride' →
      MlaRopeOrder nVecs half oq → MlaRopeOrder nVecs half oq' →
      MlaRopeOrder nVecs' half ok → MlaRopeOrder nVecs' half ok' →
      ∀ (q k : Nat → F) (m n v w : Nat), v < nVecs → w < nVecs' →
        ∑ r ∈ Finset.range (2 * half),
            mlaRopeF32 ang stride offset half (m + t) invFreq mscale oq' q
                (v * stride + offset + r) *
              mlaRopeF32 ang stride' offset' half (n + t) invFreq mscale ok' k
                (w * stride' + offset' + r) =
          ∑ r ∈ Finset.range (2 * half),
            mlaRopeF32 ang stride offset half m invFreq mscale oq q (v * stride + offset + r) *
              mlaRopeF32 ang stride' offset' half n invFreq mscale ok k
                (w * stride' + offset' + r) := by
  have hdist : ∀ m n : Nat, ((m + t : Nat) : F) - ((n + t : Nat) : F) = m - n := by
    intro m n
    push_cast
    ring
  constructor
  · intro powf base heads kvHeads headDim oq oq' ok ok' hq hq' hk hk' q k m n h g hh hg
    rw [ropeF32_dot ang hq' hk' _ _ q k hh hg, ropeF32_dot ang hq hk m n q k hh hg, hdist]
  · intro invFreq mscale nVecs stride offset nVecs' stride' offset' half oq oq' ok ok' hs hs'
      hq hq' hk hk' q k m n v w hv hw
    rw [mlaRopeF32_dot ang hs hs' hq' hk' _ _ q k hv hw, mlaRopeF32_dot ang hs hs' hq hk m n q k hv hw,
      hdist]

/-- Over the real numbers: two heads of four against one, and slices of two in strides of three;
moved by two positions, the threads the other way round. -/
theorem rope_shift_real :
    (∑ d ∈ Finset.range 4,
        ropeF32 Angles.real (fun x y : ℝ => x ^ y) 4 5 10000 (iterations 4 4).reverse
            (fun i => i + 1) (1 * 4 + d) *
          ropeF32 Angles.real (fun x y : ℝ => x ^ y) 4 3 10000 (iterations 2 2).reverse
            (fun i => 2 * i) (0 * 4 + d) =
      ∑ d ∈ Finset.range 4,
        ropeF32 Angles.real (fun x y : ℝ => x ^ y) 4 3 10000 (iterations 4 4)
            (fun i => i + 1) (1 * 4 + d) *
          ropeF32 Angles.real (fun x y : ℝ => x ^ y) 4 1 10000 (iterations 2 2)
            (fun i => 2 * i) (0 * 4 + d)) ∧
    ∑ r ∈ Finset.range (2 * 1),
        mlaRopeF32 Angles.real 3 1 1 5 (fun _ => 1) 1 (iterations (2 * 1) (2 * 1)).reverse
            (fun i => i + 1) (1 * 3 + 1 + r) *
          mlaRopeF32 Angles.real 3 1 1 3 (fun _ => 1) 1 (iterations (1 * 1) (1 * 1)).reverse
            (fun i => 2 * i) (0 * 3 + 1 + r) =
      ∑ r ∈ Finset.range (2 * 1),
        mlaRopeF32 Angles.real 3 1 1 3 (fun _ => 1) 1 (iterations (2 * 1) (2 * 1))
            (fun i => i + 1) (1 * 3 + 1 + r) *
          mlaRopeF32 Angles.real 3 1 1 1 (fun _ => 1) 1 (iterations (1 * 1) (1 * 1))
            (fun i => 2 * i) (0 * 3 + 1 + r) :=
  ⟨(rope_shift Angles.real 2).1 _ _ 2 1 4 _ _ _ _ (.refl _) (List.reverse_perm _) (.refl _)
      (List.reverse_perm _) _ _ 3 1 1 0 (by decide) (by decide),
    (rope_shift Angles.real 2).2 _ _ 2 3 1 1 3 1 1 _ _ _ _ (by decide) (by decide) (.refl _)
      (List.reverse_perm _) (.refl _) (List.reverse_perm _) _ _ 3 1 1 0 (by decide) (by decide)⟩

end LlmPager.Rope
