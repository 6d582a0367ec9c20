import LlmPager.Run.Mla

/-!
# LlmPager.Run.MlaSpec

The absorbed decode computes attention as it is defined, with keys and values for
each head and position (`absorbed_eq_plain`): the query goes through the transposed
key half of `kv_b` and the context through the value half, so that the sums over the
head's dimensions and over the latent ones change places.

Each kernel has one lemma that says what it leaves in a cell.
-/

namespace LlmPager.Mla

open Lib (strided blockReduce store mem_strided store_mem store_outside radix_inj)

variable {F B : Type}

/-! ### Loading -/

theorem kt_apply (narrow : F → B) (zero : B) {c : Dims} (kvb : Nat → F) {head col r : Nat}
    (hhead : head < c.heads) (hcol : col < c.kvLora) (hr : r < c.nope) :
    kt narrow zero c kvb (head * (c.kvLora * c.nope) + col * c.nope + r) =
      narrow (kvb (keyRow c head r * c.kvLora + col)) := by
  unfold kt ktWrites
  simp only [← Nat.mul_assoc]
  refine store_mem ?_ ?_
  · simp only [List.mem_flatMap, List.mem_map, List.mem_range]
    exact ⟨head, hhead, r, hr, col, hcol, rfl⟩
  · intro w hw haddr
    simp only [List.mem_flatMap, List.mem_map, List.mem_range] at hw
    obtain ⟨head', -, r', hr', col', hcol', rfl⟩ := hw
    simp only [← Nat.add_mul] at haddr
    obtain ⟨hrow, rfl⟩ := radix_inj hr' hr haddr
    obtain ⟨rfl, rfl⟩ := radix_inj hcol' hcol hrow
    rfl

theorem vw_apply (narrow : F → B) (zero : B) {c : Dims} (kvb : Nat → F) {head r col : Nat}
    (hhead : head < c.heads) (hr : r < c.vHead) (hcol : col < c.kvLora) :
    vw narrow zero c kvb (head * (c.vHead * c.kvLora) + r * c.kvLora + col) =
      narrow (kvb (valueRow c head r * c.kvLora + col)) := by
  unfold vw vwWrites
  simp only [← Nat.mul_assoc]
  refine store_mem ?_ ?_
  · simp only [List.mem_flatMap, List.mem_map, List.mem_range]
    refine ⟨head, hhead, r, hr, col, hcol, ?_⟩
    rw [valueRow, Nat.add_assoc (head * _)]
  · intro w hw haddr
    simp only [List.mem_flatMap, List.mem_map, List.mem_range] at hw
    obtain ⟨head', -, r', hr', col', hcol', rfl⟩ := hw
    simp only [← Nat.add_mul] at haddr
    obtain ⟨hrow, rfl⟩ := radix_inj hcol' hcol haddr
    obtain ⟨rfl, rfl⟩ := radix_inj hr' hr hrow
    rw [valueRow, Nat.add_assoc (head' * _)]

/-! ### Kernels -/

section Gemv

variable [Field F]

/-- A row of a batched GEMV. -/
theorem bf16GemvBatch_apply (widen : B → F) (w : Nat → B) (wStride : Nat) (x : Nat → F)
    (xStride : Nat) (y : Nat → F) {yStride rows cols batch b row : Nat} (hstride : rows ≤ yStride)
    (hb : b < batch) (hrow : row < rows) :
    bf16GemvBatch widen w wStride x xStride y yStride rows cols batch (b * yStride + row) =
      ∑ c ∈ Finset.range cols, widen (w (b * wStride + row * cols + c)) * x (b * xStride + c) := by
  unfold bf16GemvBatch
  simp only [Lib.warpReduce_zero, Lib.sum_strided (show 0 < 32 by decide)]
  refine store_mem ?_ ?_
  · simp only [List.mem_flatMap, List.mem_range]
    refine ⟨b, hb, row / 4, by omega, row % 4, by omega, ?_⟩
    rw [Nat.div_add_mod', if_neg (by omega)]
    exact List.mem_singleton_self _
  · intro w hw haddr
    simp only [List.mem_flatMap, List.mem_range] at hw
    obtain ⟨b', -, block, -, warp, -, hw⟩ := hw
    by_cases hout : rows ≤ block * 4 + warp
    · rw [if_pos hout] at hw
      cases hw
    · rw [if_neg hout] at hw
      rw [List.mem_singleton.mp hw] at haddr ⊢
      obtain ⟨rfl, hrow'⟩ := radix_inj (by omega) (by omega) haddr
      rw [hrow']

end Gemv

section Copy

theorem mem_stridedCopy {src : Nat → F} {srcStride srcOff dstStride dstOff nVecs n : Nat}
    {w : Nat × F} :
    (w ∈ (List.range (grid1d (nVecs * n) 256 * 256)).flatMap fun t =>
        (strided t (grid1d (nVecs * n) 256 * 256) (nVecs * n)).map fun idx =>
          (idx / n * dstStride + dstOff + idx % n, src (idx / n * srcStride + srcOff + idx % n))) ↔
      ∃ v < nVecs, ∃ i < n, w = (v * dstStride + dstOff + i, src (v * srcStride + srcOff + i)) := by
  have hthreads : 0 < grid1d (nVecs * n) 256 * 256 := by
    unfold grid1d
    omega
  simp only [List.mem_flatMap, List.mem_map, List.mem_range]
  constructor
  · intro h
    obtain ⟨t, -, idx, hidx, rfl⟩ := h
    have hlt := ((mem_strided hthreads).mp hidx).1
    have hn : 0 < n := Nat.pos_of_mul_pos_left (Nat.zero_lt_of_lt hlt)
    exact ⟨idx / n, Nat.div_lt_of_lt_mul (by rwa [Nat.mul_comm]), idx % n, Nat.mod_lt idx hn, rfl⟩
  · intro h
    obtain ⟨v, hv, i, hi, rfl⟩ := h
    have hlt : v * n + i < nVecs * n := by
      have := Nat.mul_le_mul_right n (Nat.succ_le_of_lt hv)
      rw [Nat.succ_mul] at this
      omega
    refine ⟨(v * n + i) % _, Nat.mod_lt _ hthreads, v * n + i, (mem_strided hthreads).mpr ?_, ?_⟩
    · exact ⟨hlt, Nat.mod_le _ _, (Nat.mod_mod _ _).symm⟩
    · rw [Nat.mul_add_mod_of_lt hi, Nat.mul_comm v n, Nat.mul_add_div (by omega),
        Nat.div_eq_of_lt hi, Nat.add_zero]

theorem stridedCopy_apply (src : Nat → F) (srcStride srcOff : Nat) (dst : Nat → F)
    {dstStride dstOff nVecs n v i : Nat} (hstride : dstOff + n ≤ dstStride) (hv : v < nVecs)
    (hi : i < n) :
    stridedCopy src srcStride srcOff dst dstStride dstOff nVecs n (v * dstStride + (dstOff + i)) =
      src (v * srcStride + (srcOff + i)) := by
  simp only [← Nat.add_assoc]
  refine store_mem (mem_stridedCopy.mpr ⟨v, hv, i, hi, rfl⟩) ?_
  intro w hw haddr
  obtain ⟨v', -, i', hi', rfl⟩ := mem_stridedCopy.mp hw
  simp only [Nat.add_assoc] at haddr
  obtain ⟨rfl, hcol⟩ := radix_inj (by omega) (by omega) haddr
  rw [Nat.add_left_cancel hcol]

/-- The cells of a row before the copied ones are left alone. -/
theorem stridedCopy_before (src : Nat → F) (srcStride srcOff : Nat) (dst : Nat → F)
    {dstStride dstOff nVecs n v l : Nat} (hstride : dstOff + n ≤ dstStride) (hl : l < dstOff) :
    stridedCopy src srcStride srcOff dst dstStride dstOff nVecs n (v * dstStride + l) =
      dst (v * dstStride + l) := by
  refine store_outside fun w hw haddr => ?_
  obtain ⟨v', -, i', hi', rfl⟩ := mem_stridedCopy.mp hw
  simp only [Nat.add_assoc] at haddr
  obtain ⟨-, hcol⟩ := radix_inj (by omega) (by omega) haddr
  omega

end Copy

section Attention

variable [Field F] [LinearOrder F]

/-- The softmax over a head's row of `scratch`, in its block of 256 threads. -/
theorem softmax_block (exp : F → F) (lmin : F) (n : Nat) (score row : Nat → F) :
    let sc := store row <|
      (List.range 256).flatMap fun t => (strided t 256 n).map fun p => (p, score p)
    let m := blockReduce max 8 (fun t =>
      (strided t 256 n).foldl (fun lmax p => max lmax (sc p)) lmin) 0
    let sc' := store sc <|
      (List.range 256).flatMap fun t => (strided t 256 n).map fun p => (p, exp (sc p - m))
    let invz := 1 / blockReduce (· + ·) 8 (fun t =>
      (strided t 256 n).foldl (fun lsum p => lsum + sc' p) 0) 0
    ∀ p < n, sc' p * invz = softmaxWeights exp lmin n score p := by
  intro sc m sc' invz p hp
  have hsc : ∀ p < n, sc p = score p := fun p hp => Lib.store_strided (by decide) score hp
  have hm : m = (List.range n).foldl (fun m p => max m (score p)) lmin := by
    have hmax := Lib.max_strided 8 n sc lmin
    rw [← Lib.blockReduce_zero] at hmax
    refine hmax.trans (List.foldl_ext _ _ lmin fun b p hp => ?_)
    rw [hsc p (List.mem_range.mp hp)]
  have hsc' : ∀ p < n, sc' p = exp (score p - m) := by
    intro p hp
    rw [← hsc p hp]
    exact Lib.store_strided (by decide) (fun p => exp (sc p - m)) hp
  have hsum : blockReduce (· + ·) 8 (fun t =>
      (strided t 256 n).foldl (fun lsum p => lsum + sc' p) 0) 0 =
        ∑ p ∈ Finset.range n, exp (score p - m) := by
    rw [Lib.blockReduce_zero, Lib.balanced_add]
    refine (Lib.sum_strided (show 0 < 256 by decide) n sc').trans ?_
    exact Finset.sum_congr rfl fun p hp => hsc' p (Finset.mem_range.mp hp)
  show sc' p * (1 / _) = _
  rw [hsum, hsc' p hp, hm]
  rfl

/-- What a head's block leaves in its row of `ctx`. -/
theorem mlaAttnDecode_apply (exp : F → F) (lmin : F) (q cache ctx : Nat → F)
    {heads qkDim cDim seqLen h d : Nat} (scale : F) (scratch : Nat → Nat → F) (hh : h < heads)
    (hd : d < cDim) :
    mlaAttnDecode exp lmin q cache ctx heads qkDim cDim seqLen scale scratch (h * cDim + d) =
      ∑ p ∈ Finset.range seqLen,
        softmaxWeights exp lmin seqLen
          (fun p => (∑ d ∈ Finset.range qkDim, q (h * qkDim + d) * cache (p * qkDim + d)) * scale) p *
          cache (p * qkDim + d) := by
  unfold mlaAttnDecode
  refine (store_mem (List.mem_flatMap.mpr ⟨h, List.mem_range.mpr hh, List.mem_flatMap.mpr
    ⟨d % 256, List.mem_range.mpr (Nat.mod_lt d (by decide)), List.mem_map.mpr ⟨d, ?_, rfl⟩⟩⟩)
      ?_).trans ?_
  · exact (mem_strided (by decide)).mpr ⟨hd, Nat.mod_le d 256, (Nat.mod_mod d 256).symm⟩
  · intro w hw haddr
    simp only [List.mem_flatMap, List.mem_map] at hw
    obtain ⟨h', -, t, -, d', hd', rfl⟩ := hw
    obtain ⟨rfl, rfl⟩ := radix_inj ((mem_strided (by decide)).mp hd').1 hd haddr
    rfl
  · rw [Lib.foldl_add, zero_add, Lib.sum_range_list, Finset.sum_mul]
    refine Finset.sum_congr rfl fun p hp => ?_
    rw [mul_right_comm, softmax_block exp lmin seqLen _ _ p (Finset.mem_range.mp hp)]
    simp only [Lib.foldl_add, zero_add, Lib.sum_range_list]

end Attention

/-! ### The whole path -/

section Absorbed

variable [Field F]

/-- The latent dimensions and the head's change places: scoring against the absorbed
query is scoring against the keys. -/
theorem absorbed_score {c : Dims} (scale : F) (kvb q cache qFull : Nat → F) {head : Nat}
    (hlatent : ∀ l < c.kvLora, qFull (head * (c.kvLora + c.rope) + l) =
      ∑ r ∈ Finset.range c.nope,
        kvb (keyRow c head r * c.kvLora + l) * q (head * (c.nope + c.rope) + r))
    (hrope : ∀ i < c.rope, qFull (head * (c.kvLora + c.rope) + (c.kvLora + i)) =
      q (head * (c.nope + c.rope) + (c.nope + i))) (p : Nat) :
    (∑ d ∈ Finset.range (c.kvLora + c.rope), qFull (head * (c.kvLora + c.rope) + d) *
        cache (p * (c.kvLora + c.rope) + d)) * scale = plainScore c scale kvb q cache head p := by
  have hswap : ∑ l ∈ Finset.range c.kvLora,
      qFull (head * (c.kvLora + c.rope) + l) * cache (p * (c.kvLora + c.rope) + l) =
        ∑ i ∈ Finset.range c.nope,
          q (head * (c.nope + c.rope) + i) * project c kvb cache (keyRow c head i) p := by
    calc _ = ∑ l ∈ Finset.range c.kvLora, ∑ r ∈ Finset.range c.nope,
          q (head * (c.nope + c.rope) + r) * (kvb (keyRow c head r * c.kvLora + l) *
            cache (p * (c.kvLora + c.rope) + l)) := by
          refine Finset.sum_congr rfl fun l hl => ?_
          rw [hlatent l (Finset.mem_range.mp hl), Finset.sum_mul]
          exact Finset.sum_congr rfl fun r _ => by ring
      _ = _ := by
          rw [Finset.sum_comm]
          exact Finset.sum_congr rfl fun r _ => (Finset.mul_sum _ _ _).symm
  rw [Finset.sum_range_add, hswap, plainScore]
  congr 2
  refine Finset.sum_congr rfl fun i hi => ?_
  rw [hrope i (Finset.mem_range.mp hi)]

variable [LinearOrder F]

/-- **Absorbed decode is attention.** In exact arithmetic, for all dimensions, weights,
queries and caches, each head's output is that of the definition. -/
theorem absorbed_eq_plain (bf : Bf16 F B) (zero : B) (exp : F → F) (lmin scale : F) (c : Dims)
    (kvb q cache : Nat → F) (bufs : Buffers F) (pos : Nat) :
    ∀ head < c.heads, ∀ j < c.vHead,
      absorbed bf zero exp lmin scale c kvb q cache bufs pos (head * c.vHead + j) =
        plain exp lmin scale c kvb q cache pos head j := by
  intro head hhead j hj
  have hlatent : ∀ l < c.kvLora, ∀ qFull, bf16GemvBatch bf.widen (kt bf.narrow zero c kvb)
      (c.kvLora * c.nope) q (c.nope + c.rope) qFull (c.kvLora + c.rope) c.kvLora c.nope c.heads
        (head * (c.kvLora + c.rope) + l) = ∑ r ∈ Finset.range c.nope,
          kvb (keyRow c head r * c.kvLora + l) * q (head * (c.nope + c.rope) + r) := by
    intro l hl qFull
    rw [bf16GemvBatch_apply _ _ _ _ _ _ (Nat.le_add_right _ _) hhead hl]
    refine Finset.sum_congr rfl fun r hr => ?_
    rw [kt_apply bf.narrow zero kvb hhead hl (Finset.mem_range.mp hr), bf.exact]
  have hscore := fun qFull => absorbed_score scale kvb q cache
    (stridedCopy q (c.nope + c.rope) c.nope (bf16GemvBatch bf.widen (kt bf.narrow zero c kvb)
      (c.kvLora * c.nope) q (c.nope + c.rope) qFull (c.kvLora + c.rope) c.kvLora c.nope c.heads)
        (c.kvLora + c.rope) c.kvLora c.heads c.rope)
    (fun l hl => (stridedCopy_before _ _ _ _ (Nat.le_refl _) hl).trans (hlatent l hl qFull))
    (fun i hi => stridedCopy_apply _ _ _ _ (Nat.le_refl _) hhead hi)
  show bf16GemvBatch bf.widen (vw bf.narrow zero c kvb) _ _ _ _ _ _ _ _ _ = _
  rw [bf16GemvBatch_apply _ _ _ _ _ _ (Nat.le_refl c.vHead) hhead hj]
  calc _ = ∑ l ∈ Finset.range c.kvLora, ∑ p ∈ Finset.range (pos + 1),
        softmaxWeights exp lmin (pos + 1) (plainScore c scale kvb q cache head) p *
          (kvb (valueRow c head j * c.kvLora + l) * cache (p * (c.kvLora + c.rope) + l)) := by
        refine Finset.sum_congr rfl fun l hl => ?_
        have hl' := Finset.mem_range.mp hl
        rw [vw_apply bf.narrow zero kvb hhead hj hl', bf.exact,
          mlaAttnDecode_apply exp lmin _ cache _ scale _ hhead hl', Finset.mul_sum]
        refine Finset.sum_congr rfl fun p _ => ?_
        rw [funext (hscore bufs.qFull)]
        ring
    _ = _ := by
        rw [Finset.sum_comm]
        exact Finset.sum_congr rfl fun p _ => (Finset.mul_sum _ _ _).symm

theorem absorbed_eq_plain_two_positions :
    absorbed (⟨id, id, fun _ => rfl⟩ : Bf16 ℚ ℚ) 0 (fun x => if x < 0 then 1 / (1 - x) else 1 + x)
        (-1000) 1 ⟨1, 1, 1, 1, 1⟩ (fun i => if i = 0 then 2 else 3) (fun i => (i : ℚ) + 1)
        (fun i => (i : ℚ)) ⟨0, 0, 0, 0⟩ 1 0 = 27 / 5 :=
  (absorbed_eq_plain ⟨id, id, fun _ => rfl⟩ 0 (fun x => if x < 0 then 1 / (1 - x) else 1 + x)
    (-1000) 1 ⟨1, 1, 1, 1, 1⟩ (fun i => if i = 0 then 2 else 3) (fun i => (i : ℚ) + 1)
    (fun i => (i : ℚ)) ⟨0, 0, 0, 0⟩ 1 0 (by decide) 0 (by decide)).trans (by
      norm_num [plain, softmaxWeights, plainScore, project, keyRow, valueRow, Finset.sum_range_succ,
        List.range_succ])

end Absorbed

end LlmPager.Mla
