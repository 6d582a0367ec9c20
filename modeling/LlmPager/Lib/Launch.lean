import LlmPager.Lib.Machine

/-!
# LlmPager.Lib.Launch

How the threads of a kernel launch divide a loop between them (`strided`), put
their results together (`balanced`: a tree over shared memory, or over the lanes
of a warp), and write (`store`); and what a trap in one thread makes of the launch.

A loop over `i = t, t + n, …` in each of `n` threads visits every index once
(`strided_perm`), so the sum of what the threads sum is the whole sum; with an `int` for a
counter (`gridTurns`) this needs room for one step more (`mem_gridTurns`). A reduction
that halves its range each time leaves in the first cell the operation over all
cells, for any commutative and associative one (`reduce_levels`).
-/

namespace LlmPager.Lib

/-! ### Loops -/

/-- `for (i = start; i < n; i += step)`. -/
def strided (start step n : Nat) : List Nat :=
  List.range' start ((n - start + (step - 1)) / step) step

theorem mem_strided {start step n i : Nat} (hstep : 0 < step) :
    i ∈ strided start step n ↔ i < n ∧ start ≤ i ∧ i % step = start % step := by
  unfold strided
  rw [List.mem_range']
  constructor
  · intro h
    obtain ⟨k, hk, rfl⟩ := h
    have hle := Nat.mul_le_mul_left step (Nat.succ_le_of_lt hk)
    have hdiv := Nat.mul_div_le (n - start + (step - 1)) step
    rw [Nat.mul_succ] at hle
    refine ⟨by omega, by omega, ?_⟩
    rw [Nat.add_mul_mod_self_left]
  · intro h
    obtain ⟨hlt, hle, hmod⟩ := h
    obtain ⟨k, hk⟩ := (Nat.modEq_iff_dvd' hle).mp hmod.symm
    refine ⟨k, ?_, by omega⟩
    rw [Nat.lt_div_iff_mul_lt hstep, Nat.mul_comm]
    omega

theorem nodup_strided {start step n : Nat} (hstep : 0 < step) : (strided start step n).Nodup :=
  List.nodup_range' step hstep

/-- **The threads' loops together visit every index once.** -/
theorem strided_perm {t : Nat} (ht : 0 < t) (n : Nat) :
    ((List.range t).flatMap fun k => strided k t n).Perm (List.range n) := by
  rw [List.perm_ext_iff_of_nodup]
  · intro i
    simp only [List.mem_flatMap, List.mem_range, mem_strided ht]
    constructor
    · intro h
      obtain ⟨k, -, hlt, -⟩ := h
      exact hlt
    · intro hlt
      exact ⟨i % t, Nat.mod_lt i ht, hlt, Nat.mod_le i t, (Nat.mod_mod i t).symm⟩
  · rw [List.nodup_flatMap]
    refine ⟨fun k _ => nodup_strided ht, ?_⟩
    refine List.Pairwise.imp_of_mem ?_ List.nodup_range
    intro a b ha hb hne i hia hib
    rw [List.mem_range] at ha hb
    have hmod := ((mem_strided ht).mp hia).2.2.symm.trans ((mem_strided ht).mp hib).2.2
    rw [Nat.mod_eq_of_lt ha, Nat.mod_eq_of_lt hb] at hmod
    exact hne hmod
  · exact List.nodup_range

theorem strided_of_lt {start step n : Nat} (hstep : 0 < step) (h : start < n) :
    strided start step n = start :: strided (start + step) step n := by
  unfold strided
  have hturns : (n - start + (step - 1)) / step = (n - (start + step) + (step - 1)) / step + 1 := by
    rcases Nat.lt_or_ge (start + step) n with hlt | hge
    · rw [show n - start + (step - 1) = n - (start + step) + (step - 1) + step by omega,
        Nat.add_div_right _ hstep]
    · rw [show n - (start + step) + (step - 1) = step - 1 by omega,
        Nat.div_eq_of_lt (Nat.sub_lt hstep Nat.one_pos), Nat.div_eq_iff hstep]
      omega
  rw [hturns, List.range'_succ]

theorem strided_of_le {start step n : Nat} (hstep : 0 < step) (h : n ≤ start) :
    strided start step n = [] := by
  unfold strided
  rw [Nat.sub_eq_zero_of_le h, Nat.zero_add, Nat.div_eq_of_lt (Nat.sub_lt hstep Nat.one_pos)]
  rfl

/-- `for (int i = start; i < n; i += step)`, one turn for each unit of fuel; a counter beyond
`2 ^ 31 - 1` wraps. After `2 ^ 32` turns it has been everywhere. -/
def intLoop (step : Nat) (n : Int) : Nat → Int → List Int
  | 0, _ => []
  | fuel + 1, i => if i < n then i :: intLoop step n fuel (wrapI32 (i + step)) else []

/-- The turns of all threads of a launch. -/
def gridTurns (threads : Nat) (n : Int) : List Int :=
  (List.range threads).flatMap fun (t : Nat) => intLoop threads n (2 ^ 32) t

/-- A counter with room for one step more does not wrap. -/
theorem intLoop_eq {step n fuel start : Nat} (hstep : 0 < step) (hn : n + step ≤ 2 ^ 31)
    (hfuel : n ≤ start + fuel) :
    intLoop step n fuel start = (strided start step n).map Int.ofNat := by
  induction fuel generalizing start with
  | zero =>
      rw [strided_of_le hstep (by omega)]
      rfl
  | succ fuel ih =>
      unfold intLoop
      rcases Nat.lt_or_ge start n with hlt | hge
      · rw [if_pos (by omega), strided_of_lt hstep hlt, ← Int.natCast_add,
          wrapI32_of_lt (by omega), ih (by omega)]
        rfl
      · rw [if_neg (by omega), strided_of_le hstep hge]
        rfl

theorem gridTurns_eq {threads n : Nat} (ht : 0 < threads) (hn : n + threads ≤ 2 ^ 31) :
    gridTurns threads n =
      ((List.range threads).flatMap fun t => strided t threads n).map Int.ofNat := by
  unfold gridTurns
  rw [List.map_flatMap]
  refine List.flatMap_congr fun t _ => intLoop_eq ht hn ?_
  omega

/-- **With that room the threads together take every index**, and no other. -/
theorem mem_gridTurns {threads n : Nat} {i : Int} (ht : 0 < threads) (hn : n + threads ≤ 2 ^ 31) :
    i ∈ gridTurns threads n ↔ ∃ k < n, i = (k : Int) := by
  rw [gridTurns_eq ht hn, List.mem_map]
  constructor
  · rintro ⟨k, hk, rfl⟩
    exact ⟨k, List.mem_range.mp ((strided_perm ht n).mem_iff.mp hk), rfl⟩
  · rintro ⟨k, hk, rfl⟩
    exact ⟨k, (strided_perm ht n).mem_iff.mpr (List.mem_range.mpr hk), rfl⟩

/-- With a thread for every index, each takes its own. -/
theorem gridTurns_of_le {threads n : Nat} (ht : 0 < threads) (h : n ≤ threads)
    (hn : n + threads ≤ 2 ^ 31) : gridTurns threads n = (List.range n).map Int.ofNat := by
  obtain ⟨k, rfl⟩ := Nat.exists_eq_add_of_le h
  have hown : ∀ t ∈ List.range n, strided t (n + k) n = [t] := by
    intro t hmem
    rw [strided_of_lt ht (List.mem_range.mp hmem), strided_of_le ht (by omega)]
  have hidle : (List.range k).flatMap (fun t => strided (n + t) (n + k) n) = [] :=
    List.flatMap_eq_nil_iff.mpr fun t _ => strided_of_le ht (by omega)
  rw [gridTurns_eq ht hn, List.range_add, List.flatMap_append, List.flatMap_map, hidle,
    List.append_nil, List.flatMap_congr hown, List.flatMap_singleton']

theorem foldl_add [AddCommMonoid α] {β : Type} (f : β → α) (l : List β) (a : α) :
    l.foldl (fun acc i => acc + f i) a = a + (l.map f).sum := by
  induction l generalizing a with
  | nil => simp
  | cons b l ih => simp [ih, add_assoc]

theorem sum_range_list [AddCommMonoid α] (f : Nat → α) (n : Nat) :
    ((List.range n).map f).sum = ∑ i ∈ Finset.range n, f i := rfl

theorem sum_flatMap [AddCommMonoid α] {β γ : Type} (f : γ → α) (g : β → List γ) (l : List β) :
    ((l.flatMap g).map f).sum = (l.map fun b => ((g b).map f).sum).sum := by
  induction l with
  | nil => rfl
  | cons b l ih => simp [ih]

/-- What the threads accumulate, all together. -/
theorem sum_strided [AddCommMonoid α] {t : Nat} (ht : 0 < t) (n : Nat) (f : Nat → α) :
    ∑ k ∈ Finset.range t, (strided k t n).foldl (fun acc i => acc + f i) 0 =
      ∑ i ∈ Finset.range n, f i := by
  simp only [foldl_add, zero_add]
  rw [← sum_range_list, ← sum_flatMap f fun k => strided k t n, ← sum_range_list]
  exact ((strided_perm ht n).map f).sum_eq

/-! ### Reductions -/

/-- The results of `2 ^ k` threads, put together in a balanced tree. -/
def balanced (op : α → α → α) (f : Nat → α) : Nat → α
  | 0 => f 0
  | k + 1 => op (balanced op f k) (balanced op (fun t => f (t + 2 ^ k)) k)

theorem balanced_congr {op : α → α → α} {f g : Nat → α} {k : Nat} (h : ∀ t < 2 ^ k, f t = g t) :
    balanced op f k = balanced op g k := by
  induction k generalizing f g with
  | zero => exact h 0 (by simp)
  | succ k ih =>
      have hpow : 2 ^ (k + 1) = 2 ^ k + 2 ^ k := by ring
      unfold balanced
      rw [ih fun t ht => h t (by omega), ih fun t ht => h (t + 2 ^ k) (by omega)]

theorem balanced_op {op : α → α → α} [Std.Commutative op] [Std.Associative op] (f g : Nat → α)
    (k : Nat) : balanced op (fun t => op (f t) (g t)) k = op (balanced op f k) (balanced op g k) := by
  induction k generalizing f g with
  | zero => rfl
  | succ k ih =>
      unfold balanced
      rw [ih, ih]
      ac_rfl

theorem balanced_add [AddCommMonoid α] (f : Nat → α) (k : Nat) :
    balanced (· + ·) f k = ∑ t ∈ Finset.range (2 ^ k), f t := by
  induction k generalizing f with
  | zero => simp [balanced]
  | succ k ih =>
      have hpow : 2 ^ (k + 1) = 2 ^ k + 2 ^ k := by ring
      unfold balanced
      rw [ih, ih, hpow, Finset.sum_range_add]
      simp only [Nat.add_comm]

theorem balanced_max_le [LinearOrder α] (f : Nat → α) (k : Nat) (x : α) :
    balanced max f k ≤ x ↔ ∀ t < 2 ^ k, f t ≤ x := by
  induction k generalizing f with
  | zero => simp [balanced]
  | succ k ih =>
      have hpow : 2 ^ (k + 1) = 2 ^ k + 2 ^ k := by ring
      unfold balanced
      rw [max_le_iff, ih, ih]
      constructor
      · intro h t ht
        by_cases hlt : t < 2 ^ k
        · exact h.1 t hlt
        · have hback : t - 2 ^ k + 2 ^ k = t := by omega
          rw [← hback]
          exact h.2 (t - 2 ^ k) (by omega)
      · intro h
        exact ⟨fun t ht => h t (by omega), fun t ht => h (t + 2 ^ k) (by omega)⟩

/-- **A loop that halves its range**: if the step at stride `2 ^ j` puts each cell below
the stride together with the one a stride further, the first cell ends up with all. -/
theorem reduce_levels {op : α → α → α} [Std.Commutative op] [Std.Associative op]
    {step : Nat → (Nat → α) → Nat → α} {k : Nat}
    (hstep : ∀ j < k, ∀ cells t, t < 2 ^ j → step j cells t = op (cells t) (cells (t + 2 ^ j)))
    (cells : Nat → α) :
    (List.range k).reverse.foldl (fun cells j => step j cells) cells 0 = balanced op cells k := by
  induction k generalizing cells with
  | zero => rfl
  | succ k ih =>
      rw [List.range_succ, List.reverse_append, List.reverse_singleton, List.singleton_append,
        List.foldl_cons, ih fun j hj => hstep j (by omega),
        balanced_congr (hstep k (by omega) cells), balanced_op]
      rfl

/-- A reduction in shared memory, of a block of `2 ^ levels` threads:
`for (s = blockDim.x >> 1; s > 0; s >>= 1)`, a barrier after each step. -/
def blockReduce (op : α → α → α) (levels : Nat) (red : Nat → α) : Nat → α :=
  (List.range levels).reverse.foldl
    (fun red j t => if t < 2 ^ j then op (red t) (red (t + 2 ^ j)) else red t) red

theorem blockReduce_zero {op : α → α → α} [Std.Commutative op] [Std.Associative op] (levels : Nat)
    (red : Nat → α) : blockReduce op levels red 0 = balanced op red levels :=
  reduce_levels (fun _ _ _ _ ht => if_pos ht) red

/-- `__shfl_down_sync`: beyond the last lane a lane gets its own value. -/
def shflDown (acc : Nat → α) (o lane : Nat) : α :=
  if lane + o < 32 then acc (lane + o) else acc lane

/-- `for (o = 16; o > 0; o >>= 1) acc += __shfl_down_sync(mask, acc, o)`. -/
def warpReduce [Add α] (acc : Nat → α) : Nat → α :=
  (List.range 5).reverse.foldl (fun acc j lane => acc lane + shflDown acc (2 ^ j) lane) acc

theorem warpReduce_zero [AddCommMonoid α] (acc : Nat → α) :
    warpReduce acc 0 = ∑ lane ∈ Finset.range 32, acc lane := by
  have hstep : ∀ j < 5, ∀ (acc : Nat → α) (lane : Nat), lane < 2 ^ j →
      acc lane + shflDown acc (2 ^ j) lane = acc lane + acc (lane + 2 ^ j) := by
    intro j hj acc lane hlane
    have hpow : 2 ^ j ≤ 2 ^ 4 := Nat.pow_le_pow_right (by decide) (by omega)
    rw [shflDown, if_pos (by omega)]
  exact (reduce_levels hstep acc).trans (balanced_add acc 5)

theorem foldl_max_le [LinearOrder α] (f : Nat → α) (l : List Nat) (b x : α) :
    l.foldl (fun m i => max m (f i)) b ≤ x ↔ b ≤ x ∧ ∀ i ∈ l, f i ≤ x := by
  induction l generalizing b with
  | nil => simp
  | cons i l ih => simp [ih, and_assoc]

/-- The maximum over the threads' maxima, each from the same start. -/
theorem max_strided [LinearOrder α] (levels n : Nat) (f : Nat → α) (b : α) :
    balanced max (fun t => (strided t (2 ^ levels) n).foldl (fun m i => max m (f i)) b) levels =
      (List.range n).foldl (fun m i => max m (f i)) b := by
  have hpos : 0 < 2 ^ levels := by positivity
  refine eq_of_forall_ge_iff fun x => ?_
  simp only [balanced_max_le, foldl_max_le, List.mem_range]
  constructor
  · intro h
    refine ⟨(h 0 hpos).1, fun i hi => ?_⟩
    refine (h (i % 2 ^ levels) (Nat.mod_lt i hpos)).2 i ((mem_strided hpos).mpr ?_)
    exact ⟨hi, Nat.mod_le i _, (Nat.mod_mod i _).symm⟩
  · intro h t ht
    exact ⟨h.1, fun i hi => h.2 i ((mem_strided hpos).mp hi).1⟩

/-! ### Writes -/

/-- Writes to single cells, in this order. -/
def store (buf : Nat → α) (ws : List (Nat × α)) : Nat → α :=
  ws.foldl (fun buf w => Function.update buf w.1 w.2) buf

theorem store_outside {buf : Nat → α} {ws : List (Nat × α)} {a : Nat} (h : ∀ w ∈ ws, w.1 ≠ a) :
    store buf ws a = buf a := by
  induction ws generalizing buf with
  | nil => rfl
  | cons w ws ih =>
      show store _ ws a = buf a
      rw [ih fun v hv => h v (List.mem_cons_of_mem w hv)]
      exact Function.update_of_ne (h w List.mem_cons_self).symm w.2 buf

/-- What was written is there, as long as no other value was written to the same cell. -/
theorem store_mem {buf : Nat → α} {ws : List (Nat × α)} {a : Nat} {v : α} (h : (a, v) ∈ ws)
    (hother : ∀ w ∈ ws, w.1 = a → w.2 = v) : store buf ws a = v := by
  induction ws generalizing buf with
  | nil => cases h
  | cons w ws ih =>
      show store _ ws a = v
      by_cases hmem : (a, v) ∈ ws
      · exact ih hmem fun w' hw' => hother w' (List.mem_cons_of_mem w hw')
      · have hout : ∀ w' ∈ ws, w'.1 ≠ a := by
          intro w' hw' ha
          have hv := hother w' (List.mem_cons_of_mem w hw') ha
          rw [← ha, ← hv] at hmem
          exact hmem hw'
        obtain rfl : (a, v) = w := (List.mem_cons.mp h).resolve_right hmem
        rw [store_outside hout]
        exact Function.update_self a v buf

/-- What a loop shared by threads writes, to a cell for each index. -/
theorem store_strided {buf : Nat → α} {t n i : Nat} (ht : 0 < t) (f : Nat → α) (hi : i < n) :
    store buf ((List.range t).flatMap fun k => (strided k t n).map fun i => (i, f i)) i = f i := by
  refine store_mem ?_ ?_
  · simp only [List.mem_flatMap, List.mem_range, List.mem_map]
    refine ⟨i % t, Nat.mod_lt i ht, i, (mem_strided ht).mpr ?_, rfl⟩
    exact ⟨hi, Nat.mod_le i t, (Nat.mod_mod i t).symm⟩
  · intro w hw haddr
    simp only [List.mem_flatMap, List.mem_map] at hw
    obtain ⟨k, -, j, -, rfl⟩ := hw
    exact congrArg f haddr

/-- Two addresses of rows of `n` cells are equal only in the same row and column. -/
theorem radix_inj {n a b i j : Nat} (hi : i < n) (hj : j < n) (h : a * n + i = b * n + j) :
    a = b ∧ i = j := by
  have hmod : i = j := by
    have hcols := congrArg (· % n) h
    simpa only [Nat.mul_add_mod_of_lt hi, Nat.mul_add_mod_of_lt hj] using hcols
  rw [hmod] at h
  have hpos : 0 < n := by omega
  exact ⟨Nat.eq_of_mul_eq_mul_right hpos (Nat.add_right_cancel h), hmod⟩

/-- The writes of the threads that have something to write. -/
theorem flatten_guarded {β : Type} (p : β → Prop) [DecidablePred p] (f : β → α) (l : List β) :
    (l.map fun b => if p b then [] else [f b]).flatten = (l.filter fun b => ¬ p b).map f := by
  induction l with
  | nil => rfl
  | cons b l ih => by_cases hb : p b <;> simp [hb, ih]

/-! ### Launches in place -/

section InPlace

variable {ι α : Type} {cells : ι → Nat → Prop} {body : ι → (Nat → α) → Nat → α}

/-- Iterations that read and write one buffer, each in cells of its own. -/
structure OwnCells (cells : ι → Nat → Prop) (body : ι → (Nat → α) → Nat → α) (l : List ι) :
    Prop where
  frame : ∀ i buf a, ¬ cells i a → body i buf a = buf a
  reads : ∀ i buf buf', (∀ a, cells i a → buf a = buf' a) →
    ∀ a, cells i a → body i buf a = body i buf' a
  apart : ∀ i ∈ l, ∀ j ∈ l, ∀ a, cells i a → cells j a → i = j

theorem OwnCells.perm {l l' : List ι} (h : OwnCells cells body l) (hp : l'.Perm l) :
    OwnCells cells body l' :=
  ⟨h.frame, h.reads, fun i hi j hj => h.apart i (hp.subset hi) j (hp.subset hj)⟩

theorem OwnCells.foldl_outside {l : List ι} (h : OwnCells cells body l) {a : Nat}
    (ha : ∀ i ∈ l, ¬ cells i a) (buf : Nat → α) : l.foldl (fun buf i => body i buf) buf a = buf a := by
  induction l generalizing buf with
  | nil => rfl
  | cons i l ih =>
      have hl : OwnCells cells body l := ⟨h.frame, h.reads, fun i hi j hj =>
        h.apart i (List.mem_cons_of_mem _ hi) j (List.mem_cons_of_mem _ hj)⟩
      rw [List.foldl_cons, ih hl fun j hj => ha j (List.mem_cons_of_mem _ hj)]
      exact h.frame i buf a (ha i List.mem_cons_self)

/-- **Whatever the order**, an iteration leaves in its cells what it makes of the
buffer as it was before the launch. -/
theorem OwnCells.foldl_apply {l : List ι} (h : OwnCells cells body l) (hnd : l.Nodup) {i : ι}
    (hi : i ∈ l) {a : Nat} (ha : cells i a) (buf : Nat → α) :
    l.foldl (fun buf i => body i buf) buf a = body i buf a := by
  induction l generalizing buf with
  | nil => cases hi
  | cons j l ih =>
      have hl : OwnCells cells body l := ⟨h.frame, h.reads, fun i hi j hj =>
        h.apart i (List.mem_cons_of_mem _ hi) j (List.mem_cons_of_mem _ hj)⟩
      obtain ⟨hj, hnd⟩ := List.nodup_cons.mp hnd
      rw [List.foldl_cons]
      rcases List.mem_cons.mp hi with rfl | hmem
      · refine hl.foldl_outside (fun k hk hka => hj ?_) _
        rwa [h.apart i List.mem_cons_self k (List.mem_cons_of_mem _ hk) a ha hka]
      · rw [ih hl hnd hmem]
        refine h.reads i _ _ (fun b hb => h.frame j buf b fun hjb => hj ?_) a ha
        rwa [h.apart j List.mem_cons_self i (List.mem_cons_of_mem _ hmem) b hjb hb]

end InPlace

/-! ### Traps -/

section Traps

variable {α β : Type}

/-- Threads of which none traps. -/
theorem mapM_some {l : List β} {f : β → Option α} {g : β → α} (h : ∀ b ∈ l, f b = some (g b)) :
    l.mapM f = some (l.map g) := by
  induction l with
  | nil => rfl
  | cons b l ih =>
      rw [List.mapM_cons, h b (by simp), ih fun c hc => h c (by simp [hc])]
      rfl

/-- A trap of one is the launch's. -/
theorem mapM_none {l : List β} {f : β → Option α} {b : β} (hb : b ∈ l) (h : f b = none) :
    l.mapM f = none := by
  induction l with
  | nil => cases hb
  | cons c l ih =>
      rw [List.mapM_cons]
      rcases List.mem_cons.mp hb with rfl | hb
      · rw [h]
        rfl
      · rw [ih hb]
        cases f c <;> rfl

/-- A loop that accumulates. -/
theorem foldlM_some [AddCommMonoid α] {l : List β} {f : α → β → Option α} {g : β → α}
    (h : ∀ b ∈ l, ∀ acc, f acc b = some (acc + g b)) (acc : α) :
    l.foldlM f acc = some (acc + (l.map g).sum) := by
  induction l generalizing acc with
  | nil => simp
  | cons b l ih =>
      rw [List.foldlM_cons, h b (by simp)]
      show l.foldlM f (acc + g b) = _
      rw [ih (fun c hc => h c (by simp [hc])), List.map_cons, List.sum_cons, add_assoc]

theorem foldlM_none {l : List β} {f : α → β → Option α} {b : β} (hb : b ∈ l)
    (h : ∀ acc, f acc b = none) (acc : α) : l.foldlM f acc = none := by
  induction l generalizing acc with
  | nil => cases hb
  | cons c l ih =>
      rw [List.foldlM_cons]
      rcases List.mem_cons.mp hb with rfl | hb
      · rw [h]
        rfl
      · cases hc : f acc c with
        | none => rfl
        | some acc' => exact ih hb acc'

end Traps

end LlmPager.Lib
