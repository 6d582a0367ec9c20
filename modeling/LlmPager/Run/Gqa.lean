import LlmPager.Run.Forward
import LlmPager.Run.MlaSpec
import LlmPager.Run.Rope

/-!
# LlmPager.Run.Gqa

The attention of the Qwen engine: the kernels `kv_append_*` and `attn_decode_*` of
`decode.cu` on the flat caches of one layer, as `step` and `step_multi` launch them.

A cache is its cells, `[batch_cap, kv_heads, max_seq, head_dim]`; its elements are
floats or halves, so what a kernel reads back may not be what was written (`narrow`,
`widen`). Over it stand the rows of `Run.Forward`: by sequence slot and position, the
key and the value of all heads. Appending to the cells is appending to the rows
(`Represents.append`), and the attention over the cells is grouped-query attention, as
it is defined, over the rows up to the position (`attnDecode_rows`): so is every
output of any run of entries (`run_outputs`).

Arithmetic is exact, that of `int` included, and `__expf` is an exponential
(`Exponential`), such as that of the real numbers.
-/

namespace LlmPager.Gqa

open Lib (strided blockReduce store mem_strided store_mem store_outside radix_inj)
open Rope (iterations mem_iterations)

/-- The dimensions of the attention. The kernels take `heads / kv_heads` heads for each
head of the cache. -/
structure Dims where
  heads : Nat
  kvHeads : Nat
  headDim : Nat
  maxSeq : Nat
  batchCap : Nat
  kv_pos : 0 < kvHeads
  kv_dvd : kvHeads ∣ heads

/-- `exp`, as far as a softmax needs it. -/
structure Exponential (F : Type) [Field F] where
  exp : F → F
  sub : ∀ a b, exp (a - b) = exp a / exp b
  ne_zero : ∀ a, exp a ≠ 0

/-- That of the real numbers. -/
noncomputable def Exponential.real : Exponential ℝ where
  exp := Real.exp
  sub := Real.exp_sub
  ne_zero := Real.exp_ne_zero

variable {F E : Type}

/-! ### Kernels -/

/-- `kv_append_f32` and `kv_append_f16` on one of the two caches, from the slot's offset,
the iterations in the order of the launch. -/
def kvAppend (narrow : F → E) (c : Dims) (off pos : Nat) (order : List Nat) (x : Nat → F)
    (cache : Nat → E) : Nat → E :=
  store cache <| order.map fun i =>
    let h := i / c.headDim
    let d := i % c.headDim
    (off + ((h * c.maxSeq + pos) * c.headDim + d), narrow (x i))

/-- The orders of `Kernels::kv_append`. -/
def AppendOrder (c : Dims) (order : List Nat) : Prop :=
  order.Perm (iterations (c.kvHeads * c.headDim) (c.kvHeads * c.headDim))

/-- `attn_decode_f32` and `attn_decode_f16kv`: a block of 256 threads for each head. -/
def attnDecode [Field F] [LinearOrder F] (widen : E → F) (exp : F → F) (lmin scale : F) (c : Dims)
    (off seqLen : Nat) (q : Nat → F) (kcache vcache : Nat → E) (out : Nat → F)
    (scratch : Nat → Nat → F) : Nat → F :=
  store out <|
    (List.range c.heads).flatMap fun h =>
      let kv := h / (c.heads / c.kvHeads)
      let base := off + kv * c.maxSeq * c.headDim
      let dot := fun p => (List.range c.headDim).foldl
        (fun dot d => dot + q (h * c.headDim + d) * widen (kcache (base + p * c.headDim + d))) 0
      let sc := store (scratch h) <|
        (List.range 256).flatMap fun t => (strided t 256 seqLen).map fun p => (p, dot p * scale)
      let m := blockReduce max 8 (fun t =>
        (strided t 256 seqLen).foldl (fun lmax p => max lmax (sc p)) lmin) 0
      let sc := store sc <|
        (List.range 256).flatMap fun t => (strided t 256 seqLen).map fun p => (p, exp (sc p - m))
      let invz := 1 / blockReduce (· + ·) 8 (fun t =>
        (strided t 256 seqLen).foldl (fun lsum p => lsum + sc p) 0) 0
      (List.range 256).flatMap fun t =>
        (strided t 256 c.headDim).map fun d =>
          let acc := (List.range seqLen).foldl
            (fun acc p => acc + sc p * widen (vcache (base + p * c.headDim + d))) 0
          (h * c.headDim + d, acc * invz)

/-! ### A layer at work -/

/-- `seq_off`, in elements. -/
def seqOff (c : Dims) (seq : Nat) : Nat := seq * c.kvHeads * c.maxSeq * c.headDim

/-- The caches of a layer. -/
structure Cells (E : Type) where
  kcache : Nat → E
  vcache : Nat → E

/-- An entry of `step_multi` at its attention, with what the launches find and the order
that their threads take. `step` is the one entry of slot 0. -/
structure Entry (F : Type) (c : Dims) where
  seq : Fin c.batchCap
  pos : Fin c.maxSeq
  q : Nat → F
  k : Nat → F
  v : Nat → F
  out : Nat → F
  scratch : Nat → Nat → F
  order : List Nat
  perm : AppendOrder c order

variable {c : Dims}

/-- The append of an entry. -/
def append (narrow : F → E) (e : Entry F c) (s : Cells E) : Cells E where
  kcache := kvAppend narrow c (seqOff c e.seq) e.pos e.order e.k s.kcache
  vcache := kvAppend narrow c (seqOff c e.seq) e.pos e.order e.v s.vcache

/-- The attention of an entry, on the caches behind its append. -/
def attend [Field F] [LinearOrder F] (widen : E → F) (exp : F → F) (lmin scale : F) (e : Entry F c)
    (s : Cells E) : Nat → F :=
  attnDecode widen exp lmin scale c (seqOff c e.seq) (e.pos + 1) e.q s.kcache s.vcache e.out e.scratch

/-- The entries in order, each appended before it attends. -/
def run [Field F] [LinearOrder F] (narrow : F → E) (widen : E → F) (exp : F → F) (lmin scale : F)
    (s : Cells E) : List (Entry F c) → List (Nat → F)
  | [] => []
  | e :: rest =>
      let s := append narrow e s
      attend widen exp lmin scale e s :: run narrow widen exp lmin scale s rest

/-! ### The definition of attention -/

/-- Rows by sequence slot and position: keys and values of all heads. -/
abbrev Rows (E : Type) := Nat → Nat → (Nat → E) × (Nat → E)

/-- The score of head `h` of a query with the key of a row. -/
def score [Field F] (widen : E → F) (scale : F) (c : Dims) (q : Nat → F) (h : Nat)
    (row : (Nat → E) × (Nat → E)) : F :=
  (∑ d ∈ Finset.range c.headDim, q (h * c.headDim + d) *
    widen (row.1 (h / (c.heads / c.kvHeads) * c.headDim + d))) * scale

/-- Output `d` of head `h`: the mean of the rows' values, each weighted by the exponential of its
score. -/
def attention [Field F] (widen : E → F) (exp : F → F) (scale : F) (c : Dims) (q : Nat → F)
    (rows : List ((Nat → E) × (Nat → E))) (h d : Nat) : F :=
  (rows.map fun row => exp (score widen scale c q h row) *
      widen (row.2 (h / (c.heads / c.kvHeads) * c.headDim + d))).sum /
    (rows.map fun row => exp (score widen scale c q h row)).sum

/-- The entries in order, on the rows. -/
def outputs [Field F] (narrow : F → E) (widen : E → F) (exp : F → F) (scale : F) (rows : Rows E) :
    List (Entry F c) → List (Nat → Nat → F)
  | [] => []
  | e :: rest =>
      let slot := Forward.kvAppend (rows e.seq) e.pos (narrow ∘ e.k, narrow ∘ e.v)
      attention widen exp scale c e.q (Forward.attended slot e.pos) ::
        outputs narrow widen exp scale (Function.update rows e.seq slot) rest

/-! ### Cells and rows -/

/-- The cell of an element of a row: in its slot, its head's run, its position. -/
def cell (c : Dims) (seq pos i : Nat) : Nat :=
  seqOff c seq + ((i / c.headDim * c.maxSeq + pos) * c.headDim + i % c.headDim)

/-- The caches hold the rows. -/
def Represents (c : Dims) (s : Cells E) (rows : Rows E) : Prop :=
  ∀ seq < c.batchCap, ∀ pos < c.maxSeq, ∀ i < c.kvHeads * c.headDim,
    s.kcache (cell c seq pos i) = (rows seq pos).1 i ∧
    s.vcache (cell c seq pos i) = (rows seq pos).2 i

/-- No two elements share a cell. -/
theorem cell_inj {seq seq' pos pos' i i' : Nat} (hpos : pos < c.maxSeq) (hpos' : pos' < c.maxSeq)
    (hi : i < c.kvHeads * c.headDim) (hi' : i' < c.kvHeads * c.headDim)
    (h : cell c seq pos i = cell c seq' pos' i') : seq = seq' ∧ pos = pos' ∧ i = i' := by
  have hdim : 0 < c.headDim := Nat.pos_of_mul_pos_left (Nat.zero_lt_of_lt hi)
  -- a cell's number in mixed radix: slot, head, position, dimension
  have hcell : ∀ seq pos i, cell c seq pos i =
      ((seq * c.kvHeads + i / c.headDim) * c.maxSeq + pos) * c.headDim + i % c.headDim := by
    intro seq pos i
    unfold cell seqOff
    ring
  rw [hcell, hcell] at h
  obtain ⟨hrow, hcol⟩ := radix_inj (Nat.mod_lt _ hdim) (Nat.mod_lt _ hdim) h
  obtain ⟨hhead, rfl⟩ := radix_inj hpos hpos' hrow
  obtain ⟨rfl, hdiv⟩ := radix_inj (Nat.div_lt_of_lt_mul (by rwa [Nat.mul_comm]))
    (Nat.div_lt_of_lt_mul (by rwa [Nat.mul_comm])) hhead
  refine ⟨rfl, rfl, ?_⟩
  rw [← Nat.div_add_mod i c.headDim, ← Nat.div_add_mod i' c.headDim, hdiv, hcol]

/-- What an append leaves in a cell. -/
theorem kvAppend_cell (narrow : F → E) {order : List Nat} (horder : AppendOrder c order)
    (x : Nat → F) (cache : Nat → E) {seq seq' pos pos' i : Nat} (hpos : pos < c.maxSeq)
    (hpos' : pos' < c.maxSeq) (hi : i < c.kvHeads * c.headDim) :
    kvAppend narrow c (seqOff c seq) pos order x cache (cell c seq' pos' i) =
      if seq' = seq ∧ pos' = pos then narrow (x i) else cache (cell c seq' pos' i) := by
  have hmem : ∀ j, j ∈ order ↔ j < c.kvHeads * c.headDim := fun j => by
    rw [horder.mem_iff, mem_iterations]
  split
  · rename_i h
    obtain ⟨rfl, rfl⟩ := h
    refine store_mem (List.mem_map.mpr ⟨i, (hmem i).mpr hi, rfl⟩) ?_
    intro w hw haddr
    obtain ⟨j, hj, rfl⟩ := List.mem_map.mp hw
    obtain ⟨-, -, rfl⟩ := cell_inj hpos hpos' ((hmem j).mp hj) hi haddr
    rfl
  · rename_i h
    refine store_outside fun w hw haddr => h ?_
    obtain ⟨j, hj, rfl⟩ := List.mem_map.mp hw
    obtain ⟨rfl, rfl, -⟩ := cell_inj hpos hpos' ((hmem j).mp hj) hi haddr
    exact ⟨rfl, rfl⟩

/-- **An append to the cells is an append to the rows.** -/
theorem Represents.append {s : Cells E} {rows : Rows E} (h : Represents c s rows) (narrow : F → E)
    (e : Entry F c) :
    Represents c (append narrow e s) (Function.update rows e.seq
      (Forward.kvAppend (rows e.seq) e.pos (narrow ∘ e.k, narrow ∘ e.v))) := by
  intro seq hseq pos hpos i hi
  obtain ⟨hk, hv⟩ := h seq hseq pos hpos i hi
  simp only [Gqa.append, kvAppend_cell narrow e.perm _ _ e.pos.isLt hpos hi, hk, hv]
  by_cases hs : seq = e.seq
  · subst hs
    by_cases hp : pos = e.pos
    · subst hp
      simp [Forward.kvAppend]
    · simp [Forward.kvAppend, hp]
  · simp [hs]

/-! ### The attention -/

section Attention

variable [Field F]

/-- The head of the cache that a head reads. -/
theorem kv_lt {h : Nat} (hh : h < c.heads) : h / (c.heads / c.kvHeads) < c.kvHeads := by
  refine Nat.div_lt_of_lt_mul ?_
  rwa [Nat.div_mul_cancel c.kv_dvd]

/-- Its run in the cache. -/
theorem run_cell {kv d : Nat} (hd : d < c.headDim) (seq p : Nat) :
    seqOff c seq + kv * c.maxSeq * c.headDim + p * c.headDim + d =
      cell c seq p (kv * c.headDim + d) := by
  have hdiv : (kv * c.headDim + d) / c.headDim = kv := by
    rw [Nat.mul_comm, Nat.mul_add_div (Nat.zero_lt_of_lt hd), Nat.div_eq_of_lt hd, Nat.add_zero]
  rw [cell, hdiv, Nat.mul_add_mod_of_lt hd]
  ring

variable [LinearOrder F]

/-- The shift by the maximum falls out of a softmax. -/
theorem softmaxWeights_eq (e : Exponential F) (lmin : F) (n : Nat) (score : Nat → F) (p : Nat) :
    Mla.softmaxWeights e.exp lmin n score p =
      e.exp (score p) / ∑ p ∈ Finset.range n, e.exp (score p) := by
  unfold Mla.softmaxWeights
  simp only [e.sub, ← Finset.sum_div]
  rw [one_div_div, div_mul_div_cancel₀ (e.ne_zero _)]

/-- What a head's block leaves in its row of `out`. -/
theorem attnDecode_apply (widen : E → F) (exp : F → F) (lmin scale : F) {off seqLen h d : Nat}
    (q : Nat → F) (kcache vcache : Nat → E) (out : Nat → F) (scratch : Nat → Nat → F)
    (hh : h < c.heads) (hd : d < c.headDim) :
    let base := off + h / (c.heads / c.kvHeads) * c.maxSeq * c.headDim
    attnDecode widen exp lmin scale c off seqLen q kcache vcache out scratch (h * c.headDim + d) =
      ∑ p ∈ Finset.range seqLen, Mla.softmaxWeights exp lmin seqLen
        (fun p => (∑ d ∈ Finset.range c.headDim, q (h * c.headDim + d) *
          widen (kcache (base + p * c.headDim + d))) * scale) p *
        widen (vcache (base + p * c.headDim + d)) := by
  intro base
  unfold attnDecode
  refine (store_mem (List.mem_flatMap.mpr ⟨h, List.mem_range.mpr hh, List.mem_flatMap.mpr
    ⟨d % 256, List.mem_range.mpr (Nat.mod_lt d (by decide)), List.mem_map.mpr ⟨d, ?_, rfl⟩⟩⟩)
      ?_).trans ?_
  · exact (mem_strided (by decide)).mpr ⟨hd, Nat.mod_le d 256, (Nat.mod_mod d 256).symm⟩
  · intro w hw haddr
    simp only [List.mem_flatMap, List.mem_map] at hw
    obtain ⟨h', -, t, -, d', hd', rfl⟩ := hw
    obtain ⟨rfl, rfl⟩ := radix_inj ((mem_strided (by decide)).mp hd').1 hd haddr
    rfl
  · rw [Lib.foldl_add, zero_add, Lib.sum_range_list, Finset.sum_mul]
    refine Finset.sum_congr rfl fun p hp => ?_
    rw [mul_right_comm, Mla.softmax_block exp lmin seqLen _ _ p (Finset.mem_range.mp hp)]
    simp only [Lib.foldl_add, zero_add, Lib.sum_range_list]
    rfl

/-- **The attention over the cells is that of the rows.** -/
theorem attend_rows (widen : E → F) (e : Exponential F) (lmin scale : F) {s : Cells E}
    {rows : Rows E} (h : Represents c s rows) (x : Entry F c) {head d : Nat} (hh : head < c.heads)
    (hd : d < c.headDim) :
    attend widen e.exp lmin scale x s (head * c.headDim + d) =
      attention widen e.exp scale c x.q (Forward.attended (rows x.seq) x.pos) head d := by
  let kv := head / (c.heads / c.kvHeads)
  have hkv : kv < c.kvHeads := kv_lt hh
  -- the cells that the block reads, at the positions up to the entry's
  have hcells : ∀ p < x.pos.val + 1, ∀ i < c.headDim,
      s.kcache (seqOff c x.seq + kv * c.maxSeq * c.headDim + p * c.headDim + i) =
          (rows x.seq p).1 (kv * c.headDim + i) ∧
        s.vcache (seqOff c x.seq + kv * c.maxSeq * c.headDim + p * c.headDim + i) =
          (rows x.seq p).2 (kv * c.headDim + i) := by
    intro p hp i hi
    rw [run_cell hi]
    have hlt : kv * c.headDim + i < c.kvHeads * c.headDim :=
      calc kv * c.headDim + i < kv * c.headDim + c.headDim := Nat.add_lt_add_left hi _
        _ = (kv + 1) * c.headDim := (Nat.succ_mul kv _).symm
        _ ≤ c.kvHeads * c.headDim := Nat.mul_le_mul_right _ hkv
    exact h x.seq x.seq.isLt p (by omega) _ hlt
  have hscore : ∀ p < x.pos.val + 1, (∑ i ∈ Finset.range c.headDim, x.q (head * c.headDim + i) *
      widen (s.kcache (seqOff c x.seq + kv * c.maxSeq * c.headDim + p * c.headDim + i))) * scale =
        score widen scale c x.q head (rows x.seq p) := by
    intro p hp
    rw [score]
    congr 1
    refine Finset.sum_congr rfl fun i hi => ?_
    rw [(hcells p hp i (Finset.mem_range.mp hi)).1]
  rw [attend, attnDecode_apply widen e.exp lmin scale _ _ _ _ _ hh hd]
  simp only [softmaxWeights_eq, div_mul_eq_mul_div, ← Finset.sum_div]
  rw [attention, Forward.attended, List.map_map, List.map_map, Lib.sum_range_list,
    Lib.sum_range_list]
  congr 1
  · refine Finset.sum_congr rfl fun p hp => ?_
    have hp := Finset.mem_range.mp hp
    rw [hscore p hp, (hcells p hp d hd).2]
    rfl
  · refine Finset.sum_congr rfl fun p hp => ?_
    rw [hscore p (Finset.mem_range.mp hp)]
    rfl

/-- A run on the cells gives what it gives on the rows. -/
theorem Represents.run (narrow : F → E) (widen : E → F) (e : Exponential F) (lmin scale : F)
    {s : Cells E} {rows : Rows E} (h : Represents c s rows) (xs : List (Entry F c)) :
    List.Forall₂ (fun out row => ∀ head < c.heads, ∀ d < c.headDim,
        out (head * c.headDim + d) = row head d)
      (run narrow widen e.exp lmin scale s xs) (outputs narrow widen e.exp scale rows xs) := by
  induction xs generalizing s rows with
  | nil => exact .nil
  | cons x xs ih =>
      have hnext := h.append narrow x
      refine .cons (fun head hh d hd => ?_) (ih hnext)
      rw [attend_rows widen e lmin scale hnext x hh hd, Function.update_self]

/-- The rows that caches hold. -/
def rowsOf (c : Dims) (s : Cells E) : Rows E := fun seq pos =>
  (fun i => s.kcache (cell c seq pos i), fun i => s.vcache (cell c seq pos i))

/-- **Decoding is grouped-query attention.** Whatever entries come, in whatever slots and
at whatever positions, and whatever the caches hold before: every output is the attention
of its query over the rows of its slot, as the entries so far have left them. -/
theorem run_outputs (narrow : F → E) (widen : E → F) (e : Exponential F) (lmin scale : F)
    (s : Cells E) (xs : List (Entry F c)) :
    List.Forall₂ (fun out row => ∀ head < c.heads, ∀ d < c.headDim,
        out (head * c.headDim + d) = row head d)
      (run narrow widen e.exp lmin scale s xs)
      (outputs narrow widen e.exp scale (rowsOf c s) xs) :=
  Represents.run narrow widen e lmin scale (fun _ _ _ _ _ _ => ⟨rfl, rfl⟩) xs

/-- Two heads on one of the cache, of one dimension. -/
def pairDims : Dims :=
  { heads := 2, kvHeads := 1, headDim := 1, maxSeq := 4, batchCap := 2, kv_pos := by decide,
    kv_dvd := by decide }

/-- A token of slot 0, with a query of zeros. -/
def turn (pos : Fin 4) (k v : ℝ) : Entry ℝ pairDims where
  seq := (0 : Fin 2)
  pos := pos
  q _ := 0
  k _ := k
  v _ := v
  out _ := 0
  scratch _ _ := 0
  order := iterations 1 1
  perm := .refl _

/-- Over the real numbers: of two rows with one score the output is the mean. -/
theorem run_outputs_mean :
    ∃ o₀ o₁ : Nat → ℝ, run id id Real.exp (-1) 1 ⟨fun _ => 7, fun _ => 7⟩ [turn 0 5 1, turn 1 6 3] =
        [o₀, o₁] ∧ o₀ 1 = 1 ∧ o₁ 1 = 2 := by
  have hrun := run_outputs id id Exponential.real (-1) 1 ⟨fun _ => 7, fun _ => 7⟩
    [turn 0 5 1, turn 1 6 3]
  obtain ⟨o₀, rest, hfirst, hrest, hcons⟩ := List.forall₂_cons_right_iff.mp hrun
  obtain ⟨o₁, rest', hsecond, hnil, rfl⟩ := List.forall₂_cons_right_iff.mp hrest
  obtain rfl := List.forall₂_nil_right_iff.mp hnil
  refine ⟨o₀, o₁, hcons, (hfirst 1 (by decide) 0 (by decide)).trans ?_,
    (hsecond 1 (by decide) 0 (by decide)).trans ?_⟩
  · simp [attention, Forward.attended, Forward.kvAppend, score, turn, pairDims, Exponential.real]
  · simp [attention, Forward.attended, Forward.kvAppend, score, turn, pairDims, Exponential.real,
      List.range_succ]
    norm_num

end Attention

end LlmPager.Gqa
