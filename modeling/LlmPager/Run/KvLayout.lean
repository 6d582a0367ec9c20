import LlmPager.Run.KvCache

/-!
# LlmPager.Run.KvLayout

Four places compute the addresses of the KV cache: the append kernel, the slot
offset that `step_multi` hands it, `kv_export` and `kv_import`. All of them
address the same lanes (`AnyKv.lanes`): an append fills one row of its layer's
lanes (`AnyKv.appendWrites_rows`), an export takes out a slot's first positions
and an import puts them back (`AnyKv.kvExport_eq`, `AnyKv.kvImport_eq`).

Over any run of appends and imports the cache therefore is a table of rows
(`AnyKv.run_cell`), and `AnyKv.park_lossless` follows. The kernels take their
sizes as `int`: the geometry must fit them (`AnyKv.Fits`), and
`AnyKv.append_escapes` is one that does not.
-/

namespace LlmPager

open Lib (Mem Frame Apart Lanes asI32 wrapI32 sizeT gridTurns asI32_of_lt wrapI32_of_lt
  sizeT_of_lt)

/-! ### The numbers of the kernels -/

/-- A device address that does not leave the address space. -/
theorem elementPtr_sizeT {elem base n : Nat} (helem : 0 < elem)
    (h : base + n * elem + elem ≤ 2 ^ 64) : elementPtr elem base (sizeT n) = base + n * elem := by
  have hn : n ≤ n * elem := Nat.le_mul_of_pos_right n helem
  rw [sizeT_of_lt (by omega)]
  exact Nat.mod_eq_of_lt (by omega)

@[simp] theorem length_element (elem : Nat) (x : DeviceVec) (i : Nat) :
    (element elem x i).length = elem := by simp [element]

/-! ### Lanes -/

/-- What an allocation of a layer holds. -/
inductive KvBuf
  | key (l : Nat)
  | value (l : Nat)
  | latent (l : Nat)
  deriving Repr, DecidableEq

def KvBuf.layer : KvBuf → Nat
  | key l => l
  | value l => l
  | latent l => l

theorem QwenSizes.elem_pos (c : QwenSizes) : 0 < c.elem := by
  unfold QwenSizes.elem
  split <;> omega

namespace QwenKv

def bufs (c : QwenKv) : List KvBuf := (List.range c.layers).flatMap fun l => [.key l, .value l]

def base (c : QwenKv) : KvBuf → Nat
  | .key l => c.kcache l
  | .value l => c.vcache l
  | .latent _ => 0

theorem kvBytes_eq (c : QwenKv) :
    c.kvBytes = c.batchCap * c.kvHeads * (c.maxSeq * (c.headDim * c.elem)) := by
  unfold QwenSizes.kvBytes
  ring

theorem mem_bufs {c : QwenKv} {b : KvBuf} :
    b ∈ c.bufs ↔ ∃ l < c.layers, b = .key l ∨ b = .value l := by
  simp [bufs]

theorem nodup_bufs (c : QwenKv) : c.bufs.Nodup := by
  refine List.nodup_flatMap.mpr ⟨fun l _ => by simp, ?_⟩
  refine List.nodup_range.imp fun {l l'} hne => ?_
  intro b hb hb'
  simp only [List.mem_cons, List.not_mem_nil, or_false] at hb hb'
  rcases hb with rfl | rfl <;> simp_all

theorem bufs_apart (c : QwenKv) : ∀ b ∈ c.bufs, ∀ b' ∈ c.bufs, b ≠ b' →
    Apart (c.base b) c.kvBytes (c.base b') c.kvBytes := by
  intro b hb b' hb' hne
  obtain ⟨l, hl, rfl | rfl⟩ := mem_bufs.mp hb <;> obtain ⟨l', hl', rfl | rfl⟩ := mem_bufs.mp hb'
  · exact c.kApart l hl l' hl' fun h => hne (h ▸ rfl)
  · exact c.kvApart l hl l' hl'
  · exact (c.kvApart l' hl' l hl).symm
  · exact c.vApart l hl l' hl' fun h => hne (h ▸ rfl)

theorem base_range (c : QwenKv) {b : KvBuf} (hb : b ∈ c.bufs) : c.base b + c.kvBytes ≤ 2 ^ 64 := by
  obtain ⟨l, hl, rfl | rfl⟩ := mem_bufs.mp hb
  · exact c.kRange l hl
  · exact c.vRange l hl

/-- Each K and V allocation: a slot's heads, each of `max_seq` rows of `head_dim`
elements. -/
def lanes (c : QwenKv) : Lanes (KvBuf × Nat) :=
  .stacked c.bufs c.base c.kvHeads c.batchCap c.maxSeq (c.headDim * c.elem) c.nodup_bufs
    (c.kvBytes_eq ▸ c.bufs_apart)

end QwenKv

namespace KimiKv

def bufs (c : KimiKv) : List KvBuf := (List.range c.layers).map .latent

def base (c : KimiKv) : KvBuf → Nat
  | .latent l => c.cache l
  | _ => 0

theorem kvBytes_eq (c : KimiKv) : c.kvBytes = c.batchCap * 1 * (c.maxSeq * (c.qk * 4)) := by
  unfold KimiSizes.kvBytes
  ring

theorem mem_bufs {c : KimiKv} {b : KvBuf} : b ∈ c.bufs ↔ ∃ l < c.layers, b = .latent l := by
  simp [bufs, eq_comm]

theorem nodup_bufs (c : KimiKv) : c.bufs.Nodup :=
  List.nodup_range.map fun _ _ h => KvBuf.latent.inj h

theorem bufs_apart (c : KimiKv) : ∀ b ∈ c.bufs, ∀ b' ∈ c.bufs, b ≠ b' →
    Apart (c.base b) c.kvBytes (c.base b') c.kvBytes := by
  intro b hb b' hb' hne
  obtain ⟨l, hl, rfl⟩ := mem_bufs.mp hb
  obtain ⟨l', hl', rfl⟩ := mem_bufs.mp hb'
  exact c.cacheApart l hl l' hl' fun h => hne (h ▸ rfl)

theorem base_range (c : KimiKv) {b : KvBuf} (hb : b ∈ c.bufs) : c.base b + c.kvBytes ≤ 2 ^ 64 := by
  obtain ⟨l, hl, rfl⟩ := mem_bufs.mp hb
  exact c.cacheRange l hl

/-- Each layer's allocation: for a slot `max_seq` rows of latent and rope. -/
def lanes (c : KimiKv) : Lanes (KvBuf × Nat) :=
  .stacked c.bufs c.base 1 c.batchCap c.maxSeq (c.qk * 4) c.nodup_bufs
    (c.kvBytes_eq ▸ c.bufs_apart)

end KimiKv

namespace AnyKv

def lanes : AnyKv → Lanes (KvBuf × Nat)
  | qwen c => c.lanes
  | kimi c => c.lanes

@[simp] theorem lanes_slots (c : AnyKv) : c.lanes.slots = c.batchCap := by cases c <;> rfl

@[simp] theorem lanes_cap (c : AnyKv) : c.lanes.cap = c.maxSeq := by cases c <;> rfl

end AnyKv

/-! ### Appends -/

/-- The most threads of a launch: the step of a kernel's loop. -/
def maxThreads : Nat := 2 ^ 18

/-- The numbers of a Qwen cache that the kernels take as `int`, with room for the loop
counter. -/
structure QwenSizes.Fits (c : QwenSizes) : Prop where
  kvHeads : c.kvHeads < 2 ^ 31
  headDim : c.headDim < 2 ^ 31
  vec : c.kvHeads * c.headDim + maxThreads ≤ 2 ^ 31
  maxSeq : c.maxSeq < 2 ^ 31

/-- The numbers of an MLA cache that the kernels take as `int`: the row, its two parts with
room for the loop counter, and the offsets of the rows' parts. -/
structure KimiSizes.Fits (c : KimiSizes) : Prop where
  qk : c.kvLora + c.rope < 2 ^ 31
  kvLora : c.kvLora + maxThreads ≤ 2 ^ 31
  rope : c.rope + maxThreads ≤ 2 ^ 31
  off : ∀ pos < c.maxSeq, pos * (c.kvLora + c.rope) + c.kvLora < 2 ^ 31

theorem gridThreads_pos (total : Int) : 0 < gridThreads total := by
  unfold gridThreads
  omega

theorem gridThreads_le (total : Int) : gridThreads total ≤ maxThreads := by
  unfold gridThreads maxThreads
  omega

/-- The turns of a launch whose loop counter has room. -/
theorem mem_gridTurns_total {n : Nat} {i : Int} (h : n + maxThreads ≤ 2 ^ 31) :
    i ∈ gridTurns (gridThreads n) n ↔ ∃ k < n, i = (k : Int) := by
  have hle := gridThreads_le n
  exact Lib.mem_gridTurns (gridThreads_pos n) (by omega)

namespace QwenKv

variable {c : QwenKv} {i : KvBuf × Nat} {l seq pos d : Nat}

/-- Element `d` of a lane's row: what the append writes there. -/
def piece (c : QwenKv) (k v : DeviceVec) : KvBuf × Nat → Nat → List UInt8
  | (.value _, h), d => element c.elem v (h * c.headDim + d)
  | (_, h), d => element c.elem k (h * c.headDim + d)

/-- The kernel's index, from the slot's offset on, is the element of the row. -/
theorem elementPtr_row (hi : c.lanes.Valid i seq pos) (hd : d < c.headDim) :
    elementPtr c.elem (c.base i.1 + c.seqOff seq)
        (sizeT (((i.2 * c.maxSeq + pos) * c.headDim + d : Nat) : Int)) =
      c.lanes.rowAddr i seq pos + d * c.elem := by
  have haddr : c.base i.1 + c.seqOff seq + ((i.2 * c.maxSeq + pos) * c.headDim + d) * c.elem =
      c.lanes.rowAddr i seq pos + d * c.elem := by
    show _ = c.base i.1 + (seq * c.kvHeads + i.2) * (c.maxSeq * (c.headDim * c.elem)) +
      pos * (c.headDim * c.elem) + d * c.elem
    unfold QwenSizes.seqOff
    ring
  have hbuf := (List.mem_product.mp hi.lane).1
  have hhead : i.2 < c.kvHeads := List.mem_range.mp (List.mem_product.mp hi.lane).2
  -- inside the row, inside the lane, inside the allocation, below the last address
  have hrow : d * c.elem + c.elem ≤ c.headDim * c.elem := Lib.mul_row_le hd c.elem
  have hlane := Lanes.rowAddr_le hi.pos i seq
  have hblock : (seq * c.kvHeads + i.2) * (c.maxSeq * (c.headDim * c.elem)) +
      c.maxSeq * (c.headDim * c.elem) ≤ c.kvBytes := by
    rw [c.kvBytes_eq]
    exact Lib.mul_row_le (Lib.block_lt hi.slot hhead) _
  have hstart : c.lanes.start i seq + c.lanes.cap * c.lanes.row ≤ c.base i.1 + c.kvBytes := by
    show c.base i.1 + _ + c.maxSeq * (c.headDim * c.elem) ≤ _
    omega
  have hmax := c.base_range hbuf
  have hrowsize : c.lanes.row = c.headDim * c.elem := rfl
  rw [elementPtr_sizeT c.elem_pos (by rw [haddr]; omega), haddr]

/-- The kernel's writes when its numbers fit: both vectors, head by head. -/
theorem mem_appendWrites (hfits : c.Fits) (hpos : pos < c.maxSeq) (l seq : Nat) (k v : DeviceVec)
    (w : Nat × List UInt8) :
    w ∈ c.appendWrites l seq pos k v ↔ ∃ i < c.kvHeads * c.headDim,
      let dst := sizeT (((i / c.headDim * c.maxSeq + pos) * c.headDim + i % c.headDim : Nat) : Int)
      w ∈ [(elementPtr c.elem (c.kcache l + c.seqOff seq) dst, element c.elem k i),
        (elementPtr c.elem (c.vcache l + c.seqOff seq) dst, element c.elem v i)] := by
  have hmax := hfits.maxSeq
  have hvec := hfits.vec
  have hlt : c.kvHeads * c.headDim < 2 ^ 31 := by
    unfold maxThreads at hvec
    omega
  unfold appendWrites kvAppendWrites
  rw [asI32_of_lt hfits.kvHeads, asI32_of_lt hfits.headDim, asI32_of_lt hmax,
    asI32_of_lt (show pos < 2 ^ 31 by omega), ← Int.natCast_mul, wrapI32_of_lt hlt]
  have hturn : ∀ i < c.kvHeads * c.headDim,
      (Int.tdiv i c.headDim * c.maxSeq + pos) * c.headDim + Int.tmod i c.headDim =
        (((i / c.headDim * c.maxSeq + pos) * c.headDim + i % c.headDim : Nat) : Int) ∧
      sizeT (i : Nat) = i := by
    intro i hi
    rw [Int.tdiv_eq_ediv_of_nonneg (Int.natCast_nonneg i),
      Int.tmod_eq_emod_of_nonneg (Int.natCast_nonneg i)]
    push_cast
    exact ⟨rfl, sizeT_of_lt (by omega)⟩
  simp only [List.mem_flatMap, mem_gridTurns_total hvec]
  constructor
  · rintro ⟨_, ⟨i, hi, rfl⟩, hw⟩
    rw [(hturn i hi).1, (hturn i hi).2] at hw
    exact ⟨i, hi, hw⟩
  · rintro ⟨i, hi, hw⟩
    refine ⟨_, ⟨i, hi, rfl⟩, ?_⟩
    rw [(hturn i hi).1, (hturn i hi).2]
    exact hw

/-- An append fills row `pos` of the slot in its layer's lanes. -/
theorem appendWrites_rows (hfits : c.Fits) (hseq : seq < c.batchCap)
    (hpos : pos < c.maxSeq) (hl : l < c.layers) (k v : DeviceVec) :
    c.lanes.FillsRows (c.appendWrites l seq pos k v) (fun i => i.1.layer = l) seq pos c.elem
      c.headDim (c.piece k v) where
  fits := rfl
  length := by
    intro ⟨b, h⟩ d
    cases b <;> exact length_element _ _ _
  mem := by
    intro w
    rw [mem_appendWrites hfits hpos]
    constructor
    · intro h
      obtain ⟨x, hx, hw⟩ := h
      have hdim : 0 < c.headDim := Nat.pos_of_ne_zero fun h => by simp [h] at hx
      have hh : x / c.headDim < c.kvHeads := Nat.div_lt_of_lt_mul (by rwa [Nat.mul_comm])
      have hd : x % c.headDim < c.headDim := Nat.mod_lt x hdim
      have hlane : ∀ b ∈ c.bufs, c.lanes.Valid (b, x / c.headDim) seq pos := fun b hb =>
        ⟨List.mem_product.mpr ⟨hb, List.mem_range.mpr hh⟩, hseq, hpos⟩
      have hx' : x / c.headDim * c.headDim + x % c.headDim = x := by
        rw [Nat.mul_comm]
        exact Nat.div_add_mod x c.headDim
      rcases List.mem_cons.mp hw with rfl | hw
      · have hv := hlane _ (mem_bufs.mpr ⟨l, hl, .inl rfl⟩)
        refine ⟨_, hv.lane, rfl, x % c.headDim, hd, ?_⟩
        rw [← elementPtr_row hv hd]
        show _ = (_, element c.elem k (x / c.headDim * c.headDim + x % c.headDim))
        rw [hx']
        rfl
      · obtain rfl := List.mem_singleton.mp hw
        have hv := hlane _ (mem_bufs.mpr ⟨l, hl, .inr rfl⟩)
        refine ⟨_, hv.lane, rfl, x % c.headDim, hd, ?_⟩
        rw [← elementPtr_row hv hd]
        show _ = (_, element c.elem v (x / c.headDim * c.headDim + x % c.headDim))
        rw [hx']
        rfl
    · rintro ⟨⟨b, h⟩, hlane, hlayer, d, hd, rfl⟩
      have hv : c.lanes.Valid (b, h) seq pos := ⟨hlane, hseq, hpos⟩
      obtain ⟨hb, hh⟩ := List.mem_product.mp hlane
      rw [List.mem_range] at hh
      have hdiv : (h * c.headDim + d) / c.headDim = h := by
        rw [Nat.mul_comm, Nat.mul_add_div (by omega), Nat.div_eq_of_lt hd, Nat.add_zero]
      have hmod : (h * c.headDim + d) % c.headDim = d := by
        rw [Nat.mul_comm, Nat.mul_add_mod, Nat.mod_eq_of_lt hd]
      refine ⟨h * c.headDim + d, Lib.block_lt hh hd, ?_⟩
      rw [← elementPtr_row hv hd]
      simp only [hdiv, hmod]
      obtain ⟨l', -, rfl | rfl⟩ := mem_bufs.mp hb
      · obtain rfl : l' = l := hlayer
        exact List.mem_cons_self
      · obtain rfl : l' = l := hlayer
        exact List.mem_cons_of_mem _ (List.mem_singleton.mpr rfl)

end QwenKv

/-- The writes of a copy of one vector whose numbers fit. -/
theorem mem_stridedCopyWrites (src : DeviceVec) (srcStride srcOff : Nat) (dst : Nat)
    (dstStride dstOff : Nat) {n : Nat} (hn : n + maxThreads ≤ 2 ^ 31) (hsrc : srcOff + n ≤ 2 ^ 64)
    (w : Nat × List UInt8) :
    w ∈ stridedCopyWrites src srcStride srcOff dst dstStride dstOff 1 n ↔ ∃ i < n,
      w = (elementPtr 4 dst (sizeT ((dstOff + i : Nat) : Int)), element 4 src (srcOff + i)) := by
  have hlt : n < 2 ^ 31 := by
    unfold maxThreads at hn
    omega
  have hturn : ∀ i < n,
      (elementPtr 4 dst (sizeT (Int.tdiv i n * dstStride + dstOff + Int.tmod i n)),
        element 4 src (sizeT (Int.tdiv i n * srcStride + srcOff + Int.tmod i n))) =
      (elementPtr 4 dst (sizeT ((dstOff + i : Nat) : Int)), element 4 src (srcOff + i)) := by
    intro i hi
    rw [Int.tdiv_eq_zero_of_lt (by omega) (by omega), Int.tmod_eq_of_lt (by omega) (by omega)]
    simp only [Int.zero_mul, Int.zero_add]
    rw [← Int.natCast_add srcOff, ← Int.natCast_add dstOff, sizeT_of_lt (n := srcOff + i) (by omega)]
  unfold stridedCopyWrites
  rw [Int.one_mul, wrapI32_of_lt hlt]
  simp only [List.mem_map, mem_gridTurns_total hn]
  constructor
  · rintro ⟨_, ⟨i, hi, rfl⟩, rfl⟩
    exact ⟨i, hi, hturn i hi⟩
  · rintro ⟨i, hi, rfl⟩
    exact ⟨_, ⟨i, hi, rfl⟩, hturn i hi⟩

namespace KimiKv

variable {c : KimiKv} {i : KvBuf × Nat} {l seq pos d : Nat}

/-- Element `d` of a lane's row: the latent, then the rope slice. -/
def piece (c : KimiKv) (ckvNorm kva : DeviceVec) (_ : KvBuf × Nat) (d : Nat) : List UInt8 :=
  element 4 (if d < c.kvLora then ckvNorm else kva) d

theorem elementPtr_row (hi : c.lanes.Valid i seq pos) (hd : d < c.qk) :
    elementPtr 4 (c.base i.1 + seq * c.maxSeq * c.qk * 4)
        (sizeT ((pos * c.qk + d : Nat) : Int)) = c.lanes.rowAddr i seq pos + d * 4 := by
  have hbuf := (List.mem_product.mp hi.lane).1
  have hhead : i.2 = 0 := Nat.lt_one_iff.mp (List.mem_range.mp (List.mem_product.mp hi.lane).2)
  have haddr : c.base i.1 + seq * c.maxSeq * c.qk * 4 + (pos * c.qk + d) * 4 =
      c.lanes.rowAddr i seq pos + d * 4 := by
    show _ = c.base i.1 + (seq * 1 + i.2) * (c.maxSeq * (c.qk * 4)) + pos * (c.qk * 4) + d * 4
    rw [hhead]
    ring
  have hrow : d * 4 + 4 ≤ c.qk * 4 := Lib.mul_row_le hd 4
  have hlane := Lanes.rowAddr_le hi.pos i seq
  have hblock : (seq * 1 + i.2) * (c.maxSeq * (c.qk * 4)) + c.maxSeq * (c.qk * 4) ≤ c.kvBytes := by
    rw [c.kvBytes_eq]
    exact Lib.mul_row_le (Lib.block_lt hi.slot (by omega)) _
  have hstart : c.lanes.start i seq + c.lanes.cap * c.lanes.row ≤ c.base i.1 + c.kvBytes := by
    show c.base i.1 + _ + c.maxSeq * (c.qk * 4) ≤ _
    omega
  have hmax := c.base_range hbuf
  have hrowsize : c.lanes.row = c.qk * 4 := rfl
  rw [elementPtr_sizeT (by omega) (by rw [haddr]; omega), haddr]

/-- The two copies when their numbers fit. -/
theorem mem_appendWrites (hfits : c.Fits) (hpos : pos < c.maxSeq) (l seq : Nat)
    (ckvNorm kva : DeviceVec) (w : Nat × List UInt8) :
    w ∈ c.appendWrites l seq pos ckvNorm kva ↔
      let cacheL := c.cache l + seq * c.maxSeq * c.qk * 4
      (∃ i < c.kvLora,
        w = (elementPtr 4 cacheL (sizeT ((pos * c.qk + i : Nat) : Int)), element 4 ckvNorm i)) ∨
      ∃ i < c.rope, w = (elementPtr 4 cacheL (sizeT ((pos * c.qk + (c.kvLora + i) : Nat) : Int)),
        element 4 kva (c.kvLora + i)) := by
  have hqk : c.kvLora + c.rope < 2 ^ 31 := hfits.qk
  have hoff := hfits.off pos hpos
  have hrow : wrapI32 (asI32 pos * asI32 (c.kvLora + c.rope)) = (pos * c.qk : Nat) := by
    rw [asI32_of_lt hqk]
    by_cases hzero : c.qk = 0
    · -- an empty row: whatever the position is cut to
      have hz : c.kvLora + c.rope = 0 := hzero
      simp [hz, hzero, wrapI32]
    · have hle : pos ≤ pos * c.qk := Nat.le_mul_of_pos_right pos (Nat.pos_of_ne_zero hzero)
      have hprod : pos * c.qk < 2 ^ 31 := by
        show pos * (c.kvLora + c.rope) < 2 ^ 31
        omega
      rw [asI32_of_lt (show pos < 2 ^ 31 by omega), ← Int.natCast_mul]
      exact wrapI32_of_lt hprod
  have hrope : wrapI32 ((pos * c.qk : Nat) + asI32 c.kvLora) = (pos * c.qk + c.kvLora : Nat) := by
    rw [asI32_of_lt (show c.kvLora < 2 ^ 31 by omega), ← Int.natCast_add]
    exact wrapI32_of_lt hoff
  have hfirst := mem_stridedCopyWrites ckvNorm c.kvLora 0 (c.cache l + seq * c.maxSeq * c.qk * 4)
    (c.kvLora + c.rope) (pos * c.qk) hfits.kvLora (by omega) w
  have hsecond := mem_stridedCopyWrites kva (c.kvLora + c.rope) c.kvLora
    (c.cache l + seq * c.maxSeq * c.qk * 4) (c.kvLora + c.rope) (pos * c.qk + c.kvLora)
    hfits.rope (by omega) w
  simp only [Nat.zero_add] at hfirst
  simp only [Nat.add_assoc (pos * c.qk)] at hsecond
  unfold appendWrites
  simp only [hrow, hrope]
  rw [asI32_of_lt (show c.kvLora < 2 ^ 31 by omega), asI32_of_lt (show c.rope < 2 ^ 31 by omega),
    asI32_of_lt hqk, List.mem_append]
  exact or_congr hfirst hsecond

/-- The two copies of an append fill row `pos` of the slot in the layer's lane. -/
theorem appendWrites_rows (hfits : c.Fits) (hseq : seq < c.batchCap)
    (hpos : pos < c.maxSeq) (hl : l < c.layers) (ckvNorm kva : DeviceVec) :
    c.lanes.FillsRows (c.appendWrites l seq pos ckvNorm kva) (fun i => i.1.layer = l) seq pos 4
      c.qk (c.piece ckvNorm kva) where
  fits := rfl
  length := fun _ _ => length_element _ _ _
  mem := by
    intro w
    have hlane : c.lanes.Valid (.latent l, 0) seq pos :=
      ⟨List.mem_product.mpr ⟨mem_bufs.mpr ⟨l, hl, rfl⟩, List.mem_range.mpr Nat.zero_lt_one⟩, hseq,
        hpos⟩
    rw [mem_appendWrites hfits hpos]
    constructor
    · rintro (⟨d, hd, rfl⟩ | ⟨d, hd, rfl⟩)
      · have hqk : d < c.qk := Nat.lt_add_right c.rope hd
        refine ⟨_, hlane.lane, rfl, d, hqk, ?_⟩
        rw [← elementPtr_row hlane hqk, piece, if_pos hd]
        rfl
      · have hqk : c.kvLora + d < c.qk := Nat.add_lt_add_left hd c.kvLora
        refine ⟨_, hlane.lane, rfl, c.kvLora + d, hqk, ?_⟩
        rw [← elementPtr_row hlane hqk, piece, if_neg (by omega)]
        rfl
    · rintro ⟨⟨b, h⟩, hmem, hlayer, d, hd, rfl⟩
      have hv : c.lanes.Valid (b, h) seq pos := ⟨hmem, hseq, hpos⟩
      obtain ⟨hb, -⟩ := List.mem_product.mp hmem
      obtain ⟨l', -, rfl⟩ := mem_bufs.mp hb
      obtain rfl : l' = l := hlayer
      rw [← elementPtr_row hv hd, piece]
      by_cases hlora : d < c.kvLora
      · exact .inl ⟨d, hlora, by rw [if_pos hlora]; rfl⟩
      · have hsub : c.kvLora + (d - c.kvLora) = d := by omega
        have hd' : d < c.kvLora + c.rope := hd
        exact .inr ⟨d - c.kvLora, by omega, by rw [hsub, if_neg hlora]; rfl⟩

end KimiKv

namespace AnyKv

variable {c : AnyKv} {m : Mem} {l seq pos len : Nat}

def Fits : AnyKv → Prop
  | qwen c => c.toQwenSizes.Fits
  | kimi c => c.toKimiSizes.Fits

/-- The bytes of an element, and the elements of a lane's row. -/
def elem : AnyKv → Nat
  | qwen c => c.elem
  | kimi _ => 4

def width : AnyKv → Nat
  | qwen c => c.headDim
  | kimi c => c.qk

def piece : AnyKv → DeviceVec → DeviceVec → KvBuf × Nat → Nat → List UInt8
  | qwen c => c.piece
  | kimi c => c.piece

/-- What an append of the vectors `x` and `y` has for a lane: the head's part of
the key or the value, or latent and rope. -/
def rowOf (c : AnyKv) (x y : DeviceVec) (i : KvBuf × Nat) : List UInt8 :=
  (List.range c.width).flatMap (c.piece x y i)

theorem appendWrites_rows (hfits : c.Fits) (hl : l < c.layers) (hpos : pos < c.maxSeq)
    (hseq : seq < c.batchCap) (x y : DeviceVec) :
    c.lanes.FillsRows (c.appendWrites l seq pos x y) (fun i => i.1.layer = l) seq pos c.elem
      c.width (c.piece x y) := by
  cases c with
  | qwen c => exact QwenKv.appendWrites_rows hfits hseq hpos hl x y
  | kimi c => exact KimiKv.appendWrites_rows hfits hseq hpos hl x y

end AnyKv

/-! ### Export and import -/

namespace QwenKv

variable {c : QwenKv} {seq len : Nat}

/-- The loops visit the lanes in order. -/
theorem devs_eq (c : QwenKv) (seq : Nat) :
    c.devs (c.maxSeq * c.headDim * c.elem) (seq * c.kvHeads * (c.maxSeq * c.headDim * c.elem)) =
      c.lanes.lanes.map (c.lanes.start · seq) := by
  show _ = (c.bufs.product (List.range c.kvHeads)).map fun i =>
    c.base i.1 + (seq * c.kvHeads + i.2) * (c.maxSeq * (c.headDim * c.elem))
  have hstart : ∀ b h, b + seq * c.kvHeads * (c.maxSeq * c.headDim * c.elem) +
      h * (c.maxSeq * c.headDim * c.elem) =
        b + (seq * c.kvHeads + h) * (c.maxSeq * (c.headDim * c.elem)) := by
    intro b h
    ring
  simp [devs, bufs, base, List.product, List.map_flatMap, List.flatMap_assoc, hstart,
    Function.comp_def]

theorem kvFrames_eq (hseq : seq < c.batchCap) (hlen : len ≤ c.maxSeq) : c.kvFrames seq len =
    .ok (Lib.framed (len * c.lanes.row) (c.lanes.lanes.map (c.lanes.start · seq)) 0) := by
  have hgeom : c.kvGeometry seq len = .ok (len * c.headDim * c.elem,
      c.maxSeq * c.headDim * c.elem, seq * c.kvHeads * (c.maxSeq * c.headDim * c.elem)) := by
    unfold QwenSizes.kvGeometry
    rw [if_neg (Nat.not_le.mpr hseq), if_neg (Nat.not_lt.mpr hlen)]
  unfold kvFrames
  rw [hgeom]
  show Except.ok (Lib.framed _ (c.devs _ _) 0) = _
  rw [devs_eq, Nat.mul_assoc len]
  rfl

theorem length_lanes (c : QwenKv) : c.lanes.lanes.length = c.layers * 2 * c.kvHeads := by
  show (c.bufs ×ˢ List.range c.kvHeads).length = _
  rw [List.length_product, List.length_range, bufs, Lib.length_flatMap_of_const (k := 2) fun _ => rfl,
    List.length_range]

end QwenKv

namespace KimiKv

variable {c : KimiKv} {seq len : Nat}

theorem kvFrames_eq (hseq : seq < c.batchCap) (hlen : len ≤ c.maxSeq) : c.kvFrames seq len =
    .ok (Lib.framed (len * c.lanes.row) (c.lanes.lanes.map (c.lanes.start · seq)) 0) := by
  have hgeom : c.kvGeometry seq len = .ok (len * c.qk * 4, seq * c.maxSeq * c.qk * 4) := by
    unfold KimiSizes.kvGeometry
    rw [if_neg (Nat.not_le.mpr hseq), if_neg (Nat.not_lt.mpr hlen)]
  have hdevs : c.lanes.lanes.map (c.lanes.start · seq) =
      (List.range c.layers).map fun l => c.cache l + seq * c.maxSeq * c.qk * 4 := by
    show (c.bufs.product (List.range 1)).map (fun i =>
      c.base i.1 + (seq * 1 + i.2) * (c.maxSeq * (c.qk * 4))) = _
    have hstart : seq * (c.maxSeq * (c.qk * 4)) = seq * c.maxSeq * c.qk * 4 := by ring
    simp only [bufs, base, List.product, List.map_flatMap, List.flatMap_map, List.range_one,
      List.map_cons, List.map_nil, Nat.mul_one, Nat.add_zero, hstart]
    exact List.map_eq_flatMap.symm
  unfold kvFrames
  rw [hgeom, hdevs, Lib.framed_range]
  show Except.ok _ = Except.ok _
  have hrun : len * c.lanes.row = len * c.qk * 4 := (Nat.mul_assoc len c.qk 4).symm
  rw [hrun]

theorem length_lanes (c : KimiKv) : c.lanes.lanes.length = c.layers := by
  show (c.bufs ×ˢ List.range 1).length = _
  rw [List.length_product, List.length_range, bufs, List.length_map, List.length_range,
    Nat.mul_one]

end KimiKv

namespace AnyKv

variable {c : AnyKv} {m : Mem} {seq len : Nat} {blob : List UInt8}

/-- Both engines copy a prefix of the slot's lanes, in the lanes' order. -/
theorem kvFrames_eq (hseq : seq < c.batchCap) (hlen : len ≤ c.maxSeq) : c.kvFrames seq len =
    .ok (Lib.framed (len * c.lanes.row) (c.lanes.lanes.map (c.lanes.start · seq)) 0) := by
  cases c with
  | qwen c => exact QwenKv.kvFrames_eq hseq hlen
  | kimi c => exact KimiKv.kvFrames_eq hseq hlen

theorem blobLen_eq (c : AnyKv) (len : Nat) :
    c.blobLen len = c.lanes.lanes.length * (len * c.lanes.row) := by
  cases c with
  | qwen c =>
      show 2 * c.layers * c.kvHeads * c.headDim * c.elem * len =
        c.lanes.lanes.length * (len * (c.headDim * c.elem))
      rw [c.length_lanes]
      ring
  | kimi c =>
      show c.layers * (len * c.qk * 4) = c.lanes.lanes.length * (len * (c.qk * 4))
      rw [c.length_lanes, Nat.mul_assoc len]

theorem blobLen_eq_perToken (c : AnyKv) (len : Nat) : c.blobLen len = c.kvBytesPerToken * len := by
  cases c with
  | qwen c => rfl
  | kimi c =>
      show c.layers * (len * (c.kvLora + c.rope) * 4) = c.layers * (c.kvLora + c.rope) * 4 * len
      ring

theorem kvExport_eq (hseq : seq < c.batchCap) (hlen : len ≤ c.maxSeq) :
    c.kvExport m seq len = .ok (c.lanes.extract m seq len) := by
  have hcopy : Lib.copyOut m
      (Lib.framed (len * c.lanes.row) (c.lanes.lanes.map (c.lanes.start · seq)) 0)
      (List.replicate (c.blobLen len) 0) = some (c.lanes.extract m seq len) := by
    rw [Lib.copyOut_framed m _ (by simp [blobLen_eq]), blobLen_eq]
    simp [Lanes.extract, List.flatMap_map]
  unfold kvExport
  rw [kvFrames_eq hseq hlen]
  simp only [bind, Except.bind, hcopy]

theorem kvImport_eq (hseq : seq < c.batchCap) (hlen : len ≤ c.maxSeq)
    (hblob : blob.length = c.blobLen len) :
    c.kvImport m seq len blob = .ok (c.lanes.insert m seq len blob) := by
  have hsize : 0 + c.lanes.lanes.length * (len * c.lanes.row) ≤ blob.length := by
    rw [hblob, blobLen_eq]
    omega
  have hcopy := Lib.copyIn_framed c.lanes.nodup (c.lanes.start · seq) hsize m
  unfold kvImport
  rw [kvFrames_eq hseq hlen]
  simp only [bind, Except.bind, hcopy, if_neg (not_not.mpr hblob)]
  rfl

/-- An import that is refused: the slot, the length or the blob is not one. -/
theorem kvImport_error (h : ¬(seq < c.batchCap ∧ len ≤ c.maxSeq ∧ blob.length = c.blobLen len)) :
    ∃ e, c.kvImport m seq len blob = .error e := by
  by_cases hvalid : seq < c.batchCap ∧ len ≤ c.maxSeq
  · have hblob : blob.length ≠ c.blobLen len := fun hb => h ⟨hvalid.1, hvalid.2, hb⟩
    unfold kvImport
    rw [kvFrames_eq hvalid.1 hvalid.2]
    exact ⟨_, if_pos hblob⟩
  · have hframes : ∃ e, c.kvFrames seq len = .error e := by
      cases c with
      | qwen c =>
          show ∃ e, c.kvFrames seq len = .error e
          unfold QwenKv.kvFrames QwenSizes.kvGeometry
          by_cases hs : c.batchCap ≤ seq
          · rw [if_pos hs]
            exact ⟨_, rfl⟩
          · have hl : c.maxSeq < len := Nat.lt_of_not_le fun hl => hvalid ⟨Nat.lt_of_not_le hs, hl⟩
            rw [if_neg hs, if_pos hl]
            exact ⟨_, rfl⟩
      | kimi c =>
          show ∃ e, c.kvFrames seq len = .error e
          unfold KimiKv.kvFrames KimiSizes.kvGeometry
          by_cases hs : c.batchCap ≤ seq
          · rw [if_pos hs]
            exact ⟨_, rfl⟩
          · have hl : c.maxSeq < len := Nat.lt_of_not_le fun hl => hvalid ⟨Nat.lt_of_not_le hs, hl⟩
            rw [if_neg hs, if_pos hl]
            exact ⟨_, rfl⟩
    obtain ⟨e, he⟩ := hframes
    unfold kvImport
    rw [he]
    exact ⟨e, rfl⟩

/-! ### The cache as a table of rows -/

/-- What each lane holds at each slot and position. -/
abbrev Rows := KvBuf × Nat → Nat → Nat → List UInt8

/-- An operation on the table. -/
def put (c : AnyKv) (rows : Rows) : Op → Rows
  | .append l seq pos x y =>
      if l < c.layers ∧ pos < c.maxSeq ∧ seq < c.batchCap then
        fun i t q => if i.1.layer = l ∧ t = seq ∧ q = pos then c.rowOf x y i else rows i t q
      else rows
  | .kvImport seq len blob =>
      if seq < c.batchCap ∧ len ≤ c.maxSeq ∧ blob.length = c.blobLen len then
        fun i t q =>
          if t = seq ∧ q < len then
            Lib.slice (q * c.lanes.row) c.lanes.row
              (Lanes.part c.lanes.lanes (len * c.lanes.row) blob i)
          else rows i t q
      else rows

/-- The memory holds these rows. -/
def Holds (c : AnyKv) (m : Mem) (rows : Rows) : Prop :=
  ∀ i t q, c.lanes.Valid i t q → c.lanes.cell m i t q = rows i t q

theorem exec_holds {rows : Rows} (hfits : c.Fits) (h : c.Holds m rows) (op : Op) :
    c.Holds (c.exec m op) (c.put rows op) := by
  intro i t q hv
  cases op with
  | append l seq pos x y =>
      simp only [exec, put]
      by_cases hguard : l < c.layers ∧ pos < c.maxSeq ∧ seq < c.batchCap
      · simp only [if_pos hguard]
        obtain ⟨hl, hpos, hseq⟩ := hguard
        rw [Lanes.cell_writeAll (appendWrites_rows hfits hl hpos hseq x y) (by simpa using hseq)
          (by simpa using hpos) hv, h i t q hv]
        rfl
      · simp only [if_neg hguard]
        exact h i t q hv
  | kvImport seq len blob =>
      simp only [exec, put]
      by_cases hguard : seq < c.batchCap ∧ len ≤ c.maxSeq ∧ blob.length = c.blobLen len
      · have ⟨hseq, hlen, hblob⟩ := hguard
        simp only [if_pos hguard, kvImport_eq hseq hlen hblob]
        show c.lanes.cell (c.lanes.insert m seq len blob) i t q = _
        rw [blobLen_eq] at hblob
        have hslot : seq < c.lanes.slots := by simpa using hseq
        have hcap : len ≤ c.lanes.cap := by simpa using hlen
        by_cases hin : t = seq ∧ q < len
        · rw [if_pos hin]
          obtain ⟨rfl, hq⟩ := hin
          exact Lanes.cell_insert_of_lt hslot hcap hblob hv.lane hq
        · rw [if_neg hin, Lanes.cell_insert_of_ne hslot hcap hblob hv (by omega)]
          exact h i t q hv
      · obtain ⟨e, he⟩ := kvImport_error (m := m) hguard
        simp only [if_neg hguard, he]
        exact h i t q hv

/-- Over any run the cache holds what was last put into each row. -/
theorem run_holds {rows : Rows} (hfits : c.Fits) (ops : List Op) (h : c.Holds m rows) :
    c.Holds (c.run m ops) (ops.foldl c.put rows) := by
  induction ops generalizing m rows with
  | nil => exact h
  | cons op ops ih => exact ih (exec_holds hfits h op)

/-! ### Slots -/

/-- The bytes of a slot in each allocation. -/
def slotBytes : AnyKv → Nat
  | qwen c => c.kvHeads * c.maxSeq * c.headDim * c.elem
  | kimi c => c.maxSeq * c.qk * 4

/-- The address belongs to slot `seq` in an allocation of layer `l`. -/
def InSlot (c : AnyKv) (l seq x : Nat) : Prop :=
  ∃ b ∈ c.buffers l, b + seq * c.slotBytes ≤ x ∧ x < b + (seq + 1) * c.slotBytes

theorem slot_le (hseq : seq < c.batchCap) : (seq + 1) * c.slotBytes ≤ c.kvBytes := by
  have hle := Nat.mul_le_mul_right c.slotBytes (show seq + 1 ≤ c.batchCap from hseq)
  refine hle.trans (Nat.le_of_eq ?_)
  cases c with
  | qwen c =>
      show c.batchCap * (c.kvHeads * c.maxSeq * c.headDim * c.elem) =
        c.batchCap * c.kvHeads * c.maxSeq * c.headDim * c.elem
      ring
  | kimi c =>
      show c.batchCap * (c.maxSeq * c.qk * 4) = c.batchCap * c.maxSeq * c.qk * 4
      ring

/-- A lane lies in its slot. -/
theorem lane_inSlot {i : KvBuf × Nat} {x : Nat} (hi : i ∈ c.lanes.lanes)
    (hlo : c.lanes.start i seq ≤ x) (hhi : x < c.lanes.start i seq + c.lanes.cap * c.lanes.row) :
    i.1.layer < c.layers ∧ c.InSlot i.1.layer seq x := by
  cases c with
  | qwen c =>
      obtain ⟨hb, hh⟩ := List.mem_product.mp hi
      have hrow := Lib.mul_row_le (List.mem_range.mp hh) (c.maxSeq * (c.headDim * c.elem))
      have hsize : (qwen c).slotBytes = c.kvHeads * (c.maxSeq * (c.headDim * c.elem)) := by
        show c.kvHeads * c.maxSeq * c.headDim * c.elem = _
        ring
      have hstart : (qwen c).lanes.start i seq = c.base i.1 + seq * (qwen c).slotBytes +
          i.2 * (c.maxSeq * (c.headDim * c.elem)) := by
        show c.base i.1 + (seq * c.kvHeads + i.2) * (c.maxSeq * (c.headDim * c.elem)) = _
        rw [hsize]
        ring
      have hlane : x < (qwen c).lanes.start i seq + c.maxSeq * (c.headDim * c.elem) := hhi
      have hbuf : c.base i.1 ∈ (qwen c).buffers i.1.layer ∧ i.1.layer < c.layers := by
        obtain ⟨l, hl, hb | hb⟩ := QwenKv.mem_bufs.mp hb <;> rw [hb]
        · exact ⟨List.mem_cons_self, hl⟩
        · exact ⟨List.mem_cons_of_mem _ (List.mem_singleton.mpr rfl), hl⟩
      refine ⟨hbuf.2, c.base i.1, hbuf.1, ?_, ?_⟩
      · omega
      · rw [Nat.add_mul, Nat.one_mul]
        omega
  | kimi c =>
      obtain ⟨hb, hh⟩ := List.mem_product.mp hi
      have hhead : i.2 = 0 := Nat.lt_one_iff.mp (List.mem_range.mp hh)
      have hsize : (kimi c).slotBytes = c.maxSeq * (c.qk * 4) := Nat.mul_assoc _ _ _
      have hstart : (kimi c).lanes.start i seq = c.base i.1 + seq * (kimi c).slotBytes := by
        show c.base i.1 + (seq * 1 + i.2) * (c.maxSeq * (c.qk * 4)) = _
        rw [hsize, hhead, Nat.mul_one, Nat.add_zero]
      have hlane : x < (kimi c).lanes.start i seq + c.maxSeq * (c.qk * 4) := hhi
      have hbuf : c.base i.1 ∈ (kimi c).buffers i.1.layer ∧ i.1.layer < c.layers := by
        obtain ⟨l, hl, hb⟩ := KimiKv.mem_bufs.mp hb
        rw [hb]
        exact ⟨List.mem_singleton.mpr rfl, hl⟩
      refine ⟨hbuf.2, c.base i.1, hbuf.1, ?_, ?_⟩
      · omega
      · rw [Nat.add_mul, Nat.one_mul]
        omega

/-- The copies of an export or import, and the writes of an append, keep to the
slot, and the slot to the allocation. -/
structure StaysInSlot (c : AnyKv) (seq : Nat) : Prop where
  slot : (seq + 1) * c.slotBytes ≤ c.kvBytes
  frames : ∀ len ≤ c.maxSeq, ∀ frames, c.kvFrames seq len = .ok frames → ∀ f ∈ frames, ∀ x,
    f.dev ≤ x → x < f.dev + (f.hi - f.lo) → ∃ l < c.layers, c.InSlot l seq x
  append : ∀ l < c.layers, ∀ pos < c.maxSeq, ∀ x y, ∀ w ∈ c.appendWrites l seq pos x y, ∀ a,
    w.1 ≤ a → a < w.1 + w.2.length → c.InSlot l seq a

theorem staysInSlot (hfits : c.Fits) (hseq : seq < c.batchCap) : c.StaysInSlot seq where
  slot := slot_le hseq
  frames := by
    intro len hlen frames hframes f hf x hlo hhi
    rw [kvFrames_eq hseq hlen] at hframes
    cases hframes
    obtain ⟨hdev, hrun⟩ := Lib.mem_framed hf
    obtain ⟨i, hi, hdev⟩ := List.mem_map.mp hdev
    rw [← hdev] at hlo hhi
    have hle : len * c.lanes.row ≤ c.lanes.cap * c.lanes.row :=
      Nat.mul_le_mul_right _ (by simpa using hlen)
    obtain ⟨hl, hin⟩ := lane_inSlot (x := x) hi hlo (by omega)
    exact ⟨i.1.layer, hl, hin⟩
  append := by
    intro l hl pos hpos x y w hw a hlo hhi
    have hrows := appendWrites_rows hfits hl hpos hseq x y
    obtain ⟨i, hi, rfl, d, hd, rfl⟩ := (hrows.mem w).mp hw
    have hd := Lib.mul_row_le hd c.elem
    have hrow := Lanes.rowAddr_le (L := c.lanes) (by simpa using hpos) i seq
    have hstart : c.lanes.start i seq ≤ c.lanes.rowAddr i seq pos := Nat.le_add_right _ _
    rw [hrows.fits] at hd
    rw [hrows.length] at hhi
    have hlo : c.lanes.rowAddr i seq pos + d * c.elem ≤ a := hlo
    have hhi : a < c.lanes.rowAddr i seq pos + d * c.elem + c.elem := hhi
    exact (lane_inSlot hi (by omega) (by omega)).2

/-! ### Parking -/

/-- Slot `seq` of a cache that holds `rows` is parked as `blob`, and restored into
slot `seq'`. -/
structure Parks (c : AnyKv) (m : Mem) (rows : Rows) (seq seq' len : Nat) (blob : List UInt8)
    (m' : Mem) : Prop where
  exported : c.kvExport m seq len = .ok blob
  content : blob = c.lanes.lanes.flatMap fun i => (List.range len).flatMap (rows i seq)
  length : blob.length = c.kvBytesPerToken * len
  imported : c.kvImport m seq' len blob = .ok m'
  restored : ∀ i ∈ c.lanes.lanes, ∀ p < len, c.lanes.cell m' i seq' p = rows i seq p
  others : ∀ i t q, c.lanes.Valid i t q → t ≠ seq' ∨ len ≤ q → c.lanes.cell m' i t q = rows i t q
  /-- All of the memory but the slot's prefix. -/
  elsewhere : ∀ x, (∀ i ∈ c.lanes.lanes, x < c.lanes.start i seq' ∨
    c.lanes.start i seq' + len * c.lanes.row ≤ x) → m' x = m x
  again : c.kvExport m' seq' len = .ok blob

theorem parks {rows : Rows} {seq' : Nat} (h : c.Holds m rows) (hseq : seq < c.batchCap)
    (hseq' : seq' < c.batchCap) (hlen : len ≤ c.maxSeq) :
    c.Parks m rows seq seq' len (c.lanes.extract m seq len)
      (c.lanes.insert m seq' len (c.lanes.extract m seq len)) := by
  have hslot : seq < c.lanes.slots := by simpa using hseq
  have hslot' : seq' < c.lanes.slots := by simpa using hseq'
  have hcap : len ≤ c.lanes.cap := by simpa using hlen
  have hvalid : ∀ {i p}, i ∈ c.lanes.lanes → p < len → c.lanes.Valid i seq p := fun hi hp =>
    ⟨hi, hslot, by omega⟩
  have hblob : (c.lanes.extract m seq len).length = c.blobLen len := by
    rw [Lanes.length_extract, blobLen_eq]
  exact {
    exported := kvExport_eq hseq hlen
    content := by
      rw [Lanes.extract_eq_cells]
      refine List.flatMap_congr fun i hi => List.flatMap_congr fun p hp => ?_
      exact h i seq p (hvalid hi (List.mem_range.mp hp))
    length := by rw [hblob, blobLen_eq_perToken]
    imported := kvImport_eq hseq' hlen hblob
    restored := fun i hi p hp => by
      rw [Lanes.cell_insert_extract hslot' hcap hi hp]
      exact h i seq p (hvalid hi hp)
    others := fun i t q hv hne => by
      rw [Lanes.cell_insert_of_ne hslot' hcap Lanes.length_extract hv hne]
      exact h i t q hv
    elsewhere := fun x hx => Lanes.insert_outside Lanes.length_extract hx
    again := by
      rw [kvExport_eq hseq' hlen, Lanes.extract_insert hslot' hcap Lanes.length_extract] }

/-- After any run of appends and imports, parking is lossless and framed. -/
theorem park_lossless (c : AnyKv) (hfits : c.Fits) (m₀ : Mem) (ops : List Op) {seq seq' len : Nat}
    (hseq : seq < c.batchCap) (hseq' : seq' < c.batchCap) (hlen : len ≤ c.maxSeq) :
    (∃ blob m', c.Parks (c.run m₀ ops) (ops.foldl c.put (c.lanes.cell m₀)) seq seq' len blob m') ∧
      c.StaysInSlot seq ∧ c.StaysInSlot seq' :=
  ⟨⟨_, _, parks (run_holds hfits ops fun _ _ _ _ => rfl) hseq hseq' hlen⟩,
    staysInSlot hfits hseq, staysInSlot hfits hseq'⟩

end AnyKv

/-! ### A small cache, and one beyond the kernels' `int` -/

/-- Two layers of one head of two elements, four positions, two slots. -/
def smallKv : QwenKv where
  layers := 2
  kvHeads := 1
  headDim := 2
  maxSeq := 4
  batchCap := 2
  kvF16 := true
  kcache l := 1024 * l
  vcache l := 1024 * l + 512
  kApart l hl l' hl' hne := by
    have hsize : QwenSizes.kvBytes ⟨2, 1, 2, 4, 2, true⟩ = 32 := rfl
    unfold Apart
    omega
  vApart l hl l' hl' hne := by
    have hsize : QwenSizes.kvBytes ⟨2, 1, 2, 4, 2, true⟩ = 32 := rfl
    unfold Apart
    omega
  kvApart l hl l' hl' := by
    have hsize : QwenSizes.kvBytes ⟨2, 1, 2, 4, 2, true⟩ = 32 := rfl
    unfold Apart
    omega
  kRange l hl := by
    have hsize : QwenSizes.kvBytes ⟨2, 1, 2, 4, 2, true⟩ = 32 := rfl
    omega
  vRange l hl := by
    have hsize : QwenSizes.kvBytes ⟨2, 1, 2, 4, 2, true⟩ = 32 := rfl
    omega

theorem park_lossless_small :
    (AnyKv.qwen smallKv).Fits ∧
    (∃ blob m', (AnyKv.qwen smallKv).Parks
        ((AnyKv.qwen smallKv).run (fun _ => 0) [.append 0 0 0 (fun _ _ => 1) fun _ _ => 2])
        ([AnyKv.Op.append 0 0 0 (fun _ _ => 1) fun _ _ => 2].foldl (AnyKv.qwen smallKv).put
          ((AnyKv.qwen smallKv).lanes.cell fun _ => 0)) 0 1 1 blob m') ∧
      (AnyKv.qwen smallKv).StaysInSlot 0 ∧ (AnyKv.qwen smallKv).StaysInSlot 1 :=
  have hfits : (AnyKv.qwen smallKv).Fits := ⟨by decide, by decide, by decide, by decide⟩
  ⟨hfits, AnyKv.park_lossless _ hfits _ _ (by decide) (by decide) (by decide)⟩

/-- One layer of two heads of one element: `max_seq` is no `int`. -/
def hugeKv : QwenKv where
  layers := 1
  kvHeads := 2
  headDim := 1
  maxSeq := 2 ^ 31
  batchCap := 1
  kvF16 := true
  kcache _ := 2 ^ 40
  vcache _ := 2 ^ 41
  kApart l hl l' hl' hne := absurd (by omega) hne
  vApart l hl l' hl' hne := absurd (by omega) hne
  kvApart _ _ _ _ := .inl (by decide)
  kRange _ _ := by decide
  vRange _ _ := by decide

/-- An append to it writes row 0 of the first head, and the second head 4 GiB below. -/
theorem hugeKv_writes : hugeKv.appendWrites 0 0 0 (fun _ _ => 1) (fun _ _ => 2) =
    [(2 ^ 40, [1, 1]), (2 ^ 41, [2, 2]), (2 ^ 40 - 2 ^ 32, [1, 1]), (2 ^ 41 - 2 ^ 32, [2, 2])] := by
  have htotal : wrapI32 (asI32 hugeKv.kvHeads * asI32 hugeKv.headDim) = 2 := by decide
  have hturns : gridTurns (gridThreads 2) 2 = [0, 1] :=
    Lib.gridTurns_of_le (n := 2) (gridThreads_pos 2) (by decide) (by decide)
  unfold QwenKv.appendWrites kvAppendWrites
  simp only [htotal, hturns]
  decide

/-- The kernel writes the second head below the allocation; what is parked is not
what was appended. -/
theorem append_escapes :
    ¬(AnyKv.qwen hugeKv).StaysInSlot 0 ∧
    ¬∃ blob m', (AnyKv.qwen hugeKv).Parks
        ((AnyKv.qwen hugeKv).run (fun _ => 0) [.append 0 0 0 (fun _ _ => 1) fun _ _ => 2])
        ([AnyKv.Op.append 0 0 0 (fun _ _ => 1) fun _ _ => 2].foldl (AnyKv.qwen hugeKv).put
          ((AnyKv.qwen hugeKv).lanes.cell fun _ => 0)) 0 0 1 blob m' := by
  constructor
  · intro h
    have hmem : (2 ^ 40 - 2 ^ 32, [1, 1]) ∈
        hugeKv.appendWrites 0 0 0 (fun _ _ => 1) (fun _ _ => 2) := by
      rw [hugeKv_writes]
      decide
    obtain ⟨b, hb, hlo, -⟩ := h.append 0 (by decide) 0 (by decide) _ _ _ hmem
      (2 ^ 40 - 2 ^ 32) (by decide) (by decide)
    have hbase : ∀ b ∈ (AnyKv.qwen hugeKv).buffers 0, 2 ^ 40 ≤ b := by decide
    have := hbase b hb
    omega
  · rintro ⟨blob, m', h⟩
    have hexp := h.exported
    have hrun : (AnyKv.qwen hugeKv).run (fun _ => 0) [.append 0 0 0 (fun _ _ => 1) fun _ _ => 2] =
        Mem.writeAll (fun _ => 0)
          (hugeKv.appendWrites 0 0 0 (fun _ _ => 1) (fun _ _ => 2)) := by
      have hinside : 0 < (AnyKv.qwen hugeKv).layers ∧ 0 < (AnyKv.qwen hugeKv).maxSeq ∧
          0 < (AnyKv.qwen hugeKv).batchCap := by decide
      rw [AnyKv.run, List.foldl_cons, List.foldl_nil, AnyKv.exec, if_pos hinside, AnyKv.appendWrites]
    rw [h.content, hrun, hugeKv_writes] at hexp
    exact absurd hexp (by decide)

end LlmPager
