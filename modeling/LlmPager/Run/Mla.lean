import LlmPager.Lib.Launch

/-!
# LlmPager.Run.Mla

The attention of the Kimi engine: what `KimiCore::load` makes of `kv_b`, and the
absorbed decode of `KimiDecoder::step` through the kernels of `mla.cu`.

A device buffer is its cells, `Nat → F`; a launch is the writes of its threads, of
which no two are to one cell. Arithmetic is exact, that of `int` included, and so
are the conversions to bf16 and back. `exp` and the constant that `lmax` starts
from are parameters. A head's row of `scratch` is its own, as `seq_len` is no more
than `max_seq`.
-/

namespace LlmPager.Mla

open Lib (strided blockReduce warpReduce store)

/-- `f32_to_bf16` and `bf16_to_f32_`, without loss. -/
structure Bf16 (F B : Type) where
  narrow : F → B
  widen : B → F
  exact : ∀ x, widen (narrow x) = x

/-- The dimensions of a head (`KimiConfig`). -/
structure Dims where
  heads : Nat
  kvLora : Nat
  nope : Nat
  rope : Nat
  vHead : Nat
  deriving Repr, DecidableEq

variable {F B : Type}

/-! ### Loading -/

/-- The writes to `kt`, transposed: `kt[head][c][r] = kv_b[base + r][c]`. -/
def ktWrites (narrow : F → B) (c : Dims) (kvb : Nat → F) : List (Nat × B) :=
  (List.range c.heads).flatMap fun head =>
    let base := head * (c.nope + c.vHead)
    (List.range c.nope).flatMap fun r =>
      (List.range c.kvLora).map fun col =>
        (head * c.kvLora * c.nope + col * c.nope + r, narrow (kvb ((base + r) * c.kvLora + col)))

/-- The writes to `vw`. -/
def vwWrites (narrow : F → B) (c : Dims) (kvb : Nat → F) : List (Nat × B) :=
  (List.range c.heads).flatMap fun head =>
    let base := head * (c.nope + c.vHead)
    (List.range c.vHead).flatMap fun r =>
      (List.range c.kvLora).map fun col =>
        (head * c.vHead * c.kvLora + r * c.kvLora + col,
          narrow (kvb ((base + c.nope + r) * c.kvLora + col)))

/-- `kt`, over `vec![0u16; ..]`. -/
def kt (narrow : F → B) (zero : B) (c : Dims) (kvb : Nat → F) : Nat → B :=
  store (fun _ => zero) (ktWrites narrow c kvb)

def vw (narrow : F → B) (zero : B) (c : Dims) (kvb : Nat → F) : Nat → B :=
  store (fun _ => zero) (vwWrites narrow c kvb)

/-! ### Kernels -/

section Kernels

variable [Field F] [LinearOrder F]

/-- `bf16_gemv_batch`: four warps a block, a row each. -/
def bf16GemvBatch (widen : B → F) (w : Nat → B) (wStride : Nat) (x : Nat → F) (xStride : Nat)
    (y : Nat → F) (yStride rows cols batch : Nat) : Nat → F :=
  store y <|
    (List.range batch).flatMap fun b =>
      (List.range ((rows + 3) / 4)).flatMap fun block =>
        (List.range 4).flatMap fun warp =>
          let row := block * 4 + warp
          if rows ≤ row then []
          else
            let acc := warpReduce fun lane =>
              (strided lane 32 cols).foldl
                (fun acc c => acc + widen (w (b * wStride + row * cols + c)) * x (b * xStride + c)) 0
            [(b * yStride + row, acc 0)]

/-- `grid_1d`. -/
def grid1d (n block : Nat) : Nat := max (min ((n + (block - 1)) / block) 1024) 1

/-- `strided_copy_f32`, in blocks of 256. -/
def stridedCopy (src : Nat → F) (srcStride srcOff : Nat) (dst : Nat → F)
    (dstStride dstOff nVecs n : Nat) : Nat → F :=
  let threads := grid1d (nVecs * n) 256 * 256
  store dst <|
    (List.range threads).flatMap fun t =>
      (strided t threads (nVecs * n)).map fun idx =>
        let v := idx / n
        let i := idx % n
        (v * dstStride + dstOff + i, src (v * srcStride + srcOff + i))

/-- `mla_attn_decode_f32`: a block of 256 threads for each head. -/
def mlaAttnDecode (exp : F → F) (lmin : F) (q cache ctx : Nat → F)
    (heads qkDim cDim seqLen : Nat) (scale : F) (scratch : Nat → Nat → F) : Nat → F :=
  store ctx <|
    (List.range heads).flatMap fun h =>
      let dot := fun p =>
        (List.range qkDim).foldl (fun dot d => dot + q (h * qkDim + d) * cache (p * qkDim + d)) 0
      let sc := store (scratch h) <|
        (List.range 256).flatMap fun t => (strided t 256 seqLen).map fun p => (p, dot p * scale)
      let m := blockReduce max 8 (fun t =>
        (strided t 256 seqLen).foldl (fun lmax p => max lmax (sc p)) lmin) 0
      let sc := store sc <|
        (List.range 256).flatMap fun t => (strided t 256 seqLen).map fun p => (p, exp (sc p - m))
      let invz := 1 / blockReduce (· + ·) 8 (fun t =>
        (strided t 256 seqLen).foldl (fun lsum p => lsum + sc p) 0) 0
      (List.range 256).flatMap fun t =>
        (strided t 256 cDim).map fun d =>
          let acc := (List.range seqLen).foldl (fun acc p => acc + sc p * cache (p * qkDim + d)) 0
          (h * cDim + d, acc * invz)

/-- The buffers that a step overwrites, as it finds them. -/
structure Buffers (F : Type) where
  qFull : Nat → F
  ctx : Nat → F
  scratch : Nat → Nat → F
  attnPre : Nat → F

/-- `KimiDecoder::step` from the absorbed query to the heads' outputs (`attn_pre`),
at a position. -/
def absorbed (bf : Bf16 F B) (zero : B) (exp : F → F) (lmin scale : F) (c : Dims) (kvb : Nat → F)
    (q cache : Nat → F) (bufs : Buffers F) (pos : Nat) : Nat → F :=
  let qk := c.kvLora + c.rope
  let qDim := c.nope + c.rope
  let qFull := bf16GemvBatch bf.widen (kt bf.narrow zero c kvb) (c.kvLora * c.nope) q qDim
    bufs.qFull qk c.kvLora c.nope c.heads
  let qFull := stridedCopy q qDim c.nope qFull qk c.kvLora c.heads c.rope
  let ctx := mlaAttnDecode exp lmin qFull cache bufs.ctx c.heads qk c.kvLora (pos + 1) scale
    bufs.scratch
  bf16GemvBatch bf.widen (vw bf.narrow zero c kvb) (c.vHead * c.kvLora) ctx c.kvLora bufs.attnPre
    c.vHead c.vHead c.kvLora c.heads

/-! ### The definition of attention -/

/-- The softmax weights of a list of scores. -/
def softmaxWeights (exp : F → F) (lmin : F) (n : Nat) (score : Nat → F) (p : Nat) : F :=
  let m := (List.range n).foldl (fun m p => max m (score p)) lmin
  exp (score p - m) * (1 / ∑ p ∈ Finset.range n, exp (score p - m))

/-- The row of `kv_b` that gives key `i` of a head. -/
def keyRow (c : Dims) (head i : Nat) : Nat := head * (c.nope + c.vHead) + i

/-- The row that gives value `j`. -/
def valueRow (c : Dims) (head j : Nat) : Nat := head * (c.nope + c.vHead) + (c.nope + j)

/-- A row of `kv_b` applied to the latent part of the cache row at `p`. -/
def project (c : Dims) (kvb cache : Nat → F) (row p : Nat) : F :=
  ∑ l ∈ Finset.range c.kvLora, kvb (row * c.kvLora + l) * cache (p * (c.kvLora + c.rope) + l)

/-- The score of a head's query at `p`, with the key materialised. -/
def plainScore (c : Dims) (scale : F) (kvb q cache : Nat → F) (head p : Nat) : F :=
  ((∑ i ∈ Finset.range c.nope,
      q (head * (c.nope + c.rope) + i) * project c kvb cache (keyRow c head i) p) +
    ∑ i ∈ Finset.range c.rope, q (head * (c.nope + c.rope) + (c.nope + i)) *
      cache (p * (c.kvLora + c.rope) + (c.kvLora + i))) * scale

/-- Output `j` of a head: the weighted sum of the values at the positions up to `pos`. -/
def plain (exp : F → F) (lmin scale : F) (c : Dims) (kvb q cache : Nat → F) (pos head j : Nat) : F :=
  ∑ p ∈ Finset.range (pos + 1),
    softmaxWeights exp lmin (pos + 1) (plainScore c scale kvb q cache head) p *
      project c kvb cache (valueRow c head j) p

end Kernels

end LlmPager.Mla
