import LlmPager.Lib.Lanes
import LlmPager.Lib.Launch

/-!
# LlmPager.Run.KvCache

The KV caches of the two engines: where the append kernels write
(`kv_append_f32`/`kv_append_f16` of `decode.cu`, `strided_copy_f32` of `mla.cu`)
and what `kv_export` and `kv_import` of `decode.rs` and `kimi.rs` copy.

The device is one memory of bytes. A vector on the device is given by the bytes
of its elements as the cache stores them. `usize` and `u64` are unbounded: the
caches lie below `2 ^ 64` and every address of the host code inside them. The
kernels take their numbers as `int`, so these are cut to 32 bits as the source
cuts them (a product of two `i32` wraps, as in a release build), their loop counter
is an `int` (`Lib.gridTurns`), and the index into the cache is a `size_t`.
-/

namespace LlmPager

open Lib (Mem Frame Apart asI32 wrapI32 sizeT gridTurns)

/-- The bytes of a device vector's elements. -/
abbrev DeviceVec := Nat → Nat → UInt8

def element (elem : Nat) (x : DeviceVec) (i : Nat) : List UInt8 := (List.range elem).map (x i)

/-- `&base[i]` for elements of `elem` bytes. -/
def elementPtr (elem base i : Nat) : Nat := (base + i * elem) % 2 ^ 64

/-- The threads of a launch over `total as usize` items: `grid_1d` blocks of 256. -/
def gridThreads (total : Int) : Nat :=
  max (min ((sizeT total % 2 ^ 32 + 255) / 256) 1024) 1 * 256

/-- `kv_append_f32` and `kv_append_f16`: the writes, thread by thread. -/
def kvAppendWrites (elem : Nat) (k v : DeviceVec) (kcache vcache : Nat)
    (kvHeads headDim pos maxSeq : Int) : List (Nat × List UInt8) :=
  let total := wrapI32 (kvHeads * headDim)
  (gridTurns (gridThreads total) total).flatMap fun i =>
    let h := Int.tdiv i headDim
    let d := Int.tmod i headDim
    let dst := sizeT ((h * maxSeq + pos) * headDim + d)
    [(elementPtr elem kcache dst, element elem k (sizeT i)),
      (elementPtr elem vcache dst, element elem v (sizeT i))]

/-- `strided_copy_f32`. -/
def stridedCopyWrites (src : DeviceVec) (srcStride srcOff : Int) (dst : Nat)
    (dstStride dstOff nVecs n : Int) : List (Nat × List UInt8) :=
  let total := wrapI32 (nVecs * n)
  (gridTurns (gridThreads total) total).map fun idx =>
    let v := Int.tdiv idx n
    let i := Int.tmod idx n
    (elementPtr 4 dst (sizeT (v * dstStride + dstOff + i)),
      element 4 src (sizeT (v * srcStride + srcOff + i)))

inductive KvError
  | slotExceedsCap (seq batchCap : Nat)
  | lenExceedsMaxSeq (len maxSeq : Nat)
  | blobLen (got want len : Nat)
  /-- A slice of the host buffer out of range: a panic. -/
  | sliceRange
  deriving Repr, DecidableEq

def KvError.message : KvError → Option String
  | slotExceedsCap seq batchCap =>
      some ("sequence slot " ++ toString seq ++ " exceeds batch cap " ++ toString batchCap)
  | lenExceedsMaxSeq len maxSeq =>
      some ("kv length " ++ toString len ++ " exceeds max_seq " ++ toString maxSeq)
  | blobLen got want len =>
      some ("kv blob is " ++ toString got ++ " bytes, expected " ++ toString want ++ " for " ++
        toString len ++ " tokens")
  | sliceRange => none

/-! ### Qwen -/

/-- The sizes that a `Decoder`'s KV cache depends on. -/
structure QwenSizes where
  layers : Nat
  kvHeads : Nat
  headDim : Nat
  maxSeq : Nat
  batchCap : Nat
  kvF16 : Bool

namespace QwenSizes

def elem (c : QwenSizes) : Nat := if c.kvF16 then 2 else 4

/-- The bytes of a layer's K or V allocation. -/
def kvBytes (c : QwenSizes) : Nat := c.batchCap * c.kvHeads * c.maxSeq * c.headDim * c.elem

/-- `seq_off` of `step_multi`. -/
def seqOff (c : QwenSizes) (seq : Nat) : Nat := seq * c.kvHeads * c.maxSeq * c.headDim * c.elem

def kvBytesPerToken (c : QwenSizes) : Nat := 2 * c.layers * c.kvHeads * c.headDim * c.elem

/-- The run of one head, the stride of a head and the offset of the slot. -/
def kvGeometry (c : QwenSizes) (seq len : Nat) : Except KvError (Nat × Nat × Nat) :=
  if c.batchCap ≤ seq then .error (.slotExceedsCap seq c.batchCap)
  else if c.maxSeq < len then .error (.lenExceedsMaxSeq len c.maxSeq)
  else
    let run := len * c.headDim * c.elem
    let headStride := c.maxSeq * c.headDim * c.elem
    .ok (run, headStride, seq * c.kvHeads * headStride)

end QwenSizes

/-- A `Decoder`'s KV cache: `alloc_device` gave each layer its K and its V, which
do not overlap. -/
structure QwenKv extends QwenSizes where
  kcache : Nat → Nat
  vcache : Nat → Nat
  kApart : ∀ l < layers, ∀ l' < layers, l ≠ l' →
    Apart (kcache l) toQwenSizes.kvBytes (kcache l') toQwenSizes.kvBytes
  vApart : ∀ l < layers, ∀ l' < layers, l ≠ l' →
    Apart (vcache l) toQwenSizes.kvBytes (vcache l') toQwenSizes.kvBytes
  kvApart : ∀ l < layers, ∀ l' < layers,
    Apart (kcache l) toQwenSizes.kvBytes (vcache l') toQwenSizes.kvBytes
  kRange : ∀ l < layers, kcache l + toQwenSizes.kvBytes ≤ 2 ^ 64
  vRange : ∀ l < layers, vcache l + toQwenSizes.kvBytes ≤ 2 ^ 64

namespace QwenKv

/-- The append of `step_multi` for one entry in layer `l`; `step` is the one of
slot 0. -/
def appendWrites (c : QwenKv) (l seq pos : Nat) (k v : DeviceVec) : List (Nat × List UInt8) :=
  kvAppendWrites c.elem k v (c.kcache l + c.seqOff seq) (c.vcache l + c.seqOff seq)
    (asI32 c.kvHeads) (asI32 c.headDim) (asI32 pos) (asI32 c.maxSeq)

/-- The device addresses of the loops of `kv_export` and `kv_import`, in order. -/
def devs (c : QwenKv) (headStride slotOff : Nat) : List Nat :=
  (List.range c.layers).flatMap fun l =>
    [c.kcache l, c.vcache l].flatMap fun base =>
      (List.range c.kvHeads).map fun h => base + slotOff + h * headStride

def kvFrames (c : QwenKv) (seq len : Nat) : Except KvError (List Frame) := do
  let (run, headStride, slotOff) ← c.kvGeometry seq len
  .ok (Lib.framed run (c.devs headStride slotOff) 0)

end QwenKv

/-! ### Kimi -/

/-- The sizes that a `KimiDecoder`'s MLA cache depends on. -/
structure KimiSizes where
  layers : Nat
  kvLora : Nat
  rope : Nat
  maxSeq : Nat
  batchCap : Nat

namespace KimiSizes

def qk (c : KimiSizes) : Nat := c.kvLora + c.rope

/-- The bytes of a layer's allocation. -/
def kvBytes (c : KimiSizes) : Nat := c.batchCap * c.maxSeq * c.qk * 4

def kvBytesPerToken (c : KimiSizes) : Nat := c.layers * (c.kvLora + c.rope) * 4

/-- The run of a layer and the offset of the slot. -/
def kvGeometry (c : KimiSizes) (seq len : Nat) : Except KvError (Nat × Nat) :=
  if c.batchCap ≤ seq then .error (.slotExceedsCap seq c.batchCap)
  else if c.maxSeq < len then .error (.lenExceedsMaxSeq len c.maxSeq)
  else .ok (len * c.qk * 4, seq * c.maxSeq * c.qk * 4)

end KimiSizes

/-- A `KimiDecoder`'s cache, one allocation a layer. -/
structure KimiKv extends KimiSizes where
  cache : Nat → Nat
  cacheApart : ∀ l < layers, ∀ l' < layers, l ≠ l' →
    Apart (cache l) toKimiSizes.kvBytes (cache l') toKimiSizes.kvBytes
  cacheRange : ∀ l < layers, cache l + toKimiSizes.kvBytes ≤ 2 ^ 64

namespace KimiKv

/-- The append of `step_multi` for one entry in layer `l`: the normed latent, then
the rope slice of `kva`. -/
def appendWrites (c : KimiKv) (l seq pos : Nat) (ckvNorm kva : DeviceVec) :
    List (Nat × List UInt8) :=
  let qk := asI32 (c.kvLora + c.rope)
  let cacheL := c.cache l + seq * c.maxSeq * c.qk * 4
  let row := wrapI32 (asI32 pos * qk)
  stridedCopyWrites ckvNorm (asI32 c.kvLora) 0 cacheL qk row 1 (asI32 c.kvLora) ++
    stridedCopyWrites kva qk (asI32 c.kvLora) cacheL qk (wrapI32 (row + asI32 c.kvLora)) 1
      (asI32 c.rope)

def kvFrames (c : KimiKv) (seq len : Nat) : Except KvError (List Frame) := do
  let (run, slotOff) ← c.kvGeometry seq len
  .ok ((List.range c.layers).map fun l => ⟨c.cache l + slotOff, l * run, (l + 1) * run⟩)

end KimiKv

/-! ### Either engine -/

/-- `AnyDecoder`, as far as its KV cache goes. -/
inductive AnyKv
  | qwen (c : QwenKv)
  | kimi (c : KimiKv)

namespace AnyKv

def layers : AnyKv → Nat
  | qwen c => c.layers
  | kimi c => c.layers

def maxSeq : AnyKv → Nat
  | qwen c => c.maxSeq
  | kimi c => c.maxSeq

def batchCap : AnyKv → Nat
  | qwen c => c.batchCap
  | kimi c => c.batchCap

def kvBytesPerToken : AnyKv → Nat
  | qwen c => c.kvBytesPerToken
  | kimi c => c.kvBytesPerToken

/-- The device allocations of a layer. -/
def buffers : AnyKv → Nat → List Nat
  | qwen c, l => [c.kcache l, c.vcache l]
  | kimi c, l => [c.cache l]

/-- The bytes of each of them. -/
def kvBytes : AnyKv → Nat
  | qwen c => c.kvBytes
  | kimi c => c.kvBytes

def appendWrites : AnyKv → Nat → Nat → Nat → DeviceVec → DeviceVec → List (Nat × List UInt8)
  | qwen c => c.appendWrites
  | kimi c => c.appendWrites

/-- The copies of `kv_export` and, the other way, of `kv_import`. -/
def kvFrames : AnyKv → Nat → Nat → Except KvError (List Frame)
  | qwen c => c.kvFrames
  | kimi c => c.kvFrames

/-- The length of the blob: `kv_bytes_per_token * len`, or `layers * run`. -/
def blobLen : AnyKv → Nat → Nat
  | qwen c, len => c.kvBytesPerToken * len
  | kimi c, len => c.layers * (len * c.qk * 4)

def kvExport (c : AnyKv) (m : Mem) (seq len : Nat) : Except KvError (List UInt8) := do
  let frames ← c.kvFrames seq len
  match Lib.copyOut m frames (List.replicate (c.blobLen len) 0) with
  | some out => .ok out
  | none => .error .sliceRange

def kvImport (c : AnyKv) (m : Mem) (seq len : Nat) (blob : List UInt8) : Except KvError Mem := do
  let frames ← c.kvFrames seq len
  if blob.length ≠ c.blobLen len then .error (.blobLen blob.length (c.blobLen len) len)
  else
    match Lib.copyIn blob frames m with
    | some m' => .ok m'
    | none => .error .sliceRange

/-- What happens to the cache between two requests: entries of `step` and
`step_multi`, and imports. -/
inductive Op
  | append (l seq pos : Nat) (x y : DeviceVec)
  | kvImport (seq len : Nat) (blob : List UInt8)

/-- One operation; one that is refused changes nothing. -/
def exec (c : AnyKv) (m : Mem) : Op → Mem
  | .append l seq pos x y =>
      if l < c.layers ∧ pos < c.maxSeq ∧ seq < c.batchCap then
        m.writeAll (c.appendWrites l seq pos x y)
      else m
  | .kvImport seq len blob => (c.kvImport m seq len blob).toOption.getD m

def run (c : AnyKv) (m : Mem) (ops : List Op) : Mem := ops.foldl c.exec m

end AnyKv

end LlmPager
