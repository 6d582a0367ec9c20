import LlmPager.Core.Dequant
import LlmPager.Lib.Launch
import LlmPager.Run.ExpertGemv

/-!
# LlmPager.Run.GemvKernel

The q4 GEMVs of `q4g64.cu`, `q4g64_gemv` and `q4g64_gemv_batch`, in exact arithmetic: a
warp for each row, a lane for every thirty-second group of it.

Device memory is bytes at addresses; the inputs and outputs are floats, counted from the
address of the first. A load whose address is not a multiple of its size is a trap, and
one ends the launch (`none`). What of a row each lane uses, and with which element of
`x`, is also listed for itself (`laneUses`).
-/

namespace LlmPager

open Lib (leNat strided warpReduce store binary16)

namespace Gemv

/-! ### Loads -/

section Loads

variable (mem : Nat → UInt8)

def loadHalf (a : Nat) : Option UInt16 :=
  if a % 2 = 0 then some (UInt16.ofNat (leNat ((List.range 2).map fun i => mem (a + i)))) else none

def loadWord (a : Nat) : Option UInt32 :=
  if a % 4 = 0 then some (UInt32.ofNat (leNat ((List.range 4).map fun i => mem (a + i)))) else none

end Loads

structure Float4 where
  x : ℚ
  y : ℚ
  z : ℚ
  w : ℚ

/-- Four floats from element `i` of a vector at `addr`. -/
def loadFloat4 (addr : Nat) (v : Nat → ℚ) (i : Nat) : Option Float4 :=
  if (addr + 4 * i) % 16 = 0 then some ⟨v i, v (i + 1), v (i + 2), v (i + 3)⟩ else none

/-! ### Unpacking -/

/-- `__half22float2(__hsub2(t, bias))`: the two halves of a word, less `1032`. -/
def unbias (t : UInt32) : ℚ × ℚ :=
  (binary16.value (t &&& 0xFFFF).toNat - 1032, binary16.value (t >>> 16).toNat - 1032)

/-- `((b >> shift) & 0x000F000F) | 0x64006400`. -/
def magic (b shift : UInt32) : UInt32 := ((b >>> shift) &&& 0x000F000F) ||| 0x64006400

/-- The sum over a word of weights: its eight nibbles, in pairs four apart. -/
def wordSum (b : UInt32) (xa xb : Float4) (sum : ℚ) : ℚ :=
  let v0 := unbias (magic b 0)
  let v1 := unbias (magic b 4)
  let v2 := unbias (magic b 8)
  let v3 := unbias (magic b 12)
  let sum := sum + (v0.1 * xa.x + v0.2 * xb.x)
  let sum := sum + (v1.1 * xa.y + v1.2 * xb.y)
  let sum := sum + (v2.1 * xa.z + v2.2 * xb.z)
  sum + (v3.1 * xa.w + v3.2 * xb.w)

/-! ### A row -/

/-- A vector in device memory. -/
structure Vec where
  addr : Nat
  elems : Nat → ℚ

/-- The vector from element `i` on. -/
def Vec.from (v : Vec) (i : Nat) : Vec := ⟨v.addr + 4 * i, fun j => v.elems (i + j)⟩

variable (mem : Nat → UInt8) (a : GemvArgs) (x : Vec)

/-- What group `g` of a row adds. -/
def groupTerm (row g : Nat) : Option ℚ := do
  let s ← loadHalf mem (a.scaleAddr row g)
  let sf := binary16.value s.toNat
  let x4 := x.from (g * a.group.toNat)
  let sum ← (List.range a.words.toNat).foldlM (fun sum (i : Nat) => do
    let b ← loadWord mem (a.wordAddr row g i)
    let xa ← loadFloat4 x4.addr x4.elems (4 * (2 * i))
    let xb ← loadFloat4 x4.addr x4.elems (4 * (2 * i + 1))
    return wordSum b xa xb sum) 0
  return sf * sum

def laneAcc (row lane : Nat) : Option ℚ :=
  (strided lane 32 a.groups.toNat).foldlM (fun acc g => do return acc + (← groupTerm mem a x row g)) 0

/-- A warp: the lanes' sums, and what lane 0 writes. -/
def warp (row : Nat) (yAt : Nat) : Option (List (Nat × ℚ)) := do
  if a.rows ≤ row then return []
  let accs ← (List.range 32).mapM (laneAcc mem a x row)
  return [(yAt + row, warpReduce (fun lane => accs.getD lane 0) 0)]

/-- `((rows as u32).div_ceil(WARPS), 1, 1)`, four warps in a block: the rows of the warps. -/
def gridRows (rows : Nat) : List Nat :=
  (List.range ((rows + 3) / 4)).flatMap fun block => (List.range 4).map fun w => block * 4 + w

/-- `q4g64_gemv`, of the tensor at `blob`. -/
def q4g64Gemv (blob : Nat) (x : Vec) (y : Nat → ℚ) (rows cols group : Nat) : Option (Nat → ℚ) := do
  let writes ← (gridRows rows).mapM fun row => warp mem ⟨blob, rows, cols, group⟩ x row 0
  return store y writes.flatten

/-- `((rows as u32).div_ceil(WARPS), experts as u32, 1)`: the expert and the row of each warp. -/
def batchGrid (rows experts : Nat) : List (Nat × Nat) :=
  (List.range experts).flatMap fun e => (gridRows rows).map fun row => (e, row)

/-- `q4g64_gemv_batch`: expert `e` has its blob, its input and its block of `y`. -/
def q4g64GemvBatch (blobs : Nat → Nat) (regionOff : Nat) (x : Vec) (xStride : Nat) (y : Nat → ℚ)
    (rows cols group experts : Nat) : Option (Nat → ℚ) := do
  let writes ← (batchGrid rows experts).mapM fun w =>
    warp mem ⟨blobs w.1 + regionOff, rows, cols, group⟩ (x.from (w.1 * xStride)) w.2 (w.1 * rows)
  return store y writes.flatten

/-! ### Uses -/

/-- A nibble of a row, with the element of `x` that it is multiplied with. -/
structure Use where
  group : Nat
  word : Nat
  nibble : Nat
  elem : Nat
  deriving Repr, DecidableEq

/-- What a lane uses of a row, in its order. -/
def laneUses (groups group lane : Nat) : List Use :=
  (strided lane 32 groups).flatMap fun g =>
    (List.range (group / 8)).flatMap fun i =>
      (List.range 4).flatMap fun n =>
        [⟨g, i, n, g * group + (4 * (2 * i) + n)⟩, ⟨g, i, n + 4, g * group + (4 * (2 * i + 1) + n)⟩]

/-- Every nibble of the row, with the element of `x` in its column. -/
def rowUses (cols group : Nat) : List Use :=
  (List.range cols).map fun c => ⟨c / group, c % group / 8, c % 8, c⟩

end Gemv

end LlmPager
