import LlmPager.Convert.Blob
import LlmPager.Run.Resize

/-!
# LlmPager.Run.ExpertGemv

The readers of an expert's blob: the region offsets of `Decoder::new` and
`KimiDecoder::new`, the three GEMVs of an expert, and what the threads of
`q4g64_gemv_batch` read.

Addresses are counted from the blob's first byte (`blobs[e]`); they are a
`size_t`. The kernel takes its dimensions as `int`.
-/

namespace LlmPager

open Lib (asI32 sizeT)

/-- The regions of a blob, and its group. -/
structure Regions where
  gateOff : Nat
  upOff : Nat
  downOff : Nat
  expertGroup : Nat
  deriving Repr, DecidableEq

def q4Regions (moeInter hidden expertGroup : Nat) : Regions :=
  let gateBytes := q4Bytes moeInter hidden expertGroup
  { gateOff := 32
    upOff := 32 + gateBytes
    downOff := 32 + 2 * gateBytes
    expertGroup := expertGroup }

/-- `Decoder::new`: the regions, from the pack's dtype and the model's config. -/
def Qwen.regions (dtype : String) (moeInter hidden : Nat) : Except String Regions :=
  match dtype with
  | "q4g64-gud" => .ok (q4Regions moeInter hidden 64)
  | "q4g32-gud" => .ok (q4Regions moeInter hidden 32)
  | other => .error ("pack dtype " ++ other ++ " unsupported (want q4g64-gud or q4g32-gud)")

/-- `KimiDecoder::new`. -/
def Kimi.regions (dtype : String) (moeInter hidden : Nat) : Except String Regions :=
  match dtype with
  | "q4g32-gud" => .ok (q4Regions moeInter hidden 32)
  | "q4g64-gud" => .ok (q4Regions moeInter hidden 64)
  | other => .error ("pack dtype " ++ other ++ " unsupported")

/-- The arguments of `q4g64_gemv_batch` that its addresses depend on. -/
structure GemvArgs where
  regionOff : Nat
  rows : Int
  cols : Int
  group : Int
  deriving Repr, DecidableEq

/-- The GEMVs of an expert, of `step` and of `step_multi`. -/
def Regions.gemv (r : Regions) (moeInter hidden : Nat) : Proj → GemvArgs
  | .gate => ⟨r.gateOff, asI32 moeInter, asI32 hidden, r.expertGroup⟩
  | .up => ⟨r.upOff, asI32 moeInter, asI32 hidden, r.expertGroup⟩
  | .down => ⟨r.downOff, asI32 hidden, asI32 moeInter, r.expertGroup⟩

namespace GemvArgs

/-- `cols / group`. -/
def groups (a : GemvArgs) : Int := Int.tdiv a.cols a.group

/-- `group >> 3`. -/
def words (a : GemvArgs) : Int := a.group / 8

/-- The address of the scale of group `g` of a row, two bytes. -/
def scaleAddr (a : GemvArgs) (row g : Int) : Nat :=
  sizeT (a.regionOff + (row * a.groups + g) * 2)

/-- The address of word `i` of the group's nibbles, four bytes. -/
def wordAddr (a : GemvArgs) (row g i : Int) : Nat :=
  sizeT (a.regionOff + a.rows * a.groups * 2 + row * (a.cols / 2) + g * (a.group / 2) + 4 * i)

/-- A thread gets to group `g` of a row. -/
structure Visits (a : GemvArgs) (row g : Int) : Prop where
  row_nonneg : 0 ≤ row
  row_lt : row < a.rows
  g_nonneg : 0 ≤ g
  g_lt : g < a.groups

end GemvArgs

end LlmPager
