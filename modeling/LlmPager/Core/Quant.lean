import LlmPager.Lib.Bytes
import LlmPager.Lib.Machine

/-!
# LlmPager.Core.Quant

The q4 tensors of `quant.rs`: all scales first, then all nibbles, row by row.

An `f32` is its bits. The arithmetic on them is a parameter (`FloatOps`), as no
address depends on it; what a buffer does not hold, the error of the rounding,
is left out. `none` is a panic, a slice out of range.
-/

namespace LlmPager

open Lib (leBytes slice poke pokeAll asU8)

def GROUP : Nat := 64

/-- Bytes a q4 tensor occupies at a given group size: scales then data. -/
def q4Bytes (rows cols group : Nat) : Nat := rows * (cols / group) * 2 + rows * cols / 2

def q4g64Bytes (rows cols : Nat) : Nat := q4Bytes rows cols GROUP

/-- The float arithmetic of `q4_quantize`. -/
structure FloatOps where
  /-- The rounded scale of a group's values. -/
  scaleOf : List UInt32 → UInt32
  /-- `quantize_one`: `q + 8`. -/
  quantizeOne : UInt32 → UInt32 → Int

/-- `f32_to_f16_bits`. -/
def f32ToF16Bits (b : UInt32) : UInt16 :=
  let sign := ((b >>> 16) &&& 0x8000).toUInt16
  let exp := ((b >>> 23) &&& 0xFF).toNat
  let frac := b &&& 0x7FFFFF
  if exp = 0xFF then sign ||| 0x7C00 ||| (if frac ≠ 0 then 0x200 else 0)
  else
    let e : Int := (exp : Int) - 127 + 15
    if 0x1F ≤ e then sign ||| 0x7C00
    else if e ≤ 0 then
      if e < -10 then sign
      else
        let m := (frac ||| 0x800000) >>> UInt32.ofNat (1 - e).toNat
        sign ||| ((m + 0x1000) >>> 13).toUInt16
    else sign ||| (UInt32.ofNat e.toNat <<< 10).toUInt16 ||| ((frac + 0x1000) >>> 13).toUInt16

/-- `(q0 as u8 & 0x0F) | ((q1 as u8 & 0x0F) << 4)`. -/
def packNibbles (q0 q1 : Int) : UInt8 :=
  (asU8 q0 &&& (0x0F : UInt8)) ||| ((asU8 q1 &&& (0x0F : UInt8)) <<< (4 : UInt8))

inductive QuantError
  | cols (cols group : Nat)
  | src (len rows cols : Nat)
  | dst (len want : Nat)
  deriving Repr, DecidableEq

def QuantError.message : QuantError → String
  | cols n group =>
      "cols " ++ toString n ++ " not compatible with group " ++ toString group
  | src len rows n =>
      "src length " ++ toString len ++ " != " ++ toString rows ++ "x" ++ toString n
  | dst len want => "dst length " ++ toString len ++ " != " ++ toString want

/-- The values of a group. -/
def groupVals (src : List UInt32) (cols group r g : Nat) : List UInt32 :=
  slice (r * cols + g * group) group src

/-- The scale bytes of a group. -/
def scaleBytes (ops : FloatOps) (vals : List UInt32) : List UInt8 :=
  leBytes 2 (f32ToF16Bits (ops.scaleOf vals)).toNat

/-- Byte `i` of a group's nibbles. -/
def nibbleByte (ops : FloatOps) (vals : List UInt32) (i : Nat) : UInt8 :=
  let scale := ops.scaleOf vals
  packNibbles (ops.quantizeOne (vals.getD (2 * i) 0) scale)
    (ops.quantizeOne (vals.getD (2 * i + 1) 0) scale)

/-- The writes of `q4_quantize` to the `scales` half of `dst`. -/
def quantizeScaleWrites (ops : FloatOps) (src : List UInt32) (rows cols group : Nat) :
    List (Nat × List UInt8) :=
  let groupsPerRow := cols / group
  (List.range rows).flatMap fun r =>
    (List.range groupsPerRow).map fun g =>
      let sidx := (r * groupsPerRow + g) * 2
      (sidx, scaleBytes ops (groupVals src cols group r g))

/-- The writes of `q4_quantize` to the `data` half. -/
def quantizeDataWrites (ops : FloatOps) (src : List UInt32) (rows cols group : Nat) :
    List (Nat × List UInt8) :=
  (List.range rows).flatMap fun r =>
    (List.range (cols / group)).flatMap fun g =>
      let base := r * cols / 2 + g * group / 2
      (List.range (group / 2)).map fun i =>
        (base + i, [nibbleByte ops (groupVals src cols group r g) i])

/-- `q4_quantize` into a `dst` of zeros. The loop fills the two halves of the
buffer side by side; here one after the other. -/
def q4Quantize (ops : FloatOps) (src : List UInt32) (rows cols group : Nat) (dst : List UInt8) :
    Option (Except QuantError (List UInt8)) :=
  if group = 0 ∨ group % 8 ≠ 0 ∨ cols % group ≠ 0 then some (.error (.cols cols group))
  else if src.length ≠ rows * cols then some (.error (.src src.length rows cols))
  else if dst.length ≠ q4Bytes rows cols group then
    some (.error (.dst dst.length (q4Bytes rows cols group)))
  else do
    let scalesLen := rows * (cols / group) * 2
    let scales ← pokeAll (dst.take scalesLen) (quantizeScaleWrites ops src rows cols group)
    let data ← pokeAll (dst.drop scalesLen) (quantizeDataWrites ops src rows cols group)
    pure (.ok (scales ++ data))

end LlmPager
