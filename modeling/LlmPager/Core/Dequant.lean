import LlmPager.Core.Quant
import LlmPager.Lib.Float

/-!
# LlmPager.Core.Dequant

The other direction of `quant.rs`: `f16_bits_to_f32`, and the reference dequantisation
`q4_dequantize`.

The product of a nibble's value and a scale is a parameter: it is exact, of 4 bits and
11, where the scale is finite, and then it is that of the rationals (`exactScale`).
-/

namespace LlmPager

open Lib (leNat slice pokeAll binary16 binary32)

/-- `u32::leading_zeros`. -/
def leadingZeros (x : UInt32) : UInt32 := if x = 0 then 32 else UInt32.ofNat (31 - x.toNat.log2)

/-- `f16_bits_to_f32`. -/
def f16BitsToF32 (h : UInt16) : UInt32 :=
  let sign := (h &&& 0x8000).toUInt32 <<< 16
  let exp := ((h >>> 10) &&& 0x1F).toUInt32
  let frac := (h &&& 0x3FF).toUInt32
  if exp = 0 then
    if frac = 0 then sign
    else
      -- subnormal: normalize
      let shift := leadingZeros frac - 21
      sign ||| ((127 - 15 - shift + 1 : UInt32) <<< 23) ||| ((frac <<< (shift + 13)) &&& 0x7FFFFF)
  else if exp = 0x1F then
    if frac = 0 then sign ||| (0x7F800000 : UInt32) else sign ||| (0x7F800000 : UInt32) ||| (frac <<< 13)
  else sign ||| ((exp + 127 - 15 : UInt32) <<< 23) ||| (frac <<< 13)

/-- `f16_round`. -/
def f16Round (x : UInt32) : UInt32 := f16BitsToF32 (f32ToF16Bits x)

/-- `(q - 8) as f32 * scale`, for a scale that is finite. -/
def exactScale (q : Int) (scale : UInt32) : ℚ := q * binary32.value scale.toNat

/-- The values of the bytes, two of each, and where they go. -/
def dequantWrites {V : Type} (mul : Int → UInt32 → V) (scales data : List UInt8)
    (rows cols group : Nat) : List (Nat × List V) :=
  let groupsPerRow := cols / group
  (List.range rows).flatMap fun r =>
    (List.range groupsPerRow).flatMap fun g =>
      let sidx := (r * groupsPerRow + g) * 2
      let scale := f16BitsToF32 (UInt16.ofNat (leNat (slice sidx 2 scales)))
      let base := r * cols / 2 + g * group / 2
      (List.range (group / 2)).map fun i =>
        let b := data.getD (base + i) 0
        (r * cols + g * group + 2 * i,
          [mul ((b &&& 0x0F).toNat - 8) scale, mul ((b >>> 4).toNat - 8) scale])

/-- `q4_dequantize` into `out`; `none` is a panic. By the check of the lengths no index
into `buf` is out of range. -/
def q4Dequantize {V : Type} (mul : Int → UInt32 → V) (buf : List UInt8) (rows cols group : Nat)
    (out : List V) : Option (Except String (List V)) :=
  if group = 0 ∨ cols % group ≠ 0 ∨ buf.length ≠ q4Bytes rows cols group ∨
      out.length ≠ rows * cols then
    some (.error "q4_dequantize: bad dimensions")
  else do
    let scalesLen := rows * (cols / group) * 2
    let out ← pokeAll out
      (dequantWrites mul (buf.take scalesLen) (buf.drop scalesLen) rows cols group)
    return .ok out

/-! ### A region, value by value -/

/-- Scale `i` of a region. -/
def q4Scale (buf : List UInt8) (i : Nat) : UInt16 := UInt16.ofNat (leNat (slice (i * 2) 2 buf))

/-- Nibble `k`, behind that many scales. -/
def q4Nibble (buf : List UInt8) (scales k : Nat) : Nat :=
  let b := buf.getD (scales * 2 + k / 2) 0
  if k % 2 = 0 then (b &&& 0x0F).toNat else (b >>> 4).toNat

/-- Value `k`, of row `k / cols` and column `k % cols`. -/
def q4Value {V : Type} (mul : Int → UInt32 → V) (buf : List UInt8) (rows cols group k : Nat) : V :=
  mul (q4Nibble buf (rows * (cols / group)) k - 8) (f16BitsToF32 (q4Scale buf (k / group)))

variable {V : Type} (mul : Int → UInt32 → V) {buf : List UInt8} {rows cols group : Nat}

theorem dequantWrites_eq (hgroup : 0 < group) (heven : group % 2 = 0) (hcols : group ∣ cols)
    (hbuf : buf.length = q4Bytes rows cols group) :
    dequantWrites mul (buf.take (rows * (cols / group) * 2)) (buf.drop (rows * (cols / group) * 2))
        rows cols group =
      (List.range (rows * (cols / group * (group / 2)))).map fun n =>
        (n * 2, (List.range 2).map fun b => q4Value mul buf rows cols group (n * 2 + b)) := by
  obtain ⟨half, rfl⟩ : ∃ half, group = half * 2 := ⟨group / 2, by omega⟩
  obtain ⟨n, rfl⟩ := hcols
  have hn : half * 2 * n / (half * 2) = n := Nat.mul_div_cancel_left n hgroup
  have hscales : rows * n * 2 ≤ buf.length := by
    rw [hbuf, q4Bytes, hn]
    omega
  unfold dequantWrites
  simp only [hn, Nat.mul_div_cancel half Nat.two_pos, Lib.flatMap_map_range]
  refine List.map_congr_left fun m hm => ?_
  rw [List.mem_range] at hm
  have hhalf : 0 < half := by omega
  -- the number of the byte from its row, its group and its place there
  have hr : m / (n * half) < rows := Nat.div_lt_of_lt_mul (by rwa [Nat.mul_comm])
  have hk := Nat.div_add_mod' m (n * half)
  have hg : m % (n * half) / half < n := by
    rw [Nat.mod_mul_left_div_self]
    exact Nat.mod_lt _ (Nat.pos_of_ne_zero fun h0 => by simp [h0] at hm)
  have hi := Nat.mod_lt (m % (n * half)) hhalf
  have hj := Nat.div_add_mod' (m % (n * half)) half
  generalize m / (n * half) = r at *
  generalize m % (n * half) / half = g at *
  generalize m % (n * half) % half = i at *
  have hm' : m = (r * n + g) * half + i := by rw [← hk, ← hj]; ring
  have hbase : r * (half * 2 * n) / 2 + g * (half * 2) / 2 + i = m := by
    have hrow : r * (half * 2 * n) = r * n * half * 2 := by ring
    rw [hrow, ← Nat.mul_assoc g, Nat.mul_div_cancel _ Nat.two_pos, Nat.mul_div_cancel _ Nat.two_pos,
      hm']
    ring
  have hplace : r * (half * 2 * n) + g * (half * 2) + 2 * i = m * 2 := by rw [hm']; ring
  have hscale : slice ((r * n + g) * 2) 2 (buf.take (rows * n * 2)) =
      slice ((r * n + g) * 2) 2 buf := by
    have hin := Lib.block_lt hr hg
    conv_rhs => rw [← List.take_append_drop (rows * n * 2) buf]
    rw [Lib.slice_append_left]
    rw [List.length_take, Nat.min_eq_left hscales]
    omega
  have hindex : ∀ b < 2, (m * 2 + b) / (half * 2) = r * n + g := by
    intro b hb
    rw [Nat.mul_comm half, ← Nat.div_div_eq_div_mul, Nat.mul_comm m, Nat.mul_add_div Nat.two_pos,
      Nat.div_eq_of_lt hb, Nat.add_zero, hm', Nat.mul_comm _ half, Nat.mul_add_div hhalf,
      Nat.div_eq_of_lt hi, Nat.add_zero]
  have hdata : (buf.drop (rows * n * 2)).getD m 0 = buf.getD (rows * n * 2 + m) 0 := by
    simp [List.getD_eq_getElem?_getD, List.getElem?_drop]
  rw [hbase, hplace, hscale, hdata]
  have hlow : m * 2 / (half * 2) = r * n + g := hindex 0 (by decide)
  have hhigh := hindex 1 (by decide)
  have hbyte : (m * 2 + 1) / 2 = m := by omega
  simp [List.range_succ, q4Value, q4Nibble, q4Scale, hn, hlow, hhigh, hbyte]

theorem q4Dequantize_ok (hgroup : 0 < group) (heven : group % 2 = 0) (hcols : group ∣ cols)
    (hbuf : buf.length = q4Bytes rows cols group) {out : List V} (hout : out.length = rows * cols) :
    q4Dequantize mul buf rows cols group out =
      some (.ok ((List.range (rows * cols)).map (q4Value mul buf rows cols group))) := by
  have hguard : ¬(group = 0 ∨ cols % group ≠ 0 ∨ buf.length ≠ q4Bytes rows cols group ∨
      out.length ≠ rows * cols) := by
    simp [hgroup.ne', Nat.mod_eq_zero_of_dvd hcols, hbuf, hout]
  have hcount : rows * (cols / group * (group / 2)) * 2 = rows * cols := by
    have hhalf : group / 2 * 2 = group := by omega
    rw [Nat.mul_assoc, Nat.mul_assoc, hhalf, Nat.div_mul_cancel hcols]
  unfold q4Dequantize
  rw [if_neg hguard]
  simp only [dequantWrites_eq mul hgroup heven hcols hbuf]
  rw [Lib.pokeAll_range_full (w := 2) (fun _ => by simp) (by rw [hout, hcount]),
    Lib.flatMap_map_range, hcount]
  simp only [Nat.div_add_mod']
  rfl

end LlmPager
