import LlmPager.Core.Quant

/-!
# LlmPager.Convert.Blob

An expert's blob as the converter writes it: `build_blob` of `lib.rs` quantises
the three projections, `build_kimi_blob` of `kimi.rs` repacks them from int4.

A checkpoint is its tensors by name, each with what `read_raw` returns of it;
`none` from a builder is a panic.
-/

namespace LlmPager

open Lib (leBytes leNat slice pokeAll)

/-- A tensor of the checkpoint: what its header says, and its bytes (`none` where
reading them fails). -/
structure TensorLoc where
  dtype : String
  shape : List Nat
  raw : Option (List UInt8)

structure Checkpoint where
  tensors : String → Option TensorLoc

inductive Proj
  | gate
  | up
  | down
  deriving Repr, DecidableEq

namespace Proj

def all : List Proj := [.gate, .up, .down]

def index : Proj → Nat
  | gate => 0
  | up => 1
  | down => 2

end Proj

inductive BlobError
  | missingExpert (layer expert : Nat) (p : Proj)
  | notFound (name : String)
  | read
  | dtype (name dtype : String)
  | shape (name : String) (shape : List Nat)
  | cols (name : String) (cols : Nat)
  | quant (e : QuantError)
  | missingPacked (layer expert : Nat) (p : Proj)
  | partNotFound (name : String)
  | dtypes (base packed scale : String)
  | packedShape (base : String) (shape : List Nat) (rows words : Nat)
  | scaleShape (base : String) (shape : List Nat) (rows groups : Nat)
  deriving Repr, DecidableEq

/-- A list as `{:?}` prints it. -/
def debugShape (shape : List Nat) : String :=
  "[" ++ String.intercalate ", " (shape.map toString) ++ "]"

def BlobError.message : BlobError → Option String
  | missingExpert l e p =>
      some ("missing expert tensor (layer " ++ toString l ++ ", expert " ++ toString e ++ ", proj " ++
        toString p.index ++ ")")
  | notFound name => some ("tensor " ++ name ++ " not found")
  | read => none
  | dtype name other => some (name ++ ": unsupported dtype " ++ other)
  | shape name got => some (name ++ ": expected 2-D, got " ++ debugShape got)
  | cols name n =>
      some (name ++ ": cols " ++ toString n ++ " not a multiple of " ++ toString GROUP)
  | quant e => some e.message
  | missingPacked l e p =>
      some ("missing packed expert (moe layer " ++ toString l ++ ", expert " ++ toString e ++
        ", proj " ++ toString p.index ++ ")")
  | partNotFound name => some (name ++ " not found")
  | dtypes base packed scale =>
      some (base ++ ": unexpected dtypes " ++ packed ++ " / " ++ scale)
  | packedShape base got rows words =>
      some (base ++ ": packed shape " ++ debugShape got ++ " != " ++ debugShape [rows, words])
  | scaleShape base got rows groups =>
      some (base ++ ": scale shape " ++ debugShape got ++ " != " ++ debugShape [rows, groups])

/-- `chunks_exact`. -/
def chunksExact (w : Nat) (raw : List UInt8) : List (List UInt8) :=
  (List.range (raw.length / w)).map fun i => slice (i * w) w raw

/-- `u32::from_le_bytes` of a chunk. -/
def leU32 (c : List UInt8) : UInt32 := UInt32.ofNat (leNat c)

/-- The bits of the `f32` that a bf16 widens to. -/
def bf16ToF32 (c : List UInt8) : UInt32 := UInt32.ofNat (leNat c) <<< 16

namespace Checkpoint

def readRaw (loc : TensorLoc) : Except BlobError (List UInt8) :=
  match loc.raw with
  | some raw => .ok raw
  | none => .error .read

/-- `read_f32`: the bits of the values, and the shape. -/
def readF32 (ckpt : Checkpoint) (name : String) : Except BlobError (List UInt32 × List Nat) :=
  match ckpt.tensors name with
  | none => .error (.notFound name)
  | some loc => do
      let raw ← readRaw loc
      if loc.dtype = "BF16" then .ok ((chunksExact 2 raw).map bf16ToF32, loc.shape)
      else if loc.dtype = "F32" then .ok ((chunksExact 4 raw).map leU32, loc.shape)
      else .error (.dtype name loc.dtype)

end Checkpoint

/-- A projection of the blob: its dimensions and its q4 region. -/
structure Region where
  rows : Nat
  cols : Nat
  bytes : List UInt8
  deriving Repr, DecidableEq

def BLOB_HEADER_BYTES : Nat := 32

/-- The header, then the regions. -/
def assembleBlob (group : Nat) (regions : List Region) : List UInt8 :=
  (regions.flatMap fun r => leBytes 4 r.rows ++ leBytes 4 r.cols) ++ leBytes 4 group ++ leBytes 4 0 ++
    regions.flatMap Region.bytes

/-- The fallible computation of a region, for each projection in order; the first
error or panic ends it. -/
def buildRegions (build : Proj → Option (Except BlobError Region)) :
    List Proj → Option (Except BlobError (List Region))
  | [] => some (.ok [])
  | p :: ps =>
      match build p with
      | none => none
      | some (.error e) => some (.error e)
      | some (.ok r) => (buildRegions build ps).map (Except.map (r :: ·))

/-! ### Quantising -/

/-- One turn of the loop of `build_blob`. -/
def buildRegion (ops : FloatOps) (ckpt : Checkpoint) (names : Proj → Option String)
    (layer expert : Nat) (p : Proj) : Option (Except BlobError Region) :=
  match names p with
  | none => some (.error (.missingExpert layer expert p))
  | some name =>
      match ckpt.readF32 name with
      | .error e => some (.error e)
      | .ok (vals, [rows, cols]) =>
          if cols % GROUP ≠ 0 then some (.error (.cols name cols))
          else
            match q4Quantize ops vals rows cols GROUP (List.replicate (q4g64Bytes rows cols) 0) with
            | none => none
            | some (.error e) => some (.error (.quant e))
            | some (.ok buf) => some (.ok ⟨rows, cols, buf⟩)
      | .ok (_, shape) => some (.error (.shape name shape))

def buildBlob (ops : FloatOps) (ckpt : Checkpoint) (names : Proj → Option String)
    (layer expert : Nat) : Option (Except BlobError (List UInt8)) :=
  (buildRegions (buildRegion ops ckpt names layer expert) Proj.all).map
    (Except.map (assembleBlob GROUP))

/-! ### Repacking -/

def KIMI_GROUP : Nat := 32

/-- `i32::from_le_bytes(..) as usize`: a negative number is a huge one. -/
def i32AsUsize (bs : List UInt8) : Nat :=
  if leNat bs < 2 ^ 31 then leNat bs else leNat bs + (2 ^ 64 - 2 ^ 32)

/-- The dimensions of a packed tensor: those of `weight_shape` when it is there. -/
def kimiDims (ckpt : Checkpoint) (base : String) (packed : TensorLoc) :
    Option (Except BlobError (Nat × Nat)) :=
  match ckpt.tensors (base ++ "_shape") with
  | some loc =>
      match Checkpoint.readRaw loc with
      | .error e => some (.error e)
      | .ok raw =>
          if 8 ≤ raw.length then
            some (.ok (i32AsUsize (slice 0 4 raw), i32AsUsize (slice 4 4 raw)))
          else none
  | none =>
      match packed.shape with
      | rows :: words :: _ => some (.ok (rows, words * 8))
      | _ => none

/-- The scale of chunk `c`, bf16 to f16. -/
def kimiScale (c : List UInt8) : List UInt8 := leBytes 2 (f32ToF16Bits (bf16ToF32 c)).toNat

/-- The scales and the nibble words of a region, copied in order. -/
def repack (scalesRaw packed : List UInt8) (rows cols : Nat) : Option (List UInt8) := do
  let buf := List.replicate (q4Bytes rows cols KIMI_GROUP) 0
  let scalesLen := rows * (cols / KIMI_GROUP) * 2
  let sdst ← pokeAll (buf.take scalesLen)
    ((List.range (scalesRaw.length / 2)).map fun i => (i * 2, kimiScale (slice (i * 2) 2 scalesRaw)))
  let ddst ← pokeAll (buf.drop scalesLen)
    ((List.range (packed.length / 4)).map fun w => (w * 4, slice (w * 4) 4 packed))
  pure (sdst ++ ddst)

/-- One turn of the loop of `build_kimi_blob`. -/
def buildKimiRegion (ckpt : Checkpoint) (names : Proj → Option String) (layer expert : Nat)
    (p : Proj) : Option (Except BlobError Region) :=
  match names p with
  | none => some (.error (.missingPacked layer expert p))
  | some base =>
      match ckpt.tensors (base ++ "_packed") with
      | none => some (.error (.partNotFound (base ++ "_packed")))
      | some packedLoc =>
          match ckpt.tensors (base ++ "_scale") with
          | none => some (.error (.partNotFound (base ++ "_scale")))
          | some scaleLoc =>
              if packedLoc.dtype ≠ "I32" ∨ scaleLoc.dtype ≠ "BF16" then
                some (.error (.dtypes base packedLoc.dtype scaleLoc.dtype))
              else
                match kimiDims ckpt base packedLoc with
                | none => none
                | some (.error e) => some (.error e)
                | some (.ok (rows, cols)) =>
                    if packedLoc.shape ≠ [rows, cols / 8] then
                      some (.error (.packedShape base packedLoc.shape rows (cols / 8)))
                    else if scaleLoc.shape ≠ [rows, cols / KIMI_GROUP] then
                      some (.error (.scaleShape base scaleLoc.shape rows (cols / KIMI_GROUP)))
                    else
                      match Checkpoint.readRaw packedLoc, Checkpoint.readRaw scaleLoc with
                      | .ok packed, .ok scalesRaw =>
                          (repack scalesRaw packed rows cols).map fun buf => .ok ⟨rows, cols, buf⟩
                      | .error e, _ => some (.error e)
                      | _, .error e => some (.error e)

def buildKimiBlob (ckpt : Checkpoint) (names : Proj → Option String) (layer expert : Nat) :
    Option (Except BlobError (List UInt8)) :=
  (buildRegions (buildKimiRegion ckpt names layer expert) Proj.all).map
    (Except.map (assembleBlob KIMI_GROUP))

end LlmPager
