import LlmPager.Convert.Shards

/-!
# LlmPager.Convert.CoreFile

The resident core that the converter writes: `write_safetensors_renamed` of `lib.rs`.

The header is made in one pass over the tensors, with their offsets in the data behind it,
and the data is copied in another. The map of the header sorts it by name.
-/

namespace LlmPager

open Lib (leBytes Json JsonCodec)

namespace Shards

/-! ### The core file -/

/-- `json!({"dtype": .., "shape": .., "data_offsets": [cursor, cursor + len]})`. -/
def headerEntry (loc : TensorLoc) (cursor len : UInt64) : Json :=
  .object [("dtype", .str loc.dtype), ("shape", .arr (loc.shape.map .num)),
    ("data_offsets", .arr [.num cursor, .num (cursor + len)])]

structure HeaderState where
  header : Std.TreeMap String Json
  cursor : UInt64

/-- One turn of the loop that makes the header. -/
def headerStep (ckpt : Checkpoint) (st : HeaderState) (pair : String × String) :
    Except TensorError HeaderState := do
  let loc ← ckpt.tensor pair.1
  let len ← loc.size
  return { header := st.header.insert pair.2 (headerEntry loc st.cursor len)
           cursor := st.cursor + len }

def makeHeader (ckpt : Checkpoint) (names : List (String × String)) :
    Except TensorError HeaderState :=
  names.foldlM (headerStep ckpt) ⟨∅, 0⟩

/-- Pad header to 8 bytes for aligned data (spec allows trailing spaces). -/
def padHeader (hdr : List UInt8) : List UInt8 :=
  hdr ++ List.replicate ((8 - hdr.length % 8) % 8) 0x20

/-- One turn of the loop that copies the data. -/
def copyStep (ckpt : Checkpoint) (data : List UInt8) (pair : String × String) :
    Except TensorError (List UInt8) := do
  let loc ← ckpt.tensor pair.1
  return data ++ (← ckpt.readRaw loc)

/-- `write_safetensors_renamed`: the file, and the byte count it returns. A file is shorter
than `2 ^ 63` bytes. -/
def writeSafetensorsRenamed (codec : JsonCodec) (ckpt : Checkpoint) (names : List (String × String)) :
    Except TensorError (List UInt8 × Nat) := do
  let st ← makeHeader ckpt names
  let hdr := padHeader (codec.toVec (.obj st.header.toList))
  let data ← names.foldlM (copyStep ckpt) []
  let file := leBytes 8 hdr.length ++ hdr ++ data
  if 2 ^ 63 ≤ file.length then .error .io
  else return (file, 8 + hdr.length + data.length)

def writeSafetensors (codec : JsonCodec) (ckpt : Checkpoint) (names : List String) :
    Except TensorError (List UInt8 × Nat) :=
  writeSafetensorsRenamed codec ckpt (names.map fun n => (n, n))

end Shards

end LlmPager
