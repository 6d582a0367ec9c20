import LlmPager.Convert.Blob
import LlmPager.Core.SafeTensors

/-!
# LlmPager.Convert.Shards

A checkpoint as it is in its directory: the shards that its index names, or the one shard
`model.safetensors`, and where in them each tensor is (`Checkpoint::open` of `lib.rs`).

`Checkpoint.view` is what the builders of the blobs see of it.
-/

namespace LlmPager

open Lib (Json JsonCodec)

namespace Shards

structure TensorLoc where
  file : Nat
  dtype : String
  shape : List UInt64
  /-- Absolute byte range within the shard file. -/
  start : UInt64
  stop : UInt64
  deriving Repr, DecidableEq

structure Checkpoint where
  files : List (List UInt8)
  tensors : Std.TreeMap String TensorLoc
  config : Json

/-- `loc.end - loc.start`. -/
def TensorLoc.size (loc : TensorLoc) : Except TensorError UInt64 :=
  if loc.stop < loc.start then .error .panic else .ok (loc.stop - loc.start)

namespace Checkpoint

/-- `self.tensors[name]`. -/
def tensor (ckpt : Checkpoint) (name : String) : Except TensorError TensorLoc :=
  match ckpt.tensors[name]? with
  | some loc => .ok loc
  | none => .error .panic

def readRaw (ckpt : Checkpoint) (loc : TensorLoc) (alloc : Nat → Bool := fun _ => true) :
    Except TensorError (List UInt8) := do
  let n ← loc.size
  match ckpt.files[loc.file]? with
  | some file => readVec file n loc.start alloc
  | none => .error .panic

/-- What the builders of the blobs see of it. -/
def view (ckpt : Checkpoint) : LlmPager.Checkpoint where
  tensors name := ckpt.tensors[name]?.map fun loc =>
    ⟨loc.dtype, loc.shape.map UInt64.toNat, (ckpt.readRaw loc).toOption⟩

end Checkpoint

/-! ### Opening -/

/-- A directory: the bytes of each file in it. -/
structure ModelDir where
  path : String
  files : String → Option (List UInt8)

namespace Checkpoint

def parse (codec : JsonCodec) (bytes : List UInt8) : Except TensorError Json :=
  match codec.fromSlice bytes with
  | some v => .ok v
  | none => .error .json

def readConfig (codec : JsonCodec) (dir : ModelDir) : Except TensorError Json :=
  match dir.files "config.json" with
  | some bytes => parse codec bytes
  | none => .error .readingConfig

/-- The shards, sorted and each once. -/
def shardNames (codec : JsonCodec) (dir : ModelDir) : Except TensorError (List String) :=
  match dir.files "model.safetensors.index.json" with
  | none => .ok ["model.safetensors"]
  | some bytes => do
      let idx ← parse codec bytes
      match (idx.get "weight_map").asObject with
      | none => .error .missingWeightMap
      | some map =>
          return ((map.filterMap fun kv => kv.2.asStr).mergeSort (· ≤ ·)).destutter (· ≠ ·)

/-- One turn of the loop over a shard's entries. -/
def openEntry (fidx : Nat) (dataBase : UInt64) (tensors : Std.TreeMap String TensorLoc)
    (kv : String × Json) : Except TensorError (Std.TreeMap String TensorLoc) :=
  if kv.1 = "__metadata__" then .ok tensors
  else (tensorInfo dataBase kv.1 kv.2).map fun info =>
    tensors.insert kv.1 ⟨fidx, info.dtype, info.shape, info.start, info.stop⟩

/-- One turn of the loop over the shards. -/
def openShard (codec : JsonCodec) (dir : ModelDir) (alloc : Nat → Bool) (ckpt : Checkpoint)
    (name : String) : Except TensorError Checkpoint :=
  match dir.files name with
  | none => .error (.opening (dir.path ++ "/" ++ name))
  | some file => do
      let h ← readJsonHeader codec file alloc
      let tensors ← h.entries.foldlM (openEntry ckpt.files.length h.dataBase) ckpt.tensors
      return { ckpt with files := ckpt.files ++ [file], tensors := tensors }

/-- `Checkpoint::open`. -/
def openDir (codec : JsonCodec) (dir : ModelDir) (alloc : Nat → Bool := fun _ => true) :
    Except TensorError Checkpoint := do
  let config ← readConfig codec dir
  let names ← shardNames codec dir
  names.foldlM (openShard codec dir alloc) ⟨[], ∅, config⟩

end Checkpoint

end Shards

end LlmPager
