import LlmPager.Lib.Bytes
import LlmPager.Lib.Json
import LlmPager.Lib.Reader

/-!
# LlmPager.Core.SafeTensors

The safetensors reader (`llmpager-core/src/st.rs`): a `u64` header length, a JSON header
from tensor name to dtype, shape and data offsets, then the data.

A file is its bytes. A read past the end of the file fails, a read of nothing succeeds
anywhere. `alloc` is what the allocator grants: everything, where nothing else is said. The
field `end` is `stop` here, and `open` is `openFile`.
-/

namespace LlmPager

open Lib (leNat slice Json JsonCodec Allocates)

inductive TensorError
  | readingConfig
  | missingWeightMap
  | opening (path : String)
  | badHeader
  | missingOffsets (name : String)
  | notFound (name : String)
  | json
  /-- What the system answers a read past the end of a file, or a write past the largest. -/
  | io
  /-- An index out of range, an overflow, or no memory. -/
  | panic
  deriving Repr, DecidableEq

/-- The texts of the errors that the source words itself. -/
def TensorError.message : TensorError → Option String
  | readingConfig => some "reading config.json"
  | missingWeightMap => some "index.json missing weight_map"
  | opening path => some ("opening " ++ path)
  | badHeader => some "bad safetensors header"
  | missingOffsets name => some (name ++ ": missing data_offsets")
  | notFound name => some ("tensor " ++ name ++ " not found")
  | _ => none

structure TensorInfo where
  dtype : String
  shape : List UInt64
  /-- Absolute byte range within the file. -/
  start : UInt64
  stop : UInt64
  deriving Repr, DecidableEq

/-! ### Reading -/

/-- `read_exact_at`, of a buffer of `n` bytes. -/
def readExactAt (file : List UInt8) (n off : Nat) : Except TensorError (List UInt8) :=
  if n = 0 then .ok []
  else if off + n ≤ file.length then .ok (slice off n file)
  else .error .io

/-- The same, into a new vector of `n` bytes. -/
def readVec (file : List UInt8) (n off : UInt64) (alloc : Nat → Bool := fun _ => true) :
    Except TensorError (List UInt8) :=
  if Allocates alloc n.toNat then readExactAt file n.toNat off.toNat else .error .panic

theorem readVec_of_lt {file : List UInt8} {n off : UInt64} (h : n.toNat < 2 ^ 63) :
    readVec file n off = readExactAt file n.toNat off.toNat := if_pos (Lib.allocates_all.mpr h)

/-- The entries of a header, and where the data behind it begins. -/
structure Header where
  dataBase : UInt64
  entries : List (String × Json)

def readJsonHeader (codec : JsonCodec) (file : List UInt8) (alloc : Nat → Bool := fun _ => true) :
    Except TensorError Header := do
  let headerLen := UInt64.ofNat (leNat (← readExactAt file 8 0))
  let hdr ← readVec file headerLen 8 alloc
  match codec.fromSlice hdr with
  | none => .error .json
  | some header =>
      match header.asObject with
      | none => .error .badHeader
      | some entries => .ok ⟨8 + headerLen, entries⟩

/-- `data_base + offset`. -/
def addOffset (dataBase offset : UInt64) : Except TensorError UInt64 :=
  if 2 ^ 64 ≤ dataBase.toNat + offset.toNat then .error .panic else .ok (dataBase + offset)

theorem addOffset_of_lt {dataBase offset : UInt64} (h : dataBase.toNat + offset.toNat < 2 ^ 64) :
    addOffset dataBase offset = .ok (dataBase + offset) := if_neg (not_le.mpr h)

theorem addOffset_of_le {dataBase offset : UInt64} (h : 2 ^ 64 ≤ dataBase.toNat + offset.toNat) :
    addOffset dataBase offset = .error .panic := if_pos h

/-- What a header says of a tensor. -/
def tensorInfo (dataBase : UInt64) (name : String) (info : Json) : Except TensorError TensorInfo :=
  match (info.get "data_offsets").asArray with
  | none => .error (.missingOffsets name)
  | some (start :: stop :: _) => do
      let start ← addOffset dataBase (start.asU64.getD 0)
      let stop ← addOffset dataBase (stop.asU64.getD 0)
      return {
        dtype := (info.get "dtype").asStr.getD ""
        shape := ((info.get "shape").asArray.map (List.filterMap Json.asU64)).getD []
        start := start
        stop := stop }
  | some _ => .error .panic

structure SafeTensors where
  file : List UInt8
  tensors : Std.TreeMap String TensorInfo

namespace SafeTensors

/-- One turn of the loop over the header's entries. -/
def openEntry (dataBase : UInt64) (tensors : Std.TreeMap String TensorInfo) (kv : String × Json) :
    Except TensorError (Std.TreeMap String TensorInfo) :=
  if kv.1 = "__metadata__" then .ok tensors
  else (tensorInfo dataBase kv.1 kv.2).map (tensors.insert kv.1)

def openFile (codec : JsonCodec) (file : List UInt8) (alloc : Nat → Bool := fun _ => true) :
    Except TensorError SafeTensors := do
  let h ← readJsonHeader codec file alloc
  let tensors ← h.entries.foldlM (openEntry h.dataBase) ∅
  return ⟨file, tensors⟩

def names (st : SafeTensors) : List String := st.tensors.keys

def info (st : SafeTensors) (name : String) : Except TensorError TensorInfo :=
  match st.tensors[name]? with
  | some info => .ok info
  | none => .error (.notFound name)

/-- Raw bytes, source dtype. -/
def raw (st : SafeTensors) (name : String) (alloc : Nat → Bool := fun _ => true) :
    Except TensorError (List UInt8 × TensorInfo) := do
  let info ← st.info name
  if info.stop < info.start then .error .panic
  else
    let buf ← readVec st.file (info.stop - info.start) info.start alloc
    return (buf, info)

end SafeTensors

end LlmPager
