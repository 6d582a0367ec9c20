import LlmPager.Lib.Json
import LlmPager.Lib.Reader
import LlmPager.Lib.Text
import LlmPager.Lib.Utf8

/-!
# LlmPager.Convert.Gguf

The GGUF reader (`gguf.rs`): magic, version, the two counts, then key/values, then tensor
infos; the data begins at the next multiple of the alignment.

A file is its bytes, and the files of a model are given in order; finding the sibling
shards by name is left out. What a header may ask of the machine beyond its own bytes is
kept: nested arrays take a call each, and counts are reserved before they are read (`Host`).
A sum past the largest `u64` is a panic.
-/

namespace LlmPager

open Lib (Allocates Cursor leNat times parseUnsigned)
open Lib.Utf8 (decodeLossy)

def GGUF_MAGIC : UInt32 := 0x46554747

/-- GGML tensor types. -/
inductive GgmlType
  | F32
  | F16
  | BF16
  | Q8_0
  | Q2K
  | Q3K
  | Q4K
  | Q5K
  | Q6K
  | Other (v : UInt32)
  deriving Repr, DecidableEq

def GgmlType.fromU32 (v : UInt32) : GgmlType :=
  match v.toNat with
  | 0 => F32
  | 1 => F16
  | 8 => Q8_0
  | 10 => Q2K
  | 11 => Q3K
  | 12 => Q4K
  | 13 => Q5K
  | 14 => Q6K
  | 30 => BF16
  | _ => Other v

structure GgufTensor where
  file : Nat
  /-- Dims in ggml order, fastest-varying first. -/
  dims : List UInt64
  ty : GgmlType
  /-- Absolute byte offset within its file. -/
  absOffset : Nat
  deriving Repr, DecidableEq

inductive GgufError
  | truncated
  | kvType (ty : UInt32)
  | notGguf
  | version (v : UInt32)
  /-- A slice or a sum out of range, a division by zero, or no memory. -/
  | panic
  deriving Repr, DecidableEq

def GgufError.message (path : String) : GgufError → Option String
  | truncated => some "gguf header truncated"
  | kvType ty => some ("gguf: unknown kv type " ++ toString ty)
  | notGguf => some (path ++ ": not a GGUF file")
  | version v => some (path ++ ": unsupported GGUF version " ++ toString v)
  | panic => none

/-- What the machine has for the walk. -/
structure Host where
  /-- The nested calls that the stack holds. -/
  stack : Nat
  /-- The allocator grants a request of so many bytes. -/
  alloc : Nat → Bool

/-- A request that succeeds. -/
def Host.Grants (host : Host) (bytes : Nat) : Prop := Allocates host.alloc bytes

instance (host : Host) (bytes : Nat) : Decidable (host.Grants bytes) :=
  inferInstanceAs (Decidable (Allocates _ _))

namespace Gguf

/-- A reader of a header. -/
abbrev Walk : Type → Type := EStateM GgufError Cursor

def take (n : Nat) : Walk (List UInt8) := Lib.take .truncated .panic n

def u32 : Walk UInt32 := do
  let b ← take 4
  pure (UInt32.ofNat (leNat b))

def u64 : Walk UInt64 := do
  let b ← take 8
  pure (UInt64.ofNat (leNat b))

/-- `String::from_utf8_lossy`. -/
def lossy (bytes : List UInt8) : String := String.ofList (decodeLossy bytes)

def string : Walk String := do
  let n ← u64
  let s ← take n.toNat
  pure (lossy s)

/-- A value, and its text if it is a number or a text of the kinds that are kept. -/
def skipValue : Nat → UInt32 → Walk (Option String)
  | 0, _ => throw .panic
  | stack + 1, ty =>
      match ty.toNat with
      | 0 | 1 => do
          let _ ← take 1
          pure none
      | 2 | 3 => do
          let _ ← take 2
          pure none
      | 4 | 5 => do
          let n ← u32
          pure (some (toString n))
      | 6 => do
          let _ ← take 4
          pure none
      | 7 => do
          let b ← take 1
          pure (some (toString (decide (b.getD 0 0 ≠ 0))))
      | 8 => do
          let s ← string
          pure (some s)
      | 9 => do
          let ety ← u32
          let count ← u64
          let _ ← times count.toNat (skipValue stack ety)
          pure none
      | 10 | 11 => do
          let n ← u64
          pure (some (toString n))
      | 12 => do
          let _ ← take 8
          pure none
      | _ => throw (.kvType ty)

/-- `Vec::with_capacity(n)`, of items of `size` bytes. -/
def reserve (host : Host) (size n : Nat) : Walk Unit :=
  if host.Grants (n * size) then pure () else throw .panic

def readKv (host : Host) : Walk (String × Option String) := do
  let key ← string
  let ty ← u32
  let val ← skipValue host.stack ty
  pure (key, val)

/-- A tensor's name, dims, type and offset; in memory 64 bytes. -/
structure Info where
  name : String
  dims : List UInt64
  ty : GgmlType
  off : UInt64
  deriving Repr, DecidableEq

def INFO_BYTES : Nat := 64

def readInfo (host : Host) : Walk Info := do
  let name ← string
  let nDims ← u32
  let _ ← reserve host 8 nDims.toNat
  let dims ← times nDims.toNat u64
  let ty ← u32
  let off ← u64
  pure ⟨name, dims, GgmlType.fromU32 ty, off⟩

/-- `alignment = v.parse().unwrap_or(32)`, for the values of that key. -/
def alignmentStep (alignment : Nat) (kv : String × Option String) : Nat :=
  match kv.2 with
  | some v =>
      if kv.1 = "general.alignment" then (parseUnsigned (2 ^ 64) v.toList).getD 32 else alignment
  | none => alignment

/-- Selected metadata, of the first file. -/
def metaStep (fidx : Nat) (metadata : Std.TreeMap String String) (kv : String × Option String) :
    Std.TreeMap String String :=
  match kv.2 with
  | some v =>
      if fidx = 0 ∧ ("general.".toList <+: kv.1.toList ∨ "expert".toList <:+: kv.1.toList) then
        metadata.insert kv.1 v
      else metadata
  | none => metadata

/-- Magic, version, counts, key/values and tensor infos. -/
def readParts (host : Host) : Walk (List (String × Option String) × List Info) := do
  let magic ← u32
  if magic ≠ GGUF_MAGIC then throw .notGguf else do
  let version ← u32
  if ¬ (2 ≤ version ∧ version ≤ 3) then throw (.version version) else do
  let tensorCount ← u64
  let kvCount ← u64
  let kvs ← times kvCount.toNat (readKv host)
  let _ ← reserve host INFO_BYTES tensorCount.toNat
  let infos ← times tensorCount.toNat (readInfo host)
  pure (kvs, infos)

/-- `(pos as u64).div_ceil(alignment) * alignment`. -/
def dataStart (pos alignment : Nat) : Nat :=
  (if pos % alignment = 0 then pos / alignment else pos / alignment + 1) * alignment

structure Header where
  kvs : List (String × Option String)
  infos : List Info
  dataStart : Nat

/-- The walk over a header. The alignment is looked up once all key/values are read. -/
def walk (host : Host) : Walk Header := do
  let parts ← readParts host
  let alignment := parts.1.foldl alignmentStep 32
  let c ← get
  -- `div_ceil` divides by it
  if alignment = 0 then throw .panic
  else
    let start := dataStart c.pos alignment
    if ∃ info ∈ parts.2, 2 ^ 64 ≤ start + info.off.toNat then throw .panic
    else pure ⟨parts.1, parts.2, start⟩

end Gguf

/-- An opened model. -/
structure Gguf where
  tensors : Std.TreeMap String GgufTensor
  metadata : Std.TreeMap String String

namespace Gguf

/-- Headers are small relative to shards; 32MB covers the largest. -/
def HEAD_BYTES : Nat := 32 <<< 20

theorem length_head (file : List UInt8) : (file.take HEAD_BYTES).length < 2 ^ 63 :=
  (List.length_take_le _ _).trans_lt (by decide)

def headCursor (file : List UInt8) : Cursor := Cursor.start (file.take HEAD_BYTES) (length_head file)

def Info.tensor (fidx start : Nat) (info : Info) : GgufTensor :=
  ⟨fidx, info.dims, info.ty, start + info.off.toNat⟩

/-- One file of a model. -/
def openFile (host : Host) (g : Gguf) (fidx : Nat) (file : List UInt8) : Except GgufError Gguf :=
  match walk host (headCursor file) with
  | .error e _ => .error e
  | .ok header _ => .ok
      { tensors := header.infos.foldl (fun tensors info =>
          tensors.insert info.name (info.tensor fidx header.dataStart)) g.tensors
        metadata := header.kvs.foldl (metaStep fidx) g.metadata }

/-- `Gguf::open`, of the files that were found. -/
def openFiles (host : Host) (files : List (List UInt8)) : Except GgufError Gguf :=
  files.zipIdx.foldlM (fun g f => openFile host g f.2 f.1) ⟨∅, ∅⟩

end Gguf

end LlmPager
