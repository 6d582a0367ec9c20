import LlmPager.Core.Cache
import LlmPager.Lib.Bytes

/-!
# LlmPager.Core.Pack

The `.llmpk` expert pack (`llmpager-core/src/pack.rs`): `PackWriter` and
`PackReader`.

A file is its bytes. The writer's `BufWriter` is a `Sink`; writing to the disk
succeeds. A `pread` fails past the end of the file, and on a file opened with
`O_DIRECT` when the buffer, the length or the offset is not aligned. `usize` and
`u64` are `Nat`, with what could leave 64 bits checked: the writer's cursor, and a
blob's length rounded up.

`serde_json` and `zstd` are third-party packages: a `Codec` for the metadata and
a function `unzstd` from a frame and a capacity to the decompressed bytes. The
metadata's `config` is a JSON value that nothing here looks into, of any type.
The field `meta` of writer and reader is `packMeta` here.
-/

namespace LlmPager

open Lib

/-- `MAGIC`: `LLMPK1` and two zero bytes. -/
def magic : List UInt8 := [0x4C, 0x4C, 0x4D, 0x50, 0x4B, 0x31, 0, 0]

def formatVersion : Nat := 1

/-- `ALIGN`. -/
def blockAlign : Nat := 4096

def indexEntryBytes : Nat := 16

def alignUp (v : Nat) : Nat := (v + (blockAlign - 1)) / blockAlign * blockAlign

structure PackMeta (Value : Type) where
  model : String
  numLayers : UInt16
  expertsPerLayer : UInt16
  dtype : String
  config : Value
  compression : Option String
  maxRawBlob : Nat
  deriving Repr, DecidableEq

/-- `num_layers * experts_per_layer`. -/
def PackMeta.total {Value : Type} (m : PackMeta Value) : Nat :=
  m.numLayers.toNat * m.expertsPerLayer.toNat

/-- `serde_json` on the metadata: `to_vec` and `from_slice`. -/
structure Codec (Value : Type) where
  toVec : PackMeta Value → List UInt8
  fromSlice : List UInt8 → Option (PackMeta Value)

structure IndexEntry where
  offset : Nat
  nbytes : Nat
  deriving Repr, DecidableEq

inductive PackError
  | full (total : Nat)
  | incomplete (written total : Nat)
  | jsonTooLarge
  | notLlmpk
  | unsupportedVersion (version : Nat)
  | json
  | bufferTooSmall (len span : Nat)
  | unalignedBuffer
  | zstd
  /-- What the system answers a read past the end of the file. -/
  | unexpectedEof
  /-- What the system answers a misaligned read of an `O_DIRECT` file. -/
  | invalidInput
  /-- An index out of range, an overflow, or a length that no buffer has. -/
  | panic
  deriving Repr, DecidableEq

/-- The texts of the errors that the source words itself. -/
def PackError.message (path : String) : PackError → Option String
  | full total => some s!"pack already has all {total} blobs"
  | incomplete written total => some s!"pack incomplete: {written} of {total} blobs written"
  | jsonTooLarge => some "metadata JSON too large for header block"
  | notLlmpk => some s!"{path}: not an llmpk file"
  | unsupportedVersion version => some s!"{path}: unsupported pack version {version}"
  | bufferTooSmall len span => some s!"buffer too small: {len} < {span}"
  | unalignedBuffer => some "O_DIRECT read requires a 4096-aligned buffer"
  | _ => none

variable {Value : Type}

/-! ### Writing -/

structure PackWriter (Value : Type) where
  file : Sink UInt8
  packMeta : PackMeta Value
  index : List IndexEntry
  indexEnd : Nat
  cursor : Nat

/-- Where `create` puts the first blob. -/
def PackMeta.indexEnd (m : PackMeta Value) : Nat :=
  alignUp (blockAlign + m.total * indexEntryBytes)

/-- Padding with zeroes, if any are needed. -/
def writePad (f : Sink UInt8) (pad : Nat) : Sink UInt8 :=
  if 0 < pad then f.write (List.replicate pad 0) else f

namespace PackWriter

def create (m : PackMeta Value) : PackWriter Value :=
  { file := ⟨[], m.indexEnd⟩, packMeta := m, index := [], indexEnd := m.indexEnd,
    cursor := m.indexEnd }

def noteRawLen (w : PackWriter Value) (rawLen : Nat) : PackWriter Value :=
  { w with packMeta := { w.packMeta with maxRawBlob := max w.packMeta.maxRawBlob rawLen } }

def addBlob (w : PackWriter Value) (blob : List UInt8) : Except PackError (PackWriter Value) :=
  if w.index.length = w.packMeta.total then .error (.full w.packMeta.total)
  else
    let padded := alignUp blob.length
    if 2 ^ 64 ≤ w.cursor + padded then .error .panic
    else .ok { w with
      index := w.index ++ [⟨w.cursor, blob.length⟩]
      file := writePad (w.file.write blob) (padded - blob.length)
      cursor := w.cursor + padded }

/-- `finish`, with the bytes it leaves in the file. -/
def finish (codec : Codec Value) (w : PackWriter Value) : Except PackError (List UInt8) :=
  if w.index.length ≠ w.packMeta.total then .error (.incomplete w.index.length w.packMeta.total)
  else
    let json := codec.toVec w.packMeta
    if blockAlign - 16 < json.length then .error .jsonTooLarge
    else
      -- the header, then the index, over the space `create` left for them
      let file := [magic, leBytes 4 formatVersion, leBytes 4 json.length, json,
        List.replicate (blockAlign - 16 - json.length) 0].foldl Sink.write (w.file.seek 0)
      let file := w.index.foldl
        (fun f e => (f.write (leBytes 8 e.offset)).write (leBytes 8 e.nbytes)) file
      .ok (writePad file
        (w.indexEnd - (blockAlign + w.packMeta.total * indexEntryBytes))).data

end PackWriter

/-- A pack written from start to end. -/
def writePack (codec : Codec Value) (m : PackMeta Value) (blobs : List (List UInt8)) :
    Except PackError (List UInt8) := do
  let w ← blobs.foldlM PackWriter.addBlob (PackWriter.create m)
  w.finish codec

/-! ### Reading -/

/-- A buffer in memory. -/
structure Buf where
  addr : Nat
  bytes : List UInt8
  deriving Repr, DecidableEq

/-- `AlignedBuf::new`: zeroes, at some aligned address. -/
def alignedBuf (len : Nat) : Buf := ⟨0, List.replicate (alignUp len) 0⟩

/-- ... of a length that a file gives: a `Layout` has less than `2 ^ 63` bytes. -/
def newAligned (len : Nat) : Option Buf :=
  if alignUp len < 2 ^ 63 then some (alignedBuf len) else none

/-- An open pack file. -/
structure PackFile where
  bytes : List UInt8
  direct : Bool
  deriving Repr, DecidableEq

/-- `pread_full` into the first `n` bytes of a buffer. -/
def preadFull (f : PackFile) (buf : Buf) (n offset : Nat) : Except PackError Buf :=
  if n = 0 then .ok buf
  else if f.direct ∧ ¬ (buf.addr % blockAlign = 0 ∧ n % blockAlign = 0 ∧
      offset % blockAlign = 0) then .error .invalidInput
  else if f.bytes.length < offset + n then .error .unexpectedEof
  else .ok { buf with bytes := slice offset n f.bytes ++ buf.bytes.drop n }

structure PackReader (Value : Type) where
  file : PackFile
  packMeta : PackMeta Value
  index : List IndexEntry
  scratch : Option Buf
  deriving DecidableEq

namespace PackReader

def openInner (codec : Codec Value) (bytes : List UInt8) (direct : Bool) :
    Except PackError (PackReader Value) := do
  let file : PackFile := ⟨bytes, direct⟩
  let header ← preadFull file (alignedBuf blockAlign) blockAlign 0
  let header := header.bytes
  if slice 0 8 header ≠ magic then throw .notLlmpk
  let version := leNat (slice 8 4 header)
  if version ≠ formatVersion then throw (.unsupportedVersion version)
  let jsonLen := leNat (slice 12 4 header)
  -- a length beyond the block is a slice out of range
  if header.length < 16 + jsonLen then throw .panic
  let some m := codec.fromSlice (slice 16 jsonLen header) | throw .json
  let indexSpan := alignUp (m.total * indexEntryBytes)
  let raw ← preadFull file (alignedBuf indexSpan) indexSpan blockAlign
  let index := (List.range m.total).map fun i =>
    { offset := leNat (slice (i * 16) 8 raw.bytes)
      nbytes := leNat (slice (i * 16 + 8) 8 raw.bytes) }
  return { file, packMeta := m, index, scratch := none }

def entry (r : PackReader Value) (layer expert : Nat) : Option IndexEntry :=
  r.index[flatId r.packMeta.expertsPerLayer.toNat (layer, expert)]?

def maxStoredBytes (r : PackReader Value) : Nat := (r.index.map (·.nbytes)).max?.getD 0

def maxBlobBytes (r : PackReader Value) : Nat :=
  if 0 < r.packMeta.maxRawBlob then r.packMeta.maxRawBlob else r.maxStoredBytes

/-- The scratch buffer of a compressed pack, made by the first read with room for every
stored blob. -/
def scratchBuf (r : PackReader Value) : Option Buf :=
  r.scratch.or (newAligned (alignUp r.maxStoredBytes))

/-- `read_blob_into`: the length it returns, the buffer and the reader it
leaves. -/
def readBlobInto (unzstd : List UInt8 → Nat → Option (List UInt8)) (r : PackReader Value)
    (layer expert : Nat) (buf : Buf) : Except PackError (Nat × Buf × PackReader Value) :=
  match r.entry layer expert with
  | none => .error .panic
  | some e =>
      let span := alignUp e.nbytes
      if 2 ^ 64 ≤ span then .error .panic
      else if r.packMeta.compression = none then
        if buf.bytes.length < span then .error (.bufferTooSmall buf.bytes.length span)
        else if r.file.direct ∧ buf.addr % blockAlign ≠ 0 then .error .unalignedBuffer
        else do
          let buf ← preadFull r.file buf span e.offset
          .ok (e.nbytes, buf, r)
      else
        match r.scratchBuf with
        -- `Layout::from_size_align(..).unwrap()`
        | none => .error .panic
        | some scratch =>
            if scratch.bytes.length < span then .error .panic
            else do
              let scratch ← preadFull r.file scratch span e.offset
              match unzstd (scratch.bytes.take e.nbytes) buf.bytes.length with
              | none => .error .zstd
              | some out =>
                  .ok (out.length, { buf with bytes := out ++ buf.bytes.drop out.length },
                    { r with scratch := some scratch })

end PackReader

end LlmPager
