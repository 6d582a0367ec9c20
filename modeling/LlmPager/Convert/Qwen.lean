import LlmPager.Convert.CoreFile
import LlmPager.Convert.ExpertNames
import LlmPager.Core.Pack

/-!
# LlmPager.Convert.Qwen

`convert` of `lib.rs`, of a checkpoint of the Qwen3-MoE family: the expert tensors, by their
names, into the blobs of a pack, all others into the resident core.

The table of the expert tensors is filled in the order of the names; a name that is parsed
to a slot that has one already takes its place. The experts of a layer are built by threads
of their own, of which a panic ends the conversion.
-/

namespace LlmPager

open Lib (Json JsonCodec)

namespace Qwen

inductive ConvertError
  | checkpoint (e : TensorError)
  | config (key : String)
  | outOfRange (name : String) (layer expert : Nat)
  | core (e : TensorError)
  | blob (e : BlobError)
  | pack (e : PackError)
  | panic
  deriving Repr, DecidableEq

/-- The texts of the errors that the source words itself. -/
def ConvertError.message (outPack : String) : ConvertError → Option String
  | checkpoint e => e.message
  | config key => some ("config: " ++ key)
  | outOfRange name layer expert =>
      some ("expert tensor " ++ name ++ " out of range (" ++ toString layer ++ "," ++
        toString expert ++ ")")
  | core _ => some "writing resident core"
  | blob e => e.message
  | pack e => e.message outPack
  | panic => none

/-! ### Names -/

/-- The tensors of the experts by their slots, and the names of the core. -/
structure Assignment where
  table : Nat → Nat → Proj → Option String
  core : List String

def Assignment.empty : Assignment := ⟨fun _ _ _ => none, []⟩

/-- `expert_names[l][e][p] = Some(name)`. -/
def Assignment.put (a : Assignment) (slot : Slot) (name : String) : Assignment :=
  { a with table := fun l e p => if ⟨l, e, p⟩ = slot then some name else a.table l e p }

/-- One turn of the loop over the names. -/
def assignStep (layers experts : UInt16) (a : Assignment) (name : String) :
    Except ConvertError Assignment :=
  match parseExpert name with
  | some slot =>
      if slot.layer < layers.toNat ∧ slot.expert < experts.toNat then .ok (a.put slot name)
      else .error (.outOfRange name slot.layer slot.expert)
  | none => .ok { a with core := a.core ++ [name] }

def assign (ckpt : Shards.Checkpoint) (layers experts : UInt16) : Except ConvertError Assignment :=
  ckpt.tensors.keys.foldlM (assignStep layers experts) .empty

/-! ### The conversion -/

/-- `config[key].as_u64()`, `as u16`. -/
def configU16 (ckpt : Shards.Checkpoint) (key : String) : Except ConvertError UInt16 :=
  match (ckpt.config.get key).asU64 with
  | some n => .ok n.toUInt16
  | none => .error (.config key)

def packMeta (ckpt : Shards.Checkpoint) (layers experts : UInt16) : PackMeta Json where
  model := (ckpt.config.get "model_type").asStr.getD "unknown"
  numLayers := layers
  expertsPerLayer := experts
  dtype := "q4g64-gud"
  config := ckpt.config
  compression := none
  maxRawBlob := 0

/-- `writer.add_blob(&b?)`. -/
def addResult (w : PackWriter Json) (b : Except BlobError (List UInt8)) :
    Except ConvertError (PackWriter Json) :=
  match b with
  | .error e => .error (.blob e)
  | .ok blob => (w.addBlob blob).mapError .pack

/-- One turn of the loop over the layers: its threads are joined, then its blobs written. -/
def packLayer (ops : FloatOps) (ckpt : Shards.Checkpoint) (a : Assignment) (experts : UInt16)
    (w : PackWriter Json) (l : Nat) : Except ConvertError (PackWriter Json) :=
  match (List.range experts.toNat).mapM fun e => buildBlob ops ckpt.view (a.table l e) l e with
  | none => .error .panic
  | some blobs => blobs.foldlM addResult w

/-- `ConvertReport`, but for the quantisation error, and the two files. -/
structure Converted where
  layers : UInt16
  experts : UInt16
  pack : List UInt8
  core : List UInt8
  packBytes : Nat
  coreBytes : Nat
  coreTensors : Nat

def convert (codec : JsonCodec) (packCodec : Codec Json) (ops : FloatOps)
    (dir : Shards.ModelDir) : Except ConvertError Converted := do
  let ckpt ← (Shards.Checkpoint.openDir codec dir).mapError .checkpoint
  let layers ← configU16 ckpt "num_hidden_layers"
  let experts ← configU16 ckpt "num_experts"
  let a ← assign ckpt layers experts
  let core ← (Shards.writeSafetensors codec ckpt a.core).mapError .core
  let w ← (List.range layers.toNat).foldlM (packLayer ops ckpt a experts)
    (PackWriter.create (packMeta ckpt layers experts))
  let pack ← (w.finish packCodec).mapError .pack
  return {
    layers := layers
    experts := experts
    pack := pack
    core := core.1
    packBytes := pack.length
    coreBytes := core.2
    coreTensors := a.core.length }

end Qwen

end LlmPager
