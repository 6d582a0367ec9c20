import LlmPager.Convert.CoreFile
import LlmPager.Convert.ExpertNames
import LlmPager.Core.Pack

/-!
# LlmPager.Convert.Kimi

`convert_kimi` of `kimi.rs`: the text stack of a multimodal checkpoint. Its routed experts
are packed already and go into the pack, the rest of the text stack goes into the core under
names without `language_model.`, and everything else is dropped.

The first layers are dense, so layer `i` of the pack is layer `i + offset` of the model; the
pack's configuration says by how much. `zstd` compresses a blob or fails. As in the other
conversion, the experts of a layer are built by threads of their own.
-/

namespace LlmPager

open Lib (Json JsonCodec splitOnce parseUnsigned)

namespace Kimi

/-- `PREFIX`. -/
def textPrefix : String := "language_model."

inductive ConvertError
  | checkpoint (e : TensorError)
  | noTextConfig
  | config (key : String)
  | outOfRange (name : String)
  | core (e : TensorError)
  | blob (e : BlobError)
  | zstd
  | pack (e : PackError)
  | panic
  deriving Repr, DecidableEq

/-- The texts of the errors that the source words itself. -/
def ConvertError.message (outPack : String) : ConvertError → Option String
  | checkpoint e => e.message
  | noTextConfig => some "kimi convert: config.json has no text_config"
  | config key => some key
  | outOfRange name => some ("expert tensor out of range: " ++ name)
  | core _ => some "writing resident core"
  | blob e => e.message
  | pack e => e.message outPack
  | zstd => none
  | panic => none

/-! ### Names -/

def packedSuffix : Proj → String
  | .gate => "gate_proj.weight_packed"
  | .up => "up_proj.weight_packed"
  | .down => "down_proj.weight_packed"

def packedProjOf (rest : List Char) : Option Proj :=
  Proj.all.find? fun p => (packedSuffix p).toList = rest

def parseExpertPacked (name : String) : Option Slot := do
  let rest ← name.toList.dropPrefix? "language_model.model.layers.".toList
  let layer ← splitOnce '.' rest
  let rest ← layer.2.dropPrefix? "mlp.experts.".toList
  let expert ← splitOnce '.' rest
  let proj ← packedProjOf expert.2
  let l ← parseUnsigned (2 ^ 16) layer.1
  let e ← parseUnsigned (2 ^ 16) expert.1
  return ⟨l, e, proj⟩

/-- `name.strip_suffix("_packed")`. -/
def stripPacked (name : String) : Option String :=
  if "_packed".toList <:+ name.toList then
    some (String.ofList (name.toList.take (name.toList.length - "_packed".toList.length)))
  else none

/-- `name[PREFIX.len()..]`. -/
def renamed (name : String) : String := String.ofList (name.toList.drop textPrefix.toList.length)

/-- A tensor that stays resident: of the text stack, and not under `mlp.experts`. -/
def Resident (name : String) : Prop :=
  textPrefix.toList <+: name.toList ∧ ¬".mlp.experts.".toList <:+: name.toList

instance (name : String) : Decidable (Resident name) :=
  inferInstanceAs (Decidable (_ ∧ ¬_))

/-- The bases of the experts' tensors by their slots, the layers counted from the first one
that has experts, and the core's tensors with their new names. -/
structure Assignment where
  table : Nat → Nat → Proj → Option String
  core : List (String × String)

def Assignment.empty : Assignment := ⟨fun _ _ _ => none, []⟩

/-- `expert_base[l][e][p] = Some(base)`. -/
def Assignment.put (a : Assignment) (slot : Slot) (base : String) : Assignment :=
  { a with table := fun l e p => if ⟨l, e, p⟩ = slot then some base else a.table l e p }

/-- The layers that are in the pack. -/
structure Layers where
  dense : UInt16
  total : UInt16
  experts : UInt16

/-- One turn of the loop over the names. -/
def assignStep (ls : Layers) (a : Assignment) (name : String) : Except ConvertError Assignment :=
  match parseExpertPacked name with
  | some slot =>
      if slot.layer < ls.dense.toNat ∨ ls.total.toNat ≤ slot.layer ∨ ls.experts.toNat ≤ slot.expert
      then .error (.outOfRange name)
      else
        match stripPacked name with
        | none => .error .panic
        | some base => .ok (a.put { slot with layer := slot.layer - ls.dense.toNat } base)
  | none =>
      if Resident name then .ok { a with core := a.core ++ [(name, renamed name)] } else .ok a

def assign (ckpt : Shards.Checkpoint) (ls : Layers) : Except ConvertError Assignment :=
  ckpt.tensors.keys.foldlM (assignStep ls) .empty

/-! ### The conversion -/

/-- `text[key].as_u64()`, `as u16`. -/
def configU16 (text : Json) (key : String) : Except ConvertError UInt16 :=
  match (text.get key).asU64 with
  | some n => .ok n.toUInt16
  | none => .error (.config key)

/-- The layers of the text configuration; `layers - dense_layers` is checked. -/
def readLayers (text : Json) : Except ConvertError Layers := do
  let total ← configU16 text "num_hidden_layers"
  let experts ← configU16 text "n_routed_experts"
  let dense := (((text.get "first_k_dense_replace").asU64).getD 0).toUInt16
  if total < dense then throw .panic
  return ⟨dense, total, experts⟩

/-- `moe_layers`. -/
def Layers.moe (ls : Layers) : UInt16 := ls.total - ls.dense

def packMeta (cfg : Json) (ls : Layers) (compress : Bool) : PackMeta Json where
  model := "kimi_k2.6"
  numLayers := ls.moe
  expertsPerLayer := ls.experts
  dtype := "q4g32-gud"
  config := cfg
  compression := if compress then some "zstd" else none
  maxRawBlob := 0

/-- What the conversion is asked for: `compress`, and `zstd::bulk::compress(_, 3)`. -/
structure Compression where
  enabled : Bool
  zstd : List UInt8 → Option (List UInt8)

/-- `writer.add_blob(..)`, of the blob or of its frame. -/
def addResult (comp : Compression) (w : PackWriter Json) (b : Except BlobError (List UInt8)) :
    Except ConvertError (PackWriter Json) :=
  match b with
  | .error e => .error (.blob e)
  | .ok blob =>
      if comp.enabled then
        match comp.zstd blob with
        | none => .error .zstd
        | some framed => ((w.noteRawLen blob.length).addBlob framed).mapError .pack
      else (w.addBlob blob).mapError .pack

/-- One turn of the loop over the layers: its threads are joined, then its blobs written. -/
def packLayer (comp : Compression) (ckpt : Shards.Checkpoint) (a : Assignment) (experts : UInt16)
    (w : PackWriter Json) (l : Nat) : Except ConvertError (PackWriter Json) :=
  match (List.range experts.toNat).mapM fun e => buildKimiBlob ckpt.view (a.table l e) l e with
  | none => .error .panic
  | some blobs => blobs.foldlM (addResult comp) w

/-- `ConvertReport`, but for the error of the scales, and the two files. -/
structure Converted where
  layers : UInt16
  experts : UInt16
  pack : List UInt8
  core : List UInt8
  packBytes : Nat
  coreBytes : Nat
  coreTensors : Nat

def convertKimi (codec : JsonCodec) (packCodec : Codec Json) (comp : Compression)
    (dir : Shards.ModelDir) : Except ConvertError Converted := do
  let ckpt ← (Shards.Checkpoint.openDir codec dir).mapError .checkpoint
  let text := ckpt.config.get "text_config"
  if text.isNull then throw .noTextConfig
  let ls ← readLayers text
  let a ← assign ckpt ls
  let core ← (Shards.writeSafetensorsRenamed codec ckpt a.core).mapError .core
  let some cfg := text.set "moe_layer_offset" (.num (UInt64.ofNat ls.dense.toNat)) | throw .panic
  let w ← (List.range ls.moe.toNat).foldlM (packLayer comp ckpt a ls.experts)
    (PackWriter.create (packMeta cfg ls comp.enabled))
  let pack ← (w.finish packCodec).mapError .pack
  return {
    layers := ls.moe
    experts := ls.experts
    pack := pack
    core := core.1
    packBytes := pack.length
    coreBytes := core.2
    coreTensors := a.core.length }

end Kimi

end LlmPager
