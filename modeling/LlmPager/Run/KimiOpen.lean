import LlmPager.Core.Pack
import LlmPager.Lib.Fallible
import LlmPager.Lib.Json

/-!
# LlmPager.Run.KimiOpen

What the decoder takes from a pack's metadata: the choice of the engine (`AnyDecoder::new`),
`KimiConfig::from_json` and the checks of `KimiDecoder::new`.

The fields that are floating point numbers (the scales, and the frequencies of the rotation)
are not here; they come without errors of their own. `usize` is `Nat`.
-/

namespace LlmPager

open Lib (Json)
open Lib.Except (ok_parts)

namespace Kimi

/-- Why a pack is refused. -/
inductive LoadError
  | missing (key : String)
  | dtype (other : String)
  | layers (pack config : Nat)
  | panic
  deriving Repr, DecidableEq

def LoadError.message : LoadError → Option String
  | missing key => some ("config: missing " ++ key)
  | dtype other => some ("pack dtype " ++ other ++ " unsupported")
  | layers pack config =>
      some ("pack has " ++ toString pack ++ " layers, config wants " ++ toString config ++ " MoE layers")
  | panic => none

structure Config where
  hidden : Nat
  layers : Nat
  denseLayers : Nat
  heads : Nat
  qLora : Nat
  kvLora : Nat
  nope : Nat
  rope : Nat
  vHead : Nat
  moeInter : Nat
  denseInter : Nat
  experts : Nat
  topK : Nat
  normTopkProb : Bool
  vocab : Nat
  eos : List UInt32
  deriving Repr, DecidableEq

/-- `is_kimi`. -/
def isKimi (cfg : Json) : Bool := !(cfg.get "kv_lora_rank").isNull

/-- The closure `u` of `from_json`. -/
def configUsize (v : Json) (key : String) : Except LoadError Nat :=
  match (v.get key).asU64 with
  | some n => .ok n.toNat
  | none => .error (.missing key)

/-- `dense_layers`, of `moe_layer_offset` or else of `first_k_dense_replace`. -/
def moeLayerOffset (v : Json) : Nat :=
  (((v.get "moe_layer_offset").asU64.or (v.get "first_k_dense_replace").asU64).getD 0).toNat

def eosTokens : Json → List UInt32
  | .num n => [n.toUInt32]
  | .arr vs => vs.filterMap fun v => v.asU64.map UInt64.toUInt32
  | _ => []

/-- `from_json`. -/
def Config.fromJson (v : Json) : Except LoadError Config := do
  let nope ← configUsize v "qk_nope_head_dim"
  let rope ← configUsize v "qk_rope_head_dim"
  return {
    hidden := ← configUsize v "hidden_size"
    layers := ← configUsize v "num_hidden_layers"
    denseLayers := moeLayerOffset v
    heads := ← configUsize v "num_attention_heads"
    qLora := ← configUsize v "q_lora_rank"
    kvLora := ← configUsize v "kv_lora_rank"
    nope := nope
    rope := rope
    vHead := ← configUsize v "v_head_dim"
    moeInter := ← configUsize v "moe_intermediate_size"
    denseInter := ← configUsize v "intermediate_size"
    experts := ← configUsize v "n_routed_experts"
    topK := ← configUsize v "num_experts_per_tok"
    normTopkProb := match v.get "norm_topk_prob" with
      | .bool b => b
      | _ => true
    vocab := ← configUsize v "vocab_size"
    eos := eosTokens (v.get "eos_token_id") }

/-- The group of the experts' scales. -/
def expertGroup (dtype : String) : Except LoadError Nat :=
  if dtype = "q4g32-gud" then .ok 32
  else if dtype = "q4g64-gud" then .ok 64
  else .error (.dtype dtype)

/-- `KimiDecoder::new`, up to its check of the pack's layers. -/
def checkPack (m : PackMeta Json) : Except LoadError (Config × Nat) := do
  let cfg ← Config.fromJson m.config
  let group ← expertGroup m.dtype
  if cfg.layers < cfg.denseLayers then throw .panic
  if m.numLayers.toNat ≠ cfg.layers - cfg.denseLayers then
    throw (.layers m.numLayers.toNat (cfg.layers - cfg.denseLayers))
  return (cfg, group)

/-- A configuration that says otherwise only where the experts' layers begin. -/
theorem Config.fromJson_congr {v v' : Json} {c : Config} {dense : Nat}
    (hget : ∀ k, k ≠ "moe_layer_offset" → v'.get k = v.get k) (hdense : moeLayerOffset v' = dense)
    (h : Config.fromJson v = .ok c) : Config.fromJson v' = .ok { c with denseLayers := dense } := by
  have hsize : ∀ {k n}, configUsize v k = .ok n → k ≠ "moe_layer_offset" →
      configUsize v' k = .ok n := by
    intro k n hk hne
    unfold configUsize at hk ⊢
    rwa [hget k hne]
  obtain ⟨nope, hnope, h⟩ := ok_parts h
  obtain ⟨rope, hrope, h⟩ := ok_parts h
  obtain ⟨hidden, hhidden, h⟩ := ok_parts h
  obtain ⟨layers, hlayers, h⟩ := ok_parts h
  obtain ⟨heads, hheads, h⟩ := ok_parts h
  obtain ⟨qLora, hqLora, h⟩ := ok_parts h
  obtain ⟨kvLora, hkvLora, h⟩ := ok_parts h
  obtain ⟨vHead, hvHead, h⟩ := ok_parts h
  obtain ⟨moeInter, hmoeInter, h⟩ := ok_parts h
  obtain ⟨denseInter, hdenseInter, h⟩ := ok_parts h
  obtain ⟨experts, hexperts, h⟩ := ok_parts h
  obtain ⟨topK, htopK, h⟩ := ok_parts h
  obtain ⟨vocab, hvocab, h⟩ := ok_parts h
  cases h
  unfold Config.fromJson
  rw [hsize hnope (by decide), hsize hrope (by decide), hsize hhidden (by decide),
    hsize hlayers (by decide), hsize hheads (by decide), hsize hqLora (by decide),
    hsize hkvLora (by decide), hsize hvHead (by decide), hsize hmoeInter (by decide),
    hsize hdenseInter (by decide), hsize hexperts (by decide), hsize htopK (by decide),
    hsize hvocab (by decide), hget "norm_topk_prob" (by decide), hget "eos_token_id" (by decide),
    hdense]
  rfl

end Kimi

end LlmPager
