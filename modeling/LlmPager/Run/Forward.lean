import LlmPager.Convert.Blob
import LlmPager.Lib.Grid
import LlmPager.Lib.Waves
import LlmPager.Serve.Decoder

/-!
# LlmPager.Run.Forward

The forward pass of the two engines: `step` and `step_multi` of `decode.rs` and
`kimi.rs`, behind the dispatch of `any.rs`.

A kernel is a function on vectors, of exact arithmetic, and may be any function:
only `add` and `moe_reduce` are sums. A KV cache holds, by layer, sequence slot
and position, a pair of rows (K and V, or the two parts of Kimi's compressed
row); attention appends the row of its position and reads those of the positions
up to it, in one slot. What `request` gives for an expert is a handle to its
blob. It refuses more experts than the cache has slots for. A request within
that capacity may still fail in the pager, on the pins that earlier calls left
or for want of a worker. When it does is a matter of `Cuda.Pager` and
`Run.Traffic`; a forward pass is run here against any answers (`Answers`).
CUDA calls succeed, and a fetch comes to an end.

`step` takes one token through every layer. `step_multi` takes all its entries
through a layer before the next one, and a layer's experts in waves over the
union of what the entries picked. The two `step_multi` differ in what a layer is
(`Layer`), not in how layers are run; the two `step` have a body each.
-/

namespace LlmPager.Forward

open Lib (atKey chunks sortedUnion stageRow)
open Serve (Entry ServeError chunkCap)

inductive StepError
  /-- The decoder's own checks. -/
  | refused (e : ServeError)
  | request (n capacity : Nat)
  | deadlock (slots layer : Nat)
  /-- `send` finds the workers gone: a Rust panic. -/
  | workersGone
  /-- `dev_of` finds no handle: a Rust panic. -/
  | noHandle (expert : Nat)
  deriving Repr, DecidableEq

def StepError.message : StepError → String
  | refused e => e.message
  | request n capacity =>
      s!"requested {n} experts but the cache pool holds only {capacity} slots"
  | deadlock slots layer =>
      s!"expert cache deadlock: all {slots} slots of layer {layer} are pinned with no fetch " ++
        "in flight — expert handles were held across a forward pass"
  | workersGone => "io workers gone"
  | noHandle _ => "called `Option::unwrap()` on a `None` value"

/-- The pager failed a request within its capacity. -/
def StepError.inPager : StepError → Bool
  | deadlock _ _ | workersGone => true
  | refused _ | request _ _ | noHandle _ => false

/-- A fetched expert (`ExpertHandle`): where its blob is follows from these. -/
structure ExpertHandle where
  layer : Nat
  expert : Nat
  deriving Repr, DecidableEq

/-- The slots of the expert cache. -/
structure Pool where
  /-- `slots_per_layer`. -/
  slots : Nat
  /-- `slots_per_partition`: the same, or those of all layers in a global pool. -/
  capacity : Nat
  slots_le : slots ≤ capacity
  deriving Repr, DecidableEq

/-- How a request within the capacity ends. -/
inductive Answer
  | served
  | deadlock
  | workersGone
  deriving Repr, DecidableEq

/-- The pager's answers to the requests to come. -/
abbrev Answers : Type := Nat → Answer

/-- A computation that makes requests. -/
abbrev Paged : Type → Type := StateT Answers (Except StepError)

/-- `Pager::request`: one handle for each expert asked for, in order. -/
def request (pool : Pool) (layer : Nat) (experts : List Nat) : Paged (List ExpertHandle) :=
  fun answers =>
    if pool.capacity < experts.length then .error (.request experts.length pool.capacity)
    else match answers 0 with
      | .served => .ok (experts.map fun expert => { layer, expert }, fun n => answers (n + 1))
      | .deadlock => .error (.deadlock pool.slots layer)
      | .workersGone => .error .workersGone

variable {V M F : Type}

/-! ### Kernels -/

/-- The kernels that both engines use. The vectors are `V`, the matrices `M`,
the numbers `F`. -/
structure Kernels (V M F : Type) where
  /-- `rmsnorm x weight rows n`. -/
  rmsnorm : V → V → Nat → Nat → V
  /-- `mat_gemv`. -/
  matGemv : M → V → V
  siluMul : V → V → V
  /-- `q4g64_gemv_batch`, for one of its blobs. -/
  q4g64Gemv : ExpertHandle → Proj → V → V
  /-- `dtoh_async`, read as numbers. -/
  dtoh : V → List F
  /-- `f32::MIN`. -/
  f32Min : F

/-- `kv_append`: the row of a position. -/
def kvAppend (rows : Nat → V × V) (pos : Nat) (row : V × V) : Nat → V × V :=
  Function.update rows pos row

/-- The rows that attention reads at `pos`: the first `pos + 1`. -/
def attended (rows : Nat → V × V) (pos : Nat) : List (V × V) := (List.range (pos + 1)).map rows

section Experts

variable [AddCommMonoid V] [SMul F V]

/-- `moe_reduce`: the weighted sum of the experts' outputs, added to `h`. -/
def moeReduce (outs : List V) (wts : List F) (h : V) : V :=
  h + (List.zipWith (fun w out => w • out) wts outs).sum

/-- One expert's FFN. -/
def Kernels.expertFfn (ke : Kernels V M F) (x : V) (handle : ExpertHandle) : V :=
  let gateOut := ke.q4g64Gemv handle .gate x
  let upOut := ke.q4g64Gemv handle .up x
  ke.q4g64Gemv handle .down (ke.siluMul gateOut upOut)

/-- A dense FFN, of three matrices. -/
def Kernels.denseFfn (ke : Kernels V M F) (gate up down : M) (x : V) : V :=
  ke.matGemv down (ke.siluMul (ke.matGemv gate x) (ke.matGemv up x))

end Experts

/-- The greedy choice: the first index of the greatest logit. -/
def greedy [LT F] [DecidableLT F] (f32Min : F) (logits : List F) : Nat :=
  (logits.zipIdx.foldl (fun best p => if best.2 < p.1 then (p.2, p.1) else best) (0, f32Min)).1

/-! ### `step_multi` -/

/-- What follows the attention block of a layer. -/
inductive Mlp (V F : Type)
  | dense (ffn : V → V)
  /-- Kimi's shared expert, the picks with their weights, and the layer's number
  in the pack. -/
  | routed (shared : Option (V → V)) (route : V → List (Nat × F)) (packLayer : Nat)

/-- A layer, as `step_multi` runs it. -/
structure Layer (V F : Type) where
  /-- The attention block on a slot's rows, at a position, with the residual. -/
  attention : (Nat → V × V) → Nat → V → (Nat → V × V) × V
  postNorm : V → V
  mlp : Mlp V F

/-- A loaded model, as `step_multi` sees it. -/
structure Stack (V F : Type) where
  layers : Nat
  layer : Nat → Layer V F
  embed : Nat → V
  expertFfn : V → ExpertHandle → V
  /-- The final norm, `lm_head` and the readback. -/
  logits : V → List F
  f32Min : F
  maxSeq : Nat
  batchCap : Nat
  pool : Pool

/-- What an entry brings to the waves of a layer, and how far it has come. -/
structure Lane (V F : Type) where
  picks : List (Nat × F)
  /-- Its row of `hn_buf`. -/
  x : V
  /-- Its row of `h_buf`. -/
  h : V
  /-- The picks given to each `moe_reduce` so far (the model's own record). -/
  reduced : List (List (Nat × F))
  deriving Repr, DecidableEq

/-- The waves of a layer so far. -/
structure Waves (V F : Type) where
  lanes : List (Lane V F)
  /-- What was requested (the model's own record). -/
  requests : List (List Nat)
  deriving Repr, DecidableEq

/-- The state that outlives a call. -/
structure Decoder (V F : Type) where
  /-- The KV caches: layer, slot, position. -/
  kv : Nat → Nat → Nat → V × V
  h : V
  /-- `h_buf`, a row for each entry of the last `step_multi`. -/
  hBuf : List V
  logitsHost : List F
  logitsMulti : List (List F)
  /-- The routed layers that `step_multi` has run (the model's own record). -/
  runs : List (Waves V F)

/-- What the layer loop of `step_multi` works on. -/
structure Chunk (V F : Type) where
  kv : Nat → Nat → Nat → V × V
  hs : List V
  runs : List (Waves V F)

/-- `dev_of`. -/
def devOf (handles : List ExpertHandle) (id : Nat) : Except StepError ExpertHandle :=
  match handles.find? (·.expert = id) with
  | some handle => .ok handle
  | none => .error (.noHandle id)

/-- The picks of an entry that a wave has fetched. -/
def Lane.sub (lane : Lane V F) (waveIds : List Nat) : List (Nat × F) :=
  lane.picks.filter fun p => waveIds.contains p.1

section StepMulti

variable [AddCommMonoid V] [SMul F V]

/-- The shared expert, where there is one, on the normed state `x`. -/
def addShared (shared : Option (V → V)) (x h : V) : V :=
  match shared with
  | some ffn => h + ffn x
  | none => h

/-- An entry before the waves of a layer. -/
def Lane.start (shared : Option (V → V)) (route : V → List (Nat × F)) (x h : V) : Lane V F :=
  { picks := route x, x, h := addShared shared x h, reduced := [] }

/-- One entry in one wave. -/
def Lane.reduce (ffn : V → ExpertHandle → V) (handles : List ExpertHandle) (waveIds : List Nat)
    (lane : Lane V F) : Except StepError (Lane V F) := do
  let sub := lane.sub waveIds
  if sub.isEmpty then
    return lane
  let ptrs ← sub.mapM fun p => devOf handles p.1
  return { lane with
    h := moeReduce (ptrs.map (ffn lane.x)) (sub.map (·.2)) lane.h
    reduced := lane.reduced ++ [sub] }

namespace Stack

variable (m : Stack V F)

/-- One wave: its experts, then every entry in turn. -/
def wave (packLayer : Nat) (c : Waves V F) (waveIds : List Nat) :
    Paged (Waves V F) := do
  let handles ← request m.pool packLayer waveIds
  let lanes ← c.lanes.mapM (m := Except StepError) (Lane.reduce m.expertFfn handles waveIds)
  return { lanes, requests := c.requests ++ [waveIds] }

/-- The waves of a layer, over the union of the picks. -/
def waves (packLayer : Nat) (lanes : List (Lane V F)) : Paged (Waves V F) :=
  let union := sortedUnion (lanes.map fun lane => lane.picks.map (·.1))
  (chunks (max m.pool.slots 1) union).foldlM (m.wave packLayer) { lanes, requests := [] }

/-- The attention block over the entries, in order. -/
def attentionRow (l : Nat) :
    (Nat → Nat → V × V) → List (Entry × V) → (Nat → Nat → V × V) × List V :=
  stageRow (atKey (fun l (e : Entry) rows h => (m.layer l).attention rows e.pos h) (·.seq)) l

/-- One layer of `step_multi`. -/
def runLayer (entries : List Entry) (c : Chunk V F) (l : Nat) : Paged (Chunk V F) :=
  let lay := m.layer l
  let (rows, hs) := m.attentionRow l (c.kv l) (entries.zip c.hs)
  let kv := Function.update c.kv l rows
  match lay.mlp with
  | .dense ffn => pure { c with kv, hs := hs.map fun h => h + ffn (lay.postNorm h) }
  | .routed shared route packLayer => do
      let run ← m.waves packLayer (hs.map fun h => Lane.start shared route (lay.postNorm h) h)
      return { kv, hs := run.lanes.map (·.h), runs := c.runs ++ [run] }

/-- The bounds check of an entry. -/
def entryError (e : Entry) : Option ServeError :=
  if m.maxSeq ≤ e.pos then some (.position e.pos m.maxSeq)
  else if m.batchCap ≤ e.seq then some (.sequenceSlot e.seq m.batchCap)
  else none

/-- Per-entry logits, empty for an entry that is not the last of its slot. -/
def entryLogits : List (Entry × V) → List (List F)
  | [] => []
  | (e, h) :: rest =>
      (if rest.all (·.1.seq ≠ e.seq) then m.logits h else []) :: entryLogits rest

variable [LT F] [DecidableLT F]

/-- `step_multi`. An entry without logits has the choice of an empty row, 0. -/
def stepMulti (d : Decoder V F) (entries : List Entry) (wantLogits : Bool) :
    Paged (Decoder V F × List Nat) :=
  if entries.length = 0 ∨ chunkCap < entries.length then
    throw (.refused (.entries entries.length chunkCap))
  else match entries.findSome? m.entryError with
    | some err => throw (.refused err)
    | none => do
        let start := { kv := d.kv, hs := entries.map (m.embed ·.token), runs := d.runs }
        let c ← (List.range m.layers).foldlM (m.runLayer entries) start
        let d := { d with kv := c.kv, hBuf := c.hs, runs := c.runs }
        if !wantLogits then
          return (d, List.replicate entries.length 0)
        let logitsMulti := m.entryLogits (entries.zip c.hs)
        let logitsHost := logitsMulti.getLast?.getD d.logitsHost
        return ({ d with logitsMulti, logitsHost }, logitsMulti.map (greedy m.f32Min))

end Stack

end StepMulti

/-! ### The Qwen engine -/

namespace Qwen

structure Kernels (V M F : Type) extends Forward.Kernels V M F where
  /-- `bf16_row`. -/
  bf16Row : M → Nat → V
  /-- `rope x heads head_dim pos`. -/
  rope : V → Nat → Nat → Nat → V
  /-- A row in the cache's element type. -/
  kvElem : V → V
  /-- `attn_decode`: the query and the rows it attends to. -/
  attnDecode : V → List (V × V) → V

structure LayerWeights (V M : Type) where
  inputLn : V
  q : M
  k : M
  v : M
  o : M
  qNorm : V
  kNorm : V
  postLn : V
  router : M

structure Config where
  hidden : Nat
  layers : Nat
  heads : Nat
  kvHeads : Nat
  headDim : Nat
  topK : Nat
  normTopkProb : Bool
  deriving Repr, DecidableEq

/-- A loaded Qwen model (`decode::Decoder` less its buffers). -/
structure Model (V M F : Type) where
  ke : Kernels V M F
  cfg : Config
  embed : M
  layer : Nat → LayerWeights V M
  finalNorm : V
  lmHead : M
  /-- `top_k_softmax`, any routing function. -/
  topKSoftmax : List F → Nat → Bool → List (Nat × F)
  maxSeq : Nat
  batchCap : Nat
  pool : Pool

namespace Model

variable [AddCommMonoid V] [SMul F V] (m : Model V M F)

/-- The attention block. -/
def attention (l : Nat) (rows : Nat → V × V) (pos : Nat) (h : V) : (Nat → V × V) × V :=
  let c := m.cfg
  let ke := m.ke
  let w := m.layer l
  let hNorm := ke.rmsnorm h w.inputLn 1 c.hidden
  let q := ke.matGemv w.q hNorm
  let k := ke.matGemv w.k hNorm
  let v := ke.matGemv w.v hNorm
  let q := ke.rmsnorm q w.qNorm c.heads c.headDim
  let k := ke.rmsnorm k w.kNorm c.kvHeads c.headDim
  let q := ke.rope q c.heads c.headDim pos
  let k := ke.rope k c.kvHeads c.headDim pos
  let rows := kvAppend rows pos (ke.kvElem k, ke.kvElem v)
  let attnOut := ke.attnDecode q (attended rows pos)
  (rows, h + ke.matGemv w.o attnOut)

def postNorm (l : Nat) (h : V) : V := m.ke.rmsnorm h (m.layer l).postLn 1 m.cfg.hidden

/-- The router, its logits read on the host. -/
def route (l : Nat) (hNorm : V) : List (Nat × F) :=
  m.topKSoftmax (m.ke.dtoh (m.ke.matGemv (m.layer l).router hNorm)) m.cfg.topK m.cfg.normTopkProb

/-- The final norm and `lm_head`, read on the host. -/
def logits (h : V) : List F :=
  m.ke.dtoh (m.ke.matGemv m.lmHead (m.ke.rmsnorm h m.finalNorm 1 m.cfg.hidden))

/-- `l as u16`. -/
def packLayer (l : Nat) : Nat := l % 2 ^ 16

def stack : Stack V F where
  layers := m.cfg.layers
  layer l :=
    { attention := m.attention l
      postNorm := m.postNorm l
      mlp := .routed none (m.route l) (packLayer l) }
  embed := m.ke.bf16Row m.embed
  expertFfn := m.ke.expertFfn
  logits := m.logits
  f32Min := m.ke.f32Min
  maxSeq := m.maxSeq
  batchCap := m.batchCap
  pool := m.pool

/-- One layer of `step`: the experts of the token in one request. -/
def stepLayer (pos : Nat) (s : (Nat → Nat → Nat → V × V) × V) (l : Nat) :
    Paged ((Nat → Nat → Nat → V × V) × V) := do
  let (kv, h) := s
  let (rows, h) := m.attention l (kv l 0) pos h
  let kv := Function.update kv l (Function.update (kv l) 0 rows)
  let hNorm := m.postNorm l h
  let picks := m.route l hNorm
  let handles ← request m.pool (packLayer l) (picks.map (·.1))
  return (kv, moeReduce (handles.map (m.ke.expertFfn hNorm)) (picks.map (·.2)) h)

variable [LT F] [DecidableLT F]

/-- `Decoder::step`. -/
def step (d : Decoder V F) (token pos : Nat) (wantLogits : Bool) :
    Paged (Decoder V F × Nat) :=
  if m.maxSeq ≤ pos then throw (.refused (.position pos m.maxSeq))
  else do
    let start := (d.kv, m.ke.bf16Row m.embed token)
    let (kv, h) ← (List.range m.cfg.layers).foldlM (m.stepLayer pos) start
    let d := { d with kv, h }
    if !wantLogits then
      return (d, 0)
    let logitsHost := m.logits h
    return ({ d with logitsHost }, greedy m.ke.f32Min logitsHost)

/-- `Decoder::step_multi`. -/
def stepMulti (d : Decoder V F) (entries : List Entry) (wantLogits : Bool) :
    Paged (Decoder V F × List Nat) :=
  m.stack.stepMulti d entries wantLogits

end Model

end Qwen

/-! ### The Kimi engine -/

namespace Kimi

structure Kernels (V M F : Type) extends Forward.Kernels V M F where
  /-- The row of a token in the host's embedding table, as `f32`. -/
  embedRow : Nat → V
  /-- `mla_rope x n_vecs stride off half pos`. -/
  mlaRope : V → Nat → Nat → Nat → Nat → Nat → V
  /-- What `strided_copy` takes: `src src_stride src_off n_vecs n`. -/
  stridedCopy : V → Nat → Nat → Nat → Nat → V
  /-- `bf16_gemv_batch w x x_stride rows cols batch`. -/
  bf16GemvBatch : M → V → Nat → Nat → Nat → Nat → V
  /-- `mla_attn_decode`: the absorbed query with its rope part, and the rows. -/
  mlaAttnDecode : V × V → List (V × V) → V

/-- What a layer has after its attention: one dense FFN, or a router, its bias
and the shared expert. -/
inductive MlpWeights (M F : Type)
  | dense (gate up down : M)
  | moe (router : M) (routerBias : List F) (gate up down : M)

structure LayerWeights (V M F : Type) where
  inputLn : V
  qA : M
  qALn : V
  qB : M
  kvA : M
  kvALn : V
  kt : M
  vw : M
  o : M
  postLn : V
  mlp : MlpWeights M F

structure Config (F : Type) where
  hidden : Nat
  layers : Nat
  denseLayers : Nat
  heads : Nat
  qLora : Nat
  kvLora : Nat
  nope : Nat
  rope : Nat
  vHead : Nat
  topK : Nat
  normTopkProb : Bool
  routedScaling : F
  deriving Repr, DecidableEq

/-- A loaded Kimi model (`KimiDecoder` less its buffers). -/
structure Model (V M F : Type) where
  ke : Kernels V M F
  cfg : Config F
  layer : Nat → LayerWeights V M F
  /-- The layers before `dense_layers` are loaded as dense ones, so
  `l - dense_layers` does not wrap. -/
  dense_le : ∀ l router routerBias gate up down,
    (layer l).mlp = .moe router routerBias gate up down → cfg.denseLayers ≤ l
  finalNorm : V
  lmHead : M
  minExpertWeight : F
  /-- `sigmoid_topk`, any routing function. -/
  sigmoidTopk : List F → List F → Nat → Bool → F → F → List (Nat × F)
  maxSeq : Nat
  batchCap : Nat
  pool : Pool

namespace Model

variable [AddCommMonoid V] [SMul F V] (m : Model V M F)

/-- The attention block (MLA, with the query absorbed into the cache's rank). -/
def attention (l : Nat) (rows : Nat → V × V) (pos : Nat) (h : V) : (Nat → V × V) × V :=
  let c := m.cfg
  let ke := m.ke
  let w := m.layer l
  let qk := c.kvLora + c.rope
  let qDim := c.nope + c.rope
  let hNorm := ke.rmsnorm h w.inputLn 1 c.hidden
  let qa := ke.matGemv w.qA hNorm
  let qa := ke.rmsnorm qa w.qALn 1 c.qLora
  let q := ke.matGemv w.qB qa
  let kva := ke.matGemv w.kvA hNorm
  let ckvNorm := ke.rmsnorm kva w.kvALn 1 c.kvLora
  let q := ke.mlaRope q c.heads qDim c.nope (c.rope / 2) pos
  let kva := ke.mlaRope kva 1 qk c.kvLora (c.rope / 2) pos
  let rows := kvAppend rows pos
    (ke.stridedCopy ckvNorm c.kvLora 0 1 c.kvLora, ke.stridedCopy kva qk c.kvLora 1 c.rope)
  let qEff := ke.bf16GemvBatch w.kt q qDim c.kvLora c.nope c.heads
  let qFull := (qEff, ke.stridedCopy q qDim c.nope c.heads c.rope)
  let ctx := ke.mlaAttnDecode qFull (attended rows pos)
  let attnPre := ke.bf16GemvBatch w.vw ctx c.kvLora c.vHead c.kvLora c.heads
  (rows, h + ke.matGemv w.o attnPre)

def postNorm (l : Nat) (h : V) : V := m.ke.rmsnorm h (m.layer l).postLn 1 m.cfg.hidden

/-- The router of a layer, its logits read on the host. -/
def route (router : M) (routerBias : List F) (hNorm : V) : List (Nat × F) :=
  m.sigmoidTopk (m.ke.dtoh (m.ke.matGemv router hNorm)) routerBias m.cfg.topK m.cfg.normTopkProb
    m.cfg.routedScaling m.minExpertWeight

def logits (h : V) : List F :=
  m.ke.dtoh (m.ke.matGemv m.lmHead (m.ke.rmsnorm h m.finalNorm 1 m.cfg.hidden))

/-- `(l - dense_layers) as u16`. -/
def packLayer (l : Nat) : Nat := (l - m.cfg.denseLayers) % 2 ^ 16

def stack : Stack V F where
  layers := m.cfg.layers
  layer l :=
    { attention := m.attention l
      postNorm := m.postNorm l
      mlp := match (m.layer l).mlp with
        | .dense gate up down => .dense (m.ke.denseFfn gate up down)
        | .moe router routerBias gate up down =>
            .routed (some (m.ke.denseFfn gate up down)) (m.route router routerBias)
              (m.packLayer l) }
  embed := m.ke.embedRow
  expertFfn := m.ke.expertFfn
  logits := m.logits
  f32Min := m.ke.f32Min
  maxSeq := m.maxSeq
  batchCap := m.batchCap
  pool := m.pool

/-- One wave of `step`. -/
def stepWave (packLayer : Nat) (hNorm h : V) (wave : List (Nat × F)) : Paged V := do
  let handles ← request m.pool packLayer (wave.map (·.1))
  return moeReduce (handles.map (m.ke.expertFfn hNorm)) (wave.map (·.2)) h

/-- One layer of `step`: the experts of the token in waves, then the shared one. -/
def stepLayer (pos : Nat) (s : (Nat → Nat → Nat → V × V) × V) (l : Nat) :
    Paged ((Nat → Nat → Nat → V × V) × V) :=
  let (kv, h) := s
  let (rows, h) := m.attention l (kv l 0) pos h
  let kv := Function.update kv l (Function.update (kv l) 0 rows)
  let hNorm := m.postNorm l h
  match (m.layer l).mlp with
  | .dense gate up down => pure (kv, h + m.ke.denseFfn gate up down hNorm)
  | .moe router routerBias gate up down => do
      let picks := m.route router routerBias hNorm
      let shOut := m.ke.denseFfn gate up down hNorm
      let h ← (chunks (max m.pool.slots 1) picks).foldlM (m.stepWave (m.packLayer l) hNorm) h
      return (kv, h + shOut)

variable [LT F] [DecidableLT F]

/-- `KimiDecoder::step`. -/
def step (d : Decoder V F) (token pos : Nat) (wantLogits : Bool) :
    Paged (Decoder V F × Nat) :=
  if m.maxSeq ≤ pos then throw (.refused (.position pos m.maxSeq))
  else do
    let start := (d.kv, m.ke.embedRow token)
    let (kv, h) ← (List.range m.cfg.layers).foldlM (m.stepLayer pos) start
    let d := { d with kv, h }
    if !wantLogits then
      return (d, 0)
    let logitsHost := m.logits h
    return ({ d with logitsHost }, greedy m.ke.f32Min logitsHost)

/-- `KimiDecoder::step_multi`. -/
def stepMulti (d : Decoder V F) (entries : List Entry) (wantLogits : Bool) :
    Paged (Decoder V F × List Nat) :=
  m.stack.stepMulti d entries wantLogits

end Model

end Kimi

/-! ### The dispatch -/

inductive AnyDecoder (V M F : Type)
  | qwen (m : Qwen.Model V M F)
  | kimi (m : Kimi.Model V M F)

namespace AnyDecoder

variable [AddCommMonoid V] [SMul F V] [LT F] [DecidableLT F]

def step : AnyDecoder V M F → Decoder V F → Nat → Nat → Bool →
    Paged (Decoder V F × Nat)
  | qwen m => m.step
  | kimi m => m.step

def stepMulti : AnyDecoder V M F → Decoder V F → List Entry → Bool →
    Paged (Decoder V F × List Nat)
  | qwen m => m.stepMulti
  | kimi m => m.stepMulti

end AnyDecoder

end LlmPager.Forward
