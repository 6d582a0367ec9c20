import LlmPager.Lib.Fallible
import LlmPager.Run.Resize

/-!
# LlmPager.Serve.Registry

The warm models of `llmpager-serve` (`Registry` in `main.rs`, the handler of
`POST /v1/admin/slots`): which models are loaded, and how large their expert caches
are.

What the device, the packs and the file system answer is the `Host`, by the number
of the resize and of the load; answers to different calls are not related. Of a
model the registry looks at the size of its cache and at its VRAM reserve only: its
tokenizer and its sessions are left out. A panic is an error of its own. It poisons
the lock of the registry, so what it leaves is never read.
-/

namespace LlmPager.Serve

open LlmPager.Lib

/-- What the registry reads of a `ModelSpec`. -/
structure ModelSpec where
  name : String
  /-- Cache size when sharing VRAM with other warm models. -/
  slots : Nat
  /-- Cache size when this is the only warm model. -/
  slotsSolo : Nat
  ioThreads : Nat
  /-- `(ram_gb * 1e9) as u64`. -/
  ramBytes : Nat
  reserveMb : Nat
  deriving Repr, DecidableEq

/-- The size a model gets when `count` models are warm. -/
def ModelSpec.target (spec : ModelSpec) (count : Nat) : Nat :=
  if count ≤ 1 then spec.slotsSolo else spec.slots

/-- `mb * 1_000_000` on `u64`. -/
def mbToBytes (mb : Nat) : Nat := mb * 1000000 % 2 ^ 64

inductive LoadError
  | tokenizer
  /-- `AnyDecoder::new` failed before it built its pager. -/
  | core
  | pager (err : ArenaError)
  /-- ... or after it. -/
  | buffers
  deriving Repr, DecidableEq

inductive RegistryError
  | unknownModel (name : String)
  | resize (err : ResizeError)
  | load (err : LoadError)
  /-- A request to `/v1/admin/slots` that asks for nothing. -/
  | slotsRequest
  | panicked
  deriving Repr, DecidableEq

/-- The texts of `main.rs`. -/
def RegistryError.message : RegistryError → Option String
  | unknownModel name => some s!"unknown model {name}"
  | resize err => err.message
  | slotsRequest =>
      some "expected a \"target\" slot count or a \"reserve_mb\" free-VRAM target"
  | _ => none

/-- What one `resize_cache` meets. -/
structure ResizeEnv where
  sync : Bool
  first : BuildEnv
  fallback : BuildEnv

/-- Which engine the pack's config asks for. -/
inductive DecoderKind
  | qwen
  | kimi
  deriving Repr, DecidableEq

def DecoderKind.decoder : DecoderKind → CacheOwner → AnyDecoder
  | qwen => .qwen
  | kimi => .kimi

/-- What one `load` meets. -/
structure LoadEnv where
  /-- `Tokenizer::from_file`. -/
  tokenizer : Bool
  /-- The pack's config, the kernels and the resident core. -/
  core : Option DecoderKind
  build : BuildEnv
  /-- The KV caches and work buffers, allocated after the arenas. -/
  buffers : Bool

structure Host where
  resize : Nat → ResizeEnv
  load : Nat → LoadEnv
  /-- `LLMPAGER_GLOBAL_POOL`. -/
  globalPool : Bool
  /-- `LLMPAGER_POOL_DECAY_TOKENS`. -/
  decayTokens : Nat

/-- What the registry reads of a warm `Engine`. -/
structure Registry.Engine where
  dec : AnyDecoder
  curSlots : Nat
  /-- VRAM reserve currently in force. -/
  reserveBytes : Nat

structure Registry where
  specs : List ModelSpec
  maxWarm : Nat
  /-- Most recently used first. -/
  warm : List (String × Registry.Engine)
  /-- How many resizes there have been (the model's own count). -/
  resizes : Nat
  /-- How many loads there have been. -/
  loads : Nat

namespace Registry

/-- The spec of a name: the first one in the list. -/
def specOf (specs : List ModelSpec) (name : String) : Option ModelSpec :=
  specs.find? fun s => s.name = name

def spec (r : Registry) (name : String) : Option ModelSpec := specOf r.specs name

/-- The warm names, most recently used first. -/
def names (r : Registry) : List String := r.warm.map (·.1)

/-- `warm.iter().position(|(n, _)| n == name)`. -/
def position (warm : List (String × Engine)) (name : String) : Option Nat :=
  warm.findIdx? fun w => w.1 = name

/-! ### Resizing -/

/-- What a loop over the warm models makes of one of them. -/
structure Swept where
  engine : Engine
  /-- Resizes so far. -/
  resizes : Nat
  error : Option RegistryError

namespace Engine

/-- `cur_slots = dec.slots_per_layer()`. -/
def syncSlots (e : Engine) : Engine := { e with curSlots := e.dec.slotsPerLayer }

/-- Write both copies of the reserve. -/
def setReserve (e : Engine) (bytes : Nat) : Engine :=
  { e with reserveBytes := bytes, dec := e.dec.setReserveBytes bytes }

/-- `dec.resize_cache(want)`, the `n`-th resize. -/
def resizeCache (host : Host) (n want : Nat) (e : Engine) : Swept :=
  match e.dec.resizeCache (host.resize n).sync (host.resize n).first (host.resize n).fallback
      want with
  | none => ⟨e, n + 1, some .panicked⟩
  | some (.ok (), dec) => ⟨{ e with dec }, n + 1, none⟩
  | some (.error err, dec) => ⟨{ e with dec }, n + 1, some (.resize err)⟩

end Engine

/-- The body of the loop of `rebalance`. -/
def rebalanceOne (host : Host) (specs : List ModelSpec) (count n : Nat) (name : String)
    (e : Engine) : Swept :=
  match specOf specs name with
  -- `expect("warm model has a spec")`
  | none => ⟨e, n, some .panicked⟩
  | some spec =>
      if e.curSlots = spec.target count then ⟨e, n, none⟩
      else
        let one := e.resizeCache host n (spec.target count)
        match one.error with
        | none => { one with engine := one.engine.syncSlots }
        | some _ => one

/-- A loop over the warm models that ends at the first error. -/
structure Sweep where
  warm : List (String × Engine)
  resizes : Nat
  error : Option RegistryError

def sweep (f : Nat → String → Engine → Swept) : Nat → List (String × Engine) → Sweep
  | n, [] => ⟨[], n, none⟩
  | n, (name, e) :: rest =>
      match (f n name e).error with
      | some err => ⟨(name, (f n name e).engine) :: rest, (f n name e).resizes, some err⟩
      | none =>
          let s := sweep f (f n name e).resizes rest
          { s with warm := (name, (f n name e).engine) :: s.warm }

/-- `rebalance`: resize every warm model's cache to its target for `count` warm
models. -/
def rebalance (host : Host) (count : Nat) : EStateM RegistryError Registry Unit := fun r =>
  let s := sweep (rebalanceOne host r.specs count) r.resizes r.warm
  let r' := { r with warm := s.warm, resizes := s.resizes }
  match s.error with
  | none => .ok () r'
  | some err => .error err r'

/-! ### Warming up -/

/-- The decoder that `load` starts with, before it has a pager. -/
def bareDecoder (host : Host) (spec : ModelSpec) : CacheOwner where
  pager := none
  pendingRelease := []
  ioThreads := spec.ioThreads
  ramBytes := spec.ramBytes
  reserveBytes := mbToBytes spec.reserveMb
  globalPool := host.globalPool
  decayTokens := host.decayTokens

/-- The closure `load` of `warm_up`, the `n`-th load; `none` is a panic. -/
def load (host : Host) (n : Nat) (spec : ModelSpec) (slots : Nat) :
    Option (Except LoadError Engine) :=
  let env := host.load n
  let d := bareDecoder host spec
  if env.tokenizer = false then some (.error .tokenizer)
  else
    match env.core with
    | none => some (.error .core)
    | some kind =>
        match d.build env.build slots d.reserveBytes with
        | none => none
        | some (.error err) => some (.error (.pager err))
        | some (.ok arena) =>
            if env.buffers = false then some (.error .buffers)
            else
              some (.ok
                { dec := kind.decoder { d with pager := some arena }, curSlots := slots,
                  reserveBytes := mbToBytes spec.reserveMb })

/-- A call of `load` from `warm_up`. -/
def tryLoad (host : Host) (spec : ModelSpec) (slots : Nat) :
    EStateM RegistryError Registry (Except LoadError Engine) := do
  let n := (← get).loads
  modify fun r => { r with loads := n + 1 }
  match load host n spec slots with
  | none => throw .panicked
  | some result => pure result

/-- The loop that makes room, one pop per unit of fuel. -/
def evictAux : Nat → Registry → Registry
  | 0, r => r
  | fuel + 1, r =>
      if max r.maxWarm 1 ≤ r.warm.length then evictAux fuel { r with warm := r.warm.dropLast }
      else r

/-- `while self.warm.len() >= self.max_warm.max(1)`: pop the last model. -/
def evict (r : Registry) : Registry := evictAux r.warm.length r

/-- Load, and once more with the card to itself if that fails. -/
def loadOrRetry (host : Host) (name : String) (spec : ModelSpec) (slots : Nat) :
    EStateM RegistryError Registry Engine := do
  match ← tryLoad host spec slots with
  | .ok e => pure e
  | .error err => do
      if (← get).warm = [] then throw (.load err)
      else do
        modify fun r => { r with warm := [] }
        match (← get).spec name with
        | none => throw (.unknownModel name)
        | some again =>
            match ← tryLoad host spec again.slotsSolo with
            | .ok e => pure e
            | .error err => throw (.load err)

/-- `warm_up` of a cold model, up to the insertion of the engine. -/
def warmCold (host : Host) (name : String) (spec : ModelSpec) :
    EStateM RegistryError Registry Unit := do
  modify evict
  let count := (← get).warm.length + 1
  rebalance host count
  let engine ← loadOrRetry host name spec (spec.target count)
  modify fun r => { r with warm := (name, engine.syncSlots) :: r.warm }

/-- `warm_up`: warm the named model and move it to the front. -/
def warmUp (host : Host) (name : String) : EStateM RegistryError Registry Nat := do
  match position (← get).warm name with
  | some i => do
      modify fun r => { r with warm := r.warm[i]?.toList ++ r.warm.eraseIdx i }
      pure 0
  | none =>
      match (← get).spec name with
      | none => throw (.unknownModel name)
      | some spec => do
          warmCold host name spec
          -- if eviction or the retry left us solo, grow back
          rebalance host (← get).warm.length
          pure 0

/-! ### `POST /v1/admin/slots` -/

/-- The fields of the request that are there, as `u64`. -/
structure SlotsRequest where
  target : Option Nat
  reserveMb : Option Nat
  deriving Repr, DecidableEq

/-- The size asked for: `target as u32`, or the solo size of the model. -/
def SlotsRequest.want (req : SlotsRequest) (specs : List ModelSpec) (name : String) :
    Option Nat :=
  match req.target with
  | some t => some (t % 2 ^ 32)
  | none => (specOf specs name).map ModelSpec.slotsSolo

/-- The reserve a model has during the request. -/
def SlotsRequest.reserve (req : SlotsRequest) (e : Engine) : Engine :=
  match req.reserveMb with
  | some mb => e.setReserve (mbToBytes mb)
  | none => e

/-- The body of the handler's loop. -/
def slotsOne (host : Host) (req : SlotsRequest) (want n : Nat) (e : Engine) : Swept :=
  let one := (req.reserve e).resizeCache host n want
  match one.error with
  -- the reserve that could not be met does not stay armed
  | some _ => { one with engine := (one.engine.setReserve e.reserveBytes).syncSlots }
  | none => { one with engine := one.engine.syncSlots }

/-- One turn of the handler's loop: the model is looked up by its name. -/
def slotsFor (host : Host) (req : SlotsRequest) (name : String) :
    EStateM RegistryError Registry (List (String × Nat)) := fun r =>
  match req.want r.specs name with
  | none => .error (.unknownModel name) r
  | some want =>
      match position r.warm name with
      | none => .ok [] r
      | some i =>
          match r.warm[i]? with
          | none => .ok [] r
          | some (n, e) =>
              let one := slotsOne host req want r.resizes e
              let r' := { r with warm := r.warm.set i (n, one.engine), resizes := one.resizes }
              match one.error with
              | some err => .error err r'
              | none => .ok [(name, one.engine.curSlots)] r'

def slotsNamed (host : Host) (req : SlotsRequest) :
    List String → EStateM RegistryError Registry (List (String × Nat))
  | [] => pure []
  | name :: rest => do
      let out ← slotsFor host req name
      let outs ← slotsNamed host req rest
      pure (out ++ outs)

/-- The handler; its answer lists the warm models with their sizes. -/
def adminSlots (host : Host) (req : SlotsRequest) :
    EStateM RegistryError Registry (List (String × Nat)) := do
  if req.target = none ∧ req.reserveMb = none then throw .slotsRequest
  else slotsNamed host req (← get).names

/-- The registry a call leaves, however it ends. -/
def after {α : Type} (m : EStateM RegistryError Registry α) (r : Registry) : Registry :=
  match m r with
  | .ok _ r' => r'
  | .error _ r' => r'

end Registry

end LlmPager.Serve
