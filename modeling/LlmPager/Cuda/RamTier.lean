import LlmPager.Core.Pack
import LlmPager.Cuda.Pager

/-!
# LlmPager.Cuda.RamTier

The host-RAM tier (`RamTier` in `llmpager-cuda/src/pager.rs`) and the threads
that use it: the part of `worker` between taking a job and the copy to the
device, and the loop body of `prewarm`.

The tier's bookkeeping is a one-partition `ExpertCache`; its bytes are one slab
per slot. A fetch goes through `get`, and on a miss through `read_blob_into` and
`put`. Each is cut where it takes or drops the tier's lock and where it copies
memory, so that any number of threads interleave (`Fetchers`); the pin a thread
holds is what keeps its copy from racing with another.

`hits` and what `prewarm` ranks its experts by decide nothing here; the tier
counts its hits, `prewarm` may read any expert.
-/

namespace LlmPager

structure RamTier where
  cache : ExpertCache
  slab : Nat → List UInt8
  span : Nat
  expertsPerLayer : Nat
  hits : Nat

namespace RamTier

/-- `RamTier::new`: it panics for an empty span, and there is no tier when no
slot fits or when the experts do not fit the `u16` keys. -/
def new (bytes span numLayers expertsPerLayer : Nat) : Option (Option RamTier) :=
  if span = 0 then none
  else
    let slots := bytes / span % 2 ^ 32
    if slots = 0 ∨ 2 ^ 16 - 1 < numLayers * expertsPerLayer then some none
    else if 2 ^ 32 ≤ max slots 64 * 4 then none
    else do
      let cache ← ExpertCache.new 1 slots (max slots 64 * 4)
      some (some
        { cache := cache, slab := fun _ => List.replicate span 0, span := span,
          expertsPerLayer := expertsPerLayer, hits := 0 })

/-- `RamTier::key`, a `u16`. -/
def key (t : RamTier) (layer expert : Nat) : Nat :=
  (layer * t.expertsPerLayer + expert) % 2 ^ 16

end RamTier

/-- What a thread fetches: a job of the pager, or an expert to warm up. -/
structure FetchJob where
  layer : Nat
  expert : Nat
  warm : Bool
  deriving Repr, DecidableEq

/-- Where a thread is in its fetch. -/
inductive FetchPhase
  | idle
  /-- About to ask the tier: `get`. -/
  | looking (job : FetchJob)
  | copyingOut (job : FetchJob) (slot : Nat)
  | copiedOut (job : FetchJob) (slot : Nat)
  /-- About to read the disk. -/
  | missed (job : FetchJob)
  /-- The blob is in the buffer; about to offer it to the tier: `put`. -/
  | read (job : FetchJob) (len : Nat)
  | writing (job : FetchJob) (slot len : Nat)
  | written (job : FetchJob) (slot len : Nat)
  /-- About to copy `len` bytes, rounded up, to the device. -/
  | fetched (job : FetchJob) (ramHit : Bool) (len : Nat)
  | dead
  deriving Repr, DecidableEq

variable {Value : Type}

/-- A thread with its buffer and its own reader of the pack. -/
structure FetchWorker (Value : Type) where
  pin : Buf
  reader : PackReader Value
  phase : FetchPhase

namespace FetchWorker

/-- What `htod_async` is given; `none` when the slice is out of range. -/
def copied (w : FetchWorker Value) (len : Nat) : Option (List UInt8) :=
  if alignUp len ≤ w.pin.bytes.length then some (w.pin.bytes.take (alignUp len)) else none

/-- After `put` a warm-up is over. -/
def afterPut (job : FetchJob) (len : Nat) : FetchPhase :=
  if job.warm then .idle else .fetched job false len

/-- The next step of a thread that is in a fetch; none where it panics. -/
def next (unzstd : List UInt8 → Nat → Option (List UInt8)) (t : RamTier)
    (w : FetchWorker Value) : Option (RamTier × FetchWorker Value) :=
  match w.phase with
  | .idle | .dead => none
  | .looking job => do
      let (r, c) ← t.cache.lookupReady (t.key job.layer job.expert)
      match r with
      | some slot => some ({ t with cache := c }, { w with phase := .copyingOut job slot })
      | none => some ({ t with cache := c }, { w with phase := .missed job })
  | .copyingOut job slot =>
      let bytes := (t.slab slot).take t.span ++ w.pin.bytes.drop t.span
      some (t, { w with pin := { w.pin with bytes := bytes }, phase := .copiedOut job slot })
  | .copiedOut job slot => do
      let c ← t.cache.release slot
      -- the length on this path is the index entry's
      let e ← w.reader.entry job.layer job.expert
      some ({ t with cache := c, hits := t.hits + 1 },
        { w with phase := .fetched job true e.nbytes })
  | .missed job =>
      match w.reader.readBlobInto unzstd job.layer job.expert w.pin with
      | .error _ => some (t, { w with phase := .dead })
      | .ok (n, pin, reader) => some (t, { pin := pin, reader := reader, phase := .read job n })
  | .read job len => do
      let (r, c) ← t.cache.acquire (t.key job.layer job.expert)
      match r with
      | .miss slot _ => some ({ t with cache := c }, { w with phase := .writing job slot len })
      | .hit slot => do
          let c ← c.release slot
          some ({ t with cache := c }, { w with phase := afterPut job len })
      | .stalled => some ({ t with cache := c }, { w with phase := afterPut job len })
  | .writing job slot len =>
      some ({ t with slab := Function.update t.slab slot (w.pin.bytes.take t.span) },
        { w with phase := .written job slot len })
  | .written job slot len => do
      let c ← t.cache.publish slot
      let c ← c.release slot
      some ({ t with cache := c }, { w with phase := afterPut job len })
  | .fetched _ _ len =>
      match w.copied len with
      | some _ => some (t, { w with phase := .idle })
      | none => some (t, { w with phase := .dead })

end FetchWorker

/-- The tier and its threads. -/
structure Fetchers (Value : Type) where
  tier : RamTier
  workers : List (FetchWorker Value)

/-- A thread takes up a job, or goes on with its own. -/
inductive FetchAction
  | take (k : Nat) (job : FetchJob)
  | next (k : Nat)
  deriving Repr, DecidableEq

namespace Fetchers

variable (unzstd : List UInt8 → Nat → Option (List UInt8)) (r : PackReader Value)

/-- One step of one thread. Jobs name experts of the pack; a warm-up goes
straight to the disk. -/
def step (s : Fetchers Value) : FetchAction → Option (Fetchers Value)
  | .take k job => do
      let w ← s.workers[k]?
      if w.phase = .idle ∧ job.layer < r.packMeta.numLayers.toNat ∧
          job.expert < r.packMeta.expertsPerLayer.toNat then
        let phase := if job.warm then .missed job else .looking job
        some { s with workers := s.workers.set k { w with phase := phase } }
      else none
  | .next k => do
      let w ← s.workers[k]?
      let (t, w') ← w.next unzstd s.tier
      some { tier := t, workers := s.workers.set k w' }

/-- `Pager::new`'s span: the largest blob, aligned. -/
def spanOf (r : PackReader Value) : Nat := alignUp r.maxBlobBytes

/-- The interleavings of any number of threads on a fresh tier. Each has opened
the pack; its buffer spans a blob and may hold anything. -/
def system (ramBytes : Nat) : Lib.System (Fetchers Value) FetchAction :=
  .ofPartial
    (fun s =>
      RamTier.new ramBytes (spanOf r) r.packMeta.numLayers.toNat
        r.packMeta.expertsPerLayer.toNat = some (some s.tier) ∧
      ∀ w ∈ s.workers, w.reader = r ∧ w.phase = .idle ∧ w.pin.bytes.length = spanOf r)
    (step unzstd r)

end Fetchers

end LlmPager
