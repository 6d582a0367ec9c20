import LlmPager.Core.Cache
import LlmPager.Lib.Transition

/-!
# LlmPager.Cuda.Pager

The pager (`llmpager-cuda/src/pager.rs`): client calls, the job channel and the
I/O workers, as one interleaving system.

A step is what one thread does without giving another a chance to be seen: a
critical section under `state`'s mutex, a `send`, a `recv`, or one call of a
worker outside the lock.

* `Pager.tryRequest`, `Pager.tryPrefetch`, `Pager.send`, `Pager.release`,
  `Pager.tick` and `Pager.workerStep` are those sections, translated from the
  source. `none` is a panic, or a step the thread cannot take.
* `Clients` puts any number of callers on one pager, `Clients.step` lets one
  caller or one worker move.

A worker may die in any state: the `?` after each of its calls ends the thread
and takes the job with it. When the last worker is gone the channel's receiver
is dropped, with whatever is queued, and `send` fails from then on.

Two fields are not in the source: `device` records for which expert the last
copy into each slot was made, and `dropped` the jobs that died with the
channel. The RAM tier decides only which bytes a worker reads, so it does not
appear here; `dev` and `len` of a handle are functions of its other fields.
-/

namespace LlmPager

/-- Whether a slot's weights have arrived. -/
inductive Fill
  | empty
  | inFlight
  | ready
  deriving Repr, DecidableEq

/-- A fetch for a worker. -/
structure Job where
  layer : Nat
  expert : Nat
  slot : Nat
  /-- True for a prefetch: the worker drops the pin after the fill. -/
  releaseAfterFill : Bool
  deriving Repr, DecidableEq

/-- A pinned, resident (or in-flight) expert. -/
structure ExpertHandle where
  layer : Nat
  expert : Nat
  slot : Nat
  deriving Repr, DecidableEq

/-- The handle `request` returns for the job it sent. -/
def Job.handle (job : Job) : ExpertHandle :=
  { layer := job.layer, expert := job.expert, slot := job.slot }

/-- Where an I/O worker is in its loop. -/
inductive Worker
  /-- Before the loop: binding the thread, opening the pack, allocating. -/
  | starting
  /-- In `recv`. -/
  | idle
  /-- Reading the blob, from the RAM tier or the disk. -/
  | fetching (job : Job)
  /-- The copy to the device is enqueued. -/
  | copying (job : Job)
  /-- `sync_stream` has returned. -/
  | copied (job : Job)
  /-- The thread ended on an error, with the job it had and whether that job's
  copy was enqueued, hence may still be running. -/
  | dead (job : Option Job) (copying : Bool)
  deriving Repr, DecidableEq

namespace Worker

def alive : Worker → Bool
  | dead _ _ => false
  | _ => true

/-- The job a worker has taken and not finished. -/
def job : Worker → Option Job
  | starting | idle => none
  | fetching job | copying job | copied job => some job
  | dead job _ => job

/-- The job whose copy into its slot may be running. -/
def running : Worker → Option Job
  | copying job => some job
  | dead job true => job
  | _ => none

/-- The job whose copy into its slot has been enqueued, finished or not. -/
def written : Worker → Option Job
  | copied job => some job
  | w => w.running

/-- A copy is made for a job the worker still has. -/
theorem job_of_written {w : Worker} {j : Job} (h : w.written = some j) : w.job = some j := by
  cases w with
  | starting | idle | fetching => cases h
  | copying | copied => exact h
  | dead job copying =>
      cases copying with
      | false => cases h
      | true => exact h

/-- Dying leaves at most the copy that was being made. -/
theorem written_of_dead {w : Worker} {j : Job}
    (h : (Worker.dead w.job w.running.isSome).written = some j) : w.written = some j := by
  cases w with
  | starting | idle | fetching | copied => cases h
  | copying => exact h
  | dead job copying =>
      cases copying with
      | false => cases h
      | true =>
          cases job with
          | none => cases h
          | some job => exact h

end Worker

/-- What one worker can do next. -/
inductive WorkerAction
  | start
  | take
  | copy
  | sync
  | publish
  | die
  deriving Repr, DecidableEq

/-- The fields of `PagerConfig` and of the pack's meta that decide the pager's
shape, and the two environment settings. -/
structure PagerConfig where
  numLayers : Nat
  expertsPerLayer : Nat
  slotsPerLayer : Nat
  decayInterval : Nat
  ioThreads : Nat
  globalPool : Bool
  decayTokens : Nat

structure Pager where
  numLayers : Nat
  expertsPerLayer : Nat
  globalPool : Bool
  decayTokens : Nat
  ticks : Nat
  cache : ExpertCache
  fill : Nat → Fill
  queue : List Job
  workers : List Worker
  /-- Jobs that were dropped with the channel. -/
  dropped : List Job
  /-- The expert, as `(layer, expert)`, of the last copy into each slot. -/
  device : Nat → Option (Nat × Nat)

/-- How one attempt of `request` at an expert ends. -/
inductive Attempt
  | got (slot : Nat)
  | fetch (job : Job)
  | stalled
  deriving Repr, DecidableEq

namespace Pager

/-- The cache `Pager::new` builds: one pool per layer, or one for all. -/
def newCache (cfg : PagerConfig) : Option ExpertCache :=
  if cfg.globalPool then
    ExpertCache.partitioned 1 cfg.expertsPerLayer
      (cfg.numLayers * cfg.slotsPerLayer % 2 ^ 32) (2 ^ 32 - 1)
  else
    ExpertCache.partitioned cfg.numLayers cfg.expertsPerLayer cfg.slotsPerLayer
      cfg.decayInterval

/-- `Pager::new`. -/
def new (cfg : PagerConfig) : Option Pager := do
  let cache ← newCache cfg
  some
    { numLayers := cfg.numLayers
      expertsPerLayer := cfg.expertsPerLayer
      globalPool := cfg.globalPool
      decayTokens := max cfg.decayTokens 1
      ticks := 0
      cache := cache
      fill := fun _ => .empty
      queue := []
      workers := List.replicate (max cfg.ioThreads 1) .starting
      dropped := []
      device := fun _ => none }

/-- `Shared::id_of`. -/
def idOf (p : Pager) (layer expert : Nat) : Nat := layer * p.expertsPerLayer + expert

/-- One turn of the loop in `request`: under the lock, look the expert up and,
on a miss, mark its slot in flight. -/
def tryRequest (p : Pager) (layer expert : Nat) : Option (Attempt × Pager) := do
  let (r, c) ← p.cache.acquire (p.idOf layer expert)
  match r with
  | .hit slot => some (.got slot, { p with cache := c })
  | .miss slot _ =>
      some (.fetch { layer, expert, slot, releaseAfterFill := false },
        { p with cache := c, fill := Function.update p.fill slot .inFlight })
  | .stalled => some (.stalled, { p with cache := c })

/-- The body of the loop in `prefetch`, up to the send. -/
def tryPrefetch (p : Pager) (layer expert : Nat) : Option (Option Job × Pager) := do
  let (r, c) ← p.cache.acquire (p.idOf layer expert)
  match r with
  | .hit slot => do
      let c ← c.release slot
      some (none, { p with cache := c })
  | .miss slot _ =>
      some (some { layer, expert, slot, releaseAfterFill := true },
        { p with cache := c, fill := Function.update p.fill slot .inFlight })
  | .stalled => some (none, { p with cache := c })

/-- `Sender::send`: fails once no worker holds the receiver. -/
def send (p : Pager) (job : Job) : Option Pager :=
  if p.workers.any Worker.alive then some { p with queue := p.queue ++ [job] } else none

/-- `Pager::release`. -/
def release (p : Pager) (h : ExpertHandle) : Option Pager := do
  let c ← p.cache.release h.slot
  some { p with cache := c }

/-- `Pager::tick`. -/
def tick (p : Pager) : Pager :=
  if ¬ p.globalPool then p
  else if (p.ticks + 1) % p.decayTokens = 0 then
    { p with ticks := p.ticks + 1, cache := p.cache.decayAll }
  else { p with ticks := p.ticks + 1 }

/-- The critical section at the end of the worker's loop. -/
def fillDone (p : Pager) (job : Job) : Option Pager := do
  let c ← p.cache.publish job.slot
  let c ← (if job.releaseAfterFill then c.release job.slot else some c)
  some { p with cache := c, fill := Function.update p.fill job.slot .ready }

/-- The channel after a worker has ended: the last one takes the receiver, and
with it every queued job. -/
def closeChannel (p : Pager) : Pager :=
  if p.workers.any Worker.alive then p
  else { p with queue := [], dropped := p.dropped ++ p.queue }

/-- One step of worker `k`. -/
def workerStep (p : Pager) (k : Nat) (a : WorkerAction) : Option Pager := do
  let w ← p.workers[k]?
  match w, a with
  | .starting, .start => some { p with workers := p.workers.set k .idle }
  | .idle, .take =>
      match p.queue with
      | [] => none
      | job :: rest => some { p with queue := rest, workers := p.workers.set k (.fetching job) }
  | .fetching job, .copy =>
      some { p with
        workers := p.workers.set k (.copying job)
        device := Function.update p.device job.slot (some (job.layer, job.expert)) }
  | .copying job, .sync => some { p with workers := p.workers.set k (.copied job) }
  | .copied job, .publish => do
      let p ← p.fillDone job
      some { p with workers := p.workers.set k .idle }
  | .dead _ _, _ => none
  | w, .die =>
      some (closeChannel { p with workers := p.workers.set k (.dead w.job w.running.isSome) })
  | _, _ => none

/-- The jobs that are queued or in the hands of a worker, dead or alive. -/
def jobs (p : Pager) : List Job := p.queue ++ p.workers.flatMap (·.job.toList) ++ p.dropped

end Pager

/-! ### Any number of callers on one pager -/

/-- A call of `request` or `prefetch` between two of its critical sections. -/
inductive Call
  | request (layer : Nat) (todo : List Nat) (out : List ExpertHandle) (sending : Option Job)
  | prefetch (layer : Nat) (todo : List Nat) (sending : Option Job)
  deriving Repr, DecidableEq

namespace Call

/-- The job a call has taken from a miss and is about to send. -/
def sending : Call → Option Job
  | request _ _ _ sending => sending
  | prefetch _ _ sending => sending

/-- The handles a call has pinned so far. -/
def handles : Call → List ExpertHandle
  | request _ _ out sending => out ++ (sending.map Job.handle).toList
  | prefetch _ _ _ => []

end Call

/-- A pager and its callers. A handle is `held` when `request` has returned it,
`waited` once a `wait` on it has returned, and `leaked` when a failing request
drops it. -/
structure Clients where
  pager : Pager
  calls : List Call
  held : List ExpertHandle
  waited : List ExpertHandle
  leaked : List ExpertHandle

/-- What a caller or a worker can do next; calls and workers go by position. -/
inductive Action
  | callRequest (layer : Nat) (experts : List Nat)
  | callPrefetch (layer : Nat) (experts : List Nat)
  | acquire (call : Nat)
  | giveUp (call : Nat)
  | send (call : Nat)
  | ret (call : Nat)
  | wait (h : ExpertHandle)
  | release (h : ExpertHandle)
  | tick
  | worker (k : Nat) (a : WorkerAction)
  deriving Repr, DecidableEq

namespace Clients

/-- The experts a call may name: those of the pack. -/
def Named (p : Pager) (layer : Nat) (experts : List Nat) : Prop :=
  layer < p.numLayers ∧ ∀ e ∈ experts, e < p.expertsPerLayer

instance (p : Pager) (layer : Nat) (experts : List Nat) : Decidable (Named p layer experts) :=
  inferInstanceAs (Decidable (_ ∧ _))

/-- One attempt of call `i` at its next expert. -/
def acquire (s : Clients) (i : Nat) : Option Clients := do
  let call ← s.calls[i]?
  match call with
  | .request layer (expert :: todo) out none => do
      let (r, p) ← s.pager.tryRequest layer expert
      match r with
      | .got slot =>
          let h : ExpertHandle := { layer, expert, slot }
          some { s with pager := p, calls := s.calls.set i (.request layer todo (out ++ [h]) none) }
      | .fetch job =>
          some { s with pager := p, calls := s.calls.set i (.request layer todo out (some job)) }
      | .stalled => some { s with pager := p }
  | .prefetch layer (expert :: todo) none => do
      let (r, p) ← s.pager.tryPrefetch layer expert
      some { s with pager := p, calls := s.calls.set i (.prefetch layer todo r) }
  | _ => none

/-- The stall grace of call `i` has passed with the partition still wedged: the
request fails and drops what it had pinned. -/
def giveUp (s : Clients) (i : Nat) : Option Clients := do
  let call ← s.calls[i]?
  match call with
  | .request layer (expert :: _) out none => do
      let wedged ← s.pager.cache.isWedged (s.pager.idOf layer expert)
      if wedged then some { s with calls := s.calls.eraseIdx i, leaked := out ++ s.leaked }
      else none
  | _ => none

/-- Call `i` sends its job. With the workers gone a request panics (dropping
its handles) and a prefetch carries on without the fetch. -/
def send (s : Clients) (i : Nat) : Option Clients := do
  let call ← s.calls[i]?
  match call with
  | .request layer todo out (some job) =>
      match s.pager.send job with
      | some p =>
          some { s with
            pager := p, calls := s.calls.set i (.request layer todo (out ++ [job.handle]) none) }
      | none =>
          some { s with
            pager := { s.pager with dropped := s.pager.dropped ++ [job] }
            calls := s.calls.eraseIdx i
            leaked := (out ++ [job.handle]) ++ s.leaked }
  | .prefetch layer todo (some job) =>
      match s.pager.send job with
      | some p => some { s with pager := p, calls := s.calls.set i (.prefetch layer todo none) }
      | none =>
          some { s with
            pager := { s.pager with dropped := s.pager.dropped ++ [job] }
            calls := s.calls.set i (.prefetch layer todo none) }
  | _ => none

/-- Call `i` returns. -/
def ret (s : Clients) (i : Nat) : Option Clients := do
  let call ← s.calls[i]?
  match call with
  | .request _ [] out none =>
      some { s with calls := s.calls.eraseIdx i, held := out ++ s.held }
  | .prefetch _ [] none => some { s with calls := s.calls.eraseIdx i }
  | _ => none

/-- One step of one caller or one worker. `wait` is the moment it returns, so
it needs the slot filled; a handle is released only after that. -/
def step (s : Clients) : Action → Option Clients
  | .callRequest layer experts => do
      let capacity ← s.pager.cache.slotsPerPartition
      if ¬ Named s.pager layer experts then none
      else if capacity < experts.length then some s
      else some { s with calls := s.calls ++ [.request layer experts [] none] }
  | .callPrefetch layer experts =>
      if Named s.pager layer experts then
        some { s with calls := s.calls ++ [.prefetch layer experts none] }
      else none
  | .acquire i => s.acquire i
  | .giveUp i => s.giveUp i
  | .send i => s.send i
  | .ret i => s.ret i
  | .wait h =>
      if h ∈ s.held ∧ s.pager.fill h.slot = .ready then
        some { s with held := s.held.erase h, waited := h :: s.waited }
      else none
  | .release h =>
      if h ∈ s.waited then do
        let p ← s.pager.release h
        some { s with pager := p, waited := s.waited.erase h }
      else none
  | .tick => some { s with pager := s.pager.tick }
  | .worker k a => do
      let p ← s.pager.workerStep k a
      some { s with pager := p }

/-- Every handle somebody holds or has lost. -/
def handles (s : Clients) : List ExpertHandle :=
  s.calls.flatMap Call.handles ++ s.held ++ s.waited ++ s.leaked

/-- Every job on its way: about to be sent, queued, taken by a worker, lost. -/
def jobs (s : Clients) : List Job := s.calls.flatMap (·.sending.toList) ++ s.pager.jobs

/-- The interleavings of any number of callers with the workers of one pager. -/
def system (cfg : PagerConfig) : Lib.System Clients Action :=
  .ofPartial
    (fun s => Pager.new cfg = some s.pager ∧ s.calls = [] ∧ s.held = [] ∧ s.waited = [] ∧
      s.leaked = [])
    step

end Clients

end LlmPager
