import LlmPager.Cuda.RamTier

/-!
# LlmPager.Cuda.TierCalls

Threads that call the RAM tier, with the copies as the memory sees them.

`RamTier` cuts a fetch where it takes or drops the tier's lock and lets a copy
be one step. Here a copy is as many steps as it has bytes, in any order, and any
thread may move between two of them: the only thing that keeps a slab from
changing under a reader is what the bookkeeping under the lock says. Nothing is
assumed of what is put; two calls of `put` for one expert may bring different
bytes.

`history` is what the calls did, latest first: a `put` once its slab is
published, a `get` once it has returned `true`.
-/

namespace LlmPager

/-- A call of a thread, with its buffer. -/
inductive TierCall
  | get (layer expert : Nat) (dst : List UInt8)
  | put (layer expert : Nat) (src : List UInt8)
  deriving Repr, DecidableEq

/-- Where a thread is in its call; `todo` are the bytes not yet copied. -/
inductive CallPhase
  | idle
  | looking (layer expert : Nat) (dst : List UInt8)
  | copyingOut (layer expert slot : Nat) (todo : List Nat) (dst : List UInt8)
  | offering (layer expert : Nat) (src : List UInt8)
  | copyingIn (layer expert slot : Nat) (todo : List Nat) (src : List UInt8)
  deriving Repr, DecidableEq

inductive TierEvent
  /-- A `put` has filled a slab with these bytes and published it. -/
  | put (layer expert : Nat) (bytes : List UInt8)
  /-- A `get` has returned `true` with these bytes. -/
  | got (layer expert : Nat) (bytes : List UInt8)
  deriving Repr, DecidableEq

/-- The tier, its threads and what they did. -/
structure TierCalls where
  tier : RamTier
  threads : List CallPhase
  history : List TierEvent

/-- A thread makes a call, enters its next critical section, or copies a byte. -/
inductive TierAction
  | call (k : Nat) (c : TierCall)
  | lock (k : Nat)
  | copy (k i : Nat)
  deriving Repr, DecidableEq

namespace TierCalls

/-- A call starts. The buffer has room for a slab, as both unchecked copies
require of their callers. -/
def start (span numLayers expertsPerLayer : Nat) : TierCall → Option CallPhase
  | .get layer expert dst =>
      if layer < numLayers ∧ expert < expertsPerLayer ∧ span ≤ dst.length then
        some (.looking layer expert dst)
      else none
  | .put layer expert src =>
      if layer < numLayers ∧ expert < expertsPerLayer ∧ span ≤ src.length then
        some (.offering layer expert src)
      else none

/-- The next critical section of a thread, and what it completes; none where it
panics, or where the thread still has bytes to copy. -/
def lock (t : RamTier) : CallPhase → Option (RamTier × CallPhase × Option TierEvent)
  | .idle => none
  | .looking layer expert dst => do
      let (r, c) ← t.cache.lookupReady (t.key layer expert)
      match r with
      | some slot =>
          some ({ t with cache := c }, .copyingOut layer expert slot (List.range t.span) dst, none)
      | none => some ({ t with cache := c }, .idle, none)
  | .copyingOut layer expert slot todo dst =>
      if todo = [] then do
        let c ← t.cache.release slot
        some ({ t with cache := c, hits := t.hits + 1 }, .idle,
          some (.got layer expert (dst.take t.span)))
      else none
  | .offering layer expert src => do
      let (r, c) ← t.cache.acquire (t.key layer expert)
      match r with
      | .miss slot _ =>
          some ({ t with cache := c }, .copyingIn layer expert slot (List.range t.span) src, none)
      | .hit slot => do
          let c ← c.release slot
          some ({ t with cache := c }, .idle, none)
      | .stalled => some ({ t with cache := c }, .idle, none)
  | .copyingIn layer expert slot todo src =>
      if todo = [] then do
        let c ← t.cache.publish slot
        let c ← c.release slot
        some ({ t with cache := c }, .idle, some (.put layer expert (src.take t.span)))
      else none

/-- Byte `i` of a copy, in either direction; a copy may touch a byte again. -/
def copy (t : RamTier) (i : Nat) : CallPhase → Option (RamTier × CallPhase)
  | .copyingOut layer expert slot todo dst => do
      let b ← (t.slab slot)[i]?
      some (t, .copyingOut layer expert slot (todo.filter (· ≠ i)) (dst.set i b))
  | .copyingIn layer expert slot todo src => do
      let b ← src[i]?
      if i < t.span then
        some ({ t with slab := Function.update t.slab slot ((t.slab slot).set i b) },
          .copyingIn layer expert slot (todo.filter (· ≠ i)) src)
      else none
  | .idle | .looking .. | .offering .. => none

/-- One step of one thread. -/
def step (numLayers expertsPerLayer : Nat) (s : TierCalls) : TierAction → Option TierCalls
  | .call k c => do
      let p ← s.threads[k]?
      if p = .idle then do
        let p' ← start s.tier.span numLayers expertsPerLayer c
        some { s with threads := s.threads.set k p' }
      else none
  | .lock k => do
      let p ← s.threads[k]?
      let (t, p', event) ← lock s.tier p
      some { tier := t, threads := s.threads.set k p', history := event.toList ++ s.history }
  | .copy k i => do
      let p ← s.threads[k]?
      let (t, p') ← copy s.tier i p
      some { s with tier := t, threads := s.threads.set k p' }

/-- The interleavings of any number of threads on a fresh tier. -/
def system (ramBytes span numLayers expertsPerLayer : Nat) : Lib.System TierCalls TierAction :=
  .ofPartial
    (fun s =>
      RamTier.new ramBytes span numLayers expertsPerLayer = some (some s.tier) ∧
      (∀ p ∈ s.threads, p = .idle) ∧ s.history = [])
    (step numLayers expertsPerLayer)

end TierCalls

end LlmPager
