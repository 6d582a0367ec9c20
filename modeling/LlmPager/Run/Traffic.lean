import LlmPager.Cuda.Pager
import LlmPager.Lib.Thread
import LlmPager.Lib.Waves

/-!
# LlmPager.Run.Traffic

The decoder as a client of the pager (`llmpager-run/src/decode.rs`): what
`step` and `step_multi` ask of it, and how the deferred ring holds pins across
calls.

The thread's commands (`DecodeCmd`) are the critical sections of the pager's
client calls and the stream calls that decide when a pin may go:
`sync_stream`, `event_done`, `sync_event`, `record_event`. `World.turn` is one
turn at a command. Meanwhile the workers move and the stream completes events
(`World.env`). The loop in `request` waits on a condition variable, so
`acquire` may take many turns, and `waiting` records that the last attempt
stalled: the thread is then in `wait_timeout`, and either goes round again or,
after the grace period, asks `is_wedged`.

Kernels, copies and the values they compute do not appear. Which experts the
router picks is an argument of a call, so every routing decision is covered.
CUDA calls succeed; a `send` that finds the workers gone has no turn, as the
thread panics.
-/

namespace LlmPager

/-- What the decoder shares with the workers and the stream. -/
structure World where
  pager : Pager
  /-- Whether the stream has passed the event's last recording. -/
  events : Nat → Bool
  /-- The thread's last attempt in `request` stalled. -/
  waiting : Bool

/-- How the loop in `request` ends for one expert. -/
inductive Acquired
  | got (slot : Nat)
  | fetch (job : Job)
  /-- "expert cache deadlock". -/
  | deadlock
  deriving Repr, DecidableEq

inductive DecodeCmd
  | capacity
  | acquire (layer expert : Nat)
  | send (job : Job)
  | tryPrefetch (layer expert : Nat)
  | trySend (job : Job)
  | waitStream (h : ExpertHandle)
  | release (h : ExpertHandle)
  | tick
  | syncStream
  | eventDone (ev : Nat)
  | syncEvent (ev : Nat)
  | recordEvent (ev : Nat)
  deriving Repr, DecidableEq

namespace DecodeCmd

/-- What a command answers. -/
@[reducible] def Res : DecodeCmd → Type
  | capacity => Nat
  | acquire _ _ => Acquired
  | tryPrefetch _ _ => Option Job
  | eventDone _ => Bool
  | _ => Unit

end DecodeCmd

/-- What happens beside the thread: a worker moves, the stream passes an
event. -/
inductive EnvAct
  | worker (k : Nat) (a : WorkerAction)
  | event (ev : Nat)
  deriving Repr, DecidableEq

namespace World

def env (w : World) : EnvAct → Option World
  | .worker k a => do
      let p ← w.pager.workerStep k a
      some { w with pager := p }
  | .event ev => some { w with events := Function.update w.events ev true }

/-- One turn of the loop in `request`: an attempt; or, in `wait_timeout`, being
woken or timing out. -/
def turnAcquire (w : World) (timedOut : Bool) (layer expert : Nat) :
    Option (Option Acquired × World) :=
  if w.waiting then
    if timedOut then do
      let wedged ← w.pager.cache.isWedged (w.pager.idOf layer expert)
      if wedged then some (some .deadlock, { w with waiting := false })
      else some (none, { w with waiting := false })
    else some (none, { w with waiting := false })
  else do
    let (r, p) ← w.pager.tryRequest layer expert
    match r with
    | .got slot => some (some (.got slot), { w with pager := p })
    | .fetch job => some (some (.fetch job), { w with pager := p })
    | .stalled => some (none, { w with pager := p, waiting := true })

/-- One turn of the thread at a command; `timedOut` is the clock's say. -/
def turn (w : World) (timedOut : Bool) : (c : DecodeCmd) → Option (Option c.Res × World)
  | .capacity => do
      let n ← w.pager.cache.slotsPerPartition
      some (some n, w)
  | .acquire layer expert => w.turnAcquire timedOut layer expert
  | .send job => do
      let p ← w.pager.send job
      some (some (), { w with pager := p })
  | .tryPrefetch layer expert => do
      let (r, p) ← w.pager.tryPrefetch layer expert
      some (some r, { w with pager := p })
  | .trySend job =>
      match w.pager.send job with
      | some p => some (some (), { w with pager := p })
      | none =>
          some (some (), { w with
            pager := { w.pager with dropped := w.pager.dropped ++ [job] } })
  | .waitStream h => if w.pager.fill h.slot = .ready then some (some (), w) else none
  | .release h => do
      let p ← w.pager.release h
      some (some (), { w with pager := p })
  | .tick => some (some (), { w with pager := w.pager.tick })
  | .syncStream => some (some (), { w with events := fun _ => true })
  | .eventDone ev => some (some (w.events ev), w)
  | .syncEvent ev => some (some (), { w with events := Function.update w.events ev true })
  | .recordEvent ev => some (some (), { w with events := Function.update w.events ev false })

end World

def decodeMachine : Lib.Machine World DecodeCmd DecodeCmd.Res EnvAct Bool where
  env := World.env
  turn := World.turn

abbrev DecodeProg (α : Type) : Type := Lib.Prog DecodeCmd.Res α

/-- The decoder's fields that decide its traffic. The model's layer and expert
counts are the pack's. -/
structure DecoderConfig where
  pager : PagerConfig
  topK : Nat
  maxSeq : Nat
  chunkCap : Nat
  batchCap : Nat
  prefetchNext : Bool

/-- `pending_release` and `next_event`. -/
structure Ring where
  pending : List (Nat × List ExpertHandle)
  nextEvent : Nat
  deriving Repr, DecidableEq

namespace Decoder

open DecodeCmd

/-- The length of `release_events`. -/
def releaseEvents : Nat := 8

/-! ### The pager's client calls -/

/-- The loop of `Pager::request` over its experts; `none` is its error. -/
def requestLoop (layer : Nat) : List Nat → List ExpertHandle →
    DecodeProg (Option (List ExpertHandle))
  | [], out => pure (some out)
  | expert :: rest, out => do
      match ← Lib.Prog.lift (acquire layer expert) with
      | .got slot => requestLoop layer rest (out ++ [⟨layer, expert, slot⟩])
      | .fetch job => do
          Lib.Prog.lift (send job)
          requestLoop layer rest (out ++ [⟨layer, expert, job.slot⟩])
      | .deadlock => pure none

/-- `Pager::request`. -/
def request (layer : Nat) (experts : List Nat) : DecodeProg (Option (List ExpertHandle)) := do
  let capacity ← Lib.Prog.lift capacity
  if capacity < experts.length then pure none else requestLoop layer experts []

/-- `Pager::prefetch`. -/
def prefetch (layer : Nat) (experts : List Nat) : DecodeProg Unit :=
  experts.forM fun expert => do
    match ← Lib.Prog.lift (tryPrefetch layer expert) with
    | none => pure ()
    | some job => Lib.Prog.lift (trySend job)

def waitAll (hs : List ExpertHandle) : DecodeProg Unit :=
  hs.forM fun h => Lib.Prog.lift (waitStream h)

def releaseAll (hs : List ExpertHandle) : DecodeProg Unit :=
  hs.forM fun h => Lib.Prog.lift (release h)

/-! ### The deferred ring -/

/-- The first loop of `defer_release`: drain everything already complete. -/
def drain : List (Nat × List ExpertHandle) → DecodeProg (List (Nat × List ExpertHandle))
  | [] => pure []
  | (ev, done) :: rest => do
      if ← Lib.Prog.lift (eventDone ev) then do
        releaseAll done
        drain rest
      else pure ((ev, done) :: rest)

/-- The second part of `defer_release`: a full ring waits for its oldest
entry. -/
def makeRoom : List (Nat × List ExpertHandle) → DecodeProg (List (Nat × List ExpertHandle))
  | [] => pure []
  | (ev, done) :: rest =>
      if rest.length + 1 = releaseEvents then do
        Lib.Prog.lift (syncEvent ev)
        releaseAll done
        pure rest
      else pure ((ev, done) :: rest)

/-- `Decoder::defer_release`. -/
def deferRelease (d : Ring) (handles : List ExpertHandle) : DecodeProg Ring := do
  let pending ← drain d.pending
  let pending ← makeRoom pending
  Lib.Prog.lift (recordEvent d.nextEvent)
  pure
    { pending := pending ++ [(d.nextEvent, handles)]
      nextEvent := (d.nextEvent + 1) % releaseEvents }

/-- `Decoder::flush_pending_release`. -/
def flush : List (Nat × List ExpertHandle) → DecodeProg Unit
  | [] => pure ()
  | (ev, done) :: rest => do
      Lib.Prog.lift (syncEvent ev)
      releaseAll done
      flush rest

/-! ### `step` and `step_multi` -/

variable (cfg : DecoderConfig)

/-- Cross-layer prefetch: the next layer is likely to pick the same ids. -/
def prefetchNext (l : Nat) (ids : List Nat) : DecodeProg Unit :=
  if cfg.prefetchNext ∧ l + 1 < cfg.pager.numLayers then prefetch (l + 1) ids else pure ()

/-- The layers of `step` still to run, with the router's picks for each; false
when `request` failed. -/
def stepLayers (picks : Nat → List Nat) : List Nat → Ring → DecodeProg (Bool × Ring)
  | [], d => pure (true, d)
  | l :: rest, d => do
      -- the router's logits are read back before anything is requested
      Lib.Prog.lift syncStream
      match ← request l (picks l) with
      | none => pure (false, d)
      | some handles => do
          prefetchNext cfg l (picks l)
          waitAll handles
          let d ← deferRelease d handles
          stepLayers picks rest d

/-- `Decoder::step` at position `pos`. -/
def step (pos : Nat) (wantLogits : Bool) (picks : Nat → List Nat) (d : Ring) :
    DecodeProg Ring := do
  if cfg.maxSeq ≤ pos then pure d
  else do
    let (ok, d) ← stepLayers cfg picks (List.range cfg.pager.numLayers) d
    if ok ∧ wantLogits then do
      Lib.Prog.lift syncStream
      Lib.Prog.lift tick
      pure d
    else pure d

/-- One wave: fetch it, run its experts, let it go; false when `request`
failed. -/
def wave (l : Nat) (ids : List Nat) : DecodeProg Bool := do
  match ← request l ids with
  | none => pure false
  | some handles => do
      waitAll handles
      Lib.Prog.lift syncStream
      releaseAll handles
      pure true

def waves (l : Nat) : List (List Nat) → DecodeProg Bool
  | [] => pure true
  | ids :: rest => do
      if ← wave l ids then waves l rest else pure false

/-- The layers of `step_multi` still to run, with the picks of every entry. -/
def multiLayers (picks : Nat → List (List Nat)) : List Nat → DecodeProg Bool
  | [] => pure true
  | l :: rest => do
      Lib.Prog.lift syncStream
      let size := max cfg.pager.slotsPerLayer 1
      if ← waves l (Lib.chunks size (Lib.sortedUnion (picks l))) then multiLayers picks rest
      else pure false

/-- The entries `step_multi` computes logits for: the last of each slot. -/
def lastOfSlot : List (Nat × Nat) → List (Nat × Nat)
  | [] => []
  | e :: rest => if rest.all (·.2 ≠ e.2) then e :: lastOfSlot rest else lastOfSlot rest

/-- The readback of the logits, one per entry that has them. -/
def readLogits (entries : List (Nat × Nat)) (wantLogits : Bool) : DecodeProg Unit :=
  if wantLogits then (lastOfSlot entries).forM fun _ => Lib.Prog.lift syncStream else pure ()

/-- `Decoder::step_multi` on entries `(pos, seq)`. -/
def stepMulti (entries : List (Nat × Nat)) (wantLogits : Bool)
    (picks : Nat → List (List Nat)) (d : Ring) : DecodeProg Ring := do
  if entries.length = 0 ∨ cfg.chunkCap < entries.length ∨
      entries.any (fun e => cfg.maxSeq ≤ e.1 ∨ cfg.batchCap ≤ e.2) then pure d
  else do
    flush d.pending
    let d : Ring := { d with pending := [] }
    if ← multiLayers cfg picks (List.range cfg.pager.numLayers) then do
      Lib.Prog.lift tick
      readLogits entries wantLogits
      pure d
    else pure d

/-- One call on the decoder, with the routing it meets. -/
inductive Call
  | step (pos : Nat) (wantLogits : Bool) (picks : Nat → List Nat)
  | stepMulti (entries : List (Nat × Nat)) (wantLogits : Bool) (picks : Nat → List (List Nat))

def call : Call → Ring → DecodeProg Ring
  | .step pos wantLogits picks, d => step cfg pos wantLogits picks d
  | .stepMulti entries wantLogits picks, d => stepMulti cfg entries wantLogits picks d

/-- One decoder on a fresh pager, with its workers and its stream. -/
def system : Lib.System (World × Lib.Phase DecodeCmd.Res Ring) (Lib.ServerAct Call EnvAct Bool) :=
  Lib.Server.system decodeMachine (call cfg) fun w d =>
    Pager.new cfg.pager = some w.pager ∧ w.waiting = false ∧ d = ⟨[], 0⟩

end Decoder

end LlmPager
