import LlmPager.Run.Resize
import LlmPager.Run.Traffic

/-!
# LlmPager.Run.ReleaseRing

The deferred release ring (`defer_release`, `flush_pending_release` and their
callers in `llmpager-run/src/decode.rs`) with its books: which handles `step`
has obtained, where each of them is, and how far the stream has come.

`LlmPager.Run.Traffic` has the calls themselves. Here they run on a `Deck`,
where the stream's work is numbered in the order it is enqueued, so that a
release can be compared with the event it waited for, and where the pager can be
dropped and built again. Between the commands of `DecodeCmd` the programs say
what becomes of the handles they hold (`RingCmd`): `request` has returned them,
the layer's expert kernels are launched, a ring entry is pushed or popped. The
ring itself stays the thread's own; the deck's copy of it follows these notes.
Without the notes the programs are those of `Traffic` (`withoutNotes_step`,
`withoutNotes_stepMulti`).

The stream passes its work in order and in its own time, so an event may stay
"not yet" until the stream or the event is synchronised.
-/

namespace LlmPager

open Lib (Prog)

/-- A handle that `step` has obtained. -/
structure Ticket where
  /-- How many were obtained before it. -/
  serial : Nat
  handle : ExpertHandle
  /-- Where on the stream its layer's expert kernels end; 0 before they are
  launched. -/
  kernels : Nat
  /-- Where on the stream the event of its ring entry was recorded; 0 before it
  is queued. -/
  recorded : Nat
  deriving Repr, DecidableEq

/-- What the file system and the card answer to one `Pager::new` over the
decoder's pack. -/
structure Supply where
  opens : Bool
  memInfo : Option (Nat × Nat)
  alloc : Nat → Nat → Bool
  event : Nat → Bool

def Supply.env (s : Supply) (shape : PackShape) : BuildEnv :=
  { pack := if s.opens then some shape else none
    memInfo := s.memInfo
    alloc := s.alloc
    event := s.event }

structure Deck where
  /-- The pager and its settings; `pendingRelease` is with the thread. -/
  owner : CacheOwner
  /-- The thread's last attempt in `request` stalled. -/
  waiting : Bool
  /-- How much work has been enqueued on the stream, and how much of it is done. -/
  stream : Nat
  passed : Nat
  /-- Where on the stream an event was last recorded. -/
  recordedAt : Nat → Nat
  /-- What the running `request`, or the wave it was made for, has acquired. -/
  taken : List ExpertHandle
  /-- The handles of the running layer of `step`. -/
  hand : List Ticket
  /-- The ring: `pending_release`. -/
  queue : List (Nat × List Ticket)
  /-- The handles of a popped entry, still to be released. -/
  going : List Ticket
  /-- How many handles `step` has obtained. -/
  obtained : Nat
  /-- Those that went with their pager. -/
  died : List Ticket
  /-- Those given back, each with how far the stream was then. -/
  released : List (Ticket × Nat)
  /-- What failed requests of the present pager had acquired. -/
  lost : List ExpertHandle

inductive RingCmd
  | call (c : DecodeCmd)
  /-- The `request` of `step` has returned these. -/
  | obtained (hs : List ExpertHandle)
  /-- The layer's expert kernels are launched. -/
  | kernels
  /-- `pending_release.pop_front`. -/
  | pop
  /-- `pending_release.push_back`. -/
  | push (ev : Nat) (hs : List ExpertHandle)
  /-- `step_multi` sizes its waves. -/
  | waveSize
  | resize (slots : Nat) (pending : List (Nat × List ExpertHandle))
  deriving Repr, DecidableEq

namespace RingCmd

/-- What a command answers; `resize` what it leaves of the ring. -/
@[reducible] def Res : RingCmd → Type
  | call c => c.Res
  | waveSize => Nat
  | resize _ _ => List (Nat × List ExpertHandle)
  | _ => Unit

end RingCmd

/-- What the clock, and what the device and the pack, say during one turn. -/
structure Choice where
  timedOut : Bool
  sync : Bool
  first : Supply
  fallback : Supply

/-- What happens beside the thread: a worker moves, the stream passes work. -/
inductive DeckEnv
  | worker (k : Nat) (a : WorkerAction)
  | passes (n : Nat)
  deriving Repr, DecidableEq

namespace Deck

/-- The decoder's pager as its clients see it. -/
def world (d : Deck) (a : Arena) : World := ⟨a.pager, fun _ => false, d.waiting⟩

def setWorld (d : Deck) (a : Arena) (w : World) : Deck :=
  { d with owner := { d.owner with pager := some { a with pager := w.pager } }
           waiting := w.waiting }

def env (d : Deck) : DeckEnv → Option Deck
  | .worker k act => do
      let a ← d.owner.pager
      let w ← (d.world a).env (.worker k act)
      some (d.setWorld a w)
  | .passes n => if d.passed ≤ n ∧ n ≤ d.stream then some { d with passed := n } else none

/-- A command for the pager; without one, `unwrap` panics. -/
def paged (d : Deck) (timedOut : Bool) (c : DecodeCmd) : Option (Option c.Res × Deck) := do
  let a ← d.owner.pager
  let (r, w) ← (d.world a).turn timedOut c
  some (r, d.setWorld a w)

/-- What `request` has after an attempt. -/
def took (d : Deck) (layer expert : Nat) : Option Acquired → Deck
  | none => d
  | some (.got slot) => { d with taken := d.taken ++ [⟨layer, expert, slot⟩] }
  | some (.fetch job) => { d with taken := d.taken ++ [⟨layer, expert, job.slot⟩] }
  -- the error drops what it had: a handle has no `Drop`
  | some .deadlock => { d with taken := [], lost := d.lost ++ d.taken }

/-- A release is of the popped entry's next handle, or of a wave's. -/
def gaveBack (d : Deck) (h : ExpertHandle) : Deck :=
  match d.going with
  | [] => { d with taken := d.taken.erase h }
  | t :: rest => { d with going := rest, released := d.released ++ [(t, d.passed)] }

/-- One turn at a command of `DecodeCmd`. -/
def turnCall (d : Deck) (timedOut : Bool) : (c : DecodeCmd) → Option (Option c.Res × Deck)
  | .syncStream => some (some (), { d with passed := d.stream })
  | .eventDone ev => some (some (decide (d.recordedAt ev ≤ d.passed)), d)
  | .syncEvent ev => some (some (), { d with passed := max d.passed (d.recordedAt ev) })
  | .recordEvent ev =>
      some (some (), { d with
        stream := d.stream + 1, recordedAt := Function.update d.recordedAt ev (d.stream + 1) })
  | .acquire layer expert => do
      let (r, d) ← d.paged timedOut (.acquire layer expert)
      some (r, d.took layer expert r)
  | .release h => do
      let (r, d) ← d.paged timedOut (.release h)
      some (r, d.gaveBack h)
  | c => d.paged timedOut c

/-- The handles just acquired, numbered. -/
def numbered (n : Nat) : List ExpertHandle → List Ticket
  | [] => []
  | h :: hs => ⟨n, h, 0, 0⟩ :: numbered (n + 1) hs

/-- One turn of the thread at a command. -/
def turn (shape : PackShape) (d : Deck) (ch : Choice) :
    (c : RingCmd) → Option (Option c.Res × Deck)
  | .call c => d.turnCall ch.timedOut c
  | .obtained _ =>
      some (some (), { d with
        taken := [], hand := d.hand ++ numbered d.obtained d.taken
        obtained := d.obtained + d.taken.length })
  | .kernels =>
      some (some (), { d with
        stream := d.stream + 1
        hand := d.hand.map fun t => { t with kernels := d.stream + 1 } })
  | .pop =>
      match d.queue with
      | [] => none
      | e :: rest => some (some (), { d with queue := rest, going := d.going ++ e.2 })
  | .push ev _ =>
      some (some (), { d with
        hand := []
        queue := d.queue ++ [(ev, d.hand.map fun t => { t with recorded := d.recordedAt ev })] })
  | .waveSize => do
      let a ← d.owner.pager
      some (some a.slotsPerLayer, d)
  | .resize slots pending => do
      let (_, o) ← CacheOwner.resizeCache ch.sync (ch.first.env shape) (ch.fallback.env shape) slots
        { d.owner with pendingRelease := pending }
      if ch.sync then
        some (some o.pendingRelease, { d with
          owner := { o with pendingRelease := [] }, waiting := false, passed := d.stream
          queue := [], died := d.died ++ d.queue.flatMap Prod.snd, lost := [] })
      else some (some o.pendingRelease, d)

/-- A decoder that has made no call yet. -/
def start (owner : CacheOwner) : Deck :=
  { owner := owner, waiting := false, stream := 0, passed := 0, recordedAt := fun _ => 0
    taken := [], hand := [], queue := [], going := [], obtained := 0, died := [], released := []
    lost := [] }

end Deck

def deckMachine (shape : PackShape) : Lib.Machine Deck RingCmd RingCmd.Res DeckEnv Choice where
  env := Deck.env
  turn := Deck.turn shape

abbrev RingProg (α : Type) : Type := Prog RingCmd.Res α

namespace ReleaseRing

open Decoder (releaseEvents)

def note (c : RingCmd) : RingProg c.Res := Prog.lift c

def ask (c : DecodeCmd) : RingProg c.Res := note (.call c)

/-- A program of `Traffic` on the deck. -/
def onDeck {α : Type} (p : DecodeProg α) : RingProg α := p.handle ask

/-! ### The ring -/

/-- The first loop of `defer_release`: drain everything already complete. -/
def drain : List (Nat × List ExpertHandle) → RingProg (List (Nat × List ExpertHandle))
  | [] => pure []
  | (ev, done) :: rest => do
      if ← ask (.eventDone ev) then do
        note .pop
        onDeck (Decoder.releaseAll done)
        drain rest
      else pure ((ev, done) :: rest)

/-- The second part of `defer_release`: a full ring waits for its oldest
entry. -/
def makeRoom : List (Nat × List ExpertHandle) → RingProg (List (Nat × List ExpertHandle))
  | [] => pure []
  | (ev, done) :: rest =>
      if rest.length + 1 = releaseEvents then do
        note .pop
        ask (.syncEvent ev)
        onDeck (Decoder.releaseAll done)
        pure rest
      else pure ((ev, done) :: rest)

/-- `Decoder::defer_release`. -/
def deferRelease (d : Ring) (handles : List ExpertHandle) : RingProg Ring := do
  let pending ← drain d.pending
  let pending ← makeRoom pending
  ask (.recordEvent d.nextEvent)
  note (.push d.nextEvent handles)
  pure
    { pending := pending ++ [(d.nextEvent, handles)]
      nextEvent := (d.nextEvent + 1) % releaseEvents }

/-- `Decoder::flush_pending_release`. -/
def flush : List (Nat × List ExpertHandle) → RingProg Unit
  | [] => pure ()
  | (ev, done) :: rest => do
      ask (.syncEvent ev)
      note .pop
      onDeck (Decoder.releaseAll done)
      flush rest

/-! ### The calls -/

variable (cfg : DecoderConfig)

/-- The layers of `step` still to run; false when `request` failed. -/
def stepLayers (picks : Nat → List Nat) : List Nat → Ring → RingProg (Bool × Ring)
  | [], d => pure (true, d)
  | l :: rest, d => do
      ask .syncStream
      match ← onDeck (Decoder.request l (picks l)) with
      | none => pure (false, d)
      | some handles => do
          note (.obtained handles)
          onDeck (Decoder.prefetchNext cfg l (picks l))
          onDeck (Decoder.waitAll handles)
          note .kernels
          let d ← deferRelease d handles
          stepLayers picks rest d

/-- `Decoder::step`. -/
def step (pos : Nat) (wantLogits : Bool) (picks : Nat → List Nat) (d : Ring) : RingProg Ring := do
  if cfg.maxSeq ≤ pos then pure d
  else do
    let (ok, d) ← stepLayers cfg picks (List.range cfg.pager.numLayers) d
    if ok ∧ wantLogits then do
      ask .syncStream
      ask .tick
      pure d
    else pure d

/-- `Decoder::step_multi`. -/
def stepMulti (entries : List (Nat × Nat)) (wantLogits : Bool)
    (picks : Nat → List (List Nat)) (d : Ring) : RingProg Ring := do
  if entries.length = 0 ∨ cfg.chunkCap < entries.length ∨
      entries.any (fun e => cfg.maxSeq ≤ e.1 ∨ cfg.batchCap ≤ e.2) then pure d
  else do
    flush d.pending
    let d : Ring := { d with pending := [] }
    let slots ← note .waveSize
    let sized := { cfg with pager := { cfg.pager with slotsPerLayer := slots } }
    if ← onDeck (Decoder.multiLayers sized picks (List.range cfg.pager.numLayers)) then do
      ask .tick
      onDeck (Decoder.readLogits entries wantLogits)
      pure d
    else pure d

/-- `Decoder::resize_cache`. -/
def resizeCache (slots : Nat) (d : Ring) : RingProg Ring := do
  let pending ← note (.resize slots d.pending)
  pure { d with pending := pending }

inductive Call
  | step (pos : Nat) (wantLogits : Bool) (picks : Nat → List Nat)
  | stepMulti (entries : List (Nat × Nat)) (wantLogits : Bool) (picks : Nat → List (List Nat))
  | resizeCache (slots : Nat)

def serve : Call → Ring → RingProg Ring
  | .step pos wantLogits picks, d => step cfg pos wantLogits picks d
  | .stepMulti entries wantLogits picks, d => stepMulti cfg entries wantLogits picks d
  | .resizeCache slots, d => resizeCache slots d

/-- The decoder's pack. -/
def packShape (maxBlobBytes : Nat) : PackShape :=
  { numLayers := cfg.pager.numLayers
    expertsPerLayer := cfg.pager.expertsPerLayer
    maxBlobBytes := maxBlobBytes }

/-- One decoder, from the pager of `Decoder::new` on. -/
def system (maxBlobBytes : Nat) :
    Lib.System (Deck × Lib.Phase RingCmd.Res Ring) (Lib.ServerAct Call DeckEnv Choice) :=
  Lib.Server.system (deckMachine (packShape cfg maxBlobBytes)) (serve cfg) fun d r =>
    r = ⟨[], 0⟩ ∧ ∃ (o : CacheOwner) (s : Supply) (slots : Nat) (a : Arena),
      o.build (s.env (packShape cfg maxBlobBytes)) slots o.reserveBytes = some (.ok a) ∧
      d = .start { o with pager := some a }

/-! ### Without the notes -/

/-- The program of `Traffic` that is left when the notes are taken out; the wave
size is then a constant. -/
def withoutNotes {α : Type} (slots : Nat) (p : RingProg α) : DecodeProg α :=
  p.handle fun
    | .call c => Prog.lift c
    | .waveSize => pure slots
    | .resize _ pending => pure pending
    | .obtained _ | .kernels | .pop | .push _ _ => pure ()

variable {slots : Nat}

theorem withoutNotes_bind {α β : Type} (p : RingProg α) (f : α → RingProg β) :
    withoutNotes slots (p >>= f) = withoutNotes slots p >>= fun a => withoutNotes slots (f a) :=
  Prog.handle_bind p f

/-- A command of `Traffic` stays, and with it the program that follows. -/
theorem withoutNotes_ask {β : Type} {c : DecodeCmd} {f : c.Res → RingProg β}
    {f' : c.Res → DecodeProg β} (h : ∀ r, withoutNotes slots (f r) = f' r) :
    withoutNotes slots (ask c >>= f) = Prog.lift c >>= f' :=
  congrArg (Prog.cmd c) (funext h)

theorem withoutNotes_onDeck {α : Type} (p : DecodeProg α) :
    withoutNotes slots (onDeck p) = p := by
  induction p with
  | ret a => rfl
  | cmd c k ih => exact withoutNotes_ask ih

theorem withoutNotes_onDeck_bind {α β : Type} {p : DecodeProg α} {f : α → RingProg β}
    {f' : α → DecodeProg β} (h : ∀ a, withoutNotes slots (f a) = f' a) :
    withoutNotes slots (onDeck p >>= f) = p >>= f' := by
  rw [withoutNotes_bind, withoutNotes_onDeck]
  exact congrArg _ (funext h)

theorem withoutNotes_drain (pending : List (Nat × List ExpertHandle)) :
    withoutNotes slots (drain pending) = Decoder.drain pending := by
  induction pending with
  | nil => rfl
  | cons entry rest ih =>
      obtain ⟨ev, done⟩ := entry
      refine withoutNotes_ask fun r => ?_
      cases r with
      | false => rfl
      | true => exact withoutNotes_onDeck_bind fun _ => ih

theorem withoutNotes_makeRoom (pending : List (Nat × List ExpertHandle)) :
    withoutNotes slots (makeRoom pending) = Decoder.makeRoom pending := by
  cases pending with
  | nil => rfl
  | cons entry rest =>
      obtain ⟨ev, done⟩ := entry
      simp only [makeRoom, Decoder.makeRoom]
      split
      · exact withoutNotes_ask fun _ => withoutNotes_onDeck_bind fun _ => rfl
      · rfl

theorem withoutNotes_deferRelease (d : Ring) (hs : List ExpertHandle) :
    withoutNotes slots (deferRelease d hs) = Decoder.deferRelease d hs := by
  unfold deferRelease Decoder.deferRelease
  rw [withoutNotes_bind, withoutNotes_drain]
  refine congrArg _ (funext fun pending => ?_)
  rw [withoutNotes_bind, withoutNotes_makeRoom]
  exact congrArg _ (funext fun pending => withoutNotes_ask fun _ => rfl)

theorem withoutNotes_flush (pending : List (Nat × List ExpertHandle)) :
    withoutNotes slots (flush pending) = Decoder.flush pending := by
  induction pending with
  | nil => rfl
  | cons entry rest ih =>
      obtain ⟨ev, done⟩ := entry
      exact withoutNotes_ask fun _ => withoutNotes_onDeck_bind fun _ => ih

theorem withoutNotes_stepLayers (picks : Nat → List Nat) (ls : List Nat) (d : Ring) :
    withoutNotes slots (stepLayers cfg picks ls d) = Decoder.stepLayers cfg picks ls d := by
  induction ls generalizing d with
  | nil => rfl
  | cons l rest ih =>
      refine withoutNotes_ask fun _ => withoutNotes_onDeck_bind fun r => ?_
      cases r with
      | none => rfl
      | some handles =>
          refine withoutNotes_onDeck_bind fun _ => withoutNotes_onDeck_bind fun _ => ?_
          show withoutNotes slots (deferRelease d handles >>= fun d => stepLayers cfg picks rest d)
            = _
          rw [withoutNotes_bind, withoutNotes_deferRelease]
          exact congrArg _ (funext fun d => ih d)

/-- **`step` is that of `Traffic`**, with notes. -/
theorem withoutNotes_step (pos : Nat) (wantLogits : Bool) (picks : Nat → List Nat) (d : Ring) :
    withoutNotes slots (step cfg pos wantLogits picks d) =
      Decoder.step cfg pos wantLogits picks d := by
  unfold step Decoder.step
  split
  · rfl
  · rw [withoutNotes_bind, withoutNotes_stepLayers]
    refine congrArg _ (funext fun r => ?_)
    obtain ⟨ok, d⟩ := r
    simp only
    split
    · exact withoutNotes_ask fun _ => withoutNotes_ask fun _ => rfl
    · rfl

/-- **`step_multi` is that of `Traffic`**, with notes, while the pager has the slots
of the configuration. -/
theorem withoutNotes_stepMulti (entries : List (Nat × Nat)) (wantLogits : Bool)
    (picks : Nat → List (List Nat)) (d : Ring) :
    withoutNotes cfg.pager.slotsPerLayer (stepMulti cfg entries wantLogits picks d) =
      Decoder.stepMulti cfg entries wantLogits picks d := by
  unfold stepMulti Decoder.stepMulti
  split
  · rfl
  · rw [withoutNotes_bind, withoutNotes_flush]
    refine congrArg _ (funext fun _ => withoutNotes_onDeck_bind fun r => ?_)
    cases r with
    | false => rfl
    | true => exact withoutNotes_ask fun _ => withoutNotes_onDeck_bind fun _ => rfl

end ReleaseRing

end LlmPager
