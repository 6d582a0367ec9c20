import LlmPager.Lib.Circular
import LlmPager.Run.ReleaseRing
import LlmPager.Run.TrafficSafe

/-!
# LlmPager.Run.ReleaseRingSafe

What the deferred release ring keeps over every run of calls (`reachable_kept`).

`Sound` is the invariant of the books, `Books` ties them to the variables of the
running call, and `At` adds the pager: its slots are pinned by the handles the thread
has, or has lost, and by no others. The events are used in turn (`Lib.InTurn`), at
most as many entries are queued as there are events, and `defer_release` makes room
before it records: so the next event is never one that an entry waits on.

A request that fails after it has acquired an expert loses that handle, and the flush
of `step_multi` does not give it back (`failed_token_keeps_pin`).
-/

namespace LlmPager

open Lib (Prog)

/-- Its layer's expert kernels were launched, and the event of its entry recorded
after them. -/
def Ticket.Covered (t : Ticket) : Prop := 0 < t.kernels ∧ t.kernels < t.recorded

namespace Deck

/-- Every handle that `step` has obtained, wherever it is now. -/
def tickets (d : Deck) : List Ticket :=
  d.hand ++ d.queue.flatMap Prod.snd ++ d.going ++ d.died ++ d.released.map Prod.fst

/-- The books are in order. -/
structure Sound (d : Deck) : Prop where
  balance : (d.tickets.map Ticket.serial).Perm (List.range d.obtained)
  length : d.queue.length ≤ Decoder.releaseEvents
  queue : ∀ e ∈ d.queue, ∀ t ∈ e.2, t.Covered ∧ t.recorded = d.recordedAt e.1
  going : ∀ t ∈ d.going, t.Covered
  released : ∀ r ∈ d.released, r.1.Covered ∧ r.1.recorded ≤ r.2

/-- Every pin is that of a prefetch on its way or one that a failed request has
left. -/
def PinsLeft (d : Deck) : Prop :=
  ∀ a, d.owner.pager = some a → ∀ slot, (a.pager.cache.view slot).pins =
    (a.pager.jobs.filter (·.releaseAfterFill)).countP (·.slot = slot) +
      d.lost.countP (·.slot = slot)

/-- What the thread must find at a command. -/
def Meets (d : Deck) : RingCmd → Prop
  | .call (.recordEvent ev) => ∀ e ∈ d.queue, e.1 ≠ ev
  | .call (.release h) =>
      (∃ t rest, d.going = t :: rest ∧ t.handle = h ∧ t.recorded ≤ d.passed) ∨
        d.going = [] ∧ h ∈ d.taken
  | .obtained hs => d.taken = hs
  | .push _ hs => d.hand.map Ticket.handle = hs
  | .waveSize => d.PinsLeft
  | _ => True

end Deck

namespace ReleaseRing

open Decoder (releaseEvents entryHandles Running Asking)

/-! ### Assertions -/

/-- What the thread's own variables hold. -/
structure Locals where
  pending : List (Nat × List ExpertHandle)
  taken : List ExpertHandle
  hand : List ExpertHandle
  going : List ExpertHandle
  /-- The expert kernels for `hand` are launched. -/
  launched : Prop

namespace Locals

/-- The handles that pin a slot. -/
def held (L : Locals) (lost : List ExpertHandle) : List ExpertHandle :=
  L.taken ++ L.hand ++ entryHandles L.pending ++ L.going ++ lost

/-- Those that have been waited for, beside `F`. -/
def ready (L : Locals) (F : List ExpertHandle) : List ExpertHandle :=
  F ++ entryHandles L.pending ++ L.going

end Locals

/-- Nothing in the thread's variables but the ring. -/
def resting (pending : List (Nat × List ExpertHandle)) : Locals :=
  { pending := pending, taken := [], hand := [], going := [], launched := False }

/-- The books are in order and agree with the thread's variables. -/
structure Books (L : Locals) (d : Deck) : Prop where
  sound : d.Sound
  pending : d.queue.map (fun e => (e.1, e.2.map Ticket.handle)) = L.pending
  taken : d.taken = L.taken
  hand : d.hand.map Ticket.handle = L.hand
  going : d.going.map Ticket.handle = L.going
  launched : L.launched → ∀ t ∈ d.hand, 0 < t.kernels ∧ t.kernels ≤ d.stream

/-- The pager, if there is one, is as `R` says. -/
def Paging (R : World → Prop) (d : Deck) : Prop := ∀ a, d.owner.pager = some a → R (d.world a)

/-- The handles `G` and no others pin the pager's slots. -/
def Pinned (epl : Nat) (G F : List ExpertHandle) (snd : List Job) (w : World) : Prop :=
  ∃ cfg : DecoderConfig, cfg.pager.expertsPerLayer = epl ∧ Running cfg G F snd False w

/-- `Pinned`, with the thread in `request`. -/
def PinnedAsking (epl : Nat) (G F : List ExpertHandle) (layer expert : Nat) (w : World) : Prop :=
  ∃ cfg : DecoderConfig, cfg.pager.expertsPerLayer = epl ∧ Asking cfg G F False layer expert w

/-- Between two commands, with the handles of `F` waited for and the jobs `snd`
about to be sent. -/
def At (epl : Nat) (L : Locals) (F : List ExpertHandle) (snd : List Job) (d : Deck) : Prop :=
  Books L d ∧ Paging (Pinned epl (L.held d.lost) (L.ready F) snd) d

/-- The stream has passed what the handles on their way out wait for. -/
def Due (d : Deck) : Prop := ∀ t ∈ d.going, t.recorded ≤ d.passed

/-- They wait for event `ev`. -/
def OnEvent (ev : Nat) (d : Deck) : Prop := ∀ t ∈ d.going, t.recorded = d.recordedAt ev

/-- Event `ev` is done. -/
def Done (ev : Nat) (d : Deck) : Prop := d.recordedAt ev ≤ d.passed

variable {epl layer expert : Nat} {L : Locals} {F G : List ExpertHandle} {snd : List Job}
  {d d' : Deck} {w w' : World} {a : Arena} {h : ExpertHandle}

theorem Pinned.events (hw : Pinned epl G F snd w) (events : Nat → Bool) :
    Pinned epl G F snd ⟨w.pager, events, w.waiting⟩ := by
  obtain ⟨cfg, hepl, hw, hwait⟩ := hw
  exact ⟨cfg, hepl, ⟨hw.pager, hw.epl, hw.filled, False.elim⟩, hwait⟩

theorem PinnedAsking.events (hw : PinnedAsking epl G F layer expert w) (events : Nat → Bool) :
    PinnedAsking epl G F layer expert ⟨w.pager, events, w.waiting⟩ := by
  obtain ⟨cfg, hepl, hw, hwait⟩ := hw
  exact ⟨cfg, hepl, ⟨hw.pager, hw.epl, hw.filled, False.elim⟩, hwait⟩

theorem Pinned.env {e : EnvAct} (hw : Pinned epl G F snd w) (he : w.env e = some w') :
    Pinned epl G F snd w' := by
  obtain ⟨cfg, hepl, hw⟩ := hw
  exact ⟨cfg, hepl, hw.env he⟩

theorem PinnedAsking.env {e : EnvAct} (hw : PinnedAsking epl G F layer expert w)
    (he : w.env e = some w') : PinnedAsking epl G F layer expert w' := by
  obtain ⟨cfg, hepl, hw⟩ := hw
  exact ⟨cfg, hepl, hw.env he⟩

theorem Pinned.perm {G' F' : List ExpertHandle} (hw : Pinned epl G F snd w) (hG : G.Perm G')
    (hF : F' ⊆ F) : Pinned epl G' F' snd w := by
  obtain ⟨cfg, hepl, hw⟩ := hw
  exact ⟨cfg, hepl, hw.perm hG hF⟩

/-- What happens in the pager is not in the books. -/
theorem Books.setWorld (hd : Books L d) : Books L (d.setWorld a w) :=
  ⟨⟨hd.sound.balance, hd.sound.length, hd.sound.queue, hd.sound.going, hd.sound.released⟩,
    hd.pending, hd.taken, hd.hand, hd.going, hd.launched⟩

theorem Books.passes {n : Nat} (hd : Books L d) : Books L { d with passed := n } :=
  ⟨⟨hd.sound.balance, hd.sound.length, hd.sound.queue, hd.sound.going, hd.sound.released⟩,
    hd.pending, hd.taken, hd.hand, hd.going, hd.launched⟩

theorem paging_setWorld {R : World → Prop}
    (hR : ∀ w events, R w → R ⟨w.pager, events, w.waiting⟩) (hw : R w) :
    Paging R (d.setWorld a w) := by
  intro a' ha'
  cases ha'
  exact hR w _ hw

/-- What goes on beside the thread: the pager's world moves, or the stream passes
work. -/
theorem env_cases {e : DeckEnv} (he : d.env e = some d') :
    (∃ a k act w, d.owner.pager = some a ∧ (d.world a).env (.worker k act) = some w ∧
      d' = d.setWorld a w) ∨ ∃ n, d.passed ≤ n ∧ d' = { d with passed := n } := by
  cases e with
  | worker k act =>
      obtain ⟨a, ha, he⟩ := Option.bind_eq_some_iff.mp he
      obtain ⟨w, hw, he⟩ := Option.bind_eq_some_iff.mp he
      exact .inl ⟨a, k, act, w, ha, hw, (Option.some.inj he).symm⟩
  | passes n =>
      simp only [Deck.env] at he
      split at he
      · rename_i hn
        exact .inr ⟨n, hn.1, (Option.some.inj he).symm⟩
      · cases he

theorem Paging.env {R : World → Prop} {e : DeckEnv}
    (hR : ∀ w events, R w → R ⟨w.pager, events, w.waiting⟩)
    (henv : ∀ w w' e, R w → w.env e = some w' → R w') (hd : Paging R d)
    (he : d.env e = some d') : Paging R d' := by
  rcases env_cases he with ⟨a, k, act, w, ha, hw, rfl⟩ | ⟨n, -, rfl⟩
  · exact paging_setWorld hR (henv _ _ _ (hd a ha) hw)
  · exact hd

theorem Books.env {e : DeckEnv} (hd : Books L d) (he : d.env e = some d') : Books L d' := by
  rcases env_cases he with ⟨a, k, act, w, -, -, rfl⟩ | ⟨n, -, rfl⟩
  · exact hd.setWorld
  · exact hd.passes

theorem lost_env {e : DeckEnv} (he : d.env e = some d') : d'.lost = d.lost := by
  rcases env_cases he with ⟨a, k, act, w, -, -, rfl⟩ | ⟨n, -, rfl⟩ <;> rfl

theorem At.env {e : DeckEnv} (hd : At epl L F snd d) (he : d.env e = some d') :
    At epl L F snd d' := by
  refine ⟨hd.1.env he, ?_⟩
  rw [lost_env he]
  exact hd.2.env (fun _ events hw => hw.events events) (fun _ _ _ hw he => hw.env he) he

theorem Due.env {e : DeckEnv} (hd : Due d) (he : d.env e = some d') : Due d' := by
  rcases env_cases he with ⟨a, k, act, w, -, -, rfl⟩ | ⟨n, hn, rfl⟩
  · exact hd
  · exact fun t ht => (hd t ht).trans hn

theorem OnEvent.env {e : DeckEnv} {ev : Nat} (hd : OnEvent ev d) (he : d.env e = some d') :
    OnEvent ev d' := by
  rcases env_cases he with ⟨a, k, act, w, -, -, rfl⟩ | ⟨n, -, rfl⟩ <;> exact hd

theorem Done.env {e : DeckEnv} {ev : Nat} (hd : Done ev d) (he : d.env e = some d') :
    Done ev d' := by
  rcases env_cases he with ⟨a, k, act, w, -, -, rfl⟩ | ⟨n, hn, rfl⟩
  · exact hd
  · exact Nat.le_trans hd hn

/-! ### The pager's commands -/

/-- The commands of `Traffic` on the deck. -/
def callMachine : Lib.Machine Deck DecodeCmd DecodeCmd.Res DeckEnv Choice where
  env := Deck.env
  turn d ch c := d.turnCall ch.timedOut c

/-- The books are in order, and what the thread must find is there. -/
def ok (d : Deck) (c : RingCmd) : Prop := d.Sound ∧ d.Meets c

def okCall (d : Deck) (c : DecodeCmd) : Prop := ok d (.call c)

/-- The pager's commands that take and give back no handle. -/
def quiet : DecodeCmd → Bool
  | .capacity | .send _ | .tryPrefetch _ _ | .trySend _ | .waitStream _ | .tick => true
  | _ => false

section

variable {c : DecodeCmd}

theorem turnCall_quiet {t : Bool} (hc : quiet c = true) : d.turnCall t c = d.paged t c := by
  cases c <;> first | rfl | cases hc

theorem meets_quiet (hc : quiet c = true) : d.Meets (.call c) := by
  cases c <;> trivial

/-- Only `acquire` goes on waiting. -/
theorem turn_waits {t : Bool} (hturn : w.turn t c = some (none, w')) : quiet c = false := by
  cases c with
  | acquire | syncStream | eventDone | syncEvent | recordEvent | release => rfl
  | tick => cases hturn
  | capacity | send | tryPrefetch =>
      obtain ⟨x, -, hturn⟩ := Option.bind_eq_some_iff.mp hturn
      cases hturn
  | trySend | waitStream =>
      simp only [World.turn] at hturn
      split at hturn <;> cases hturn

end

theorem paged_eq_some {t : Bool} {c : DecodeCmd} {r : Option c.Res}
    (hturn : d.paged t c = some (r, d')) :
    ∃ a w, d.owner.pager = some a ∧ (d.world a).turn t c = some (r, w) ∧
      d' = d.setWorld a w := by
  obtain ⟨a, ha, hturn⟩ := Option.bind_eq_some_iff.mp hturn
  obtain ⟨⟨r', w⟩, hw, hturn⟩ := Option.bind_eq_some_iff.mp hturn
  cases hturn
  exact ⟨a, w, ha, hw, rfl⟩

/-- A command that takes and gives back nothing, from what `Traffic` proves of it. -/
theorem triple_quiet {c : DecodeCmd} (F' : c.Res → List ExpertHandle) (snd' : c.Res → List Job)
    (hc : quiet c = true)
    (hpost : ∀ cfg lost, cfg.pager.expertsPerLayer = epl →
      decodeMachine.Triple Decoder.ok (Running cfg (L.held lost) (L.ready F) snd False)
        (Prog.lift c) fun r => Running cfg (L.held lost) (L.ready (F' r)) (snd' r) False) :
    callMachine.Triple okCall (At epl L F snd) (Prog.lift c) fun r => At epl L (F' r) (snd' r) := by
  refine .cmd (fun d d' hd hmove => ?_) (fun d hd => ⟨hd.1.sound, meets_quiet hc⟩)
    fun d ch r d' hd hturn => ?_
  · rcases hmove with ⟨e, he⟩ | ⟨ch, hturn⟩
    · exact hd.env he
    · obtain ⟨a, w, -, hw, -⟩ := paged_eq_some ((turnCall_quiet hc).symm.trans hturn)
      rw [turn_waits hw] at hc
      cases hc
  · obtain ⟨a, w, ha, hw, rfl⟩ := paged_eq_some ((turnCall_quiet hc).symm.trans hturn)
    obtain ⟨cfg, hepl, hrun⟩ := hd.2 a ha
    have hrun' := (hpost cfg d.lost hepl).answer hrun hw
    exact ⟨hd.1.setWorld, paging_setWorld (fun _ events hw => hw.events events)
      ⟨cfg, hepl, hrun'⟩⟩

/-- What asking for an expert brings about. -/
def Acquires (epl : Nat) (L : Locals) (layer expert : Nat) : Acquired → Deck → Prop
  | .got slot => At epl { L with taken := L.taken ++ [⟨layer, expert, slot⟩] } [] []
  | .fetch job => At epl { L with taken := L.taken ++ [⟨layer, expert, job.slot⟩] } [] [job]
  | .deadlock => At epl { L with taken := [] } [] []

theorem held_take {lost : List ExpertHandle} :
    (h :: L.held lost).Perm (Locals.held { L with taken := L.taken ++ [h] } lost) := by
  refine List.perm_iff_count.mpr fun x => ?_
  simp only [Locals.held, List.count_append, List.count_cons, List.count_nil]
  omega

theorem held_lose {lost : List ExpertHandle} :
    (L.held lost).Perm (Locals.held { L with taken := [] } (lost ++ L.taken)) := by
  refine List.perm_iff_count.mpr fun x => ?_
  simp only [Locals.held, List.count_append, List.count_nil]
  omega

theorem ready_subset_held {lost : List ExpertHandle} : L.ready [] ⊆ L.held lost := by
  intro x hx
  simp only [Locals.ready, Locals.held, List.mem_append, List.not_mem_nil, false_or] at hx ⊢
  tauto

theorem Books.take (hd : Books L d) (h : ExpertHandle) :
    Books { L with taken := L.taken ++ [h] } { d with taken := d.taken ++ [h] } :=
  ⟨⟨hd.sound.balance, hd.sound.length, hd.sound.queue, hd.sound.going, hd.sound.released⟩,
    hd.pending, congrArg (· ++ [h]) hd.taken, hd.hand, hd.going, hd.launched⟩

theorem Books.lose (hd : Books L d) :
    Books { L with taken := [] } { d with taken := [], lost := d.lost ++ d.taken } :=
  ⟨⟨hd.sound.balance, hd.sound.length, hd.sound.queue, hd.sound.going, hd.sound.released⟩,
    hd.pending, rfl, hd.hand, hd.going, hd.launched⟩

theorem triple_acquire (hlt : expert < epl) :
    callMachine.Triple okCall (At epl L [] []) (Prog.lift (.acquire layer expert))
      (Acquires epl L layer expert) := by
  let P := fun d => Books L d ∧
    Paging (PinnedAsking epl (L.held d.lost) (L.ready []) layer expert) d
  refine Lib.Machine.Triple.weaken (P := P) (.cmd (fun d d' hd hmove => ?_)
    (fun d hd => ⟨hd.1.sound, trivial⟩) fun d ch r d' hd hturn => ?_) (fun d hd => ⟨hd.1, ?_⟩)
    fun _ _ h => h
  · rcases hmove with ⟨e, he⟩ | ⟨ch, hturn⟩
    · refine ⟨hd.1.env he, ?_⟩
      rw [lost_env he]
      exact hd.2.env (fun _ events hw => hw.events events) (fun _ _ _ hw he => hw.env he) he
    · obtain ⟨⟨r, d''⟩, hpaged, hturn⟩ := Option.bind_eq_some_iff.mp hturn
      cases hturn
      obtain ⟨a, w, ha, hw, rfl⟩ := paged_eq_some hpaged
      obtain ⟨cfg, hepl, hask⟩ := hd.2 a ha
      exact ⟨hd.1.setWorld, paging_setWorld (fun _ events hw => hw.events events)
        ⟨cfg, hepl, hask.waits (hepl ▸ hlt) hw⟩⟩
  · obtain ⟨⟨r', d''⟩, hpaged, hturn⟩ := Option.bind_eq_some_iff.mp hturn
    cases hturn
    obtain ⟨a, w, ha, hw, rfl⟩ := paged_eq_some hpaged
    obtain ⟨cfg, hepl, hask⟩ := hd.2 a ha
    have hbooks : Books L (d.setWorld a w) := hd.1.setWorld
    have hpaging : ∀ G snd, Running cfg G (L.ready []) snd False w →
        Paging (Pinned epl G (L.ready []) snd) (d.setWorld a w) := fun G snd hrun =>
      paging_setWorld (fun _ events hw => hw.events events) ⟨cfg, hepl, hrun⟩
    rcases hask.ends (hepl ▸ hlt) ready_subset_held hw with ⟨rfl, -, -, hrun⟩ | hrun
    · have hlost : (L.held d.lost).Perm
          (Locals.held { L with taken := [] } (d.lost ++ d.taken)) := by
        rw [hd.1.taken]
        exact held_lose
      exact ⟨hbooks.lose, hpaging _ _ (hrun.perm hlost (List.Subset.refl _))⟩
    · cases r with
      | got slot => exact ⟨hbooks.take _, hpaging _ _ (hrun.perm held_take (List.Subset.refl _))⟩
      | fetch job => exact ⟨hbooks.take _, hpaging _ _ (hrun.perm held_take (List.Subset.refl _))⟩
      | deadlock => exact hrun.elim
  · intro a ha
    obtain ⟨cfg, hepl, hrun⟩ := hd.2 a ha
    exact ⟨cfg, hepl, hrun.asking⟩

/-! ### Releases -/

theorem gaveBack_nil (hgoing : d.going = []) :
    d.gaveBack h = { d with taken := d.taken.erase h } := by
  unfold Deck.gaveBack
  rw [hgoing]

theorem gaveBack_cons {t : Ticket} {rest : List Ticket} (hgoing : d.going = t :: rest) :
    d.gaveBack h = { d with going := rest, released := d.released ++ [(t, d.passed)] } := by
  unfold Deck.gaveBack
  rw [hgoing]

theorem Books.giveBack {t : Ticket} {ts : List Ticket} {rest : List ExpertHandle}
    (hd : Books { L with going := h :: rest } d) (hgoing : d.going = t :: ts)
    (hrest : ts.map Ticket.handle = rest) (hdue : t.recorded ≤ d.passed) :
    Books { L with going := rest }
      { d with going := ts, released := d.released ++ [(t, d.passed)] } := by
  have hcovered := hd.sound.going
  rw [hgoing] at hcovered
  obtain ⟨ht, hts⟩ := List.forall_mem_cons.mp hcovered
  refine ⟨⟨?_, hd.sound.length, hd.sound.queue, hts, ?_⟩, hd.pending, hd.taken, hd.hand, hrest,
    hd.launched⟩
  · refine List.Perm.trans (List.Perm.map _ (List.perm_iff_count.mpr fun x => ?_))
      hd.sound.balance
    simp only [Deck.tickets, hgoing, List.map_append, List.map_cons, List.map_nil,
      List.count_append, List.count_cons, List.count_nil]
    omega
  · intro r hr
    rcases List.mem_append.mp hr with hr | hr
    · exact hd.sound.released r hr
    · rw [List.mem_singleton.mp hr]
      exact ⟨ht, hdue⟩

/-- A `release` answers at once, with the pager's slot unpinned. -/
theorem release_eq_some {ch : Choice} {r : Option Unit}
    (hturn : callMachine.turn d ch (.release h) = some (r, d')) :
    r = some () ∧ ∃ a w, d.owner.pager = some a ∧
      decodeMachine.turn (d.world a) ch.timedOut (.release h) = some (some (), w) ∧
      d' = (d.setWorld a w).gaveBack h := by
  obtain ⟨⟨r', d''⟩, hpaged, hturn⟩ := Option.bind_eq_some_iff.mp hturn
  obtain ⟨a, w, ha, hw, rfl⟩ := paged_eq_some hpaged
  obtain ⟨p, hrel, hw'⟩ := Option.bind_eq_some_iff.mp hw
  cases hw'
  cases hturn
  exact ⟨rfl, a, _, ha, hw, rfl⟩

/-- The next handle of a popped entry. -/
theorem triple_release_going {rest : List ExpertHandle} :
    callMachine.Triple okCall
      (fun d => At epl { L with going := h :: rest } F [] d ∧ Due d) (Prog.lift (.release h))
      fun _ d => At epl { L with going := rest } F [] d ∧ Due d := by
  refine .prompt (fun d d' e hd he => ⟨hd.1.env he, hd.2.env he⟩) (fun d hd => ?_)
    (fun d ch d' hturn => ?_) fun d ch r d' hd hturn => ?_
  · obtain ⟨t, ts, hgoing, hhandle, -⟩ := List.map_eq_cons_iff.mp hd.1.1.going
    have ht : t ∈ d.going := hgoing ▸ List.mem_cons_self
    exact ⟨hd.1.1.sound, .inl ⟨t, ts, hgoing, hhandle, hd.2 t ht⟩⟩
  · cases (release_eq_some hturn).1
  · obtain ⟨-, a, w, ha, hw, rfl⟩ := release_eq_some hturn
    obtain ⟨⟨hbooks, hpaging⟩, hdue⟩ := hd
    obtain ⟨t, ts, hgoing, -, hts⟩ := List.map_eq_cons_iff.mp hbooks.going
    obtain ⟨cfg, hepl, hrun⟩ := hpaging a ha
    have hperm : (Locals.held { L with going := h :: rest } d.lost).Perm
        (h :: Locals.held { L with going := rest } d.lost) := by
      refine List.perm_iff_count.mpr fun x => ?_
      simp only [Locals.held, List.count_append, List.count_cons]
      omega
    have hready : h :: Locals.ready { L with going := rest } F ⊆
        Locals.ready { L with going := h :: rest } F := by
      refine List.cons_subset.mpr ⟨?_, fun x hx => ?_⟩
      · simp [Locals.ready]
      · simp only [Locals.ready, List.mem_append, List.mem_cons] at hx ⊢
        tauto
    have hrun' := (Decoder.triple_release h).answer (hrun.perm hperm hready) hw
    have hdue' : ∀ t' ∈ t :: ts, t'.recorded ≤ d.passed := hgoing ▸ hdue
    have hgoing' : (d.setWorld a w).going = t :: ts := hgoing
    rw [gaveBack_cons hgoing']
    exact ⟨⟨hbooks.setWorld.giveBack hgoing' hts (hdue' t List.mem_cons_self),
      paging_setWorld (fun _ events hw => hw.events events) ⟨cfg, hepl, hrun'⟩⟩,
      fun t' ht' => hdue' t' (List.mem_cons_of_mem t ht')⟩

/-- The next handle of a wave. -/
theorem triple_release_taken {rest : List ExpertHandle} :
    callMachine.Triple okCall (At epl { L with taken := h :: rest, going := [] } (h :: F) [])
      (Prog.lift (.release h)) fun _ => At epl { L with taken := rest, going := [] } F [] := by
  refine .prompt (fun d d' e hd he => hd.env he) (fun d hd => ?_)
    (fun d ch d' hturn => ?_) fun d ch r d' hd hturn => ?_
  · have hmem : h ∈ d.taken := by
      rw [hd.1.taken]
      exact List.mem_cons_self
    exact ⟨hd.1.sound, .inr ⟨List.map_eq_nil_iff.mp hd.1.going, hmem⟩⟩
  · cases (release_eq_some hturn).1
  · obtain ⟨-, a, w, ha, hw, rfl⟩ := release_eq_some hturn
    obtain ⟨hbooks, hpaging⟩ := hd
    obtain ⟨cfg, hepl, hrun⟩ := hpaging a ha
    have hrun' := (Decoder.triple_release h).answer hrun hw
    have hgoing : (d.setWorld a w).going = [] := List.map_eq_nil_iff.mp hbooks.going
    have htaken : d.taken.erase h = rest := by
      rw [hbooks.taken]
      exact List.erase_cons_head h rest
    rw [gaveBack_nil hgoing]
    refine ⟨⟨⟨hbooks.sound.balance, hbooks.sound.length, hbooks.sound.queue, hbooks.sound.going,
      hbooks.sound.released⟩, hbooks.pending, htaken, hbooks.hand, hbooks.going, hbooks.launched⟩,
      paging_setWorld (fun _ events hw => hw.events events) ⟨cfg, hepl, hrun'⟩⟩

/-! ### The stream -/

/-- The expert kernels for the handles at hand come before event `ev`. -/
def Before (ev : Nat) (d : Deck) : Prop :=
  ∀ t ∈ d.hand, 0 < t.kernels ∧ t.kernels < d.recordedAt ev

theorem Before.env {e : DeckEnv} {ev : Nat} (hd : Before ev d) (he : d.env e = some d') :
    Before ev d' := by
  rcases env_cases he with ⟨a, k, act, w, -, -, rfl⟩ | ⟨n, -, rfl⟩ <;> exact hd

theorem At.passes {n : Nat} (hd : At epl L F snd d) : At epl L F snd { d with passed := n } :=
  ⟨hd.1.passes, hd.2⟩

theorem triple_syncStream :
    callMachine.Triple okCall (At epl L F snd) (Prog.lift .syncStream)
      fun _ => At epl L F snd := by
  refine .prompt (fun d d' e hd he => hd.env he) (fun d hd => ⟨hd.1.sound, trivial⟩)
    (fun d ch d' hturn => nomatch hturn) fun d ch r d' hd hturn => ?_
  cases hturn
  exact hd.passes

theorem triple_eventDone (ev : Nat) :
    callMachine.Triple okCall (At epl L F snd) (Prog.lift (.eventDone ev))
      fun r d => At epl L F snd d ∧ (r = true → Done ev d) := by
  refine .prompt (fun d d' e hd he => hd.env he) (fun d hd => ⟨hd.1.sound, trivial⟩)
    (fun d ch d' hturn => nomatch hturn) fun d ch r d' hd hturn => ?_
  cases hturn
  refine ⟨hd, fun hr => ?_⟩
  have hle : d.recordedAt ev ≤ d.passed := of_decide_eq_true hr
  exact hle

theorem triple_syncEvent (ev : Nat) :
    callMachine.Triple okCall (At epl L F snd) (Prog.lift (.syncEvent ev))
      fun _ d => At epl L F snd d ∧ Done ev d := by
  refine .prompt (fun d d' e hd he => hd.env he) (fun d hd => ⟨hd.1.sound, trivial⟩)
    (fun d ch d' hturn => nomatch hturn) fun d ch r d' hd hturn => ?_
  cases hturn
  exact ⟨hd.passes, Nat.le_max_right _ _⟩

/-- The entry that waits for the event is out of the ring already. -/
theorem triple_syncEvent_going (ev : Nat) :
    callMachine.Triple okCall (fun d => At epl L F snd d ∧ OnEvent ev d)
      (Prog.lift (.syncEvent ev)) fun _ d => At epl L F snd d ∧ Due d := by
  refine .prompt (fun d d' e hd he => ⟨hd.1.env he, hd.2.env he⟩)
    (fun d hd => ⟨hd.1.1.sound, trivial⟩) (fun d ch d' hturn => nomatch hturn)
    fun d ch r d' hd hturn => ?_
  cases hturn
  exact ⟨hd.1.passes, fun t ht => (hd.2 t ht).trans_le (Nat.le_max_right _ _)⟩

theorem Books.ne_of_fresh {ev : Nat} (hd : Books L d) (hfresh : ev ∉ L.pending.map Prod.fst) :
    ∀ e ∈ d.queue, e.1 ≠ ev := by
  intro e he hev
  refine hfresh ?_
  rw [← hd.pending, List.map_map]
  exact List.mem_map.mpr ⟨e, he, hev⟩

/-- An event that no entry waits on may be recorded again. -/
theorem triple_recordEvent {ev : Nat} (hfresh : ev ∉ L.pending.map Prod.fst)
    (hlaunched : L.launched) :
    callMachine.Triple okCall (At epl L F snd) (Prog.lift (.recordEvent ev))
      fun _ d => At epl L F snd d ∧ Before ev d := by
  refine .prompt (fun d d' e hd he => hd.env he)
    (fun d hd => ⟨hd.1.sound, hd.1.ne_of_fresh hfresh⟩) (fun d ch d' hturn => nomatch hturn)
    fun d ch r d' hd hturn => ?_
  cases hturn
  obtain ⟨hbooks, hpaging⟩ := hd
  have hkernels := hbooks.launched hlaunched
  have hqueue : ∀ e ∈ d.queue, ∀ t ∈ e.2, t.Covered ∧
      t.recorded = Function.update d.recordedAt ev (d.stream + 1) e.1 := by
    intro e he t ht
    rw [Function.update_of_ne (hbooks.ne_of_fresh hfresh e he)]
    exact hbooks.sound.queue e he t ht
  refine ⟨⟨⟨⟨hbooks.sound.balance, hbooks.sound.length, hqueue, hbooks.sound.going,
    hbooks.sound.released⟩, hbooks.pending, hbooks.taken, hbooks.hand, hbooks.going,
    fun _ t ht => ⟨(hkernels t ht).1, Nat.le_succ_of_le (hkernels t ht).2⟩⟩, hpaging⟩,
    fun t ht => ⟨(hkernels t ht).1, ?_⟩⟩
  show t.kernels < Function.update d.recordedAt ev (d.stream + 1) ev
  rw [Function.update_self]
  exact Nat.lt_succ_of_le (hkernels t ht).2

/-! ### The pager's client calls -/

theorem At.mono {F' : List ExpertHandle} (hd : At epl L F snd d) (hF : F' ⊆ F) :
    At epl L F' snd d := by
  refine ⟨hd.1, fun a ha => (hd.2 a ha).perm (.refl _) fun x hx => ?_⟩
  simp only [Locals.ready, List.mem_append] at hx ⊢
  rcases hx with (hx | hx) | hx
  · exact .inl (.inl (hF hx))
  · exact .inl (.inr hx)
  · exact .inr hx

/-- How `request` ends. -/
def Requested (epl : Nat) (L : Locals) : Option (List ExpertHandle) → Deck → Prop
  | none => At epl { L with taken := [] } [] []
  | some hs => At epl { L with taken := hs } [] []

/-- By induction on the experts still to be asked for. -/
theorem triple_requestLoop {todo : List Nat} (hlt : ∀ e ∈ todo, e < epl)
    (out : List ExpertHandle) :
    callMachine.Triple okCall (At epl { L with taken := out } [] [])
      (Decoder.requestLoop layer todo out) (Requested epl L) := by
  induction todo generalizing out with
  | nil => exact .ret fun d hd => hd
  | cons expert rest ih =>
      obtain ⟨hexpert, hrest⟩ := List.forall_mem_cons.mp hlt
      refine (triple_acquire hexpert).bind fun r => ?_
      cases r with
      | got slot => exact ih hrest _
      | fetch job =>
          refine (triple_quiet (fun _ => []) (fun _ => []) rfl
            fun cfg lost _ => Decoder.triple_send job).bind fun _ => ?_
          exact ih hrest _
      | deadlock => exact .ret fun d hd => hd

theorem triple_request {experts : List Nat} (hlt : ∀ e ∈ experts, e < epl)
    (htaken : L.taken = []) :
    callMachine.Triple okCall (At epl L [] []) (Decoder.request layer experts)
      (Requested epl L) := by
  have hL : { L with taken := [] } = L := by rw [← htaken]
  refine (triple_quiet (fun _ => []) (fun _ => []) rfl fun cfg lost _ => ?_).bind
    fun n => ?_
  · exact Decoder.triple_capacity.weaken (fun _ hw => hw) fun _ _ hw => hw.2
  · split
    · refine .ret fun d hd => ?_
      rw [← hL] at hd
      exact hd
    · have hloop : callMachine.Triple okCall (At epl { L with taken := [] } [] [])
          (Decoder.requestLoop layer experts []) (Requested epl L) := triple_requestLoop hlt []
      rwa [hL] at hloop

theorem triple_prefetch {experts : List Nat} (hlt : ∀ e ∈ experts, e < epl) :
    callMachine.Triple okCall (At epl L [] []) (Decoder.prefetch layer experts)
      fun _ => At epl L [] [] := by
  induction experts with
  | nil => exact .ret fun d hd => hd
  | cons expert rest ih =>
      obtain ⟨hexpert, hrest⟩ := List.forall_mem_cons.mp hlt
      refine Lib.Machine.Triple.bind (Q := fun _ => At epl L [] []) ?_ fun _ => ih hrest
      refine (triple_quiet (fun _ => []) Option.toList rfl fun cfg lost hepl =>
        Decoder.triple_tryPrefetch (hepl ▸ hexpert) ready_subset_held).bind fun r => ?_
      cases r with
      | none => exact .ret fun d hd => hd
      | some job =>
          exact triple_quiet (fun _ => []) (fun _ => []) rfl fun cfg lost _ =>
            Decoder.triple_trySend job

theorem triple_prefetchNext {cfg : DecoderConfig} {experts : List Nat}
    (hlt : ∀ e ∈ experts, e < epl) :
    callMachine.Triple okCall (At epl L [] []) (Decoder.prefetchNext cfg layer experts)
      fun _ => At epl L [] [] := by
  unfold Decoder.prefetchNext
  split
  · exact triple_prefetch hlt
  · exact .ret fun d hd => hd

theorem triple_waitAll (hs : List ExpertHandle) :
    callMachine.Triple okCall (At epl L F []) (Decoder.waitAll hs)
      fun _ => At epl L (hs ++ F) [] := by
  induction hs generalizing F with
  | nil => exact .ret fun d hd => hd
  | cons h hs ih =>
      refine (triple_quiet (fun _ => h :: F) (fun _ => []) rfl fun cfg lost _ =>
        Decoder.triple_waitStream h).bind fun _ => ?_
      exact ih.weaken (fun d hd => hd) fun _ d hd => hd.mono (List.perm_middle.symm.subset)

theorem triple_tick :
    callMachine.Triple okCall (At epl L F []) (Prog.lift .tick) fun _ => At epl L F [] :=
  triple_quiet (fun _ => F) (fun _ => []) rfl fun _ _ _ => Decoder.triple_tick

/-- A popped entry goes. -/
theorem triple_releaseGoing (hs : List ExpertHandle) :
    callMachine.Triple okCall (fun d => At epl { L with going := hs } F [] d ∧ Due d)
      (Decoder.releaseAll hs) fun _ d => At epl { L with going := [] } F [] d ∧ Due d :=
  Lib.Machine.Triple.forM (I := fun rest d => At epl { L with going := rest } F [] d ∧ Due d) hs
    fun _ _ => triple_release_going

/-- A wave goes. -/
theorem triple_releaseTaken (hs : List ExpertHandle) :
    callMachine.Triple okCall (At epl { L with taken := hs, going := [] } hs [])
      (Decoder.releaseAll hs) fun _ => At epl { L with taken := [], going := [] } [] [] :=
  Lib.Machine.Triple.forM
    (I := fun rest => At epl { L with taken := rest, going := [] } rest []) hs
    fun _ _ => triple_release_taken

/-! ### The waves of `step_multi` -/

section

variable {pending : List (Nat × List ExpertHandle)}

/-- One wave takes and releases its handles, or loses them. -/
theorem triple_wave {ids : List Nat} (hlt : ∀ e ∈ ids, e < epl) :
    callMachine.Triple okCall (At epl (resting pending) [] []) (Decoder.wave layer ids)
      fun _ => At epl (resting pending) [] [] := by
  refine (triple_request hlt rfl).bind fun r => ?_
  cases r with
  | none => exact .ret fun d hd => hd
  | some hs =>
      refine (triple_waitAll hs).bind fun _ => triple_syncStream.bind fun _ => ?_
      refine Lib.Machine.Triple.bind (Q := fun _ => At epl (resting pending) [] []) ?_
        fun _ => .ret fun d hd => hd
      refine (triple_releaseTaken (L := resting pending) hs).weaken (fun d hd => ?_) fun _ d hd => hd
      rwa [List.append_nil] at hd

theorem triple_waves {ws : List (List Nat)} (hlt : ∀ ids ∈ ws, ∀ e ∈ ids, e < epl) :
    callMachine.Triple okCall (At epl (resting pending) [] []) (Decoder.waves layer ws)
      fun _ => At epl (resting pending) [] [] := by
  induction ws with
  | nil => exact .ret fun d hd => hd
  | cons ids rest ih =>
      obtain ⟨hids, hrest⟩ := List.forall_mem_cons.mp hlt
      refine (triple_wave hids).bind fun r => ?_
      cases r with
      | false => exact .ret fun d hd => hd
      | true => exact ih hrest

theorem triple_multiLayers {cfg : DecoderConfig} {picks : Nat → List (List Nat)}
    (hlt : ∀ l, ∀ es ∈ picks l, ∀ e ∈ es, e < epl) (ls : List Nat) :
    callMachine.Triple okCall (At epl (resting pending) [] []) (Decoder.multiLayers cfg picks ls)
      fun _ => At epl (resting pending) [] [] := by
  induction ls with
  | nil => exact .ret fun d hd => hd
  | cons l rest ih =>
      refine triple_syncStream.bind fun _ => (triple_waves fun ids hids e he => ?_).bind fun r => ?_
      · have hmem := Lib.mem_of_mem_chunks (by omega) hids he
        obtain ⟨es, hes, he⟩ := Lib.mem_sortedUnion.mp hmem
        exact hlt l es hes e he
      · cases r with
        | false => exact .ret fun d hd => hd
        | true => exact ih

theorem triple_readLogits {entries : List (Nat × Nat)} {wantLogits : Bool} :
    callMachine.Triple okCall (At epl L F snd) (Decoder.readLogits entries wantLogits)
      fun _ => At epl L F snd := by
  unfold Decoder.readLogits
  split
  · exact Lib.Machine.Triple.forM (I := fun _ => At epl L F snd) _ fun _ _ => triple_syncStream
  · exact .ret fun d hd => hd

end

/-! ### The notes -/

section

variable {shape : PackShape}

/-- The front entry leaves the ring for the way out. -/
theorem At.pop {ev : Nat} {hs : List ExpertHandle} {rest : List (Nat × List ExpertHandle)}
    (hd : At epl { L with pending := (ev, hs) :: rest, going := [] } F [] d) :
    ∃ e es, d.queue = e :: es ∧
      At epl { L with pending := rest, going := hs } F []
        { d with queue := es, going := d.going ++ e.2 } ∧
      OnEvent ev { d with queue := es, going := d.going ++ e.2 } := by
  obtain ⟨hbooks, hpaging⟩ := hd
  obtain ⟨e, es, hqueue, he, hes⟩ := List.map_eq_cons_iff.mp hbooks.pending
  obtain ⟨hev, hhs⟩ := Prod.mk.inj he
  have hgoing : d.going = [] := List.map_eq_nil_iff.mp hbooks.going
  have hlength := hbooks.sound.length
  have hcovered := hbooks.sound.queue
  rw [hqueue] at hlength hcovered
  obtain ⟨hfront, hrest⟩ := List.forall_mem_cons.mp hcovered
  refine ⟨e, es, hqueue, ⟨⟨⟨?_, (Nat.le_succ _).trans hlength, hrest, ?_, hbooks.sound.released⟩,
    hes, hbooks.taken, hbooks.hand, ?_, hbooks.launched⟩, fun a ha => (hpaging a ha).perm ?_ ?_⟩, ?_⟩
  · refine List.Perm.trans (List.Perm.map _ (List.perm_iff_count.mpr fun x => ?_))
      hbooks.sound.balance
    simp only [Deck.tickets, hqueue, List.flatMap_cons, List.count_append]
    omega
  · intro t ht
    rw [hgoing] at ht
    exact (hfront t ht).1
  · show (d.going ++ e.2).map Ticket.handle = hs
    rw [hgoing]
    exact hhs
  · refine List.perm_iff_count.mpr fun x => ?_
    simp only [Locals.held, entryHandles, List.flatMap_cons, List.count_append, List.count_nil]
    omega
  · intro x hx
    simp only [Locals.ready, entryHandles, List.flatMap_cons, List.mem_append,
      List.not_mem_nil] at hx ⊢
    tauto
  · intro t ht
    have ht : t ∈ d.going ++ e.2 := ht
    rw [hgoing] at ht
    rw [(hfront t ht).2, hev]

theorem pop_eq_some {ch : Choice} {e : Nat × List Ticket} {es : List (Nat × List Ticket)}
    {r : Option Unit} (hqueue : d.queue = e :: es)
    (hturn : (deckMachine shape).turn d ch .pop = some (r, d')) :
    r = some () ∧ d' = { d with queue := es, going := d.going ++ e.2 } := by
  simp only [deckMachine, Deck.turn, hqueue] at hturn
  cases hturn
  exact ⟨rfl, rfl⟩

theorem triple_pop {ev : Nat} {hs : List ExpertHandle} {rest : List (Nat × List ExpertHandle)} :
    (deckMachine shape).Triple ok
      (At epl { L with pending := (ev, hs) :: rest, going := [] } F [])
      (note .pop) fun _ d =>
        At epl { L with pending := rest, going := hs } F [] d ∧ OnEvent ev d := by
  refine .cmd (fun d d' hd hmove => ?_) (fun d hd => ⟨hd.1.sound, trivial⟩)
    fun d ch r d' hd hturn => ?_
  · obtain ⟨e, es, hqueue, -⟩ := hd.pop
    rcases hmove with ⟨e, he⟩ | ⟨ch, hturn⟩
    · exact hd.env he
    · cases (pop_eq_some hqueue hturn).1
  · obtain ⟨e, es, hqueue, hpop⟩ := hd.pop
    obtain ⟨-, rfl⟩ := pop_eq_some hqueue hturn
    exact hpop

/-- When its event is done, an entry's handles may go. -/
theorem triple_pop_done {ev : Nat} {hs : List ExpertHandle}
    {rest : List (Nat × List ExpertHandle)} :
    (deckMachine shape).Triple ok
      (fun d => At epl { L with pending := (ev, hs) :: rest, going := [] } F [] d ∧ Done ev d)
      (note .pop) fun _ d =>
        At epl { L with pending := rest, going := hs } F [] d ∧ Due d := by
  refine .cmd (fun d d' hd hmove => ?_) (fun d hd => ⟨hd.1.1.sound, trivial⟩)
    fun d ch r d' hd hturn => ?_
  · obtain ⟨e, es, hqueue, -⟩ := hd.1.pop
    rcases hmove with ⟨e, he⟩ | ⟨ch, hturn⟩
    · exact ⟨hd.1.env he, hd.2.env he⟩
    · cases (pop_eq_some hqueue hturn).1
  · obtain ⟨e, es, hqueue, hpop, hon⟩ := hd.1.pop
    obtain ⟨-, rfl⟩ := pop_eq_some hqueue hturn
    exact ⟨hpop, fun t ht => (hon t ht).trans_le hd.2⟩

/-- The handles at hand join the ring, behind the event just recorded. -/
theorem triple_push {ev : Nat} {hs : List ExpertHandle} (hlen : L.pending.length < releaseEvents) :
    (deckMachine shape).Triple ok
      (fun d => At epl { L with hand := hs } hs [] d ∧ Before ev d) (note (.push ev hs)) fun _ =>
        At epl { L with pending := L.pending ++ [(ev, hs)], hand := [], launched := False } [] [] := by
  refine .prompt (fun d d' e hd he => ⟨hd.1.env he, hd.2.env he⟩)
    (fun d hd => ⟨hd.1.1.sound, hd.1.1.hand⟩) (fun d ch d' hturn => nomatch hturn)
    fun d ch r d' hd hturn => ?_
  cases hturn
  obtain ⟨⟨hbooks, hpaging⟩, hbefore⟩ := hd
  have hlength : d.queue.length = L.pending.length := by
    rw [← hbooks.pending, List.length_map]
  refine ⟨⟨⟨?_, ?_, ?_, hbooks.sound.going, hbooks.sound.released⟩, ?_, hbooks.taken, rfl,
    hbooks.going, False.elim⟩, fun a ha => (hpaging a ha).perm ?_ ?_⟩
  · have hstamp : (d.hand.map fun t => { t with recorded := d.recordedAt ev }).map Ticket.serial =
        d.hand.map Ticket.serial := List.map_map
    refine List.Perm.trans (List.perm_iff_count.mpr fun n => ?_) hbooks.sound.balance
    simp only [Deck.tickets, List.flatMap_append, List.flatMap_cons, List.flatMap_nil,
      List.map_append, hstamp, List.map_nil, List.append_nil, List.count_append, List.count_nil]
    omega
  · show (d.queue ++ [_]).length ≤ releaseEvents
    rw [List.length_append, List.length_singleton, hlength]
    exact hlen
  · intro e he t ht
    rcases List.mem_append.mp he with he | he
    · exact hbooks.sound.queue e he t ht
    · cases List.mem_singleton.mp he
      obtain ⟨t', ht', rfl⟩ := List.mem_map.mp ht
      exact ⟨hbefore t' ht', rfl⟩
  · show (d.queue ++ [_]).map _ = _
    rw [List.map_append, hbooks.pending, List.map_singleton, List.map_map]
    exact congrArg (fun l => L.pending ++ [(ev, l)]) hbooks.hand
  · refine List.perm_iff_count.mpr fun x => ?_
    simp only [Locals.held, entryHandles, List.flatMap_append, List.flatMap_cons, List.flatMap_nil,
      List.append_nil, List.count_append]
    omega
  · intro x hx
    simp only [Locals.ready, entryHandles, List.flatMap_append, List.flatMap_cons,
      List.flatMap_nil, List.append_nil, List.mem_append, List.not_mem_nil] at hx ⊢
    tauto

theorem triple_kernels :
    (deckMachine shape).Triple ok (At epl L F snd) (note .kernels)
      fun _ => At epl { L with launched := True } F snd := by
  refine .prompt (fun d d' e hd he => hd.env he) (fun d hd => ⟨hd.1.sound, trivial⟩)
    (fun d ch d' hturn => nomatch hturn) fun d ch r d' hd hturn => ?_
  cases hturn
  obtain ⟨hbooks, hpaging⟩ := hd
  refine ⟨⟨⟨?_, hbooks.sound.length, hbooks.sound.queue, hbooks.sound.going,
    hbooks.sound.released⟩, hbooks.pending, hbooks.taken, ?_, hbooks.going, ?_⟩, hpaging⟩
  · have hstamp : (d.hand.map fun t => { t with kernels := d.stream + 1 }).map Ticket.serial =
        d.hand.map Ticket.serial := List.map_map
    refine List.Perm.trans (List.perm_iff_count.mpr fun n => ?_) hbooks.sound.balance
    simp only [Deck.tickets, List.map_append, hstamp]
  · show (d.hand.map _).map Ticket.handle = L.hand
    rw [List.map_map]
    exact hbooks.hand
  · intro _ t ht
    obtain ⟨t', -, rfl⟩ := List.mem_map.mp ht
    exact ⟨Nat.succ_pos _, Nat.le_refl _⟩

theorem numbered_handle (n : Nat) (hs : List ExpertHandle) :
    (Deck.numbered n hs).map Ticket.handle = hs := by
  induction hs generalizing n with
  | nil => rfl
  | cons h hs ih => exact congrArg (h :: ·) (ih (n + 1))

theorem numbered_serial (n : Nat) (hs : List ExpertHandle) :
    (Deck.numbered n hs).map Ticket.serial = List.range' n hs.length := by
  induction hs generalizing n with
  | nil => rfl
  | cons h hs ih => exact congrArg (n :: ·) (ih (n + 1))

/-- `request` has returned: its handles get the next numbers. -/
theorem triple_obtained {hs : List ExpertHandle} :
    (deckMachine shape).Triple ok (At epl { L with taken := hs, hand := [] } F snd)
      (note (.obtained hs)) fun _ =>
        At epl { L with taken := [], hand := hs, launched := False } F snd := by
  refine .prompt (fun d d' e hd he => hd.env he) (fun d hd => ⟨hd.1.sound, hd.1.taken⟩)
    (fun d ch d' hturn => nomatch hturn) fun d ch r d' hd hturn => ?_
  cases hturn
  obtain ⟨hbooks, hpaging⟩ := hd
  have hhand : d.hand = [] := List.map_eq_nil_iff.mp hbooks.hand
  refine ⟨⟨⟨?_, hbooks.sound.length, hbooks.sound.queue, hbooks.sound.going,
    hbooks.sound.released⟩, hbooks.pending, rfl, ?_, hbooks.going, False.elim⟩,
    fun a ha => (hpaging a ha).perm ?_ (List.Subset.refl _)⟩
  · have hrange : List.range (d.obtained + d.taken.length) =
        List.range d.obtained ++ List.range' d.obtained d.taken.length := by
      rw [List.range_eq_range', List.range_eq_range', ← List.range'_append_1, Nat.zero_add]
    rw [hrange]
    refine List.Perm.trans (List.perm_iff_count.mpr fun n => ?_)
      (hbooks.sound.balance.append_right _)
    simp only [Deck.tickets, List.map_append, numbered_serial, List.count_append]
    omega
  · show (d.hand ++ Deck.numbered d.obtained d.taken).map Ticket.handle = hs
    rw [hhand, List.nil_append, numbered_handle]
    exact hbooks.taken
  · refine List.perm_iff_count.mpr fun x => ?_
    simp only [Locals.held, List.count_append, List.count_nil]
    omega

/-- With an empty ring only prefetches and failed requests pin anything. -/
theorem At.pinsLeft (hd : At epl (resting []) [] [] d) : d.PinsLeft := by
  intro a ha slot
  obtain ⟨cfg, -, hrun⟩ := hd.2 a ha
  have hpins : (a.pager.cache.view slot).pins =
      (grantsOf a.pager.expertsPerLayer d.lost a.pager.jobs).countP (·.slot = slot) :=
    hrun.1.pager.fetching.accounts.pins slot
  rw [hpins, grantsOf, List.countP_append, List.countP_map, List.countP_map, Nat.add_comm]
  rfl

theorem triple_waveSize :
    (deckMachine shape).Triple ok (At epl (resting []) [] []) (note .waveSize)
      fun _ => At epl (resting []) [] [] := by
  refine .prompt (fun d d' e hd he => hd.env he) (fun d hd => ⟨hd.1.sound, hd.pinsLeft⟩)
    (fun d ch d' hturn => ?_) fun d ch r d' hd hturn => ?_
  · obtain ⟨a, -, hturn⟩ := Option.bind_eq_some_iff.mp hturn
    cases hturn
  · obtain ⟨a, -, hturn⟩ := Option.bind_eq_some_iff.mp hturn
    cases hturn
    exact hd

/-- A fresh pager over the decoder's pack pins nothing. -/
theorem pinned_new {s : Supply} {cfg : ArenaConfig}
    (hnew : Arena.new (s.env shape) cfg = some (.ok a)) :
    Pinned shape.expertsPerLayer [] [] [] ⟨a.pager, fun _ => false, false⟩ := by
  obtain ⟨shape', pagerCfg, hpack, hpager, hepl⟩ := Arena.new_pager hnew
  have hshape : shape' = shape := by
    unfold Supply.env at hpack
    by_cases hopens : s.opens = true
    · simp only [hopens, if_true] at hpack
      exact (Option.some.inj hpack).symm
    · simp [hopens] at hpack
  subst hshape
  refine ⟨⟨pagerCfg, 0, 0, 0, 0, false⟩, hepl,
    ⟨Pager.new_inv hpager, ?_, nofun, False.elim⟩, rfl⟩
  obtain ⟨cache, -, hp⟩ := Option.bind_eq_some_iff.mp hpager
  rw [← Option.some.inj hp]

theorem triple_resize {slots : Nat} {pending : List (Nat × List ExpertHandle)}
    (hepl : shape.expertsPerLayer = epl) :
    (deckMachine shape).Triple ok (At epl (resting pending) [] []) (note (.resize slots pending))
      fun r d => (r = [] ∨ r = pending) ∧ At epl (resting r) [] [] d := by
  refine .prompt (fun d d' e hd he => hd.env he) (fun d hd => ⟨hd.1.sound, trivial⟩)
    (fun d ch d' hturn => ?_) fun d ch r d' hd hturn => ?_
  · obtain ⟨⟨r, o⟩, -, hturn⟩ := Option.bind_eq_some_iff.mp hturn
    simp only at hturn
    split at hturn <;> cases hturn
  · obtain ⟨⟨r', o⟩, hresize, hturn⟩ := Option.bind_eq_some_iff.mp hturn
    simp only at hturn
    by_cases hsync : ch.sync = true
    · rw [if_pos hsync] at hturn
      rw [hsync] at hresize
      obtain ⟨hcleared, hbuilt⟩ := CacheOwner.resizeCache_built hresize
      cases hturn
      rw [hcleared]
      refine ⟨.inl rfl, ⟨⟨?_, Nat.zero_le _, nofun, ?_, hd.1.sound.released⟩, rfl, hd.1.taken,
        hd.1.hand, hd.1.going, False.elim⟩, fun a ha => ?_⟩
      · refine List.Perm.trans (List.Perm.map _ (List.perm_iff_count.mpr fun x => ?_))
          hd.1.sound.balance
        simp only [Deck.tickets, List.flatMap_nil, List.count_append, List.count_nil]
        omega
      · exact hd.1.sound.going
      · obtain ⟨env, cfg, henv, hnew⟩ := hbuilt a ha
        rw [← hepl]
        rcases henv with rfl | rfl
        · exact pinned_new hnew
        · exact pinned_new hnew
    · rw [if_neg hsync] at hturn
      have hsame : o.pendingRelease = pending := by
        unfold CacheOwner.resizeCache at hresize
        rw [if_pos (eq_false_of_ne_true hsync)] at hresize
        cases hresize
        rfl
      cases hturn
      rw [hsame]
      exact ⟨.inr rfl, hd⟩

theorem triple_ask {P : Deck → Prop} {c : DecodeCmd} {Q : c.Res → Deck → Prop}
    (hc : callMachine.Triple okCall P (Prog.lift c) Q) :
    (deckMachine shape).Triple ok P (ask c) Q :=
  fun d hd => hc d hd

theorem triple_onDeck {P : Deck → Prop} {α : Type} {p : DecodeProg α} {Q : α → Deck → Prop}
    (hp : callMachine.Triple okCall P p Q) : (deckMachine shape).Triple ok P (onDeck p) Q :=
  fun d hd => Lib.Machine.Safe.handle (g := ask) (fun _ _ _ hc => hc) (hp d hd)

/-! ### The ring -/

theorem At.length (hd : At epl L F snd d) : L.pending.length ≤ releaseEvents := by
  rw [← hd.1.pending, List.length_map]
  exact hd.1.sound.length

/-- Draining takes entries off the front, each when its event is done. -/
theorem triple_drain (pending : List (Nat × List ExpertHandle)) :
    (deckMachine shape).Triple ok (At epl { L with pending := pending, going := [] } F [])
      (drain pending) fun r d =>
        At epl { L with pending := r, going := [] } F [] d ∧ r <:+ pending := by
  induction pending with
  | nil => exact .ret fun d hd => ⟨hd, List.suffix_refl _⟩
  | cons entry rest ih =>
      obtain ⟨ev, done⟩ := entry
      refine (triple_ask (triple_eventDone ev)).bind fun r => ?_
      cases r with
      | false => exact .ret fun d hd => ⟨hd.1, List.suffix_refl _⟩
      | true =>
          refine Lib.Machine.Triple.bind
            (triple_pop_done.weaken (fun d hd => ⟨hd.1, hd.2 rfl⟩) fun _ _ hd => hd) fun _ => ?_
          refine (triple_onDeck
            (triple_releaseGoing (L := { L with pending := rest }) done)).bind fun _ => ?_
          exact ih.weaken (fun d hd => hd.1) fun r d hd =>
            ⟨hd.1, hd.2.trans (List.suffix_cons _ _)⟩

/-- A full ring loses its front entry, once its event is done. -/
theorem triple_makeRoom {pending : List (Nat × List ExpertHandle)}
    (hlen : pending.length ≤ releaseEvents) :
    (deckMachine shape).Triple ok (At epl { L with pending := pending, going := [] } F [])
      (makeRoom pending) fun r d =>
        At epl { L with pending := r, going := [] } F [] d ∧ r <:+ pending ∧
          r.length < releaseEvents := by
  cases pending with
  | nil => exact .ret fun d hd => ⟨hd, List.suffix_refl _, by decide⟩
  | cons entry rest =>
      obtain ⟨ev, done⟩ := entry
      rw [List.length_cons] at hlen
      simp only [makeRoom]
      split
      · refine triple_pop.bind fun _ => ?_
        refine (triple_ask (triple_syncEvent_going ev)).bind fun _ => ?_
        refine (triple_onDeck
          (triple_releaseGoing (L := { L with pending := rest }) done)).bind fun _ => ?_
        exact .ret fun d hd => ⟨hd.1, List.suffix_cons _ _, by omega⟩
      · exact .ret fun d hd => ⟨hd, List.suffix_refl _, by rw [List.length_cons]; omega⟩

theorem triple_flush (pending : List (Nat × List ExpertHandle)) :
    (deckMachine shape).Triple ok (At epl (resting pending) [] []) (flush pending)
      fun _ => At epl (resting []) [] [] := by
  induction pending with
  | nil => exact .ret fun d hd => hd
  | cons entry rest ih =>
      obtain ⟨ev, done⟩ := entry
      refine (triple_ask (triple_syncEvent ev)).bind fun _ => ?_
      refine Lib.Machine.Triple.bind (triple_pop_done (L := resting [])) fun _ => ?_
      refine (triple_onDeck (triple_releaseGoing (L := resting rest) done)).bind fun _ => ?_
      exact ih.weaken (fun d hd => hd.1) fun _ d hd => hd

/-- Between two calls: the queued events follow each other round the ring, and the
decoder holds what is queued and nothing else. -/
def AtRest (epl : Nat) (r : Ring) (d : Deck) : Prop :=
  Lib.InTurn releaseEvents r.nextEvent (r.pending.map Prod.fst) ∧
    At epl (resting r.pending) [] [] d

/-- **`defer_release` never records an event that a queued entry waits on.** -/
theorem triple_deferRelease {r : Ring} {hs : List ExpertHandle}
    (hturn : Lib.InTurn releaseEvents r.nextEvent (r.pending.map Prod.fst)) :
    (deckMachine shape).Triple ok
      (At epl { resting r.pending with hand := hs, launched := True } hs [])
      (deferRelease r hs) fun r' => AtRest epl r' := by
  refine (triple_drain (L := { resting r.pending with hand := hs, launched := True })
    r.pending).bind fun drained => ?_
  rintro d ⟨hd, hsuffix⟩
  refine (triple_makeRoom hd.length d hd).bind fun roomy d hd => ?_
  obtain ⟨hd, hsuffix', hlen⟩ := hd
  have hturn' : Lib.InTurn releaseEvents r.nextEvent (roomy.map Prod.fst) :=
    hturn.suffix ((hsuffix'.trans hsuffix).map Prod.fst)
  have hfresh : r.nextEvent ∉ roomy.map Prod.fst :=
    hturn'.fresh (by rwa [List.length_map])
  let L : Locals := { resting roomy with hand := hs, launched := True }
  refine (triple_ask (triple_recordEvent (L := L) hfresh trivial) d hd).bind fun _ d hd => ?_
  refine (triple_push (L := L) hlen d hd).bind fun _ d hd => ⟨?_, hd⟩
  rw [List.map_append]
  exact hturn'.push

/-! ### The calls -/

theorem AtRest.env {r : Ring} {e : DeckEnv} (hd : AtRest epl r d) (he : d.env e = some d') :
    AtRest epl r d' :=
  ⟨hd.1, hd.2.env he⟩

variable {cfg : DecoderConfig}

/-- By induction on the layers still to run; each ends with its handles queued, or
fails before it has obtained any. -/
theorem triple_stepLayers {picks : Nat → List Nat} (hlt : ∀ l, ∀ e ∈ picks l, e < epl)
    (ls : List Nat) (r : Ring) :
    (deckMachine shape).Triple ok (AtRest epl r) (stepLayers cfg picks ls r)
      fun x => AtRest epl x.2 := by
  induction ls generalizing r with
  | nil => exact .ret fun d hd => hd
  | cons l rest ih =>
      rintro d ⟨hturn, hd⟩
      refine (triple_ask triple_syncStream d hd).bind fun _ d hd => ?_
      refine (triple_onDeck (triple_request (hlt l) rfl) d hd).bind fun a d hd => ?_
      cases a with
      | none => exact ⟨hturn, hd⟩
      | some hs =>
          let L : Locals := { resting r.pending with hand := hs }
          refine (triple_obtained (L := resting r.pending) d hd).bind fun _ d hd => ?_
          refine (triple_onDeck (triple_prefetchNext (L := L) (hlt l)) d hd).bind fun _ d hd => ?_
          refine (triple_onDeck (triple_waitAll hs) d hd).bind fun _ d hd => ?_
          rw [List.append_nil] at hd
          refine (triple_kernels d hd).bind fun _ d hd => ?_
          exact (triple_deferRelease hturn d hd).bind fun r' d hd => ih r' d hd

theorem triple_step {pos : Nat} {wantLogits : Bool} {picks : Nat → List Nat} {r : Ring}
    (hlt : ∀ l, ∀ e ∈ picks l, e < epl) :
    (deckMachine shape).Triple ok (AtRest epl r) (step cfg pos wantLogits picks r)
      (AtRest epl) := by
  unfold step
  split
  · exact .ret fun d hd => hd
  · refine (triple_stepLayers hlt _ r).bind fun x => ?_
    obtain ⟨done, r'⟩ := x
    simp only
    split
    · rintro d ⟨hturn, hd⟩
      refine (triple_ask triple_syncStream d hd).bind fun _ d hd => ?_
      refine (triple_ask triple_tick d hd).bind fun _ d hd => ?_
      exact ⟨hturn, hd⟩
    · exact .ret fun d hd => hd

theorem triple_stepMulti {entries : List (Nat × Nat)} {wantLogits : Bool}
    {picks : Nat → List (List Nat)} {r : Ring} (hlt : ∀ l, ∀ es ∈ picks l, ∀ e ∈ es, e < epl) :
    (deckMachine shape).Triple ok (AtRest epl r) (stepMulti cfg entries wantLogits picks r)
      (AtRest epl) := by
  unfold stepMulti
  split
  · exact .ret fun d hd => hd
  · rintro d ⟨hturn, hd⟩
    have hturn' : Lib.InTurn releaseEvents r.nextEvent [] := hturn.suffix (List.nil_suffix)
    refine (triple_flush r.pending d hd).bind fun _ d hd => ?_
    refine (triple_waveSize d hd).bind fun slots d hd => ?_
    refine (triple_onDeck (triple_multiLayers hlt _) d hd).bind fun done d hd => ?_
    cases done with
    | false => exact ⟨hturn', hd⟩
    | true =>
        refine (triple_ask triple_tick d hd).bind fun _ d hd => ?_
        refine (triple_onDeck triple_readLogits d hd).bind fun _ d hd => ?_
        exact ⟨hturn', hd⟩

theorem triple_resizeCache {slots : Nat} {r : Ring} (hepl : shape.expertsPerLayer = epl) :
    (deckMachine shape).Triple ok (AtRest epl r) (resizeCache slots r) (AtRest epl) := by
  rintro d ⟨hturn, hd⟩
  refine (triple_resize hepl d hd).bind fun pending d hd => ?_
  obtain ⟨hpending, hd⟩ := hd
  refine ⟨?_, hd⟩
  rcases hpending with rfl | rfl
  · exact hturn.suffix List.nil_suffix
  · exact hturn

/-- The router picks experts of the pack. -/
def InPack (cfg : DecoderConfig) : Call → Prop
  | .step _ _ picks => ∀ l, ∀ e ∈ picks l, e < cfg.pager.expertsPerLayer
  | .stepMulti _ _ picks => ∀ l, ∀ es ∈ picks l, ∀ e ∈ es, e < cfg.pager.expertsPerLayer
  | .resizeCache _ => True

theorem triple_serve {maxBlobBytes : Nat} {x : Call} {r : Ring} (hx : InPack cfg x) :
    (deckMachine (packShape cfg maxBlobBytes)).Triple ok
      (AtRest cfg.pager.expertsPerLayer r) (serve cfg x r)
      (AtRest cfg.pager.expertsPerLayer) := by
  cases x with
  | step pos wantLogits picks => exact triple_step hx
  | stepMulti entries wantLogits picks => exact triple_stepMulti hx
  | resizeCache slots => exact triple_resizeCache rfl

/-! ### What a failed request loses -/

/-- Only a request that times out on a wedged partition loses what it has
acquired. -/
theorem turnAcquire_lost {t : Bool} (hturn : w.turnAcquire t layer expert = some (some .deadlock, w')) :
    w.waiting = true ∧ t = true ∧
      w.pager.cache.isWedged (w.pager.idOf layer expert) = some true := by
  rcases Decoder.turnAcquire_cases hturn with ⟨hwait, -, hr | ⟨-, hwedged⟩⟩ | ⟨-, a, p, -, hr⟩
  · cases hr
  · refine ⟨hwait, ?_, hwedged⟩
    cases t with
    | true => rfl
    | false =>
        simp only [World.turnAcquire, hwait, if_true] at hturn
        cases hturn
  · rcases hr with ⟨slot, -, hr, -⟩ | ⟨job, -, hr, -⟩ | ⟨-, hr, -⟩ <;> cases hr

theorem lost_turnCall {t : Bool} {c : DecodeCmd} {r : Option c.Res}
    (hturn : d.turnCall t c = some (r, d')) :
    d'.lost = d.lost ∨ ∃ layer expert a, c = .acquire layer expert ∧
      d.owner.pager = some a ∧ d.waiting = true ∧ t = true ∧
      a.pager.cache.isWedged (a.pager.idOf layer expert) = some true ∧
      d'.lost = d.lost ++ d.taken := by
  cases c with
  | acquire layer expert =>
      obtain ⟨⟨r', d''⟩, hpaged, hturn⟩ := Option.bind_eq_some_iff.mp hturn
      obtain ⟨a, w, ha, hw, rfl⟩ := paged_eq_some hpaged
      cases hturn
      cases r with
      | none => exact .inl rfl
      | some r =>
          cases r with
          | got slot => exact .inl rfl
          | fetch job => exact .inl rfl
          | deadlock =>
              obtain ⟨hwait, ht, hwedged⟩ := turnAcquire_lost hw
              exact .inr ⟨layer, expert, a, rfl, ha, hwait, ht, hwedged, rfl⟩
  | release h =>
      obtain ⟨⟨r', d''⟩, hpaged, hturn⟩ := Option.bind_eq_some_iff.mp hturn
      obtain ⟨a, w, ha, hw, rfl⟩ := paged_eq_some hpaged
      cases hturn
      refine .inl ?_
      unfold Deck.gaveBack
      split <;> rfl
  | syncStream | eventDone | syncEvent | recordEvent =>
      cases hturn
      exact .inl rfl
  | capacity | send | tryPrefetch | trySend | waitStream | tick =>
      obtain ⟨a, w, -, -, rfl⟩ := paged_eq_some hturn
      exact .inl rfl

/-- What the decoder has lost after a turn. -/
theorem lost_turn {ch : Choice} {c : RingCmd} {r : Option c.Res}
    (hturn : d.turn shape ch c = some (r, d')) :
    d'.lost = d.lost ∨ d'.lost = [] ∨ ∃ layer expert a, c = .call (.acquire layer expert) ∧
      d.owner.pager = some a ∧ d.waiting = true ∧ ch.timedOut = true ∧
      a.pager.cache.isWedged (a.pager.idOf layer expert) = some true ∧
      d'.lost = d.lost ++ d.taken := by
  cases c with
  | call c =>
      rcases lost_turnCall hturn with hsame | ⟨layer, expert, a, rfl, hlost⟩
      · exact .inl hsame
      · exact .inr (.inr ⟨layer, expert, a, rfl, hlost⟩)
  | obtained | kernels | push =>
      cases hturn
      exact .inl rfl
  | pop =>
      simp only [Deck.turn] at hturn
      split at hturn
      · cases hturn
      · cases hturn
        exact .inl rfl
  | waveSize =>
      obtain ⟨a, -, hturn⟩ := Option.bind_eq_some_iff.mp hturn
      cases hturn
      exact .inl rfl
  | resize slots pending =>
      obtain ⟨⟨r', o⟩, -, hturn⟩ := Option.bind_eq_some_iff.mp hturn
      simp only at hturn
      split at hturn
      · cases hturn
        exact .inr (.inl rfl)
      · cases hturn
        exact .inl rfl

/-! ### Whole runs -/

abbrev State : Type := Deck × Lib.Phase RingCmd.Res Ring

abbrev Step : Type := Lib.ServerAct Call DeckEnv Choice

/-- Every call's picks are experts of the pack. -/
def PicksInPack (cfg : DecoderConfig) (_ : State) (a : Step) : Prop :=
  ∀ x, a = .call x → InPack cfg x

/-- No `request` ends in the deadlock diagnosis after it has acquired an expert. -/
def Spared (c : State) (a : Step) : Prop :=
  ∀ layer expert k ch arena, c.2 = .busy (.cmd (.call (.acquire layer expert)) k) →
    a = .turn ch → c.1.owner.pager = some arena → c.1.waiting = true → ch.timedOut = true →
    arena.pager.cache.isWedged (arena.pager.idOf layer expert) = some true → c.1.taken = []

def PicksInPackSpared (cfg : DecoderConfig) (c : State) (a : Step) : Prop :=
  PicksInPack cfg c a ∧ Spared c a

/-- The decoder holds no pins: each is that of a prefetch on its way, which the
worker drops. -/
def HoldsNoPins (d : Deck) : Prop :=
  ∀ a, d.owner.pager = some a → ∀ slot, (a.pager.cache.view slot).pins =
    (a.pager.jobs.filter (·.releaseAfterFill)).countP (·.slot = slot)

variable {maxBlobBytes : Nat} {ph : Lib.Phase RingCmd.Res Ring}

/-- **Run lemma.** In a run whose failing requests have acquired nothing, nothing
is lost. -/
theorem reachable_lost {c : State}
    (h : (system cfg maxBlobBytes).Reachable (PicksInPackSpared cfg) c) : c.1.lost = [] := by
  let Inv : State → Prop := fun c => c.1.lost = []
  suffices hinv : Inv c from hinv
  refine h.invariant ?_ ?_
  · rintro ⟨d, ph⟩ ⟨r, -, -, o, s, slots, a, -, rfl⟩
    rfl
  · rintro ⟨d, ph⟩ a ⟨d', ph'⟩ hd hC hstep
    rcases Lib.Server.step_state hstep with rfl | ⟨ch, c, k, r, rfl, rfl, hturn⟩ | ⟨e, -, he⟩
    · exact hd
    · rcases lost_turn hturn with hsame | hnil | ⟨layer, expert, a, rfl, ha, hwait, ht, hwedged, hlost⟩
      · exact hsame.trans hd
      · exact hnil
      · have htaken : d.taken = [] :=
          hC.2 layer expert k ch a rfl rfl ha hwait ht hwedged
        have hlost : d'.lost = d.lost ++ d.taken := hlost
        show d'.lost = []
        rw [hlost, htaken, List.append_nil]
        exact hd
    · exact (lost_env he).trans hd

/-- What the ring keeps, wherever the decoder is. -/
structure Kept (d : Deck) (ph : Lib.Phase RingCmd.Res Ring) : Prop where
  /-- No event is recorded again while a queued entry waits on it. -/
  event : ∀ ev k, ph = .busy (.cmd (.call (.recordEvent ev)) k) → ∀ e ∈ d.queue, e.1 ≠ ev
  /-- A queued handle waits for the event recorded after its layer's expert
  kernels. -/
  queued : ∀ e ∈ d.queue, ∀ t ∈ e.2, t.Covered ∧ t.recorded = d.recordedAt e.1
  /-- A handle that `step` has obtained is in one place: queued, dead, released, or
  in the hands of the running call. -/
  once : ∀ n < d.obtained, ((d.queue.flatMap Prod.snd).map Ticket.serial).count n +
    (d.died.map Ticket.serial).count n +
    (d.released.map fun r => r.1.serial).count n +
    ((d.hand ++ d.going).map Ticket.serial).count n = 1
  /-- Between two calls no handle is in hand, and the ring is `pending_release`. -/
  idle : ∀ r, ph = .idle r → d.hand = [] ∧ d.going = [] ∧
    r.pending = d.queue.map fun e => (e.1, e.2.map Ticket.handle)
  /-- A handle was released when the stream had passed its event. -/
  released : ∀ r ∈ d.released, r.1.Covered ∧ r.1.recorded ≤ r.2
  /-- Nothing else is released, but the handles of a wave by the wave. -/
  release : ∀ h k, ph = .busy (.cmd (.call (.release h)) k) →
    (∃ t rest, d.going = t :: rest ∧ t.handle = h ∧ t.recorded ≤ d.passed) ∨
      d.going = [] ∧ h ∈ d.taken
  length : d.queue.length ≤ releaseEvents

theorem sound_once (hd : d.Sound) {n : Nat} (hn : n < d.obtained) :
    ((d.queue.flatMap Prod.snd).map Ticket.serial).count n +
      (d.died.map Ticket.serial).count n +
      (d.released.map fun r => r.1.serial).count n +
      ((d.hand ++ d.going).map Ticket.serial).count n = 1 := by
  have hone : (List.range d.obtained).count n = 1 :=
    List.count_eq_one_of_mem List.nodup_range (List.mem_range.mpr hn)
  rw [← hd.balance.count_eq n] at hone
  simp only [Deck.tickets, List.map_append, List.map_map, List.count_append,
    Function.comp_def] at hone ⊢
  omega

/-- Everywhere in a run the books are in order, and what the next command needs is
there. -/
theorem reachable_inv (h : (system cfg maxBlobBytes).Reachable (PicksInPack cfg) (d, ph)) :
    Lib.Server.Inv (deckMachine (packShape cfg maxBlobBytes)) ok
      (AtRest cfg.pager.expertsPerLayer) (d, ph) := by
  refine Lib.Server.reachable_inv ?_ ?_ ?_ h
  · rintro d r ⟨rfl, o, s, slots, a, hbuild, rfl⟩
    refine ⟨Lib.InTurn.nil (by decide), ⟨⟨List.Perm.refl _, Nat.zero_le _, ?_, ?_, ?_⟩, rfl, rfl,
      rfl, rfl, False.elim⟩, fun a' ha' => ?_⟩
    · intro e he
      cases he
    · intro t ht
      cases ht
    · intro r hr
      cases hr
    · cases ha'
      exact pinned_new hbuild
  · intro r d d' e hd he
    exact hd.env he
  · intro d r x hd hC
    exact triple_serve (hC x rfl) d hd

/-- **The deferred ring is safe.** In every run of calls the ring keeps what it
should; and when no failing request has acquired anything, the decoder holds no pins
when `step_multi` sizes its first wave. -/
theorem reachable_kept (h : (system cfg maxBlobBytes).Reachable (PicksInPack cfg) (d, ph)) :
    Kept d ph ∧ ((system cfg maxBlobBytes).Reachable (PicksInPackSpared cfg) (d, ph) →
      ∀ k, ph = .busy (.cmd .waveSize k) → HoldsNoPins d) := by
  have hinv := reachable_inv h
  have hok : ∀ c k, ph = .busy (.cmd c k) → ok d c := by
    rintro c k rfl
    exact (hinv d .refl).1
  have hsound : d.Sound := by
    cases ph with
    | idle r => exact hinv.2.1.sound
    | busy p =>
        cases p with
        | ret r => exact hinv.2.1.sound
        | cmd c k => exact (hok c k rfl).1
  refine ⟨⟨fun ev k hph => (hok _ k hph).2, hsound.queue, fun n hn => sound_once hsound hn, ?_,
    hsound.released, fun x k hph => (hok _ k hph).2, hsound.length⟩, fun hspared k hph a ha slot => ?_⟩
  · rintro r rfl
    have hbooks : Books (resting r.pending) d := hinv.2.1
    exact ⟨List.map_eq_nil_iff.mp hbooks.hand, List.map_eq_nil_iff.mp hbooks.going,
      hbooks.pending.symm⟩
  · have hpins : (a.pager.cache.view slot).pins = _ := (hok _ k hph).2 a ha slot
    have hlost : d.lost = [] := reachable_lost hspared
    rw [hpins, hlost]
    rfl

/-! ### Two runs -/

/-- The thread is about to size the waves of `step_multi`, with `P` of the pager. -/
def sizing (P : Arena → Bool) (c : State) : Bool :=
  match c.2 with
  | .busy (.cmd .waveSize _) => c.1.owner.pager.any P
  | _ => false

theorem of_sizing {P : Arena → Bool} (hc : sizing P (d, ph) = true) :
    ∃ k a, ph = .busy (.cmd .waveSize k) ∧ d.owner.pager = some a ∧ P a = true := by
  unfold sizing at hc
  split at hc
  · rename_i k hph
    obtain ⟨a, ha, hP⟩ := (Option.any_eq_true _ _).mp hc
    exact ⟨k, a, hph, ha, hP⟩
  · cases hc

/-- A pack that opens and a card with room. -/
def plenty : Supply := ⟨true, none, fun _ _ => true, fun _ => true⟩

/-- One layer, two slots and three experts, two of them for a token. -/
def twoSlots : DecoderConfig :=
  { pager := ⟨1, 3, 2, 64, 1, false, 4⟩, topK := 2, maxSeq := 8, chunkCap := 64, batchCap := 1,
    prefetchNext := true }

def firstOwner : CacheOwner := ⟨none, [], 1, 0, 0, false, 4⟩

def firstArena : Arena := ⟨(Pager.new twoSlots.pager).get rfl, 2, 4096, none⟩

def turns (n : Nat) : List Step := List.replicate n (.turn ⟨false, true, plenty, plenty⟩)

/-- The worker fills a slot. -/
def filling : List Step :=
  [.env (.worker 0 .take), .env (.worker 0 .copy), .env (.worker 0 .sync),
    .env (.worker 0 .publish)]

/-- A token that picks experts 0 and 1; its handles stay in the ring. -/
def firstToken : List Step :=
  [.env (.worker 0 .start), .call (.step 0 false fun _ => [0, 1])] ++ turns 7 ++ filling ++
    filling ++ turns 5 ++ [.ret]

/-- The next one picks 0 and 2. Both slots are pinned, so its request fails, with
expert 0 acquired. -/
def secondToken : List Step :=
  [.call (.step 1 false fun _ => [0, 2])] ++ turns 4 ++
    [.turn ⟨true, true, plenty, plenty⟩, .ret]

/-- A chunk, up to its first fetch. -/
def chunk : List Step := [.call (.stepMulti [(0, 0)] false fun _ => [[0]])] ++ turns 4

theorem init_twoSlots :
    (system twoSlots 4096).init (.start { firstOwner with pager := some firstArena }, .idle ⟨[], 0⟩) :=
  ⟨_, rfl, rfl, firstOwner, plenty, 2, firstArena, rfl, rfl⟩

theorem picksInPack_tokens (s : State) :
    ∀ a ∈ firstToken ++ secondToken ++ chunk, PicksInPack twoSlots s a := by
  intro a ha x hx
  subst hx
  have hcalls : x = .step 0 false (fun _ => [0, 1]) ∨ x = .step 1 false (fun _ => [0, 2]) ∨
      x = .stepMulti [(0, 0)] false fun _ => [[0]] := by
    simpa [firstToken, secondToken, chunk, turns, filling] using ha
  rcases hcalls with rfl | rfl | rfl <;>
  · intro l
    simp [twoSlots]

/-- A token and a chunk, with no failure between them. -/
theorem reachable_kept_chunk :
    ∃ d k, (system twoSlots 4096).Reachable (PicksInPack twoSlots) (d, .busy (.cmd .waveSize k)) ∧
      Kept d (.busy (.cmd .waveSize k)) ∧ HoldsNoPins d := by
  have hcalls : ∀ s, ∀ a ∈ firstToken ++ chunk, PicksInPackSpared twoSlots s a := by
    intro s a ha
    refine ⟨picksInPack_tokens s a ?_, ?_⟩
    · simp only [List.mem_append] at ha ⊢
      tauto
    · rintro layer expert k ch arena - rfl - - ht
      have hch : ch = ⟨false, true, plenty, plenty⟩ := by
        simpa [firstToken, chunk, turns, filling] using ha
      rw [hch] at ht
      cases ht
  obtain ⟨⟨d, ph⟩, hc, hP⟩ := Lib.System.exists_reachable
    (Lib.Server.step (deckMachine (packShape twoSlots 4096)) (serve twoSlots))
    (firstToken ++ chunk) (sizing fun _ => true) init_twoSlots hcalls (by decide)
  obtain ⟨k, a, rfl, -, -⟩ := of_sizing hP
  have hkept := reachable_kept (hc.mono fun _ _ h => h.1)
  exact ⟨d, k, hc.mono fun _ _ h => h.1, hkept.1, hkept.2 hc k rfl⟩

/-- **A failed token keeps a pin.** When `step_multi` sizes its first wave after the
two tokens, the ring is flushed and no fetch is on its way, and expert 0 is still
pinned. -/
theorem failed_token_keeps_pin :
    ∃ d k, (system twoSlots 4096).Reachable (PicksInPack twoSlots) (d, .busy (.cmd .waveSize k)) ∧
      ¬ HoldsNoPins d := by
  let P : Arena → Bool := fun a => (a.pager.cache.view 0).pins == 1 && a.pager.jobs.isEmpty
  obtain ⟨⟨d, ph⟩, hc, hP⟩ := Lib.System.exists_reachable
    (Lib.Server.step (deckMachine (packShape twoSlots 4096)) (serve twoSlots))
    (firstToken ++ secondToken ++ chunk) (sizing P) init_twoSlots picksInPack_tokens (by decide)
  obtain ⟨k, a, rfl, ha, hPa⟩ := of_sizing hP
  obtain ⟨hpins, hjobs⟩ := Bool.and_eq_true_iff.mp hPa
  refine ⟨d, k, hc, fun hnone => ?_⟩
  have hzero := hnone a ha 0
  rw [beq_iff_eq.mp hpins, List.isEmpty_iff.mp hjobs] at hzero
  cases hzero

end

end ReleaseRing

end LlmPager
