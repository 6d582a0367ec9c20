import LlmPager.Core.Eviction
import LlmPager.Cuda.Draining
import LlmPager.Run.TrafficSafe

/-!
# LlmPager.Run.KimiTraffic

The Kimi decoder as a client of the pager (`llmpager-run/src/kimi.rs`).

Kimi's layers fetch in waves of at most `slots_per_layer` experts, in `step` as
in `step_multi`, and every wave lets its experts go before the next one asks.
Nothing is deferred and nothing is prefetched, so a wave starts with the whole
cache unpinned, whatever `top_k` is: every attempt of `request` is answered at
once, no call fails in it, and between two calls the pager is at rest
(`reachable_at_rest`). What may still stop a call is a worker that fails: a
`send` panics when the last one is gone, a `wait` for a lost fetch never ends.

The commands, and what is left out, are those of `Run.Traffic`.
-/

namespace LlmPager

/-- The fields of `KimiDecoder` that decide its traffic. -/
structure KimiConfig where
  pager : PagerConfig
  denseLayers : Nat
  topK : Nat
  maxSeq : Nat
  chunkCap : Nat
  batchCap : Nat

namespace KimiConfig

/-- The model's layers: `new` checks that the pack has all but the dense ones. -/
def layers (cfg : KimiConfig) : Nat := cfg.denseLayers + cfg.pager.numLayers

/-- The same decoder to its pager: one without cross-layer prefetch. -/
def client (cfg : KimiConfig) : DecoderConfig where
  pager := cfg.pager
  topK := cfg.topK
  maxSeq := cfg.maxSeq
  chunkCap := cfg.chunkCap
  batchCap := cfg.batchCap
  prefetchNext := false

end KimiConfig

namespace KimiDecoder

open Lib (Prog)
open Decoder

/-- How a call ends: refused by its own checks, failed in `request`, or done. -/
inductive Answer
  | refused
  | failed
  | done
  deriving Repr, DecidableEq

section Commands

open DecodeCmd

variable (cfg : KimiConfig)

/-- The layers still to run, with the experts that each of them fetches; false
when `request` failed. -/
def moeLayers (fetched : Nat → List Nat) : List Nat → DecodeProg Bool
  | [] => pure true
  | l :: rest =>
      if l < cfg.denseLayers then moeLayers fetched rest
      else do
        -- the router's logits are read back before anything is requested
        Prog.lift syncStream
        let size := max cfg.pager.slotsPerLayer 1
        if ← waves (l - cfg.denseLayers) (Lib.chunks size (fetched l)) then moeLayers fetched rest
        else pure false

/-- `KimiDecoder::step` at position `pos`. Only a step with logits ticks. -/
def step (pos : Nat) (wantLogits : Bool) (picks : Nat → List Nat) : DecodeProg Answer :=
  if cfg.maxSeq ≤ pos then pure .refused
  else do
    if ← moeLayers cfg picks (List.range cfg.layers) then do
      if wantLogits then do
        Prog.lift syncStream
        Prog.lift tick
        pure .done
      else pure .done
    else pure .failed

/-- `KimiDecoder::step_multi` on entries `(pos, seq)`. -/
def stepMulti (entries : List (Nat × Nat)) (wantLogits : Bool)
    (picks : Nat → List (List Nat)) : DecodeProg Answer :=
  if entries.length = 0 ∨ cfg.chunkCap < entries.length ∨
      entries.any (fun e => cfg.maxSeq ≤ e.1 ∨ cfg.batchCap ≤ e.2) then pure .refused
  else do
    -- each row of embeddings goes through the same host buffer
    entries.forM fun _ => Prog.lift syncStream
    if ← moeLayers cfg (fun l => Lib.sortedUnion (picks l)) (List.range cfg.layers) then do
      Prog.lift tick
      readLogits entries wantLogits
      pure .done
    else pure .failed

/-- A call; the decoder keeps nothing but, here, how the last call ended. -/
def call (x : Decoder.Call) (_ : Option Answer) : DecodeProg (Option Answer) :=
  match x with
  | .step pos wantLogits picks => some <$> step cfg pos wantLogits picks
  | .stepMulti entries wantLogits picks => some <$> stepMulti cfg entries wantLogits picks

/-- One decoder on a fresh pager, with its workers and its stream. -/
def system :
    Lib.System (World × Lib.Phase DecodeCmd.Res (Option Answer))
      (Lib.ServerAct Decoder.Call EnvAct Bool) :=
  Lib.Server.system decodeMachine (call cfg) fun w d =>
    Pager.new cfg.pager = some w.pager ∧ w.waiting = false ∧ d = none

end Commands

variable {cfg : KimiConfig} {G G' F F' : List ExpertHandle} {snd : List Job} {w w' : World}
  {layer expert : Nat}

/-! ### Assertions -/

/-- The decoder holds the handles `G`, those of `F` filled, it is about to send
the jobs `snd`, and every job on its way is a request's. -/
structure Asks (cfg : KimiConfig) (G F : List ExpertHandle) (snd : List Job) (w : World) :
    Prop where
  running : Running cfg.client G F snd False w
  demand : ∀ j ∈ snd ++ w.pager.jobs, j.releaseAfterFill = false

/-- The command is answered at its first turn: an `acquire` not with a deadlock, a
`send` as long as a worker is alive. Only `waitStream` may take its time. -/
def AtOnce (w : World) : DecodeCmd → Prop
  | .acquire layer expert => w.waiting = false ∧ ∀ t, ∃ r w',
      w.turnAcquire t layer expert = some (some r, w') ∧
        ((∃ slot, r = .got slot) ∨ ∃ job, r = .fetch job)
  | .send job => ∀ t, (∃ w', w.turn t (.send job) = some (some (), w')) ↔
      w.pager.workers.any Worker.alive = true
  | .waitStream _ => True
  | c => ∀ t, ∃ (r : c.Res) (w' : World), w.turn t c = some (some r, w')

/-- No fetch is lost, and `flags` says which workers are alive. -/
structure Live (flags : List Bool) (w : World) : Prop where
  sound : Clients.Sound w.pager
  flags : w.pager.workers.map Worker.alive = flags

/-- What holds at every command: asking never waits, and as long as no fetch is
lost there is a way on that takes no worker's death. -/
def ok (w : World) (c : DecodeCmd) : Prop :=
  AtOnce w c ∧ ∀ flags, decodeMachine.Answerable (Live flags) w c

theorem Live.congr {flags : List Bool} (h : Live flags w)
    (hw : w'.pager.workers = w.pager.workers) (hd : w'.pager.dropped = w.pager.dropped) :
    Live flags w' :=
  ⟨h.sound.congr hw hd, hw ▸ h.flags⟩

theorem Asks.perm (hw : Asks cfg G F snd w) (hp : G.Perm G') (hF : F' ⊆ F) :
    Asks cfg G' F' snd w :=
  ⟨hw.running.perm hp hF, hw.demand⟩

theorem Asks.env {e : EnvAct} (hw : Asks cfg G F snd w) (he : w.env e = some w') :
    Asks cfg G F snd w' := by
  refine ⟨hw.running.env he, fun j hj => hw.demand j ?_⟩
  cases e with
  | worker k a =>
      obtain ⟨p, hstep, he⟩ := Option.bind_eq_some_iff.mp he
      cases he
      exact List.mem_append.mpr
        ((List.mem_append.mp hj).imp_right fun h => Pager.workerStep_jobs hstep h)
  | event ev =>
      cases he
      exact hj

/-- A slot that is pinned has a handle on it. -/
theorem Asks.exists_handle (hw : Asks cfg G F snd w) {i : Nat}
    (hpins : 0 < (w.pager.cache.view i).pins) : ∃ h ∈ G, h.slot = i := by
  rw [hw.running.1.pager.fetching.accounts.pins] at hpins
  obtain ⟨g, hg, hslot⟩ := List.countP_pos_iff.mp hpins
  have hslot := of_decide_eq_true hslot
  rcases List.mem_append.mp hg with hh | hj
  · obtain ⟨h, hm, rfl⟩ := List.mem_map.mp hh
    exact ⟨h, hm, hslot⟩
  · obtain ⟨j, hm, -⟩ := List.mem_map.mp hj
    obtain ⟨hm, hflag⟩ := List.mem_filter.mp hm
    rw [hw.demand j hm] at hflag
    cases hflag

/-- And it is pinned once for each of them. -/
theorem Asks.pins_le (hw : Asks cfg G F snd w) (i : Nat) :
    (w.pager.cache.view i).pins ≤ G.length := by
  have hnone : (snd ++ w.pager.jobs).filter Job.releaseAfterFill = [] := by
    rw [List.filter_eq_nil_iff]
    intro j hj
    simp [hw.demand j hj]
  rw [hw.running.1.pager.fetching.accounts.pins, grantsOf, hnone]
  refine List.countP_le_length.trans ?_
  simp

/-- **Holding nothing, the pager is at rest.** -/
theorem Asks.at_rest (hw : Asks cfg [] F [] w) :
    (∀ i, (w.pager.cache.view i).pins = 0) ∧ w.pager.jobs = [] := by
  have hpins : ∀ i, (w.pager.cache.view i).pins = 0 := fun i => Nat.le_zero.mp (hw.pins_le i)
  refine ⟨hpins, List.eq_nil_iff_forall_not_mem.mpr fun j hj => ?_⟩
  have hpinned := hw.running.1.pager.fetching.job_pinned hj
  rw [hpins] at hpinned
  exact absurd hpinned (Nat.lt_irrefl 0)

/-! ### One rule per command -/

/-- A command that never waits, with what its answer brings about. -/
theorem triple_lift {c : DecodeCmd} {Q : c.Res → World → Prop}
    (hno : ∀ w, Asks cfg G F snd w → ∀ t w', w.turn t c ≠ some (none, w'))
    (hok : ∀ w, Asks cfg G F snd w → ok w c)
    (hpost : ∀ w t r w', Asks cfg G F snd w → w.turn t c = some (some r, w') → Q r w') :
    decodeMachine.Triple ok (Asks cfg G F snd) (Prog.lift c) Q := by
  refine .cmd (fun w w' hw hmove => ?_) hok hpost
  rcases hmove with ⟨e, he⟩ | ⟨t, ht⟩
  · exact hw.env he
  · exact absurd ht (hno w hw t w')

/-- What `Pager::new` checks, and the bound on the slots of the whole cache. -/
structure Sized (cfg : KimiConfig) : Prop where
  slots : 0 < cfg.pager.slotsPerLayer
  layers : 0 < cfg.pager.numLayers
  fit : cfg.pager.numLayers * cfg.pager.slotsPerLayer < 2 ^ 32

theorem Sized.partitions (hs : Sized cfg) : 0 < (Pager.shape cfg.pager).partitions := by
  unfold Pager.shape
  split
  · exact Nat.one_pos
  · exact hs.layers

theorem Sized.total (hs : Sized cfg) :
    (Pager.shape cfg.pager).partitions * (Pager.shape cfg.pager).slotsPerPartition < 2 ^ 32 := by
  unfold Pager.shape
  split
  · rw [Nat.one_mul]
    exact Nat.mod_lt _ (by decide)
  · exact hs.fit

theorem Sized.capacity (hs : Sized cfg) :
    (Pager.shape cfg.pager).slotsPerPartition < 2 ^ 32 :=
  (Nat.le_mul_of_pos_left _ hs.partitions).trans_lt hs.total

theorem triple_capacity (hs : Sized cfg) :
    decodeMachine.Triple ok (Asks cfg G F []) (Prog.lift .capacity) fun n w =>
      n = (Pager.shape cfg.pager).slotsPerPartition ∧ Asks cfg G F [] w := by
  refine triple_lift (fun w _ t w' h => ?_) (fun w hw => ?_) fun w t n w' hw h => ?_
  · obtain ⟨n, -, h⟩ := Option.bind_eq_some_iff.mp h
    cases h
  · have hparts : 0 < w.pager.cache.parts.length := by
      rw [hw.running.1.pager.cache.parts_length]
      exact hs.partitions
    have hturn : ∀ t, w.turn t .capacity = some (some w.pager.cache.parts[0].len, w) := by
      intro t
      simp [World.turn, ExpertCache.slotsPerPartition, List.getElem?_eq_getElem hparts]
    exact ⟨fun t => ⟨_, w, hturn t⟩,
      fun _ => .prompt fun hlive => ⟨false, _, w, hturn false, hlive⟩⟩
  · have hn := Decoder.triple_capacity.answer (t := t) hw.running h
    obtain ⟨n, -, h⟩ := Option.bind_eq_some_iff.mp h
    cases h
    exact ⟨hn.1, hn.2, hw.demand⟩

/-- What asking for an expert brings about. -/
def Acquires (cfg : KimiConfig) (G F : List ExpertHandle) (layer expert : Nat) :
    Acquired → World → Prop
  | .got slot, w => Asks cfg (⟨layer, expert, slot⟩ :: G) F [] w
  | .fetch job, w => Asks cfg (⟨layer, expert, job.slot⟩ :: G) F [job] w
  | .deadlock, _ => False

/-- **With room, `request` does not stall**: every pin is a handle of this wave. -/
theorem Asks.tryRequest (hs : Sized cfg) (hw : Asks cfg G F [] w)
    (hlt : expert < cfg.pager.expertsPerLayer) (hlen : G.length + 1 < 2 ^ 32)
    (hroom : Room (Pager.shape cfg.pager) cfg.pager.expertsPerLayer G
      (flatId cfg.pager.expertsPerLayer (layer, expert))) :
    ∃ a p, w.pager.tryRequest layer expert = some (a, p) ∧ a ≠ .stalled := by
  have hinv := hw.running.1.pager
  have hepl : w.pager.expertsPerLayer = cfg.pager.expertsPerLayer := hw.running.1.epl
  have hids : 0 < (Pager.shape cfg.pager).idsPerPartition := by
    unfold Pager.shape
    split <;> exact Nat.zero_lt_of_lt hlt
  obtain ⟨r, c, hacq⟩ := ExpertCache.exists_acquire (w.pager.idOf layer expert) hinv.cache
    hs.partitions hids hs.total fun i => (Nat.succ_le_succ (hw.pins_le i)).trans_lt hlen
  obtain ⟨-, hcases⟩ := ExpertCache.acquire_cases hinv.cache hacq
  simp only [Pager.tryRequest, hacq, Option.bind_eq_bind, Option.bind_some]
  rcases hcases with ⟨slot, rfl, -⟩ | ⟨slot, rfl, -⟩ | ⟨-, -, habsent, hpinned⟩
  · exact ⟨_, _, rfl, nofun⟩
  · exact ⟨_, _, rfl, nofun⟩
  · rw [← hepl] at hroom
    exact absurd hroom (not_room_of_held hinv habsent fun i hi => hw.exists_handle (hpinned i hi))

/-- The loop in `request` ends at its first attempt. -/
theorem Asks.turnAcquire (hw : Asks cfg G F [] w) {a : Attempt} {p : Pager}
    (htry : w.pager.tryRequest layer expert = some (a, p)) (ha : a ≠ .stalled) (t : Bool) :
    ∃ r, w.turnAcquire t layer expert = some (some r, { w with pager := p }) ∧
      ((∃ slot, a = .got slot ∧ r = .got slot) ∨ ∃ job, a = .fetch job ∧ r = .fetch job) := by
  have hrun : w.waiting = false := hw.running.2
  simp only [World.turnAcquire, hrun, Bool.false_eq_true, if_false, htry, Option.bind_eq_bind,
    Option.bind_some]
  cases a with
  | got slot => exact ⟨_, rfl, .inl ⟨slot, rfl, rfl⟩⟩
  | fetch job => exact ⟨_, rfl, .inr ⟨job, rfl, rfl⟩⟩
  | stalled => exact absurd rfl ha

theorem triple_acquire (hs : Sized cfg) (hlt : expert < cfg.pager.expertsPerLayer) (hF : F ⊆ G)
    (hlen : G.length + 1 < 2 ^ 32)
    (hroom : Room (Pager.shape cfg.pager) cfg.pager.expertsPerLayer G
      (flatId cfg.pager.expertsPerLayer (layer, expert))) :
    decodeMachine.Triple ok (Asks cfg G F []) (Prog.lift (.acquire layer expert))
      (Acquires cfg G F layer expert) := by
  refine triple_lift (fun w hw t w' ht => ?_) (fun w hw => ?_) fun w t r w' hw ht => ?_
  all_goals obtain ⟨a, p, htry, ha⟩ := hw.tryRequest hs hlt hlen hroom
  · obtain ⟨r, hturn, -⟩ := hw.turnAcquire htry ha t
    cases hturn.symm.trans ht
  · refine ⟨⟨hw.running.2, fun t => ?_⟩, fun _ => .prompt fun hlive => ?_⟩
    · obtain ⟨r, hturn, hr⟩ := hw.turnAcquire htry ha t
      exact ⟨r, _, hturn, hr.imp (Exists.imp fun _ => And.right) (Exists.imp fun _ => And.right)⟩
    · obtain ⟨r, hturn, -⟩ := hw.turnAcquire htry ha false
      obtain ⟨⟨c, fill, rfl, -⟩, -⟩ :=
        Pager.tryRequest_inv hw.running.1.pager (hw.running.1.epl ▸ hlt) htry
      exact ⟨false, r, _, hturn, hlive.congr rfl rfl⟩
  · obtain ⟨r', hturn, hr⟩ := hw.turnAcquire htry ha t
    have htriple : decodeMachine.Triple Decoder.ok (Running cfg.client G F [] False)
        (Prog.lift (.acquire layer expert)) _ := Decoder.triple_acquire hlt hF hroom
    have hpost := htriple.answer hw.running ht
    cases hturn.symm.trans ht
    obtain ⟨⟨c, fill, rfl, -⟩, hcases⟩ :=
      Pager.tryRequest_inv hw.running.1.pager (hw.running.1.epl ▸ hlt) htry
    rcases hr with ⟨slot, -, rfl⟩ | ⟨job, rfl, rfl⟩
    · exact ⟨hpost, hw.demand⟩
    · rcases hcases with ⟨slot, ha, -⟩ | ⟨slot, ha, -⟩ | ⟨ha, -⟩
      · cases ha
      · cases ha
        exact ⟨hpost, List.forall_mem_cons.mpr ⟨rfl, hw.demand⟩⟩
      · cases ha

theorem triple_send {job : Job} :
    decodeMachine.Triple ok (Asks cfg G F [job]) (Prog.lift (.send job))
      fun _ => Asks cfg G F [] := by
  refine triple_lift (fun w _ t w' h => ?_)
    (fun w _ => ⟨fun t => ?_, fun _ => .prompt fun hlive => ?_⟩) fun w t r w' hw h => ?_
  · obtain ⟨p, -, h⟩ := Option.bind_eq_some_iff.mp h
    cases h
  · by_cases halive : w.pager.workers.any Worker.alive = true
    · simp [World.turn, Pager.send, halive]
    · simp [World.turn, Pager.send, halive]
  · have hsend : w.pager.send job = some { w.pager with queue := w.pager.queue ++ [job] } :=
      if_pos hlive.sound.any_alive
    refine ⟨false, (), { w with pager := { w.pager with queue := w.pager.queue ++ [job] } }, ?_,
      hlive.congr rfl rfl⟩
    show w.turn false (.send job) = _
    simp [World.turn, hsend]
  · have hpost := (Decoder.triple_send job).answer (t := t) hw.running h
    obtain ⟨p, hsend, h⟩ := Option.bind_eq_some_iff.mp h
    cases h
    obtain ⟨rfl, -⟩ := Pager.send_inv hw.running.1.pager hsend
    refine ⟨hpost, fun j hj => hw.demand j ?_⟩
    simp only [Pager.jobs, List.nil_append, List.mem_append] at hj ⊢
    tauto

/-- The queue can be brought to its end while no worker dies. -/
theorem Asks.exists_drained {c : DecodeCmd} {flags : List Bool} (hw : Asks cfg G F [] w)
    (hlive : Live flags w) :
    ∃ w', Relation.ReflTransGen (decodeMachine.Waits c) w w' ∧ Asks cfg G F [] w' ∧
      Live flags w' ∧ w'.pager.jobs = [] := by
  induction hwork : w.pager.work using Nat.strong_induction_on generalizing w with
  | h n ih =>
      by_cases hjobs : w.pager.jobs = []
      · exact ⟨w, .refl, hw, hlive, hjobs⟩
      · obtain ⟨k, a, p, hdie, hstep, hlt⟩ :=
          Pager.exists_workerStep hw.running.1.pager hlive.sound hjobs
        have henv : decodeMachine.env w (.worker k a) = some { w with pager := p } := by
          simp [decodeMachine, World.env, hstep]
        obtain ⟨w', hmoves, hrest⟩ := ih p.work (hwork ▸ hlt) (hw.env (e := .worker k a) henv)
          ⟨hlive.sound.workerStep (fun h => absurd h hdie) hstep,
            (Pager.workerStep_alive hdie hstep).trans hlive.flags⟩ rfl
        exact ⟨w', .head (.inl ⟨_, henv⟩) hmoves, hrest⟩

/-- The handle waited for has a job, which some worker brings to its end. -/
theorem triple_waitStream {h : ExpertHandle} (hm : h ∈ G) :
    decodeMachine.Triple ok (Asks cfg G F []) (Prog.lift (.waitStream h))
      fun _ => Asks cfg G (h :: F) [] := by
  refine triple_lift (fun w _ t w' ht => ?_) (fun w hw => ⟨trivial, fun _ hlive => ?_⟩)
    fun w t r w' hw ht => ?_
  · simp only [World.turn] at ht
    split at ht <;> cases ht
  · obtain ⟨w', hmoves, hw', hlive', hjobs⟩ := hw.exists_drained (c := .waitStream h) hlive
    have hfill : w'.pager.fill h.slot = .ready := by
      by_contra hne
      have hf := hw'.running.1.pager.fetching
      have hflight := hf.inFlight_of_pinned (hf.handle_pinned hm) hne
      obtain ⟨j, hj, -⟩ := (hf.inFlight _).mp hflight
      rw [hjobs] at hj
      cases hj
    exact ⟨w', false, (), w', hmoves, if_pos hfill, hlive'⟩
  · have hpost := (Decoder.triple_waitStream h).answer (t := t) hw.running ht
    simp only [World.turn] at ht
    split at ht <;> cases ht
    exact ⟨hpost, hw.demand⟩

theorem triple_release {h : ExpertHandle} :
    decodeMachine.Triple ok (Asks cfg (h :: G) (h :: F) []) (Prog.lift (.release h))
      fun _ => Asks cfg G F [] := by
  refine triple_lift (fun w _ t w' ht => ?_) (fun w hw => ?_) fun w t r w' hw ht => ?_
  · obtain ⟨p, -, ht⟩ := Option.bind_eq_some_iff.mp ht
    cases ht
  · have hpinned := hw.running.1.pager.fetching.handle_pinned (h := h) List.mem_cons_self
    obtain ⟨c, hrel⟩ := ExpertCache.exists_release hpinned
    have hturn : ∀ t, w.turn t (.release h) =
        some (some (), { w with pager := { w.pager with cache := c } }) := by
      intro t
      simp [World.turn, Pager.release, hrel]
    exact ⟨fun t => ⟨(), _, hturn t⟩,
      fun _ => .prompt fun hlive => ⟨false, (), _, hturn false, hlive.congr rfl rfl⟩⟩
  · have hpost := (Decoder.triple_release h).answer (t := t) hw.running ht
    obtain ⟨p, hrel, ht⟩ := Option.bind_eq_some_iff.mp ht
    cases ht
    obtain ⟨c, -, hrel⟩ := Option.bind_eq_some_iff.mp hrel
    cases hrel
    exact ⟨hpost, hw.demand⟩

theorem triple_tick :
    decodeMachine.Triple ok (Asks cfg G F []) (Prog.lift .tick) fun _ => Asks cfg G F [] := by
  refine triple_lift (fun w _ t w' ht => ?_)
    (fun w _ => ⟨fun t => ⟨(), _, rfl⟩, fun _ => .prompt fun hlive => ?_⟩) fun w t r w' hw ht => ?_
  · cases ht
  · refine ⟨false, (), _, rfl, hlive.congr ?_ ?_⟩
    · rw [Pager.tick_eq]
    · rw [Pager.tick_eq]
  · have hpost := Decoder.triple_tick.answer (t := t) hw.running ht
    cases ht
    refine ⟨hpost, ?_⟩
    rw [Pager.tick_eq]
    exact hw.demand

theorem triple_syncStream :
    decodeMachine.Triple ok (Asks cfg G F []) (Prog.lift .syncStream)
      fun _ => Asks cfg G F [] := by
  refine triple_lift (fun w _ t w' ht => ?_)
    (fun w _ => ⟨fun t => ⟨(), _, rfl⟩, fun _ => .prompt fun hlive => ?_⟩) fun w t r w' hw ht => ?_
  · cases ht
  · exact ⟨false, (), _, rfl, hlive.congr rfl rfl⟩
  · have hpost := Decoder.triple_syncStream.answer (t := t) hw.running ht
    cases ht
    exact ⟨hpost.unsynced, hw.demand⟩

/-! ### The client calls -/

/-- A request gives a handle for each of its experts. -/
def Requested (cfg : KimiConfig) (r : Option (List ExpertHandle)) (w : World) : Prop :=
  ∃ hs, r = some hs ∧ Asks cfg hs [] [] w

/-- By induction on the experts still to be asked for. -/
theorem triple_requestLoop (hs : Sized cfg) {experts : List Nat}
    (hfits : Decoder.Fits cfg.client [] layer experts)
    (hcap : experts.length ≤ (Pager.shape cfg.pager).slotsPerPartition) (todo : List Nat)
    (out : List ExpertHandle) (htodo : todo ⊆ experts)
    (hlen : out.length + todo.length = experts.length)
    (hout : ∀ h ∈ out, h.layer = layer ∧ h.expert ∈ experts) :
    decodeMachine.Triple ok (Asks cfg out [] []) (requestLoop layer todo out)
      (Requested cfg) := by
  induction todo generalizing out with
  | nil => exact .ret fun w hw => ⟨out, rfl, hw⟩
  | cons expert rest ih =>
      obtain ⟨he, hrest⟩ := List.cons_subset.mp htodo
      have hmore : out.length + (rest.length + 1) = experts.length := hlen
      -- the loop goes on with the new handle at the end of `out`
      have hnext : ∀ slot, decodeMachine.Triple ok (Asks cfg (⟨layer, expert, slot⟩ :: out) [] [])
          (requestLoop layer rest (out ++ [⟨layer, expert, slot⟩])) (Requested cfg) := by
        intro slot
        refine (ih (out ++ [⟨layer, expert, slot⟩]) hrest ?_ ?_).weaken (fun w hw => ?_)
          fun _ _ hr => hr
        · simp only [List.length_append, List.length_singleton]
          omega
        · intro h hm
          rcases List.mem_append.mp hm with hm | hm
          · exact hout h hm
          · rw [List.mem_singleton.mp hm]
            exact ⟨rfl, he⟩
        · exact hw.perm (List.perm_append_singleton _ _).symm (List.Subset.refl _)
      have hroom := hfits.room he hout
      rw [List.append_nil] at hroom
      have hbound := hs.capacity
      refine (triple_acquire hs (hfits expert he).1 (List.nil_subset _) (by omega) hroom).bind
        fun r => ?_
      cases r with
      | got slot => exact hnext slot
      | fetch job => exact triple_send.bind fun _ => hnext job.slot
      | deadlock => exact fun w hw => hw.elim

theorem triple_request (hs : Sized cfg) {experts : List Nat}
    (hfits : Decoder.Fits cfg.client [] layer experts)
    (hcap : experts.length ≤ (Pager.shape cfg.pager).slotsPerPartition) :
    decodeMachine.Triple ok (Asks cfg [] [] []) (request layer experts) (Requested cfg) := by
  refine (triple_capacity hs).bind fun n => ?_
  by_cases hn : n < experts.length
  · rw [if_pos hn]
    rintro w ⟨rfl, -⟩
    exact absurd hn (Nat.not_lt.mpr hcap)
  · rw [if_neg hn]
    exact (triple_requestLoop hs hfits hcap experts [] (List.Subset.refl _) (Nat.zero_add _)
      (by simp)).weaken (fun w hw => hw.2) fun _ _ hr => hr

theorem triple_waitAll {handles : List ExpertHandle} (hsub : handles ⊆ G) :
    decodeMachine.Triple ok (Asks cfg G F []) (waitAll handles)
      fun _ => Asks cfg G (handles ++ F) [] := by
  induction handles generalizing F with
  | nil => exact .ret fun _ hw => hw
  | cons h rest ih =>
      obtain ⟨hm, hrest⟩ := List.cons_subset.mp hsub
      refine (triple_waitStream hm).bind fun _ => (ih hrest).weaken (fun _ hw => hw) fun _ w hw => ?_
      exact hw.perm (.refl _) (List.perm_middle.symm.subset)

theorem triple_releaseAll (handles : List ExpertHandle) :
    decodeMachine.Triple ok (Asks cfg handles handles []) (releaseAll handles)
      fun _ => Asks cfg [] [] [] :=
  Lib.Machine.Triple.forM (I := fun rest => Asks cfg rest rest []) handles
    fun _ _ => triple_release

/-- A wave takes its handles and lets them go. -/
theorem triple_wave (hs : Sized cfg) {l : Nat} {ids : List Nat}
    (hcap : ids.length ≤ (Pager.shape cfg.pager).slotsPerPartition)
    (hlt : ∀ e ∈ ids, e < cfg.pager.expertsPerLayer) :
    decodeMachine.Triple ok (Asks cfg [] [] []) (wave l ids)
      fun r w => r = true ∧ Asks cfg [] [] [] w := by
  refine (triple_request hs (fits_alone hcap hlt) hcap).bind fun r => ?_
  rintro w ⟨handles, rfl, hw⟩
  have hwait := (triple_waitAll (List.Subset.refl handles)) w hw
  rw [List.append_nil] at hwait
  refine hwait.bind fun _ w hw => ?_
  refine (triple_syncStream w hw).bind fun _ w hw => ?_
  refine ((triple_releaseAll handles) w hw).bind fun _ w hw => ?_
  exact ⟨rfl, hw⟩

theorem triple_waves (hs : Sized cfg) {l : Nat} {ws : List (List Nat)}
    (hws : ∀ ids ∈ ws, ids.length ≤ (Pager.shape cfg.pager).slotsPerPartition ∧
      ∀ e ∈ ids, e < cfg.pager.expertsPerLayer) :
    decodeMachine.Triple ok (Asks cfg [] [] []) (waves l ws)
      fun r w => r = true ∧ Asks cfg [] [] [] w := by
  induction ws with
  | nil => exact .ret fun _ hw => ⟨rfl, hw⟩
  | cons ids rest ih =>
      obtain ⟨⟨hcap, hlt⟩, hrest⟩ := List.forall_mem_cons.mp hws
      refine (triple_wave hs hcap hlt).bind fun r => ?_
      rintro w ⟨rfl, hw⟩
      exact ih hrest w hw

/-! ### The calls -/

/-- The experts of a layer fetched, whatever they are: the waves are within the
cache. -/
theorem triple_moeLayers (hs : Sized cfg) {fetched : Nat → List Nat}
    (hfetched : ∀ l, ∀ e ∈ fetched l, e < cfg.pager.expertsPerLayer) {ls : List Nat}
    (hls : ∀ l ∈ ls, l < cfg.layers) :
    decodeMachine.Triple ok (Asks cfg [] [] []) (moeLayers cfg fetched ls)
      fun r w => r = true ∧ Asks cfg [] [] [] w := by
  induction ls with
  | nil => exact .ret fun _ hw => ⟨rfl, hw⟩
  | cons l rest ih =>
      obtain ⟨hl, hrest⟩ := List.forall_mem_cons.mp hls
      unfold moeLayers
      by_cases hdense : l < cfg.denseLayers
      · rw [if_pos hdense]
        exact ih hrest
      · rw [if_neg hdense]
        have hlayer : l - cfg.denseLayers < cfg.client.pager.numLayers := by
          unfold KimiConfig.layers at hl
          show l - cfg.denseLayers < cfg.pager.numLayers
          omega
        have hsize : max cfg.pager.slotsPerLayer 1 = cfg.pager.slotsPerLayer :=
          Nat.max_eq_left hs.slots
        refine triple_syncStream.bind fun _ => (triple_waves hs fun ids hids => ?_).bind fun r => ?_
        · refine ⟨?_, fun e he => hfetched l e ?_⟩
          · refine (Lib.length_le_of_mem_chunks hids).trans ?_
            rw [hsize]
            exact slots_le_capacity hs.fit hlayer
          · exact Lib.mem_of_mem_chunks (by omega) hids he
        · rintro w ⟨rfl, hw⟩
          exact ih hrest w hw

/-- What the router can answer: experts of the model, any number of them. -/
def Routed (cfg : KimiConfig) : Decoder.Call → Prop
  | .step _ _ picks => ∀ l, ∀ e ∈ picks l, e < cfg.pager.expertsPerLayer
  | .stepMulti _ _ picks => ∀ l, ∀ es ∈ picks l, ∀ e ∈ es, e < cfg.pager.expertsPerLayer

/-- How a call ends: never in `request`, and with nothing held. -/
def Ended (cfg : KimiConfig) (a : Answer) (w : World) : Prop :=
  a ≠ .failed ∧ Asks cfg [] [] [] w

theorem triple_step (hs : Sized cfg) {pos : Nat} {wantLogits : Bool} {picks : Nat → List Nat}
    (hrouted : Routed cfg (.step pos wantLogits picks)) :
    decodeMachine.Triple ok (Asks cfg [] [] []) (step cfg pos wantLogits picks) (Ended cfg) := by
  unfold step
  split
  · exact .ret fun w hw => ⟨nofun, hw⟩
  · refine (triple_moeLayers hs hrouted fun l hl => List.mem_range.mp hl).bind fun r => ?_
    rintro w ⟨rfl, hw⟩
    cases wantLogits with
    | false => exact ⟨nofun, hw⟩
    | true =>
        refine (triple_syncStream w hw).bind fun _ w hw => ?_
        refine (triple_tick w hw).bind fun _ w hw => ?_
        exact ⟨nofun, hw⟩

theorem triple_syncEach {α : Type} (l : List α) :
    decodeMachine.Triple ok (Asks cfg [] [] []) (l.forM fun _ => Prog.lift DecodeCmd.syncStream)
      fun _ => Asks cfg [] [] [] :=
  Lib.Machine.Triple.forM (I := fun _ => Asks cfg [] [] []) l fun _ _ => triple_syncStream

theorem triple_stepMulti (hs : Sized cfg) {entries : List (Nat × Nat)} {wantLogits : Bool}
    {picks : Nat → List (List Nat)} (hrouted : Routed cfg (.stepMulti entries wantLogits picks)) :
    decodeMachine.Triple ok (Asks cfg [] [] []) (stepMulti cfg entries wantLogits picks)
      (Ended cfg) := by
  have hfetched : ∀ l, ∀ e ∈ Lib.sortedUnion (picks l), e < cfg.pager.expertsPerLayer := by
    intro l e he
    obtain ⟨es, hes, he⟩ := Lib.mem_sortedUnion.mp he
    exact hrouted l es hes e he
  unfold stepMulti
  split
  · exact .ret fun w hw => ⟨nofun, hw⟩
  · refine (triple_syncEach entries).bind fun _ => ?_
    refine (triple_moeLayers hs hfetched fun l hl => List.mem_range.mp hl).bind fun r => ?_
    rintro w ⟨rfl, hw⟩
    refine (triple_tick w hw).bind fun _ w hw => ?_
    have hlogits : decodeMachine.Triple ok (Asks cfg [] [] []) (readLogits entries wantLogits)
        fun _ => Asks cfg [] [] [] := by
      unfold readLogits
      split
      · exact triple_syncEach _
      · exact .ret fun _ hw => hw
    refine (hlogits w hw).bind fun _ w hw => ?_
    exact ⟨nofun, hw⟩

/-- Between calls. -/
def Between (cfg : KimiConfig) (o : Option Answer) (w : World) : Prop :=
  o ≠ some .failed ∧ Asks cfg [] [] [] w

theorem triple_call (hs : Sized cfg) {x : Decoder.Call} {o : Option Answer}
    (hrouted : Routed cfg x) :
    decodeMachine.Triple ok (Between cfg o) (call cfg x o) (Between cfg) := by
  have hsome : ∀ {p : DecodeProg Answer},
      decodeMachine.Triple ok (Asks cfg [] [] []) p (Ended cfg) →
      decodeMachine.Triple ok (Between cfg o) (some <$> p) (Between cfg) := by
    intro p hp w hw
    refine (hp w hw.2).bind fun a w ha => ?_
    exact ⟨fun h => ha.1 (Option.some.inj h), ha.2⟩
  cases x with
  | step pos wantLogits picks => exact hsome (triple_step hs hrouted)
  | stepMulti entries wantLogits picks => exact hsome (triple_stepMulti hs hrouted)

/-! ### Whole runs -/

/-- The router answers with experts of the model. -/
def RoutedCalls (cfg : KimiConfig) (_ : World × Lib.Phase DecodeCmd.Res (Option Answer))
    (a : Lib.ServerAct Decoder.Call EnvAct Bool) : Prop :=
  ∀ x, a = .call x → Routed cfg x

theorem sized_of_new {p : Pager} (hfit : cfg.pager.numLayers * cfg.pager.slotsPerLayer < 2 ^ 32)
    (hnew : Pager.new cfg.pager = some p) : Sized cfg := by
  refine ⟨slotsPerLayer_pos hnew, Nat.pos_of_ne_zero fun hzero => ?_, hfit⟩
  obtain ⟨cache, hcache, -⟩ := Option.bind_eq_some_iff.mp hnew
  simp [Pager.newCache, ExpertCache.partitioned, hzero] at hcache

variable {ph : Lib.Phase DecodeCmd.Res (Option Answer)}

theorem reachable_inv (hfit : cfg.pager.numLayers * cfg.pager.slotsPerLayer < 2 ^ 32)
    (h : (system cfg).Reachable (RoutedCalls cfg) (w, ph)) :
    Lib.Server.Inv decodeMachine ok (Between cfg) (w, ph) := by
  have hs : Sized cfg := by
    obtain ⟨s, -, ⟨o, -, hnew, -⟩, -⟩ := h
    exact sized_of_new hfit hnew
  refine Lib.Server.reachable_inv ?_ ?_ ?_ h
  · rintro s o ⟨hnew, hwait, rfl⟩
    obtain ⟨cache, -, hp⟩ := Option.bind_eq_some_iff.mp hnew
    have hp := (Option.some.inj hp).symm
    refine ⟨nofun, ⟨⟨Pager.new_inv hnew, ?_, nofun, False.elim⟩, hwait⟩, ?_⟩
    · rw [hp]
      rfl
    · rw [hp]
      simp [Pager.jobs, Worker.job]
  · intro o s s' e hs he
    exact ⟨hs.1, hs.2.env he⟩
  · intro s o x hs' hC
    exact triple_call hs (hC x rfl) s hs'

/-- **Kimi never waits for a slot**, whatever its `top_k`, its routing and its
cache of one slot a layer or more: every attempt of `request` is answered at once
with a slot, no call fails in it, and between two calls nothing is pinned and no
job is on its way. -/
theorem reachable_at_rest (hfit : cfg.pager.numLayers * cfg.pager.slotsPerLayer < 2 ^ 32)
    (h : (system cfg).Reachable (RoutedCalls cfg) (w, ph)) :
    (∀ c k, ph = .busy (.cmd c k) → AtOnce w c) ∧
    ∀ o, ph = .idle o → o ≠ some .failed ∧ (∀ i, (w.pager.cache.view i).pins = 0) ∧
      w.pager.jobs = [] := by
  have hinv := reachable_inv hfit h
  constructor
  · rintro c k rfl
    exact (hinv w .refl).1.1
  · rintro o rfl
    exact ⟨hinv.1, hinv.2.at_rest⟩

/-- **Every call of Kimi can be brought to its end**: from every state that is
reached without a lost fetch, and with a worker alive, there is a schedule in
which the call returns, and not with a failure, and no worker dies. -/
theorem reachable_returns (hfit : cfg.pager.numLayers * cfg.pager.slotsPerLayer < 2 ^ 32)
    (h : (system cfg).Reachable (RoutedCalls cfg) (w, ph)) (hsound : Clients.Sound w.pager) :
    ∃ (as : List (Lib.ServerAct Decoder.Call EnvAct Bool)) (w' : World) (o : Option Answer),
      as.foldlM (Lib.Server.step decodeMachine (call cfg)) (w, ph) = some (w', .idle o) ∧
      o ≠ some .failed ∧ Clients.Sound w'.pager ∧
      w'.pager.workers.map Worker.alive = w.pager.workers.map Worker.alive := by
  obtain ⟨as, w', o, has, ho, hlive⟩ :=
    (reachable_inv hfit h).returns (call cfg) (fun _ _ hok => hok.2 _) ⟨hsound, rfl⟩
  exact ⟨as, w', o, has, ho.1, hlive.sound, hlive.flags⟩

/-! ### One slot for two experts -/

/-- A dense layer, and one of two experts, both picked, with a slot for one. -/
def oneSlot : KimiConfig :=
  { pager := ⟨1, 2, 1, 64, 1, false, 4⟩, denseLayers := 1, topK := 2, maxSeq := 8, chunkCap := 64,
    batchCap := 1 }

/-- The first expert is fetched and let go, the second one asked for. -/
def secondWave : List (Lib.ServerAct Decoder.Call EnvAct Bool) :=
  [.env (.worker 0 .start), .call (.step 0 true fun _ => [0, 1])] ++
    List.replicate 4 (.turn false) ++ filling ++ List.replicate 4 (.turn false)

/-- The thread is about to ask for an expert, with every worker alive. -/
def asksFor (layer expert : Nat) (c : World × Lib.Phase DecodeCmd.Res (Option Answer)) : Bool :=
  match c.2 with
  | .busy (.cmd (.acquire l e) _) => l == layer && e == expert &&
      c.1.pager.workers.all Worker.alive && !c.1.pager.workers.isEmpty && c.1.pager.dropped.isEmpty
  | _ => false

theorem secondWave_asks : ∃ w k, (system oneSlot).Reachable (RoutedCalls oneSlot)
    (w, .busy (.cmd (.acquire 0 1) k)) ∧ Clients.Sound w.pager := by
  have hinit : (system oneSlot).init
      (⟨(Pager.new oneSlot.pager).get rfl, fun _ => true, false⟩, .idle none) :=
    ⟨_, rfl, rfl, rfl, rfl⟩
  have hcalls : ∀ s, ∀ a ∈ secondWave, RoutedCalls oneSlot s a := by
    have hone : ∀ x, .call x ∈ secondWave → x = .step 0 true fun _ => [0, 1] := by
      simp [secondWave, filling]
    intro s a ha x hx
    subst hx
    rw [hone x ha]
    simp [Routed, oneSlot]
  obtain ⟨⟨w, ph⟩, hc, hw⟩ := Lib.System.exists_reachable
    (Lib.Server.step decodeMachine (call oneSlot)) secondWave (asksFor 0 1) hinit hcalls (by decide)
  unfold asksFor at hw
  split at hw
  · rename_i l e k heq
    cases heq
    simp only [Bool.and_eq_true, beq_iff_eq, List.all_eq_true, Bool.not_eq_true',
      List.isEmpty_eq_false_iff, List.isEmpty_iff] at hw
    obtain ⟨⟨⟨⟨rfl, rfl⟩, halive⟩, hsome⟩, hdropped⟩ := hw
    obtain ⟨v, hv⟩ := List.exists_mem_of_ne_nil _ hsome
    exact ⟨w, k, hc, fun v hv => .inl (halive v hv), List.any_eq_true.mpr ⟨v, hv, halive v hv⟩,
      hdropped⟩
  · cases hw

/-- The second expert does not wait for the first one's slot. -/
theorem reachable_at_rest_one_slot :
    ∃ w k, (system oneSlot).Reachable (RoutedCalls oneSlot) (w, .busy (.cmd (.acquire 0 1) k)) ∧
      AtOnce w (.acquire 0 1) := by
  obtain ⟨w, k, hc, -⟩ := secondWave_asks
  exact ⟨w, k, hc, (reachable_at_rest (by decide) hc).1 (.acquire 0 1) k rfl⟩

/-- And from there the call returns. -/
theorem reachable_returns_one_slot :
    ∃ w k, (system oneSlot).Reachable (RoutedCalls oneSlot) (w, .busy (.cmd (.acquire 0 1) k)) ∧
      ∃ (as : List (Lib.ServerAct Decoder.Call EnvAct Bool)) (w' : World) (o : Option Answer),
        as.foldlM (Lib.Server.step decodeMachine (call oneSlot))
          (w, .busy (.cmd (.acquire 0 1) k)) = some (w', .idle o) ∧ o ≠ some .failed := by
  obtain ⟨w, k, hc, hsound⟩ := secondWave_asks
  obtain ⟨as, w', o, has, ho, -⟩ := reachable_returns (by decide) hc hsound
  exact ⟨w, k, hc, as, w', o, has, ho⟩

end KimiDecoder

end LlmPager
