import LlmPager.Cuda.PagerInv
import LlmPager.Run.Traffic

/-!
# LlmPager.Run.TrafficSafe

When decode deadlocks on its own pins.

`request` reports a deadlock when every slot its expert could use is pinned and
published. Such a pin is a handle of this very thread, so the question is how
many experts of one partition the thread holds: `Room` says that the handles
held and the expert asked for fit, and a pool with room is never wedged
(`not_wedged`). The rest is where the handles are. The router's `sync_stream`
completes every event recorded before it, so `defer_release` drains all of the
ring but the entry it adds: a layer is requested with the previous layer's
handles pinned and no others, and `step_multi` starts with none.

With two layers or more, the previous layer is another one. With a single
layer it is the same one, one token earlier, and the picks of two tokens need
not fit (`two_tokens_deadlock`).
-/

namespace LlmPager

namespace Decoder

open Lib (Prog)

/-! ### Room for one more expert -/

/-- The flat id of a handle's expert. -/
def idOf (epl : Nat) (h : ExpertHandle) : Nat := flatId epl h.expertOf

/-- The ids that handles `G` pin in the partition of `id`. -/
def pinnedIds (sh : Shape) (epl : Nat) (G : List ExpertHandle) (id : Nat) : Finset Nat :=
  (G.map (idOf epl)).toFinset.filter (sh.foldOf · = sh.foldOf id)

/-- The partition of `id` has room for it beside the handles `G`. -/
def Room (sh : Shape) (epl : Nat) (G : List ExpertHandle) (id : Nat) : Prop :=
  (pinnedIds sh epl G id ∪ {id}).card ≤ sh.slotsPerPartition

theorem mem_pinnedIds {sh : Shape} {epl id x : Nat} {G : List ExpertHandle} :
    x ∈ pinnedIds sh epl G id ↔ (∃ h ∈ G, idOf epl h = x) ∧ sh.foldOf x = sh.foldOf id := by
  rw [pinnedIds, Finset.mem_filter, List.mem_toFinset, List.mem_map]

section

variable {sh : Shape} {p : Pager} {G : List ExpertHandle} {snd : List Job} {id : Nat}

/-- In a wedged partition every slot is pinned by a handle. -/
theorem handle_of_wedged (hp : Pager.Inv sh p G snd) {i : Nat}
    (hpins : 0 < (p.cache.view i).pins) (hready : (p.cache.view i).ready = true) :
    ∃ h ∈ G, h.slot = i := by
  have hfill : p.fill i = .ready := (hp.fetching.ready i).mpr hready
  rw [hp.fetching.accounts.pins] at hpins
  obtain ⟨g, hg, hslot⟩ := List.countP_pos_iff.mp hpins
  have hslot := of_decide_eq_true hslot
  rcases List.mem_append.mp hg with hh | hj
  · obtain ⟨h, hm, rfl⟩ := List.mem_map.mp hh
    exact ⟨h, hm, hslot⟩
  · -- a prefetch pins its slot only while it is in flight
    obtain ⟨j, hm, rfl⟩ := List.mem_map.mp hj
    exact absurd hslot (hp.fetching.ne_of_ready hfill (List.mem_filter.mp hm).1)

/-- Handles on every slot of a partition leave no room for an expert that is not
resident. -/
theorem not_room_of_held (hp : Pager.Inv sh p G snd)
    (habsent : ∀ i, (p.cache.view i).id ≠ some id)
    (hheld : ∀ i, sh.Owns (sh.foldOf id) i → ∃ h ∈ G, h.slot = i) :
    ¬ Room sh p.expertsPerLayer G id := by
  intro hroom
  let slots := Finset.Ico (sh.foldOf id * sh.slotsPerPartition)
    (sh.foldOf id * sh.slotsPerPartition + sh.slotsPerPartition)
  let resident := fun i => ((p.cache.view i).id).getD 0
  -- each slot of the partition holds the expert of a handle
  have hholds : ∀ i ∈ slots, ∃ h ∈ G, h.slot = i ∧
      (p.cache.view i).id = some (idOf p.expertsPerLayer h) := by
    intro i hi
    obtain ⟨h, hm, rfl⟩ := hheld i (Finset.mem_Ico.mp hi)
    exact ⟨h, hm, rfl, hp.fetching.handle_id hm⟩
  have hmaps : ∀ i ∈ slots, resident i ∈ pinnedIds sh p.expertsPerLayer G id := by
    intro i hi
    obtain ⟨h, hm, -, hid⟩ := hholds i hi
    have hres : resident i = idOf p.expertsPerLayer h := by
      simp only [resident, hid, Option.getD_some]
    rw [hres]
    refine mem_pinnedIds.mpr ⟨⟨h, hm, rfl⟩, ?_⟩
    exact (hp.cache.resident hid).1.unique (Finset.mem_Ico.mp hi)
  have hinj : Set.InjOn resident slots := by
    intro i hi j hj heq
    obtain ⟨h, -, -, hid⟩ := hholds i hi
    obtain ⟨h', -, -, hid'⟩ := hholds j hj
    simp only [resident, hid, hid', Option.getD_some] at heq
    rw [← heq] at hid'
    exact hp.cache.slot_unique hid hid'
  have hcard : slots.card ≤ (pinnedIds sh p.expertsPerLayer G id).card :=
    Finset.card_le_card_of_injOn resident hmaps hinj
  have hnew : id ∉ pinnedIds sh p.expertsPerLayer G id := by
    intro hm
    obtain ⟨⟨h, hh, hid⟩, -⟩ := mem_pinnedIds.mp hm
    exact habsent h.slot (hid ▸ hp.fetching.handle_id hh)
  have hslots : slots.card = sh.slotsPerPartition := by
    rw [Nat.card_Ico, Nat.add_sub_cancel_left]
  unfold Room at hroom
  rw [Finset.union_comm, ← Finset.insert_eq, Finset.card_insert_of_notMem hnew] at hroom
  omega

/-- **A pool with room is not wedged** for an expert that is not resident. -/
theorem not_wedged (hp : Pager.Inv sh p G snd) (hroom : Room sh p.expertsPerLayer G id)
    (habsent : ∀ i, (p.cache.view i).id ≠ some id) : p.cache.isWedged id ≠ some true := by
  intro hw
  have hall := (ExpertCache.isWedged_spec hp.cache hw).mp rfl
  refine not_room_of_held hp habsent (fun i hi => ?_) hroom
  exact handle_of_wedged hp (hall i hi).1 (hall i hi).2

end

/-! ### Assertions -/

/-- The decoder holds exactly the handles `G`, those of `F` filled, and is about
to send the jobs `snd`; when `synced`, the stream has passed every event. -/
structure Holds (cfg : DecoderConfig) (G F : List ExpertHandle) (snd : List Job) (synced : Prop)
    (w : World) : Prop where
  pager : Pager.Inv (Pager.shape cfg.pager) w.pager G snd
  epl : w.pager.expertsPerLayer = cfg.pager.expertsPerLayer
  filled : ∀ h ∈ F, w.pager.fill h.slot = .ready
  synced : synced → ∀ ev, w.events ev = true

/-- What the thread must never find. -/
def ok (w : World) : DecodeCmd → Prop
  | .acquire layer expert =>
      ¬ (w.waiting = true ∧ w.pager.cache.isWedged (w.pager.idOf layer expert) = some true)
  | _ => True

variable {cfg : DecoderConfig} {G G' F F' : List ExpertHandle} {snd : List Job} {synced : Prop}
  {w w' : World} {h : ExpertHandle} {layer expert : Nat}

theorem Holds.perm (hw : Holds cfg G F snd synced w) (hp : G.Perm G') (hF : F' ⊆ F) :
    Holds cfg G' F' snd synced w :=
  ⟨hw.pager.perm hp (.refl _), hw.epl, fun h hm => hw.filled h (hF hm), hw.synced⟩

theorem Holds.unsynced (hw : Holds cfg G F snd synced w) : Holds cfg G F snd False w :=
  ⟨hw.pager, hw.epl, hw.filled, False.elim⟩

theorem passed_update {events : Nat → Bool} {ev ev' : Nat} (h : events ev' = true) :
    Function.update events ev true ev' = true := by
  by_cases hev : ev' = ev
  · rw [hev, Function.update_self]
  · rw [Function.update_of_ne hev]
    exact h

/-- What goes on beside the thread leaves its assertions alone. -/
theorem Holds.env {e : EnvAct} (hw : Holds cfg G F snd synced w) (he : w.env e = some w') :
    Holds cfg G F snd synced w' := by
  cases e with
  | worker k a =>
      obtain ⟨p, hstep, he⟩ := Option.bind_eq_some_iff.mp he
      cases he
      obtain ⟨-, hepl, hready⟩ := Pager.workerStep_frame hstep
      exact ⟨Pager.workerStep_inv hw.pager hstep, hepl.trans hw.epl,
        fun h hm => hready _ (hw.filled h hm), hw.synced⟩
  | event ev =>
      cases he
      exact ⟨hw.pager, hw.epl, hw.filled, fun hs ev' => passed_update (hw.synced hs ev')⟩

/-- The thread is not in `wait_timeout`. -/
def Running (cfg : DecoderConfig) (G F : List ExpertHandle) (snd : List Job) (synced : Prop)
    (w : World) : Prop :=
  Holds cfg G F snd synced w ∧ w.waiting = false

/-- The thread is in `request`, and when it waits, for an expert that is not
resident. -/
def Asking (cfg : DecoderConfig) (G F : List ExpertHandle) (synced : Prop) (layer expert : Nat)
    (w : World) : Prop :=
  Holds cfg G F [] synced w ∧
    (w.waiting = true → ∀ i, (w.pager.cache.view i).id ≠ some (w.pager.idOf layer expert))

theorem waiting_env {e : EnvAct} (he : w.env e = some w') : w'.waiting = w.waiting := by
  cases e with
  | worker k a =>
      obtain ⟨p, -, he⟩ := Option.bind_eq_some_iff.mp he
      cases he
      rfl
  | event ev =>
      cases he
      rfl

theorem Running.env {e : EnvAct} (hw : Running cfg G F snd synced w) (he : w.env e = some w') :
    Running cfg G F snd synced w' :=
  ⟨hw.1.env he, (waiting_env he).trans hw.2⟩

theorem Asking.env {e : EnvAct} (hw : Asking cfg G F synced layer expert w)
    (he : w.env e = some w') : Asking cfg G F synced layer expert w' := by
  refine ⟨hw.1.env he, fun hwait i => ?_⟩
  have habsent := hw.2 ((waiting_env he).symm.trans hwait) i
  cases e with
  | worker k a =>
      obtain ⟨p, hstep, he⟩ := Option.bind_eq_some_iff.mp he
      cases he
      obtain ⟨-, hepl, -⟩ := Pager.workerStep_frame hstep
      rw [Pager.workerStep_ids hw.1.pager.cache hstep, Pager.idOf, hepl]
      exact habsent
  | event ev =>
      cases he
      exact habsent

/-! ### One rule per command -/

/-- A command that never waits needs only its answer proved. -/
theorem triple_lift {c : DecodeCmd} {Q : c.Res → World → Prop}
    (hno : ∀ (w : World) t w', w.turn t c ≠ some (none, w')) (hok : ∀ w, ok w c)
    (hpost : ∀ (w : World) t r w', Running cfg G F snd synced w →
      w.turn t c = some (some r, w') → Q r w') :
    decodeMachine.Triple ok (Running cfg G F snd synced) (Prog.lift c) Q := by
  refine .cmd (fun w w' hw hmove => ?_) (fun w _ => hok w) hpost
  rcases hmove with ⟨e, he⟩ | ⟨t, ht⟩
  · exact hw.env he
  · exact absurd ht (hno w t w')

theorem triple_capacity :
    decodeMachine.Triple ok (Running cfg G F snd synced) (Prog.lift .capacity) fun n w =>
      n = (Pager.shape cfg.pager).slotsPerPartition ∧ Running cfg G F snd synced w := by
  refine triple_lift (fun w t w' h => ?_) (fun _ => trivial) fun w t n w' hw h => ?_
  · obtain ⟨n, -, h⟩ := Option.bind_eq_some_iff.mp h
    cases h
  · obtain ⟨n, hn, h⟩ := Option.bind_eq_some_iff.mp h
    cases h
    obtain ⟨part, hpart, rfl⟩ := Option.map_eq_some_iff.mp hn
    exact ⟨(hw.1.pager.cache.range 0 part hpart).2, hw⟩

/-- What one turn of the loop in `request` does. -/
theorem turnAcquire_cases {t : Bool} {r : Option Acquired}
    (h : w.turnAcquire t layer expert = some (r, w')) :
    (w.waiting = true ∧ w' = { w with waiting := false } ∧ (r = none ∨ r = some .deadlock ∧
      w.pager.cache.isWedged (w.pager.idOf layer expert) = some true)) ∨
    (w.waiting = false ∧ ∃ a p, w.pager.tryRequest layer expert = some (a, p) ∧
      ((∃ slot, a = .got slot ∧ r = some (.got slot) ∧ w' = { w with pager := p }) ∨
       (∃ job, a = .fetch job ∧ r = some (.fetch job) ∧ w' = { w with pager := p }) ∨
       (a = .stalled ∧ r = none ∧ w' = { w with pager := p, waiting := true }))) := by
  unfold World.turnAcquire at h
  by_cases hwait : w.waiting = true
  · rw [if_pos hwait] at h
    refine .inl ⟨hwait, ?_⟩
    cases t with
    | false =>
        cases h
        exact ⟨rfl, .inl rfl⟩
    | true =>
        obtain ⟨wedged, hwedged, h⟩ := Option.bind_eq_some_iff.mp h
        cases wedged <;> cases h
        · exact ⟨rfl, .inl rfl⟩
        · exact ⟨rfl, .inr ⟨rfl, hwedged⟩⟩
  · rw [if_neg hwait] at h
    obtain ⟨⟨a, p⟩, htry, h⟩ := Option.bind_eq_some_iff.mp h
    refine .inr ⟨eq_false_of_ne_true hwait, a, p, htry, ?_⟩
    cases a with
    | got slot =>
        cases h
        exact .inl ⟨slot, rfl, rfl, rfl⟩
    | fetch job =>
        cases h
        exact .inr (.inl ⟨job, rfl, rfl, rfl⟩)
    | stalled =>
        cases h
        exact .inr (.inr ⟨rfl, rfl, rfl⟩)

/-- What asking for an expert brings about. -/
def Acquires (cfg : DecoderConfig) (G F : List ExpertHandle) (synced : Prop)
    (layer expert : Nat) : Acquired → World → Prop
  | .got slot, w => Running cfg (⟨layer, expert, slot⟩ :: G) F [] synced w
  | .fetch job, w => Running cfg (⟨layer, expert, job.slot⟩ :: G) F [job] synced w
  | .deadlock, _ => False

/-- A turn that goes on waiting: round again, or a first stall. -/
theorem Asking.waits {t : Bool} (hw : Asking cfg G F synced layer expert w)
    (hlt : expert < cfg.pager.expertsPerLayer)
    (hturn : w.turnAcquire t layer expert = some (none, w')) :
    Asking cfg G F synced layer expert w' := by
  rcases turnAcquire_cases hturn with ⟨-, rfl, -⟩ | ⟨-, a, p, htry, hcases⟩
  · exact ⟨⟨hw.1.pager, hw.1.epl, hw.1.filled, hw.1.synced⟩, nofun⟩
  · rcases hcases with ⟨slot, -, hr, -⟩ | ⟨job, -, hr, -⟩ | ⟨rfl, -, rfl⟩
    · cases hr
    · cases hr
    · obtain ⟨-, ⟨slot, ha, -⟩ | ⟨slot, ha, -⟩ | ⟨-, rfl, habsent⟩⟩ :=
        Pager.tryRequest_inv hw.1.pager (hw.1.epl ▸ hlt) htry
      · cases ha
      · cases ha
      · exact ⟨⟨hw.1.pager, hw.1.epl, hw.1.filled, hw.1.synced⟩, fun _ => habsent⟩

/-- A turn that ends the loop: with the expert, or with the deadlock diagnosis. -/
theorem Asking.ends {t : Bool} {r : Acquired} (hw : Asking cfg G F synced layer expert w)
    (hlt : expert < cfg.pager.expertsPerLayer) (hF : F ⊆ G)
    (hturn : w.turnAcquire t layer expert = some (some r, w')) :
    (r = .deadlock ∧ w.waiting = true ∧
      w.pager.cache.isWedged (w.pager.idOf layer expert) = some true ∧
      Running cfg G F [] synced w') ∨ Acquires cfg G F synced layer expert r w' := by
  rcases turnAcquire_cases hturn with ⟨hwait, rfl, hr⟩ | ⟨hwait, a, p, htry, hcases⟩
  · rcases hr with hr | ⟨hr, hwedged⟩
    · cases hr
    · cases hr
      exact .inl ⟨rfl, hwait, hwedged, ⟨hw.1.pager, hw.1.epl, hw.1.filled, hw.1.synced⟩, rfl⟩
  · refine .inr ?_
    obtain ⟨⟨c, fill, rfl, hkeep⟩, hinv⟩ :=
      Pager.tryRequest_inv hw.1.pager (hw.1.epl ▸ hlt) htry
    have hfilled : ∀ h ∈ F, fill h.slot = .ready :=
      fun h hm => hkeep h (hF hm) (hw.1.filled h hm)
    rcases hcases with ⟨slot, rfl, hr, rfl⟩ | ⟨job, rfl, hr, rfl⟩ | ⟨-, hr, -⟩
    · cases hr
      obtain ⟨slot', ha, hinv⟩ | ⟨slot', ha, -⟩ | ⟨ha, -, -⟩ := hinv
      · cases ha
        exact ⟨⟨hinv, hw.1.epl, hfilled, hw.1.synced⟩, hwait⟩
      · cases ha
      · cases ha
    · cases hr
      obtain ⟨slot', ha, -⟩ | ⟨slot', ha, hinv⟩ | ⟨ha, -, -⟩ := hinv
      · cases ha
      · cases ha
        exact ⟨⟨hinv, hw.1.epl, hfilled, hw.1.synced⟩, hwait⟩
      · cases ha
    · cases hr

theorem Running.asking (hw : Running cfg G F [] synced w) :
    Asking cfg G F synced layer expert w := by
  refine ⟨hw.1, fun hwait => ?_⟩
  rw [hw.2] at hwait
  cases hwait

/-- The heart of the matter: asking for an expert there is room for never ends
in a deadlock. -/
theorem triple_acquire (hlt : expert < cfg.pager.expertsPerLayer) (hF : F ⊆ G)
    (hroom : Room (Pager.shape cfg.pager) cfg.pager.expertsPerLayer G
      (flatId cfg.pager.expertsPerLayer (layer, expert))) :
    decodeMachine.Triple ok (Running cfg G F [] synced) (Prog.lift (.acquire layer expert))
      (Acquires cfg G F synced layer expert) := by
  have hnot : ∀ w, Asking cfg G F synced layer expert w → ok w (.acquire layer expert) := by
    intro w hw ⟨hwait, hwedged⟩
    rw [← hw.1.epl] at hroom
    exact not_wedged hw.1.pager hroom (hw.2 hwait) hwedged
  refine Lib.Machine.Triple.weaken (P := Asking cfg G F synced layer expert)
    (.cmd (fun w w' hw hmove => ?_) hnot fun w t r w' hw hturn => ?_)
    (fun w hw => hw.asking) fun _ _ h => h
  · rcases hmove with ⟨e, he⟩ | ⟨t, hturn⟩
    · exact hw.env he
    · exact hw.waits hlt hturn
  · rcases hw.ends hlt hF hturn with ⟨-, hwait, hwedged, -⟩ | hr
    · exact absurd ⟨hwait, hwedged⟩ (hnot w hw)
    · exact hr

theorem triple_send (job : Job) :
    decodeMachine.Triple ok (Running cfg G F [job] synced) (Prog.lift (.send job))
      fun _ => Running cfg G F [] synced := by
  refine triple_lift (fun w t w' h => ?_) (fun _ => trivial) fun w t r w' hw h => ?_
  · obtain ⟨p, -, h⟩ := Option.bind_eq_some_iff.mp h
    cases h
  · obtain ⟨p, hsend, h⟩ := Option.bind_eq_some_iff.mp h
    cases h
    obtain ⟨rfl, hinv⟩ := Pager.send_inv hw.1.pager hsend
    exact ⟨⟨hinv, hw.1.epl, hw.1.filled, hw.1.synced⟩, hw.2⟩

theorem triple_tryPrefetch (hlt : expert < cfg.pager.expertsPerLayer) (hF : F ⊆ G) :
    decodeMachine.Triple ok (Running cfg G F [] synced) (Prog.lift (.tryPrefetch layer expert))
      fun r => Running cfg G F (Option.toList r) synced := by
  refine triple_lift (fun w t w' h => ?_) (fun _ => trivial) fun w t r w' hw h => ?_
  · obtain ⟨⟨r, p⟩, -, h⟩ := Option.bind_eq_some_iff.mp h
    cases h
  · obtain ⟨⟨r, p⟩, htry, h⟩ := Option.bind_eq_some_iff.mp h
    cases h
    obtain ⟨⟨c, fill, rfl, hkeep⟩, hinv⟩ :=
      Pager.tryPrefetch_inv hw.1.pager (hw.1.epl ▸ hlt) htry
    rw [List.append_nil] at hinv
    exact ⟨⟨hinv, hw.1.epl, fun h hm => hkeep h (hF hm) (hw.1.filled h hm), hw.1.synced⟩, hw.2⟩

theorem triple_trySend (job : Job) :
    decodeMachine.Triple ok (Running cfg G F [job] synced) (Prog.lift (.trySend job))
      fun _ => Running cfg G F [] synced := by
  refine triple_lift (fun w t w' h => ?_) (fun _ => trivial) fun w t r w' hw h => ?_
  · simp only [World.turn] at h
    split at h <;> cases h
  · cases hsend : w.pager.send job with
    | some p =>
        simp only [World.turn, hsend] at h
        cases h
        obtain ⟨rfl, hinv⟩ := Pager.send_inv hw.1.pager hsend
        exact ⟨⟨hinv, hw.1.epl, hw.1.filled, hw.1.synced⟩, hw.2⟩
    | none =>
        simp only [World.turn, hsend] at h
        cases h
        exact ⟨⟨Pager.sendFailed_inv hw.1.pager, hw.1.epl, hw.1.filled, hw.1.synced⟩, hw.2⟩

/-- A `wait` returns once the slot is filled; until then it has no turn. -/
theorem triple_waitStream (h : ExpertHandle) :
    decodeMachine.Triple ok (Running cfg G F [] synced) (Prog.lift (.waitStream h))
      fun _ => Running cfg G (h :: F) [] synced := by
  refine triple_lift (fun w t w' ht => ?_) (fun _ => trivial) fun w t r w' hw ht => ?_
  · simp only [World.turn] at ht
    split at ht <;> cases ht
  · simp only [World.turn] at ht
    split at ht
    · rename_i hfill
      cases ht
      exact ⟨⟨hw.1.pager, hw.1.epl, List.forall_mem_cons.mpr ⟨hfill, hw.1.filled⟩,
        hw.1.synced⟩, hw.2⟩
    · cases ht

theorem triple_release (h : ExpertHandle) :
    decodeMachine.Triple ok (Running cfg (h :: G) (h :: F) [] synced) (Prog.lift (.release h))
      fun _ => Running cfg G F [] synced := by
  refine triple_lift (fun w t w' ht => ?_) (fun _ => trivial) fun w t r w' hw ht => ?_
  · obtain ⟨p, -, ht⟩ := Option.bind_eq_some_iff.mp ht
    cases ht
  · obtain ⟨p, hrel, ht⟩ := Option.bind_eq_some_iff.mp ht
    cases ht
    obtain ⟨hready, hfilled⟩ := List.forall_mem_cons.mp hw.1.filled
    obtain ⟨⟨c, rfl⟩, hinv⟩ := Pager.release_inv hw.1.pager hready hrel
    exact ⟨⟨hinv, hw.1.epl, hfilled, hw.1.synced⟩, hw.2⟩

theorem triple_tick :
    decodeMachine.Triple ok (Running cfg G F [] synced) (Prog.lift .tick)
      fun _ => Running cfg G F [] synced := by
  refine triple_lift (fun w t w' ht => nomatch ht) (fun _ => trivial) fun w t r w' hw ht => ?_
  cases ht
  have heq := Pager.tick_eq (p := w.pager)
  refine ⟨⟨Pager.tick_inv hw.1.pager, ?_, fun h hm => ?_, hw.1.synced⟩, hw.2⟩
  · rw [heq]
    exact hw.1.epl
  · rw [heq]
    exact hw.1.filled h hm

theorem triple_syncStream :
    decodeMachine.Triple ok (Running cfg G F [] synced) (Prog.lift .syncStream)
      fun _ => Running cfg G F [] True := by
  refine triple_lift (fun w t w' ht => nomatch ht) (fun _ => trivial) fun w t r w' hw ht => ?_
  cases ht
  exact ⟨⟨hw.1.pager, hw.1.epl, hw.1.filled, fun _ _ => rfl⟩, hw.2⟩

/-- After a `sync_stream` every recorded event is done. -/
theorem triple_eventDone (ev : Nat) :
    decodeMachine.Triple ok (Running cfg G F [] True) (Prog.lift (.eventDone ev))
      fun r w => r = true ∧ Running cfg G F [] True w := by
  refine triple_lift (fun w t w' ht => nomatch ht) (fun _ => trivial) fun w t r w' hw ht => ?_
  cases ht
  exact ⟨hw.1.synced trivial ev, hw⟩

theorem triple_syncEvent (ev : Nat) :
    decodeMachine.Triple ok (Running cfg G F [] synced) (Prog.lift (.syncEvent ev))
      fun _ => Running cfg G F [] synced := by
  refine triple_lift (fun w t w' ht => nomatch ht) (fun _ => trivial) fun w t r w' hw ht => ?_
  cases ht
  exact ⟨⟨hw.1.pager, hw.1.epl, hw.1.filled, fun hs ev' => passed_update (hw.1.synced hs ev')⟩,
    hw.2⟩

theorem triple_recordEvent (ev : Nat) :
    decodeMachine.Triple ok (Running cfg G F [] synced) (Prog.lift (.recordEvent ev))
      fun _ => Running cfg G F [] False := by
  refine triple_lift (fun w t w' ht => nomatch ht) (fun _ => trivial) fun w t r w' hw ht => ?_
  cases ht
  exact ⟨⟨hw.1.pager, hw.1.epl, hw.1.filled, False.elim⟩, hw.2⟩

/-! ### The client calls -/

theorem Running.perm (hw : Running cfg G F snd synced w) (hp : G.Perm G') (hF : F' ⊆ F) :
    Running cfg G' F' snd synced w :=
  ⟨hw.1.perm hp hF, hw.2⟩

theorem Running.unsynced (hw : Running cfg G F snd synced w) : Running cfg G F snd False w :=
  ⟨hw.1.unsynced, hw.2⟩

theorem triple_releaseAll (hs : List ExpertHandle) :
    decodeMachine.Triple ok (Running cfg (hs ++ G) (hs ++ F) [] synced) (releaseAll hs)
      fun _ => Running cfg G F [] synced :=
  Lib.Machine.Triple.forM (I := fun rest => Running cfg (rest ++ G) (rest ++ F) [] synced) hs
    fun h _ => triple_release h

theorem triple_waitAll (hs : List ExpertHandle) :
    decodeMachine.Triple ok (Running cfg G F [] synced) (waitAll hs)
      fun _ => Running cfg G (hs ++ F) [] synced := by
  induction hs generalizing F with
  | nil => exact .ret fun _ hw => hw
  | cons h hs ih =>
      refine (triple_waitStream h).bind fun _ => ih.weaken (fun _ hw => hw) fun _ w hw => ?_
      exact hw.perm (.refl _) (List.perm_middle.symm.subset)

theorem triple_prefetch {experts : List Nat} (hF : F ⊆ G)
    (hlt : ∀ e ∈ experts, e < cfg.pager.expertsPerLayer) :
    decodeMachine.Triple ok (Running cfg G F [] synced) (prefetch layer experts)
      fun _ => Running cfg G F [] synced := by
  induction experts with
  | nil => exact .ret fun _ hw => hw
  | cons expert rest ih =>
      obtain ⟨hexpert, hrest⟩ := List.forall_mem_cons.mp hlt
      refine Lib.Machine.Triple.bind (Q := fun _ => Running cfg G F [] synced) ?_
        fun _ => ih hrest
      refine (triple_tryPrefetch hexpert hF).bind fun r => ?_
      cases r with
      | none => exact .ret fun _ hw => hw
      | some job => exact triple_trySend job

/-- The experts of a list fit into their partition beside the handles `G`. -/
def Fits (cfg : DecoderConfig) (G : List ExpertHandle) (layer : Nat) (experts : List Nat) : Prop :=
  ∀ e ∈ experts, e < cfg.pager.expertsPerLayer ∧
    (pinnedIds (Pager.shape cfg.pager) cfg.pager.expertsPerLayer G
        (flatId cfg.pager.expertsPerLayer (layer, e)) ∪
      (experts.map fun e => flatId cfg.pager.expertsPerLayer (layer, e)).toFinset).card
    ≤ (Pager.shape cfg.pager).slotsPerPartition

/-- The handles a request has pinned so far leave room for its next expert. -/
theorem Fits.room {experts : List Nat} {out : List ExpertHandle}
    (hfits : Fits cfg G layer experts) (he : expert ∈ experts)
    (hout : ∀ h ∈ out, h.layer = layer ∧ h.expert ∈ experts) :
    Room (Pager.shape cfg.pager) cfg.pager.expertsPerLayer (out ++ G)
      (flatId cfg.pager.expertsPerLayer (layer, expert)) := by
  refine le_trans (Finset.card_le_card fun x hx => ?_) (hfits expert he).2
  rcases Finset.mem_union.mp hx with hx | hx
  · obtain ⟨⟨h, hm, rfl⟩, hfold⟩ := mem_pinnedIds.mp hx
    rcases List.mem_append.mp hm with hm | hm
    · obtain ⟨hlayer, hmem⟩ := hout h hm
      refine Finset.mem_union_right _ (List.mem_toFinset.mpr (List.mem_map.mpr ⟨_, hmem, ?_⟩))
      rw [idOf, ExpertHandle.expertOf, hlayer]
    · exact Finset.mem_union_left _ (mem_pinnedIds.mpr ⟨⟨h, hm, rfl⟩, hfold⟩)
  · rw [Finset.mem_singleton.mp hx]
    exact Finset.mem_union_right _ (List.mem_toFinset.mpr (List.mem_map.mpr ⟨_, he, rfl⟩))

/-- What a successful request brings about: one handle per expert. -/
def Requested (cfg : DecoderConfig) (G F : List ExpertHandle) (synced : Prop) (layer : Nat)
    (experts : List Nat) (n : Nat) (r : Option (List ExpertHandle)) (w : World) : Prop :=
  ∃ hs, r = some hs ∧ hs.length = n ∧ (∀ h ∈ hs, h.layer = layer ∧ h.expert ∈ experts) ∧
    Running cfg (hs ++ G) F [] synced w

/-- By induction on the experts still to be asked for. -/
theorem triple_requestLoop {experts : List Nat} (hF : F ⊆ G) (hfits : Fits cfg G layer experts)
    (todo : List Nat) (out : List ExpertHandle) (htodo : todo ⊆ experts)
    (hout : ∀ h ∈ out, h.layer = layer ∧ h.expert ∈ experts) :
    decodeMachine.Triple ok (Running cfg (out ++ G) F [] synced) (requestLoop layer todo out)
      (Requested cfg G F synced layer experts (out.length + todo.length)) := by
  induction todo generalizing out with
  | nil => exact .ret fun w hw => ⟨out, rfl, rfl, hout, hw⟩
  | cons expert rest ih =>
      obtain ⟨he, hrest⟩ := List.cons_subset.mp htodo
      -- the loop goes on with the new handle at the end of `out`
      have hnext : ∀ slot, decodeMachine.Triple ok
          (Running cfg (⟨layer, expert, slot⟩ :: (out ++ G)) F [] synced)
          (requestLoop layer rest (out ++ [⟨layer, expert, slot⟩]))
          (Requested cfg G F synced layer experts (out.length + (expert :: rest).length)) := by
        intro slot
        refine (ih (out ++ [⟨layer, expert, slot⟩]) hrest ?_).weaken (fun w hw => ?_) ?_
        · intro h hm
          rcases List.mem_append.mp hm with hm | hm
          · exact hout h hm
          · rw [List.mem_singleton.mp hm]
            exact ⟨rfl, he⟩
        · refine hw.perm ?_ (List.Subset.refl _)
          rw [List.append_assoc]
          exact List.perm_middle.symm
        · intro r w hr
          rwa [List.length_append, List.length_singleton, Nat.add_assoc, Nat.add_comm 1] at hr
      refine (triple_acquire (hfits expert he).1 (List.subset_append_of_subset_right _ hF)
        (hfits.room he hout)).bind fun r => ?_
      cases r with
      | got slot => exact hnext slot
      | fetch job => exact (triple_send job).bind fun _ => hnext job.slot
      | deadlock => exact fun w hw => hw.elim

/-- `request` succeeds when its experts fit. -/
theorem triple_request {experts : List Nat} (hF : F ⊆ G) (hfits : Fits cfg G layer experts)
    (hlen : experts.length ≤ (Pager.shape cfg.pager).slotsPerPartition) :
    decodeMachine.Triple ok (Running cfg G F [] synced) (request layer experts)
      (Requested cfg G F synced layer experts experts.length) := by
  refine triple_capacity.bind fun n => ?_
  by_cases hn : n < experts.length
  · rw [if_pos hn]
    rintro w ⟨rfl, -⟩
    exact absurd hn (Nat.not_lt.mpr hlen)
  · rw [if_neg hn]
    refine (triple_requestLoop hF hfits experts [] (List.Subset.refl _) nofun).weaken
      (fun w hw => hw.2) fun r w hr => ?_
    rwa [List.length_nil, Nat.zero_add] at hr

/-! ### The deferred ring -/

/-- The handles of ring entries. -/
def entryHandles (pending : List (Nat × List ExpertHandle)) : List ExpertHandle :=
  pending.flatMap Prod.snd

/-- With the stream synchronised, draining empties the ring. -/
theorem triple_drain (pending : List (Nat × List ExpertHandle)) :
    decodeMachine.Triple ok
      (Running cfg (entryHandles pending ++ G) (entryHandles pending ++ F) [] True)
      (drain pending) fun r w => r = [] ∧ Running cfg G F [] True w := by
  induction pending with
  | nil => exact .ret fun w hw => ⟨rfl, hw⟩
  | cons entry rest ih =>
      obtain ⟨ev, done⟩ := entry
      refine (triple_eventDone ev).bind fun r => ?_
      cases r with
      | false => exact fun w hw => nomatch hw.1
      | true =>
          refine Lib.Machine.Triple.bind
            (Q := fun _ => Running cfg (entryHandles rest ++ G) (entryHandles rest ++ F) [] True)
            ?_ fun _ => ih
          refine (triple_releaseAll done).weaken (fun w hw => ?_) fun _ _ hw => hw
          simpa only [entryHandles, List.flatMap_cons, List.append_assoc] using hw.2

theorem triple_flush (pending : List (Nat × List ExpertHandle)) :
    decodeMachine.Triple ok
      (Running cfg (entryHandles pending ++ G) (entryHandles pending ++ F) [] synced)
      (flush pending) fun _ => Running cfg G F [] synced := by
  induction pending with
  | nil => exact .ret fun w hw => hw
  | cons entry rest ih =>
      obtain ⟨ev, done⟩ := entry
      refine (triple_syncEvent ev).bind fun _ => Lib.Machine.Triple.bind
        (Q := fun _ => Running cfg (entryHandles rest ++ G) (entryHandles rest ++ F) [] synced)
        ?_ fun _ => ih
      refine (triple_releaseAll done).weaken (fun w hw => ?_) fun _ _ hw => hw
      simpa only [entryHandles, List.flatMap_cons, List.append_assoc] using hw

/-- After `defer_release` the ring holds the new handles and no others. -/
theorem triple_deferRelease (d : Ring) (hs : List ExpertHandle) :
    decodeMachine.Triple ok
      (Running cfg (hs ++ entryHandles d.pending) (hs ++ entryHandles d.pending) [] True)
      (deferRelease d hs)
      fun d' w => entryHandles d'.pending = hs ∧ Running cfg hs hs [] False w := by
  refine Lib.Machine.Triple.bind (Q := fun r w => r = [] ∧ Running cfg hs hs [] True w) ?_
    fun pending => ?_
  · refine (triple_drain d.pending).weaken (fun w hw => ?_) fun _ _ hw => hw
    exact hw.perm List.perm_append_comm List.perm_append_comm.subset
  · refine Lib.Machine.Triple.bind (Q := fun r w => r = [] ∧ Running cfg hs hs [] True w) ?_
      fun pending => ?_
    · rintro w ⟨rfl, hw⟩
      exact ⟨rfl, hw⟩
    · rintro w ⟨rfl, hw⟩
      refine ((triple_recordEvent d.nextEvent) w hw).bind fun _ w' hw' => ?_
      exact ⟨List.append_nil _, hw'⟩

/-! ### When the experts of a layer fit -/

theorem card_pinnedIds_le (sh : Shape) (epl : Nat) (G : List ExpertHandle) (id : Nat) :
    (pinnedIds sh epl G id).card ≤ G.length :=
  calc (pinnedIds sh epl G id).card
      ≤ (G.map (idOf epl)).toFinset.card := Finset.card_filter_le _ _
    _ ≤ (G.map (idOf epl)).length := List.toFinset_card_le _
    _ = G.length := List.length_map _

/-- With a pool per layer, an id folds to its layer. -/
theorem foldOf_flatId {epl l e : Nat} {sh : Shape} (hids : sh.idsPerPartition = epl)
    (hmany : sh.partitions ≠ 1) (hl : l < sh.partitions) (he : e < epl) :
    sh.foldOf (flatId epl (l, e)) = l := by
  have hdiv : (l * epl + e) / epl = l := by
    rw [Nat.add_comm, Nat.add_mul_div_right e l (Nat.lt_of_le_of_lt (Nat.zero_le e) he),
      Nat.div_eq_of_lt he, Nat.zero_add]
  rw [Shape.foldOf, if_neg hmany, hids, flatId, hdiv]
  omega

/-- A pool has at least the slots of one layer. -/
theorem slots_le_capacity {l : Nat}
    (hfit : cfg.pager.numLayers * cfg.pager.slotsPerLayer < 2 ^ 32)
    (hl : l < cfg.pager.numLayers) :
    cfg.pager.slotsPerLayer ≤ (Pager.shape cfg.pager).slotsPerPartition := by
  unfold Pager.shape
  split
  · rw [Nat.mod_eq_of_lt hfit]
    exact Nat.le_mul_of_pos_left _ (Nat.lt_of_le_of_lt (Nat.zero_le l) hl)
  · exact Nat.le_refl _

/-- The picks of two different layers fit: per-layer pools do not mix them, and
a shared pool has `2 * top_k` slots. -/
theorem fits_apart {experts : List Nat} (hcap : cfg.topK ≤ cfg.pager.slotsPerLayer)
    (hfit : cfg.pager.numLayers * cfg.pager.slotsPerLayer < 2 ^ 32)
    (hlayers : 2 ≤ cfg.pager.numLayers) (hl : layer < cfg.pager.numLayers)
    (hG : ∀ h ∈ G, h.layer < cfg.pager.numLayers ∧ h.layer ≠ layer ∧
      h.expert < cfg.pager.expertsPerLayer)
    (hGlen : G.length ≤ cfg.topK) (hlen : experts.length ≤ cfg.topK)
    (hlt : ∀ e ∈ experts, e < cfg.pager.expertsPerLayer) : Fits cfg G layer experts := by
  intro e he
  refine ⟨hlt e he, ?_⟩
  have hexperts : (experts.map fun e =>
      flatId cfg.pager.expertsPerLayer (layer, e)).toFinset.card ≤ cfg.topK := by
    refine (List.toFinset_card_le _).trans ?_
    rwa [List.length_map]
  refine (Finset.card_union_le _ _).trans ?_
  cases hpool : cfg.pager.globalPool with
  | true =>
      have hpinned := (card_pinnedIds_le (Pager.shape cfg.pager) cfg.pager.expertsPerLayer G
        (flatId cfg.pager.expertsPerLayer (layer, e))).trans hGlen
      have hsize : (Pager.shape cfg.pager).slotsPerPartition
          = cfg.pager.numLayers * cfg.pager.slotsPerLayer := by
        rw [Pager.shape, if_pos hpool]
        exact Nat.mod_eq_of_lt hfit
      have htwo := Nat.mul_le_mul_right cfg.pager.slotsPerLayer hlayers
      omega
  | false =>
      have hshape : Pager.shape cfg.pager = ⟨cfg.pager.numLayers, cfg.pager.expertsPerLayer,
          cfg.pager.slotsPerLayer⟩ := by
        rw [Pager.shape, if_neg (by rw [hpool]; exact nofun)]
      have hnone : pinnedIds (Pager.shape cfg.pager) cfg.pager.expertsPerLayer G
          (flatId cfg.pager.expertsPerLayer (layer, e)) = ∅ := by
        refine Finset.eq_empty_of_forall_notMem fun x hx => ?_
        obtain ⟨⟨h, hm, rfl⟩, hfold⟩ := mem_pinnedIds.mp hx
        obtain ⟨hlt', hne, hexp⟩ := hG h hm
        have hmany : cfg.pager.numLayers ≠ 1 := by omega
        rw [hshape, idOf, ExpertHandle.expertOf, foldOf_flatId rfl hmany hlt' hexp,
          foldOf_flatId rfl hmany hl (hlt e he)] at hfold
        exact hne hfold
      rw [hnone, hshape, Finset.card_empty]
      exact (Nat.zero_add _).trans_le (hexperts.trans hcap)

/-- Nothing held: a wave of at most `slots_per_layer` experts fits. -/
theorem fits_alone {experts : List Nat} (hlen : experts.length ≤
      (Pager.shape cfg.pager).slotsPerPartition)
    (hlt : ∀ e ∈ experts, e < cfg.pager.expertsPerLayer) : Fits cfg [] layer experts := by
  intro e he
  refine ⟨hlt e he, ?_⟩
  refine (Finset.card_union_le _ _).trans (le_trans (Nat.add_le_add (card_pinnedIds_le _ _ _ _)
    (List.toFinset_card_le _)) ?_)
  rwa [List.length_map, List.length_nil, Nat.zero_add]

/-! ### The calls -/

/-- What the router can answer: at most `top_k` experts of the model. -/
def Routed (cfg : DecoderConfig) : Call → Prop
  | .step _ _ picks =>
      ∀ l, (picks l).length ≤ cfg.topK ∧ ∀ e ∈ picks l, e < cfg.pager.expertsPerLayer
  | .stepMulti _ _ picks => ∀ l, ∀ es ∈ picks l, es.length ≤ cfg.topK ∧
      ∀ e ∈ es, e < cfg.pager.expertsPerLayer

/-- A model of two layers or more; or the experts still in the ring and those
picked now are together no more than the slots. -/
def TokensFit (cfg : DecoderConfig) (d : Ring) : Call → Prop
  | .step _ _ picks => 2 ≤ cfg.pager.numLayers ∨
      ((entryHandles d.pending).map (·.expert) ++ picks 0).toFinset.card ≤ cfg.pager.slotsPerLayer
  | .stepMulti _ _ _ => True

/-- Between calls: the ring holds the last layer's handles and the decoder no
others. -/
structure AtRest (cfg : DecoderConfig) (d : Ring) (w : World) : Prop where
  running : Running cfg (entryHandles d.pending) (entryHandles d.pending) [] False w
  length : (entryHandles d.pending).length ≤ cfg.topK
  layer : ∀ h ∈ entryHandles d.pending, h.layer + 1 = cfg.pager.numLayers ∧
    h.expert < cfg.pager.expertsPerLayer

theorem triple_prefetchNext {l : Nat} {ids : List Nat} (hF : F ⊆ G)
    (hlt : ∀ e ∈ ids, e < cfg.pager.expertsPerLayer) :
    decodeMachine.Triple ok (Running cfg G F [] synced) (prefetchNext cfg l ids)
      fun _ => Running cfg G F [] synced := by
  unfold prefetchNext
  split
  · exact triple_prefetch hF hlt
  · exact .ret fun _ hw => hw

/-- One layer of `step`, from the ring of the previous layer to its own. -/
theorem triple_stepLayer {l : Nat} {ids : List Nat} (d : Ring)
    (hfits : Fits cfg (entryHandles d.pending) l ids)
    (hlen : ids.length ≤ (Pager.shape cfg.pager).slotsPerPartition)
    {rest : Ring → DecodeProg (Bool × Ring)} {Q : Bool × Ring → World → Prop}
    (hrest : ∀ d', (entryHandles d'.pending).length = ids.length →
      (∀ h ∈ entryHandles d'.pending, h.layer = l ∧ h.expert ∈ ids) →
      decodeMachine.Triple ok
        (Running cfg (entryHandles d'.pending) (entryHandles d'.pending) [] False) (rest d') Q) :
    decodeMachine.Triple ok
      (Running cfg (entryHandles d.pending) (entryHandles d.pending) [] False)
      (do
        Prog.lift DecodeCmd.syncStream
        match ← request l ids with
        | none => pure (false, d)
        | some handles => do
            prefetchNext cfg l ids
            waitAll handles
            let d ← deferRelease d handles
            rest d) Q := by
  refine triple_syncStream.bind fun _ => (triple_request (List.Subset.refl _) hfits hlen).bind
    fun r => ?_
  rintro w ⟨hs, rfl, hcount, hids, hw⟩
  have hsub := List.subset_append_right hs (entryHandles d.pending)
  have hlt : ∀ e ∈ ids, e < cfg.pager.expertsPerLayer := fun e he => (hfits e he).1
  refine ((triple_prefetchNext hsub hlt) w hw).bind fun _ w hw => ?_
  refine ((triple_waitAll hs) w hw).bind fun _ w hw => ?_
  refine ((triple_deferRelease d hs) w hw).bind fun d' w hd => ?_
  obtain ⟨hpending, hw⟩ := hd
  have hhandles : entryHandles d'.pending = hs := hpending
  exact hrest d' (hhandles ▸ hcount) (hhandles ▸ hids) w (hhandles ▸ hw)

/-- By induction on the layers still to run: each meets the handles of the one
before it. -/
theorem triple_stepLayers {picks : Nat → List Nat} (hcap : cfg.topK ≤ cfg.pager.slotsPerLayer)
    (hfit : cfg.pager.numLayers * cfg.pager.slotsPerLayer < 2 ^ 32)
    (hrouted : ∀ l, (picks l).length ≤ cfg.topK ∧ ∀ e ∈ picks l, e < cfg.pager.expertsPerLayer)
    (n : Nat) : ∀ l d, l + n = cfg.pager.numLayers → (entryHandles d.pending).length ≤ cfg.topK →
      (∀ h ∈ entryHandles d.pending,
        (n = 0 → h.layer + 1 = cfg.pager.numLayers) ∧ h.expert < cfg.pager.expertsPerLayer) →
      (0 < n → Fits cfg (entryHandles d.pending) l (picks l)) →
      decodeMachine.Triple ok
        (Running cfg (entryHandles d.pending) (entryHandles d.pending) [] False)
        (stepLayers cfg picks (List.range' l n) d) fun r => AtRest cfg r.2 := by
  induction n with
  | zero =>
      intro l d _ hlen hlayer _
      exact .ret fun w hw => ⟨hw, hlen, fun h hm => ⟨(hlayer h hm).1 rfl, (hlayer h hm).2⟩⟩
  | succ n ih =>
      intro l d hl hlen hlayer hfits
      have hlt : l < cfg.pager.numLayers := by omega
      refine triple_stepLayer d (hfits (Nat.succ_pos n))
        ((hrouted l).1.trans (hcap.trans (slots_le_capacity hfit hlt))) fun d' hlen' hids => ?_
      have hexp : ∀ h ∈ entryHandles d'.pending, h.expert < cfg.pager.expertsPerLayer :=
        fun h hm => (hrouted l).2 _ (hids h hm).2
      refine ih (l + 1) d' (by omega) (hlen'.trans_le (hrouted l).1) (fun h hm => ⟨?_, hexp h hm⟩)
        fun hn => ?_
      · rintro rfl
        rw [(hids h hm).1, hl]
      · refine fits_apart hcap hfit (by omega) (by omega) (fun h hm => ?_)
          (hlen'.trans_le (hrouted l).1) (hrouted (l + 1)).1 (hrouted (l + 1)).2
        obtain ⟨hh, -⟩ := hids h hm
        exact ⟨by omega, by omega, hexp h hm⟩

/-- The first layer of a token meets the handles of the last layer of the token
before. -/
theorem AtRest.fits {picks : Nat → List Nat} {d : Ring} (h : AtRest cfg d w)
    (hcap : cfg.topK ≤ cfg.pager.slotsPerLayer)
    (hfit : cfg.pager.numLayers * cfg.pager.slotsPerLayer < 2 ^ 32)
    (hrouted : ∀ l, (picks l).length ≤ cfg.topK ∧ ∀ e ∈ picks l, e < cfg.pager.expertsPerLayer)
    (hpos : 0 < cfg.pager.numLayers)
    (htokens : 2 ≤ cfg.pager.numLayers ∨ ((entryHandles d.pending).map (·.expert) ++
      picks 0).toFinset.card ≤ cfg.pager.slotsPerLayer) :
    Fits cfg (entryHandles d.pending) 0 (picks 0) := by
  by_cases htwo : 2 ≤ cfg.pager.numLayers
  · refine fits_apart hcap hfit htwo hpos (fun x hm => ?_) h.length (hrouted 0).1 (hrouted 0).2
    obtain ⟨hlayer, hexp⟩ := h.layer x hm
    exact ⟨by omega, by omega, hexp⟩
  · have hslots := slots_le_capacity hfit hpos
    refine fun e he => ⟨(hrouted 0).2 e he, le_trans (Finset.card_le_card fun x hx => ?_)
      ((htokens.resolve_left htwo).trans hslots)⟩
    rw [List.mem_toFinset]
    -- in a model of one layer the flat id is the expert
    rcases Finset.mem_union.mp hx with hx | hx
    · obtain ⟨⟨y, hm, rfl⟩, -⟩ := mem_pinnedIds.mp hx
      have hzero : y.layer = 0 := by
        have := (h.layer y hm).1
        omega
      refine List.mem_append_left _ (List.mem_map.mpr ⟨y, hm, ?_⟩)
      simp [idOf, ExpertHandle.expertOf, flatId, hzero]
    · obtain ⟨e', he', rfl⟩ := List.mem_map.mp (List.mem_toFinset.mp hx)
      refine List.mem_append_right _ ?_
      simpa [flatId] using he'

theorem triple_step {pos : Nat} {wantLogits : Bool} {picks : Nat → List Nat} {d : Ring}
    (hcap : cfg.topK ≤ cfg.pager.slotsPerLayer)
    (hfit : cfg.pager.numLayers * cfg.pager.slotsPerLayer < 2 ^ 32)
    (hrouted : Routed cfg (.step pos wantLogits picks))
    (htokens : TokensFit cfg d (.step pos wantLogits picks)) :
    decodeMachine.Triple ok (AtRest cfg d) (step cfg pos wantLogits picks d) (AtRest cfg) := by
  unfold step
  split
  · exact .ret fun w hw => hw
  · intro w hw
    have hlayers := triple_stepLayers hcap hfit hrouted cfg.pager.numLayers 0 d (Nat.zero_add _)
      hw.length (fun h hm => ⟨fun _ => (hw.layer h hm).1, (hw.layer h hm).2⟩)
      (fun hpos => hw.fits hcap hfit hrouted hpos htokens)
    rw [List.range_eq_range']
    refine (hlayers w hw.running).bind fun r w hr => ?_
    obtain ⟨done, d'⟩ := r
    have hr : AtRest cfg d' w := hr
    simp only
    split
    · refine (triple_syncStream w hr.running).bind fun _ w hw => ?_
      refine (triple_tick w hw).bind fun _ w hw => ?_
      exact ⟨hw.unsynced, hr.length, hr.layer⟩
    · exact hr

/-- One wave takes and releases its handles. -/
theorem triple_wave {l : Nat} {ids : List Nat}
    (hlen : ids.length ≤ (Pager.shape cfg.pager).slotsPerPartition)
    (hlt : ∀ e ∈ ids, e < cfg.pager.expertsPerLayer) :
    decodeMachine.Triple ok (Running cfg [] [] [] True) (wave l ids)
      fun _ => Running cfg [] [] [] True := by
  refine (triple_request (List.Subset.refl _) (fits_alone hlen hlt) hlen).bind fun r => ?_
  rintro w ⟨hs, rfl, -, -, hw⟩
  refine ((triple_waitAll hs) w hw).bind fun _ w hw => ?_
  refine (triple_syncStream w hw).bind fun _ w hw => ?_
  refine ((triple_releaseAll hs) w hw).bind fun _ w hw => ?_
  exact hw

theorem triple_waves {l : Nat} {ws : List (List Nat)}
    (hws : ∀ ids ∈ ws, ids.length ≤ (Pager.shape cfg.pager).slotsPerPartition ∧
      ∀ e ∈ ids, e < cfg.pager.expertsPerLayer) :
    decodeMachine.Triple ok (Running cfg [] [] [] True) (waves l ws)
      fun _ => Running cfg [] [] [] True := by
  induction ws with
  | nil => exact .ret fun _ hw => hw
  | cons ids rest ih =>
      obtain ⟨⟨hlen, hlt⟩, hrest⟩ := List.forall_mem_cons.mp hws
      refine (triple_wave hlen hlt).bind fun r => ?_
      cases r with
      | false => exact .ret fun _ hw => hw
      | true => exact ih hrest

theorem triple_multiLayers {picks : Nat → List (List Nat)}
    (hfit : cfg.pager.numLayers * cfg.pager.slotsPerLayer < 2 ^ 32)
    (hpos : 0 < cfg.pager.slotsPerLayer)
    (hrouted : ∀ l, ∀ es ∈ picks l, es.length ≤ cfg.topK ∧
      ∀ e ∈ es, e < cfg.pager.expertsPerLayer)
    {ls : List Nat} (hls : ∀ l ∈ ls, l < cfg.pager.numLayers) :
    decodeMachine.Triple ok (Running cfg [] [] [] False) (multiLayers cfg picks ls)
      fun _ => Running cfg [] [] [] False := by
  induction ls with
  | nil => exact .ret fun _ hw => hw
  | cons l rest ih =>
      obtain ⟨hl, hrest⟩ := List.forall_mem_cons.mp hls
      have hsize : max cfg.pager.slotsPerLayer 1 = cfg.pager.slotsPerLayer := by omega
      refine triple_syncStream.bind fun _ => (triple_waves fun ids hids => ?_).bind fun r => ?_
      · refine ⟨?_, fun e he => ?_⟩
        · refine (Lib.length_le_of_mem_chunks hids).trans ?_
          rw [hsize]
          exact slots_le_capacity hfit hl
        · have hmem := Lib.mem_of_mem_chunks (by omega) hids he
          obtain ⟨es, hes, he⟩ := Lib.mem_sortedUnion.mp hmem
          exact (hrouted l es hes).2 e he
      · cases r with
        | false => exact .ret fun _ hw => hw.unsynced
        | true => exact (ih hrest).weaken (fun _ hw => hw.unsynced) fun _ _ hw => hw

theorem triple_readLogits {entries : List (Nat × Nat)} {wantLogits : Bool} :
    decodeMachine.Triple ok (Running cfg G F [] False) (readLogits entries wantLogits)
      fun _ => Running cfg G F [] False := by
  unfold readLogits
  split
  · exact Lib.Machine.Triple.forM (I := fun _ => Running cfg G F [] False) _
      fun _ _ => triple_syncStream.weaken (fun _ hw => hw) fun _ _ hw => hw.unsynced
  · exact .ret fun _ hw => hw

theorem atRest_empty {n : Nat} (hw : Running cfg [] [] [] False w) : AtRest cfg ⟨[], n⟩ w :=
  ⟨hw, Nat.zero_le _, nofun⟩

theorem triple_stepMulti {entries : List (Nat × Nat)} {wantLogits : Bool}
    {picks : Nat → List (List Nat)} {d : Ring}
    (hfit : cfg.pager.numLayers * cfg.pager.slotsPerLayer < 2 ^ 32)
    (hpos : 0 < cfg.pager.slotsPerLayer)
    (hrouted : Routed cfg (.stepMulti entries wantLogits picks)) :
    decodeMachine.Triple ok (AtRest cfg d) (stepMulti cfg entries wantLogits picks d)
      (AtRest cfg) := by
  unfold stepMulti
  split
  · exact .ret fun w hw => hw
  · intro w hw
    have hstart : Running cfg (entryHandles d.pending ++ []) (entryHandles d.pending ++ []) []
        False w := by
      simpa only [List.append_nil] using hw.running
    have hlayers := triple_multiLayers hfit hpos hrouted
      (fun l (hl : l ∈ List.range cfg.pager.numLayers) => List.mem_range.mp hl)
    refine ((triple_flush d.pending) w hstart).bind fun _ w hw => ?_
    refine (hlayers w hw).bind fun r w hw => ?_
    cases r with
    | false => exact atRest_empty hw
    | true =>
        refine (triple_tick w hw).bind fun _ w hw => ?_
        refine (triple_readLogits w hw).bind fun _ w hw => ?_
        exact atRest_empty hw

/-! ### Whole runs -/

/-- A pager has at least one slot per layer. -/
theorem slotsPerLayer_pos {cfg : PagerConfig} {p : Pager} (hnew : Pager.new cfg = some p) :
    0 < cfg.slotsPerLayer := by
  obtain ⟨cache, hcache, -⟩ := Option.bind_eq_some_iff.mp hnew
  unfold Pager.newCache at hcache
  unfold ExpertCache.partitioned at hcache
  split at hcache
  · split at hcache
    · rename_i h
      refine Nat.pos_of_ne_zero fun hzero => ?_
      simp [hzero] at h
    · cases hcache
  · split at hcache
    · rename_i h
      exact h.2.1
    · cases hcache

/-- The router answers with at most `top_k` experts of the model. -/
def RoutedCalls (cfg : DecoderConfig) (_ : World × Lib.Phase DecodeCmd.Res Ring)
    (a : Lib.ServerAct Call EnvAct Bool) : Prop :=
  ∀ x, a = .call x → Routed cfg x

/-- And the experts of two consecutive tokens fit. -/
def FittingCalls (cfg : DecoderConfig) (c : World × Lib.Phase DecodeCmd.Res Ring)
    (a : Lib.ServerAct Call EnvAct Bool) : Prop :=
  RoutedCalls cfg c a ∧ ∀ x d, a = .call x → c.2 = .idle d → TokensFit cfg d x

theorem triple_call {x : Call} {d : Ring} (hcap : cfg.topK ≤ cfg.pager.slotsPerLayer)
    (hfit : cfg.pager.numLayers * cfg.pager.slotsPerLayer < 2 ^ 32)
    (hpos : 0 < cfg.pager.slotsPerLayer) (hrouted : Routed cfg x) (htokens : TokensFit cfg d x) :
    decodeMachine.Triple ok (AtRest cfg d) (call cfg x d) (AtRest cfg) := by
  cases x with
  | step pos wantLogits picks => exact triple_step hcap hfit hrouted htokens
  | stepMulti entries wantLogits picks => exact triple_stepMulti hfit hpos hrouted

/-- **Decode meets no deadlock** while the experts of consecutive tokens fit:
whenever `request` waits for a slot, the partition is not wedged, so the
"expert cache deadlock" error is never returned. -/
theorem reachable_no_deadlock (hcap : cfg.topK ≤ cfg.pager.slotsPerLayer)
    (hfit : cfg.pager.numLayers * cfg.pager.slotsPerLayer < 2 ^ 32)
    {k : Acquired → DecodeProg Ring}
    (h : (system cfg).Reachable (FittingCalls cfg) (w, .busy (.cmd (.acquire layer expert) k))) :
    (w.waiting = true → w.pager.cache.isWedged (w.pager.idOf layer expert) ≠ some true) ∧
    ∀ t w', w.turn t (.acquire layer expert) ≠ some (some .deadlock, w') := by
  have hpos : 0 < cfg.pager.slotsPerLayer := by
    obtain ⟨s, -, ⟨d, -, hnew, -⟩, -⟩ := h
    exact slotsPerLayer_pos hnew
  have hok : ok w (.acquire layer expert) := by
    refine Lib.Server.reachable_ok (P := AtRest cfg) ?_ ?_ ?_ h
    · rintro s d ⟨hnew, hwait, rfl⟩
      refine atRest_empty ⟨⟨Pager.new_inv hnew, ?_, nofun, False.elim⟩, hwait⟩
      obtain ⟨cache, -, hp⟩ := Option.bind_eq_some_iff.mp hnew
      rw [← Option.some.inj hp]
    · intro d s s' e hs he
      exact ⟨hs.running.env he, hs.length, hs.layer⟩
    · intro s d x hs hC
      exact triple_call hcap hfit hpos (hC.1 x rfl) (hC.2 x d rfl rfl) s hs
  refine ⟨fun hwait hwedged => hok ⟨hwait, hwedged⟩, fun t w' hturn => ?_⟩
  rcases turnAcquire_cases hturn with ⟨hwait, -, hr⟩ | ⟨-, a, p, -, hr⟩
  · rcases hr with hr | ⟨-, hwedged⟩
    · cases hr
    · exact hok ⟨hwait, hwedged⟩
  · rcases hr with ⟨slot, -, hr, -⟩ | ⟨job, -, hr, -⟩ | ⟨-, hr, -⟩ <;> cases hr

/-! ### Two models -/

/-- The thread is in `request`, waiting for a slot for an expert `P` holds of. -/
def waitsFor (P : World → Nat → Nat → Bool) (c : World × Lib.Phase DecodeCmd.Res Ring) : Bool :=
  match c.2 with
  | .busy (.cmd (.acquire layer expert) _) => c.1.waiting && P c.1 layer expert
  | _ => false

theorem of_waitsFor {P : World → Nat → Nat → Bool} {ph : Lib.Phase DecodeCmd.Res Ring}
    (h : waitsFor P (w, ph) = true) : ∃ layer expert k,
      ph = .busy (.cmd (.acquire layer expert) k) ∧ w.waiting = true ∧ P w layer expert = true := by
  unfold waitsFor at h
  split at h
  · rename_i layer expert k heq
    exact ⟨layer, expert, k, heq, Bool.and_eq_true_iff.mp h⟩
  · cases h

/-- One slot per layer, one expert per token. -/
def tinyModel (numLayers : Nat) : DecoderConfig :=
  { pager := ⟨numLayers, 2, 1, 64, 1, false, 4⟩, topK := 1, maxSeq := 8, chunkCap := 64,
    batchCap := 1, prefetchNext := true }

/-- The worker fills a slot. -/
def filling : List (Lib.ServerAct Call EnvAct Bool) :=
  [.env (.worker 0 .take), .env (.worker 0 .copy), .env (.worker 0 .sync),
    .env (.worker 0 .publish)]

/-- Expert 0 then expert 1: the first is in flight, by the prefetch, when the
second layer asks for the second. -/
def oneToken : List (Lib.ServerAct Call EnvAct Bool) :=
  [.env (.worker 0 .start), .call (.step 0 true fun l => [l % 2])] ++
    List.replicate 6 (.turn false) ++ filling ++ List.replicate 5 (.turn false)

/-- With two layers, `request` may wait; the partition is not wedged. -/
theorem reachable_no_deadlock_two_layers :
    ∃ w layer expert k, (system (tinyModel 2)).Reachable (FittingCalls (tinyModel 2))
        (w, .busy (.cmd (.acquire layer expert) k)) ∧ w.waiting = true ∧
      w.pager.cache.isWedged (w.pager.idOf layer expert) ≠ some true := by
  have hinit : (system (tinyModel 2)).init
      (⟨(Pager.new (tinyModel 2).pager).get rfl, fun _ => true, false⟩, .idle ⟨[], 0⟩) :=
    ⟨_, rfl, rfl, rfl, rfl⟩
  have hcalls : ∀ s, ∀ a ∈ oneToken, FittingCalls (tinyModel 2) s a := by
    have hone : ∀ x, .call x ∈ oneToken → x = .step 0 true fun l => [l % 2] := by
      simp [oneToken, filling]
    refine fun s a ha => ⟨fun x hx => ?_, fun x d hx _ => ?_⟩
    · subst hx
      rw [hone x ha]
      intro l
      refine ⟨le_refl 1, fun e he => ?_⟩
      rw [List.mem_singleton.mp he]
      exact Nat.mod_lt l (by decide)
    · subst hx
      rw [hone x ha]
      exact .inl (by decide)
  obtain ⟨⟨w, ph⟩, hc, hw⟩ := Lib.System.exists_reachable
    (Lib.Server.step decodeMachine (call (tinyModel 2))) oneToken (waitsFor fun _ _ _ => true)
    hinit hcalls (by decide)
  obtain ⟨layer, expert, k, rfl, hwait, -⟩ := of_waitsFor hw
  exact ⟨w, layer, expert, k, hc, hwait,
    (reachable_no_deadlock (by decide) (by decide) hc).1 hwait⟩

/-- Expert 0 for the first token, expert 1 for the second. -/
def twoTokens : List (Lib.ServerAct Call EnvAct Bool) :=
  [.env (.worker 0 .start), .call (.step 0 true fun _ => [0])] ++
    List.replicate 4 (.turn false) ++ filling ++ List.replicate 4 (.turn false) ++
    [.ret, .call (.step 1 true fun _ => [1])] ++ List.replicate 3 (.turn false)

/-- **One layer, one slot, two tokens.** The slot of the first token's expert is
still pinned when the second token asks for another one: nothing drains the ring
before that request, and nothing will. -/
theorem two_tokens_deadlock :
    (tinyModel 1).topK ≤ (tinyModel 1).pager.slotsPerLayer ∧
    ∃ w layer expert k, (system (tinyModel 1)).Reachable (RoutedCalls (tinyModel 1))
        (w, .busy (.cmd (.acquire layer expert) k)) ∧ w.waiting = true ∧
      w.pager.cache.isWedged (w.pager.idOf layer expert) = some true ∧
      w.turn true (.acquire layer expert) = some (some .deadlock, { w with waiting := false }) := by
  have hinit : (system (tinyModel 1)).init
      (⟨(Pager.new (tinyModel 1).pager).get rfl, fun _ => true, false⟩, .idle ⟨[], 0⟩) :=
    ⟨_, rfl, rfl, rfl, rfl⟩
  have hcalls : ∀ s, ∀ a ∈ twoTokens, RoutedCalls (tinyModel 1) s a := by
    have hboth : ∀ x, .call x ∈ twoTokens →
        x = .step 0 true (fun _ => [0]) ∨ x = .step 1 true fun _ => [1] := by
      simp [twoTokens, filling]
    intro s a ha x hx
    subst hx
    rcases hboth x ha with rfl | rfl <;>
    · intro l
      simp [tinyModel]
  obtain ⟨⟨w, ph⟩, hc, hw⟩ := Lib.System.exists_reachable
    (Lib.Server.step decodeMachine (call (tinyModel 1))) twoTokens
    (waitsFor fun w layer expert => w.pager.cache.isWedged (w.pager.idOf layer expert) == some true)
    hinit hcalls (by decide)
  obtain ⟨layer, expert, k, rfl, hwait, hwedged⟩ := of_waitsFor hw
  have hwedged := beq_iff_eq.mp hwedged
  refine ⟨by decide, w, layer, expert, k, hc, hwait, hwedged, ?_⟩
  simp only [World.turn, World.turnAcquire, hwait, hwedged, if_true, Option.bind_eq_bind,
    Option.bind_some]

end Decoder

end LlmPager
