import LlmPager.Cuda.Ownership

/-!
# LlmPager.Cuda.LostFetch

Whether a slot in flight has somebody filling it.

As long as no worker fails with a job and one of them lives, the slot has exactly
one job on its way (`Clients.reachable_noLostFetch`), so a `wait` blocks only on a
slot somebody fills, and a full pool that `is_wedged` clears has a fetch in
flight. A worker that fails takes its job with it: the `?` after the read, the
copy or the event ends the thread before the slot is published, nothing puts the
job back, and the slot stays in flight for ever
(`Clients.failed_read_loses_fetch`).
-/

namespace LlmPager

/-- The jobs live workers are processing. -/
def Pager.processing (p : Pager) : List Job :=
  (p.workers.filter Worker.alive).flatMap (·.job.toList)

namespace Clients

/-- Every slot in flight has exactly one outstanding job, queued or being
processed by a live worker. -/
def NoLostFetch (s : Clients) : Prop :=
  ∀ slot, s.pager.fill slot = .inFlight →
    (s.pager.queue ++ s.pager.processing).countP (·.slot = slot) = 1

/-- If worker `k` fails now, it has no job, and another one lives. -/
def Spares (p : Pager) (k : Nat) : Prop :=
  (∀ w, p.workers[k]? = some w → w.job = none) ∧
    ∃ k' w, k' ≠ k ∧ p.workers[k']? = some w ∧ w.alive = true

/-- No step is a worker failing with a job, or the last one failing. -/
def WorkersLive (s : Clients) (a : Action) : Prop := ∀ k, a = .worker k .die → Spares s.pager k

/-- What such a run keeps: a worker that is dead had no job, one of them lives, and
no job was dropped. -/
structure Sound (p : Pager) : Prop where
  alive : ∀ w ∈ p.workers, w.alive = true ∨ w.job = none
  any_alive : p.workers.any Worker.alive = true
  dropped : p.dropped = []

variable {sh : Shape} {s s' : Clients} {p p' : Pager}

theorem Sound.congr (h : Sound p) (hw : p'.workers = p.workers) (hd : p'.dropped = p.dropped) :
    Sound p' :=
  ⟨hw ▸ h.alive, hw ▸ h.any_alive, hd.trans h.dropped⟩

/-- A worker that has moved on. -/
theorem Sound.set (h : Sound p) {k : Nat} {v w : Worker} (hk : p.workers[k]? = some v)
    (hw : w.alive = true) (hp : p'.workers = p.workers.set k w) (hd : p'.dropped = p.dropped) :
    Sound p' := by
  refine ⟨fun v hv => ?_, ?_, hd.trans h.dropped⟩
  · rw [hp] at hv
    rcases List.mem_or_eq_of_mem_set hv with hold | rfl
    · exact h.alive v hold
    · exact .inl hw
  · rw [hp, List.any_eq_true]
    exact ⟨w, List.mem_set ((List.getElem?_eq_some_iff.mp hk).1) w, hw⟩

/-- A worker that has failed without a job. -/
theorem Sound.die (h : Sound p) {k : Nat} {copying : Bool} (hspares : Spares p k)
    (hp : p'.workers = p.workers.set k (.dead none copying)) (hd : p'.dropped = p.dropped) :
    Sound p' := by
  obtain ⟨k', w, hne, hk', hw⟩ := hspares.2
  refine ⟨fun v hv => ?_, ?_, hd.trans h.dropped⟩
  · rw [hp] at hv
    rcases List.mem_or_eq_of_mem_set hv with hold | rfl
    · exact h.alive v hold
    · exact .inr rfl
  · rw [hp, List.any_eq_true]
    refine ⟨w, List.mem_of_getElem? (i := k') ?_, hw⟩
    rw [List.getElem?_set_ne hne.symm, hk']

theorem Sound.workerStep {k : Nat} {a : WorkerAction} (h : Sound p)
    (ha : a = .die → Spares p k) (hstep : p.workerStep k a = some p') : Sound p' := by
  obtain ⟨w, hk, hstep⟩ := Option.bind_eq_some_iff.mp hstep
  cases a with
  | start | copy | sync =>
      cases w <;> cases hstep
      exact h.set hk rfl rfl rfl
  | take =>
      cases w <;> try cases hstep
      cases hq : p.queue with
      | nil => rw [hq] at hstep; cases hstep
      | cons job rest =>
          rw [hq] at hstep
          cases hstep
          exact h.set hk rfl rfl rfl
  | publish =>
      cases w <;> try cases hstep
      obtain ⟨q, hdone, hstep⟩ := Option.bind_eq_some_iff.mp hstep
      cases hstep
      obtain ⟨c, -, hdone⟩ := Option.bind_eq_some_iff.mp hdone
      obtain ⟨c', -, hdone⟩ := Option.bind_eq_some_iff.mp hdone
      cases hdone
      exact h.set hk rfl rfl rfl
  | die =>
      have hjob := (ha rfl).1 w hk
      have hdead : Sound { p with workers := p.workers.set k (.dead w.job w.running.isSome) } := by
        rw [hjob]
        exact h.die (ha rfl) rfl rfl
      have hopen : p' = Pager.closeChannel
          { p with workers := p.workers.set k (.dead w.job w.running.isSome) } := by
        cases w <;> cases hstep <;> rfl
      rw [hopen, Pager.closeChannel, if_pos hdead.any_alive]
      exact hdead

theorem Sound.acquire {i : Nat} (h : Sound s.pager) (hstep : s.acquire i = some s') :
    Sound s'.pager := by
  obtain ⟨call, -, hstep⟩ := Option.bind_eq_some_iff.mp hstep
  match call with
  | .request layer (expert :: todo) out none =>
      obtain ⟨⟨r, p⟩, htry, hstep⟩ := Option.bind_eq_some_iff.mp hstep
      obtain ⟨⟨look, c⟩, -, htry⟩ := Option.bind_eq_some_iff.mp htry
      cases look <;> cases htry <;> cases hstep <;> exact h.congr rfl rfl
  | .prefetch layer (expert :: todo) none =>
      obtain ⟨⟨r, p⟩, htry, hstep⟩ := Option.bind_eq_some_iff.mp hstep
      cases hstep
      obtain ⟨⟨look, c⟩, -, htry⟩ := Option.bind_eq_some_iff.mp htry
      cases look with
      | hit slot =>
          obtain ⟨c', -, htry⟩ := Option.bind_eq_some_iff.mp htry
          cases htry
          exact h.congr rfl rfl
      | miss | stalled =>
          cases htry
          exact h.congr rfl rfl
  | .request _ [] _ _ | .request _ (_ :: _) _ (some _)
  | .prefetch _ [] _ | .prefetch _ (_ :: _) (some _) => cases hstep

theorem Sound.send {i : Nat} (h : Sound s.pager) (hstep : s.send i = some s') :
    Sound s'.pager := by
  have hsend : ∀ job, s.pager.send job = some { s.pager with queue := s.pager.queue ++ [job] } :=
    fun job => if_pos h.any_alive
  obtain ⟨call, -, hstep⟩ := Option.bind_eq_some_iff.mp hstep
  match call with
  | .request _ _ _ (some job) | .prefetch _ _ (some job) =>
      simp only [hsend job] at hstep
      cases hstep
      exact h.congr rfl rfl
  | .request _ _ _ none | .prefetch _ _ none => cases hstep

/-- **Step lemma**: steps other than such a failure lose no job. -/
theorem Sound.step {a : Action} (h : Sound s.pager) (ha : WorkersLive s a)
    (hstep : s.step a = some s') : Sound s'.pager := by
  cases a with
  | callRequest layer experts =>
      obtain ⟨capacity, -, hstep⟩ := Option.bind_eq_some_iff.mp hstep
      split at hstep
      · cases hstep
      · split at hstep <;> cases hstep <;> exact h
  | callPrefetch layer experts =>
      rw [Clients.step] at hstep
      split at hstep <;> cases hstep
      exact h
  | acquire i => exact h.acquire hstep
  | giveUp i =>
      obtain ⟨call, -, hstep⟩ := Option.bind_eq_some_iff.mp hstep
      rcases call with ⟨layer, _ | ⟨expert, todo⟩, out, _ | job⟩ | ⟨layer, todo, job⟩
      case request.cons.none =>
          obtain ⟨wedged, -, hstep⟩ := Option.bind_eq_some_iff.mp hstep
          cases wedged <;> cases hstep
          exact h
      all_goals cases hstep
  | send i => exact h.send hstep
  | ret i =>
      obtain ⟨call, -, hstep⟩ := Option.bind_eq_some_iff.mp hstep
      rcases call with ⟨layer, _ | ⟨expert, todo⟩, out, _ | job⟩ |
        ⟨layer, _ | ⟨expert, todo⟩, _ | job⟩
      all_goals first
        | cases hstep; done
        | cases hstep; exact h
  | wait w =>
      rw [Clients.step] at hstep
      split at hstep <;> cases hstep
      exact h
  | release w =>
      by_cases hw : w ∈ s.waited
      · rw [Clients.step, if_pos hw] at hstep
        obtain ⟨p, hrel, hstep⟩ := Option.bind_eq_some_iff.mp hstep
        obtain ⟨c, -, hrel⟩ := Option.bind_eq_some_iff.mp hrel
        cases hrel
        cases hstep
        exact h.congr rfl rfl
      · rw [Clients.step, if_neg hw] at hstep
        cases hstep
  | tick =>
      cases hstep
      rw [Pager.tick_eq]
      exact h.congr rfl rfl
  | worker k a =>
      obtain ⟨p, hwork, hstep⟩ := Option.bind_eq_some_iff.mp hstep
      cases hstep
      exact h.workerStep (fun hdie => ha k (hdie ▸ rfl)) hwork

theorem Sound.init {cfg : PagerConfig} (hs : (system cfg).init s) : Sound s.pager := by
  obtain ⟨pager, calls, held, waited, leaked⟩ := s
  obtain ⟨cache, -, hnew⟩ := Option.bind_eq_some_iff.mp hs.1
  cases hnew
  refine ⟨fun w hw => .inl ?_, ?_, rfl⟩
  · rw [List.eq_of_mem_replicate hw]
    rfl
  · exact List.any_eq_true.mpr ⟨.starting, List.mem_replicate.mpr ⟨by omega, rfl⟩, rfl⟩

theorem reachable_sound {cfg : PagerConfig} (hs : (system cfg).Reachable WorkersLive s) :
    Sound s.pager :=
  hs.invariant (fun _ => Sound.init) fun _ _ _ hinv ha hstep => hinv.step ha hstep

/-! ### One job per slot in flight -/

theorem flatMap_filter_alive {ws : List Worker} (h : ∀ w ∈ ws, w.alive = true ∨ w.job = none) :
    (ws.filter Worker.alive).flatMap (·.job.toList) = ws.flatMap (·.job.toList) := by
  induction ws with
  | nil => rfl
  | cons w ws ih =>
      obtain ⟨hw, hws⟩ := List.forall_mem_cons.mp h
      by_cases halive : w.alive = true
      · rw [List.filter_cons_of_pos halive, List.flatMap_cons, List.flatMap_cons, ih hws]
      · rw [List.filter_cons_of_neg halive, List.flatMap_cons, ih hws, hw.resolve_left halive]
        rfl

/-- The dead workers have none of the jobs of the system: these are being sent,
queued or processed. -/
theorem Sound.jobs_eq (h : Sound s.pager) :
    s.sending ++ s.pager.jobs = s.sending ++ (s.pager.queue ++ s.pager.processing) := by
  rw [Pager.jobs, h.dropped, List.append_nil, Pager.processing, flatMap_filter_alive h.alive]

/-- One job for a slot in flight. -/
theorem Inv.count_jobs {slot : Nat} (h : Inv sh s) (hfill : s.pager.fill slot = .inFlight) :
    (s.sending ++ s.pager.jobs).countP (·.slot = slot) = 1 := by
  obtain ⟨j, hj, rfl⟩ := (h.pager.fetching.inFlight slot).mp hfill
  have hone := List.count_eq_one_of_mem h.pager.fetching.unique (List.mem_map_of_mem hj)
  rw [List.count, List.countP_map] at hone
  refine Eq.trans (List.countP_congr fun x _ => ?_) hone
  simp

/-- **No fetch is lost while the workers live.** In every run in which no worker
fails with a job and one of them lives: a slot in flight has exactly one job,
about to be sent, queued or being processed, and unless a client is about to
send it, queued or being processed; a handle whose slot is not filled has such a
job, so its `wait` is not in vain; and a full partition that `is_wedged` clears
has a fetch in flight. -/
theorem reachable_noLostFetch {cfg : PagerConfig}
    (hs : (system cfg).Reachable WorkersLive s) :
    (∀ slot, s.pager.fill slot = .inFlight →
      (s.sending ++ (s.pager.queue ++ s.pager.processing)).countP (·.slot = slot) = 1) ∧
    (s.sending = [] → NoLostFetch s) ∧
    (∀ h ∈ s.handles, s.pager.fill h.slot ≠ .ready →
      ∃ j ∈ s.sending ++ (s.pager.queue ++ s.pager.processing), j.slot = h.slot) ∧
    ∀ id p part, s.pager.cache.partOf id = some p → s.pager.cache.parts[p]? = some part →
      (∀ slot, part.Owns slot → ∃ st, s.pager.cache.slots[slot]? = some st ∧ 0 < st.pins) →
      s.pager.cache.isWedged id = some false →
      ∃ j ∈ s.sending ++ (s.pager.queue ++ s.pager.processing), part.Owns j.slot := by
  have hinv := reachable_inv hs
  have hsound := reachable_sound hs
  have hf := hinv.pager.fetching
  rw [hsound.jobs_eq] at hf
  have hcount : ∀ slot, s.pager.fill slot = .inFlight →
      (s.sending ++ (s.pager.queue ++ s.pager.processing)).countP (·.slot = slot) = 1 := by
    intro slot hfill
    rw [← hsound.jobs_eq]
    exact hinv.count_jobs hfill
  refine ⟨hcount, fun hnone slot hfill => ?_, fun h hm hne => ?_, fun id p part hp hpart hfull hw => ?_⟩
  · have := hcount slot hfill
    rwa [hnone, List.nil_append] at this
  · exact (hf.inFlight _).mp (hf.inFlight_of_pinned (hf.handle_pinned hm) hne)
  · have hnot := (ExpertCache.isWedged_spec hinv.pager.cache hw).not.mp nofun
    cases hinv.pager.cache.partOf_eq hp
    obtain ⟨hbase, hlen⟩ := hinv.pager.cache.range _ part hpart
    have howns : ∀ slot, part.Owns slot ↔
        (Pager.shape cfg).Owns ((Pager.shape cfg).foldOf id) slot := by
      intro slot
      rw [Partition.Owns, hbase, hlen]
      rfl
    push Not at hnot
    obtain ⟨slot, hslot, hunready⟩ := hnot
    obtain ⟨st, hst, hpins⟩ := hfull slot ((howns slot).mpr hslot)
    have hpinned : 0 < (s.pager.cache.view slot).pins := by
      rw [ExpertCache.view_eq hst]
      exact hpins
    have hfill : s.pager.fill slot ≠ .ready := by
      intro hr
      exact hunready hpinned ((hf.ready slot).mp hr)
    obtain ⟨j, hj, rfl⟩ := (hf.inFlight slot).mp (hf.inFlight_of_pinned hpinned hfill)
    exact ⟨j, hj, (howns _).mpr hslot⟩

/-- One layer of one slot, one worker, one expert requested. -/
theorem reachable_noLostFetch_one_fetch :
    ∃ s : Clients, s.pager.fill 0 = .inFlight ∧ s.held = [⟨0, 0, 0⟩] ∧ NoLostFetch s := by
  let cfg : PagerConfig := ⟨1, 2, 1, 64, 1, false, 4⟩
  have hinit : (system cfg).init ⟨(Pager.new cfg).get rfl, [], [], [], []⟩ :=
    ⟨rfl, rfl, rfl, rfl, rfl⟩
  obtain ⟨s, hs, hstate⟩ := Lib.System.exists_reachable (C := WorkersLive) step
    [.worker 0 .start, .callRequest 0 [0], .acquire 0, .send 0, .ret 0, .worker 0 .take]
    (fun s => decide (s.pager.fill 0 = .inFlight ∧ s.held = [⟨0, 0, 0⟩] ∧ s.sending = []))
    hinit (fun _ a ha k hk => by subst hk; simp at ha) (by decide)
  obtain ⟨hfill, hheld, hsending⟩ := of_decide_eq_true hstate
  exact ⟨s, hfill, hheld, (reachable_noLostFetch hs).2.1 hsending⟩

/-- **A failing read loses the fetch.** One worker; its read of the first
expert fails. The slot stays in flight with no job left, and the caller's
`wait` on the handle it holds will never return. -/
theorem failed_read_loses_fetch :
    ∃ s : Clients, (system ⟨1, 2, 1, 64, 1, false, 4⟩).Reachable Lib.System.anyStep s ∧
      s.held = [⟨0, 0, 0⟩] ∧ s.pager.fill 0 = .inFlight ∧ s.sending = [] ∧ ¬ NoLostFetch s := by
  let cfg : PagerConfig := ⟨1, 2, 1, 64, 1, false, 4⟩
  have hinit : (system cfg).init ⟨(Pager.new cfg).get rfl, [], [], [], []⟩ :=
    ⟨rfl, rfl, rfl, rfl, rfl⟩
  obtain ⟨s, hs, hstate⟩ := Lib.System.exists_reachable step
    [.worker 0 .start, .callRequest 0 [0], .acquire 0, .send 0, .ret 0, .worker 0 .take,
      .worker 0 .die]
    (fun s => decide (s.held = [⟨0, 0, 0⟩] ∧ s.pager.fill 0 = .inFlight ∧ s.sending = [] ∧
      (s.pager.queue ++ s.pager.processing).countP (·.slot = 0) = 0)) hinit
    (fun _ _ _ => trivial) (by decide)
  obtain ⟨hheld, hfill, hsending, hzero⟩ := of_decide_eq_true hstate
  refine ⟨s, hs, hheld, hfill, hsending, fun hall => ?_⟩
  rw [hall 0 hfill] at hzero
  cases hzero

end Clients

end LlmPager
