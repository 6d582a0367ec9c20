import LlmPager.Cuda.Fetching
import LlmPager.Lib.Parties

/-!
# LlmPager.Cuda.PagerInv

Every critical section of the pager keeps `Pager.Inv`: one lemma per section,
each also saying which handle or job the section brings about. The invariant
takes the outstanding handles and the jobs a client is about to send as
arguments, so the same lemmas serve any set of callers: the interleaving
system of `Clients`, and the decoder that is a pager's only caller.
-/

namespace LlmPager

theorem SlotTable.unpin_pin (t : SlotTable) (slot : Nat) : (t.pin slot).unpin slot = t := by
  funext i
  by_cases hi : i = slot
  · subst hi
    simp [SlotTable.pin, SlotTable.unpin]
  · simp [SlotTable.pin, SlotTable.unpin, hi]

namespace Pager

/-- The jobs whose copies have been enqueued. -/
def written (p : Pager) : List Job := p.workers.flatMap (·.written.toList)

/-- The pager's invariant, with the handles somebody holds and the jobs some
client is about to send. -/
structure Inv (sh : Shape) (p : Pager) (hs : List ExpertHandle) (sending : List Job) : Prop where
  cache : ExpertCache.Inv sh p.cache
  fetching : Fetching p.expertsPerLayer p.cache.view p.fill p.device hs (sending ++ p.jobs)
    p.written

variable {sh : Shape} {p p' : Pager} {hs hs' : List ExpertHandle} {snd snd' : List Job}
  {h : ExpertHandle} {job : Job} {layer expert : Nat}

theorem Inv.of_table {t : SlotTable} (hc : ExpertCache.Inv sh p.cache) (hview : p.cache.view = t)
    (hf : Fetching p.expertsPerLayer t p.fill p.device hs (snd ++ p.jobs) p.written) :
    Inv sh p hs snd :=
  ⟨hc, hview ▸ hf⟩

theorem Inv.perm (hp : Inv sh p hs snd) (hh : hs.Perm hs') (hs : snd.Perm snd') :
    Inv sh p hs' snd' :=
  ⟨hp.cache, hp.fetching.perm hh (hs.append_right _) fun _ hm => hm⟩

/-- Jobs may change hands as long as none appears or disappears. -/
theorem Inv.moveJobs (hp : Inv sh p hs snd) {queue dropped : List Job} {workers : List Worker}
    (hjobs : (snd ++ p.jobs).Perm (snd' ++ (queue ++ workers.flatMap (·.job.toList) ++ dropped)))
    (hwritten : ∀ j ∈ workers.flatMap (·.written.toList), j ∈ p.written) :
    Inv sh { p with queue := queue, workers := workers, dropped := dropped } hs snd' :=
  ⟨hp.cache, hp.fetching.perm (.refl _) hjobs hwritten⟩

/-- The shape of the cache `Pager::new` builds. -/
def shape (cfg : PagerConfig) : Shape :=
  if cfg.globalPool then
    { partitions := 1, idsPerPartition := cfg.expertsPerLayer,
      slotsPerPartition := cfg.numLayers * cfg.slotsPerLayer % 2 ^ 32 }
  else
    { partitions := cfg.numLayers, idsPerPartition := cfg.expertsPerLayer,
      slotsPerPartition := cfg.slotsPerLayer }

/-- A fresh pager, with nobody calling. -/
theorem new_inv {cfg : PagerConfig} (hnew : new cfg = some p) : Inv (shape cfg) p [] [] := by
  obtain ⟨cache, hcache, hnew⟩ := Option.bind_eq_some_iff.mp hnew
  have hspec : ExpertCache.Inv (shape cfg) cache ∧ cache.view = SlotTable.empty := by
    unfold newCache at hcache
    unfold shape
    split at hcache
    · rw [if_pos ‹_›]
      exact ExpertCache.partitioned_spec hcache
    · rw [if_neg ‹_›]
      exact ExpertCache.partitioned_spec hcache
  cases hnew
  refine .of_table hspec.1 hspec.2 ?_
  have hstarting : ∀ (f : Worker → Option Job) n, f .starting = none →
      (List.replicate n Worker.starting).flatMap (fun w => (f w).toList) = [] := by
    intro f n hf
    simp [List.flatMap_replicate, hf]
  rw [written, jobs, hstarting _ _ rfl, hstarting _ _ rfl]
  exact Fetching.start

/-- A miss does not touch the slot of an outstanding handle. -/
theorem Inv.ready_update {slot : Nat} (hp : Inv sh p hs snd)
    (hpins : (p.cache.view slot).pins = 0) (h : ExpertHandle) (hm : h ∈ hs)
    (hr : p.fill h.slot = .ready) : Function.update p.fill slot .inFlight h.slot = .ready := by
  have hne : h.slot ≠ slot := by
    intro he
    have := hp.fetching.handle_pinned hm
    rw [he, hpins] at this
    cases this
  rw [Function.update_of_ne hne]
  exact hr

/-! ### Clients -/

/-- What an attempt of `request` brings about. -/
theorem tryRequest_inv {r : Attempt} (hp : Inv sh p hs snd) (hlt : expert < p.expertsPerLayer)
    (htry : p.tryRequest layer expert = some (r, p')) :
    (∃ c fill, p' = { p with cache := c, fill := fill } ∧
      ∀ h ∈ hs, p.fill h.slot = .ready → fill h.slot = .ready) ∧
    ((∃ slot, r = .got slot ∧ Inv sh p' (⟨layer, expert, slot⟩ :: hs) snd) ∨
     (∃ slot, r = .fetch ⟨layer, expert, slot, false⟩ ∧
        Inv sh p' (⟨layer, expert, slot⟩ :: hs) (⟨layer, expert, slot, false⟩ :: snd)) ∨
     (r = .stalled ∧ p' = p ∧ ∀ i, (p.cache.view i).id ≠ some (p.idOf layer expert))) := by
  obtain ⟨⟨look, c⟩, hacq, htry⟩ := Option.bind_eq_some_iff.mp htry
  obtain ⟨hc, hcases⟩ := ExpertCache.acquire_cases hp.cache hacq
  rcases hcases with ⟨slot, rfl, hid, hview⟩ | ⟨slot, rfl, -, -, hpins, -, hview⟩ |
    ⟨rfl, rfl, habsent, -⟩
  · cases htry
    exact ⟨⟨c, p.fill, rfl, fun _ _ hr => hr⟩, .inl ⟨slot, rfl, .of_table hc hview
      (hp.fetching.hit (h := ⟨layer, expert, slot⟩) hid hlt)⟩⟩
  · cases htry
    exact ⟨⟨c, _, rfl, hp.ready_update hpins⟩, .inr (.inl ⟨slot, rfl, .of_table hc hview
      (hp.fetching.missRequest (j := ⟨layer, expert, slot, false⟩) hpins hlt rfl)⟩)⟩
  · cases htry
    exact ⟨⟨p.cache, p.fill, rfl, fun _ _ hr => hr⟩, .inr (.inr ⟨rfl, rfl, habsent⟩)⟩

/-- What an attempt of `prefetch` brings about. -/
theorem tryPrefetch_inv {r : Option Job} (hp : Inv sh p hs snd)
    (hlt : expert < p.expertsPerLayer) (htry : p.tryPrefetch layer expert = some (r, p')) :
    (∃ c fill, p' = { p with cache := c, fill := fill } ∧
      ∀ h ∈ hs, p.fill h.slot = .ready → fill h.slot = .ready) ∧
    Inv sh p' hs (r.toList ++ snd) := by
  obtain ⟨⟨look, c⟩, hacq, htry⟩ := Option.bind_eq_some_iff.mp htry
  obtain ⟨hc, hcases⟩ := ExpertCache.acquire_cases hp.cache hacq
  rcases hcases with ⟨slot, rfl, hid, hview⟩ | ⟨slot, rfl, -, -, hpins, -, hview⟩ |
    ⟨rfl, rfl, -, -⟩
  · -- a hit pins the slot and gives the pin back at once
    obtain ⟨c', hrel, htry⟩ := Option.bind_eq_some_iff.mp htry
    obtain ⟨hc', -, hview'⟩ := ExpertCache.release_spec hc hrel
    cases htry
    rw [hview, SlotTable.unpin_pin] at hview'
    exact ⟨⟨c', p.fill, rfl, fun _ _ hr => hr⟩, .of_table hc' hview' hp.fetching⟩
  · cases htry
    exact ⟨⟨c, _, rfl, hp.ready_update hpins⟩, .of_table hc hview
      (hp.fetching.missPrefetch (j := ⟨layer, expert, slot, true⟩) hpins hlt rfl)⟩
  · cases htry
    exact ⟨⟨p.cache, p.fill, rfl, fun _ _ hr => hr⟩, hp⟩

theorem send_inv (hp : Inv sh p hs (job :: snd)) (hsend : p.send job = some p') :
    p' = { p with queue := p.queue ++ [job] } ∧ Inv sh p' hs snd := by
  by_cases halive : p.workers.any Worker.alive = true
  · rw [send, if_pos halive] at hsend
    cases hsend
    refine ⟨rfl, hp.moveJobs (List.perm_iff_count.mpr fun j => ?_) fun _ hm => hm⟩
    simp only [jobs, List.count_append, List.count_cons, List.count_nil]
    omega
  · rw [send, if_neg halive] at hsend
    cases hsend

/-- A job that could not be sent is lost. -/
theorem sendFailed_inv (hp : Inv sh p hs (job :: snd)) :
    Inv sh { p with dropped := p.dropped ++ [job] } hs snd := by
  refine hp.moveJobs (List.perm_iff_count.mpr fun j => ?_) fun _ hm => hm
  simp only [jobs, List.count_append, List.count_cons, List.count_nil]
  omega

theorem release_inv (hp : Inv sh p (h :: hs) snd) (hr : p.fill h.slot = .ready)
    (hrel : p.release h = some p') : (∃ c, p' = { p with cache := c }) ∧ Inv sh p' hs snd := by
  obtain ⟨c, hrel, hsome⟩ := Option.bind_eq_some_iff.mp hrel
  obtain ⟨hc, -, hview⟩ := ExpertCache.release_spec hp.cache hrel
  cases hsome
  exact ⟨⟨c, rfl⟩, .of_table hc hview (hp.fetching.release hr)⟩

theorem tick_inv (hp : Inv sh p hs snd) : Inv sh p.tick hs snd := by
  unfold tick
  split
  · exact hp
  · split
    · exact .of_table (ExpertCache.decayAll_inv hp.cache) ExpertCache.decayAll_view hp.fetching
    · exact ⟨hp.cache, hp.fetching⟩

theorem tick_eq : p.tick = { p with cache := p.tick.cache, ticks := p.tick.ticks } := by
  unfold tick
  split
  · rfl
  · split <;> rfl

/-! ### Workers -/

/-- The critical section of a worker publishes exactly its job. -/
theorem fillDone_inv {js ws ws' : List Job} (hc : ExpertCache.Inv sh p.cache)
    (hf : Fetching p.expertsPerLayer p.cache.view p.fill p.device hs (job :: js) ws)
    (hw : job ∈ ws) (hws : ∀ j ∈ ws', j ∈ ws ∧ j ∈ js) (hdone : p.fillDone job = some p') :
    ∃ c, p' = { p with cache := c, fill := Function.update p.fill job.slot .ready } ∧
      ExpertCache.Inv sh c ∧
      Fetching p.expertsPerLayer c.view (Function.update p.fill job.slot .ready) p.device hs js
        ws' := by
  obtain ⟨c, hpub, hdone⟩ := Option.bind_eq_some_iff.mp hdone
  obtain ⟨c', hrel, hdone⟩ := Option.bind_eq_some_iff.mp hdone
  obtain ⟨hc₁, -, hview⟩ := ExpertCache.publish_spec hc hpub
  cases hdone
  cases hflag : job.releaseAfterFill with
  | false =>
      rw [hflag] at hrel
      cases hrel
      exact ⟨c, rfl, hc₁, hview ▸ hf.fillRequest hw hflag hws⟩
  | true =>
      rw [hflag] at hrel
      obtain ⟨hc₂, -, hview'⟩ := ExpertCache.release_spec hc₁ hrel
      refine ⟨c', rfl, hc₂, ?_⟩
      rw [hview', hview]
      exact hf.fillPrefetch hw hflag hws

/-- Worker `k` moves on with the job it has. -/
theorem Inv.setWorker {k : Nat} {w w' : Worker} (hp : Inv sh p hs snd)
    (hk : p.workers[k]? = some w) (hjob : w'.job = w.job)
    (hwritten : ∀ j, w'.written = some j → w.written = some j) :
    Inv sh { p with workers := p.workers.set k w' } hs snd := by
  refine hp.moveJobs (List.Perm.append_left _ ?_) fun j hm => ?_
  · refine List.Perm.append_right _ (List.Perm.append_left _ ?_)
    exact Lib.flatMap_perm_set hk (by rw [hjob])
  · rcases Lib.mem_flatMap_set hm with hnew | hold
    · refine List.mem_flatMap.mpr ⟨w, List.mem_of_getElem? hk, ?_⟩
      exact Option.mem_toList.mpr (hwritten j (Option.mem_toList.mp hnew))
    · exact hold

/-- With the last worker gone, the queue is dropped, but not forgotten. -/
theorem closeChannel_inv (hp : Inv sh p hs snd) : Inv sh p.closeChannel hs snd := by
  unfold closeChannel
  split
  · exact hp
  · refine hp.moveJobs (List.perm_iff_count.mpr fun j => ?_) fun _ hm => hm
    simp only [jobs, List.count_append, List.count_nil]
    omega

/-- Taking a job moves it from the queue into the worker's hands. -/
theorem take_inv {k : Nat} {rest : List Job} (hp : Inv sh p hs snd)
    (hk : p.workers[k]? = some .idle) (hq : p.queue = job :: rest) :
    Inv sh { p with queue := rest, workers := p.workers.set k (.fetching job) } hs snd := by
  refine hp.moveJobs (List.Perm.append_left _ ?_) fun j hm => ?_
  · have hbefore := Lib.flatMap_perm_share (fun w : Worker => w.job.toList) hk
    have hafter := Lib.flatMap_set_perm (fun w : Worker => w.job.toList) hk (.fetching job)
    refine List.perm_iff_count.mpr fun j => ?_
    have hb := hbefore.count_eq j
    have ha := hafter.count_eq j
    simp only [jobs, hq, Worker.job, Option.toList, List.count_append, List.count_cons,
      List.count_nil] at hb ha ⊢
    omega
  · rcases Lib.mem_flatMap_set hm with hnew | hold
    · cases hnew
    · exact hold

/-- Enqueuing a copy makes it the last one into its slot. -/
theorem copy_inv {k : Nat} (hp : Inv sh p hs snd) (hk : p.workers[k]? = some (.fetching job)) :
    Inv sh { p with
      workers := p.workers.set k (.copying job)
      device := Function.update p.device job.slot (some (job.layer, job.expert)) } hs snd := by
  have hmem : job ∈ snd ++ p.jobs := by
    refine List.mem_append_right _ (List.mem_append_left _ (List.mem_append_right _ ?_))
    exact List.mem_flatMap.mpr ⟨_, List.mem_of_getElem? hk, List.mem_singleton.mpr rfl⟩
  have hcopy := hp.fetching.copy hmem
  refine ⟨hp.cache, hcopy.perm (.refl _) (List.Perm.append_left _ ?_) fun j hm => ?_⟩
  · refine List.Perm.append_right _ (List.Perm.append_left _ ?_)
    exact Lib.flatMap_perm_set hk rfl
  · rcases Lib.mem_flatMap_set hm with hnew | hold
    · rw [List.mem_singleton.mp hnew]
      exact List.mem_cons_self
    · exact List.mem_cons_of_mem _ hold

theorem written_subset_jobs (p : Pager) : p.written ⊆ p.jobs := by
  intro j hm
  obtain ⟨w, hw, hj⟩ := List.mem_flatMap.mp hm
  refine List.mem_append_left _ (List.mem_append_right _ (List.mem_flatMap.mpr ⟨w, hw, ?_⟩))
  exact Option.mem_toList.mpr (Worker.job_of_written (Option.mem_toList.mp hj))

/-- Publishing a job ends it. -/
theorem publish_inv {k : Nat} (hp : Inv sh p hs snd)
    (hk : p.workers[k]? = some (.copied job)) (hdone : p.fillDone job = some p') :
    Inv sh { p' with workers := p'.workers.set k .idle } hs snd := by
  let rest : Pager := { p with workers := p.workers.set k .idle }
  have hjobs : (snd ++ p.jobs).Perm (job :: (snd ++ rest.jobs)) := by
    have hbefore := Lib.flatMap_perm_share (fun w : Worker => w.job.toList) hk
    have hafter := Lib.flatMap_set_perm (fun w : Worker => w.job.toList) hk .idle
    refine List.perm_iff_count.mpr fun j => ?_
    have hb := hbefore.count_eq j
    have ha := hafter.count_eq j
    simp only [rest, jobs, Worker.job, Option.toList, List.count_append, List.count_cons,
      List.count_nil] at hb ha ⊢
    omega
  have hw : job ∈ p.written :=
    List.mem_flatMap.mpr ⟨_, List.mem_of_getElem? hk, List.mem_singleton.mpr rfl⟩
  have hws : ∀ j ∈ rest.written, j ∈ p.written ∧ j ∈ snd ++ rest.jobs := by
    intro j hm
    refine ⟨?_, List.mem_append_right _ (written_subset_jobs rest hm)⟩
    rcases Lib.mem_flatMap_set hm with hnew | hold
    · cases hnew
    · exact hold
  obtain ⟨c, rfl, hc, hf⟩ := fillDone_inv hp.cache
    (hp.fetching.perm (.refl _) hjobs fun _ hm => hm) hw hws hdone
  exact ⟨hc, hf⟩

/-- **Step lemma of the workers**: no step of a worker, its death included,
breaks the invariant. -/
theorem workerStep_inv {k : Nat} {a : WorkerAction} (hp : Inv sh p hs snd)
    (hstep : p.workerStep k a = some p') : Inv sh p' hs snd := by
  obtain ⟨w, hk, hstep⟩ := Option.bind_eq_some_iff.mp hstep
  cases a with
  | start =>
      cases w <;> cases hstep
      exact hp.setWorker hk rfl nofun
  | take =>
      cases w <;> try cases hstep
      cases hq : p.queue with
      | nil => rw [hq] at hstep; cases hstep
      | cons job rest =>
          rw [hq] at hstep
          cases hstep
          exact take_inv hp hk hq
  | copy =>
      cases w <;> cases hstep
      exact copy_inv hp hk
  | sync =>
      cases w <;> cases hstep
      exact hp.setWorker hk rfl fun j hj => hj
  | publish =>
      cases w <;> try cases hstep
      obtain ⟨q, hdone, hstep⟩ := Option.bind_eq_some_iff.mp hstep
      cases hstep
      exact publish_inv hp hk hdone
  | die =>
      cases w <;> cases hstep
      all_goals exact closeChannel_inv (hp.setWorker hk rfl fun _ => Worker.written_of_dead)

/-- Filling one slot leaves the filled ones filled. -/
theorem ready_fill {fill : Nat → Fill} {slot i : Nat} (hr : fill i = .ready) :
    Function.update fill slot .ready i = .ready := by
  by_cases hi : i = slot
  · rw [hi, Function.update_self]
  · rw [Function.update_of_ne hi]
    exact hr

theorem closeChannel_eq : p.closeChannel =
    { p with queue := p.closeChannel.queue, dropped := p.closeChannel.dropped } := by
  unfold closeChannel
  split <;> rfl

/-- What a worker's step leaves alone. -/
theorem workerStep_frame {k : Nat} {a : WorkerAction} (hstep : p.workerStep k a = some p') :
    p'.numLayers = p.numLayers ∧ p'.expertsPerLayer = p.expertsPerLayer ∧
      ∀ i, p.fill i = .ready → p'.fill i = .ready := by
  obtain ⟨w, hk, hstep⟩ := Option.bind_eq_some_iff.mp hstep
  cases a with
  | start | copy | sync =>
      cases w <;> cases hstep
      exact ⟨rfl, rfl, fun _ hr => hr⟩
  | take =>
      cases w <;> try cases hstep
      cases hq : p.queue with
      | nil => rw [hq] at hstep; cases hstep
      | cons job rest =>
          rw [hq] at hstep
          cases hstep
          exact ⟨rfl, rfl, fun _ hr => hr⟩
  | publish =>
      cases w <;> try cases hstep
      obtain ⟨q, hdone, hstep⟩ := Option.bind_eq_some_iff.mp hstep
      cases hstep
      obtain ⟨c, -, hdone⟩ := Option.bind_eq_some_iff.mp hdone
      obtain ⟨c', -, hdone⟩ := Option.bind_eq_some_iff.mp hdone
      cases hdone
      exact ⟨rfl, rfl, fun _ => ready_fill⟩
  | die =>
      cases w <;> cases hstep
      all_goals
        rw [closeChannel_eq]
        exact ⟨rfl, rfl, fun _ hr => hr⟩

/-- Workers evict nobody. -/
theorem workerStep_ids {k : Nat} {a : WorkerAction} (hc : ExpertCache.Inv sh p.cache)
    (hstep : p.workerStep k a = some p') (i : Nat) :
    (p'.cache.view i).id = (p.cache.view i).id := by
  obtain ⟨w, -, hstep⟩ := Option.bind_eq_some_iff.mp hstep
  cases a with
  | start | copy | sync =>
      cases w <;> cases hstep
      rfl
  | take =>
      cases w <;> try cases hstep
      cases hq : p.queue with
      | nil => rw [hq] at hstep; cases hstep
      | cons job rest =>
          rw [hq] at hstep
          cases hstep
          rfl
  | publish =>
      cases w <;> try cases hstep
      obtain ⟨q, hdone, hstep⟩ := Option.bind_eq_some_iff.mp hstep
      cases hstep
      obtain ⟨c, hpub, hdone⟩ := Option.bind_eq_some_iff.mp hdone
      obtain ⟨c', hrel, hdone⟩ := Option.bind_eq_some_iff.mp hdone
      cases hdone
      obtain ⟨hc₁, -, hview⟩ := ExpertCache.publish_spec hc hpub
      split at hrel
      · obtain ⟨-, -, hview'⟩ := ExpertCache.release_spec hc₁ hrel
        rw [hview', hview, SlotTable.unpin_id, SlotTable.publish_id]
      · cases hrel
        rw [hview, SlotTable.publish_id]
  | die =>
      cases w <;> cases hstep
      all_goals
        rw [closeChannel_eq]

end Pager

end LlmPager
