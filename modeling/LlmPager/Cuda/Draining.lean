import LlmPager.Cuda.LostFetch

/-!
# LlmPager.Cuda.Draining

The workers on their own: what they have left to do when nobody calls.

`Pager.Move` lists what one step of a worker does, so that what every step
keeps is one case analysis. While no job was lost and one is on its way, some
worker has a step to take (`Pager.exists_workerStep`), and it leaves less
to do.
-/

namespace LlmPager

/-- The steps a worker has before it is back in `recv`. -/
def Worker.work : Worker → Nat
  | .starting | .copied _ => 1
  | .idle | .dead _ _ => 0
  | .fetching _ => 3
  | .copying _ => 2

namespace Pager

variable {sh : Shape} {p p' : Pager} {hs : List ExpertHandle} {k : Nat}

/-- The steps the workers have before everything queued is filled. -/
def work (p : Pager) : Nat := 4 * p.queue.length + (p.workers.map Worker.work).sum

/-- What a step of worker `k` does, one constructor for each action. -/
inductive Move (p : Pager) (k : Nat) : WorkerAction → Pager → Prop
  | start (hk : p.workers[k]? = some .starting) :
      Move p k .start { p with workers := p.workers.set k .idle }
  | take {job : Job} {rest : List Job} (hk : p.workers[k]? = some .idle)
      (hq : p.queue = job :: rest) :
      Move p k .take { p with queue := rest, workers := p.workers.set k (.fetching job) }
  | copy {job : Job} (hk : p.workers[k]? = some (.fetching job)) :
      Move p k .copy { p with
        workers := p.workers.set k (.copying job)
        device := Function.update p.device job.slot (some (job.layer, job.expert)) }
  | sync {job : Job} (hk : p.workers[k]? = some (.copying job)) :
      Move p k .sync { p with workers := p.workers.set k (.copied job) }
  | publish {job : Job} {cache : ExpertCache} (hk : p.workers[k]? = some (.copied job))
      (hdone : p.fillDone job =
        some { p with cache := cache, fill := Function.update p.fill job.slot .ready }) :
      Move p k .publish { p with
        cache := cache, fill := Function.update p.fill job.slot .ready
        workers := p.workers.set k .idle }
  | die {w : Worker} (hk : p.workers[k]? = some w) (halive : w.alive = true) :
      Move p k .die
        (closeChannel { p with workers := p.workers.set k (.dead w.job w.running.isSome) })

theorem workerStep_move {a : WorkerAction} (hstep : p.workerStep k a = some p') :
    p.Move k a p' := by
  obtain ⟨w, hk, hstep⟩ := Option.bind_eq_some_iff.mp hstep
  cases a with
  | start =>
      cases w <;> cases hstep
      exact .start hk
  | take =>
      cases w <;> try cases hstep
      cases hq : p.queue with
      | nil => rw [hq] at hstep; cases hstep
      | cons job rest =>
          rw [hq] at hstep
          cases hstep
          exact .take hk hq
  | copy =>
      cases w <;> cases hstep
      exact .copy hk
  | sync =>
      cases w <;> cases hstep
      exact .sync hk
  | publish =>
      cases w <;> try cases hstep
      obtain ⟨q, hdone, hstep⟩ := Option.bind_eq_some_iff.mp hstep
      cases hstep
      obtain ⟨c, -, hfill⟩ := Option.bind_eq_some_iff.mp hdone
      obtain ⟨c', -, hfill⟩ := Option.bind_eq_some_iff.mp hfill
      cases hfill
      exact .publish hk hdone
  | die =>
      cases w <;> cases hstep
      all_goals exact .die hk rfl

/-- A worker makes no job. -/
theorem workerStep_jobs {a : WorkerAction} (hstep : p.workerStep k a = some p') :
    p'.jobs ⊆ p.jobs := by
  -- the jobs of the workers, when worker `k` goes on with a job it had
  have hset : ∀ {w : Worker}, p.workers[k]? = some w → ∀ w' : Worker,
      w'.job.toList ⊆ w.job.toList →
      (p.workers.set k w').flatMap (·.job.toList) ⊆ p.workers.flatMap (·.job.toList) := by
    intro w hk w' hjob j hj
    rcases Lib.mem_flatMap_set hj with hnew | hold
    · exact List.mem_flatMap.mpr ⟨w, List.mem_of_getElem? hk, hjob hnew⟩
    · exact hold
  intro j hj
  cases workerStep_move hstep with
  | start hk | copy hk | sync hk | publish hk hdone =>
      simp only [jobs, List.mem_append] at hj ⊢
      exact hj.imp_left (.imp_right fun h => hset hk _ (by simp [Worker.job]) h)
  | take hk hq =>
      simp only [jobs, List.mem_append] at hj ⊢
      rcases hj with (hj | hj) | hj
      · rw [hq]
        exact .inl (.inl (List.mem_cons_of_mem _ hj))
      · rcases Lib.mem_flatMap_set hj with hnew | hold
        · simp [Worker.job] at hnew
          simp [hq, hnew]
        · exact .inl (.inr hold)
      · exact .inr hj
  | die hk halive =>
      rename_i w
      have hsub := hset hk (.dead w.job w.running.isSome) (by simp [Worker.job])
      rw [closeChannel] at hj
      split at hj
      · simp only [jobs, List.mem_append] at hj ⊢
        exact hj.imp_left (.imp_right fun h => hsub h)
      · simp only [jobs, List.not_mem_nil, false_or, List.mem_append] at hj ⊢
        tauto

/-- A step other than a death leaves the same workers alive. -/
theorem workerStep_alive {a : WorkerAction} (ha : a ≠ .die) (hstep : p.workerStep k a = some p') :
    p'.workers.map Worker.alive = p.workers.map Worker.alive := by
  -- worker `k` goes from one place in its loop to another
  have hset : ∀ {w : Worker}, p.workers[k]? = some w → w.alive = true → ∀ w' : Worker,
      w'.alive = true → (p.workers.set k w').map Worker.alive = p.workers.map Worker.alive := by
    intro w hk hw w' hw'
    apply List.ext_getElem?
    intro i
    by_cases hi : k = i
    · subst hi
      have hlt := (List.getElem?_eq_some_iff.mp hk).1
      rw [List.getElem?_map, List.getElem?_map, List.getElem?_set_self hlt, hk, Option.map_some,
        Option.map_some, hw, hw']
    · simp [List.getElem?_set_ne hi]
  cases workerStep_move hstep with
  | start hk | take hk hq | copy hk | sync hk | publish hk hdone => exact hset hk rfl _ rfl
  | die hk halive => exact absurd rfl ha

/-- The work of one worker, in the sum. -/
theorem sum_work_set {ws : List Worker} {w : Worker} (w' : Worker) (hk : ws[k]? = some w) :
    ((ws.set k w').map Worker.work).sum + w.work = (ws.map Worker.work).sum + w'.work := by
  induction ws generalizing k with
  | nil => cases hk
  | cons v ws ih =>
      cases k with
      | zero =>
          cases hk
          simp only [List.set_cons_zero, List.map_cons, List.sum_cons]
          omega
      | succ k =>
          have hrest := ih (k := k) (by simpa using hk)
          simp only [List.set_cons_succ, List.map_cons, List.sum_cons]
          omega

/-- A step of worker `k` that comes nearer the end. -/
theorem work_lt {w : Worker} (w' : Worker) (hk : p.workers[k]? = some w)
    (hworkers : p'.workers = p.workers.set k w')
    (hlt : 4 * p'.queue.length + w'.work < 4 * p.queue.length + w.work) : p'.work < p.work := by
  have hsum := sum_work_set w' hk
  rw [work, work, hworkers]
  omega

/-- A worker that has filled its job's slot can publish it. -/
theorem exists_fillDone {job : Job} (hp : Inv sh p hs []) (hj : job ∈ p.jobs) :
    ∃ c, p.fillDone job =
      some { p with cache := c, fill := Function.update p.fill job.slot .ready } := by
  have hpinned := hp.fetching.job_pinned hj
  obtain ⟨c, hpub⟩ := ExpertCache.exists_publish (ExpertCache.lt_of_view_pins hpinned)
  obtain ⟨-, -, hview⟩ := ExpertCache.publish_spec hp.cache hpub
  cases hflag : job.releaseAfterFill with
  | false =>
      refine ⟨c, ?_⟩
      simp [fillDone, hpub, hflag]
  | true =>
      have hpins : 0 < (c.view job.slot).pins := by
        rw [hview, SlotTable.publish_pins]
        exact hpinned
      obtain ⟨c', hrel⟩ := ExpertCache.exists_release hpins
      refine ⟨c', ?_⟩
      simp [fillDone, hpub, hflag, hrel]

/-- While no job was lost, some worker has a step to take, and it brings the queue
nearer its end. -/
theorem exists_workerStep (hp : Inv sh p hs []) (hsound : Clients.Sound p) (hjobs : p.jobs ≠ []) :
    ∃ k a p', a ≠ .die ∧ p.workerStep k a = some p' ∧ p'.work < p.work := by
  by_cases hbusy : ∃ w ∈ p.workers, w.job ≠ none
  · obtain ⟨w, hw, hjob⟩ := hbusy
    obtain ⟨k, hk⟩ := List.getElem?_of_mem hw
    cases w with
    | starting | idle => exact absurd rfl hjob
    | fetching job =>
        let device := Function.update p.device job.slot (some (job.layer, job.expert))
        refine ⟨k, .copy, { p with workers := p.workers.set k (.copying job), device },
          by decide, ?_, work_lt (.copying job) hk rfl (by simp [Worker.work])⟩
        rw [workerStep, hk]
        rfl
    | copying job =>
        refine ⟨k, .sync, { p with workers := p.workers.set k (.copied job) },
          by decide, ?_, work_lt (.copied job) hk rfl (by simp [Worker.work])⟩
        rw [workerStep, hk]
        rfl
    | copied job =>
        have hmem : job ∈ p.jobs := by
          simp only [jobs, List.mem_append, List.mem_flatMap]
          exact .inl (.inr ⟨_, hw, by simp [Worker.job]⟩)
        obtain ⟨c, hdone⟩ := exists_fillDone hp hmem
        let fill := Function.update p.fill job.slot .ready
        refine ⟨k, .publish, { p with cache := c, fill, workers := p.workers.set k .idle },
          by decide, ?_, work_lt .idle hk rfl (by simp [Worker.work])⟩
        rw [workerStep, hk]
        exact congrArg (Option.bind · _) hdone
    | dead job copying =>
        exact absurd ((hsound.alive _ hw).resolve_left (by simp [Worker.alive])) hjob
  · -- everybody is free, so the job is queued
    have hnone : p.workers.flatMap (·.job.toList) = [] := by
      rw [List.flatMap_eq_nil_iff]
      intro w hw
      have hjob : w.job = none := by
        by_contra hne
        exact hbusy ⟨w, hw, hne⟩
      rw [hjob]
      rfl
    rw [jobs, hnone, hsound.dropped, List.append_nil, List.append_nil] at hjobs
    obtain ⟨job, rest, hq⟩ := List.exists_cons_of_ne_nil hjobs
    obtain ⟨w, hw, halive⟩ := List.any_eq_true.mp hsound.any_alive
    obtain ⟨k, hk⟩ := List.getElem?_of_mem hw
    cases w with
    | starting =>
        refine ⟨k, .start, { p with workers := p.workers.set k .idle },
          by decide, ?_, work_lt .idle hk rfl (by simp [Worker.work])⟩
        rw [workerStep, hk]
        rfl
    | idle =>
        refine ⟨k, .take, { p with queue := rest, workers := p.workers.set k (.fetching job) },
          by decide, ?_, work_lt (.fetching job) hk rfl ?_⟩
        · rw [workerStep, hk, hq]
          rfl
        · simp only [Worker.work, hq, List.length_cons]
          omega
    | fetching | copying | copied => exact absurd ⟨_, hw, by simp [Worker.job]⟩ hbusy
    | dead => cases halive

end Pager

end LlmPager
