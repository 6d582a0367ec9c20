import LlmPager.Cuda.PagerInv

/-!
# LlmPager.Cuda.Ownership

Slot ownership under concurrency: any number of callers, any number of
workers, any interleaving, workers dying wherever they like.

`Clients.Inv` instantiates the pager's invariant with the handles of the
system's calls and callers, and adds what a returned `wait` established. From
it `Clients.reachable_owned` reads off that a waited handle's slot holds the
handle's expert, and that nothing is on its way to overwrite it.
-/

namespace LlmPager

namespace Call

/-- The experts a call still has to acquire. -/
def todo : Call → List Nat
  | request _ todo _ _ => todo
  | prefetch _ todo _ => todo

end Call

namespace Clients

/-- The jobs that calls are about to send. -/
def sending (s : Clients) : List Job := s.calls.flatMap (·.sending.toList)

structure Inv (sh : Shape) (s : Clients) : Prop where
  pager : Pager.Inv sh s.pager s.handles s.sending
  /-- A `wait` returned, so the slot was filled; it stays so. -/
  waited : ∀ h ∈ s.waited, s.pager.fill h.slot = .ready
  /-- Calls name experts of the pack. -/
  named : ∀ call ∈ s.calls, ∀ e ∈ call.todo, e < s.pager.expertsPerLayer

variable {sh : Shape} {s s' : Clients} {i : Nat}

theorem waited_handles {h : ExpertHandle} (hm : h ∈ s.waited) : h ∈ s.handles :=
  List.mem_append_left _ (List.mem_append_right _ hm)

/-- The experts left to the calls after call `i` has moved on. -/
theorem Inv.named_set {call : Call} (h : Inv sh s) (hi : s.calls[i]? = some call)
    (call' : Call) (htodo : call'.todo ⊆ call.todo) :
    ∀ c ∈ s.calls.set i call', ∀ e ∈ c.todo, e < s.pager.expertsPerLayer := by
  intro c hc e he
  rcases List.mem_or_eq_of_mem_set hc with hold | rfl
  · exact h.named c hold e he
  · exact h.named call (List.mem_of_getElem? hi) e (htodo he)

theorem Inv.named_erase (h : Inv sh s) (i : Nat) :
    ∀ c ∈ s.calls.eraseIdx i, ∀ e ∈ c.todo, e < s.pager.expertsPerLayer :=
  fun c hc => h.named c (List.mem_of_mem_eraseIdx hc)

/-- The handles of the system when only those of the calls change. -/
theorem handles_perm {p : Pager} {calls : List Call} (new : List ExpertHandle)
    (hc : (new ++ s.calls.flatMap Call.handles).Perm (calls.flatMap Call.handles)) :
    (new ++ s.handles).Perm { s with pager := p, calls := calls }.handles := by
  simpa only [handles, List.append_assoc] using
    hc.append_right (s.held ++ (s.waited ++ s.leaked))

/-! ### One lemma per action -/

theorem acquire_inv (h : Inv sh s) (hstep : s.acquire i = some s') : Inv sh s' := by
  obtain ⟨call, hi, hstep⟩ := Option.bind_eq_some_iff.mp hstep
  match call with
  | .request layer (expert :: todo) out none =>
      obtain ⟨⟨r, p⟩, htry, hstep⟩ := Option.bind_eq_some_iff.mp hstep
      have hlt := h.named _ (List.mem_of_getElem? hi) expert List.mem_cons_self
      obtain ⟨⟨c, fill, rfl, hkeep⟩, hcases⟩ := Pager.tryRequest_inv h.pager hlt htry
      have hwaited : ∀ w ∈ s.waited, fill w.slot = .ready :=
        fun w hm => hkeep w (waited_handles hm) (h.waited w hm)
      rcases hcases with ⟨slot, rfl, hinv⟩ | ⟨slot, rfl, hinv⟩ | ⟨rfl, hsame, -⟩
      · cases hstep
        refine ⟨hinv.perm (handles_perm [_] (Lib.flatMap_perm_gain _ hi ?_))
          (Lib.flatMap_perm_set hi rfl), hwaited, h.named_set hi _ (List.subset_cons_self _ _)⟩
        simp only [Call.handles, Option.map_none, Option.toList_none, List.append_nil]
        exact List.perm_append_singleton _ _
      · cases hstep
        refine ⟨hinv.perm (handles_perm [_] (Lib.flatMap_perm_gain _ hi ?_))
          (Lib.flatMap_perm_gain [_] hi (.refl _)), hwaited,
          h.named_set hi _ (List.subset_cons_self _ _)⟩
        simp only [Call.handles, Option.map_none, Option.toList_none, List.append_nil]
        exact List.perm_append_singleton _ _
      · rw [hsame] at hstep
        cases hstep
        exact h
  | .prefetch layer (expert :: todo) none =>
      obtain ⟨⟨r, p⟩, htry, hstep⟩ := Option.bind_eq_some_iff.mp hstep
      have hlt := h.named _ (List.mem_of_getElem? hi) expert List.mem_cons_self
      obtain ⟨⟨c, fill, rfl, hkeep⟩, hinv⟩ := Pager.tryPrefetch_inv h.pager hlt htry
      cases hstep
      refine ⟨hinv.perm (handles_perm [] (Lib.flatMap_perm_set hi rfl))
        (Lib.flatMap_perm_gain _ hi ?_),
        fun w hm => hkeep w (waited_handles hm) (h.waited w hm),
        h.named_set hi _ (List.subset_cons_self _ _)⟩
      simp only [Call.sending, Option.toList_none, List.append_nil]
      exact .refl _
  | .request _ [] _ _ | .request _ (_ :: _) _ (some _)
  | .prefetch _ [] _ | .prefetch _ (_ :: _) (some _) => cases hstep

/-- A request that gives up leaks what it had pinned. -/
theorem giveUp_inv (h : Inv sh s) (hstep : s.giveUp i = some s') : Inv sh s' := by
  obtain ⟨call, hi, hstep⟩ := Option.bind_eq_some_iff.mp hstep
  match call with
  | .request layer (expert :: todo) out none =>
      obtain ⟨wedged, -, hstep⟩ := Option.bind_eq_some_iff.mp hstep
      cases wedged <;> cases hstep
      have hshare := Lib.flatMap_perm_share Call.handles hi
      refine ⟨h.pager.perm (List.perm_iff_count.mpr fun x => ?_) ?_, h.waited, h.named_erase i⟩
      · have := hshare.count_eq x
        simp only [handles, Lib.others, Call.handles, Option.map_none, Option.toList_none,
          List.append_nil, List.count_append] at this ⊢
        omega
      · exact Lib.flatMap_perm_share _ hi
  | .request _ [] _ _ | .request _ (_ :: _) _ (some _) | .prefetch _ _ _ => cases hstep

theorem send_inv (h : Inv sh s) (hstep : s.send i = some s') : Inv sh s' := by
  obtain ⟨call, hi, hstep⟩ := Option.bind_eq_some_iff.mp hstep
  match call with
  | .request layer todo out (some job) =>
      have hshare := Lib.flatMap_perm_share Call.handles hi
      cases hsend : s.pager.send job with
      | some p =>
          simp only [hsend] at hstep
          cases hstep
          have hlost : s.sending.Perm (job ::
              (s.calls.set i (.request layer todo (out ++ [job.handle]) none)).flatMap
                (·.sending.toList)) :=
            Lib.flatMap_perm_lose [job] hi (.refl _)
          obtain ⟨rfl, hinv⟩ := Pager.send_inv (h.pager.perm (.refl _) hlost) hsend
          refine ⟨hinv.perm (handles_perm [] (Lib.flatMap_perm_set hi ?_)) (.refl _),
            h.waited, h.named_set hi _ (List.Subset.refl _)⟩
          simp only [Call.handles, Option.map_some, Option.map_none, Option.toList_some,
            Option.toList_none, List.append_nil]
      | none =>
          simp only [hsend] at hstep
          cases hstep
          have hinv := Pager.sendFailed_inv (h.pager.perm (.refl _) (Lib.flatMap_perm_share _ hi))
          refine ⟨hinv.perm (List.perm_iff_count.mpr fun x => ?_) (.refl _), h.waited,
            h.named_erase i⟩
          have := hshare.count_eq x
          simp only [handles, Lib.others, Call.handles, Option.map_some, Option.toList_some,
            List.count_append] at this ⊢
          omega
  | .prefetch layer todo (some job) =>
      have hlost : s.sending.Perm (job ::
          (s.calls.set i (.prefetch layer todo none)).flatMap (·.sending.toList)) :=
        Lib.flatMap_perm_lose [job] hi (.refl _)
      have hhandles : s.handles.Perm
          { s with calls := s.calls.set i (.prefetch layer todo none) }.handles :=
        handles_perm [] (Lib.flatMap_perm_set hi rfl)
      cases hsend : s.pager.send job with
      | some p =>
          simp only [hsend] at hstep
          cases hstep
          obtain ⟨rfl, hinv⟩ := Pager.send_inv (h.pager.perm (.refl _) hlost) hsend
          exact ⟨hinv.perm hhandles (.refl _), h.waited, h.named_set hi _ (List.Subset.refl _)⟩
      | none =>
          simp only [hsend] at hstep
          cases hstep
          have hinv := Pager.sendFailed_inv (h.pager.perm (.refl _) hlost)
          exact ⟨hinv.perm hhandles (.refl _), h.waited, h.named_set hi _ (List.Subset.refl _)⟩
  | .request _ _ _ none | .prefetch _ _ none => cases hstep

theorem ret_inv (h : Inv sh s) (hstep : s.ret i = some s') : Inv sh s' := by
  obtain ⟨call, hi, hstep⟩ := Option.bind_eq_some_iff.mp hstep
  match call with
  | .request layer [] out none =>
      cases hstep
      have hshare := Lib.flatMap_perm_share Call.handles hi
      refine ⟨h.pager.perm (List.perm_iff_count.mpr fun x => ?_) ?_, h.waited, h.named_erase i⟩
      · have := hshare.count_eq x
        simp only [handles, Lib.others, Call.handles, Option.map_none, Option.toList_none,
          List.append_nil, List.count_append] at this ⊢
        omega
      · exact Lib.flatMap_perm_share _ hi
  | .prefetch layer [] none =>
      cases hstep
      exact ⟨h.pager.perm (handles_perm [] (Lib.flatMap_perm_share _ hi))
        (Lib.flatMap_perm_share _ hi), h.waited, h.named_erase i⟩
  | .request _ (_ :: _) _ _ | .request _ [] _ (some _)
  | .prefetch _ (_ :: _) _ | .prefetch _ [] (some _) => cases hstep

/-- **Step lemma**: whatever a caller or a worker does, the invariant stays. -/
theorem Inv.step {a : Action} (h : Inv sh s) (hstep : s.step a = some s') : Inv sh s' := by
  cases a with
  | callRequest layer experts =>
      obtain ⟨capacity, -, hstep⟩ := Option.bind_eq_some_iff.mp hstep
      by_cases hnamed : Named s.pager layer experts
      · rw [if_neg (not_not_intro hnamed)] at hstep
        split at hstep <;> cases hstep
        · exact h
        · refine ⟨h.pager.perm ?_ ?_, h.waited, fun c hc => ?_⟩
          · simp [handles, Call.handles]
          · simp [sending, Call.sending]
          · rcases List.mem_append.mp hc with hold | hnew
            · exact h.named c hold
            · rw [List.mem_singleton.mp hnew]
              exact hnamed.2
      · rw [if_pos hnamed] at hstep
        cases hstep
  | callPrefetch layer experts =>
      by_cases hnamed : Named s.pager layer experts
      · rw [Clients.step, if_pos hnamed] at hstep
        cases hstep
        refine ⟨h.pager.perm ?_ ?_, h.waited, fun c hc => ?_⟩
        · simp [handles, Call.handles]
        · simp [sending, Call.sending]
        · rcases List.mem_append.mp hc with hold | hnew
          · exact h.named c hold
          · rw [List.mem_singleton.mp hnew]
            exact hnamed.2
      · rw [Clients.step, if_neg hnamed] at hstep
        cases hstep
  | acquire i => exact acquire_inv h hstep
  | giveUp i => exact giveUp_inv h hstep
  | send i => exact send_inv h hstep
  | ret i => exact ret_inv h hstep
  | wait w =>
      by_cases hw : w ∈ s.held ∧ s.pager.fill w.slot = .ready
      · rw [Clients.step, if_pos hw] at hstep
        cases hstep
        refine ⟨h.pager.perm (List.perm_iff_count.mpr fun x => ?_) (.refl _),
          List.forall_mem_cons.mpr ⟨hw.2, h.waited⟩, h.named⟩
        have := (List.perm_cons_erase hw.1).count_eq x
        simp only [handles, List.count_append, List.count_cons] at this ⊢
        omega
      · rw [Clients.step, if_neg hw] at hstep
        cases hstep
  | release w =>
      by_cases hw : w ∈ s.waited
      · rw [Clients.step, if_pos hw] at hstep
        obtain ⟨p, hrel, hstep⟩ := Option.bind_eq_some_iff.mp hstep
        cases hstep
        have hperm : s.handles.Perm (w :: { s with waited := s.waited.erase w }.handles) := by
          refine List.perm_iff_count.mpr fun x => ?_
          have := (List.perm_cons_erase hw).count_eq x
          simp only [handles, List.count_append, List.count_cons] at this ⊢
          omega
        obtain ⟨⟨c, rfl⟩, hinv⟩ :=
          Pager.release_inv (h.pager.perm hperm (.refl _)) (h.waited w hw) hrel
        exact ⟨hinv, fun x hx => h.waited x (List.mem_of_mem_erase hx), h.named⟩
      · rw [Clients.step, if_neg hw] at hstep
        cases hstep
  | tick =>
      cases hstep
      refine ⟨Pager.tick_inv h.pager, fun w hw => ?_, fun c hc e he => ?_⟩
      · rw [Pager.tick_eq]
        exact h.waited w hw
      · rw [Pager.tick_eq]
        exact h.named c hc e he
  | worker k a =>
      obtain ⟨p, hwork, hstep⟩ := Option.bind_eq_some_iff.mp hstep
      cases hstep
      obtain ⟨-, hepl, hready⟩ := Pager.workerStep_frame hwork
      refine ⟨Pager.workerStep_inv h.pager hwork, fun w hw => hready _ (h.waited w hw), ?_⟩
      rw [hepl]
      exact h.named

theorem Inv.init {cfg : PagerConfig} (hs : (system cfg).init s) : Inv (Pager.shape cfg) s := by
  obtain ⟨pager, calls, held, waited, leaked⟩ := s
  obtain ⟨hnew, rfl, rfl, rfl, rfl⟩ := hs
  exact ⟨Pager.new_inv hnew, nofun, nofun⟩

/-- The invariant holds in every interleaving. -/
theorem reachable_inv {cfg : PagerConfig} {C : Clients → Action → Prop}
    (h : (system cfg).Reachable C s) : Inv (Pager.shape cfg) s :=
  h.invariant (fun _ => Inv.init) fun _ _ _ hinv _ hstep => hinv.step hstep

/-! ### Ownership -/

theorem mem_jobs_of_running {w : Worker} {j : Job} (hw : w ∈ s.pager.workers)
    (hj : w.running = some j) : j ∈ s.sending ++ s.pager.jobs := by
  refine List.mem_append_right _ (Pager.written_subset_jobs _ (List.mem_flatMap.mpr ⟨w, hw, ?_⟩))
  refine Option.mem_toList.mpr ?_
  cases w with
  | copied => cases hj
  | starting | idle | fetching | copying | dead => exact hj

/-- **Slot ownership.** From the moment a `wait` on a handle returns until the
handle is released, its slot holds the handle's expert: the last copy into it
was of that expert, no copy into it is running, and none is on its way. The
shadow array says `Ready` exactly where the cache does. -/
theorem reachable_owned {cfg : PagerConfig} (hs : (system cfg).Reachable Lib.System.anyStep s) :
    (∀ h ∈ s.waited,
      s.pager.device h.slot = some (h.layer, h.expert) ∧
      (∀ w ∈ s.pager.workers, ∀ j, w.running = some j → j.slot ≠ h.slot) ∧
      ∀ j ∈ s.jobs, j.slot ≠ h.slot) ∧
    ∀ slot st, s.pager.cache.slots[slot]? = some st →
      (s.pager.fill slot = .ready ↔ st.ready = true) := by
  obtain ⟨hp, hwaited, -⟩ := reachable_inv hs
  refine ⟨fun h hm => ?_, fun slot st hst => ?_⟩
  · have hready := hwaited h hm
    refine ⟨hp.fetching.handle_loaded (waited_handles hm) hready, fun w hw j hj => ?_,
      fun j hj => hp.fetching.ne_of_ready hready hj⟩
    exact hp.fetching.ne_of_ready hready (mem_jobs_of_running hw hj)
  · rw [hp.fetching.ready slot, ExpertCache.view_eq hst]
    rfl

/-- One layer of one slot, two workers; an expert requested, fetched and waited
for. -/
theorem reachable_owned_one_fetch :
    ∃ s : Clients, s.waited = [⟨0, 1, 0⟩] ∧ s.pager.device 0 = some (0, 1) := by
  let cfg : PagerConfig := ⟨1, 2, 1, 64, 2, false, 4⟩
  have hinit : (system cfg).init ⟨(Pager.new cfg).get rfl, [], [], [], []⟩ :=
    ⟨rfl, rfl, rfl, rfl, rfl⟩
  obtain ⟨s, hs, hwaited⟩ := Lib.System.exists_reachable step
    [.worker 1 .start, .callRequest 0 [1], .acquire 0, .send 0, .ret 0, .worker 1 .take,
      .worker 1 .copy, .worker 1 .sync, .worker 1 .publish, .wait ⟨0, 1, 0⟩]
    (fun s => decide (s.waited = [⟨0, 1, 0⟩])) hinit (fun _ _ _ => trivial) (by decide)
  have hwaited := of_decide_eq_true hwaited
  have howned := (reachable_owned hs).1 ⟨0, 1, 0⟩ (by rw [hwaited]; exact List.mem_cons_self)
  exact ⟨s, hwaited, howned.1⟩

end Clients

end LlmPager
