import LlmPager.Cuda.Ownership

/-!
# LlmPager.Cuda.FailedRequest

What a `request` that returns an error leaves behind.

The capacity check fails before anything is acquired. The deadlock diagnosis may
fail in the middle of the list: the handles acquired so far are dropped, and a
dropped handle keeps its pin. So the request has taken nothing exactly when it
had acquired nothing (`reachable_failed_request`).
-/

namespace LlmPager

namespace Clients

/-- The pins of a slot that the other calls, the callers and the prefetches on
their way account for. -/
def pinsBesides (s : Clients) (i slot : Nat) : Nat :=
  (grantsOf s.pager.expertsPerLayer
    (Lib.others Call.handles s.calls i ++ s.held ++ s.waited ++ s.leaked)
    (s.sending ++ s.pager.jobs)).countP (·.slot = slot)

/-- In `s'` no pin is due to call `i` of `s`. -/
def TookNothing (s : Clients) (i : Nat) (s' : Clients) : Prop :=
  ∀ slot, (s'.pager.cache.view slot).pins = s.pinsBesides i slot

/-- The pins of a slot that calls under way, handles in use and prefetches on
their way account for. -/
def pinsInUse (s : Clients) (slot : Nat) : Nat :=
  (grantsOf s.pager.expertsPerLayer (s.calls.flatMap Call.handles ++ s.held ++ s.waited)
    (s.sending ++ s.pager.jobs)).countP (·.slot = slot)

/-- A request that gives up has acquired nothing, and a job is sent to a worker
that lives. -/
def EmptyHanded (s : Clients) : Action → Prop
  | .giveUp i => ∀ call, s.calls[i]? = some call → call.handles = []
  | .send _ => s.pager.workers.any Worker.alive = true
  | _ => True

variable {cfg : PagerConfig} {s s' : Clients} {i : Nat} {call : Call} {a : Action}

/-- What giving up does. -/
theorem giveUp_eq (hi : s.calls[i]? = some call) (hstep : s.giveUp i = some s') :
    call.sending = none ∧
      s' = { s with calls := s.calls.eraseIdx i, leaked := call.handles ++ s.leaked } := by
  obtain ⟨call', hi', hstep⟩ := Option.bind_eq_some_iff.mp hstep
  obtain rfl : call = call' := Option.some.inj (hi.symm.trans hi')
  match call with
  | .request layer (expert :: todo) out none =>
      obtain ⟨wedged, -, hstep⟩ := Option.bind_eq_some_iff.mp hstep
      cases wedged <;> cases hstep
      exact ⟨rfl, by simp [Call.handles]⟩
  | .request _ [] _ _ | .request _ (_ :: _) _ (some _) | .prefetch _ _ _ => cases hstep

theorem countP_grantsOf_append (epl : Nat) (hs hs' : List ExpertHandle) (js : List Job)
    (slot : Nat) :
    (grantsOf epl (hs ++ hs') js).countP (·.slot = slot) =
      (grantsOf epl hs js).countP (·.slot = slot) + hs'.countP (·.slot = slot) := by
  have hgrant : ∀ hs' : List ExpertHandle, (hs'.map (ExpertHandle.grant epl)).countP
      (fun g => decide (g.slot = slot)) = hs'.countP (·.slot = slot) := by
    intro hs'
    rw [List.countP_map]
    rfl
  simp only [grantsOf, List.map_append, List.countP_append, hgrant]
  omega

/-- After a request gave up, the pins are those of the others and its own. -/
theorem giveUp_pins (h : Inv (Pager.shape cfg) s) (hi : s.calls[i]? = some call)
    (hstep : s.giveUp i = some s') (slot : Nat) :
    (s'.pager.cache.view slot).pins = s.pinsBesides i slot + call.handles.countP (·.slot = slot) := by
  have hinv := giveUp_inv h hstep
  obtain ⟨hsending, rfl⟩ := giveUp_eq hi hstep
  have hjobs : s.sending.Perm (({ s with
      calls := s.calls.eraseIdx i, leaked := call.handles ++ s.leaked } : Clients).sending) := by
    have hshare := Lib.flatMap_perm_share (fun c : Call => c.sending.toList) hi
    rw [hsending] at hshare
    exact hshare
  rw [hinv.pager.fetching.accounts.pins slot, pinsBesides, ← countP_grantsOf_append]
  refine List.Perm.countP_eq _ (List.Perm.append ?_ ?_)
  · refine (List.perm_iff_count.mpr fun x => ?_).map _
    simp only [handles, Lib.others, List.count_append]
    omega
  · exact ((hjobs.symm.append_right _).filter _).map _

/-- A request that gives up has taken nothing exactly when it had acquired
nothing. -/
theorem tookNothing_iff (h : Inv (Pager.shape cfg) s) (hi : s.calls[i]? = some call)
    (hstep : s.giveUp i = some s') : TookNothing s i s' ↔ call.handles = [] := by
  constructor
  · intro hnothing
    rw [List.eq_nil_iff_forall_not_mem]
    intro x hx
    have hpins := giveUp_pins h hi hstep x.slot
    have hpos : 0 < call.handles.countP (·.slot = x.slot) :=
      List.countP_pos_iff.mpr ⟨x, hx, by simp⟩
    rw [hnothing x.slot] at hpins
    omega
  · intro hnil slot
    rw [giveUp_pins h hi hstep slot, hnil]
    rfl

theorem EmptyHanded.leaked (h : s.leaked = []) (ha : EmptyHanded s a)
    (hstep : s.step a = some s') : s'.leaked = [] := by
  cases a with
  | callRequest layer experts =>
      obtain ⟨capacity, -, hstep⟩ := Option.bind_eq_some_iff.mp hstep
      split at hstep
      · cases hstep
      · split at hstep <;> cases hstep <;> exact h
  | callPrefetch layer experts =>
      by_cases hnamed : Named s.pager layer experts
      · rw [Clients.step, if_pos hnamed] at hstep
        cases hstep
        exact h
      · rw [Clients.step, if_neg hnamed] at hstep
        cases hstep
  | acquire i =>
      obtain ⟨call, -, hstep⟩ := Option.bind_eq_some_iff.mp hstep
      rcases call with ⟨layer, _ | ⟨expert, todo⟩, out, _ | job⟩ |
        ⟨layer, _ | ⟨expert, todo⟩, _ | job⟩
      case request.cons.none =>
          obtain ⟨⟨r, p⟩, -, hstep⟩ := Option.bind_eq_some_iff.mp hstep
          cases r <;> cases hstep <;> exact h
      case prefetch.cons.none =>
          obtain ⟨⟨r, p⟩, -, hstep⟩ := Option.bind_eq_some_iff.mp hstep
          cases hstep
          exact h
      all_goals cases hstep
  | giveUp i =>
      obtain ⟨call, hi, -⟩ := Option.bind_eq_some_iff.mp hstep
      obtain ⟨-, rfl⟩ := giveUp_eq hi hstep
      show call.handles ++ s.leaked = []
      rw [ha call hi, h]
      rfl
  | send i =>
      have hsend : ∀ job, s.pager.send job = some { s.pager with queue := s.pager.queue ++ [job] } :=
        fun job => if_pos ha
      obtain ⟨call, -, hstep⟩ := Option.bind_eq_some_iff.mp hstep
      rcases call with ⟨layer, todo, out, _ | job⟩ | ⟨layer, todo, _ | job⟩
      case request.some | prefetch.some =>
          simp only [hsend job] at hstep
          cases hstep
          exact h
      all_goals cases hstep
  | ret i =>
      obtain ⟨call, -, hstep⟩ := Option.bind_eq_some_iff.mp hstep
      rcases call with ⟨layer, _ | ⟨expert, todo⟩, out, _ | job⟩ |
        ⟨layer, _ | ⟨expert, todo⟩, _ | job⟩
      all_goals first
        | cases hstep; done
        | cases hstep; exact h
  | wait w =>
      by_cases hw : w ∈ s.held ∧ s.pager.fill w.slot = .ready
      · rw [Clients.step, if_pos hw] at hstep
        cases hstep
        exact h
      · rw [Clients.step, if_neg hw] at hstep
        cases hstep
  | release w =>
      by_cases hw : w ∈ s.waited
      · rw [Clients.step, if_pos hw] at hstep
        obtain ⟨p, -, hstep⟩ := Option.bind_eq_some_iff.mp hstep
        cases hstep
        exact h
      · rw [Clients.step, if_neg hw] at hstep
        cases hstep
  | tick =>
      cases hstep
      exact h
  | worker k a =>
      obtain ⟨p, -, hstep⟩ := Option.bind_eq_some_iff.mp hstep
      cases hstep
      exact h

theorem reachable_leaked (hs : (system cfg).Reachable EmptyHanded s) : s.leaked = [] := by
  have hinit : ∀ s, (system cfg).init s → s.leaked = [] := fun s h => h.2.2.2.2
  exact hs.invariant hinit fun s a s' hinv ha hstep => EmptyHanded.leaked hinv ha hstep

/-- **Failed requests.** In every reachable state, a request that fails its
capacity check changes nothing, and one that gives up has taken nothing exactly
when it had acquired nothing. In a run where every request that gives up has
acquired nothing, and the workers live to take what is sent, every pin is in use. -/
theorem reachable_failed_request (hs : (system cfg).Reachable Lib.System.anyStep s) :
    (∀ layer experts capacity s', s.pager.cache.slotsPerPartition = some capacity →
      capacity < experts.length → s.step (.callRequest layer experts) = some s' → s' = s) ∧
    (∀ i call s', s.calls[i]? = some call → s.step (.giveUp i) = some s' →
      (TookNothing s i s' ↔ call.handles = [])) ∧
    ((system cfg).Reachable EmptyHanded s →
      ∀ slot, (s.pager.cache.view slot).pins = s.pinsInUse slot) := by
  have hinv := reachable_inv hs
  refine ⟨?_, fun i call s' hi hstep => tookNothing_iff hinv hi hstep, fun hempty slot => ?_⟩
  · intro layer experts capacity s' hcapacity hlong hstep
    obtain ⟨capacity', hcapacity', hstep⟩ := Option.bind_eq_some_iff.mp hstep
    obtain rfl : capacity = capacity' := Option.some.inj (hcapacity.symm.trans hcapacity')
    split at hstep
    · cases hstep
    · cases hstep
      rfl
  · rw [hinv.pager.fetching.accounts.pins slot, pinsInUse, handles, reachable_leaked hempty,
      List.append_nil]

/-- A request for one expert of a slot that another request's handle pins gives
up with nothing in its hands. -/
theorem reachable_failed_request_one_slot :
    ∃ s s' : Clients, s.held = [⟨0, 0, 0⟩] ∧ s.step (.giveUp 0) = some s' ∧ TookNothing s 0 s' := by
  let cfg : PagerConfig := ⟨1, 2, 1, 64, 1, false, 4⟩
  have hinit : (system cfg).init ⟨(Pager.new cfg).get rfl, [], [], [], []⟩ :=
    ⟨rfl, rfl, rfl, rfl, rfl⟩
  obtain ⟨s, hs, hstate⟩ := Lib.System.exists_reachable (C := Lib.System.anyStep) step
    [.worker 0 .start, .callRequest 0 [0], .acquire 0, .send 0, .ret 0, .worker 0 .take,
      .worker 0 .copy, .worker 0 .sync, .worker 0 .publish, .callRequest 0 [1], .acquire 0]
    (fun s : Clients => decide (s.held = [⟨0, 0, 0⟩] ∧
        s.calls[0]? = some (Call.request 0 [1] [] none)) && (s.step (.giveUp 0)).isSome) hinit (fun _ _ _ => trivial) (by decide)
  simp only [Bool.and_eq_true, decide_eq_true_eq, Option.isSome_iff_exists] at hstate
  obtain ⟨⟨hheld, hcall⟩, s', hstep⟩ := hstate
  exact ⟨s, s', hheld, hstep, ((reachable_failed_request hs).2.1 0 _ s' hcall hstep).mpr rfl⟩

/-- Two experts requested while one of the two slots is held: the first takes the
free slot, the second finds both pinned, and the first one's pin is nobody's. -/
theorem failed_request_keeps_pin :
    ∃ s s' : Clients, (system ⟨1, 3, 2, 64, 1, false, 4⟩).Reachable Lib.System.anyStep s ∧
      s.held = [⟨0, 0, 0⟩] ∧ s.step (.giveUp 0) = some s' ∧ s'.calls = [] ∧ s'.jobs = [] ∧
      (s'.pager.cache.view 1).pins = 1 ∧ ¬TookNothing s 0 s' := by
  let cfg : PagerConfig := ⟨1, 3, 2, 64, 1, false, 4⟩
  have hinit : (system cfg).init ⟨(Pager.new cfg).get rfl, [], [], [], []⟩ :=
    ⟨rfl, rfl, rfl, rfl, rfl⟩
  obtain ⟨s, hs, hstate⟩ := Lib.System.exists_reachable step
    [.worker 0 .start, .callRequest 0 [0], .acquire 0, .send 0, .ret 0, .worker 0 .take,
      .worker 0 .copy, .worker 0 .sync, .worker 0 .publish, .callRequest 0 [1, 2], .acquire 0,
      .send 0, .worker 0 .take, .worker 0 .copy, .worker 0 .sync, .worker 0 .publish, .acquire 0]
    (fun s : Clients => decide (s.held = [⟨0, 0, 0⟩] ∧
        s.calls[0]? = some (Call.request 0 [2] [⟨0, 1, 1⟩] none)) &&
      (s.step (.giveUp 0)).any fun s' : Clients => decide (s'.calls = [] ∧ s'.jobs = [] ∧
        (s'.pager.cache.view 1).pins = 1)) hinit (fun _ _ _ => trivial) (by decide)
  simp only [Bool.and_eq_true, decide_eq_true_eq, Option.any_eq_true] at hstate
  obtain ⟨⟨hheld, hcall⟩, s', hstep, hcalls, hjobs, hpins⟩ := hstate
  refine ⟨s, s', hs, hheld, hstep, hcalls, hjobs, hpins, ?_⟩
  rw [tookNothing_iff (reachable_inv hs) hcall hstep]
  simp [Call.handles]

end Clients

end LlmPager
