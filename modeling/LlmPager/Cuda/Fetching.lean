import LlmPager.Core.Grants
import LlmPager.Cuda.Pager

/-!
# LlmPager.Cuda.Fetching

What ties the cache, the shadow `fill` array, the jobs on their way and the
contents of the device together — the invariant of the pager, stated on slot
tables so that it does not matter who holds a handle or where a job is.

`Fetching` speaks of four collections, each up to order: the outstanding
handles, the outstanding jobs, the jobs whose copy has been enqueued, and the
last copy into each slot. Its fields say that every pin is a handle or a
prefetch on its way, that a slot is in flight exactly when one job for it is
outstanding, and that a filled slot holds the expert it records.

Each critical section of the pager is one move of the table, and there is one
lemma per move: `hit`, `missRequest`, `missPrefetch`, `prefetchHit`, `copy`,
`fillRequest`, `fillPrefetch`, `release`.
-/

namespace LlmPager

def ExpertHandle.expertOf (h : ExpertHandle) : Nat × Nat := (h.layer, h.expert)

def Job.expertOf (j : Job) : Nat × Nat := (j.layer, j.expert)

/-- The pin behind a handle. -/
def ExpertHandle.grant (epl : Nat) (h : ExpertHandle) : Grant := ⟨h.slot, flatId epl h.expertOf⟩

/-- The pin behind a prefetch. -/
def Job.grant (epl : Nat) (j : Job) : Grant := ⟨j.slot, flatId epl j.expertOf⟩

/-- The pins that handles `hs` and jobs `js` account for: a job of `request`
has its pin in the handle, a prefetch keeps its own. -/
def grantsOf (epl : Nat) (hs : List ExpertHandle) (js : List Job) : List Grant :=
  hs.map (ExpertHandle.grant epl) ++ (js.filter Job.releaseAfterFill).map (Job.grant epl)

/-- The invariant of a pager with outstanding handles `hs` and jobs `js`, of
which `ws` have their copies enqueued; `dev` is the last copy into each slot. -/
structure Fetching (epl : Nat) (t : SlotTable) (fill : Nat → Fill)
    (dev : Nat → Option (Nat × Nat)) (hs : List ExpertHandle) (js ws : List Job) : Prop where
  accounts : Accounts t (grantsOf epl hs js)
  /-- The shadow array and the cache agree on readiness. -/
  ready : ∀ i, fill i = .ready ↔ (t i).ready = true
  /-- A slot nobody ever fetched into is not resident. -/
  empty : ∀ i, fill i = .empty → (t i).id = none
  inFlight : ∀ i, fill i = .inFlight ↔ ∃ j ∈ js, j.slot = i
  /-- No slot has two jobs. -/
  unique : (js.map Job.slot).Nodup
  ident : ∀ j ∈ js, (t j.slot).id = some (flatId epl j.expertOf)
  /-- The slot of a job stays pinned: its requester holds a handle on it. -/
  owned : ∀ j ∈ js, j.releaseAfterFill = false → ∃ h ∈ hs, h.slot = j.slot
  /-- A filled slot holds the expert it records. -/
  loaded : ∀ i, fill i = .ready → ∃ e, dev i = some e ∧ (t i).id = some (flatId epl e)
  /-- A copy that was enqueued and not yet published is the last one. -/
  written : ∀ j ∈ ws, dev j.slot = some j.expertOf
  subset : ws ⊆ js
  /-- Everybody names experts of the pack. -/
  inPack : (∀ h ∈ hs, h.expert < epl) ∧ (∀ j ∈ js, j.expert < epl) ∧
    ∀ i e, dev i = some e → e.2 < epl

namespace Fetching

variable {epl : Nat} {t : SlotTable} {fill : Nat → Fill} {dev : Nat → Option (Nat × Nat)}
  {hs hs' : List ExpertHandle} {js js' ws ws' : List Job} {h : ExpertHandle} {j : Job}
  {slot : Nat}

/-- Nobody has called yet. -/
theorem start : Fetching epl SlotTable.empty (fun _ => .empty) (fun _ => none) [] [] [] where
  accounts := Accounts.empty
  ready i := by simp [SlotTable.empty]
  empty i _ := rfl
  inFlight i := by simp
  unique := List.nodup_nil
  ident := nofun
  owned := nofun
  loaded := nofun
  written := nofun
  subset := List.Subset.refl _
  inPack := ⟨nofun, nofun, nofun⟩

theorem grantsOf_perm (hh : hs.Perm hs') (hj : js.Perm js') :
    (grantsOf epl hs js).Perm (grantsOf epl hs' js') :=
  (hh.map _).append ((hj.filter _).map _)

/-- It does not matter who holds what, nor where a job is. -/
theorem perm (f : Fetching epl t fill dev hs js ws) (hh : hs.Perm hs') (hj : js.Perm js')
    (hw : ∀ j, j ∈ ws' → j ∈ ws) : Fetching epl t fill dev hs' js' ws' where
  accounts := f.accounts.perm (grantsOf_perm hh hj)
  ready := f.ready
  empty := f.empty
  inFlight i := by
    rw [f.inFlight]
    simp only [hj.mem_iff]
  unique := (hj.map _).nodup_iff.mp f.unique
  ident j hm := f.ident j (hj.mem_iff.mpr hm)
  owned j hm hr := by
    obtain ⟨h, hmem, hslot⟩ := f.owned j (hj.mem_iff.mpr hm) hr
    exact ⟨h, hh.mem_iff.mp hmem, hslot⟩
  loaded := f.loaded
  written j hm := f.written j (hw j hm)
  subset j hm := hj.mem_iff.mp (f.subset (hw j hm))
  inPack := ⟨fun h hm => f.inPack.1 h (hh.mem_iff.mpr hm),
    fun j hm => f.inPack.2.1 j (hj.mem_iff.mpr hm), f.inPack.2.2⟩

/-! ### What the invariant says of a handle -/

theorem handle_grant (hm : h ∈ hs) : h.grant epl ∈ grantsOf epl hs js :=
  List.mem_append_left _ (List.mem_map_of_mem hm)

theorem handle_id (f : Fetching epl t fill dev hs js ws) (hm : h ∈ hs) :
    (t h.slot).id = some (flatId epl h.expertOf) :=
  f.accounts.held _ (handle_grant hm)

theorem handle_pinned (f : Fetching epl t fill dev hs js ws) (hm : h ∈ hs) :
    0 < (t h.slot).pins :=
  f.accounts.pinned (handle_grant hm)

/-- A job's slot is pinned: by the prefetch itself, or by a handle. -/
theorem job_pinned (f : Fetching epl t fill dev hs js ws) (hm : j ∈ js) :
    0 < (t j.slot).pins := by
  cases hr : j.releaseAfterFill with
  | true =>
      have hg : j.grant epl ∈ grantsOf epl hs js :=
        List.mem_append_right _ (List.mem_map_of_mem (List.mem_filter.mpr ⟨hm, hr⟩))
      exact f.accounts.pinned hg
  | false =>
      obtain ⟨h, hmem, hslot⟩ := f.owned j hm hr
      exact hslot ▸ f.handle_pinned hmem

/-- A filled slot has no job outstanding. -/
theorem ne_of_ready (f : Fetching epl t fill dev hs js ws) (hr : fill slot = .ready)
    (hm : j ∈ js) : j.slot ≠ slot := by
  intro he
  have := (f.inFlight slot).mpr ⟨j, hm, he⟩
  rw [hr] at this
  cases this

/-- The expert in a filled slot is the one its handle names. -/
theorem handle_loaded (f : Fetching epl t fill dev hs js ws) (hm : h ∈ hs)
    (hr : fill h.slot = .ready) : dev h.slot = some h.expertOf := by
  obtain ⟨e, hdev, hid⟩ := f.loaded h.slot hr
  rw [f.handle_id hm] at hid
  have he : e = h.expertOf :=
    flatId_injective (f.inPack.2.2 _ e hdev) (f.inPack.1 h hm) (Option.some.inj hid).symm
  rw [hdev, he]

/-- A pinned slot is in flight or filled. -/
theorem inFlight_of_pinned (f : Fetching epl t fill dev hs js ws) (hp : 0 < (t slot).pins)
    (hr : fill slot ≠ .ready) : fill slot = .inFlight := by
  cases hfill : fill slot with
  | inFlight => rfl
  | ready => exact absurd hfill hr
  | empty =>
      -- a pinned slot is granted, so it records an id
      rw [f.accounts.pins] at hp
      obtain ⟨g, hg, hslot⟩ := List.countP_pos_iff.mp hp
      have hid := f.accounts.held g hg
      rw [of_decide_eq_true hslot, f.empty slot hfill] at hid
      cases hid

/-! ### The moves of the table -/

/-- A hit hands out one more handle on a slot that records its expert. -/
theorem hit (f : Fetching epl t fill dev hs js ws)
    (hid : (t h.slot).id = some (flatId epl h.expertOf)) (hlt : h.expert < epl) :
    Fetching epl (t.pin h.slot) fill dev (h :: hs) js ws where
  accounts := f.accounts.pin hid
  ready i := by rw [SlotTable.pin_ready]; exact f.ready i
  empty i he := by rw [SlotTable.pin_id]; exact f.empty i he
  inFlight := f.inFlight
  unique := f.unique
  ident j hm := by rw [SlotTable.pin_id]; exact f.ident j hm
  owned j hm hr := by
    obtain ⟨h', hmem, hslot⟩ := f.owned j hm hr
    exact ⟨h', List.mem_cons_of_mem _ hmem, hslot⟩
  loaded i hr := by rw [SlotTable.pin_id]; exact f.loaded i hr
  written := f.written
  subset := f.subset
  inPack := ⟨List.forall_mem_cons.mpr ⟨hlt, f.inPack.1⟩, f.inPack.2⟩

/-- A miss claims an unpinned slot, so no job is on its way to it. -/
theorem job_ne_of_unpinned (f : Fetching epl t fill dev hs js ws) (hp : (t slot).pins = 0)
    (hm : j ∈ js) : j.slot ≠ slot := by
  intro he
  have := f.job_pinned hm
  rw [he, hp] at this
  cases this

/-- What a miss does apart from the accounts, for a request or a prefetch. -/
theorem miss (f : Fetching epl t fill dev hs js ws) (hp : (t j.slot).pins = 0)
    (hlt : j.expert < epl) (hhs : ∀ h ∈ hs, h ∈ hs') (hpack : ∀ h ∈ hs', h.expert < epl)
    (hacc : Accounts (t.claim j.slot (flatId epl j.expertOf)) (grantsOf epl hs' (j :: js)))
    (howned : j.releaseAfterFill = false → ∃ h ∈ hs', h.slot = j.slot) :
    Fetching epl (t.claim j.slot (flatId epl j.expertOf))
      (Function.update fill j.slot .inFlight) dev hs' (j :: js) ws where
  accounts := hacc
  ready i := by
    by_cases hi : i = j.slot
    · subst hi
      simp [SlotTable.claim_self]
    · rw [Function.update_of_ne hi, SlotTable.claim_of_ne hi]
      exact f.ready i
  empty i he := by
    by_cases hi : i = j.slot
    · subst hi
      rw [Function.update_self] at he
      cases he
    · rw [Function.update_of_ne hi] at he
      rw [SlotTable.claim_of_ne hi]
      exact f.empty i he
  inFlight i := by
    by_cases hi : i = j.slot
    · subst hi
      rw [Function.update_self]
      exact ⟨fun _ => ⟨j, List.mem_cons_self, rfl⟩, fun _ => rfl⟩
    · rw [Function.update_of_ne hi, f.inFlight i]
      constructor
      · intro ⟨j', hm, hslot⟩
        exact ⟨j', List.mem_cons_of_mem _ hm, hslot⟩
      · rintro ⟨j', hm, rfl⟩
        rcases List.mem_cons.mp hm with rfl | hm
        · exact absurd rfl hi
        · exact ⟨j', hm, rfl⟩
  unique := by
    refine List.nodup_cons.mpr ⟨?_, f.unique⟩
    intro hm
    obtain ⟨j', hm', hslot⟩ := List.mem_map.mp hm
    exact f.job_ne_of_unpinned hp hm' hslot
  ident j' hm := by
    rcases List.mem_cons.mp hm with rfl | hm
    · rw [SlotTable.claim_self]
    · rw [SlotTable.claim_of_ne (f.job_ne_of_unpinned hp hm)]
      exact f.ident j' hm
  owned j' hm hr := by
    rcases List.mem_cons.mp hm with rfl | hm
    · exact howned hr
    · obtain ⟨h, hmem, hslot⟩ := f.owned j' hm hr
      exact ⟨h, hhs h hmem, hslot⟩
  loaded i hr := by
    by_cases hi : i = j.slot
    · subst hi
      rw [Function.update_self] at hr
      cases hr
    · rw [Function.update_of_ne hi] at hr
      rw [SlotTable.claim_of_ne hi]
      exact f.loaded i hr
  written := f.written
  subset j' hm := List.mem_cons_of_mem _ (f.subset hm)
  inPack := ⟨hpack, List.forall_mem_cons.mpr ⟨hlt, f.inPack.2.1⟩, f.inPack.2.2⟩

/-- A miss of `request`: the handle keeps the pin. -/
theorem missRequest (f : Fetching epl t fill dev hs js ws) (hp : (t j.slot).pins = 0)
    (hlt : j.expert < epl) (hrel : j.releaseAfterFill = false) :
    Fetching epl (t.claim j.slot (flatId epl j.expertOf))
      (Function.update fill j.slot .inFlight) dev (j.handle :: hs) (j :: js) ws := by
  refine f.miss hp hlt (fun h hm => List.mem_cons_of_mem _ hm)
    (List.forall_mem_cons.mpr ⟨hlt, f.inPack.1⟩) ?_ fun _ => ⟨_, List.mem_cons_self, rfl⟩
  have hgrants : grantsOf epl (j.handle :: hs) (j :: js) = j.grant epl :: grantsOf epl hs js := by
    rw [grantsOf, List.filter_cons_of_neg (by rw [hrel]; exact nofun)]
    rfl
  rw [hgrants]
  exact f.accounts.claim hp

/-- A miss of `prefetch`: the job keeps the pin. -/
theorem missPrefetch (f : Fetching epl t fill dev hs js ws) (hp : (t j.slot).pins = 0)
    (hlt : j.expert < epl) (hrel : j.releaseAfterFill = true) :
    Fetching epl (t.claim j.slot (flatId epl j.expertOf))
      (Function.update fill j.slot .inFlight) dev hs (j :: js) ws := by
  refine f.miss hp hlt (fun h hm => hm) f.inPack.1 ?_ fun hf => absurd (hrel.symm.trans hf) nofun
  have hclaim : Accounts (t.claim j.slot (flatId epl j.expertOf)) _ := f.accounts.claim hp
  refine hclaim.perm ?_
  rw [grantsOf, grantsOf, List.filter_cons_of_pos hrel]
  exact List.perm_middle.symm

/-- A worker enqueues the copy of its job. -/
theorem copy (f : Fetching epl t fill dev hs js ws) (hm : j ∈ js) :
    Fetching epl t fill (Function.update dev j.slot (some j.expertOf)) hs js (j :: ws) where
  accounts := f.accounts
  ready := f.ready
  empty := f.empty
  inFlight := f.inFlight
  unique := f.unique
  ident := f.ident
  owned := f.owned
  loaded i hr := by
    rw [Function.update_of_ne (f.ne_of_ready hr hm).symm]
    exact f.loaded i hr
  written j' hm' := by
    rcases List.mem_cons.mp hm' with rfl | hm'
    · rw [Function.update_self]
    · by_cases hs : j'.slot = j.slot
      · -- one job per slot
        have he : j' = j := List.inj_on_of_nodup_map f.unique (f.subset hm') hm hs
        rw [he, Function.update_self]
      · rw [Function.update_of_ne hs]
        exact f.written j' hm'
  subset := List.cons_subset.mpr ⟨hm, f.subset⟩
  inPack := by
    refine ⟨f.inPack.1, f.inPack.2.1, fun i e he => ?_⟩
    by_cases hi : i = j.slot
    · subst hi
      rw [Function.update_self] at he
      cases he
      exact f.inPack.2.1 j hm
    · rw [Function.update_of_ne hi] at he
      exact f.inPack.2.2 i e he

/-- A part of a job's copy: what the slot held is lost. -/
theorem overwrite (f : Fetching epl t fill dev hs js []) (hm : j ∈ js) :
    Fetching epl t fill (Function.update dev j.slot none) hs js [] where
  accounts := f.accounts
  ready := f.ready
  empty := f.empty
  inFlight := f.inFlight
  unique := f.unique
  ident := f.ident
  owned := f.owned
  loaded i hr := by
    rw [Function.update_of_ne (f.ne_of_ready hr hm).symm]
    exact f.loaded i hr
  written := nofun
  subset := f.subset
  inPack := by
    refine ⟨f.inPack.1, f.inPack.2.1, fun i e he => ?_⟩
    by_cases hi : i = j.slot
    · rw [hi, Function.update_self] at he
      cases he
    · rw [Function.update_of_ne hi] at he
      exact f.inPack.2.2 i e he

/-- What publishing a job does apart from the accounts. -/
theorem filled {t' : SlotTable} (f : Fetching epl t fill dev hs (j :: js) ws) (hw : j ∈ ws)
    (hid : ∀ i, (t' i).id = (t i).id)
    (hready : ∀ i, (t' i).ready = if i = j.slot then true else (t i).ready)
    (hacc : Accounts t' (grantsOf epl hs js)) (hws : ∀ j' ∈ ws', j' ∈ ws ∧ j' ∈ js) :
    Fetching epl t' (Function.update fill j.slot .ready) dev hs js ws' := by
  have hne : ∀ j' ∈ js, j'.slot ≠ j.slot := by
    intro j' hm he
    exact (List.nodup_cons.mp f.unique).1 (List.mem_map.mpr ⟨j', hm, he⟩)
  refine ⟨hacc, fun i => ?_, fun i he => ?_, fun i => ?_, (List.nodup_cons.mp f.unique).2,
    fun j' hm => ?_, fun j' hm => f.owned j' (List.mem_cons_of_mem _ hm), fun i hr => ?_,
    fun j' hm => f.written j' (hws j' hm).1, fun j' hm => (hws j' hm).2, f.inPack.1,
    fun j' hm => f.inPack.2.1 j' (List.mem_cons_of_mem _ hm), f.inPack.2.2⟩
  · rw [hready]
    by_cases hi : i = j.slot
    · rw [hi, Function.update_self, if_pos rfl]
      exact ⟨fun _ => rfl, fun _ => rfl⟩
    · rw [Function.update_of_ne hi, if_neg hi]
      exact f.ready i
  · by_cases hi : i = j.slot
    · rw [hi, Function.update_self] at he
      cases he
    · rw [Function.update_of_ne hi] at he
      rw [hid]
      exact f.empty i he
  · by_cases hi : i = j.slot
    · rw [hi, Function.update_self]
      refine ⟨nofun, ?_⟩
      intro ⟨j', hm, hslot⟩
      exact absurd hslot (hne j' hm)
    · rw [Function.update_of_ne hi, f.inFlight i]
      constructor
      · rintro ⟨j', hm, rfl⟩
        rcases List.mem_cons.mp hm with rfl | hm
        · exact absurd rfl hi
        · exact ⟨j', hm, rfl⟩
      · intro ⟨j', hm, hslot⟩
        exact ⟨j', List.mem_cons_of_mem _ hm, hslot⟩
  · rw [hid]
    exact f.ident j' (List.mem_cons_of_mem _ hm)
  · rw [hid]
    by_cases hi : i = j.slot
    · subst hi
      exact ⟨j.expertOf, f.written j hw, f.ident j List.mem_cons_self⟩
    · rw [Function.update_of_ne hi] at hr
      exact f.loaded i hr

/-- A worker publishes the fetch of a request. -/
theorem fillRequest (f : Fetching epl t fill dev hs (j :: js) ws) (hw : j ∈ ws)
    (hrel : j.releaseAfterFill = false) (hws : ∀ j' ∈ ws', j' ∈ ws ∧ j' ∈ js) :
    Fetching epl (t.publish j.slot) (Function.update fill j.slot .ready) dev hs js ws' := by
  refine f.filled hw (fun i => SlotTable.publish_id) (fun i => SlotTable.publish_ready) ?_ hws
  have hgrants : grantsOf epl hs (j :: js) = grantsOf epl hs js := by
    rw [grantsOf, List.filter_cons_of_neg (by rw [hrel]; exact nofun), grantsOf]
  exact hgrants ▸ f.accounts.publish

/-- A worker publishes a prefetch and drops its pin. -/
theorem fillPrefetch (f : Fetching epl t fill dev hs (j :: js) ws) (hw : j ∈ ws)
    (hrel : j.releaseAfterFill = true) (hws : ∀ j' ∈ ws', j' ∈ ws ∧ j' ∈ js) :
    Fetching epl ((t.publish j.slot).unpin j.slot) (Function.update fill j.slot .ready) dev
      hs js ws' := by
  refine f.filled hw (fun i => SlotTable.unpin_id.trans SlotTable.publish_id)
    (fun i => SlotTable.unpin_ready.trans SlotTable.publish_ready) ?_ hws
  have hperm : (grantsOf epl hs (j :: js)).Perm (j.grant epl :: grantsOf epl hs js) := by
    rw [grantsOf, grantsOf, List.filter_cons_of_pos hrel]
    exact List.perm_middle
  have hacc : Accounts (t.publish j.slot) (j.grant epl :: grantsOf epl hs js) :=
    f.accounts.publish.perm hperm
  have := hacc.unpin List.mem_cons_self
  rwa [List.erase_cons_head] at this

/-- The holder of a filled slot gives its handle back. -/
theorem release (f : Fetching epl t fill dev (h :: hs) js ws) (hr : fill h.slot = .ready) :
    Fetching epl (t.unpin h.slot) fill dev hs js ws where
  accounts := by
    have := f.accounts.unpin (g := h.grant epl) List.mem_cons_self
    rwa [grantsOf, List.map_cons, List.cons_append, List.erase_cons_head] at this
  ready i := by rw [SlotTable.unpin_ready]; exact f.ready i
  empty i he := by rw [SlotTable.unpin_id]; exact f.empty i he
  inFlight := f.inFlight
  unique := f.unique
  ident j hm := by rw [SlotTable.unpin_id]; exact f.ident j hm
  owned j hm hrel := by
    obtain ⟨h', hmem, hslot⟩ := f.owned j hm hrel
    rcases List.mem_cons.mp hmem with rfl | hmem
    · exact absurd hslot.symm (f.ne_of_ready hr hm)
    · exact ⟨h', hmem, hslot⟩
  loaded i hr := by rw [SlotTable.unpin_id]; exact f.loaded i hr
  written := f.written
  subset := f.subset
  inPack := ⟨(List.forall_mem_cons.mp f.inPack.1).2, f.inPack.2⟩

end Fetching

end LlmPager
