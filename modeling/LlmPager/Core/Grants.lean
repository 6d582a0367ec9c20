import LlmPager.Core.CacheInv
import LlmPager.Lib.Transition

/-!
# LlmPager.Core.Grants

Pin safety of the expert cache.

A *grant* is what `acquire` (hit or miss) and `lookup_ready` hand out: a slot
and the id it was granted for, held until its release. The cache itself keeps
only counters, so the proofs carry the grants beside it:

* `Accounts t gs` — a slot table whose pins are exactly the grants `gs`, each
  on a slot that records its id. One lemma per move of the table.
* `Ledger` — a cache with its outstanding grants and the slots a miss claimed
  and nobody published since, stepped by the five operations.
* `Ledger.PinSafe` — what every reachable ledger satisfies
  (`Ledger.reachable_pinSafe`).
-/

namespace LlmPager

/-- One outstanding pin: the slot, and the id it was granted for. -/
structure Grant where
  slot : Nat
  id : Nat
  deriving Repr, DecidableEq

/-! ### Accounting a table's pins -/

/-- The pins of a table are exactly the outstanding grants, and a granted slot
records the id it was granted for. -/
structure Accounts (t : SlotTable) (gs : List Grant) : Prop where
  pins : ∀ i, (t i).pins = gs.countP (·.slot = i)
  held : ∀ g ∈ gs, (t g.slot).id = some g.id

namespace Accounts

variable {t : SlotTable} {gs gs' : List Grant} {g : Grant} {slot id : Nat}

theorem countP_cons_slot (g : Grant) (gs : List Grant) (i : Nat) :
    (g :: gs).countP (·.slot = i) = gs.countP (·.slot = i) + if i = g.slot then 1 else 0 := by
  rw [List.countP_cons]
  simp only [decide_eq_true_eq, eq_comm (a := g.slot)]

theorem empty : Accounts SlotTable.empty [] := ⟨fun _ => rfl, nofun⟩

/-- Who holds which grant does not matter. -/
theorem perm (h : Accounts t gs) (hp : gs.Perm gs') : Accounts t gs' :=
  ⟨fun i => (h.pins i).trans (hp.countP_eq _), fun g hg => h.held g (hp.mem_iff.mpr hg)⟩

/-- A granted slot is pinned. -/
theorem pinned (h : Accounts t gs) (hg : g ∈ gs) : 0 < (t g.slot).pins := by
  rw [h.pins]
  exact List.countP_pos_iff.mpr ⟨g, hg, decide_eq_true rfl⟩

/-- An unpinned slot is granted to nobody. -/
theorem ne_of_unpinned (h : Accounts t gs) (hpins : (t slot).pins = 0) (hg : g ∈ gs) :
    g.slot ≠ slot := by
  intro he
  have := h.pinned hg
  rw [he, hpins] at this
  cases this

/-- A hit grants a slot that already records the id. -/
theorem pin (h : Accounts t gs) (hid : (t slot).id = some id) :
    Accounts (t.pin slot) (⟨slot, id⟩ :: gs) := by
  refine ⟨fun i => ?_, fun g hg => ?_⟩
  · rw [SlotTable.pin_pins, h.pins, countP_cons_slot]
  · rw [SlotTable.pin_id]
    rcases List.mem_cons.mp hg with rfl | hg
    · exact hid
    · exact h.held g hg

/-- A miss evicts a slot nobody was granted. -/
theorem claim (h : Accounts t gs) (hpins : (t slot).pins = 0) :
    Accounts (t.claim slot id) (⟨slot, id⟩ :: gs) := by
  have hzero : gs.countP (·.slot = slot) = 0 := (h.pins slot).symm.trans hpins
  refine ⟨fun i => ?_, fun g hg => ?_⟩
  · rw [SlotTable.claim_pins, countP_cons_slot]
    by_cases hi : i = slot
    · subst hi
      rw [if_pos rfl, if_pos rfl, hzero]
    · rw [if_neg hi, if_neg hi, h.pins, Nat.add_zero]
  · rcases List.mem_cons.mp hg with rfl | hg
    · rw [SlotTable.claim_self]
    · rw [SlotTable.claim_of_ne (h.ne_of_unpinned hpins hg)]
      exact h.held g hg

theorem publish (h : Accounts t gs) : Accounts (t.publish slot) gs :=
  ⟨fun i => SlotTable.publish_pins.trans (h.pins i),
    fun g hg => SlotTable.publish_id.trans (h.held g hg)⟩

/-- A release gives back one grant. -/
theorem unpin (h : Accounts t gs) (hg : g ∈ gs) :
    Accounts (t.unpin g.slot) (gs.erase g) := by
  refine ⟨fun i => ?_, fun g' hg' => ?_⟩
  · have hcount := (List.perm_cons_erase hg).countP_eq (·.slot = i)
    rw [SlotTable.unpin_pins, h.pins, hcount, countP_cons_slot, Nat.add_sub_cancel]
  · rw [SlotTable.unpin_id]
    exact h.held g' (List.mem_of_mem_erase hg')

end Accounts

/-! ### The instrumented cache -/

/-- A cache, the grants its callers hold, and the slots whose fetch nobody has
published yet. -/
structure Ledger where
  cache : ExpertCache
  grants : List Grant
  inFlight : List Nat

/-- The five operations; a release names the grant it gives back. -/
inductive CacheOp
  | acquire (id : Nat)
  | lookupReady (id : Nat)
  | publish (slot : Nat)
  | release (g : Grant)
  | decayAll
  deriving Repr, DecidableEq

namespace Ledger

/-- Enter the outcome of an `acquire` for `id`. -/
def granted (l : Ledger) (id : Nat) (c : ExpertCache) : Lookup → Ledger
  | .hit slot => { l with cache := c, grants := ⟨slot, id⟩ :: l.grants }
  | .miss slot _ =>
      { cache := c, grants := ⟨slot, id⟩ :: l.grants, inFlight := slot :: l.inFlight }
  | .stalled => { l with cache := c }

/-- One operation on the ledger. There is none for a release without an
outstanding grant, nor where the cache panics. -/
def step (l : Ledger) : CacheOp → Option Ledger
  | .acquire id => do
      let (r, c) ← l.cache.acquire id
      some (l.granted id c r)
  | .lookupReady id => do
      let (r, c) ← l.cache.lookupReady id
      match r with
      | some slot => some { l with cache := c, grants := ⟨slot, id⟩ :: l.grants }
      | none => some { l with cache := c }
  | .publish slot => do
      let c ← l.cache.publish slot
      some { l with cache := c, inFlight := l.inFlight.filter (· ≠ slot) }
  | .release g =>
      if g ∈ l.grants then do
        let c ← l.cache.release g.slot
        some { l with cache := c, grants := l.grants.erase g }
      else none
  | .decayAll => some { l with cache := l.cache.decayAll }

/-- The runs of a cache built by `partitioned`. -/
def system (partitions idsPerPartition slotsPerPartition decayInterval : Nat) :
    Lib.System Ledger CacheOp :=
  .ofPartial
    (fun l => ExpertCache.partitioned partitions idsPerPartition slotsPerPartition decayInterval
      = some l.cache ∧ l.grants = [] ∧ l.inFlight = [])
    step

/-! ### The invariant of the instrumented cache -/

structure Inv (sh : Shape) (l : Ledger) : Prop where
  cache : ExpertCache.Inv sh l.cache
  accounts : Accounts l.cache.view l.grants
  /-- A slot in flight is not marked ready. -/
  inFlight : ∀ slot ∈ l.inFlight, (l.cache.view slot).ready = false

variable {sh : Shape} {l l' : Ledger}

theorem Inv.acquire {id : Nat} {c : ExpertCache} {r : Lookup} (h : Inv sh l)
    (hacq : l.cache.acquire id = some (r, c)) : Inv sh (l.granted id c r) := by
  obtain ⟨hc, hcases⟩ := ExpertCache.acquire_cases h.cache hacq
  rcases hcases with ⟨slot, rfl, hid, hview⟩ | ⟨slot, rfl, -, -, hpins, -, hview⟩ |
    ⟨rfl, rfl, -, -⟩
  · refine ⟨hc, hview ▸ h.accounts.pin hid, fun i hi => ?_⟩
    rw [granted, hview, SlotTable.pin_ready]
    exact h.inFlight i hi
  · refine ⟨hc, hview ▸ h.accounts.claim hpins, fun i hi => ?_⟩
    rw [granted, hview, SlotTable.claim_ready]
    split
    case isTrue => rfl
    case isFalse hne => exact h.inFlight i ((List.mem_cons.mp hi).resolve_left hne)
  · exact h

/-- **Step lemma**: each of the five operations keeps the invariant. -/
theorem Inv.step {op : CacheOp} (h : Inv sh l) (hstep : l.step op = some l') : Inv sh l' := by
  cases op with
  | acquire id =>
      obtain ⟨⟨r, c⟩, hacq, hstep⟩ := Option.bind_eq_some_iff.mp hstep
      cases hstep
      exact h.acquire hacq
  | lookupReady id =>
      obtain ⟨⟨r, c⟩, hlook, hstep⟩ := Option.bind_eq_some_iff.mp hstep
      obtain ⟨hc, ⟨slot, rfl, hid, -, hview⟩ | ⟨rfl, rfl⟩⟩ :=
        ExpertCache.lookupReady_cases h.cache hlook
      · cases hstep
        refine ⟨hc, hview ▸ h.accounts.pin hid, fun i hi => ?_⟩
        rw [hview, SlotTable.pin_ready]
        exact h.inFlight i hi
      · cases hstep
        exact h
  | publish slot =>
      obtain ⟨c, hpub, hstep⟩ := Option.bind_eq_some_iff.mp hstep
      obtain ⟨hc, -, hview⟩ := ExpertCache.publish_spec h.cache hpub
      cases hstep
      refine ⟨hc, hview ▸ h.accounts.publish, fun i hi => ?_⟩
      obtain ⟨hmem, hne⟩ := List.mem_filter.mp hi
      rw [hview, SlotTable.publish_ready, if_neg (of_decide_eq_true hne)]
      exact h.inFlight i hmem
  | release g =>
      have hg : g ∈ l.grants := by
        by_contra hg
        rw [Ledger.step, if_neg hg] at hstep
        cases hstep
      rw [Ledger.step, if_pos hg] at hstep
      obtain ⟨c, hrel, hstep⟩ := Option.bind_eq_some_iff.mp hstep
      obtain ⟨hc, -, hview⟩ := ExpertCache.release_spec h.cache hrel
      cases hstep
      refine ⟨hc, hview ▸ h.accounts.unpin hg, fun i hi => ?_⟩
      rw [hview, SlotTable.unpin_ready]
      exact h.inFlight i hi
  | decayAll =>
      cases hstep
      refine ⟨ExpertCache.decayAll_inv h.cache, ?_, fun i hi => ?_⟩
      · rw [ExpertCache.decayAll_view]
        exact h.accounts
      · rw [ExpertCache.decayAll_view]
        exact h.inFlight i hi

theorem Inv.init {partitions idsPerPartition slotsPerPartition decayInterval : Nat}
    (h : (system partitions idsPerPartition slotsPerPartition decayInterval).init l) :
    Inv ⟨partitions, idsPerPartition, slotsPerPartition⟩ l := by
  obtain ⟨cache, grants, inFlight⟩ := l
  obtain ⟨hnew, rfl, rfl⟩ := h
  obtain ⟨hinv, hview⟩ := ExpertCache.partitioned_spec hnew
  exact ⟨hinv, hview ▸ Accounts.empty, nofun⟩

/-- The invariant holds over whole runs. -/
theorem reachable_inv {partitions idsPerPartition slotsPerPartition decayInterval : Nat}
    (h : (system partitions idsPerPartition slotsPerPartition decayInterval).Reachable
      Lib.System.anyStep l) :
    Inv ⟨partitions, idsPerPartition, slotsPerPartition⟩ l :=
  h.invariant (fun _ => Inv.init) fun _ _ _ hinv _ hstep => hinv.step hstep

/-! ### Pin safety -/

/-- The slot a partition maps a resident id to. -/
def slotOf (part : Partition) (id : Nat) : Nat := (part.map.lookup id).getD 0

/-- What holds of a cache and its outstanding grants at any time. -/
structure PinSafe (l : Ledger) : Prop where
  /-- A partition's map is a bijection between its residents and the occupied
  slots of its own range. -/
  bijective : ∀ part ∈ l.cache.parts,
    Set.BijOn (slotOf part) {id | id ∈ part.map}
      {slot | part.Owns slot ∧ ∃ s, l.cache.slots[slot]? = some s ∧ s.id.isSome}
  /-- A slot is mapped under an id exactly when its state records the id and
  the id folds to that partition. -/
  mapped : ∀ p part, l.cache.parts[p]? = some part → ∀ id slot,
    part.map.lookup id = some slot ↔
      (∃ s, l.cache.slots[slot]? = some s ∧ s.id = some id) ∧ l.cache.partOf id = some p
  /-- Pin counts are the outstanding grants. -/
  pins : ∀ slot s, l.cache.slots[slot]? = some s → s.pins = l.grants.countP (·.slot = slot)
  /-- A granted slot holds the granted id until the grant is released. -/
  held : ∀ g ∈ l.grants, ∃ s, l.cache.slots[g.slot]? = some s ∧ s.id = some g.id
  /-- A slot in flight is never found by `lookup_ready`. -/
  unread : ∀ id slot c, l.cache.lookupReady id = some (some slot, c) → slot ∉ l.inFlight

theorem exists_slot_of_view_id {c : ExpertCache} {slot id : Nat} (h : (c.view slot).id = some id) :
    ∃ s, c.slots[slot]? = some s ∧ s.id = some id := by
  obtain hlt := ExpertCache.lt_of_view_id h
  have hget := List.getElem?_eq_getElem hlt
  exact ⟨_, hget, by rwa [ExpertCache.view_eq hget] at h⟩

theorem Inv.mapped_iff (h : Inv sh l) {p : Nat} {part : Partition}
    (hpart : l.cache.parts[p]? = some part) (id slot : Nat) :
    part.map.lookup id = some slot ↔
      (∃ s, l.cache.slots[slot]? = some s ∧ s.id = some id) ∧ l.cache.partOf id = some p := by
  obtain ⟨hlt, -⟩ := List.getElem?_eq_some_iff.mp hpart
  rw [h.cache.parts_length] at hlt
  constructor
  · intro hmap
    obtain ⟨howns, hid⟩ := (h.cache.mapped p part hpart id slot).mp hmap
    exact ⟨exists_slot_of_view_id hid, h.cache.folded p slot id hlt howns hid⟩
  · intro ⟨⟨s, hs, hid⟩, hfold⟩
    have hid' : (l.cache.view slot).id = some id := by rw [ExpertCache.view_eq hs]; exact hid
    obtain ⟨-, part', hpart', hlook⟩ := h.cache.resident hid'
    rw [← h.cache.partOf_eq hfold, hpart] at hpart'
    cases hpart'
    exact hlook

theorem Inv.bijOn (h : Inv sh l) {part : Partition} (hmem : part ∈ l.cache.parts) :
    Set.BijOn (slotOf part) {id | id ∈ part.map}
      {slot | part.Owns slot ∧ ∃ s, l.cache.slots[slot]? = some s ∧ s.id.isSome} := by
  obtain ⟨p, hlt, hget⟩ := List.mem_iff_getElem.mp hmem
  have hpart : l.cache.parts[p]? = some part := List.getElem?_eq_some_iff.mpr ⟨hlt, hget⟩
  obtain ⟨hbase, hlen⟩ := h.cache.range p part hpart
  have howns : ∀ slot, part.Owns slot ↔ sh.Owns p slot := by
    intro slot
    rw [Partition.Owns, hbase, hlen]
    rfl
  have hslot : ∀ id ∈ part.map, part.map.lookup id = some (slotOf part id) := by
    intro id hid
    obtain ⟨slot, hlook⟩ := Option.isSome_iff_exists.mp (AList.lookup_isSome.mpr hid)
    rw [slotOf, hlook, Option.getD_some]
  refine ⟨fun id hid => ?_, fun id hid id' hid' heq => ?_, fun slot hs => ?_⟩
  · obtain ⟨ho, hrec⟩ := (h.cache.mapped p part hpart id _).mp (hslot id hid)
    obtain ⟨s, hs, hsid⟩ := exists_slot_of_view_id hrec
    exact ⟨(howns _).mpr ho, s, hs, by rw [hsid]; rfl⟩
  · obtain ⟨-, hrec⟩ := (h.cache.mapped p part hpart id _).mp (hslot id hid)
    obtain ⟨-, hrec'⟩ := (h.cache.mapped p part hpart id' _).mp (hslot id' hid')
    rw [← heq, hrec] at hrec'
    exact Option.some.inj hrec'
  · obtain ⟨ho, s, hs, hsome⟩ := hs
    obtain ⟨id, hid⟩ := Option.isSome_iff_exists.mp hsome
    have hlook : part.map.lookup id = some slot :=
      (h.cache.mapped p part hpart id slot).mpr
        ⟨(howns slot).mp ho, by rw [ExpertCache.view_eq hs]; exact hid⟩
    refine ⟨id, AList.lookup_isSome.mp (by rw [hlook]; rfl), ?_⟩
    rw [slotOf, hlook, Option.getD_some]

/-- **Pin safety.** Whatever the dimensions of the cache and whatever the order
of its operations, the two views of its residents agree, its pins are the
outstanding grants, and a granted slot keeps its id. -/
theorem reachable_pinSafe {partitions idsPerPartition slotsPerPartition decayInterval : Nat}
    (h : (system partitions idsPerPartition slotsPerPartition decayInterval).Reachable
      Lib.System.anyStep l) : PinSafe l := by
  have hinv := reachable_inv h
  refine ⟨fun part hpart => hinv.bijOn hpart, fun p part hpart => hinv.mapped_iff hpart,
    fun slot s hs => ?_, fun g hg => ?_, fun id slot c hlook hmem => ?_⟩
  · rw [← hinv.accounts.pins, ExpertCache.view_eq hs]
    rfl
  · exact exists_slot_of_view_id (hinv.accounts.held g hg)
  · obtain ⟨-, ⟨slot', hsome, -, hready, -⟩ | ⟨hnone, -⟩⟩ :=
      ExpertCache.lookupReady_cases hinv.cache hlook
    · cases hsome
      rw [hinv.inFlight slot hmem] at hready
      cases hready
    · cases hnone

/-- Two layers of one slot each: a pinned miss in each, the first published. -/
theorem reachable_pinSafe_two_layers :
    ∃ l : Ledger, (l.grants = [⟨1, 9⟩, ⟨0, 5⟩] ∧ l.inFlight = [1]) ∧ PinSafe l := by
  have hinit : (system 2 8 1 1000).init
      ⟨(ExpertCache.partitioned 2 8 1 1000).get rfl, [], []⟩ := ⟨rfl, rfl, rfl⟩
  obtain ⟨l, hl, hl'⟩ := Lib.System.exists_reachable step
    [.acquire 5, .publish 0, .acquire 9] (fun l => decide (l.grants = [⟨1, 9⟩, ⟨0, 5⟩] ∧ l.inFlight = [1])) hinit
    (fun _ _ _ => trivial) (by decide)
  exact ⟨l, of_decide_eq_true hl', reachable_pinSafe hl⟩

end Ledger

end LlmPager
