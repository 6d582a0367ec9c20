import LlmPager.Core.Cache

/-!
# LlmPager.Core.CacheInv

The representation invariant of the expert cache, and one inversion lemma per
operation.

The cache is read through `ExpertCache.view`: what a slot holds, how often it
is pinned, and whether its weights are published. Frequencies and statistics
do not show in the view, so ageing leaves it alone, and each operation is one
of four moves on a `SlotTable`:

* `pin` — a hit, or a ready lookup;
* `claim` — a miss, which evicts whatever the slot held;
* `publish` and `unpin` — the operations of the same name in the source.

`Inv` ties the partitions' maps to the view. Everything above this module
(grants, the pager, the RAM tier) reasons with the view and the lemmas
`acquire_cases`, `lookupReady_cases`, `publish_view`, `release_view` and
`decayAll_view`, and never unfolds the cache.
-/

namespace LlmPager

/-! ### The slot table -/

/-- What a slot shows: frequencies are left out. -/
structure SlotView where
  id : Option Nat
  pins : Nat
  ready : Bool
  deriving Repr, DecidableEq

/-- Abstract contents of a cache, slot by slot. -/
abbrev SlotTable := Nat → SlotView

namespace SlotTable

/-- The table of a cache nobody has used. -/
def empty : SlotTable := fun _ => { id := none, pins := 0, ready := false }

def pin (t : SlotTable) (slot : Nat) : SlotTable :=
  Function.update t slot { t slot with pins := (t slot).pins + 1 }

def claim (t : SlotTable) (slot : Nat) (id : Nat) : SlotTable :=
  Function.update t slot { id := some id, pins := 1, ready := false }

def publish (t : SlotTable) (slot : Nat) : SlotTable :=
  Function.update t slot { t slot with ready := true }

def unpin (t : SlotTable) (slot : Nat) : SlotTable :=
  Function.update t slot { t slot with pins := (t slot).pins - 1 }

variable {t : SlotTable} {slot i : Nat} {id : Nat}

@[simp] theorem pin_id : (t.pin slot i).id = (t i).id := by
  unfold pin; by_cases h : i = slot <;> simp [h]

@[simp] theorem pin_ready : (t.pin slot i).ready = (t i).ready := by
  unfold pin; by_cases h : i = slot <;> simp [h]

theorem pin_pins : (t.pin slot i).pins = (t i).pins + if i = slot then 1 else 0 := by
  unfold pin; by_cases h : i = slot <;> simp [h]

@[simp] theorem publish_id : (t.publish slot i).id = (t i).id := by
  unfold publish; by_cases h : i = slot <;> simp [h]

@[simp] theorem publish_pins : (t.publish slot i).pins = (t i).pins := by
  unfold publish; by_cases h : i = slot <;> simp [h]

theorem publish_ready : (t.publish slot i).ready = if i = slot then true else (t i).ready := by
  unfold publish; by_cases h : i = slot <;> simp [h]

@[simp] theorem unpin_id : (t.unpin slot i).id = (t i).id := by
  unfold unpin; by_cases h : i = slot <;> simp [h]

@[simp] theorem unpin_ready : (t.unpin slot i).ready = (t i).ready := by
  unfold unpin; by_cases h : i = slot <;> simp [h]

theorem unpin_pins : (t.unpin slot i).pins = (t i).pins - if i = slot then 1 else 0 := by
  unfold unpin; by_cases h : i = slot <;> simp [h]

theorem claim_self : t.claim slot id slot = { id := some id, pins := 1, ready := false } := by
  simp [claim]

theorem claim_of_ne (h : i ≠ slot) : t.claim slot id i = t i := by
  simp [claim, h]

theorem claim_id : (t.claim slot id i).id = if i = slot then some id else (t i).id := by
  by_cases h : i = slot
  · subst h; simp [claim_self]
  · simp [claim_of_ne h, h]

theorem claim_pins : (t.claim slot id i).pins = if i = slot then 1 else (t i).pins := by
  by_cases h : i = slot
  · subst h; simp [claim_self]
  · simp [claim_of_ne h, h]

theorem claim_ready : (t.claim slot id i).ready = if i = slot then false else (t i).ready := by
  by_cases h : i = slot
  · subst h; simp [claim_self]
  · simp [claim_of_ne h, h]

end SlotTable

/-! ### Shape: the fixed dimensions of a cache -/

/-- The dimensions a cache is built with. They never change. -/
structure Shape where
  partitions : Nat
  idsPerPartition : Nat
  slotsPerPartition : Nat

namespace Shape

/-- The partition an id folds to. -/
def foldOf (sh : Shape) (id : Nat) : Nat :=
  if sh.partitions = 1 then 0 else min (id / sh.idsPerPartition) (sh.partitions - 1)

/-- The slots of partition `p`. -/
def Owns (sh : Shape) (p : Nat) (slot : Nat) : Prop :=
  p * sh.slotsPerPartition ≤ slot ∧ slot < p * sh.slotsPerPartition + sh.slotsPerPartition

variable {sh : Shape} {p q : Nat} {slot : Nat}

/-- Partitions do not overlap. -/
theorem Owns.unique (hp : sh.Owns p slot) (hq : sh.Owns q slot) : p = q := by
  obtain ⟨hp₁, hp₂⟩ := hp
  obtain ⟨hq₁, hq₂⟩ := hq
  rcases Nat.lt_trichotomy p q with h | h | h
  · have := Nat.mul_le_mul_right sh.slotsPerPartition (Nat.succ_le_of_lt h)
    rw [Nat.succ_mul] at this
    omega
  · exact h
  · have := Nat.mul_le_mul_right sh.slotsPerPartition (Nat.succ_le_of_lt h)
    rw [Nat.succ_mul] at this
    omega

theorem Owns.lt_total (h : sh.Owns p slot) (hp : p < sh.partitions) :
    slot < sh.partitions * sh.slotsPerPartition := by
  have := Nat.mul_le_mul_right sh.slotsPerPartition (Nat.succ_le_of_lt hp)
  rw [Nat.succ_mul] at this
  exact Nat.lt_of_lt_of_le h.2 this

end Shape

/-! ### The view of a cache -/

def SlotState.view (s : SlotState) : SlotView := { id := s.id, pins := s.pins, ready := s.ready }

namespace ExpertCache

/-- A cache as a slot table; indices past the end show an unused slot. -/
def view (c : ExpertCache) : SlotTable := fun i =>
  (c.slots[i]?.map SlotState.view).getD { id := none, pins := 0, ready := false }

variable {c c' : ExpertCache} {slot i : Nat} {s : SlotState}

theorem view_eq (h : c.slots[i]? = some s) : c.view i = SlotState.view s := by
  simp [view, h]

theorem lt_of_view_id {id : Nat} (h : (c.view slot).id = some id) :
    slot < c.slots.length := by
  by_contra hlt
  simp [view, List.getElem?_eq_none (Nat.le_of_not_lt hlt)] at h

theorem lt_of_view_pins (h : 0 < (c.view slot).pins) : slot < c.slots.length := by
  by_contra hlt
  simp [view, List.getElem?_eq_none (Nat.le_of_not_lt hlt)] at h

/-- Writing one slot updates the view at that slot. -/
theorem view_set (hlt : slot < c.slots.length) :
    ({ c with slots := c.slots.set slot s } : ExpertCache).view
      = Function.update c.view slot (SlotState.view s) := by
  funext i
  by_cases h : i = slot
  · subst h; simp [view, List.getElem?_set_self hlt]
  · simp [view, h, List.getElem?_set_ne (Ne.symm h)]

/-- A view depends on the slots only, and not on their frequencies. -/
theorem view_congr
    (h : ∀ i : Nat, c'.slots[i]?.map SlotState.view = c.slots[i]?.map SlotState.view) :
    c'.view = c.view := by
  funext i
  simp only [view, h i]

theorem halveRange_view (slots : List SlotState) (base len i : Nat) :
    (halveRange slots base len)[i]?.map SlotState.view = slots[i]?.map SlotState.view := by
  simp only [halveRange, List.getElem?_mapIdx, Option.map_map]
  congr 1
  funext s
  simp only [Function.comp_apply]
  split <;> rfl

theorem claim_slots_view (p : Nat) (part : Partition) (id : Nat) (v : SlotState) (i : Nat) :
    (c.claim p part id slot v).slots[i]?.map SlotState.view =
      (c.slots.set slot { id := some id, freq := 1, pins := 1, ready := false })[i]?.map
        SlotState.view := by
  by_cases hdecay : c.decayInterval ≤ part.insertsSinceDecay + 1
  · simp only [claim, if_pos hdecay]
    exact halveRange_view _ _ _ _
  · simp only [claim, if_neg hdecay]

theorem claim_view (p : Nat) (part : Partition) (id : Nat) (v : SlotState)
    (hlt : slot < c.slots.length) :
    (c.claim p part id slot v).view = c.view.claim slot id := by
  have hset := view_set (c := c) (s := { id := some id, freq := 1, pins := 1, ready := false }) hlt
  calc (c.claim p part id slot v).view
      = ({ c with slots := c.slots.set slot _ } : ExpertCache).view :=
        view_congr fun i => claim_slots_view p part id v i
    _ = c.view.claim slot id := hset

/-! ### The victim scan -/

/-- The key the victim order compares. -/
def keyOf (s : SlotState) : Nat × Bool := (s.freq, s.id.isSome)

/-- One step of the scan: the running victim stays, because the slot is pinned
or does not beat it, or becomes the slot just visited. -/
theorem scanVictim_cons {slots : List SlotState} {i : Nat} {is : List Nat}
    {best r : Option (Nat × Nat × Bool)} (h : scanVictim slots (i :: is) best = some r) :
    ∃ s best', slots[i]? = some s ∧ scanVictim slots is best' = some r ∧
      (best' = best ∧ (0 < s.pins ∨ best ≠ none) ∨
        s.pins = 0 ∧ best' = some (i, keyOf s)) := by
  obtain ⟨s, hs, h⟩ := Option.bind_eq_some_iff.mp h
  by_cases hpins : 0 < s.pins
  · rw [if_pos hpins] at h
    exact ⟨s, best, hs, h, .inl ⟨rfl, .inl hpins⟩⟩
  · rw [if_neg hpins] at h
    have hzero : s.pins = 0 := Nat.eq_zero_of_not_pos hpins
    cases best with
    | none => exact ⟨s, _, hs, h, .inr ⟨hzero, rfl⟩⟩
    | some b =>
        by_cases hlt : keyLt (s.freq, s.id.isSome) b.2 = true
        · exact ⟨s, some (i, keyOf s), hs, by simpa [hlt, keyOf] using h, .inr ⟨hzero, rfl⟩⟩
        · exact ⟨s, some b, hs, by simpa [hlt] using h, .inl ⟨rfl, .inr nofun⟩⟩

/-- A victim is one seen before, or an unpinned slot of the range. -/
theorem scanVictim_some {slots : List SlotState} {is : List Nat}
    {best : Option (Nat × Nat × Bool)} {slot : Nat} {key : Nat × Bool}
    (h : scanVictim slots is best = some (some (slot, key))) :
    best = some (slot, key) ∨
      slot ∈ is ∧ ∃ s, slots[slot]? = some s ∧ s.pins = 0 ∧ key = keyOf s := by
  induction is generalizing best with
  | nil => exact .inl (Option.some.inj h)
  | cons i is ih =>
      obtain ⟨s, best', hs, hrec, hbest⟩ := scanVictim_cons h
      rcases ih hrec with hb | ⟨hmem, hkey⟩
      · rcases hbest with ⟨rfl, -⟩ | ⟨hzero, rfl⟩
        · exact .inl hb
        · cases hb
          exact .inr ⟨List.mem_cons_self, s, hs, hzero, rfl⟩
      · exact .inr ⟨List.mem_cons_of_mem _ hmem, hkey⟩

/-- No victim: every slot of the range is pinned. -/
theorem scanVictim_none {slots : List SlotState} {is : List Nat}
    {best : Option (Nat × Nat × Bool)} (h : scanVictim slots is best = some none) :
    best = none ∧ ∀ i ∈ is, ∃ s, slots[i]? = some s ∧ 0 < s.pins := by
  induction is generalizing best with
  | nil => exact ⟨Option.some.inj h, nofun⟩
  | cons i is ih =>
      obtain ⟨s, best', hs, hrec, hbest⟩ := scanVictim_cons h
      obtain ⟨hnone, hall⟩ := ih hrec
      rcases hbest with ⟨rfl, hpins⟩ | ⟨-, hsome⟩
      · refine ⟨hnone, List.forall_mem_cons.mpr ⟨⟨s, hs, ?_⟩, hall⟩⟩
        exact hpins.resolve_right fun hne => hne hnone
      · rw [hnone] at hsome
        cases hsome

/-! ### The representation invariant -/

/-- The fixed dimensions of a cache, and the two views of its residents: the
map of a partition and the ids its slots record. -/
structure Inv (sh : Shape) (c : ExpertCache) : Prop where
  parts_length : c.parts.length = sh.partitions
  slots_length : c.slots.length = sh.partitions * sh.slotsPerPartition
  ids : c.idsPerPartition = sh.idsPerPartition
  /-- A partition's range never moves. -/
  range : ∀ p part, c.parts[p]? = some part →
    part.base = p * sh.slotsPerPartition ∧ part.len = sh.slotsPerPartition
  /-- An id is mapped to a slot exactly when the slot is the partition's own
  and records that id. -/
  mapped : ∀ p part, c.parts[p]? = some part → ∀ id slot,
    part.map.lookup id = some slot ↔ sh.Owns p slot ∧ (c.view slot).id = some id
  /-- A slot records only ids that fold to its partition. -/
  folded : ∀ p slot id, p < sh.partitions → sh.Owns p slot →
    (c.view slot).id = some id → c.partOf id = some p

variable {sh : Shape}

/-- The partition the source computes is the one the shape folds to. -/
theorem Inv.partOf_eq {id p : Nat} (h : Inv sh c) (hp : c.partOf id = some p) :
    p = sh.foldOf id := by
  unfold partOf at hp
  unfold Shape.foldOf
  rw [h.parts_length, h.ids] at hp
  split at hp
  case isTrue hone => rw [if_pos hone]; exact (Option.some.inj hp).symm
  case isFalse hone =>
    rw [if_neg hone]
    split at hp
    · cases hp
    · exact (Option.some.inj hp).symm

/-- Folding reads the dimensions only. -/
theorem partOf_congr (hids : c'.idsPerPartition = c.idsPerPartition)
    (hparts : c'.parts.length = c.parts.length) (id : Nat) : c'.partOf id = c.partOf id := by
  unfold partOf
  rw [hids, hparts]

/-- What the invariant reads of a partition. -/
def partCore (part : Partition) : Nat × Nat × AList (fun _ : Nat => Nat) :=
  (part.base, part.len, part.map)

/-- Operations that keep the residents keep the invariant. -/
theorem Inv.congr (h : Inv sh c) (hids : c'.idsPerPartition = c.idsPerPartition)
    (hslots : c'.slots.length = c.slots.length)
    (hparts : c'.parts.map partCore = c.parts.map partCore)
    (hview : ∀ i, (c'.view i).id = (c.view i).id) : Inv sh c' := by
  -- a partition of `c'` has the range and the map of the one it came from
  have hpart : ∀ (p : Nat) part', c'.parts[p]? = some part' →
      ∃ part, c.parts[p]? = some part ∧ partCore part = partCore part' := by
    intro p part' hp
    have hget := congrArg (fun l => l[p]?) hparts
    simp only [List.getElem?_map, hp, Option.map_some] at hget
    exact Option.map_eq_some_iff.mp hget.symm
  have hlength : c'.parts.length = c.parts.length := by
    rw [← List.length_map (f := partCore), hparts, List.length_map]
  refine ⟨hlength.trans h.parts_length, hslots.trans h.slots_length, hids.trans h.ids,
    ?_, ?_, ?_⟩
  · intro p part' hp
    obtain ⟨part, hpart, hcore⟩ := hpart p part' hp
    obtain ⟨hbase, hlen, -⟩ : part.base = part'.base ∧ part.len = part'.len ∧ _ := by
      simpa [partCore] using hcore
    rw [← hbase, ← hlen]
    exact h.range p part hpart
  · intro p part' hp id slot
    obtain ⟨part, hpart, hcore⟩ := hpart p part' hp
    have hmap : part.map = part'.map := congrArg (fun k => k.2.2) hcore
    rw [← hmap, hview]
    exact h.mapped p part hpart id slot
  · intro p slot id hp howns hid
    rw [partOf_congr hids hlength]
    exact h.folded p slot id hp howns (hview slot ▸ hid)

/-- Every slot belongs to a partition. -/
theorem Inv.owner (h : Inv sh c) (hlt : slot < c.slots.length) :
    ∃ p, p < sh.partitions ∧ sh.Owns p slot := by
  rw [h.slots_length] at hlt
  have hpos : 0 < sh.slotsPerPartition := by
    rcases Nat.eq_zero_or_pos sh.slotsPerPartition with hz | hz
    · rw [hz, Nat.mul_zero] at hlt
      cases hlt
    · exact hz
  refine ⟨slot / sh.slotsPerPartition, Nat.div_lt_of_lt_mul ?_, ?_, ?_⟩
  · rwa [Nat.mul_comm] at hlt
  · exact Nat.div_mul_le_self _ _
  · have := Nat.lt_div_mul_add (a := slot) hpos
    exact this

theorem Inv.part_exists (h : Inv sh c) {p : Nat} (hp : p < sh.partitions) :
    ∃ part, c.parts[p]? = some part :=
  ⟨_, List.getElem?_eq_getElem (h.parts_length ▸ hp)⟩

/-- A slot that records an id lies in the partition the id folds to, and is
what that partition maps the id to. -/
theorem Inv.resident {id : Nat} (h : Inv sh c) (hs : (c.view slot).id = some id) :
    sh.Owns (sh.foldOf id) slot ∧
      ∃ part, c.parts[sh.foldOf id]? = some part ∧ part.map.lookup id = some slot := by
  obtain ⟨p, hp, howns⟩ := h.owner (lt_of_view_id hs)
  cases h.partOf_eq (h.folded p slot id hp howns hs)
  obtain ⟨part, hpart⟩ := h.part_exists hp
  exact ⟨howns, part, hpart, (h.mapped _ part hpart id slot).mpr ⟨howns, hs⟩⟩

/-- Two slots never record one id. -/
theorem Inv.slot_unique {id slot' : Nat} (h : Inv sh c) (hs : (c.view slot).id = some id)
    (hs' : (c.view slot').id = some id) : slot = slot' := by
  obtain ⟨-, part, hpart, hlook⟩ := h.resident hs
  obtain ⟨-, part', hpart', hlook'⟩ := h.resident hs'
  rw [hpart] at hpart'
  cases hpart'
  rw [hlook] at hlook'
  exact Option.some.inj hlook'

/-- An id its own partition does not map is recorded by no slot. -/
theorem Inv.absent {id : Nat} {part : Partition} (h : Inv sh c)
    (hpart : c.parts[sh.foldOf id]? = some part) (hmiss : part.map.lookup id = none) (i : Nat) :
    (c.view i).id ≠ some id := by
  intro hid
  obtain ⟨-, part', hpart', hlook⟩ := h.resident hid
  rw [hpart] at hpart'
  cases hpart'
  rw [hmiss] at hlook
  cases hlook

/-! ### The operations -/

theorem view_replicate {n : Nat} (h : c.slots = List.replicate n SlotState.empty) :
    c.view = SlotTable.empty := by
  funext i
  simp only [view, h, List.getElem?_replicate]
  split <;> rfl

/-- A fresh cache meets the invariant, and its table is empty. -/
theorem partitioned_spec {partitions idsPerPartition slotsPerPartition decayInterval : Nat}
    (h : partitioned partitions idsPerPartition slotsPerPartition decayInterval = some c) :
    Inv ⟨partitions, idsPerPartition, slotsPerPartition⟩ c ∧ c.view = SlotTable.empty := by
  unfold partitioned at h
  split at h
  case isFalse => cases h
  case isTrue =>
  have hc := (Option.some.inj h).symm
  have hview : c.view = SlotTable.empty := view_replicate (by rw [hc])
  have hpart : ∀ (p : Nat) part, c.parts[p]? = some part →
      part.base = p * slotsPerPartition ∧ part.len = slotsPerPartition ∧ part.map = ∅ := by
    intro p part hp
    rw [hc, List.getElem?_map] at hp
    obtain ⟨q, hq, rfl⟩ := Option.map_eq_some_iff.mp hp
    obtain ⟨hlt, rfl⟩ := List.getElem?_eq_some_iff.mp hq
    rw [List.getElem_range]
    exact ⟨rfl, rfl, rfl⟩
  refine ⟨⟨by simp [hc], by simp [hc], by rw [hc], ?_, ?_, ?_⟩, hview⟩
  · intro p part hp
    obtain ⟨hbase, hlen, -⟩ := hpart p part hp
    exact ⟨hbase, hlen⟩
  · intro p part hp id slot
    obtain ⟨-, -, hmap⟩ := hpart p part hp
    rw [hmap, AList.lookup_empty, hview]
    exact ⟨nofun, fun hr => nomatch hr.2⟩
  · intro p slot id _ _ hid
    rw [hview] at hid
    cases hid

/-- A write to one slot that keeps its id. -/
theorem Inv.set_slot {s : SlotState} (h : Inv sh c) (hs : c.slots[slot]? = some s)
    (s' : SlotState) (hits : Nat) (hid : s'.id = s.id) :
    Inv sh { c with slots := c.slots.set slot s', hits := hits } := by
  obtain ⟨hlt, -⟩ := List.getElem?_eq_some_iff.mp hs
  refine h.congr rfl (List.length_set ..) rfl fun i => ?_
  have hview : ({ c with slots := c.slots.set slot s', hits := hits } : ExpertCache).view
      = Function.update c.view slot (SlotState.view s') := view_set hlt
  rw [hview]
  by_cases hi : i = slot
  · subst hi
    rw [Function.update_self, view_eq hs]
    exact hid
  · rw [Function.update_of_ne hi]

theorem touch_spec (h : Inv sh c) (htouch : c.touch slot = some c') :
    Inv sh c' ∧ c'.view = c.view.pin slot := by
  obtain ⟨s, hs, htouch⟩ := Option.bind_eq_some_iff.mp htouch
  obtain ⟨pins, hpins, htouch⟩ := Option.bind_eq_some_iff.mp htouch
  obtain ⟨hlt, -⟩ := List.getElem?_eq_some_iff.mp hs
  cases htouch
  cases u32Add_eq_some hpins
  refine ⟨h.set_slot hs _ _ rfl, (view_set hlt).trans ?_⟩
  rw [SlotTable.pin, view_eq hs]
  rfl

/-- `publish` marks one slot ready and changes nothing else. -/
theorem publish_spec (h : Inv sh c) (hpub : c.publish slot = some c') :
    Inv sh c' ∧ slot < c.slots.length ∧ c'.view = c.view.publish slot := by
  obtain ⟨s, hs, hpub⟩ := Option.bind_eq_some_iff.mp hpub
  obtain ⟨hlt, -⟩ := List.getElem?_eq_some_iff.mp hs
  cases hpub
  refine ⟨h.set_slot hs _ _ rfl, hlt, (view_set hlt).trans ?_⟩
  rw [SlotTable.publish, view_eq hs]
  rfl

/-- `release` takes one pin back; it panics on an unpinned slot. -/
theorem release_spec (h : Inv sh c) (hrel : c.release slot = some c') :
    Inv sh c' ∧ 0 < (c.view slot).pins ∧ c'.view = c.view.unpin slot := by
  obtain ⟨s, hs, hrel⟩ := Option.bind_eq_some_iff.mp hrel
  obtain ⟨hlt, -⟩ := List.getElem?_eq_some_iff.mp hs
  by_cases hpins : 0 < s.pins
  · rw [if_pos hpins] at hrel
    cases hrel
    refine ⟨h.set_slot hs _ _ rfl, by rw [view_eq hs]; exact hpins, (view_set hlt).trans ?_⟩
    rw [SlotTable.unpin, view_eq hs]
    rfl
  · rw [if_neg hpins] at hrel
    cases hrel

theorem exists_publish (h : slot < c.slots.length) : ∃ c', c.publish slot = some c' := by
  simp [publish, List.getElem?_eq_getElem h]

theorem exists_release (h : 0 < (c.view slot).pins) : ∃ c', c.release slot = some c' := by
  have hlt := lt_of_view_pins h
  have hs := List.getElem?_eq_getElem hlt
  rw [view_eq hs] at h
  have hpins : 0 < c.slots[slot].pins := h
  simp [release, hs, hpins]

/-- `decay_all` does not show in the view. -/
theorem decayAll_view : c.decayAll.view = c.view := by
  refine view_congr fun i => ?_
  simp only [decayAll, List.getElem?_map, Option.map_map]
  rfl

theorem decayAll_inv (h : Inv sh c) : Inv sh c.decayAll := by
  refine h.congr rfl (List.length_map ..) ?_ fun i => by rw [decayAll_view]
  simp only [decayAll, List.map_map]
  rfl

/-! ### `acquire` and its siblings -/

/-- The map a miss leaves behind: the evicted id goes, the new one comes. -/
theorem claim_lookup {part : Partition} {id : Nat} {v : SlotState} (id' : Nat) :
    ((match v.id with
      | some old => part.map.erase old
      | none => part.map).insert id slot).lookup id' =
      if id' = id then some slot else if v.id = some id' then none else part.map.lookup id' := by
  by_cases hid : id' = id
  · subst hid
    rw [if_pos rfl, AList.lookup_insert]
  · rw [if_neg hid, AList.lookup_insert_ne hid]
    cases hv : v.id with
    | none => rw [if_neg nofun]
    | some old =>
        by_cases hold : old = id'
        · subst hold
          rw [if_pos rfl, AList.lookup_erase]
        · rw [if_neg fun h => hold (Option.some.inj h), AList.lookup_erase_ne (Ne.symm hold)]

/-- What a miss writes: the slot array and one partition, aged or not. -/
theorem claim_fields (p : Nat) (part : Partition) (id slot : Nat) (v : SlotState) :
    (c.claim p part id slot v).idsPerPartition = c.idsPerPartition ∧
    (c.claim p part id slot v).slots.length = c.slots.length ∧
    ∃ inserts, (c.claim p part id slot v).parts = c.parts.set p
      { part with
        map := (match v.id with
          | some old => part.map.erase old
          | none => part.map).insert id slot
        insertsSinceDecay := inserts } := by
  by_cases hdecay : c.decayInterval ≤ part.insertsSinceDecay + 1
  · simp only [claim, if_pos hdecay]
    exact ⟨trivial, by rw [halveRange, List.length_mapIdx, List.length_set], 0, rfl⟩
  · simp only [claim, if_neg hdecay]
    exact ⟨trivial, List.length_set .., _, rfl⟩

/-- Partitions after a miss: only the claiming one changed, and only its map. -/
theorem claim_parts {p q : Nat} {part part' : Partition} {id : Nat} {v : SlotState}
    (hpart : c.parts[p]? = some part)
    (h : (c.claim p part id slot v).parts[q]? = some part') :
    q ≠ p ∧ c.parts[q]? = some part' ∨
    q = p ∧ part'.base = part.base ∧ part'.len = part.len ∧
      part'.map = (match v.id with
        | some old => part.map.erase old
        | none => part.map).insert id slot := by
  obtain ⟨hlt, -⟩ := List.getElem?_eq_some_iff.mp hpart
  obtain ⟨-, -, n, hset⟩ := c.claim_fields p part id slot v
  rw [hset] at h
  by_cases hq : q = p
  · subst hq
    rw [List.getElem?_set_self hlt] at h
    cases h
    exact .inr ⟨rfl, rfl, rfl, rfl⟩
  · rw [List.getElem?_set_ne (Ne.symm hq)] at h
    exact .inl ⟨hq, h⟩

/-- Claiming an own, unrecorded slot for an absent id keeps the invariant. -/
theorem claim_inv {part : Partition} {id : Nat} {v : SlotState} (h : Inv sh c)
    (hfold : c.partOf id = some (sh.foldOf id)) (hpart : c.parts[sh.foldOf id]? = some part) (hv : c.slots[slot]? = some v)
    (howns : sh.Owns (sh.foldOf id) slot) (hmiss : part.map.lookup id = none) :
    Inv sh (c.claim (sh.foldOf id) part id slot v) := by
  obtain ⟨hlt, -⟩ := List.getElem?_eq_some_iff.mp hv
  have hview := claim_view (sh.foldOf id) part id v hlt
  have hvid : (c.view slot).id = v.id := congrArg SlotView.id (view_eq hv)
  obtain ⟨hids, hslots, _, hparts⟩ := c.claim_fields (sh.foldOf id) part id slot v
  have hlength : (c.claim (sh.foldOf id) part id slot v).parts.length = c.parts.length := by
    rw [hparts, List.length_set]
  refine ⟨hlength.trans h.parts_length, hslots.trans h.slots_length, hids.trans h.ids,
    ?_, ?_, ?_⟩
  · intro p part' hp
    rcases claim_parts hpart hp with ⟨-, hold⟩ | ⟨rfl, hbase, hlen, -⟩
    · exact h.range p part' hold
    · rw [hbase, hlen]
      exact h.range _ part hpart
  · intro p part' hp id' slot'
    rw [hview, SlotTable.claim_id]
    rcases claim_parts hpart hp with ⟨hne, hold⟩ | ⟨rfl, -, -, hmap⟩
    · -- another partition: the claimed slot is not in its range
      rw [h.mapped p part' hold]
      refine and_congr_right fun howns' => ?_
      rw [if_neg fun (he : slot' = slot) => hne ((he ▸ howns').unique howns)]
    · rw [hmap, claim_lookup]
      by_cases hid : id' = id
      · subst hid
        rw [if_pos rfl]
        constructor
        · rintro ⟨⟩
          exact ⟨howns, if_pos rfl⟩
        · intro ⟨howns', hrec⟩
          by_cases hs : slot' = slot
          · rw [hs]
          · rw [if_neg hs] at hrec
            have := (h.mapped _ part hpart id' slot').mpr ⟨howns', hrec⟩
            rw [hmiss] at this
            cases this
      · rw [if_neg hid]
        by_cases hold : v.id = some id'
        · -- the evicted id was recorded by the claimed slot only
          rw [if_pos hold]
          refine ⟨nofun, ?_⟩
          rintro ⟨-, hrec⟩
          by_cases hs : slot' = slot
          · rw [if_pos hs] at hrec
            exact absurd (Option.some.inj hrec).symm hid
          · rw [if_neg hs] at hrec
            exact absurd (h.slot_unique hrec (hvid.trans hold)) hs
        · rw [if_neg hold, h.mapped _ part hpart]
          refine and_congr_right fun _ => ?_
          by_cases hs : slot' = slot
          · rw [if_pos hs, hs, hvid]
            exact ⟨fun hr => absurd hr hold, fun hr => absurd (Option.some.inj hr).symm hid⟩
          · rw [if_neg hs]
  · intro p slot' id' hp howns' hrec
    rw [hview, SlotTable.claim_id] at hrec
    rw [partOf_congr hids hlength]
    by_cases hs : slot' = slot
    · subst hs
      rw [if_pos rfl] at hrec
      cases hrec
      rw [hfold, howns.unique howns']
    · rw [if_neg hs] at hrec
      exact h.folded p slot' id' hp howns' hrec

/-- What `acquire` did, as its code has it. -/
inductive Acquired (c : ExpertCache) (p : Nat) (part : Partition) (id : Nat) :
    Lookup → ExpertCache → Prop
  | hit {slot : Nat} {c' : ExpertCache} (hmap : part.map.lookup id = some slot)
      (htouch : c.touch slot = some c') : Acquired c p part id (.hit slot) c'
  | miss {slot : Nat} {key : Nat × Bool} {v : SlotState} (hmap : part.map.lookup id = none)
      (hscan : scanVictim c.slots (List.range' part.base part.len) none = some (some (slot, key)))
      (hv : c.slots[slot]? = some v) :
      Acquired c p part id (.miss slot v.id) (c.claim p part id slot v)
  | stalled (hmap : part.map.lookup id = none)
      (hscan : scanVictim c.slots (List.range' part.base part.len) none = some none) :
      Acquired c p part id .stalled c

theorem acquire_inv {id : Nat} {r : Lookup} (hacq : c.acquire id = some (r, c')) :
    ∃ p part, c.partOf id = some p ∧ c.parts[p]? = some part ∧ Acquired c p part id r c' := by
  obtain ⟨p, hp, hacq⟩ := Option.bind_eq_some_iff.mp hacq
  obtain ⟨part, hpart, hacq⟩ := Option.bind_eq_some_iff.mp hacq
  refine ⟨p, part, hp, hpart, ?_⟩
  cases hlook : part.map.lookup id with
  | some slot =>
      rw [hlook] at hacq
      obtain ⟨c₁, htouch, hacq⟩ := Option.bind_eq_some_iff.mp hacq
      cases hacq
      exact .hit hlook htouch
  | none =>
      rw [hlook] at hacq
      obtain ⟨stop, hstop, hacq⟩ := Option.bind_eq_some_iff.mp hacq
      obtain ⟨victim, hvictim, hacq⟩ := Option.bind_eq_some_iff.mp hacq
      cases u32Add_eq_some hstop
      rw [Nat.add_sub_cancel_left] at hvictim
      cases victim with
      | none =>
          cases hacq
          exact .stalled hlook hvictim
      | some found =>
          obtain ⟨slot, key⟩ := found
          obtain ⟨v, hv, hacq⟩ := Option.bind_eq_some_iff.mp hacq
          cases hacq
          exact .miss hlook hvictim hv

/-- The slots a partition scans are its own. -/
theorem Inv.mem_range {p : Nat} {part : Partition} (h : Inv sh c) (hpart : c.parts[p]? = some part)
    (i : Nat) : i ∈ List.range' part.base part.len ↔ sh.Owns p i := by
  obtain ⟨hbase, hlen⟩ := h.range p part hpart
  rw [List.mem_range'_1, hbase, hlen]
  rfl

/-- **Inversion of `acquire`**: a hit pins the slot that records the id; a miss
claims an unpinned slot of the id's own partition; a stall changes nothing and
means every slot of the partition is pinned. -/
theorem acquire_cases {id : Nat} {r : Lookup} (h : Inv sh c) (hacq : c.acquire id = some (r, c')) :
    Inv sh c' ∧
    ((∃ slot, r = .hit slot ∧ (c.view slot).id = some id ∧ c'.view = c.view.pin slot) ∨
     (∃ slot, r = .miss slot (c.view slot).id ∧ sh.Owns (sh.foldOf id) slot ∧
        slot < c.slots.length ∧ (c.view slot).pins = 0 ∧ (∀ i, (c.view i).id ≠ some id) ∧
        c'.view = c.view.claim slot id) ∨
     (r = .stalled ∧ c' = c ∧ (∀ i, (c.view i).id ≠ some id) ∧
        ∀ i, sh.Owns (sh.foldOf id) i → 0 < (c.view i).pins)) := by
  obtain ⟨p, part, hp, hpart, hcases⟩ := acquire_inv hacq
  cases h.partOf_eq hp
  cases hcases with
  | @hit slot _ hmap htouch =>
      obtain ⟨hinv, hview⟩ := touch_spec h htouch
      exact ⟨hinv, .inl ⟨slot, rfl, ((h.mapped _ part hpart id slot).mp hmap).2, hview⟩⟩
  | @miss slot key v hmap hscan hv =>
      obtain ⟨hmem, s, hs, hpins, -⟩ := (scanVictim_some hscan).resolve_left nofun
      obtain ⟨hlt, -⟩ := List.getElem?_eq_some_iff.mp hv
      cases hs.symm.trans hv
      have howns := (h.mem_range hpart slot).mp hmem
      refine ⟨claim_inv h hp hpart hv howns hmap, .inr (.inl ⟨slot, ?_, howns, hlt, ?_,
        h.absent hpart hmap, claim_view _ part id _ hlt⟩)⟩
      · rw [view_eq hv]
        rfl
      · rw [view_eq hv]
        exact hpins
  | stalled hmap hscan =>
      obtain ⟨-, hall⟩ := scanVictim_none hscan
      refine ⟨h, .inr (.inr ⟨rfl, rfl, h.absent hpart hmap, fun i hi => ?_⟩)⟩
      obtain ⟨s, hs, hpins⟩ := hall i ((h.mem_range hpart i).mpr hi)
      rw [view_eq hs]
      exact hpins

/-- What `lookup_ready` did, as its code has it. -/
theorem lookupReady_inv {id : Nat} {r : Option Nat} (hlook : c.lookupReady id = some (r, c')) :
    ∃ p part, c.partOf id = some p ∧ c.parts[p]? = some part ∧
      (r = none ∧ c' = c ∨
        ∃ slot s, part.map.lookup id = some slot ∧ c.slots[slot]? = some s ∧ s.ready = true ∧
          c.touch slot = some c' ∧ r = some slot) := by
  obtain ⟨p, hp, hlook⟩ := Option.bind_eq_some_iff.mp hlook
  obtain ⟨part, hpart, hlook⟩ := Option.bind_eq_some_iff.mp hlook
  refine ⟨p, part, hp, hpart, ?_⟩
  cases hmap : part.map.lookup id with
  | none =>
      rw [hmap] at hlook
      cases hlook
      exact .inl ⟨rfl, rfl⟩
  | some slot =>
      rw [hmap] at hlook
      obtain ⟨s, hs, hlook⟩ := Option.bind_eq_some_iff.mp hlook
      by_cases hready : s.ready = true
      · rw [if_pos hready] at hlook
        obtain ⟨c₁, htouch, hlook⟩ := Option.bind_eq_some_iff.mp hlook
        cases hlook
        exact .inr ⟨slot, s, rfl, hs, hready, htouch, rfl⟩
      · rw [if_neg hready] at hlook
        cases hlook
        exact .inl ⟨rfl, rfl⟩

/-- **Inversion of `lookup_ready`**: it pins a published slot that records the
id, or changes nothing. -/
theorem lookupReady_cases {id : Nat} {r : Option Nat} (h : Inv sh c)
    (hlook : c.lookupReady id = some (r, c')) :
    Inv sh c' ∧
    ((∃ slot, r = some slot ∧ (c.view slot).id = some id ∧ (c.view slot).ready = true ∧
        c'.view = c.view.pin slot) ∨
     (r = none ∧ c' = c)) := by
  obtain ⟨p, part, hp, hpart, hcases⟩ := lookupReady_inv hlook
  cases h.partOf_eq hp
  rcases hcases with ⟨rfl, rfl⟩ | ⟨slot, s, hmap, hs, hready, htouch, rfl⟩
  · exact ⟨h, .inr ⟨rfl, rfl⟩⟩
  · obtain ⟨hinv, hview⟩ := touch_spec h htouch
    refine ⟨hinv, .inl ⟨slot, rfl, ((h.mapped _ part hpart id slot).mp hmap).2, ?_, hview⟩⟩
    rw [view_eq hs]
    exact hready

/-- `is_wedged` answers true exactly when every slot of the id's partition is
pinned and published. -/
theorem isWedged_spec {id : Nat} {b : Bool} (h : Inv sh c) (hw : c.isWedged id = some b) :
    b = true ↔ ∀ i, sh.Owns (sh.foldOf id) i → 0 < (c.view i).pins ∧ (c.view i).ready = true := by
  obtain ⟨p, hp, hw⟩ := Option.bind_eq_some_iff.mp hw
  cases h.partOf_eq hp
  obtain ⟨part, hpart, hw⟩ := Option.bind_eq_some_iff.mp hw
  obtain ⟨hbase, hlen⟩ := h.range _ part hpart
  obtain ⟨stop, hstop, hw⟩ := Option.bind_eq_some_iff.mp hw
  cases u32Add_eq_some hstop
  cases hw
  rw [List.all_eq_true]
  refine forall_congr' fun i => ?_
  rw [Nat.add_sub_cancel_left, List.mem_range'_1, hbase, hlen]
  refine imp_congr_right fun _ => ?_
  cases hs : c.slots[i]? with
  | none => simp [view, hs]
  | some s =>
      rw [view_eq hs]
      simp [SlotState.view]

end ExpertCache

end LlmPager
