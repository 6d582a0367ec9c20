import Mathlib

/-!
# LlmPager.Core.Cache

The expert cache (`llmpager-core/src/cache.rs`): aged-LFU bookkeeping over
*slots* drawn from *partitions*.

The model follows the source field by field. A `HashMap` is an `AList` (an
association list whose keys are unique by construction), a `Vec` is a `List`,
and the `u32` counters are naturals. An operation returns `none` exactly where
the Rust code panics: the assertions of `partitioned` and `release`, an index
out of range, a division by zero, a checked addition that overflows. Counters
whose increment cannot reach `2 ^ 32` (`insertsSinceDecay`) and the two `u64`
statistics are plain naturals; so are the aliases `Layer`, `Expert`, `ExpertId`
and `Slot` of the source, which the names of the variables stand for.
-/

namespace LlmPager

/-- Checked `u32` addition: `none` where Rust panics on overflow. -/
def u32Add (a b : Nat) : Option Nat :=
  if a + b < 2 ^ 32 then some (a + b) else none

/-- `u32::saturating_add`. -/
def u32SaturatingAdd (a b : Nat) : Nat := min (a + b) (2 ^ 32 - 1)

theorem u32Add_eq_some {a b n : Nat} (h : u32Add a b = some n) : n = a + b := by
  unfold u32Add at h
  split at h
  · exact (Option.some.inj h).symm
  · cases h

/-- The flat id of an expert, `(layer, expert)`: row-major, layer first. -/
def flatId (epl : Nat) (e : Nat × Nat) : Nat := e.1 * epl + e.2

theorem flatId_injective {epl : Nat} {e e' : Nat × Nat} (he : e.2 < epl) (he' : e'.2 < epl)
    (h : flatId epl e = flatId epl e') : e = e' := by
  obtain ⟨l, x⟩ := e
  obtain ⟨l', x'⟩ := e'
  simp only [flatId] at h he he'
  have hpos : 0 < epl := Nat.lt_of_le_of_lt (Nat.zero_le x) he
  have hx : x = x' := by
    have := congrArg (· % epl) h
    simpa only [Nat.mul_add_mod_self_right, Nat.mod_eq_of_lt he, Nat.mod_eq_of_lt he'] using this
  subst hx
  have hl : l = l' := Nat.eq_of_mul_eq_mul_right hpos (Nat.add_right_cancel h)
  rw [hl]

theorem flatId_lt {layers epl layer expert : Nat} (hlayer : layer < layers) (hexpert : expert < epl) :
    flatId epl (layer, expert) < layers * epl := by
  show layer * epl + expert < layers * epl
  have hrow := Nat.mul_le_mul_right epl (Nat.succ_le_of_lt hlayer)
  rw [Nat.succ_mul] at hrow
  omega

/-- The answer of `acquire`. -/
inductive Lookup
  /-- Already cached; the slot is pinned for the caller. -/
  | hit (slot : Nat)
  /-- To be fetched into `slot`, which is pinned for the caller. -/
  | miss (slot : Nat) (evicted : Option Nat)
  /-- Every slot the id could use is pinned. -/
  | stalled
  deriving Repr, DecidableEq

/-- What the cache records about one slot. -/
structure SlotState where
  id : Option Nat
  freq : Nat
  pins : Nat
  /-- False while a miss is in flight. -/
  ready : Bool
  deriving Repr, DecidableEq

/-- A slot as `partitioned` leaves it. -/
def SlotState.empty : SlotState := { id := none, freq := 0, pins := 0, ready := false }

/-- A pool of slots: the global range `base .. base + len` and the residents. -/
structure Partition where
  base : Nat
  len : Nat
  map : AList (fun _ : Nat => Nat)
  insertsSinceDecay : Nat

/-- The slots a partition draws from. -/
def Partition.Owns (part : Partition) (slot : Nat) : Prop :=
  part.base ≤ slot ∧ slot < part.base + part.len

instance (part : Partition) (slot : Nat) : Decidable (part.Owns slot) :=
  inferInstanceAs (Decidable (_ ∧ _))

structure ExpertCache where
  slots : List SlotState
  parts : List Partition
  /-- Ids per partition; also the fold factor for `(layer, expert)`. -/
  idsPerPartition : Nat
  decayInterval : Nat
  hits : Nat
  misses : Nat

namespace ExpertCache

/-- `ExpertCache::partitioned`. The last conjunct is the `u32` product
`p * slots_per_partition` of the last partition. -/
def partitioned (partitions idsPerPartition slotsPerPartition decayInterval : Nat) :
    Option ExpertCache :=
  if 0 < partitions ∧ 0 < slotsPerPartition ∧ 0 < decayInterval ∧
      (partitions - 1) * slotsPerPartition < 2 ^ 32 then
    some
      { slots := List.replicate (partitions * slotsPerPartition) SlotState.empty
        parts := (List.range partitions).map fun p =>
          { base := p * slotsPerPartition, len := slotsPerPartition, map := ∅,
            insertsSinceDecay := 0 }
        idsPerPartition := idsPerPartition
        decayInterval := decayInterval
        hits := 0
        misses := 0 }
  else none

/-- `ExpertCache::new`. -/
def new (numLayers slotsPerLayer decayInterval : Nat) : Option ExpertCache :=
  partitioned numLayers (2 ^ 32 - 1) slotsPerLayer decayInterval

/-- `ExpertCache::slots_per_partition`. -/
def slotsPerPartition (c : ExpertCache) : Option Nat := c.parts[0]?.map Partition.len

/-- `ExpertCache::part_of`. -/
def partOf (c : ExpertCache) (id : Nat) : Option Nat :=
  if c.parts.length = 1 then some 0
  else if c.idsPerPartition = 0 then none
  else some (min (id / c.idsPerPartition) (c.parts.length - 1))

/-- The victim order: `(freq, occupied)`, lexicographic, `false < true`. -/
def keyLt (a b : Nat × Bool) : Bool :=
  decide (a.1 < b.1) || (decide (a.1 = b.1) && !a.2 && b.2)

/-- The victim scan of `acquire` over the slot indices still to be visited;
`best` is the victim so far with its key. -/
def scanVictim (slots : List SlotState) :
    List Nat → Option (Nat × Nat × Bool) → Option (Option (Nat × Nat × Bool))
  | [], best => some best
  | i :: is, best => do
      let s ← slots[i]?
      if 0 < s.pins then
        scanVictim slots is best
      else
        let key := (s.freq, s.id.isSome)
        match best with
        | none => scanVictim slots is (some (i, key))
        | some (victim, victimKey) =>
            if keyLt key victimKey then scanVictim slots is (some (i, key))
            else scanVictim slots is (some (victim, victimKey))

/-- Halve the frequency counters of the slots `base .. base + len`. -/
def halveRange (slots : List SlotState) (base len : Nat) : List SlotState :=
  slots.mapIdx fun i s =>
    if base ≤ i ∧ i < base + len then { s with freq := s.freq / 2 } else s

/-- The miss arm of `acquire`: evict the victim `v` in `slot`, map `id` there,
and age the partition when its insertion count reaches the decay interval. -/
def claim (c : ExpertCache) (p : Nat) (part : Partition) (id : Nat) (slot : Nat)
    (v : SlotState) : ExpertCache :=
  let map := match v.id with
    | some old => part.map.erase old
    | none => part.map
  let map := map.insert id slot
  let slots := c.slots.set slot { id := some id, freq := 1, pins := 1, ready := false }
  let inserts := part.insertsSinceDecay + 1
  if c.decayInterval ≤ inserts then
    { c with
      slots := halveRange slots part.base part.len
      parts := c.parts.set p { part with map := map, insertsSinceDecay := 0 }
      misses := c.misses + 1 }
  else
    { c with
      slots := slots
      parts := c.parts.set p { part with map := map, insertsSinceDecay := inserts }
      misses := c.misses + 1 }

/-- One more pin and one more use of a resident slot (the hit arm of `acquire`
and of `lookup_ready`). -/
def touch (c : ExpertCache) (slot : Nat) : Option ExpertCache := do
  let s ← c.slots[slot]?
  let pins ← u32Add s.pins 1
  some { c with
    slots := c.slots.set slot { s with freq := u32SaturatingAdd s.freq 1, pins := pins }
    hits := c.hits + 1 }

/-- `ExpertCache::acquire`. -/
def acquire (c : ExpertCache) (id : Nat) : Option (Lookup × ExpertCache) := do
  let p ← c.partOf id
  let part ← c.parts[p]?
  match part.map.lookup id with
  | some slot => do
      let c' ← c.touch slot
      some (.hit slot, c')
  | none => do
      let stop ← u32Add part.base part.len
      let victim ← scanVictim c.slots (List.range' part.base (stop - part.base)) none
      match victim with
      | none => some (.stalled, c)
      | some (slot, _) => do
          let v ← c.slots[slot]?
          some (.miss slot v.id, c.claim p part id slot v)

/-- `ExpertCache::lookup_ready`. -/
def lookupReady (c : ExpertCache) (id : Nat) : Option (Option Nat × ExpertCache) := do
  let p ← c.partOf id
  let part ← c.parts[p]?
  match part.map.lookup id with
  | none => some (none, c)
  | some slot => do
      let s ← c.slots[slot]?
      if s.ready then do
        let c' ← c.touch slot
        some (some slot, c')
      else some (none, c)

/-- `ExpertCache::publish`. -/
def publish (c : ExpertCache) (slot : Nat) : Option ExpertCache := do
  let s ← c.slots[slot]?
  some { c with slots := c.slots.set slot { s with ready := true } }

/-- `ExpertCache::release`. -/
def release (c : ExpertCache) (slot : Nat) : Option ExpertCache := do
  let s ← c.slots[slot]?
  if 0 < s.pins then
    some { c with slots := c.slots.set slot { s with pins := s.pins - 1 } }
  else none

/-- `ExpertCache::decay_all`. -/
def decayAll (c : ExpertCache) : ExpertCache :=
  { c with
    slots := c.slots.map fun s => { s with freq := s.freq / 2 }
    parts := c.parts.map fun part => { part with insertsSinceDecay := 0 } }

/-- `ExpertCache::is_wedged`. -/
def isWedged (c : ExpertCache) (id : Nat) : Option Bool := do
  let p ← c.partOf id
  let part ← c.parts[p]?
  let stop ← u32Add part.base part.len
  some ((List.range' part.base (stop - part.base)).all fun i =>
    c.slots[i]?.any fun s => decide (0 < s.pins) && s.ready)

end ExpertCache

end LlmPager
