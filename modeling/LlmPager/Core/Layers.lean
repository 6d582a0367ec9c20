import LlmPager.Core.Eviction

/-!
# LlmPager.Core.Layers

A cache partitioned by layer is one cache per layer.

`ExpertCache.Layer` relates the slots, the map and the decay counter of one
partition to a stand-alone cache of one partition, up to where its slots start.
A call on the partition's own ids and slots does the same on both sides
(`Layer.call`), a call on another partition leaves the relation alone
(`Layer.call_other`), and so every run of calls is, for each layer, a run of the
stand-alone cache that sees only that layer's calls (`refines_layers`).
-/

namespace LlmPager

/-- The calls of a cache's users. -/
inductive CacheCall
  | acquire (id : Nat)
  | lookupReady (id : Nat)
  | isWedged (id : Nat)
  | publish (slot : Nat)
  | release (slot : Nat)
  | decayAll
  deriving Repr, DecidableEq

/-- What a call answers. -/
inductive Outcome
  | lookup (r : Lookup)
  | ready (slot : Option Nat)
  | wedged (b : Bool)
  | done
  deriving Repr, DecidableEq

/-- The same answer with slots counted from `base`. -/
def Lookup.shift (base : Nat) : Lookup → Lookup
  | .hit slot => .hit (base + slot)
  | .miss slot evicted => .miss (base + slot) evicted
  | .stalled => .stalled

def Outcome.shift (base : Nat) : Outcome → Outcome
  | .lookup r => .lookup (r.shift base)
  | .ready slot => .ready (slot.map (base + ·))
  | .wedged b => .wedged b
  | .done => .done

namespace CacheCall

/-- The layer a call is about: the one its id folds to, or its slot belongs to.
`decay_all` is about all of them. -/
def layer (epl slotsPerLayer : Nat) : CacheCall → Option Nat
  | .acquire id | .lookupReady id | .isWedged id => some (id / epl)
  | .publish slot | .release slot => some (slot / slotsPerLayer)
  | .decayAll => none

/-- An id is the fold of one of the pack's experts. -/
def Named (layers epl : Nat) : CacheCall → Prop
  | .acquire id | .lookupReady id | .isWedged id =>
      ∃ l e, l < layers ∧ e < epl ∧ id = flatId epl (l, e)
  | .publish _ | .release _ | .decayAll => True

/-- A slot is one of the cache's. -/
def InRange (slots : Nat) : CacheCall → Prop
  | .publish slot | .release slot => slot < slots
  | .acquire _ | .lookupReady _ | .isWedged _ | .decayAll => True

/-- The call as a cache sees it whose first slot is `base`. -/
def ownSlots (base : Nat) : CacheCall → CacheCall
  | .publish slot => .publish (slot - base)
  | .release slot => .release (slot - base)
  | op => op

/-- The calls that a layer sees: its own, and every `decay_all`. -/
def seenBy (epl slotsPerLayer l : Nat) (op : CacheCall) : Bool :=
  (op.layer epl slotsPerLayer).all (· = l)

theorem seenBy_layer {op : CacheCall} {epl slotsPerLayer l : Nat}
    (h : op.layer epl slotsPerLayer = some l) : op.seenBy epl slotsPerLayer l = true := by
  simp [seenBy, h]

theorem seenBy_other {op : CacheCall} {epl slotsPerLayer l p : Nat}
    (h : op.layer epl slotsPerLayer = some p) (hne : p ≠ l) :
    op.seenBy epl slotsPerLayer l = false := by
  simp [seenBy, h, hne]

end CacheCall

namespace ExpertCache

/-- One call and its answer; `none` where it panics. -/
def call (c : ExpertCache) : CacheCall → Option (Outcome × ExpertCache)
  | .acquire id => (c.acquire id).map fun (r, c') => (.lookup r, c')
  | .lookupReady id => (c.lookupReady id).map fun (slot, c') => (.ready slot, c')
  | .isWedged id => (c.isWedged id).map fun b => (.wedged b, c)
  | .publish slot => (c.publish slot).map fun c' => (.done, c')
  | .release slot => (c.release slot).map fun c' => (.done, c')
  | .decayAll => some (.done, c.decayAll)

/-- A sequence of calls and their answers. -/
def runCalls (c : ExpertCache) : List CacheCall → Option (List Outcome × ExpertCache)
  | [] => some ([], c)
  | op :: ops => do
      let (out, c) ← c.call op
      let (outs, c) ← c.runCalls ops
      some (out :: outs, c)

/-- The calls of a run that a layer sees, with its own slot numbers. -/
def callsOf (epl slotsPerLayer l : Nat) (ops : List CacheCall) : List CacheCall :=
  (ops.filter (·.seenBy epl slotsPerLayer l)).map (·.ownSlots (l * slotsPerLayer))

/-- The answers to those calls. -/
def outcomesOf (epl slotsPerLayer l : Nat) (ops : List CacheCall) (outs : List Outcome) :
    List Outcome :=
  ((ops.zip outs).filter (·.1.seenBy epl slotsPerLayer l)).map (·.2)

theorem runCalls_cons {c c' : ExpertCache} {op : CacheCall} {out : Outcome} {ops : List CacheCall}
    (h : c.call op = some (out, c')) :
    c.runCalls (op :: ops) = (c'.runCalls ops).map fun (outs, d) => (out :: outs, d) := by
  simp only [runCalls, h, Option.bind_eq_bind, Option.bind_some]
  cases c'.runCalls ops <;> rfl

section Seen

variable {epl slotsPerLayer l : Nat} {op : CacheCall} {ops : List CacheCall} {out : Outcome}
  {outs : List Outcome}

theorem callsOf_seen (h : op.seenBy epl slotsPerLayer l = true) :
    callsOf epl slotsPerLayer l (op :: ops) =
      op.ownSlots (l * slotsPerLayer) :: callsOf epl slotsPerLayer l ops := by
  simp [callsOf, List.filter_cons_of_pos h]

theorem callsOf_unseen (h : op.seenBy epl slotsPerLayer l = false) :
    callsOf epl slotsPerLayer l (op :: ops) = callsOf epl slotsPerLayer l ops := by
  simp [callsOf, h]

theorem outcomesOf_seen (h : op.seenBy epl slotsPerLayer l = true) :
    outcomesOf epl slotsPerLayer l (op :: ops) (out :: outs) =
      out :: outcomesOf epl slotsPerLayer l ops outs := by
  simp [outcomesOf, h]

theorem outcomesOf_unseen (h : op.seenBy epl slotsPerLayer l = false) :
    outcomesOf epl slotsPerLayer l (op :: ops) (out :: outs) =
      outcomesOf epl slotsPerLayer l ops outs := by
  simp [outcomesOf, h]

end Seen

/-- Partition `l` of `c`, whose slots start at `l * slotsPerPartition`, is what
the stand-alone cache `d` is. -/
structure Layer (sh : Shape) (l : Nat) (c d : ExpertCache) (part dpart : Partition) : Prop where
  slots : ∀ i < sh.slotsPerPartition, c.slots[l * sh.slotsPerPartition + i]? = d.slots[i]?
  length : d.slots.length = sh.slotsPerPartition
  get : c.parts[l]? = some part
  dparts : d.parts = [dpart]
  range : part.base = l * sh.slotsPerPartition ∧ part.len = sh.slotsPerPartition
  drange : dpart.base = 0 ∧ dpart.len = sh.slotsPerPartition
  /-- Residents are the same, on the same slots. -/
  map : ∀ id, part.map.lookup id = (dpart.map.lookup id).map (l * sh.slotsPerPartition + ·)
  inserts : dpart.insertsSinceDecay = part.insertsSinceDecay
  decay : d.decayInterval = c.decayInterval

namespace Layer

variable {sh : Shape} {l : Nat} {c c' d d' : ExpertCache} {part dpart : Partition} {i : Nat}

/-- The stand-alone cache folds every id to its one partition. -/
theorem partOf_alone (h : Layer sh l c d part dpart) (id : Nat) : d.partOf id = some 0 := by
  simp [partOf, h.dparts]

theorem dpart_get (h : Layer sh l c d part dpart) : d.parts[0]? = some dpart := by
  simp [h.dparts]

/-- A write to one of the layer's slots. -/
theorem set (h : Layer sh l c d part dpart) (hlt : l * sh.slotsPerPartition + i < c.slots.length)
    (hi : i < sh.slotsPerPartition) (s : SlotState) (n m : Nat) :
    Layer sh l { c with slots := c.slots.set (l * sh.slotsPerPartition + i) s, hits := n }
      { d with slots := d.slots.set i s, hits := m } part dpart := by
  refine ⟨fun j hj => ?_, ?_, h.get, h.dparts, h.range, h.drange, h.map, h.inserts, h.decay⟩
  · by_cases hji : j = i
    · subst hji
      rw [List.getElem?_set_self hlt, List.getElem?_set_self (h.length ▸ hi)]
    · rw [List.getElem?_set_ne (by omega), List.getElem?_set_ne (by omega)]
      exact h.slots j hj
  · rw [List.length_set]
    exact h.length

/-- What another partition does. -/
theorem frame (h : Layer sh l c d part dpart)
    (hslots : ∀ i < sh.slotsPerPartition,
      c'.slots[l * sh.slotsPerPartition + i]? = c.slots[l * sh.slotsPerPartition + i]?)
    (hparts : c'.parts[l]? = c.parts[l]?) (hdecay : c'.decayInterval = c.decayInterval) :
    Layer sh l c' d part dpart :=
  ⟨fun i hi => (hslots i hi).trans (h.slots i hi), h.length, hparts.trans h.get, h.dparts, h.range,
    h.drange, h.map, h.inserts, h.decay.trans hdecay.symm⟩

/-! ### The scan -/

/-- A candidate with slots counted from `base`. -/
def shiftBest (base : Nat) (v : Nat × Nat × Bool) : Nat × Nat × Bool := (base + v.1, v.2)

theorem scanVictim_shift {cs ds : List SlotState} {base : Nat} {is : List Nat}
    (h : ∀ i ∈ is, cs[base + i]? = ds[i]?) (best : Option (Nat × Nat × Bool)) :
    scanVictim cs (is.map (base + ·)) (best.map (shiftBest base)) =
      (scanVictim ds is best).map (Option.map (shiftBest base)) := by
  induction is generalizing best with
  | nil => rfl
  | cons i is ih =>
      have hrest := ih fun j hj => h j (List.mem_cons_of_mem _ hj)
      rw [List.map_cons]
      simp only [scanVictim, h i List.mem_cons_self]
      cases hs : ds[i]? with
      | none => rfl
      | some s =>
          simp only [Option.bind_eq_bind, Option.bind_some]
          by_cases hpins : 0 < s.pins
          · rw [if_pos hpins, if_pos hpins]
            exact hrest best
          · rw [if_neg hpins, if_neg hpins]
            cases best with
            | none => exact hrest (some (i, s.freq, s.id.isSome))
            | some b =>
                simp only [Option.map_some, shiftBest]
                by_cases hkey : keyLt (s.freq, s.id.isSome) b.2 = true
                · rw [if_pos hkey, if_pos hkey]
                  exact hrest (some (i, s.freq, s.id.isSome))
                · rw [if_neg hkey, if_neg hkey]
                  exact hrest (some b)

theorem scan (h : Layer sh l c d part dpart) :
    scanVictim c.slots (List.range' part.base part.len) none =
      (scanVictim d.slots (List.range' dpart.base dpart.len) none).map
        (Option.map (shiftBest (l * sh.slotsPerPartition))) := by
  rw [h.range.1, h.range.2, h.drange.1, h.drange.2]
  have hrange : List.range' (l * sh.slotsPerPartition) sh.slotsPerPartition =
      (List.range' 0 sh.slotsPerPartition).map (l * sh.slotsPerPartition + ·) := by
    rw [List.map_add_range', Nat.add_zero]
  rw [hrange]
  refine scanVictim_shift (fun i hi => h.slots i ?_) none
  simpa using hi

/-! ### Calls of the layer -/

theorem touch (h : Layer sh l c d part dpart) (hlt : l * sh.slotsPerPartition + i < c.slots.length)
    (hi : i < sh.slotsPerPartition) (htouch : c.touch (l * sh.slotsPerPartition + i) = some c') :
    ∃ d', d.touch i = some d' ∧ Layer sh l c' d' part dpart := by
  obtain ⟨s, hs, htouch⟩ := Option.bind_eq_some_iff.mp htouch
  obtain ⟨pins, hpins, htouch⟩ := Option.bind_eq_some_iff.mp htouch
  cases htouch
  rw [h.slots i hi] at hs
  refine ⟨_, ?_, h.set hlt hi _ _ (d.hits + 1)⟩
  simp [ExpertCache.touch, hs, hpins]

/-- The slots after ageing the layer's range. -/
theorem halveRange_shift {cs ds : List SlotState} {base len : Nat}
    (h : ∀ i < len, cs[base + i]? = ds[i]?) :
    ∀ i < len, (halveRange cs base len)[base + i]? = (halveRange ds 0 len)[i]? := by
  intro i hi
  have hin : base ≤ base + i ∧ base + i < base + len := by omega
  have hin' : 0 ≤ i ∧ i < 0 + len := by omega
  simp only [halveRange, List.getElem?_mapIdx, h i hi, if_pos hin, if_pos hin']

theorem claim (h : Layer sh l c d part dpart) {id : Nat} {v : SlotState}
    (hlt : l * sh.slotsPerPartition + i < c.slots.length) (hi : i < sh.slotsPerPartition) :
    ∃ part' dpart', Layer sh l (c.claim l part id (l * sh.slotsPerPartition + i) v)
      (d.claim 0 dpart id i v) part' dpart' := by
  have hset := (h.set hlt hi { id := some id, freq := 1, pins := 1, ready := false } 0 0)
  have hslots := hset.slots
  have hlength := hset.length
  obtain ⟨hpart, -⟩ := List.getElem?_eq_some_iff.mp h.get
  have hlookup : ∀ id', (if id' = id then some (l * sh.slotsPerPartition + i) else
      if v.id = some id' then none else part.map.lookup id') =
        (if id' = id then some i else
          if v.id = some id' then none else dpart.map.lookup id').map
            (l * sh.slotsPerPartition + ·) := by
    intro id'
    split
    · rfl
    · split
      · rfl
      · exact h.map id'
  have hmap := fun id' =>
    (claim_lookup id').trans ((hlookup id').trans (congrArg _ (claim_lookup id').symm))
  by_cases hdecay : c.decayInterval ≤ part.insertsSinceDecay + 1
  · have hdecay' : d.decayInterval ≤ dpart.insertsSinceDecay + 1 := by
      rw [h.decay, h.inserts]
      exact hdecay
    simp only [ExpertCache.claim, if_pos hdecay, if_pos hdecay', h.dparts, h.range.1, h.range.2,
      h.drange.1, h.drange.2]
    refine ⟨_, _, halveRange_shift hslots, ?_, List.getElem?_set_self hpart, rfl, ⟨rfl, rfl⟩,
      ⟨rfl, rfl⟩, hmap, rfl, h.decay⟩
    simpa [halveRange] using hlength
  · have hdecay' : ¬d.decayInterval ≤ dpart.insertsSinceDecay + 1 := by
      rw [h.decay, h.inserts]
      exact hdecay
    simp only [ExpertCache.claim, if_neg hdecay, if_neg hdecay', h.dparts]
    exact ⟨_, _, hslots, hlength, List.getElem?_set_self hpart, rfl, h.range, h.drange, hmap,
      congrArg (· + 1) h.inserts, h.decay⟩

/-- A resident's slot is one of the layer's. -/
theorem lookup_lt (h : Layer sh l c d part dpart) (hc : Inv sh c) {id slot : Nat}
    (hmap : part.map.lookup id = some slot) :
    ∃ i, slot = l * sh.slotsPerPartition + i ∧ i < sh.slotsPerPartition ∧
      slot < c.slots.length ∧ dpart.map.lookup id = some i := by
  obtain ⟨hown, hid⟩ := (hc.mapped l part h.get id slot).mp hmap
  rw [h.map] at hmap
  obtain ⟨i, hi, rfl⟩ := Option.map_eq_some_iff.mp hmap
  obtain ⟨-, hlt⟩ := hown
  exact ⟨i, rfl, Nat.lt_of_add_lt_add_left hlt, lt_of_view_id hid, hi⟩

theorem lookup_none (h : Layer sh l c d part dpart) {id : Nat}
    (hmap : part.map.lookup id = none) : dpart.map.lookup id = none := by
  rw [h.map] at hmap
  exact Option.map_eq_none_iff.mp hmap

theorem acquire {id : Nat} {r : Lookup} (h : Layer sh l c d part dpart) (hc : Inv sh c)
    (hid : c.partOf id = some l) (hacq : c.acquire id = some (r, c')) :
    ∃ r' d' part' dpart', d.acquire id = some (r', d') ∧ r = r'.shift (l * sh.slotsPerPartition) ∧
      Layer sh l c' d' part' dpart' := by
  obtain ⟨p, part', hp, hpart', hcases⟩ := acquire_inv hacq
  cases hid.symm.trans hp
  cases h.get.symm.trans hpart'
  have hstop : u32Add dpart.base dpart.len = some (dpart.base + dpart.len) ∨
      part.map.lookup id ≠ none := by
    by_cases hmap : part.map.lookup id = none
    · -- the range of the stand-alone cache ends no later than the layer's
      refine .inl (if_pos ?_)
      have hsome : c.acquire id ≠ none := by rw [hacq]; simp
      rw [Ne, acquire_eq_none_iff hc hid h.get] at hsome
      have hlt := not_or.mp hsome
      have := h.range
      have := h.drange
      have : ¬2 ^ 32 ≤ part.base + part.len := fun hle => hlt.2 ⟨hmap, hle⟩
      omega
    · exact .inr hmap
  cases hcases with
  | hit hmap htouch =>
      obtain ⟨i, rfl, hi, hlt, hdmap⟩ := h.lookup_lt hc hmap
      obtain ⟨d', hd', hlayer⟩ := h.touch hlt hi htouch
      refine ⟨.hit i, d', part, dpart, ?_, rfl, hlayer⟩
      simp [ExpertCache.acquire, h.partOf_alone, h.dparts, hdmap, hd']
  | @miss slot key v hmap hscan hv =>
      have hdmap := h.lookup_none hmap
      obtain ⟨hmem, -⟩ := (scanVictim_some hscan).resolve_left (by simp)
      rw [h.scan] at hscan
      obtain ⟨found, hfound, hshift⟩ := Option.map_eq_some_iff.mp hscan
      obtain ⟨⟨i, key'⟩, rfl, hpair⟩ := Option.map_eq_some_iff.mp hshift
      cases hpair
      obtain ⟨hlt, -⟩ := List.getElem?_eq_some_iff.mp hv
      have hi : i < sh.slotsPerPartition :=
        Nat.lt_of_add_lt_add_left ((hc.mem_range h.get _).mp hmem).2
      obtain ⟨part', dpart', hlayer⟩ : ∃ part' dpart',
          Layer sh l (c.claim l part id (l * sh.slotsPerPartition + i) v)
            (d.claim 0 dpart id i v) part' dpart' := h.claim hlt hi
      refine ⟨.miss i v.id, _, part', dpart', ?_, rfl, hlayer⟩
      have hv' : d.slots[i]? = some v := (h.slots i hi).symm.trans hv
      have hbound := hstop.resolve_right fun hne => hne hmap
      simp [ExpertCache.acquire, h.partOf_alone, h.dparts, hdmap, hbound, hfound, hv']
  | stalled hmap hscan =>
      have hdmap := h.lookup_none hmap
      rw [h.scan] at hscan
      obtain ⟨found, hfound, hshift⟩ := Option.map_eq_some_iff.mp hscan
      cases Option.map_eq_none_iff.mp hshift
      have hbound := hstop.resolve_right fun hne => hne hmap
      refine ⟨.stalled, d, part, dpart, ?_, rfl, h⟩
      simp [ExpertCache.acquire, h.partOf_alone, h.dparts, hdmap, hbound, hfound]

theorem lookupReady {id : Nat} {r : Option Nat} (h : Layer sh l c d part dpart) (hc : Inv sh c)
    (hid : c.partOf id = some l) (hlook : c.lookupReady id = some (r, c')) :
    ∃ r' d', d.lookupReady id = some (r', d') ∧
      r = r'.map (l * sh.slotsPerPartition + ·) ∧ Layer sh l c' d' part dpart := by
  simp only [ExpertCache.lookupReady, hid, h.get, Option.bind_eq_bind, Option.bind_some] at hlook
  cases hmap : part.map.lookup id with
  | none =>
      rw [hmap] at hlook
      cases hlook
      refine ⟨none, d, ?_, rfl, h⟩
      simp [ExpertCache.lookupReady, h.partOf_alone, h.dparts, h.lookup_none hmap]
  | some slot =>
      rw [hmap] at hlook
      obtain ⟨i, rfl, hi, hlt, hdmap⟩ := h.lookup_lt hc hmap
      obtain ⟨s, hs, hlook⟩ := Option.bind_eq_some_iff.mp hlook
      rw [h.slots i hi] at hs
      by_cases hready : s.ready = true
      · rw [if_pos hready] at hlook
        obtain ⟨c₁, htouch, hlook⟩ := Option.bind_eq_some_iff.mp hlook
        cases hlook
        obtain ⟨d', hd', hlayer⟩ := h.touch hlt hi htouch
        refine ⟨some i, d', ?_, rfl, hlayer⟩
        simp [ExpertCache.lookupReady, h.partOf_alone, h.dparts, hdmap, hs, hready, hd']
      · rw [if_neg hready] at hlook
        cases hlook
        refine ⟨none, d, ?_, rfl, h⟩
        simp [ExpertCache.lookupReady, h.partOf_alone, h.dparts, hdmap, hs, hready]

/-- `is_wedged` looks at the layer's slots only. -/
theorem isWedged {id : Nat} {b : Bool} (h : Layer sh l c d part dpart)
    (hid : c.partOf id = some l) (hw : c.isWedged id = some b) : d.isWedged id = some b := by
  simp only [ExpertCache.isWedged, hid, h.get, Option.bind_eq_bind, Option.bind_some] at hw
  obtain ⟨stop, hstop, hw⟩ := Option.bind_eq_some_iff.mp hw
  have hbound : dpart.base + dpart.len < 2 ^ 32 := by
    have hle := u32Add_eq_some hstop
    unfold u32Add at hstop
    split at hstop
    · have := h.range
      have := h.drange
      omega
    · cases hstop
  cases u32Add_eq_some hstop
  simp only [ExpertCache.isWedged, h.partOf_alone, h.dparts, u32Add, if_pos hbound,
    Option.bind_eq_bind, Option.bind_some, List.getElem?_cons_zero, Nat.add_sub_cancel_left]
  rw [← hw, Nat.add_sub_cancel_left, h.range.1, h.range.2, h.drange.1, h.drange.2]
  have hrange : List.range' (l * sh.slotsPerPartition) sh.slotsPerPartition =
      (List.range' 0 sh.slotsPerPartition).map (l * sh.slotsPerPartition + ·) := by
    rw [List.map_add_range', Nat.add_zero]
  rw [hrange, List.all_map]
  rw [Option.some_inj, Bool.eq_iff_iff, List.all_eq_true, List.all_eq_true]
  refine forall_congr' fun i => imp_congr_right fun hi => ?_
  have hlt : i < sh.slotsPerPartition := by simpa using hi
  rw [Function.comp_apply, h.slots i hlt]

theorem publish (h : Layer sh l c d part dpart) (hi : i < sh.slotsPerPartition)
    (hpub : c.publish (l * sh.slotsPerPartition + i) = some c') :
    ∃ d', d.publish i = some d' ∧ Layer sh l c' d' part dpart := by
  obtain ⟨s, hs, hpub⟩ := Option.bind_eq_some_iff.mp hpub
  obtain ⟨hlt, -⟩ := List.getElem?_eq_some_iff.mp hs
  cases hpub
  rw [h.slots i hi] at hs
  refine ⟨_, ?_, h.set hlt hi _ c.hits d.hits⟩
  simp [ExpertCache.publish, hs]

theorem release (h : Layer sh l c d part dpart) (hi : i < sh.slotsPerPartition)
    (hrel : c.release (l * sh.slotsPerPartition + i) = some c') :
    ∃ d', d.release i = some d' ∧ Layer sh l c' d' part dpart := by
  obtain ⟨s, hs, hrel⟩ := Option.bind_eq_some_iff.mp hrel
  obtain ⟨hlt, -⟩ := List.getElem?_eq_some_iff.mp hs
  by_cases hpins : 0 < s.pins
  · rw [if_pos hpins] at hrel
    cases hrel
    rw [h.slots i hi] at hs
    refine ⟨_, ?_, h.set hlt hi _ c.hits d.hits⟩
    simp [ExpertCache.release, hs, hpins]
  · rw [if_neg hpins] at hrel
    cases hrel

theorem decayAll (h : Layer sh l c d part dpart) :
    Layer sh l c.decayAll d.decayAll { part with insertsSinceDecay := 0 }
      { dpart with insertsSinceDecay := 0 } := by
  refine ⟨fun i hi => ?_, ?_, ?_, ?_, h.range, h.drange, h.map, rfl, h.decay⟩
  · simp [ExpertCache.decayAll, h.slots i hi]
  · simp [ExpertCache.decayAll, h.length]
  · simp [ExpertCache.decayAll, h.get]
  · simp [ExpertCache.decayAll, h.dparts]

end Layer

/-! ### Calls of another layer -/

/-- Nothing but partition `p` changed. -/
structure OnlyPartition (sh : Shape) (p : Nat) (c c' : ExpertCache) : Prop where
  slots : ∀ i, ¬sh.Owns p i → c'.slots[i]? = c.slots[i]?
  parts : ∀ q, q ≠ p → c'.parts[q]? = c.parts[q]?
  decay : c'.decayInterval = c.decayInterval

namespace OnlyPartition

variable {sh : Shape} {p slot : Nat} {c c' : ExpertCache} {part : Partition}

theorem rfl : OnlyPartition sh p c c := ⟨fun _ _ => Eq.refl _, fun _ _ => Eq.refl _, Eq.refl _⟩

theorem set (hown : sh.Owns p slot) (s : SlotState) (n : Nat) :
    OnlyPartition sh p c { c with slots := c.slots.set slot s, hits := n } :=
  ⟨fun _ hi => List.getElem?_set_ne (by rintro rfl; exact hi hown), fun _ _ => Eq.refl _,
    Eq.refl _⟩

theorem touch (hown : sh.Owns p slot) (htouch : c.touch slot = some c') :
    OnlyPartition sh p c c' := by
  obtain ⟨s, -, htouch⟩ := Option.bind_eq_some_iff.mp htouch
  obtain ⟨pins, -, htouch⟩ := Option.bind_eq_some_iff.mp htouch
  cases htouch
  exact set hown _ _

theorem claim {id : Nat} {v : SlotState} (hc : Inv sh c) (hpart : c.parts[p]? = some part)
    (hown : sh.Owns p slot) : OnlyPartition sh p c (c.claim p part id slot v) := by
  obtain ⟨hbase, hlen⟩ := hc.range p part hpart
  have hset : ∀ i, ¬sh.Owns p i → (c.slots.set slot
      { id := some id, freq := 1, pins := 1, ready := false })[i]? = c.slots[i]? :=
    fun i hi => List.getElem?_set_ne (by rintro rfl; exact hi hown)
  by_cases hdecay : c.decayInterval ≤ part.insertsSinceDecay + 1
  · simp only [ExpertCache.claim, if_pos hdecay]
    refine ⟨fun i hi => ?_, fun q hq => List.getElem?_set_ne (Ne.symm hq), Eq.refl _⟩
    have houtside : ¬(p * sh.slotsPerPartition ≤ i ∧
        i < p * sh.slotsPerPartition + sh.slotsPerPartition) := hi
    rw [← hset i hi]
    simp only [halveRange, List.getElem?_mapIdx, hbase, hlen, if_neg houtside, Option.map_id']
  · simp only [ExpertCache.claim, if_neg hdecay]
    exact ⟨hset, fun q hq => List.getElem?_set_ne (Ne.symm hq), Eq.refl _⟩

theorem acquire {id : Nat} {r : Lookup} (hc : Inv sh c) (hid : c.partOf id = some p)
    (hacq : c.acquire id = some (r, c')) : OnlyPartition sh p c c' := by
  obtain ⟨p', part, hp, hpart, hcases⟩ := acquire_inv hacq
  cases hid.symm.trans hp
  cases hcases with
  | hit hmap htouch => exact touch ((hc.mapped p part hpart _ _).mp hmap).1 htouch
  | miss hmap hscan hv =>
      obtain ⟨hmem, -⟩ := (scanVictim_some hscan).resolve_left nofun
      exact claim hc hpart ((hc.mem_range hpart _).mp hmem)
  | stalled => exact .rfl

theorem lookupReady {id : Nat} {r : Option Nat} (hc : Inv sh c) (hid : c.partOf id = some p)
    (hlook : c.lookupReady id = some (r, c')) : OnlyPartition sh p c c' := by
  obtain ⟨p', part, hp, hpart, hcases⟩ := lookupReady_inv hlook
  cases hid.symm.trans hp
  rcases hcases with ⟨-, rfl⟩ | ⟨slot, s, hmap, -, -, htouch, -⟩
  · exact .rfl
  · exact touch ((hc.mapped p part hpart _ _).mp hmap).1 htouch

theorem publish (hown : sh.Owns p slot) (hpub : c.publish slot = some c') :
    OnlyPartition sh p c c' := by
  obtain ⟨s, -, hpub⟩ := Option.bind_eq_some_iff.mp hpub
  cases hpub
  exact set hown _ c.hits

theorem release (hown : sh.Owns p slot) (hrel : c.release slot = some c') :
    OnlyPartition sh p c c' := by
  obtain ⟨s, -, hrel⟩ := Option.bind_eq_some_iff.mp hrel
  by_cases hpins : 0 < s.pins
  · rw [if_pos hpins] at hrel
    cases hrel
    exact set hown _ c.hits
  · rw [if_neg hpins] at hrel
    cases hrel

end OnlyPartition

/-- What another partition does leaves a layer alone. -/
theorem Layer.of_onlyPartition {sh : Shape} {l p : Nat} {c c' d : ExpertCache}
    {part dpart : Partition} (h : Layer sh l c d part dpart) (hother : OnlyPartition sh p c c')
    (hne : l ≠ p) : Layer sh l c' d part dpart := by
  refine h.frame (fun i hi => hother.slots _ fun hown => hne ?_) (hother.parts l hne) hother.decay
  exact Shape.Owns.unique ⟨Nat.le_add_right _ _, Nat.add_lt_add_left hi _⟩ hown

/-! ### Runs -/

section Runs

variable {sh : Shape} {l : Nat} {c c' d : ExpertCache} {part dpart : Partition} {op : CacheCall}
  {out : Outcome}

theorem call_inv (hc : Inv sh c) (hcall : c.call op = some (out, c')) : Inv sh c' := by
  cases op with
  | acquire id =>
      obtain ⟨⟨r, c₁⟩, hacq, heq⟩ := Option.map_eq_some_iff.mp hcall
      cases heq
      exact (acquire_cases hc hacq).1
  | lookupReady id =>
      obtain ⟨⟨r, c₁⟩, hlook, heq⟩ := Option.map_eq_some_iff.mp hcall
      cases heq
      exact (lookupReady_cases hc hlook).1
  | isWedged id =>
      obtain ⟨b, -, heq⟩ := Option.map_eq_some_iff.mp hcall
      cases heq
      exact hc
  | publish slot =>
      obtain ⟨c₁, hpub, heq⟩ := Option.map_eq_some_iff.mp hcall
      cases heq
      exact (publish_spec hc hpub).1
  | release slot =>
      obtain ⟨c₁, hrel, heq⟩ := Option.map_eq_some_iff.mp hcall
      cases heq
      exact (release_spec hc hrel).1
  | decayAll =>
      cases hcall
      exact decayAll_inv hc

/-- The id of an expert folds to its layer. -/
theorem Inv.partOf_flatId {e : Nat} (hc : Inv sh c) (hl : l < sh.partitions)
    (he : e < sh.idsPerPartition) : c.partOf (flatId sh.idsPerPartition (l, e)) = some l := by
  have hdiv : flatId sh.idsPerPartition (l, e) / sh.idsPerPartition = l := by
    show (l * sh.idsPerPartition + e) / sh.idsPerPartition = l
    rw [Nat.mul_comm, Nat.mul_add_div (by omega), Nat.div_eq_of_lt he, Nat.add_zero]
  unfold partOf
  rw [hc.parts_length, hc.ids, hdiv]
  split
  case isTrue hone => rw [show l = 0 by omega]
  case isFalse =>
    rw [if_neg (by omega), Nat.min_eq_left (by omega)]

/-- A named call is about the partition its id folds to, or its slot is in. -/
theorem partOf_of_layer {id : Nat} (hc : Inv sh c)
    (hn : ∃ l e, l < sh.partitions ∧ e < sh.idsPerPartition ∧
      id = flatId sh.idsPerPartition (l, e)) :
    c.partOf id = some (id / sh.idsPerPartition) := by
  obtain ⟨l, e, hl, he, rfl⟩ := hn
  rw [hc.partOf_flatId hl he]
  show some l = some ((l * sh.idsPerPartition + e) / sh.idsPerPartition)
  rw [Nat.mul_comm, Nat.mul_add_div (by omega), Nat.div_eq_of_lt he, Nat.add_zero]

theorem owns_div {slot : Nat} (hslot : slot < sh.partitions * sh.slotsPerPartition) :
    sh.Owns (slot / sh.slotsPerPartition) slot := by
  have hpos : 0 < sh.slotsPerPartition := by
    by_contra hzero
    rw [Nat.eq_zero_of_not_pos hzero, Nat.mul_zero] at hslot
    exact absurd hslot (Nat.not_lt_zero _)
  refine ⟨Nat.div_mul_le_self _ _, ?_⟩
  have := Nat.lt_succ_self (slot / sh.slotsPerPartition)
  rw [Nat.div_lt_iff_lt_mul hpos, Nat.succ_mul] at this
  exact this

/-- A slot of the layer, counted from where the layer starts. -/
theorem own_slot {slot : Nat} (hslot : slot < sh.partitions * sh.slotsPerPartition) :
    slot = slot / sh.slotsPerPartition * sh.slotsPerPartition +
        (slot - slot / sh.slotsPerPartition * sh.slotsPerPartition) ∧
      slot - slot / sh.slotsPerPartition * sh.slotsPerPartition < sh.slotsPerPartition := by
  obtain ⟨hle, hlt⟩ := owns_div hslot
  omega

/-- A slot out of range is an index out of range. -/
theorem inRange_of_call (hc : Inv sh c) (hcall : c.call op = some (out, c')) :
    op.InRange (sh.partitions * sh.slotsPerPartition) := by
  cases op with
  | publish slot =>
      obtain ⟨c₁, hpub, -⟩ := Option.map_eq_some_iff.mp hcall
      obtain ⟨s, hs, -⟩ := Option.bind_eq_some_iff.mp hpub
      exact hc.slots_length ▸ (List.getElem?_eq_some_iff.mp hs).1
  | release slot =>
      obtain ⟨c₁, hrel, -⟩ := Option.map_eq_some_iff.mp hcall
      obtain ⟨s, hs, -⟩ := Option.bind_eq_some_iff.mp hrel
      exact hc.slots_length ▸ (List.getElem?_eq_some_iff.mp hs).1
  | acquire id | lookupReady id | isWedged id | decayAll => trivial

/-- A call of the layer's does the same on both sides. -/
theorem Layer.call (hc : Inv sh c) (h : Layer sh l c d part dpart)
    (hn : op.Named sh.partitions sh.idsPerPartition)
    (hl : op.layer sh.idsPerPartition sh.slotsPerPartition = some l)
    (hcall : c.call op = some (out, c')) :
    ∃ out' d' part' dpart', d.call (op.ownSlots (l * sh.slotsPerPartition)) = some (out', d') ∧
      out = out'.shift (l * sh.slotsPerPartition) ∧ Layer sh l c' d' part' dpart' := by
  have hslot := inRange_of_call hc hcall
  cases op with
  | acquire id =>
      cases hl
      obtain ⟨⟨r, c₁⟩, hacq, heq⟩ := Option.map_eq_some_iff.mp hcall
      cases heq
      obtain ⟨r', d', part', dpart', hd', rfl, hlayer⟩ := h.acquire hc (partOf_of_layer hc hn) hacq
      exact ⟨.lookup r', d', part', dpart', by simp [ExpertCache.call, CacheCall.ownSlots, hd'],
        rfl, hlayer⟩
  | lookupReady id =>
      cases hl
      obtain ⟨⟨r, c₁⟩, hlook, heq⟩ := Option.map_eq_some_iff.mp hcall
      cases heq
      obtain ⟨r', d', hd', rfl, hlayer⟩ := h.lookupReady hc (partOf_of_layer hc hn) hlook
      exact ⟨.ready r', d', _, _, by simp [ExpertCache.call, CacheCall.ownSlots, hd'], rfl, hlayer⟩
  | isWedged id =>
      cases hl
      obtain ⟨b, hw, heq⟩ := Option.map_eq_some_iff.mp hcall
      cases heq
      have hd := h.isWedged (partOf_of_layer hc hn) hw
      exact ⟨.wedged b, d, _, _, by simp [ExpertCache.call, CacheCall.ownSlots, hd], rfl, h⟩
  | publish slot =>
      cases hl
      obtain ⟨c₁, hpub, heq⟩ := Option.map_eq_some_iff.mp hcall
      cases heq
      obtain ⟨hslot, hi⟩ := own_slot hslot
      rw [hslot] at hpub
      obtain ⟨d', hd', hlayer⟩ := h.publish hi hpub
      exact ⟨.done, d', _, _, by simp [ExpertCache.call, CacheCall.ownSlots, hd'], rfl, hlayer⟩
  | release slot =>
      cases hl
      obtain ⟨c₁, hrel, heq⟩ := Option.map_eq_some_iff.mp hcall
      cases heq
      obtain ⟨hslot, hi⟩ := own_slot hslot
      rw [hslot] at hrel
      obtain ⟨d', hd', hlayer⟩ := h.release hi hrel
      exact ⟨.done, d', _, _, by simp [ExpertCache.call, CacheCall.ownSlots, hd'], rfl, hlayer⟩
  | decayAll => cases hl

/-- A call on another layer leaves this one alone. -/
theorem Layer.call_other {p : Nat} (hc : Inv sh c) (h : Layer sh l c d part dpart)
    (hn : op.Named sh.partitions sh.idsPerPartition)
    (hp : op.layer sh.idsPerPartition sh.slotsPerPartition = some p) (hne : l ≠ p)
    (hcall : c.call op = some (out, c')) : Layer sh l c' d part dpart := by
  have hslot := inRange_of_call hc hcall
  refine h.of_onlyPartition (p := p) ?_ hne
  cases op with
  | acquire id =>
      cases hp
      obtain ⟨⟨r, c₁⟩, hacq, heq⟩ := Option.map_eq_some_iff.mp hcall
      cases heq
      exact .acquire hc (partOf_of_layer hc hn) hacq
  | lookupReady id =>
      cases hp
      obtain ⟨⟨r, c₁⟩, hlook, heq⟩ := Option.map_eq_some_iff.mp hcall
      cases heq
      exact .lookupReady hc (partOf_of_layer hc hn) hlook
  | isWedged id =>
      obtain ⟨b, -, heq⟩ := Option.map_eq_some_iff.mp hcall
      cases heq
      exact .rfl
  | publish slot =>
      cases hp
      obtain ⟨c₁, hpub, heq⟩ := Option.map_eq_some_iff.mp hcall
      cases heq
      exact .publish (owns_div hslot) hpub
  | release slot =>
      cases hp
      obtain ⟨c₁, hrel, heq⟩ := Option.map_eq_some_iff.mp hcall
      cases heq
      exact .release (owns_div hslot) hrel
  | decayAll => cases hp

/-- **Run lemma**: a run of calls is, for the layer, a run of its own calls. -/
theorem Layer.runCalls {ops : List CacheCall} {outs : List Outcome} (hc : Inv sh c)
    (h : Layer sh l c d part dpart)
    (hn : ∀ op ∈ ops, op.Named sh.partitions sh.idsPerPartition)
    (hrun : c.runCalls ops = some (outs, c')) :
    ∃ louts d' part' dpart',
      d.runCalls (callsOf sh.idsPerPartition sh.slotsPerPartition l ops) = some (louts, d') ∧
      outcomesOf sh.idsPerPartition sh.slotsPerPartition l ops outs =
        louts.map (Outcome.shift (l * sh.slotsPerPartition)) ∧
      Layer sh l c' d' part' dpart' := by
  induction ops generalizing c d part dpart outs with
  | nil =>
      cases hrun
      exact ⟨[], d, part, dpart, rfl, rfl, h⟩
  | cons op ops ih =>
      obtain ⟨⟨out, c₁⟩, hcall, hrun⟩ := Option.bind_eq_some_iff.mp hrun
      obtain ⟨⟨outs', c₂⟩, hrest, hrun⟩ := Option.bind_eq_some_iff.mp hrun
      cases hrun
      have hinv := call_inv hc hcall
      have hop := hn op List.mem_cons_self
      have hops := fun op' hop' => hn op' (List.mem_cons_of_mem _ hop')
      cases hlayer : op.layer sh.idsPerPartition sh.slotsPerPartition with
      | none =>
          -- `decay_all`: every layer sees it
          have hdecay : op = .decayAll := by cases op <;> first | rfl | cases hlayer
          subst hdecay
          cases hcall
          obtain ⟨louts, d', part', dpart', hd', houts, hlayer'⟩ := ih hinv h.decayAll hops hrest
          refine ⟨.done :: louts, d', part', dpart', ?_, ?_, hlayer'⟩
          · rw [callsOf_seen rfl, runCalls_cons rfl, hd']
            rfl
          · rw [outcomesOf_seen rfl, houts]
            rfl
      | some p =>
          by_cases hp : p = l
          · subst hp
            have hseen := CacheCall.seenBy_layer hlayer
            obtain ⟨out', d₁, part₁, dpart₁, hd₁, rfl, hlayer₁⟩ := h.call hc hop hlayer hcall
            obtain ⟨louts, d', part', dpart', hd', houts, hlayer'⟩ := ih hinv hlayer₁ hops hrest
            refine ⟨out' :: louts, d', part', dpart', ?_, ?_, hlayer'⟩
            · rw [callsOf_seen hseen, runCalls_cons hd₁, hd']
              rfl
            · rw [outcomesOf_seen hseen, houts]
              rfl
          · have hunseen := CacheCall.seenBy_other hlayer hp
            have hother := h.call_other hc hop hlayer (Ne.symm hp) hcall
            obtain ⟨louts, d', part', dpart', hd', houts, hlayer'⟩ := ih hinv hother hops hrest
            refine ⟨louts, d', part', dpart', ?_, ?_, hlayer'⟩
            · rw [callsOf_unseen hunseen, hd']
            · rw [outcomesOf_unseen hunseen, houts]

/-- A call on the layer's ids and slots panics only if the stand-alone cache's
does, where the cache's slots are counted in 32 bits. -/
theorem Layer.call_eq_none {dsh : Shape} (hc : Inv sh c) (hd : Inv dsh d)
    (h : Layer sh l c d part dpart) (hl : l < sh.partitions)
    (hfits : sh.partitions * sh.slotsPerPartition < 2 ^ 32)
    (hn : op.Named sh.partitions sh.idsPerPartition)
    (hslot : op.InRange (sh.partitions * sh.slotsPerPartition))
    (hlayer : op.layer sh.idsPerPartition sh.slotsPerPartition = some l)
    (hcall : c.call op = none) : d.call (op.ownSlots (l * sh.slotsPerPartition)) = none := by
  have hrange : part.base + part.len < 2 ^ 32 := by
    have hle : (l + 1) * sh.slotsPerPartition ≤ sh.partitions * sh.slotsPerPartition :=
      Nat.mul_le_mul_right _ hl
    rw [Nat.succ_mul] at hle
    have := h.range
    omega
  -- a pin count that overflows is the layer's
  have htouch : ∀ id slot s, part.map.lookup id = some slot → c.slots[slot]? = some s →
      ∃ i, dpart.map.lookup id = some i ∧ d.slots[i]? = some s := by
    intro id slot s hmap hs
    obtain ⟨i, rfl, hi, -, hdmap⟩ := h.lookup_lt hc hmap
    exact ⟨i, hdmap, h.slots i hi ▸ hs⟩
  cases op with
  | acquire id =>
      cases hlayer
      have hacq : c.acquire id = none := Option.map_eq_none_iff.mp hcall
      rw [acquire_eq_none_iff hc (partOf_of_layer hc hn) h.get] at hacq
      obtain ⟨slot, s, hmap, hs, hover⟩ | ⟨-, hover⟩ := hacq
      · obtain ⟨i, hdmap, hds⟩ := htouch id slot s hmap hs
        have hdacq := (acquire_eq_none_iff hd (h.partOf_alone id) h.dpart_get).mpr
          (.inl ⟨i, s, hdmap, hds, hover⟩)
        exact Option.map_eq_none_iff.mpr hdacq
      · omega
  | lookupReady id =>
      cases hlayer
      have hlook : c.lookupReady id = none := Option.map_eq_none_iff.mp hcall
      refine Option.map_eq_none_iff.mpr ?_
      simp only [ExpertCache.lookupReady, partOf_of_layer hc hn, h.get, Option.bind_eq_bind,
        Option.bind_some] at hlook
      cases hmap : part.map.lookup id with
      | none => simp [hmap] at hlook
      | some slot =>
          rw [hmap] at hlook
          obtain ⟨i, rfl, hi, hlt, hdmap⟩ := h.lookup_lt hc hmap
          have hs := List.getElem?_eq_getElem hlt
          have hds := (h.slots i hi).symm.trans hs
          simp only [hs, Option.bind_some] at hlook
          by_cases hready :
              (c.slots[id / sh.idsPerPartition * sh.slotsPerPartition + i]).ready = true
          · rw [if_pos hready, Option.bind_eq_none_iff] at hlook
            have hnone : c.touch (id / sh.idsPerPartition * sh.slotsPerPartition + i) = none :=
              Option.eq_none_iff_forall_ne_some.mpr fun c' hc' => nomatch hlook c' hc'
            rw [touch_eq_none_iff hs] at hnone
            simp [ExpertCache.lookupReady, h.partOf_alone, h.dparts, hdmap, hds, hready,
              (touch_eq_none_iff hds).mpr hnone]
          · rw [if_neg hready] at hlook
            cases hlook
  | isWedged id =>
      cases hlayer
      have hw : c.isWedged id = none := Option.map_eq_none_iff.mp hcall
      simp only [ExpertCache.isWedged, partOf_of_layer hc hn, h.get, u32Add, if_pos hrange,
        Option.bind_eq_bind, Option.bind_some] at hw
      cases hw
  | publish slot =>
      have hpub : c.publish slot = none := Option.map_eq_none_iff.mp hcall
      have hlt : slot < c.slots.length := hc.slots_length ▸ hslot
      simp [ExpertCache.publish, List.getElem?_eq_getElem hlt] at hpub
  | release slot =>
      cases hlayer
      have hrel : c.release slot = none := Option.map_eq_none_iff.mp hcall
      refine Option.map_eq_none_iff.mpr ?_
      have hlt : slot < c.slots.length := hc.slots_length ▸ hslot
      have hs := List.getElem?_eq_getElem hlt
      obtain ⟨hown, hi⟩ := own_slot hslot
      have hds : d.slots[slot - slot / sh.slotsPerPartition * sh.slotsPerPartition]? =
          some c.slots[slot] := by
        rw [← h.slots _ hi, ← hown, hs]
      simp only [ExpertCache.release, hs, hds, Option.bind_eq_bind, Option.bind_some] at hrel ⊢
      by_cases hpins : 0 < c.slots[slot].pins
      · rw [if_pos hpins] at hrel
        cases hrel
      · rw [if_neg hpins]
  | decayAll => cases hlayer

theorem runCalls_inv {ops : List CacheCall} {outs : List Outcome} (hc : Inv sh c)
    (hrun : c.runCalls ops = some (outs, c')) : Inv sh c' := by
  induction ops generalizing c outs with
  | nil =>
      cases hrun
      exact hc
  | cons op ops ih =>
      obtain ⟨⟨out, c₁⟩, hcall, hrun⟩ := Option.bind_eq_some_iff.mp hrun
      obtain ⟨⟨outs', c₂⟩, hrest, hrun⟩ := Option.bind_eq_some_iff.mp hrun
      cases hrun
      exact ih (call_inv hc hcall) hrest

/-- Where a run panics: at a call, after a run that does not. -/
theorem runCalls_eq_none {ops : List CacheCall} (hrun : c.runCalls ops = none) :
    ∃ xs op ys outs c₁, ops = xs ++ op :: ys ∧ c.runCalls xs = some (outs, c₁) ∧
      c₁.call op = none := by
  induction ops generalizing c with
  | nil => cases hrun
  | cons op ops ih =>
      cases hcall : c.call op with
      | none => exact ⟨[], op, ops, [], c, rfl, rfl, hcall⟩
      | some r =>
          obtain ⟨out, c₁⟩ := r
          rw [runCalls_cons hcall, Option.map_eq_none_iff] at hrun
          obtain ⟨xs, op', ys, outs, c₂, rfl, hxs, hop'⟩ := ih hrun
          refine ⟨op :: xs, op', ys, out :: outs, c₂, rfl, ?_, hop'⟩
          rw [runCalls_cons hcall, hxs]
          rfl

theorem runCalls_append_none {xs ys : List CacheCall} {outs : List Outcome}
    (hxs : c.runCalls xs = some (outs, c')) (hop : c'.call op = none) :
    c.runCalls (xs ++ op :: ys) = none := by
  induction xs generalizing c outs with
  | nil =>
      cases hxs
      simp [ExpertCache.runCalls, hop]
  | cons x xs ih =>
      obtain ⟨⟨out, c₁⟩, hcall, hxs⟩ := Option.bind_eq_some_iff.mp hxs
      obtain ⟨⟨outs', c₂⟩, hrest, hxs⟩ := Option.bind_eq_some_iff.mp hxs
      cases hxs
      rw [List.cons_append, runCalls_cons hcall, ih hrest]
      rfl

/-- A fresh cache is, layer by layer, a fresh stand-alone cache. -/
theorem Layer.partitioned {L E S D : Nat} (hnew : ExpertCache.partitioned L E S D = some c)
    (hl : l < L) :
    ∃ d part dpart, ExpertCache.partitioned 1 E S D = some d ∧
      Layer ⟨L, E, S⟩ l c d part dpart := by
  unfold ExpertCache.partitioned at hnew
  split at hnew
  case isFalse => cases hnew
  case isTrue hpos =>
  cases hnew
  obtain ⟨-, hS, hD, -⟩ := hpos
  refine ⟨_, ⟨l * S, S, ∅, 0⟩, ⟨0 * S, S, ∅, 0⟩, if_pos ⟨Nat.one_pos, hS, hD, by simp⟩, ?_⟩
  refine ⟨fun i hi => ?_, by simp, by simp [hl], by simp, ⟨rfl, rfl⟩, ⟨by simp, rfl⟩, fun id => ?_,
    rfl, rfl⟩
  · have hle : (l + 1) * S ≤ L * S := Nat.mul_le_mul_right _ hl
    rw [Nat.succ_mul] at hle
    have hin : l * S + i < L * S := by
      show l * S + i < L * S
      have : i < S := hi
      omega
    have hin' : i < 1 * S := by
      rw [Nat.one_mul]
      exact hi
    simp only [List.getElem?_replicate, if_pos hin, if_pos hin']
  · simp

/-- A cache partitioned by layer answers every run of calls as the layers'
stand-alone caches do, each seeing the calls on its own layer, and is, layer by
layer, what those caches are after the run. Where its slots are counted in 32
bits and only slots of the cache are named, it panics only if one of them does. -/
theorem refines_layers {L E S D : Nat} {ops : List CacheCall}
    (hnew : ExpertCache.partitioned L E S D = some c) (hn : ∀ op ∈ ops, op.Named L E) :
    (∀ outs c', c.runCalls ops = some (outs, c') → ∀ l < L, ∃ d d' louts part dpart,
      ExpertCache.partitioned 1 E S D = some d ∧
      d.runCalls (callsOf E S l ops) = some (louts, d') ∧
      outcomesOf E S l ops outs = louts.map (Outcome.shift (l * S)) ∧
      Layer ⟨L, E, S⟩ l c' d' part dpart) ∧
    (c.runCalls ops = none → L * S < 2 ^ 32 → (∀ op ∈ ops, op.InRange (L * S)) →
      ∃ l < L, ∃ d, ExpertCache.partitioned 1 E S D = some d ∧
        d.runCalls (callsOf E S l ops) = none) := by
  obtain ⟨hc, -⟩ := partitioned_spec hnew
  refine ⟨fun outs c' hrun l hl => ?_, fun hrun hfits hslots => ?_⟩
  · obtain ⟨d, part, dpart, hd, hlayer⟩ := Layer.partitioned hnew hl
    obtain ⟨louts, d', part', dpart', hdrun, houts, hlayer'⟩ := hlayer.runCalls hc hn hrun
    exact ⟨d, d', louts, part', dpart', hd, hdrun, houts, hlayer'⟩
  · obtain ⟨xs, op, ys, outs, c₁, rfl, hxs, hop⟩ := runCalls_eq_none hrun
    have hopn := hn op (by simp)
    have hslot := hslots op (by simp)
    have hxsn : ∀ x ∈ xs, x.Named L E := fun x hx => hn x (by simp [hx])
    have hc₁ := runCalls_inv hc hxs
    have hlt : ∀ {l}, op.layer E S = some l → l < L := by
      intro l hlayer
      cases op with
      | decayAll => cases hlayer
      | publish slot | release slot =>
          cases hlayer
          exact Nat.div_lt_of_lt_mul (Nat.mul_comm L S ▸ hslot)
      | acquire id | lookupReady id | isWedged id =>
          cases hlayer
          obtain ⟨l, e, hl, he, rfl⟩ := hopn
          exact Nat.div_lt_of_lt_mul (by
            show l * E + e < E * L
            have hle : (l + 1) * E ≤ L * E := Nat.mul_le_mul_right _ hl
            rw [Nat.succ_mul] at hle
            rw [Nat.mul_comm E L]
            omega)
    cases hlayer : op.layer E S with
    | none =>
        -- `decay_all` does not panic
        cases op with
        | decayAll => cases hop
        | acquire id | lookupReady id | isWedged id | publish slot | release slot => cases hlayer
    | some l =>
        obtain ⟨d, part, dpart, hd, hrel⟩ := Layer.partitioned hnew (hlt hlayer)
        obtain ⟨louts, d', part', dpart', hdrun, -, hrel'⟩ := hrel.runCalls hc hxsn hxs
        have hd' := runCalls_inv (partitioned_spec hd).1 hdrun
        have hnone := hrel'.call_eq_none hc₁ hd' (hlt hlayer) hfits hopn hslot hlayer hop
        refine ⟨l, hlt hlayer, d, hd, ?_⟩
        have hcalls : callsOf E S l (xs ++ op :: ys) =
            callsOf E S l xs ++ op.ownSlots (l * S) :: callsOf E S l ys := by
          rw [← callsOf_seen (CacheCall.seenBy_layer hlayer)]
          simp [callsOf]
        rw [hcalls]
        exact runCalls_append_none hdrun hnone

/-- Two layers of one slot: the second acquire of layer 0 evicts layer 0's own. -/
theorem refines_layers_two_layers :
    (∀ outs c', ((partitioned 2 4 1 100).bind fun c => c.runCalls
        [.acquire 0, .acquire 4, .release 0, .acquire 1, .lookupReady 4]) = some (outs, c') →
      ∀ l < 2, ∃ d d' louts part dpart, ExpertCache.partitioned 1 4 1 100 = some d ∧
        d.runCalls (callsOf 4 1 l [.acquire 0, .acquire 4, .release 0, .acquire 1, .lookupReady 4]) =
          some (louts, d') ∧
        outcomesOf 4 1 l [.acquire 0, .acquire 4, .release 0, .acquire 1, .lookupReady 4] outs =
          louts.map (Outcome.shift (l * 1)) ∧
        Layer ⟨2, 4, 1⟩ l c' d' part dpart) ∧
    ((partitioned 2 4 1 100).bind fun c => (c.runCalls
        [.acquire 0, .acquire 4, .release 0, .acquire 1, .lookupReady 4]).map Prod.fst) =
      some [.lookup (.miss 0 none), .lookup (.miss 1 none), .done, .lookup (.miss 0 (some 0)),
        .ready none] := by
  obtain ⟨c, hc⟩ : ∃ c, partitioned 2 4 1 100 = some c := ⟨_, rfl⟩
  refine ⟨?_, by decide⟩
  rw [hc]
  have hn : ∀ op ∈ [CacheCall.acquire 0, .acquire 4, .release 0, .acquire 1, .lookupReady 4],
      op.Named 2 4 := by
    intro op hop
    simp only [List.mem_cons, List.not_mem_nil, or_false] at hop
    obtain rfl | rfl | rfl | rfl | rfl := hop
    · exact ⟨0, 0, by decide⟩
    · exact ⟨1, 0, by decide⟩
    · trivial
    · exact ⟨0, 1, by decide⟩
    · exact ⟨1, 0, by decide⟩
  exact (refines_layers hc hn).1

end Runs

end ExpertCache

end LlmPager
