import LlmPager.Core.Eviction

/-!
# LlmPager.Core.WaveGrants

A caller that finds no pin in a partition and asks for no more ids than it has
slots gets them all, one after the other, each on a slot of its own
(`Ledger.reachable_acquireAll`). This is what waves of expert fetches are sized
to: `Wave` counts the pins of the partition against the grants so far.
-/

namespace LlmPager

/-- The slot an answer grants. -/
def Lookup.slot? : Lookup → Option Nat
  | .hit slot | .miss slot _ => some slot
  | .stalled => none

namespace ExpertCache

variable {sh : Shape} {c c' : ExpertCache}

/-- Acquire ids one after the other. -/
def acquireAll (c : ExpertCache) : List Nat → Option (List Lookup × ExpertCache)
  | [] => some ([], c)
  | id :: ids => do
      let (r, c) ← c.acquire id
      let (rs, c) ← c.acquireAll ids
      some (r :: rs, c)

/-- The grants of a wave so far, in a partition that had no pin: they are the
partition's pins, and none was given up. -/
structure Wave (sh : Shape) (c : ExpertCache) (p : Nat) (granted : List (Nat × Nat)) : Prop where
  inv : Inv sh c
  held : ∀ x ∈ granted, sh.Owns p x.2 ∧ (c.view x.2).id = some x.1 ∧ 0 < (c.view x.2).pins
  pinned : ∀ i, sh.Owns p i → 0 < (c.view i).pins → ∃ id, (id, i) ∈ granted
  pins : ∀ i, sh.Owns p i → (c.view i).pins ≤ granted.length

namespace Wave

variable {p : Nat} {granted : List (Nat × Nat)}

/-- Fewer grants than slots: some slot is not pinned. -/
theorem exists_unpinned (h : Wave sh c p granted) (hlen : granted.length < sh.slotsPerPartition) :
    ¬∀ i, sh.Owns p i → 0 < (c.view i).pins := by
  intro hall
  let range := Finset.Ico (p * sh.slotsPerPartition) (p * sh.slotsPerPartition + sh.slotsPerPartition)
  have hsub : range ⊆ (granted.map (·.2)).toFinset := by
    intro i hi
    have hown : sh.Owns p i := Finset.mem_Ico.mp hi
    obtain ⟨id, hid⟩ := h.pinned i hown (hall i hown)
    exact List.mem_toFinset.mpr (List.mem_map.mpr ⟨(id, i), hid, rfl⟩)
  have hcard : range.card ≤ granted.length := by
    calc range.card ≤ (granted.map (·.2)).toFinset.card := Finset.card_le_card hsub
      _ ≤ (granted.map (·.2)).length := List.toFinset_card_le _
      _ = granted.length := List.length_map ..
  have : range.card = sh.slotsPerPartition := by simp [range]
  omega

/-- One more id of the partition, while there are fewer grants than slots: it is
granted a slot. -/
theorem acquire {id : Nat} {r : Lookup} (h : Wave sh c p granted) (hp : sh.foldOf id = p)
    (hlen : granted.length < sh.slotsPerPartition) (hacq : c.acquire id = some (r, c')) :
    ∃ slot, r.slot? = some slot ∧ Wave sh c' p (granted ++ [(id, slot)]) := by
  obtain ⟨hinv, hcases⟩ := acquire_cases h.inv hacq
  rw [hp] at hcases
  rcases hcases with ⟨slot, rfl, hid, hview⟩ | ⟨slot, rfl, hown, -, hpins, -, hview⟩ |
    ⟨rfl, rfl, -, hall⟩
  · obtain ⟨hown, -⟩ := h.inv.resident hid
    rw [hp] at hown
    refine ⟨slot, rfl, hinv, fun x hx => ?_, fun i hi hpos => ?_, fun i hi => ?_⟩
    · rw [hview, SlotTable.pin_id, SlotTable.pin_pins]
      rcases List.mem_append.mp hx with hold | hnew
      · obtain ⟨ho, hi, hpos⟩ := h.held x hold
        exact ⟨ho, hi, Nat.lt_of_lt_of_le hpos (Nat.le_add_right _ _)⟩
      · cases List.mem_singleton.mp hnew
        exact ⟨hown, hid, by simp⟩
    · rw [hview, SlotTable.pin_pins] at hpos
      by_cases hslot : i = slot
      · exact ⟨id, List.mem_append_right _ (by rw [hslot]; exact List.mem_cons_self)⟩
      · rw [if_neg hslot] at hpos
        obtain ⟨id', hid'⟩ := h.pinned i hi hpos
        exact ⟨id', List.mem_append_left _ hid'⟩
    · rw [hview, SlotTable.pin_pins, List.length_append, List.length_singleton]
      have := h.pins i hi
      split <;> omega
  · refine ⟨slot, rfl, hinv, fun x hx => ?_, fun i hi hpos => ?_, fun i hi => ?_⟩
    · rcases List.mem_append.mp hx with hold | hnew
      · obtain ⟨ho, hi, hpos⟩ := h.held x hold
        -- the claimed slot had no pin, so it is nobody's
        have hne : x.2 ≠ slot := by
          intro heq
          rw [heq, hpins] at hpos
          exact absurd hpos (Nat.lt_irrefl 0)
        rw [hview, SlotTable.claim_of_ne hne]
        exact ⟨ho, hi, hpos⟩
      · cases List.mem_singleton.mp hnew
        rw [hview, SlotTable.claim_self]
        exact ⟨hown, rfl, Nat.one_pos⟩
    · rw [hview, SlotTable.claim_pins] at hpos
      by_cases hslot : i = slot
      · exact ⟨id, List.mem_append_right _ (by rw [hslot]; exact List.mem_cons_self)⟩
      · rw [if_neg hslot] at hpos
        obtain ⟨id', hid'⟩ := h.pinned i hi hpos
        exact ⟨id', List.mem_append_left _ hid'⟩
    · rw [hview, SlotTable.claim_pins, List.length_append, List.length_singleton]
      have := h.pins i hi
      split <;> omega
  · exact absurd hall (h.exists_unpinned hlen)

/-- What a wave evicts is none of its own. -/
theorem evicted_ne {id old slot : Nat} (h : Wave sh c p granted)
    (hacq : c.acquire id = some (.miss slot (some old), c')) : ∀ x ∈ granted, x.1 ≠ old := by
  obtain ⟨-, ⟨_, hr, -⟩ | ⟨slot', hr, -, -, hpins, -⟩ | ⟨hr, -⟩⟩ := acquire_cases h.inv hacq
  · cases hr
  · injection hr with _ hold
    rintro x hx rfl
    obtain ⟨-, hid, hpos⟩ := h.held x hx
    rw [h.inv.slot_unique hid hold.symm, hpins] at hpos
    exact absurd hpos (Nat.lt_irrefl 0)
  · cases hr

/-- **Run lemma** of a wave. -/
theorem acquireAll {ids : List Nat} {rs : List Lookup} (h : Wave sh c p granted)
    (hp : ∀ id ∈ ids, sh.foldOf id = p)
    (hlen : granted.length + ids.length ≤ sh.slotsPerPartition)
    (hacq : c.acquireAll ids = some (rs, c')) :
    (∃ slots, rs.map Lookup.slot? = slots.map some ∧ slots.length = ids.length ∧
      Wave sh c' p (granted ++ ids.zip slots)) ∧
    ∀ (i : Nat) slot old, rs[i]? = some (Lookup.miss slot (some old)) →
      (∀ x ∈ granted, x.1 ≠ old) ∧ ∀ j < i, ids[j]? ≠ some old := by
  induction ids generalizing c granted rs with
  | nil =>
      cases hacq
      exact ⟨⟨[], rfl, rfl, by simpa using h⟩, nofun⟩
  | cons id ids ih =>
      obtain ⟨⟨r, c₁⟩, hhead, hacq⟩ := Option.bind_eq_some_iff.mp hacq
      obtain ⟨⟨rs', c₂⟩, htail, hacq⟩ := Option.bind_eq_some_iff.mp hacq
      cases hacq
      rw [List.length_cons] at hlen
      obtain ⟨slot, hslot, hwave⟩ := h.acquire (hp id List.mem_cons_self) (by omega) hhead
      obtain ⟨⟨slots, hslots, hlength, hdone⟩, hevicted⟩ := ih hwave
        (fun x hx => hp x (List.mem_cons_of_mem _ hx))
        (by rw [List.length_append, List.length_singleton]; omega) htail
      refine ⟨⟨slot :: slots, by simp [hslot, hslots], by simp [hlength], by simpa using hdone⟩, ?_⟩
      intro i slot' old hi
      cases i with
      | zero =>
          rw [List.getElem?_cons_zero] at hi
          cases hi
          exact ⟨h.evicted_ne hhead, nofun⟩
      | succ i =>
          obtain ⟨hne, hids⟩ := hevicted i slot' old hi
          refine ⟨fun x hx => hne x (List.mem_append_left _ hx), fun j hj => ?_⟩
          cases j with
          | zero =>
              -- the id granted first, in the list the rest of the wave knows
              intro heq
              exact hne (id, slot) (List.mem_append_right _ List.mem_cons_self) (Option.some.inj heq)
          | succ j => exact hids j (Nat.lt_of_succ_lt_succ hj)

/-- A wave does not panic: no pin count reaches the limit of a `u32`. -/
theorem acquireAll_isSome {ids : List Nat} (h : Wave sh c p granted) (hlt : p < sh.partitions)
    (hp : ∀ id ∈ ids, c.partOf id = some p)
    (hlen : granted.length + ids.length ≤ sh.slotsPerPartition)
    (hrange : p * sh.slotsPerPartition + sh.slotsPerPartition < 2 ^ 32) :
    (c.acquireAll ids).isSome := by
  induction ids generalizing c granted with
  | nil => rfl
  | cons id ids ih =>
      rw [List.length_cons] at hlen
      have hid := hp id List.mem_cons_self
      have hfold := (h.inv.partOf_eq hid).symm
      have hpart := List.getElem?_eq_getElem (h.inv.parts_length.symm ▸ hlt)
      obtain ⟨hbase, hpartLen⟩ := h.inv.range p _ hpart
      have hsome : c.acquire id ≠ none := by
        rw [Ne, acquire_eq_none_iff h.inv hid hpart]
        rintro (⟨slot, s, hmap, hs, hover⟩ | ⟨-, hover⟩)
        · have hpins := h.pins slot ((h.inv.mapped p _ hpart id slot).mp hmap).1
          rw [view_eq hs] at hpins
          have : s.pins ≤ granted.length := hpins
          omega
        · rw [hbase, hpartLen] at hover
          omega
      obtain ⟨⟨r, c₁⟩, hhead⟩ := Option.ne_none_iff_exists'.mp hsome
      obtain ⟨slot, -, hwave⟩ := h.acquire hfold (by omega) hhead
      have hparts : ∀ x, c₁.partOf x = c.partOf x := fun x =>
        partOf_congr (hwave.inv.ids.trans h.inv.ids.symm)
          (hwave.inv.parts_length.trans h.inv.parts_length.symm) x
      obtain ⟨⟨rs, c₂⟩, htail⟩ := Option.isSome_iff_exists.mp
        (ih hwave (fun x hx => (hparts x).trans (hp x (List.mem_cons_of_mem _ hx)))
          (by rw [List.length_append, List.length_singleton]; omega))
      simp [ExpertCache.acquireAll, hhead, htail]

end Wave

/-- What acquiring `ids` of partition `p` yields: a slot for each, distinct ids on
distinct slots, all of them resident and pinned in the end, and none of them
evicted on the way. -/
def GrantsAll (p : Nat) (ids : List Nat) (rs : List Lookup) (c' : ExpertCache) : Prop :=
  (∃ slots, rs.map Lookup.slot? = slots.map some ∧ slots.length = ids.length ∧
    (∀ x ∈ ids.zip slots, ∀ y ∈ ids.zip slots, x.1 ≠ y.1 → x.2 ≠ y.2) ∧
    ∀ x ∈ ids.zip slots,
      (∃ s, c'.slots[x.2]? = some s ∧ s.id = some x.1 ∧ 0 < s.pins) ∧
      ∃ part, c'.parts[p]? = some part ∧ part.map.lookup x.1 = some x.2) ∧
  ∀ (i : Nat) slot old, rs[i]? = some (Lookup.miss slot (some old)) → ∀ j < i, ids[j]? ≠ some old

theorem Wave.grantsAll {p : Nat} {ids : List Nat} {rs : List Lookup} (h : Wave sh c p [])
    (hp : ∀ id ∈ ids, sh.foldOf id = p) (hlen : ids.length ≤ sh.slotsPerPartition)
    (hacq : c.acquireAll ids = some (rs, c')) : GrantsAll p ids rs c' := by
  obtain ⟨⟨slots, hslots, hlength, hwave⟩, hevicted⟩ := h.acquireAll hp (by simpa using hlen) hacq
  rw [List.nil_append] at hwave
  refine ⟨⟨slots, hslots, hlength, fun x hx y hy hne heq => ?_, fun x hx => ?_⟩,
    fun i slot old hi => (hevicted i slot old hi).2⟩
  · have hxy := (hwave.held x hx).2.1
    rw [heq, (hwave.held y hy).2.1] at hxy
    exact hne (Option.some.inj hxy).symm
  · obtain ⟨-, hid, hpos⟩ := hwave.held x hx
    have hs := List.getElem?_eq_getElem (lt_of_view_pins hpos)
    rw [view_eq hs] at hid hpos
    obtain ⟨-, part, hpart, hlook⟩ := hwave.inv.resident (hwave.held x hx).2.1
    rw [hp x.1 (List.of_mem_zip hx).1] at hpart
    exact ⟨⟨_, hs, hid, hpos⟩, part, hpart, hlook⟩

end ExpertCache

namespace Ledger

open ExpertCache

variable {l : Ledger}

/-- **Waves fit.** In every reachable state, a partition without pins grants any
list of at most `len` of its ids; it panics only where the end of its range
leaves the `u32`. -/
theorem reachable_acquireAll {partitions idsPerPartition slotsPerPartition decayInterval : Nat}
    (h : (system partitions idsPerPartition slotsPerPartition decayInterval).Reachable
      Lib.System.anyStep l) {p : Nat} {part : Partition} {ids : List Nat}
    (hpart : l.cache.parts[p]? = some part)
    (hfree : ∀ i s, part.Owns i → l.cache.slots[i]? = some s → s.pins = 0)
    (hids : ∀ id ∈ ids, l.cache.partOf id = some p) (hlen : ids.length ≤ part.len) :
    (∀ rs c', l.cache.acquireAll ids = some (rs, c') → GrantsAll p ids rs c') ∧
      (part.base + part.len < 2 ^ 32 → (l.cache.acquireAll ids).isSome) := by
  have hinv := (reachable_inv h).cache
  obtain ⟨hbase, hpartLen⟩ := hinv.range p part hpart
  have hunpinned : ∀ i, Shape.Owns ⟨partitions, idsPerPartition, slotsPerPartition⟩ p i →
      (l.cache.view i).pins = 0 := by
    intro i hi
    by_contra hne
    have hs := List.getElem?_eq_getElem (lt_of_view_pins (Nat.pos_of_ne_zero hne))
    rw [view_eq hs] at hne
    exact hne (hfree i _ ((mem_owns part i).mp ((hinv.mem_range hpart i).mpr hi)) hs)
  have hwave : Wave ⟨partitions, idsPerPartition, slotsPerPartition⟩ l.cache p [] := by
    refine ⟨hinv, nofun, fun i hi hpos => ?_, fun i hi => ?_⟩
    · rw [hunpinned i hi] at hpos
      exact absurd hpos (Nat.lt_irrefl 0)
    · rw [hunpinned i hi]
      exact Nat.zero_le _
  rw [hpartLen] at hlen
  obtain ⟨hlt, -⟩ := List.getElem?_eq_some_iff.mp hpart
  refine ⟨fun rs c' hacq => hwave.grantsAll (fun id hid => ?_) hlen hacq, fun hrange => ?_⟩
  · exact (hinv.partOf_eq (hids id hid)).symm
  · rw [hbase, hpartLen] at hrange
    exact hwave.acquireAll_isSome (hinv.parts_length ▸ hlt) hids (by simpa using hlen) hrange

/-- A wave of two ids on two slots that hold older ones. -/
theorem reachable_acquireAll_two_slots : ∃ l : Ledger,
    (∀ rs c', l.cache.acquireAll [8, 9] = some (rs, c') → GrantsAll 1 [8, 9] rs c') ∧
      (l.cache.acquireAll [8, 9]).isSome := by
  have hinit : (system 2 8 2 1000).init
      ⟨(ExpertCache.partitioned 2 8 2 1000).get rfl, [], []⟩ := ⟨rfl, rfl, rfl⟩
  obtain ⟨l, hl, hfacts⟩ := Lib.System.exists_reachable step
    [.acquire 14, .release ⟨2, 14⟩, .acquire 15, .release ⟨3, 15⟩]
    (fun l => l.cache.parts[1]?.any (fun part => part.base = 2 ∧ part.len = 2) &&
      l.cache.slots.all (·.pins = 0) && l.cache.partOf 8 = some 1 && l.cache.partOf 9 = some 1)
    hinit (fun _ _ _ => trivial) (by decide)
  simp only [Bool.and_eq_true, decide_eq_true_eq, Option.any_eq_true, List.all_eq_true] at hfacts
  obtain ⟨⟨⟨⟨part, hpart, hbase, hlen⟩, hpins⟩, hfold⟩, hfold'⟩ := hfacts
  have hids : ∀ id ∈ [8, 9], l.cache.partOf id = some 1 := by simp [hfold, hfold']
  have hwave := reachable_acquireAll hl hpart
    (fun i s _ hs => hpins s (List.mem_of_getElem? hs)) hids (by rw [hlen]; decide)
  exact ⟨l, hwave.1, hwave.2 (by rw [hbase, hlen]; decide)⟩

end Ledger

end LlmPager
