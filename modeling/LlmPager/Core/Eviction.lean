import LlmPager.Core.Grants

/-!
# LlmPager.Core.Eviction

Which slot `acquire` picks, and what it costs the residents.

The victim scan finds the unpinned slot that comes first in the order of
`(freq, occupied)` and then of the index (`scanVictim_least`). An empty slot has
frequency 0 and no pins (`Idle`), so it beats every occupied one: residents are
evicted only from a full partition, and the first ids a partition is asked for
share it (`Ledger.run_acquire`).
-/

namespace LlmPager

namespace ExpertCache

/-! ### The victim order -/

/-- A candidate slot with its key comes before another, or is the same. -/
def Preferred (a b : Nat × Nat × Bool) : Prop :=
  keyLt a.2 b.2 = true ∨ a.2 = b.2 ∧ a.1 ≤ b.1

theorem keyLt_iff {a b : Nat × Bool} :
    keyLt a b = true ↔ a.1 < b.1 ∨ a.1 = b.1 ∧ a.2 = false ∧ b.2 = true := by
  simp [keyLt, and_assoc]

theorem keyLt_trans {a b c : Nat × Bool} (h : keyLt a b = true) (h' : keyLt b c = true) :
    keyLt a c = true := by
  rw [keyLt_iff] at *
  grind

/-- Keys are totally ordered. -/
theorem keyLt_of_not {a b : Nat × Bool} (h : ¬keyLt a b = true) : keyLt b a = true ∨ b = a := by
  rw [keyLt_iff] at *
  obtain ⟨n, x⟩ := a
  obtain ⟨m, y⟩ := b
  cases x <;> cases y <;> grind

theorem Preferred.trans {a b c : Nat × Nat × Bool} (h : Preferred a b) (h' : Preferred b c) :
    Preferred a c := by
  rcases h with h | ⟨hkey, hle⟩
  · rcases h' with h' | ⟨hkey', -⟩
    · exact .inl (keyLt_trans h h')
    · exact .inl (hkey' ▸ h)
  · rcases h' with h' | ⟨hkey', hle'⟩
    · exact .inl (hkey ▸ h')
    · exact .inr ⟨hkey.trans hkey', hle.trans hle'⟩

theorem Preferred.rfl {a : Nat × Nat × Bool} : Preferred a a := .inr ⟨Eq.refl _, Nat.le_refl _⟩

variable {c c' : ExpertCache} {sh : Shape} {slots : List SlotState}

/-- Visiting one slot: the running victim is the preferred one of those seen. -/
theorem scanVictim_visit {i : Nat} {is : List Nat} {best r : Option (Nat × Nat × Bool)}
    (h : scanVictim slots (i :: is) best = some r) (hbest : ∀ b, best = some b → b.1 < i) :
    ∃ s best', slots[i]? = some s ∧ scanVictim slots is best' = some r ∧
      (∀ b', best' = some b' → b'.1 ≤ i) ∧
      (∀ b, best = some b → ∃ b', best' = some b' ∧ Preferred b' b) ∧
      (s.pins = 0 → ∃ b', best' = some b' ∧ Preferred b' (i, keyOf s)) := by
  obtain ⟨s, hs, h⟩ := Option.bind_eq_some_iff.mp h
  by_cases hpins : 0 < s.pins
  · rw [if_pos hpins] at h
    exact ⟨s, best, hs, h, fun b hb => (hbest b hb).le, fun b hb => ⟨b, hb, .rfl⟩,
      fun hzero => absurd hpins (by omega)⟩
  rw [if_neg hpins] at h
  cases best with
  | none =>
      refine ⟨s, some (i, keyOf s), hs, h, ?_, nofun, fun _ => ⟨_, rfl, .rfl⟩⟩
      rintro b' ⟨⟩
      exact Nat.le_refl i
  | some b =>
      have hlt := hbest b rfl
      by_cases hkey : keyLt (s.freq, s.id.isSome) b.2 = true
      · refine ⟨s, some (i, keyOf s), hs, by simpa [hkey, keyOf] using h, ?_, ?_,
          fun _ => ⟨_, rfl, .rfl⟩⟩
        · rintro b' ⟨⟩
          exact Nat.le_refl i
        · rintro b ⟨⟩
          exact ⟨_, rfl, .inl hkey⟩
      · refine ⟨s, some b, hs, by simpa [hkey] using h, ?_,
          fun b' hb' => ⟨b, rfl, Option.some.inj hb' ▸ .rfl⟩, fun _ => ⟨b, rfl, ?_⟩⟩
        · rintro b' ⟨⟩
          exact hlt.le
        · -- not beaten: smaller, or equal and visited before
          rcases keyLt_of_not hkey with hless | heq
          · exact .inl hless
          · exact .inr ⟨heq, hlt.le⟩

/-- **The scan finds the least candidate**: of the unpinned slots it visits, in
ascending order, none is preferred to its victim. -/
theorem scanVictim_least {is : List Nat} {best : Option (Nat × Nat × Bool)}
    {v : Nat × Nat × Bool} (h : scanVictim slots is best = some (some v))
    (hsorted : is.Pairwise (· < ·)) (hbest : ∀ b, best = some b → ∀ i ∈ is, b.1 < i) :
    (∀ b, best = some b → Preferred v b) ∧
      ∀ i ∈ is, ∀ s, slots[i]? = some s → s.pins = 0 → Preferred v (i, keyOf s) := by
  induction is generalizing best with
  | nil =>
      cases h
      exact ⟨fun b hb => Option.some.inj hb ▸ .rfl, nofun⟩
  | cons i is ih =>
      obtain ⟨hhead, htail⟩ := List.pairwise_cons.mp hsorted
      obtain ⟨s, best', hs, hrec, hindex, hkept, hseen⟩ :=
        scanVictim_visit h fun b hb => hbest b hb i List.mem_cons_self
      obtain ⟨hleast, hrest⟩ := ih hrec htail fun b' hb' j hj =>
        Nat.lt_of_le_of_lt (hindex b' hb') (hhead j hj)
      refine ⟨fun b hb => ?_, List.forall_mem_cons.mpr ⟨fun s' hs' hpins => ?_, hrest⟩⟩
      · obtain ⟨b', hb', hpref⟩ := hkept b hb
        exact (hleast b' hb').trans hpref
      · cases hs.symm.trans hs'
        obtain ⟨b', hb', hpref⟩ := hseen hpins
        exact (hleast b' hb').trans hpref

/-- Over slots that exist the scan does not panic. -/
theorem scanVictim_isSome {is : List Nat} (h : ∀ i ∈ is, i < slots.length)
    (best : Option (Nat × Nat × Bool)) : (scanVictim slots is best).isSome := by
  induction is generalizing best with
  | nil => rfl
  | cons i is ih =>
      have hs := List.getElem?_eq_getElem (h i List.mem_cons_self)
      have hrest := ih fun j hj => h j (List.mem_cons_of_mem _ hj)
      simp only [scanVictim, hs, Option.bind_eq_bind, Option.bind_some]
      split
      · exact hrest _
      · cases best with
        | none => exact hrest _
        | some b =>
            simp only
            split
            · exact hrest _
            · exact hrest _

/-! ### Empty slots are idle -/

/-- An empty slot has frequency 0 and no pins. -/
def Idle (slots : List SlotState) : Prop :=
  ∀ (i : Nat) s, slots[i]? = some s → s.id = none → s.freq = 0 ∧ s.pins = 0

namespace Idle

theorem set {s : SlotState} {slot : Nat} (h : Idle slots)
    (hs : s.id = none → s.freq = 0 ∧ s.pins = 0) : Idle (slots.set slot s) := by
  intro i s' hs' hid
  rcases List.mem_or_eq_of_mem_set (List.mem_of_getElem? hs') with hold | rfl
  · obtain ⟨j, hj⟩ := List.mem_iff_getElem?.mp hold
    exact h j s' hj hid
  · exact hs hid

/-- Ageing halves zero. -/
theorem mapIdx {f : Nat → SlotState → SlotState} (h : Idle slots)
    (hid : ∀ i s, (f i s).id = s.id ∧ (f i s).pins = s.pins)
    (hfreq : ∀ i s, s.freq = 0 → (f i s).freq = 0) : Idle (slots.mapIdx f) := by
  intro i s' hs' hnone
  rw [List.getElem?_mapIdx] at hs'
  obtain ⟨s, hs, rfl⟩ := Option.map_eq_some_iff.mp hs'
  rw [(hid i s).1] at hnone
  obtain ⟨hzero, hpins⟩ := h i s hs hnone
  exact ⟨hfreq i s hzero, (hid i s).2.trans hpins⟩

theorem halveRange {base len : Nat} (h : Idle slots) :
    Idle (ExpertCache.halveRange slots base len) := by
  refine h.mapIdx (fun i s => ?_) fun i s hs => ?_
  · split <;> exact ⟨rfl, rfl⟩
  · split
    · simp [hs]
    · exact hs

theorem claim {p id slot : Nat} {part : Partition} {v : SlotState} (h : Idle c.slots) :
    Idle (c.claim p part id slot v).slots := by
  have hset : Idle (c.slots.set slot { id := some id, freq := 1, pins := 1, ready := false }) :=
    h.set nofun
  by_cases hdecay : c.decayInterval ≤ part.insertsSinceDecay + 1
  · simp only [ExpertCache.claim, if_pos hdecay]
    exact hset.halveRange
  · simp only [ExpertCache.claim, if_neg hdecay]
    exact hset

/-- A slot that records an id is pinned without harm. -/
theorem touch {slot : Nat} (h : Idle c.slots) (hid : (c.view slot).id ≠ none)
    (htouch : c.touch slot = some c') : Idle c'.slots := by
  obtain ⟨s, hs, htouch⟩ := Option.bind_eq_some_iff.mp htouch
  obtain ⟨pins, -, htouch⟩ := Option.bind_eq_some_iff.mp htouch
  cases htouch
  refine h.set fun hnone => absurd hnone ?_
  rw [view_eq hs] at hid
  exact hid

theorem acquire {id : Nat} {r : Lookup} (h : Idle c.slots) (hinv : Inv sh c)
    (hacq : c.acquire id = some (r, c')) : Idle c'.slots := by
  obtain ⟨p, part, -, hpart, hcases⟩ := acquire_inv hacq
  cases hcases with
  | hit hmap htouch =>
      refine h.touch ?_ htouch
      rw [((hinv.mapped p part hpart _ _).mp hmap).2]
      exact nofun
  | miss => exact h.claim
  | stalled => exact h

theorem lookupReady {id : Nat} {r : Option Nat} (h : Idle c.slots) (hinv : Inv sh c)
    (hlook : c.lookupReady id = some (r, c')) : Idle c'.slots := by
  obtain ⟨p, part, -, hpart, hcases⟩ := lookupReady_inv hlook
  rcases hcases with ⟨-, rfl⟩ | ⟨slot, s, hmap, -, -, htouch, -⟩
  · exact h
  · refine h.touch ?_ htouch
    rw [((hinv.mapped p part hpart id slot).mp hmap).2]
    exact nofun

theorem publish {slot : Nat} (h : Idle c.slots) (hpub : c.publish slot = some c') :
    Idle c'.slots := by
  obtain ⟨s, hs, hpub⟩ := Option.bind_eq_some_iff.mp hpub
  cases hpub
  exact h.set fun hid => h slot s hs hid

theorem release {slot : Nat} (h : Idle c.slots) (hrel : c.release slot = some c') :
    Idle c'.slots := by
  obtain ⟨s, hs, hrel⟩ := Option.bind_eq_some_iff.mp hrel
  by_cases hpins : 0 < s.pins
  · rw [if_pos hpins] at hrel
    cases hrel
    -- an empty slot has no pin to give back
    refine h.set fun hid => ?_
    obtain ⟨hfreq, hzero⟩ := h slot s hs hid
    exact ⟨hfreq, by simp only [hzero]⟩
  · rw [if_neg hpins] at hrel
    cases hrel

theorem decayAll (h : Idle c.slots) : Idle c.decayAll.slots := by
  intro i s' hs' hid
  rw [ExpertCache.decayAll, List.getElem?_map] at hs'
  obtain ⟨s, hs, rfl⟩ := Option.map_eq_some_iff.mp hs'
  obtain ⟨hfreq, hpins⟩ := h i s hs hid
  exact ⟨by simp [hfreq], hpins⟩

theorem partitioned {partitions idsPerPartition slotsPerPartition decayInterval : Nat}
    (h : ExpertCache.partitioned partitions idsPerPartition slotsPerPartition decayInterval
      = some c) : Idle c.slots := by
  unfold ExpertCache.partitioned at h
  split at h
  · cases h
    intro i s hs _
    rw [List.eq_of_mem_replicate (List.mem_of_getElem? hs)]
    exact ⟨rfl, rfl⟩
  · cases h

end Idle

/-! ### The choice of `acquire` -/

/-- What `acquire` answers for an id of a partition. -/
structure Picks (c : ExpertCache) (part : Partition) (id : Nat) (r : Lookup)
    (c' : ExpertCache) : Prop where
  /-- A hit exactly for a resident, on its slot. -/
  hit : ∀ slot, r = .hit slot ↔ part.map.lookup id = some slot
  /-- Otherwise a stall exactly when every slot of the partition is pinned. -/
  stalled : r = .stalled ↔
    id ∉ part.map ∧ ∀ i s, part.Owns i → c.slots[i]? = some s → 0 < s.pins
  /-- A stall changes no field. -/
  unchanged : r = .stalled → c' = c
  /-- Otherwise a miss on the least unpinned slot, that reports its occupant. -/
  miss : ∀ slot evicted, r = .miss slot evicted → part.Owns slot ∧
    ∃ v, c.slots[slot]? = some v ∧ v.pins = 0 ∧ evicted = v.id ∧
      ∀ i s, part.Owns i → c.slots[i]? = some s → s.pins = 0 →
        Preferred (slot, keyOf v) (i, keyOf s)
  /-- A resident is evicted only from a full partition. -/
  full : ∀ slot old, r = .miss slot (some old) →
    ∀ i s, part.Owns i → c.slots[i]? = some s → s.id ≠ none

/-- An empty slot comes before every occupied one. -/
theorem Idle.occupied {i : Nat} {v s : SlotState} {slot : Nat} (h : Idle c.slots)
    (hs : c.slots[i]? = some s) (hoccupied : v.id ≠ none)
    (hpref : s.pins = 0 → Preferred (slot, keyOf v) (i, keyOf s)) : s.id ≠ none := by
  intro hid
  obtain ⟨hfreq, hpins⟩ := h i s hs hid
  obtain ⟨old, hold⟩ := Option.ne_none_iff_exists'.mp hoccupied
  have hkey : keyOf s = (0, false) := by simp [keyOf, hfreq, hid]
  rcases hpref hpins with hlt | ⟨heq, -⟩
  · rw [hkey, keyLt_iff] at hlt
    simp at hlt
  · rw [hkey] at heq
    simp [keyOf, hold] at heq

theorem mem_owns (part : Partition) (i : Nat) :
    i ∈ List.range' part.base part.len ↔ part.Owns i := by
  rw [List.mem_range'_1]
  rfl

theorem acquire_picks {id p : Nat} {part : Partition} {r : Lookup} (hidle : Idle c.slots)
    (hp : c.partOf id = some p) (hpart : c.parts[p]? = some part)
    (hacq : c.acquire id = some (r, c')) : Picks c part id r c' := by
  obtain ⟨p', part', hp', hpart', hcases⟩ := acquire_inv hacq
  cases hp.symm.trans hp'
  cases hpart.symm.trans hpart'
  cases hcases with
  | @hit slot _ hmap htouch =>
      have hmem : id ∈ part.map := AList.lookup_isSome.mp (by rw [hmap]; rfl)
      refine ⟨fun slot' => ?_, ⟨nofun, fun h => absurd hmem h.1⟩, nofun, nofun, nofun⟩
      rw [hmap]
      exact ⟨fun h => by cases h; rfl, fun h => by cases h; rfl⟩
  | @miss slot key v hmap hscan hv =>
      have hleast := (scanVictim_least hscan List.pairwise_lt_range' nofun).2
      obtain ⟨hmem, s, hs, hpins, hkey⟩ := (scanVictim_some hscan).resolve_left nofun
      cases hs.symm.trans hv
      have howns : part.Owns slot := (mem_owns part slot).mp hmem
      have hpref : ∀ i s', part.Owns i → c.slots[i]? = some s' → s'.pins = 0 →
          Preferred (slot, keyOf v) (i, keyOf s') := fun i s' hi hs' hpins' =>
        hkey ▸ hleast i ((mem_owns part i).mpr hi) s' hs' hpins'
      refine ⟨fun slot' => ?_, ⟨nofun, fun h => ?_⟩, nofun, ?_, ?_⟩
      · rw [hmap]
        exact ⟨nofun, nofun⟩
      · exact absurd (h.2 slot v howns hv) (by omega)
      · rintro slot' evicted ⟨⟩
        exact ⟨howns, v, hv, hpins, rfl, hpref⟩
      · intro slot' old hr i s' hi hs'
        injection hr with _ hoccupied
        exact hidle.occupied hs' (by rw [hoccupied]; exact nofun) (hpref i s' hi hs')
  | stalled hmap hscan =>
      obtain ⟨-, hall⟩ := scanVictim_none hscan
      refine ⟨fun slot' => ?_, ⟨fun _ => ⟨AList.lookup_eq_none.mp hmap, fun i s hi hs => ?_⟩,
        fun _ => rfl⟩, fun _ => rfl, nofun, nofun⟩
      · rw [hmap]
        exact ⟨nofun, nofun⟩
      · obtain ⟨s', hs', hpins⟩ := hall i ((mem_owns part i).mpr hi)
        cases hs.symm.trans hs'
        exact hpins

theorem touch_eq_none_iff {slot : Nat} {s : SlotState} (hs : c.slots[slot]? = some s) :
    c.touch slot = none ↔ 2 ^ 32 ≤ s.pins + 1 := by
  simp only [touch, hs, Option.bind_eq_bind, Option.bind_some, u32Add]
  by_cases hover : s.pins + 1 < 2 ^ 32
  · rw [if_pos hover]
    exact ⟨nofun, fun h => absurd hover (Nat.not_lt.mpr h)⟩
  · rw [if_neg hover]
    exact ⟨fun _ => Nat.not_lt.mp hover, fun _ => rfl⟩

/-- `acquire` panics only where a `u32` overflows: the pin count of a resident's
slot, or the end of the partition's range. -/
theorem acquire_eq_none_iff {id p : Nat} {part : Partition} (hinv : Inv sh c)
    (hp : c.partOf id = some p) (hpart : c.parts[p]? = some part) :
    c.acquire id = none ↔
      (∃ slot s, part.map.lookup id = some slot ∧ c.slots[slot]? = some s ∧ 2 ^ 32 ≤ s.pins + 1) ∨
      part.map.lookup id = none ∧ 2 ^ 32 ≤ part.base + part.len := by
  simp only [acquire, hp, hpart, Option.bind_eq_bind, Option.bind_some]
  obtain ⟨hlt, -⟩ := List.getElem?_eq_some_iff.mp hpart
  rw [hinv.parts_length] at hlt
  cases hmap : part.map.lookup id with
  | some slot =>
      obtain ⟨howns, hid⟩ := (hinv.mapped p part hpart id slot).mp hmap
      have hs := List.getElem?_eq_getElem (lt_of_view_id hid)
      simp only [Option.bind_eq_none_iff, reduceCtorEq, imp_false]
      rw [← Option.eq_none_iff_forall_ne_some, touch_eq_none_iff hs]
      refine ⟨fun hover => .inl ⟨slot, _, rfl, hs, hover⟩, ?_⟩
      rintro (⟨slot', s, ⟨⟩, hs', hover⟩ | ⟨hnone, -⟩)
      · cases hs.symm.trans hs'
        exact hover
      · cases hnone
  | none =>
      have hexists : ∀ i ∈ List.range' part.base part.len, i < c.slots.length := fun i hi =>
        hinv.slots_length ▸ ((hinv.mem_range hpart i).mp hi).lt_total hlt
      obtain ⟨found, hfound⟩ := Option.isSome_iff_exists.mp (scanVictim_isSome hexists none)
      by_cases hover : part.base + part.len < 2 ^ 32
      · refine iff_of_false ?_ ?_
        · simp only [u32Add, if_pos hover, Option.bind_some, Nat.add_sub_cancel_left, hfound]
          cases found with
          | none => exact nofun
          | some v =>
              obtain ⟨hmem, -⟩ := (scanVictim_some hfound).resolve_left nofun
              have hs := List.getElem?_eq_getElem (hexists v.1 hmem)
              simp only [hs, Option.bind_some]
              exact nofun
        · rintro (⟨slot, s, hslot, -⟩ | ⟨-, hle⟩)
          · cases hslot
          · exact absurd hover (Nat.not_lt.mpr hle)
      · refine iff_of_true ?_ (.inr ⟨rfl, Nat.not_lt.mp hover⟩)
        simp only [u32Add, if_neg hover]
        rfl

/-- With no counter at its limit, `acquire` answers. -/
theorem exists_acquire (id : Nat) (hinv : Inv sh c) (hparts : 0 < sh.partitions)
    (hids : 0 < sh.idsPerPartition) (htotal : sh.partitions * sh.slotsPerPartition < 2 ^ 32)
    (hpins : ∀ i, (c.view i).pins + 1 < 2 ^ 32) : ∃ r c', c.acquire id = some (r, c') := by
  have hp : c.partOf id = some (sh.foldOf id) := by
    simp only [partOf, Shape.foldOf, hinv.parts_length, hinv.ids, hids.ne', if_false]
    split <;> rfl
  have hlt : sh.foldOf id < sh.partitions := by
    unfold Shape.foldOf
    split <;> omega
  have hpart := List.getElem?_eq_getElem (hinv.parts_length.symm ▸ hlt)
  have hne : c.acquire id ≠ none := by
    rw [Ne, acquire_eq_none_iff hinv hp hpart]
    rintro (⟨slot, s, -, hs, hover⟩ | ⟨-, hover⟩)
    · have hview := hpins slot
      rw [view_eq hs] at hview
      exact absurd hview (Nat.not_lt.mpr hover)
    · obtain ⟨hbase, hlen⟩ := hinv.range _ _ hpart
      rw [hbase, hlen, ← Nat.succ_mul] at hover
      have hle := Nat.mul_le_mul_right sh.slotsPerPartition (Nat.succ_le_of_lt hlt)
      omega
  obtain ⟨⟨r, c'⟩, hacq⟩ := Option.ne_none_iff_exists'.mp hne
  exact ⟨r, c', hacq⟩

/-! ### Counting the residents of a full partition -/

/-- In a partition whose slots all record ids of `A`, no more than `A` has room
for, every id of `A` is recorded. -/
theorem Inv.recorded_of_full {p : Nat} {A : Finset Nat} (h : Inv sh c)
    (hfull : ∀ i, sh.Owns p i → ∃ id ∈ A, (c.view i).id = some id)
    (hcard : A.card ≤ sh.slotsPerPartition) : ∀ id ∈ A, ∃ i, (c.view i).id = some id := by
  let range := Finset.Ico (p * sh.slotsPerPartition) (p * sh.slotsPerPartition + sh.slotsPerPartition)
  let occupant : Nat → Nat := fun i => (c.view i).id.getD 0
  have hrec : ∀ i ∈ range, occupant i ∈ A ∧ (c.view i).id = some (occupant i) := by
    intro i hi
    obtain ⟨id, hid, hview⟩ := hfull i (Finset.mem_Ico.mp hi)
    simp only [occupant, hview, Option.getD_some]
    exact ⟨hid, trivial⟩
  have hsurj : Set.SurjOn occupant range A := by
    apply Finset.surjOn_of_injOn_of_card_le
    · exact fun i hi => (hrec i hi).1
    · intro i hi j hj heq
      exact h.slot_unique (hrec i hi).2 ((hrec j hj).2.trans (congrArg some heq.symm))
    · simpa [range] using hcard
  intro id hid
  obtain ⟨i, hi, rfl⟩ := hsurj hid
  exact ⟨i, (hrec i hi).2⟩

/-- The ids asked for so far, per partition. -/
def askedOf (sh : Shape) (p : Nat) (ids : List Nat) : Finset Nat :=
  (ids.filter fun id => sh.foldOf id = p).toFinset

theorem mem_askedOf {p id : Nat} {ids : List Nat} :
    id ∈ askedOf sh p ids ↔ id ∈ ids ∧ sh.foldOf id = p := by
  simp [askedOf]

theorem askedOf_concat {p id : Nat} {ids : List Nat} :
    askedOf sh p (ids ++ [id]) =
      if sh.foldOf id = p then insert id (askedOf sh p ids) else askedOf sh p ids := by
  ext x
  split
  · simp only [mem_askedOf, List.mem_append, List.mem_singleton, Finset.mem_insert]
    grind
  · simp only [mem_askedOf, List.mem_append, List.mem_singleton]
    grind

/-- After the ids `ids` were asked for: what is recorded was asked for, and as
long as a partition was asked for no more ids than it has slots, they are all
there. -/
structure Filled (sh : Shape) (c : ExpertCache) (ids : List Nat) : Prop where
  known : ∀ i id, (c.view i).id = some id → id ∈ ids
  together : ∀ p, (askedOf sh p ids).card ≤ sh.slotsPerPartition →
    ∀ id ∈ askedOf sh p ids, ∃ i, (c.view i).id = some id

theorem Filled.congr {ids : List Nat} (h : Filled sh c ids)
    (hview : ∀ i, (c'.view i).id = (c.view i).id) : Filled sh c' ids :=
  ⟨fun i id hid => h.known i id (hview i ▸ hid), fun p hcard id hid => by
    obtain ⟨i, hi⟩ := h.together p hcard id hid
    exact ⟨i, (hview i).trans hi⟩⟩

/-- A full partition that does not record `id` has been asked for too many. -/
theorem Filled.overfull {ids : List Nat} {id : Nat} (h : Filled sh c ids) (hinv : Inv sh c)
    (habsent : ∀ i, (c.view i).id ≠ some id)
    (hfull : ∀ i, sh.Owns (sh.foldOf id) i → (c.view i).id ≠ none) :
    sh.slotsPerPartition < (askedOf sh (sh.foldOf id) (ids ++ [id])).card := by
  by_contra hle
  rw [Nat.not_lt] at hle
  rw [askedOf_concat, if_pos rfl] at hle
  have hrec : ∀ i, sh.Owns (sh.foldOf id) i →
      ∃ x ∈ insert id (askedOf sh (sh.foldOf id) ids), (c.view i).id = some x := by
    intro i hi
    obtain ⟨x, hx⟩ := Option.ne_none_iff_exists'.mp (hfull i hi)
    obtain ⟨hown, -⟩ := hinv.resident hx
    refine ⟨x, Finset.mem_insert_of_mem (mem_askedOf.mpr ⟨h.known i x hx, ?_⟩), hx⟩
    exact hown.unique hi
  obtain ⟨i, hi⟩ := hinv.recorded_of_full hrec hle id (Finset.mem_insert_self _ _)
  exact habsent i hi

/-- Asking for an id that is recorded, or that its partition cannot take, leaves
the others where they are. -/
theorem Filled.concat {ids : List Nat} {id : Nat} (h : Filled sh c ids)
    (hid : (∃ i, (c.view i).id = some id) ∨
      sh.slotsPerPartition < (askedOf sh (sh.foldOf id) (ids ++ [id])).card) :
    Filled sh c (ids ++ [id]) := by
  refine ⟨fun i x hx => List.mem_append_left _ (h.known i x hx), fun p hcard x hx => ?_⟩
  rw [askedOf_concat] at hcard hx
  split at hcard
  case isFalse hne =>
    rw [if_neg hne] at hx
    exact h.together p hcard x hx
  case isTrue heq =>
    rw [if_pos heq] at hx
    subst heq
    rcases Finset.mem_insert.mp hx with rfl | hold
    · rcases hid with hres | hover
      · exact hres
      · rw [askedOf_concat, if_pos rfl] at hover
        exact absurd hcard (Nat.not_le.mpr hover)
    · exact h.together _ ((Finset.card_le_card (Finset.subset_insert _ _)).trans hcard) x hold

theorem Filled.acquire {ids : List Nat} {id : Nat} {r : Lookup} (h : Filled sh c ids)
    (hinv : Inv sh c) (hidle : Idle c.slots) (hacq : c.acquire id = some (r, c')) :
    Filled sh c' (ids ++ [id]) := by
  obtain ⟨-, hcases⟩ := acquire_cases hinv hacq
  obtain ⟨p, part, hp, hpart, -⟩ := acquire_inv hacq
  have hpicks := acquire_picks hidle hp hpart hacq
  cases hinv.partOf_eq hp
  have howns : ∀ i, sh.Owns (sh.foldOf id) i ↔ part.Owns i := fun i =>
    (hinv.mem_range hpart i).symm.trans (mem_owns part i)
  rcases hcases with ⟨slot, rfl, hid, hview⟩ | ⟨slot, rfl, hown, -, -, habsent, hview⟩ |
    ⟨rfl, rfl, habsent, hpinned⟩
  · refine Filled.congr (h.concat (.inl ⟨slot, hid⟩)) fun i => ?_
    rw [hview, SlotTable.pin_id]
  · cases hold : (c.view slot).id with
    | some old =>
        -- an eviction: the partition is full
        have hfull : ∀ i, sh.Owns (sh.foldOf id) i → (c.view i).id ≠ none := by
          intro i hi
          obtain ⟨hlt, -⟩ := List.getElem?_eq_some_iff.mp hpart
          have hs := List.getElem?_eq_getElem
            (hinv.slots_length ▸ hi.lt_total (hinv.parts_length ▸ hlt))
          rw [view_eq hs]
          exact hpicks.full slot old (by rw [hold]) i _ ((howns i).mp hi) hs
        have hover := h.overfull hinv habsent hfull
        refine ⟨fun i x hx => ?_, fun q hcard x hx => ?_⟩
        · rw [hview, SlotTable.claim_id] at hx
          split at hx
          · cases hx
            exact List.mem_append_right _ List.mem_cons_self
          · exact List.mem_append_left _ (h.known i x hx)
        · by_cases hq : sh.foldOf id = q
          · subst hq
            exact absurd hcard (Nat.not_le.mpr hover)
          · obtain ⟨i, hi⟩ := (h.concat (.inr hover)).together q hcard x hx
            refine ⟨i, ?_⟩
            rw [hview, SlotTable.claim_id, if_neg, hi]
            rintro rfl
            obtain ⟨hown', -⟩ := hinv.resident hi
            have hfold := (mem_askedOf.mp hx).2
            exact hq ((hown.unique hown').trans hfold)
    | none =>
        refine ⟨fun i x hx => ?_, fun q hcard x hx => ?_⟩
        · rw [hview, SlotTable.claim_id] at hx
          split at hx
          · cases hx
            exact List.mem_append_right _ List.mem_cons_self
          · exact List.mem_append_left _ (h.known i x hx)
        · by_cases hx' : x = id
          · subst hx'
            exact ⟨slot, by rw [hview, SlotTable.claim_id, if_pos rfl]⟩
          · have hmem : x ∈ askedOf sh q ids := by
              have := mem_askedOf.mp hx
              rw [mem_askedOf]
              exact ⟨by simpa [hx'] using this.1, this.2⟩
            have hcard' : (askedOf sh q ids).card ≤ sh.slotsPerPartition := by
              refine (Finset.card_le_card fun y hy => ?_).trans hcard
              rw [mem_askedOf] at hy ⊢
              exact ⟨List.mem_append_left _ hy.1, hy.2⟩
            obtain ⟨i, hi⟩ := h.together q hcard' x hmem
            refine ⟨i, ?_⟩
            rw [hview, SlotTable.claim_id, if_neg, hi]
            rintro rfl
            rw [hold] at hi
            cases hi
  · -- a stall: every slot is pinned, so none is empty
    refine h.concat (.inr (h.overfull hinv habsent fun i hi hnone => ?_))
    have hpins := hpinned i hi
    have hs := List.getElem?_eq_getElem (lt_of_view_pins hpins)
    rw [view_eq hs] at hpins hnone
    have := (hidle i _ hs hnone).2
    exact absurd hpins (by rw [show (SlotState.view _).pins = _ from this]; exact Nat.lt_irrefl 0)

/-- Whether ids fold to a partition at all does not depend on the id. -/
theorem Inv.partOf_some {id id' p : Nat} (h : Inv sh c) (hp : c.partOf id' = some p) :
    c.partOf id = some (sh.foldOf id) := by
  unfold partOf Shape.foldOf at *
  rw [h.parts_length, h.ids] at *
  split at hp
  case isTrue hone => rw [if_pos hone, if_pos hone]
  case isFalse hone =>
    rw [if_neg hone, if_neg hone]
    split at hp
    case isTrue => cases hp
    case isFalse hids => rw [if_neg hids]

end ExpertCache

/-! ### Runs -/

namespace Ledger

open ExpertCache

variable {sh : Shape} {l l' l₀ : Ledger} {as : List CacheOp}

/-- The ids a list of operations asks for. -/
def askedIds (as : List CacheOp) : List Nat :=
  as.filterMap fun
    | .acquire id => some id
    | _ => none

/-- The invariant of a run with the operations that led to its state. -/
structure History (sh : Shape) (as : List CacheOp) (l : Ledger) : Prop where
  inv : Inv sh l
  idle : Idle l.cache.slots
  filled : Filled sh l.cache (askedIds as)
  folds : ∀ id ∈ askedIds as, l.cache.partOf id = some (sh.foldOf id)

theorem Inv.partOf_eq_partOf (h : Inv sh l) (h' : Inv sh l') (id : Nat) :
    l'.cache.partOf id = l.cache.partOf id :=
  partOf_congr (h'.cache.ids.trans h.cache.ids.symm)
    (h'.cache.parts_length.trans h.cache.parts_length.symm) id

theorem askedIds_concat (as : List CacheOp) (op : CacheOp) :
    askedIds (as ++ [op]) = askedIds as ++ askedIds [op] :=
  List.filterMap_append

/-- Operations that ask for nothing and keep the residents. -/
theorem History.congr {op : CacheOp} (h : History sh as l) (hinv : Inv sh l')
    (hidle : Idle l'.cache.slots) (hview : ∀ i, (l'.cache.view i).id = (l.cache.view i).id)
    (hop : askedIds [op] = []) : History sh (as ++ [op]) l' := by
  have hasked : askedIds (as ++ [op]) = askedIds as := by
    rw [askedIds_concat, hop, List.append_nil]
  refine ⟨hinv, hidle, hasked ▸ h.filled.congr hview, fun id hid => ?_⟩
  rw [h.inv.partOf_eq_partOf hinv]
  exact h.folds id (hasked ▸ hid)

/-- **Step lemma** of a run with its history. -/
theorem History.step {op : CacheOp} (h : History sh as l) (hstep : l.step op = some l') :
    History sh (as ++ [op]) l' := by
  have hinv := h.inv.step hstep
  cases op with
  | acquire id =>
      obtain ⟨⟨r, c⟩, hacq, hstep⟩ := Option.bind_eq_some_iff.mp hstep
      obtain ⟨p, part, hp, -, -⟩ := acquire_inv hacq
      have hcache : l'.cache = c := by
        cases hstep
        cases r <;> rfl
      refine ⟨hinv, ?_, ?_, fun id' _ => ?_⟩
      · rw [hcache]
        exact h.idle.acquire h.inv.cache hacq
      · rw [hcache, askedIds_concat]
        exact h.filled.acquire h.inv.cache h.idle hacq
      · rw [h.inv.partOf_eq_partOf hinv]
        exact h.inv.cache.partOf_some hp
  | lookupReady id =>
      obtain ⟨⟨r, c⟩, hlook, hstep⟩ := Option.bind_eq_some_iff.mp hstep
      have hcache : l'.cache = c := by
        cases r <;> cases hstep <;> rfl
      refine h.congr hinv ?_ (fun i => ?_) rfl
      · rw [hcache]
        exact h.idle.lookupReady h.inv.cache hlook
      · rw [hcache]
        obtain ⟨-, ⟨slot, -, -, -, hview⟩ | ⟨-, rfl⟩⟩ := lookupReady_cases h.inv.cache hlook
        · rw [hview, SlotTable.pin_id]
        · rfl
  | publish slot =>
      obtain ⟨c, hpub, hstep⟩ := Option.bind_eq_some_iff.mp hstep
      cases hstep
      refine h.congr hinv (h.idle.publish hpub) (fun i => ?_) rfl
      show (c.view i).id = _
      rw [(publish_spec h.inv.cache hpub).2.2, SlotTable.publish_id]
  | release g =>
      by_cases hg : g ∈ l.grants
      · rw [Ledger.step, if_pos hg] at hstep
        obtain ⟨c, hrel, hstep⟩ := Option.bind_eq_some_iff.mp hstep
        cases hstep
        refine h.congr hinv (h.idle.release hrel) (fun i => ?_) rfl
        show (c.view i).id = _
        rw [(release_spec h.inv.cache hrel).2.2, SlotTable.unpin_id]
      · rw [Ledger.step, if_neg hg] at hstep
        cases hstep
  | decayAll =>
      cases hstep
      refine h.congr hinv h.idle.decayAll (fun i => ?_) rfl
      show (l.cache.decayAll.view i).id = _
      rw [decayAll_view]

theorem History.init {partitions idsPerPartition slotsPerPartition decayInterval : Nat}
    (h : (system partitions idsPerPartition slotsPerPartition decayInterval).init l) :
    History ⟨partitions, idsPerPartition, slotsPerPartition⟩ [] l := by
  obtain ⟨-, hview⟩ := partitioned_spec h.1
  refine ⟨Inv.init h, Idle.partitioned h.1, ⟨fun i id hid => ?_, fun p _ id hid => ?_⟩, nofun⟩
  · rw [hview] at hid
    cases hid
  · exact absurd hid (by simp [askedOf, askedIds])

/-- The run lemma. -/
theorem run_history {partitions idsPerPartition slotsPerPartition decayInterval : Nat}
    (hinit : (system partitions idsPerPartition slotsPerPartition decayInterval).init l₀)
    (h : (system partitions idsPerPartition slotsPerPartition decayInterval).Run
      Lib.System.anyStep l₀ as l) :
    History ⟨partitions, idsPerPartition, slotsPerPartition⟩ as l :=
  h.history (fun _ _ _ _ hist _ hstep => hist.step hstep) (.init hinit)

/-- What `acquire` does in a state that the operations `as` lead to. -/
structure AcquiresRight (as : List CacheOp) (c : ExpertCache) : Prop where
  picks : ∀ id p part r c', c.partOf id = some p → c.parts[p]? = some part →
    c.acquire id = some (r, c') → Picks c part id r c'
  /-- It panics only where a `u32` overflows. -/
  panics : ∀ id p part, c.partOf id = some p → c.parts[p]? = some part →
    (c.acquire id = none ↔
      (∃ slot s, part.map.lookup id = some slot ∧ c.slots[slot]? = some s ∧ 2 ^ 32 ≤ s.pins + 1) ∨
      part.map.lookup id = none ∧ 2 ^ 32 ≤ part.base + part.len)
  /-- The first `len` distinct ids of a partition are all resident together. -/
  together : ∀ (p : Nat) part, c.parts[p]? = some part →
    ((askedIds as).filter fun id => c.partOf id = some p).toFinset.card ≤ part.len →
    ∀ id ∈ askedIds as, c.partOf id = some p → id ∈ part.map

/-- **`acquire` picks the right slot**, in every reachable state. -/
theorem run_acquire {partitions idsPerPartition slotsPerPartition decayInterval : Nat}
    (hinit : (system partitions idsPerPartition slotsPerPartition decayInterval).init l₀)
    (h : (system partitions idsPerPartition slotsPerPartition decayInterval).Run
      Lib.System.anyStep l₀ as l) : AcquiresRight as l.cache := by
  have hist := run_history hinit h
  have hcache := hist.inv.cache
  refine ⟨fun id p part r c' hp hpart hacq => acquire_picks hist.idle hp hpart hacq,
    fun id p part hp hpart => acquire_eq_none_iff hcache hp hpart,
    fun p part hpart hcard id hid hp => ?_⟩
  obtain ⟨-, hlen⟩ := hcache.range p part hpart
  -- folding is the shape's, for the ids that were asked for
  have hfilter : ((askedIds as).filter fun id => l.cache.partOf id = some p) =
      (askedIds as).filter fun id =>
        Shape.foldOf ⟨partitions, idsPerPartition, slotsPerPartition⟩ id = p := by
    refine List.filter_congr fun x hx => ?_
    rw [hist.folds x hx]
    simp
  rw [hfilter, hlen] at hcard
  have hmem : id ∈ askedOf ⟨partitions, idsPerPartition, slotsPerPartition⟩ p (askedIds as) :=
    mem_askedOf.mpr ⟨hid, (hcache.partOf_eq hp).symm⟩
  obtain ⟨i, hi⟩ := hist.filled.together p hcard id hmem
  obtain ⟨-, part', hpart', hlook⟩ := hcache.resident hi
  rw [← hcache.partOf_eq hp, hpart] at hpart'
  cases hpart'
  exact AList.lookup_isSome.mp (by rw [hlook]; rfl)

/-- Two slots in one partition, a hit and a decay: the next miss takes the slot
of the colder expert. -/
theorem run_acquire_two_slots : ∃ (l : Ledger) (as : List CacheOp),
    (system 1 8 2 2).Run Lib.System.anyStep
      ⟨(ExpertCache.partitioned 1 8 2 2).get rfl, [], []⟩ as l ∧
    (l.cache.acquire 5).map (·.1) = some (.miss 0 (some 3)) ∧ AcquiresRight as l.cache := by
  have hinit : (system 1 8 2 2).init ⟨(ExpertCache.partitioned 1 8 2 2).get rfl, [], []⟩ :=
    ⟨rfl, rfl, rfl⟩
  let as : List CacheOp := [.acquire 3, .release ⟨0, 3⟩, .acquire 4, .release ⟨1, 4⟩, .acquire 4,
    .release ⟨1, 4⟩]
  obtain ⟨l, hl⟩ := Option.isSome_iff_exists.mp
    (show (as.foldlM step ⟨(ExpertCache.partitioned 1 8 2 2).get rfl, [], []⟩).isSome by decide)
  have hrun : (system 1 8 2 2).Run Lib.System.anyStep _ as l :=
    Lib.System.run_of_foldlM (fun _ _ _ => trivial) hl
  refine ⟨l, as, hrun, ?_, run_acquire hinit hrun⟩
  have hmap := congrArg (Option.map fun l => (l.cache.acquire 5).map (·.1)) hl
  exact Option.some.inj (hmap.symm.trans (by decide))

end Ledger

end LlmPager
