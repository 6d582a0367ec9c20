import LlmPager.Cuda.PagerInv
import LlmPager.Cuda.RamTier

/-!
# LlmPager.Cuda.Slabs

The RAM tier as a small pager: a thread that copies out of a slab holds a handle
on its slot, a thread that copies into one has a prefetch on its way.

`Slabs` is the pager's `Fetching` with the expert whose bytes a slab holds in
the place of the device, and with what is known of a slab that holds an
expert's bytes (`P`). There is one lemma for each critical section of `get` and
`put`, and one for each way to write a slab: at once, or in parts.
-/

namespace LlmPager

/-- A fresh tier is empty, and its experts have distinct `u16` keys. -/
theorem RamTier.new_spec {bytes span numLayers epl : Nat} {t : RamTier}
    (hnew : RamTier.new bytes span numLayers epl = some (some t)) :
    ∃ sh, ExpertCache.Inv sh t.cache ∧ t.cache.view = SlotTable.empty ∧
      (t.slab = fun _ => List.replicate span 0) ∧ t.span = span ∧ t.expertsPerLayer = epl ∧
      numLayers * epl < 2 ^ 16 := by
  unfold RamTier.new at hnew
  split at hnew
  · cases hnew
  · simp only at hnew
    split at hnew
    · cases hnew
    · rename_i hfits
      split at hnew
      · cases hnew
      · obtain ⟨cache, hcache, hnew⟩ := Option.bind_eq_some_iff.mp hnew
        cases hnew
        obtain ⟨hinv, hview⟩ := ExpertCache.partitioned_spec hcache
        exact ⟨_, hinv, hview, rfl, rfl, rfl, by omega⟩

/-- The tier's bookkeeping `c`, with the handles of the threads that copy out of
a slab and the jobs of those that copy into one; `ws` are done copying. A slab
that holds the bytes of an expert has property `P`. -/
structure Slabs (epl : Nat) (c : ExpertCache) (hs : List ExpertHandle) (js ws : List Job)
    (P : Nat → Nat × Nat → Prop) : Prop where
  cache : ∃ sh, ExpertCache.Inv sh c
  fetching : ∃ fill dev, Fetching epl c.view fill dev hs js ws ∧
    (∀ h ∈ hs, fill h.slot = .ready) ∧ ∀ i e, dev i = some e → P i e

namespace Slabs

variable {epl : Nat} {c c' c'' : ExpertCache} {hs hs' : List ExpertHandle} {js js' ws ws' : List Job}
  {P P' : Nat → Nat × Nat → Prop} {h : ExpertHandle} {j : Job} {slot : Nat}

/-- A fresh tier holds nothing. -/
theorem start {sh : Shape} (hinv : ExpertCache.Inv sh c)
    (hview : c.view = SlotTable.empty) : Slabs epl c [] [] [] P := by
  refine ⟨⟨sh, hinv⟩, fun _ => .empty, fun _ => none, ?_, nofun, nofun⟩
  rw [hview]
  exact Fetching.start

/-- It does not matter who copies. -/
theorem perm (s : Slabs epl c hs js ws P) (hh : hs.Perm hs') (hj : js.Perm js')
    (hw : ∀ j ∈ ws', j ∈ ws) : Slabs epl c hs' js' ws' P := by
  obtain ⟨fill, dev, hf, hready, hholds⟩ := s.fetching
  exact ⟨s.cache, fill, dev, hf.perm hh hj hw, fun h hm => hready h (hh.mem_iff.mpr hm), hholds⟩

theorem mono (s : Slabs epl c hs js ws P) (hP : ∀ i e, P i e → P' i e) :
    Slabs epl c hs js ws P' := by
  obtain ⟨fill, dev, hf, hready, hholds⟩ := s.fetching
  exact ⟨s.cache, fill, dev, hf, hready, fun i e he => hP i e (hholds i e he)⟩

/-- A held slab holds the bytes of the expert it was looked up for. -/
theorem holds (s : Slabs epl c hs js ws P) (hm : h ∈ hs) : P h.slot h.expertOf := by
  obtain ⟨fill, dev, hf, hready, hholds⟩ := s.fetching
  exact hholds _ _ (hf.handle_loaded hm (hready h hm))

/-- Nobody copies into a slab that somebody copies out of. -/
theorem ne_of_held (s : Slabs epl c hs js ws P) (hm : h ∈ hs) (hj : j ∈ js) :
    j.slot ≠ h.slot := by
  obtain ⟨fill, dev, hf, hready, -⟩ := s.fetching
  exact hf.ne_of_ready (hready h hm) hj

/-- Nobody else copies into a slab that somebody copies into. -/
theorem unique (s : Slabs epl c hs js ws P) : (js.map Job.slot).Nodup := by
  obtain ⟨fill, dev, hf, -⟩ := s.fetching
  exact hf.unique

/-! ### `get` -/

/-- A hit: the thread holds the slot. -/
theorem look (s : Slabs epl c hs js ws P)
    (hlook : c.lookupReady (flatId epl h.expertOf) = some (some h.slot, c'))
    (hlt : h.expert < epl) : Slabs epl c' (h :: hs) js ws P := by
  obtain ⟨sh, hcache⟩ := s.cache
  obtain ⟨fill, dev, hf, hready, hholds⟩ := s.fetching
  obtain ⟨hinv, ⟨slot, hslot, hid, hpub, hview⟩ | ⟨hnone, -⟩⟩ :=
    ExpertCache.lookupReady_cases hcache hlook
  · cases hslot
    refine ⟨⟨sh, hinv⟩, fill, dev, ?_, ?_, hholds⟩
    · rw [hview]
      exact hf.hit hid hlt
    · exact List.forall_mem_cons.mpr ⟨(hf.ready _).mpr hpub, hready⟩
  · cases hnone

/-- A miss: nothing changes. -/
theorem look_none {id : Nat} (s : Slabs epl c hs js ws P)
    (hlook : c.lookupReady id = some (none, c')) : Slabs epl c' hs js ws P := by
  obtain ⟨sh, hcache⟩ := s.cache
  obtain ⟨-, ⟨slot, hslot, -⟩ | ⟨-, rfl⟩⟩ := ExpertCache.lookupReady_cases hcache hlook
  · cases hslot
  · exact s

theorem release (s : Slabs epl c (h :: hs) js ws P) (hrel : c.release h.slot = some c') :
    Slabs epl c' hs js ws P := by
  obtain ⟨sh, hcache⟩ := s.cache
  obtain ⟨fill, dev, hf, hready, hholds⟩ := s.fetching
  obtain ⟨hinv, -, hview⟩ := ExpertCache.release_spec hcache hrel
  have hready := List.forall_mem_cons.mp hready
  refine ⟨⟨sh, hinv⟩, fill, dev, ?_, hready.2, hholds⟩
  rw [hview]
  exact hf.release hready.1

/-! ### `put` -/

/-- The expert is in the tier already: the pin is dropped at once. -/
theorem claim_hit {id : Nat} (s : Slabs epl c hs js ws P)
    (hacq : c.acquire id = some (.hit slot, c')) (hrel : c'.release slot = some c'') :
    Slabs epl c'' hs js ws P := by
  obtain ⟨sh, hcache⟩ := s.cache
  obtain ⟨fill, dev, hf, hready, hholds⟩ := s.fetching
  obtain ⟨hinv, hcases⟩ := ExpertCache.acquire_cases hcache hacq
  obtain ⟨hinv', -, hview'⟩ := ExpertCache.release_spec hinv hrel
  refine ⟨⟨sh, hinv'⟩, fill, dev, ?_, hready, hholds⟩
  rcases hcases with ⟨slot', hslot, -, hview⟩ | ⟨slot', hslot, -⟩ | ⟨hslot, -⟩
  · cases hslot
    rw [hview', hview, SlotTable.unpin_pin]
    exact hf
  · cases hslot
  · cases hslot

/-- A slot is claimed: the thread is to fill it. -/
theorem claim_miss {old : Option Nat} (s : Slabs epl c hs js ws P)
    (hacq : c.acquire (flatId epl j.expertOf) = some (.miss j.slot old, c'))
    (hlt : j.expert < epl) (hrel : j.releaseAfterFill = true) :
    Slabs epl c' hs (j :: js) ws P := by
  obtain ⟨sh, hcache⟩ := s.cache
  obtain ⟨fill, dev, hf, hready, hholds⟩ := s.fetching
  obtain ⟨hinv, ⟨slot, hslot, -⟩ | ⟨slot, hslot, -, -, hpins, -, hview⟩ | ⟨hslot, -⟩⟩ :=
    ExpertCache.acquire_cases hcache hacq
  · cases hslot
  · cases hslot
    refine ⟨⟨sh, hinv⟩, Function.update fill j.slot .inFlight, dev, ?_, fun h hm => ?_, hholds⟩
    · rw [hview]
      exact hf.missPrefetch hpins hlt hrel
    · -- nobody holds an unpinned slot
      have hne : h.slot ≠ j.slot := by
        intro he
        have := hf.handle_pinned hm
        rw [he, hpins] at this
        cases this
      rw [Function.update_of_ne hne]
      exact hready h hm
  · cases hslot

/-- Every slot is pinned: nothing changes. -/
theorem claim_stalled {id : Nat} (s : Slabs epl c hs js ws P)
    (hacq : c.acquire id = some (.stalled, c')) : Slabs epl c' hs js ws P := by
  obtain ⟨sh, hcache⟩ := s.cache
  obtain ⟨-, ⟨slot, hslot, -⟩ | ⟨slot, hslot, -⟩ | ⟨-, rfl, -⟩⟩ :=
    ExpertCache.acquire_cases hcache hacq
  · cases hslot
  · cases hslot
  · exact s

/-- A part of a slab is written: what it held is lost. -/
theorem write (s : Slabs epl c hs js [] P) (hm : j ∈ js)
    (hP : ∀ i e, i ≠ j.slot → P i e → P' i e) : Slabs epl c hs js [] P' := by
  obtain ⟨fill, dev, hf, hready, hholds⟩ := s.fetching
  refine ⟨s.cache, fill, _, hf.overwrite hm, hready, fun i e he => ?_⟩
  by_cases hi : i = j.slot
  · rw [hi, Function.update_self] at he
    cases he
  · rw [Function.update_of_ne hi] at he
    exact hP i e hi (hholds i e he)

/-- A slab is written. -/
theorem copyIn (s : Slabs epl c hs js ws P) (hm : j ∈ js) (hnew : P' j.slot j.expertOf)
    (hP : ∀ i e, i ≠ j.slot → P i e → P' i e) : Slabs epl c hs js (j :: ws) P' := by
  obtain ⟨fill, dev, hf, hready, hholds⟩ := s.fetching
  refine ⟨s.cache, fill, _, hf.copy hm, hready, fun i e he => ?_⟩
  by_cases hi : i = j.slot
  · subst hi
    rw [Function.update_self] at he
    cases he
    exact hnew
  · rw [Function.update_of_ne hi] at he
    exact hP i e hi (hholds i e he)

/-- A written slab is published and let go. -/
theorem publish (s : Slabs epl c hs (j :: js) ws P) (hw : j ∈ ws)
    (hrel : j.releaseAfterFill = true) (hws : ∀ j' ∈ ws', j' ∈ ws ∧ j' ∈ js)
    (hpub : c.publish j.slot = some c') (hrelease : c'.release j.slot = some c'') :
    Slabs epl c'' hs js ws' P := by
  obtain ⟨sh, hcache⟩ := s.cache
  obtain ⟨fill, dev, hf, hready, hholds⟩ := s.fetching
  obtain ⟨hinv, -, hview⟩ := ExpertCache.publish_spec hcache hpub
  obtain ⟨hinv', -, hview'⟩ := ExpertCache.release_spec hinv hrelease
  refine ⟨⟨sh, hinv'⟩, Function.update fill j.slot .ready, dev, ?_, fun h hm => ?_, hholds⟩
  · rw [hview', hview]
    exact hf.fillPrefetch hw hrel hws
  · by_cases hs : h.slot = j.slot
    · rw [hs, Function.update_self]
    · rw [Function.update_of_ne hs]
      exact hready h hm

end Slabs

end LlmPager
