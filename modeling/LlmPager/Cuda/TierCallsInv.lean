import LlmPager.Cuda.Slabs
import LlmPager.Cuda.TierCalls

/-!
# LlmPager.Cuda.TierCallsInv

A `get` that hits returns the bytes of one earlier `put` of the same expert.

`TierCalls.Inv` puts together the tier's bookkeeping (`Slabs`: a slab that holds
an expert's bytes holds those of a `put` in the history), and what each thread
has copied so far. A byte written by one thread is no other thread's business:
the slot of a reader is published and the slot of a writer is not
(`Slabs.ne_of_held`), and no slot has two writers (`Slabs.unique`).
-/

namespace LlmPager

open Lib

namespace CallPhase

/-- The slot a thread is copying out of. -/
def handles : CallPhase → List ExpertHandle
  | copyingOut layer expert slot _ _ => [⟨layer, expert, slot⟩]
  | idle | looking .. | offering .. | copyingIn .. => []

/-- The slot a thread is copying into. -/
def jobs : CallPhase → List Job
  | copyingIn layer expert slot _ _ => [⟨layer, expert, slot, true⟩]
  | idle | looking .. | offering .. | copyingOut .. => []

end CallPhase

namespace TierCalls

variable {numLayers expertsPerLayer : Nat} {s s' : TierCalls} {p p' : CallPhase} {t t' : RamTier}
  {k i ramBytes span : Nat} {event : Option TierEvent}

/-- What a slab that holds an expert's bytes holds. -/
def HoldsPut (history : List TierEvent) (t : RamTier) (slot : Nat) (e : Nat × Nat) : Prop :=
  .put e.1 e.2 (t.slab slot) ∈ history

/-- Every `get` that returned has its `put` before it. -/
def Justified : List TierEvent → Prop
  | [] => True
  | .put _ _ _ :: older => Justified older
  | .got layer expert bytes :: older => .put layer expert bytes ∈ older ∧ Justified older

/-- What a thread knows of its copy. -/
def Knows (numLayers : Nat) (t : RamTier) : CallPhase → Prop
  | .idle => True
  | .looking layer expert buf | .offering layer expert buf =>
      layer < numLayers ∧ expert < t.expertsPerLayer ∧ t.span ≤ buf.length
  | .copyingOut layer expert slot todo dst =>
      (layer < numLayers ∧ expert < t.expertsPerLayer ∧ t.span ≤ dst.length) ∧
        ∀ i < t.span, i ∉ todo → dst[i]? = (t.slab slot)[i]?
  | .copyingIn layer expert slot todo src =>
      (layer < numLayers ∧ expert < t.expertsPerLayer ∧ t.span ≤ src.length) ∧
        ∀ i < t.span, i ∉ todo → (t.slab slot)[i]? = src[i]?

/-- The invariant of the tier and its threads. -/
structure Inv (numLayers expertsPerLayer : Nat) (s : TierCalls) : Prop where
  slabs : Slabs s.tier.expertsPerLayer s.tier.cache (s.threads.flatMap CallPhase.handles)
    (s.threads.flatMap CallPhase.jobs) [] (HoldsPut s.history s.tier)
  length : ∀ slot, (s.tier.slab slot).length = s.tier.span
  epl : s.tier.expertsPerLayer = expertsPerLayer
  keys : numLayers * expertsPerLayer < 2 ^ 16
  threads : ∀ (k : Nat) p, s.threads[k]? = some p → Knows numLayers s.tier p
  justified : Justified s.history

/-- The `u16` key of an expert is its flat id. -/
theorem Inv.key {layer expert : Nat} (h : Inv numLayers expertsPerLayer s) (hl : layer < numLayers)
    (he : expert < s.tier.expertsPerLayer) :
    s.tier.key layer expert = flatId s.tier.expertsPerLayer (layer, expert) :=
  Nat.mod_eq_of_lt (lt_trans (flatId_lt hl he) (h.epl.symm ▸ h.keys))

/-- A whole copy is the first `span` bytes. -/
theorem take_eq_slab {buf bytes : List UInt8} {n : Nat} (hlen : bytes.length = n)
    (hbuf : n ≤ buf.length) (hcopy : ∀ i < n, buf[i]? = bytes[i]?) : buf.take n = bytes := by
  refine List.ext_getElem? fun i => ?_
  by_cases hi : i < n
  · rw [List.getElem?_take_of_lt hi]
    exact hcopy i hi
  · rw [List.getElem?_eq_none (by rw [List.length_take]; omega),
      List.getElem?_eq_none (by omega)]

/-! ### Threads that take the lock -/

/-- The invariant after thread `k` has moved and the slabs have stayed. -/
theorem Inv.move (h : Inv numLayers expertsPerLayer s)
    (hslabs : Slabs t'.expertsPerLayer t'.cache ((s.threads.set k p').flatMap CallPhase.handles)
      ((s.threads.set k p').flatMap CallPhase.jobs) []
      (HoldsPut (event.toList ++ s.history) t'))
    (hslab : t'.slab = s.tier.slab) (hspan : t'.span = s.tier.span)
    (hepl : t'.expertsPerLayer = s.tier.expertsPerLayer) (hknows : Knows numLayers t' p')
    (hjust : Justified (event.toList ++ s.history)) :
    Inv numLayers expertsPerLayer ⟨t', s.threads.set k p', event.toList ++ s.history⟩ := by
  refine ⟨hslabs, fun slot => ?_, hepl.trans h.epl, h.keys, fun j q hq => ?_, hjust⟩
  · show (t'.slab slot).length = t'.span
    rw [hslab, hspan]
    exact h.length slot
  · by_cases hj : j = k
    · rw [hj] at hq
      obtain ⟨hlt, hq⟩ := List.getElem?_eq_some_iff.mp hq
      rw [List.getElem_set_self] at hq
      exact hq ▸ hknows
    · rw [List.getElem?_set_ne (Ne.symm hj)] at hq
      have hold := h.threads j q hq
      cases q <;> simp only [Knows, hslab, hspan, hepl] at hold ⊢ <;> exact hold

/-- The same for a thread that moves by itself. -/
theorem Inv.move_none (h : Inv numLayers expertsPerLayer s)
    (hslabs : Slabs s.tier.expertsPerLayer s.tier.cache
      ((s.threads.set k p').flatMap CallPhase.handles)
      ((s.threads.set k p').flatMap CallPhase.jobs) [] (HoldsPut s.history s.tier))
    (hknows : Knows numLayers s.tier p') :
    Inv numLayers expertsPerLayer { s with threads := s.threads.set k p' } :=
  have hmove : Inv numLayers expertsPerLayer
      ⟨s.tier, s.threads.set k p', (none : Option TierEvent).toList ++ s.history⟩ :=
    h.move hslabs rfl rfl rfl hknows h.justified
  hmove

/-- A thread whose slots stay the same moves the bookkeeping with it. -/
theorem slabs_set {P : Nat → Nat × Nat → Prop} {c : ExpertCache} {epl : Nat}
    (hk : s.threads[k]? = some p)
    (hs : Slabs epl c (s.threads.flatMap CallPhase.handles) (s.threads.flatMap CallPhase.jobs) [] P)
    (hh : p'.handles = p.handles) (hj : p'.jobs = p.jobs) :
    Slabs epl c ((s.threads.set k p').flatMap CallPhase.handles)
      ((s.threads.set k p').flatMap CallPhase.jobs) [] P :=
  hs.perm (flatMap_perm_set hk hh) (flatMap_perm_set hk hj) nofun

/-- `get` takes the lock for its lookup. -/
theorem lock_looking {layer expert : Nat} {dst : List UInt8} (h : Inv numLayers expertsPerLayer s)
    (hk : s.threads[k]? = some (.looking layer expert dst))
    (hlock : lock s.tier (.looking layer expert dst) = some (t', p', event)) :
    Inv numLayers expertsPerLayer ⟨t', s.threads.set k p', event.toList ++ s.history⟩ := by
  obtain ⟨hl, he, hbuf⟩ := h.threads k _ hk
  obtain ⟨⟨r, c⟩, hlook, hlock⟩ := Option.bind_eq_some_iff.mp hlock
  rw [h.key hl he] at hlook
  cases r with
  | none =>
      cases hlock
      exact h.move (slabs_set hk (h.slabs.look_none hlook) rfl rfl) rfl rfl rfl trivial h.justified
  | some slot =>
      cases hlock
      have hslabs := h.slabs.look (h := ⟨layer, expert, slot⟩) hlook he
      refine h.move (hslabs.perm ?_ ?_ fun _ hm => hm) rfl rfl rfl ⟨⟨hl, he, hbuf⟩, fun i hi hm => ?_⟩
        h.justified
      · exact flatMap_perm_gain [_] hk (.refl _)
      · exact flatMap_perm_set hk rfl
      · exact absurd (List.mem_range.mpr hi) hm

/-- `get` takes the lock again, with the whole slab in its buffer. -/
theorem lock_copyingOut {layer expert slot : Nat} {todo : List Nat} {dst : List UInt8}
    (h : Inv numLayers expertsPerLayer s) (hk : s.threads[k]? = some (.copyingOut layer expert slot todo dst))
    (hlock : lock s.tier (.copyingOut layer expert slot todo dst) = some (t', p', event)) :
    Inv numLayers expertsPerLayer ⟨t', s.threads.set k p', event.toList ++ s.history⟩ := by
  obtain ⟨⟨hl, he, hbuf⟩, hcopied⟩ := h.threads k _ hk
  simp only [lock] at hlock
  split at hlock
  · rename_i hdone
    subst hdone
    obtain ⟨c, hrel, hlock⟩ := Option.bind_eq_some_iff.mp hlock
    cases hlock
    have hheld : (⟨layer, expert, slot⟩ : ExpertHandle) ∈ s.threads.flatMap CallPhase.handles :=
      List.mem_flatMap.mpr ⟨_, List.mem_of_getElem? hk, List.mem_cons_self⟩
    have hput : TierEvent.put layer expert (s.tier.slab slot) ∈ s.history := h.slabs.holds hheld
    have htake : dst.take s.tier.span = s.tier.slab slot :=
      take_eq_slab (h.length slot) hbuf fun i hi => hcopied i hi nofun
    have hlost : (s.threads.flatMap CallPhase.handles).Perm (⟨layer, expert, slot⟩ ::
        (s.threads.set k .idle).flatMap CallPhase.handles) := flatMap_perm_lose [_] hk (.refl _)
    have hslabs := (h.slabs.perm hlost (flatMap_perm_set (b := .idle) hk rfl)
      fun _ hm => hm).release hrel
    refine h.move ?_ rfl rfl rfl trivial ⟨htake ▸ hput, h.justified⟩
    exact hslabs.mono fun i e hput => List.mem_cons_of_mem _ hput
  · cases hlock

/-- `put` takes the lock to claim a slot. -/
theorem lock_offering {layer expert : Nat} {src : List UInt8} (h : Inv numLayers expertsPerLayer s)
    (hk : s.threads[k]? = some (.offering layer expert src))
    (hlock : lock s.tier (.offering layer expert src) = some (t', p', event)) :
    Inv numLayers expertsPerLayer ⟨t', s.threads.set k p', event.toList ++ s.history⟩ := by
  obtain ⟨hl, he, hbuf⟩ := h.threads k _ hk
  obtain ⟨⟨r, c⟩, hacq, hlock⟩ := Option.bind_eq_some_iff.mp hlock
  rw [h.key hl he] at hacq
  cases r with
  | hit slot =>
      obtain ⟨c', hrel, hlock⟩ := Option.bind_eq_some_iff.mp hlock
      cases hlock
      exact h.move (slabs_set hk (h.slabs.claim_hit hacq hrel) rfl rfl) rfl rfl rfl trivial
        h.justified
  | stalled =>
      cases hlock
      exact h.move (slabs_set hk (h.slabs.claim_stalled hacq) rfl rfl) rfl rfl rfl trivial
        h.justified
  | miss slot old =>
      cases hlock
      have hslabs := h.slabs.claim_miss (j := ⟨layer, expert, slot, true⟩) hacq he rfl
      refine h.move (hslabs.perm ?_ ?_ fun _ hm => hm) rfl rfl rfl ⟨⟨hl, he, hbuf⟩, fun i hi hm => ?_⟩
        h.justified
      · exact flatMap_perm_set hk rfl
      · exact flatMap_perm_gain [_] hk (.refl _)
      · exact absurd (List.mem_range.mpr hi) hm

/-- `put` takes the lock again, with the slab filled, and publishes it. -/
theorem lock_copyingIn {layer expert slot : Nat} {todo : List Nat} {src : List UInt8}
    (h : Inv numLayers expertsPerLayer s) (hk : s.threads[k]? = some (.copyingIn layer expert slot todo src))
    (hlock : lock s.tier (.copyingIn layer expert slot todo src) = some (t', p', event)) :
    Inv numLayers expertsPerLayer ⟨t', s.threads.set k p', event.toList ++ s.history⟩ := by
  obtain ⟨⟨hl, he, hbuf⟩, hcopied⟩ := h.threads k _ hk
  simp only [lock] at hlock
  split at hlock
  · rename_i hdone
    subst hdone
    obtain ⟨c, hpub, hlock⟩ := Option.bind_eq_some_iff.mp hlock
    obtain ⟨c', hrel, hlock⟩ := Option.bind_eq_some_iff.mp hlock
    cases hlock
    let j : Job := ⟨layer, expert, slot, true⟩
    have hlost : (s.threads.flatMap CallPhase.jobs).Perm
        (j :: (s.threads.set k .idle).flatMap CallPhase.jobs) := flatMap_perm_lose [j] hk (.refl _)
    have htake : src.take s.tier.span = s.tier.slab slot :=
      take_eq_slab (h.length slot) hbuf fun i hi => (hcopied i hi nofun).symm
    have hfilled : Slabs s.tier.expertsPerLayer s.tier.cache
        (s.threads.flatMap CallPhase.handles)
        (j :: (s.threads.set k .idle).flatMap CallPhase.jobs) [j]
        (HoldsPut (.put layer expert (src.take s.tier.span) :: s.history) s.tier) := by
      refine (h.slabs.perm (.refl _) hlost fun _ hm => hm).copyIn List.mem_cons_self ?_ fun i e _ hput => ?_
      · show TierEvent.put layer expert (s.tier.slab slot) ∈ _
        rw [htake]
        exact List.mem_cons_self
      · exact List.mem_cons_of_mem _ hput
    have hslabs := hfilled.publish List.mem_cons_self rfl (fun _ hm => absurd hm List.not_mem_nil)
      hpub hrel
    refine h.move ?_ rfl rfl rfl trivial h.justified
    exact hslabs.perm (flatMap_perm_set hk rfl) (.refl _) fun _ hm => hm
  · cases hlock

/-! ### Threads that copy -/

/-- A byte is written to the slab of writer `k`. -/
theorem copy_in {layer expert slot : Nat} {todo : List Nat} {src : List UInt8} {b : UInt8}
    (h : Inv numLayers expertsPerLayer s) (hk : s.threads[k]? = some (.copyingIn layer expert slot todo src))
    (hb : src[i]? = some b) (hi : i < s.tier.span) :
    Inv numLayers expertsPerLayer
      { s with
        tier := { s.tier with
          slab := Function.update s.tier.slab slot ((s.tier.slab slot).set i b) }
        threads := s.threads.set k
          (.copyingIn layer expert slot (todo.filter (· ≠ i)) src) } := by
  let j : Job := ⟨layer, expert, slot, true⟩
  have hj : j ∈ s.threads.flatMap CallPhase.jobs :=
    List.mem_flatMap.mpr ⟨_, List.mem_of_getElem? hk, List.mem_cons_self⟩
  refine ⟨?_, fun slot' => ?_, h.epl, h.keys, fun k' q hq => ?_, h.justified⟩
  · refine slabs_set hk (h.slabs.write hj fun i' e hne hput => ?_) rfl rfl
    show TierEvent.put e.1 e.2 (Function.update s.tier.slab slot _ i') ∈ s.history
    rw [Function.update_of_ne hne]
    exact hput
  · show (Function.update s.tier.slab slot _ slot').length = s.tier.span
    by_cases hs : slot' = slot
    · rw [hs, Function.update_self, List.length_set]
      exact h.length slot
    · rw [Function.update_of_ne hs]
      exact h.length slot'
  · by_cases hk' : k' = k
    · -- the writer itself
      rw [hk'] at hq
      obtain ⟨hlt, hq⟩ := List.getElem?_eq_some_iff.mp hq
      rw [List.getElem_set_self] at hq
      subst hq
      obtain ⟨hn, hcopied⟩ := h.threads k _ hk
      refine ⟨hn, fun i' hi' hm => ?_⟩
      show (Function.update s.tier.slab slot ((s.tier.slab slot).set i b) slot)[i']? = src[i']?
      rw [Function.update_self]
      by_cases heq : i' = i
      · rw [heq, hb, List.getElem?_set_self (by rw [h.length]; exact hi)]
      · rw [List.getElem?_set_ne (Ne.symm heq)]
        exact hcopied i' hi' fun hmem => hm (List.mem_filter.mpr ⟨hmem, by simpa using heq⟩)
    · -- another thread's slot is another slot
      rw [List.getElem?_set_ne (Ne.symm hk')] at hq
      have hold := h.threads k' q hq
      cases q with
      | idle | looking layer' expert' dst | offering layer' expert' dst => exact hold
      | copyingOut layer' expert' slot' todo' dst =>
          have hheld : (⟨layer', expert', slot'⟩ : ExpertHandle) ∈
              s.threads.flatMap CallPhase.handles :=
            List.mem_flatMap.mpr ⟨_, List.mem_of_getElem? hq, List.mem_cons_self⟩
          have hne : slot ≠ slot' := h.slabs.ne_of_held hheld hj
          refine ⟨hold.1, fun i' hi' hm => ?_⟩
          show dst[i']? = (Function.update s.tier.slab slot _ slot')[i']?
          rw [Function.update_of_ne (Ne.symm hne)]
          exact hold.2 i' hi' hm
      | copyingIn layer' expert' slot' todo' src' =>
          have hother : (⟨layer', expert', slot', true⟩ : Job) ∈
              others CallPhase.jobs s.threads k := mem_others hq hk' List.mem_cons_self
          have hunique := ((flatMap_perm_share CallPhase.jobs hk).map Job.slot).nodup_iff.mp
            h.slabs.unique
          have hne : slot' ≠ slot := by
            intro heq
            refine (List.nodup_cons.mp hunique).1 ?_
            exact List.mem_map.mpr ⟨_, hother, heq⟩
          refine ⟨hold.1, fun i' hi' hm => ?_⟩
          show (Function.update s.tier.slab slot _ slot')[i']? = src'[i']?
          rw [Function.update_of_ne hne]
          exact hold.2 i' hi' hm

/-- A byte is read from the slab of reader `k`. -/
theorem copy_out {layer expert slot : Nat} {todo : List Nat} {dst : List UInt8} {b : UInt8}
    (h : Inv numLayers expertsPerLayer s) (hk : s.threads[k]? = some (.copyingOut layer expert slot todo dst))
    (hb : (s.tier.slab slot)[i]? = some b) :
    Inv numLayers expertsPerLayer
      { s with
        threads := s.threads.set k
          (.copyingOut layer expert slot (todo.filter (· ≠ i)) (dst.set i b)) } := by
  obtain ⟨⟨hl, he, hbuf⟩, hcopied⟩ := h.threads k _ hk
  have hknows : Knows numLayers s.tier
      (.copyingOut layer expert slot (todo.filter (· ≠ i)) (dst.set i b)) := by
    refine ⟨⟨hl, he, by rw [List.length_set]; exact hbuf⟩, fun i' hi' hm => ?_⟩
    by_cases heq : i' = i
    · rw [heq] at hi' ⊢
      rw [hb, List.getElem?_set_self (by omega)]
    · rw [List.getElem?_set_ne (Ne.symm heq)]
      exact hcopied i' hi' fun hmem => hm (List.mem_filter.mpr ⟨hmem, by simpa using heq⟩)
  exact h.move_none (slabs_set hk h.slabs rfl rfl) hknows

/-! ### Runs -/

theorem step_inv {a : TierAction} (h : Inv numLayers expertsPerLayer s)
    (hstep : step numLayers expertsPerLayer s a = some s') : Inv numLayers expertsPerLayer s' := by
  cases a with
  | call k c =>
      obtain ⟨p, hk, hstep⟩ := Option.bind_eq_some_iff.mp hstep
      split at hstep
      case isFalse => cases hstep
      case isTrue hidle =>
      subst hidle
      obtain ⟨p', hstart, hstep⟩ := Option.bind_eq_some_iff.mp hstep
      cases hstep
      have hp' : Knows numLayers s.tier p' ∧ p'.handles = [] ∧ p'.jobs = [] := by
        rw [← h.epl] at hstart
        cases c <;> simp only [start] at hstart <;> split at hstart <;> cases hstart <;>
          exact ⟨‹_ ∧ _ ∧ _›, rfl, rfl⟩
      exact h.move_none (slabs_set hk h.slabs hp'.2.1 hp'.2.2) hp'.1
  | lock k =>
      obtain ⟨p, hk, hstep⟩ := Option.bind_eq_some_iff.mp hstep
      obtain ⟨⟨t', p', event⟩, hlock, hstep⟩ := Option.bind_eq_some_iff.mp hstep
      cases hstep
      cases p with
      | idle => cases hlock
      | looking layer expert dst => exact lock_looking h hk hlock
      | copyingOut layer expert slot todo dst => exact lock_copyingOut h hk hlock
      | offering layer expert src => exact lock_offering h hk hlock
      | copyingIn layer expert slot todo src => exact lock_copyingIn h hk hlock
  | copy k i =>
      obtain ⟨p, hk, hstep⟩ := Option.bind_eq_some_iff.mp hstep
      obtain ⟨⟨t', p'⟩, hcopy, hstep⟩ := Option.bind_eq_some_iff.mp hstep
      cases hstep
      cases p with
      | idle | looking layer expert dst | offering layer expert src => cases hcopy
      | copyingOut layer expert slot todo dst =>
          obtain ⟨b, hb, hcopy⟩ := Option.bind_eq_some_iff.mp hcopy
          cases hcopy
          exact copy_out h hk hb
      | copyingIn layer expert slot todo src =>
          obtain ⟨b, hb, hcopy⟩ := Option.bind_eq_some_iff.mp hcopy
          split at hcopy
          · rename_i hi
            cases hcopy
            exact copy_in h hk hb hi
          · cases hcopy

theorem reachable_inv
    (h : (system ramBytes span numLayers expertsPerLayer).Reachable Lib.System.anyStep s) :
    Inv numLayers expertsPerLayer s := by
  refine h.invariant ?_ fun s a s' (hs : Inv numLayers expertsPerLayer s) _
    (hstep : step numLayers expertsPerLayer s a = some s') => step_inv hs hstep
  intro s hinit
  obtain ⟨hnew, hidle, hhistory⟩ := hinit
  obtain ⟨sh, hinv, hview, hslab, hspan, hepl, hfits⟩ := RamTier.new_spec hnew
  have hhandles : s.threads.flatMap CallPhase.handles = [] :=
    List.flatMap_eq_nil_iff.mpr fun p hp => by rw [hidle p hp]; rfl
  have hjobs : s.threads.flatMap CallPhase.jobs = [] :=
    List.flatMap_eq_nil_iff.mpr fun p hp => by rw [hidle p hp]; rfl
  refine ⟨?_, fun slot => ?_, hepl, hfits, fun k p hp => ?_, ?_⟩
  · rw [hhandles, hjobs]
    exact Slabs.start hinv hview
  · rw [hslab, hspan]
    exact List.length_replicate
  · rw [hidle p (List.mem_of_getElem? hp)]
    trivial
  · rw [hhistory]
    trivial

theorem Justified.put_mem {layer expert : Nat} {bytes : List UInt8}
    {older history : List TierEvent} (h : Justified history)
    (hsuffix : .got layer expert bytes :: older <:+ history) : .put layer expert bytes ∈ older := by
  induction history with
  | nil => exact absurd (List.eq_nil_of_suffix_nil hsuffix) nofun
  | cons event history ih =>
      rcases List.suffix_cons_iff.mp hsuffix with heq | hrest
      · cases heq
        exact h.1
      · cases event with
        | put layer expert bytes => exact ih h hrest
        | got layer expert bytes => exact ih h.2 hrest

/-- Whatever the threads do, a `get` that returned `true` returned the bytes of
one earlier `put` of its expert; and from its lookup on, its slab holds those
of such a `put`, and nobody writes it. -/
theorem reachable_get_put
    (h : (system ramBytes span numLayers expertsPerLayer).Reachable Lib.System.anyStep s) :
    (∀ layer expert bytes older, .got layer expert bytes :: older <:+ s.history →
      .put layer expert bytes ∈ older) ∧
    ∀ (k : Nat) layer expert slot todo dst,
      s.threads[k]? = some (CallPhase.copyingOut layer expert slot todo dst) →
      .put layer expert (s.tier.slab slot) ∈ s.history ∧
      ∀ layer' expert' todo' src, .copyingIn layer' expert' slot todo' src ∉ s.threads := by
  have hs := reachable_inv h
  refine ⟨fun layer expert bytes older hsuffix => hs.justified.put_mem hsuffix,
    fun k layer expert slot todo dst hk => ?_⟩
  have hheld : (⟨layer, expert, slot⟩ : ExpertHandle) ∈ s.threads.flatMap CallPhase.handles :=
    List.mem_flatMap.mpr ⟨_, List.mem_of_getElem? hk, List.mem_cons_self⟩
  refine ⟨hs.slabs.holds hheld, fun layer' expert' todo' src hm => ?_⟩
  have hjob : (⟨layer', expert', slot, true⟩ : Job) ∈ s.threads.flatMap CallPhase.jobs :=
    List.mem_flatMap.mpr ⟨_, hm, List.mem_cons_self⟩
  exact hs.slabs.ne_of_held hheld hjob rfl

/-- One slab, two threads: a second `put` finds the slab in use by the reader. -/
theorem reachable_get_put_one_slab : ∃ s,
    (system 2 2 1 2).Reachable Lib.System.anyStep s ∧
    s.history = [.got 0 1 [7, 8], .put 0 1 [7, 8]] ∧
    ∀ layer expert bytes older, .got layer expert bytes :: older <:+ s.history →
      .put layer expert bytes ∈ older := by
  obtain ⟨t, ht⟩ : ∃ t, RamTier.new 2 2 1 2 = some (some t) := ⟨_, rfl⟩
  have hinit : (system 2 2 1 2).init ⟨t, [.idle, .idle], []⟩ := ⟨ht, by simp, rfl⟩
  obtain ⟨s, hs, hhistory⟩ := Lib.System.exists_reachable (C := Lib.System.anyStep) (step 1 2)
    [.call 0 (.put 0 1 [7, 8]), .lock 0, .copy 0 1, .copy 0 0, .lock 0,
      .call 1 (.get 0 1 [0, 0]), .lock 1, .copy 1 0,
      .call 0 (.put 0 0 [1, 1]), .lock 0, .copy 1 1, .lock 1]
    (fun s => decide (s.history = [.got 0 1 [7, 8], .put 0 1 [7, 8]])) hinit
    (fun _ _ _ => trivial) (by cases ht; decide)
  exact ⟨s, hs, of_decide_eq_true hhistory, (reachable_get_put hs).1⟩

end TierCalls

end LlmPager
