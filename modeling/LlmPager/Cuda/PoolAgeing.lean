import LlmPager.Core.Ageing
import LlmPager.Cuda.PagerInv

/-!
# LlmPager.Cuda.PoolAgeing

Ageing in the shared pool, where `tick` halves every counter after a number of
forward passes and insertions do not count.

Whatever is inserted between two halvings may have counter 0 again after the
second, and the scan takes the first slot that has. With one miss in each round,
the first slot of the pool changes hands in every round and a dead expert behind
it stays for ever (`Lined.round`, `starves`). Only a pool of one slot has no slot
behind the first.
-/

namespace LlmPager

namespace Pager

/-- What happens to the pool: calls on the cache, and forward passes that end. -/
inductive PoolOp
  | call (op : CacheCall)
  | tick
  deriving Repr, DecidableEq

/-- One operation of the pool and its answer. -/
def poolStep (p : Pager) : PoolOp → Option (Outcome × Pager)
  | .call op => (p.cache.call op).map fun (out, c) => (out, { p with cache := c })
  | .tick => some (.done, p.tick)

def runPool (p : Pager) : List PoolOp → Option (List Outcome × Pager)
  | [] => some ([], p)
  | op :: ops => do
      let (out, p) ← p.poolStep op
      let (outs, p) ← p.runPool ops
      some (out :: outs, p)

/-- The answer is a miss. -/
def isMiss : Outcome → Bool
  | .lookup (.miss _ _) => true
  | _ => false

/-- Nothing but `tick` halves the counters. -/
def TickDriven (ops : List PoolOp) : Prop := .call .decayAll ∉ ops

/-- Nobody asks for `x` any more. -/
def Forsaken (x : Nat) (ops : List PoolOp) : Prop :=
  .call (.acquire x) ∉ ops ∧ .call (.lookupReady x) ∉ ops

/-- The configuration is that of a shared pool of `S` slots that is halved every
`T` forward passes. -/
structure IsPool (S T : Nat) (cfg : PagerConfig) : Prop where
  shared : cfg.globalPool = true
  size : cfg.numLayers * cfg.slotsPerLayer % 2 ^ 32 = S
  tokens : max cfg.decayTokens 1 = T

/-- In every run of the pool, a resident in an unpinned slot that nobody asks for
any more is evicted by the miss that `bound` gives for its counter. -/
def AgesOut (bound : Nat → Nat) (cfg : PagerConfig) : Prop :=
  ∀ p₀ p p' before after outs₀ outs (i x : Nat) s,
    Pager.new cfg = some p₀ → p₀.runPool before = some (outs₀, p) → TickDriven before →
    p.cache.slots[i]? = some s → s.id = some x → s.pins = 0 →
    p.runPool after = some (outs, p') → TickDriven after → Forsaken x after →
    bound s.freq ≤ outs.countP isMiss → .lookup (.miss i (some x)) ∈ outs

/-! ### Runs of the pool -/

section Runs

variable {p p' p'' : Pager} {ops ops' : List PoolOp} {outs outs' : List Outcome} {S T : Nat}
  {cfg : PagerConfig}

theorem runPool_append (h : p.runPool ops = some (outs, p')) :
    p.runPool (ops ++ ops') = (p'.runPool ops').map fun (outs', p'') => (outs ++ outs', p'') := by
  induction ops generalizing p outs with
  | nil =>
      cases h
      simp
  | cons op ops ih =>
      obtain ⟨⟨out, p₁⟩, hstep, h⟩ := Option.bind_eq_some_iff.mp h
      obtain ⟨⟨outs₁, p₂⟩, hrest, h⟩ := Option.bind_eq_some_iff.mp h
      cases h
      rw [List.cons_append]
      simp only [runPool, hstep, ih hrest, Option.bind_eq_bind, Option.bind_some]
      cases p'.runPool ops' <;> simp

/-- The cache of a shared pool is one partition. -/
theorem pool_inv (h : IsPool S T cfg) (hnew : Pager.new cfg = some p) :
    ExpertCache.Inv ⟨1, cfg.expertsPerLayer, S⟩ p.cache := by
  have hinv := (new_inv hnew).cache
  rw [shape, if_pos h.shared, h.size] at hinv
  exact hinv

end Runs

/-! ### A pool of one slot -/

section Sole

variable {c c' : ExpertCache} {p p' : Pager} {E x : Nat}

/-- Whatever misses takes the only slot. -/
theorem call_sole {op : CacheCall} {out : Outcome} (hc : ExpertCache.Inv ⟨1, E, 1⟩ c)
    (hx : (c.view 0).id = some x) (hcall : c.call op = some (out, c')) :
    out = .lookup (.miss 0 (some x)) ∨ isMiss out = false ∧ (c'.view 0).id = some x := by
  cases op with
  | acquire id =>
      obtain ⟨⟨r, c₁⟩, hacq, heq⟩ := Option.map_eq_some_iff.mp hcall
      cases heq
      rcases (ExpertCache.acquire_cases hc hacq).2 with
        ⟨slot, rfl, -, hview⟩ | ⟨slot, rfl, howns, -⟩ | ⟨rfl, rfl, -⟩
      · refine .inr ⟨rfl, ?_⟩
        rw [hview, SlotTable.pin_id]
        exact hx
      · have hslot : slot < 0 * 1 + 1 := howns.2
        obtain rfl : slot = 0 := by omega
        exact .inl (by rw [hx])
      · exact .inr ⟨rfl, hx⟩
  | lookupReady id =>
      obtain ⟨⟨r, c₁⟩, hlook, heq⟩ := Option.map_eq_some_iff.mp hcall
      cases heq
      refine .inr ⟨rfl, ?_⟩
      rcases (ExpertCache.lookupReady_cases hc hlook).2 with ⟨slot, rfl, -, -, hview⟩ | ⟨rfl, rfl⟩
      · rw [hview, SlotTable.pin_id]
        exact hx
      · exact hx
  | isWedged id =>
      obtain ⟨b, -, heq⟩ := Option.map_eq_some_iff.mp hcall
      cases heq
      exact .inr ⟨rfl, hx⟩
  | publish slot =>
      obtain ⟨c₁, hpub, heq⟩ := Option.map_eq_some_iff.mp hcall
      cases heq
      refine .inr ⟨rfl, ?_⟩
      rw [(ExpertCache.publish_spec hc hpub).2.2, SlotTable.publish_id]
      exact hx
  | release slot =>
      obtain ⟨c₁, hrel, heq⟩ := Option.map_eq_some_iff.mp hcall
      cases heq
      refine .inr ⟨rfl, ?_⟩
      rw [(ExpertCache.release_spec hc hrel).2.2, SlotTable.unpin_id]
      exact hx
  | decayAll =>
      cases hcall
      refine .inr ⟨rfl, ?_⟩
      rw [ExpertCache.decayAll_view]
      exact hx

theorem tick_cache (p : Pager) : p.tick.cache = p.cache ∨ p.tick.cache = p.cache.decayAll := by
  unfold tick
  split
  · exact .inl rfl
  · split
    · exact .inr rfl
    · exact .inl rfl

theorem poolStep_sole {op : PoolOp} {out : Outcome} (hc : ExpertCache.Inv ⟨1, E, 1⟩ p.cache)
    (hx : (p.cache.view 0).id = some x) (hstep : p.poolStep op = some (out, p')) :
    ExpertCache.Inv ⟨1, E, 1⟩ p'.cache ∧
      (out = .lookup (.miss 0 (some x)) ∨ isMiss out = false ∧ (p'.cache.view 0).id = some x) := by
  cases op with
  | call op =>
      obtain ⟨⟨out', c⟩, hcall, heq⟩ := Option.map_eq_some_iff.mp hstep
      cases heq
      exact ⟨ExpertCache.call_inv hc hcall, call_sole hc hx hcall⟩
  | tick =>
      cases hstep
      rcases p.tick_cache with hsame | hdecay
      · rw [hsame]
        exact ⟨hc, .inr ⟨rfl, hx⟩⟩
      · rw [hdecay, ExpertCache.decayAll_view]
        exact ⟨ExpertCache.decayAll_inv hc, .inr ⟨rfl, hx⟩⟩

/-- The first miss evicts the resident. -/
theorem runPool_sole {ops : List PoolOp} {outs : List Outcome}
    (hc : ExpertCache.Inv ⟨1, E, 1⟩ p.cache) (hx : (p.cache.view 0).id = some x)
    (hrun : p.runPool ops = some (outs, p')) (hmiss : 0 < outs.countP isMiss) :
    .lookup (.miss 0 (some x)) ∈ outs := by
  induction ops generalizing p outs with
  | nil =>
      cases hrun
      cases hmiss
  | cons op ops ih =>
      obtain ⟨⟨out, p₁⟩, hstep, hrun⟩ := Option.bind_eq_some_iff.mp hrun
      obtain ⟨⟨outs₁, p₂⟩, hrest, hrun⟩ := Option.bind_eq_some_iff.mp hrun
      cases hrun
      obtain ⟨hc₁, rfl | ⟨hout, hx₁⟩⟩ := poolStep_sole hc hx hstep
      · exact List.mem_cons_self
      · refine List.mem_cons_of_mem _ (ih hc₁ hx₁ hrest ?_)
        simpa [hout] using hmiss

theorem runPool_inv {sh : Shape} {ops : List PoolOp} {outs : List Outcome}
    (hc : ExpertCache.Inv sh p.cache) (hrun : p.runPool ops = some (outs, p')) :
    ExpertCache.Inv sh p'.cache := by
  induction ops generalizing p outs with
  | nil =>
      cases hrun
      exact hc
  | cons op ops ih =>
      obtain ⟨⟨out, p₁⟩, hstep, hrun⟩ := Option.bind_eq_some_iff.mp hrun
      obtain ⟨⟨outs₁, p₂⟩, hrest, hrun⟩ := Option.bind_eq_some_iff.mp hrun
      cases hrun
      refine ih ?_ hrest
      cases op with
      | call op =>
          obtain ⟨⟨out', c⟩, hcall, heq⟩ := Option.map_eq_some_iff.mp hstep
          cases heq
          exact ExpertCache.call_inv hc hcall
      | tick =>
          cases hstep
          rcases p.tick_cache with hsame | hdecay
          · rw [hsame]
            exact hc
          · rw [hdecay]
            exact ExpertCache.decayAll_inv hc

end Sole

/-! ### A dead expert behind the first slot -/

/-- A pool whose first `k` slots hold the experts of `ids`, all with counter 0 and
unpinned, and whose others are empty. -/
def lined (S k : Nat) (ids : Nat → Nat) : List SlotState :=
  (List.range S).map fun j =>
    if j < k then { id := some (ids j), freq := 0, pins := 0, ready := false } else .empty

/-- The pool between two rounds. -/
structure Lined (S T E k : Nat) (ids : Nat → Nat) (p : Pager) : Prop where
  shared : p.globalPool = true
  tokens : p.decayTokens = T
  ticks : p.ticks % T = 0
  inv : ExpertCache.Inv ⟨1, E, S⟩ p.cache
  slots : p.cache.slots = lined S k ids
  inserts : ∀ (q : Nat) part, p.cache.parts[q]? = some part → part.insertsSinceDecay = 0
  decay : p.cache.decayInterval = 2 ^ 32 - 1

/-- One miss, its release, and the forward passes until the counters are halved. -/
def missRound (T id slot : Nat) : List PoolOp :=
  .call (.acquire id) :: .call (.release slot) :: List.replicate T .tick

section Rounds

variable {p p' : Pager} {S T E k id : Nat} {ids : Nat → Nat}

theorem lined_get {j : Nat} (hj : j < S) : (lined S k ids)[j]? =
    some (if j < k then { id := some (ids j), freq := 0, pins := 0, ready := false }
      else .empty) := by
  simp [lined, hj]

/-- Forward passes up to the last of a round leave the cache alone. -/
theorem runPool_ticks (hshared : p.globalPool = true) (htokens : p.decayTokens = T) (n : Nat)
    (hn : p.ticks % T + n < T) : p.runPool (List.replicate n .tick) =
      some (List.replicate n .done, { p with ticks := p.ticks + n }) := by
  induction n generalizing p with
  | zero => rfl
  | succ n ih =>
      have hmod : (p.ticks + 1) % T = p.ticks % T + 1 := by
        rw [Nat.add_mod, Nat.mod_eq_of_lt (show 1 < T by omega), Nat.mod_eq_of_lt (by omega)]
      have htick : p.tick = { p with ticks := p.ticks + 1 } := by
        unfold tick
        rw [if_neg (by simp [hshared]), if_neg (by rw [htokens, hmod]; omega)]
      have hrest : p.tick.runPool (List.replicate n .tick) =
          some (List.replicate n .done, { p.tick with ticks := p.tick.ticks + n }) := by
        apply ih <;> rw [htick]
        · exact hshared
        · exact htokens
        · show (p.ticks + 1) % T + n < T
          omega
      rw [List.replicate_succ, List.replicate_succ]
      simp only [runPool, poolStep, Option.bind_eq_bind, Option.bind_some, hrest]
      rw [htick]
      simp only [Nat.add_assoc, Nat.add_comm 1 n]

/-- A round of forward passes halves every counter, once. -/
theorem runPool_halve (hshared : p.globalPool = true) (htokens : p.decayTokens = T) (hT : 0 < T)
    (hticks : p.ticks % T = 0) : p.runPool (List.replicate T .tick) =
      some (List.replicate T .done,
        { p with ticks := p.ticks + T, cache := p.cache.decayAll }) := by
  obtain ⟨n, rfl⟩ := Nat.exists_eq_succ_of_ne_zero hT.ne'
  have hpasses := runPool_ticks hshared htokens n (by omega)
  have hlast : { p with ticks := p.ticks + n }.tick =
      { p with ticks := p.ticks + n.succ, cache := p.cache.decayAll } := by
    have hzero : (p.ticks + n + 1) % n.succ = 0 := by
      rw [Nat.add_assoc, ← Nat.succ_eq_add_one, Nat.add_mod_right]
      exact hticks
    unfold tick
    rw [if_neg (by simp [hshared])]
    exact if_pos (htokens ▸ hzero)
  rw [Nat.succ_eq_add_one, List.replicate_succ', List.replicate_succ', runPool_append hpasses]
  simp only [runPool, poolStep, hlast, Option.bind_eq_bind, Option.bind_some, Option.map_some]

/-- The slot the next miss takes: the first empty one, else the first. -/
def nextVictim (S k : Nat) : Nat := if k < S then k else 0

theorem nextVictim_lt (hS : 0 < S) : nextVictim S k < S := by
  unfold nextVictim
  split <;> omega

theorem scan_lined (hS : 0 < S) (hk : k ≤ S) :
    ∃ key, ExpertCache.scanVictim (lined S k ids) (List.range' 0 S) none =
      some (some (nextVictim S k, key)) := by
  have hlength : (lined S k ids).length = S := by simp [lined]
  have hsome : (ExpertCache.scanVictim (lined S k ids) (List.range' 0 S) none).isSome :=
    ExpertCache.scanVictim_isSome (fun i hi => by rw [hlength]; simpa using hi) none
  obtain ⟨r, hr⟩ := Option.isSome_iff_exists.mp hsome
  have hunpinned : ∀ j < S, ∃ s, (lined S k ids)[j]? = some s ∧ s.pins = 0 ∧
      ExpertCache.keyOf s = (0, decide (j < k)) := by
    intro j hj
    refine ⟨_, lined_get hj, ?_⟩
    by_cases hjk : j < k
    · simp [hjk, ExpertCache.keyOf]
    · simp [hjk, ExpertCache.keyOf, SlotState.empty]
  have hvictim := nextVictim_lt (k := k) hS
  obtain ⟨s, hs, hpins, hkey⟩ := hunpinned _ hvictim
  cases r with
  | none =>
      obtain ⟨s', hs', hpos⟩ := (ExpertCache.scanVictim_none hr).2 (nextVictim S k) (by simpa using hvictim)
      obtain rfl : s = s' := Option.some.inj (hs.symm.trans hs')
      omega
  | some v =>
      obtain ⟨slot, key⟩ := v
      refine ⟨key, ?_⟩
      obtain ⟨hmem, w, hw, -, hwkey⟩ := (ExpertCache.scanVictim_some hr).resolve_left (by simp)
      have hslot : slot < S := by simpa using hmem
      obtain ⟨w', hw', -, hkey'⟩ := hunpinned slot hslot
      obtain rfl : w = w' := Option.some.inj (hw.symm.trans hw')
      have hleast := (ExpertCache.scanVictim_least hr List.pairwise_lt_range' (by simp)).2
        (nextVictim S k) (by simpa using hvictim) s hs hpins
      rw [ExpertCache.Preferred, ExpertCache.keyLt_iff, hwkey, hkey', hkey] at hleast
      have hsame : slot = nextVictim S k := by
        unfold nextVictim at hleast ⊢
        by_cases hfull : k < S
        · simp only [hfull, if_true, lt_irrefl, decide_false, Prod.mk.injEq, true_and,
            decide_eq_false_iff_not] at hleast ⊢
          simp at hleast
          omega
        · simp only [hfull, if_false] at hleast ⊢
          simp at hleast
          omega
      rw [hr, hsame]

theorem lined_length : (lined S k ids).length = S := by simp [lined]

/-- The slots after a round: the newcomer is in line like the others. -/
theorem lined_claim {s : SlotState} (hS : 0 < S) (hid : s.id = some id) (hfreq : s.freq / 2 = 0)
    (hpins : s.pins = 0) (hready : s.ready = false) :
    ((lined S k ids).set (nextVictim S k) s).map (fun s => { s with freq := s.freq / 2 }) =
      lined S (min (k + 1) S) (Function.update ids (nextVictim S k) id) := by
  refine List.ext_getElem? fun j => ?_
  by_cases hj : j < S
  · rw [lined_get hj, List.getElem?_map, List.getElem?_set]
    by_cases hv : nextVictim S k = j
    · subst hv
      have hin : nextVictim S k < min (k + 1) S := by
        unfold nextVictim at hj ⊢
        split <;> omega
      simp [lined_length, hj, hin, hid, hfreq, hpins, hready]
    · have hline : j < min (k + 1) S ↔ j < k := by
        unfold nextVictim at hv
        split at hv <;> omega
      rw [if_neg hv, lined_get hj, Option.map_some]
      by_cases hjk : j < k
      · simp [hjk, hline.mpr hjk, Function.update_of_ne (Ne.symm hv)]
      · simp [hjk, mt hline.mp hjk, SlotState.empty]
  · rw [List.getElem?_eq_none (by simpa [lined_length] using hj),
      List.getElem?_eq_none (by simpa [lined_length] using hj)]

/-- A miss in a pool between two rounds takes the next victim. -/
theorem Lined.acquire (h : Lined S T E k ids p) (hS : 0 < S) (hS32 : S < 2 ^ 32) (hk : k ≤ S)
    (hid : ∀ j < k, ids j ≠ id) :
    ∃ part v, p.cache.parts[0]? = some part ∧ p.cache.slots[nextVictim S k]? = some v ∧
      p.cache.acquire id = some (.miss (nextVictim S k) v.id,
        p.cache.claim 0 part id (nextVictim S k) v) := by
  have hlen : p.cache.parts.length = 1 := h.inv.parts_length
  obtain ⟨part, hpart⟩ := h.inv.part_exists (p := 0) Nat.one_pos
  obtain ⟨hbase, hplen⟩ := h.inv.range 0 part hpart
  have hvictim := nextVictim_lt (k := k) hS
  obtain ⟨key, hscan⟩ : ∃ key, ExpertCache.scanVictim (lined S k ids) (List.range' 0 S) none =
      some (some (nextVictim S k, key)) := scan_lined hS hk
  rw [← h.slots] at hscan
  obtain ⟨v, hv⟩ : ∃ v, p.cache.slots[nextVictim S k]? = some v := by
    rw [h.slots]
    exact ⟨_, lined_get hvictim⟩
  have habsent : part.map.lookup id = none := by
    cases hmap : part.map.lookup id with
    | none => rfl
    | some slot =>
        obtain ⟨howns, hview⟩ := (h.inv.mapped 0 part hpart id slot).mp hmap
        have hslot : slot < S := by
          have : slot < 0 * S + S := howns.2
          omega
        rw [ExpertCache.view_eq (by rw [h.slots]; exact lined_get hslot)] at hview
        by_cases hjk : slot < k
        · simp only [hjk, if_true, SlotState.view, Option.some.injEq] at hview
          exact absurd hview (hid slot hjk)
        · simp [hjk, SlotState.view, SlotState.empty] at hview
  refine ⟨part, v, hpart, hv, ?_⟩
  have hbase' : part.base = 0 := by
    rw [hbase]
    exact Nat.zero_mul S
  have hplen' : part.len = S := hplen
  have hpartOf : p.cache.partOf id = some 0 := by rw [ExpertCache.partOf, if_pos hlen]
  have hstop : u32Add 0 S = some S := by
    rw [u32Add, if_pos (by omega), Nat.zero_add]
  simp only [ExpertCache.acquire, hpartOf, hpart, habsent, hbase', hplen', hstop, Nat.sub_zero,
    hscan, hv, Option.bind_eq_bind, Option.bind_some]

/-- **A round**: one miss, on the next victim, and the pool is in line again. -/
theorem Lined.round (h : Lined S T E k ids p) (hS : 0 < S) (hS32 : S < 2 ^ 32) (hT : 0 < T)
    (hk : k ≤ S) (hid : ∀ j < k, ids j ≠ id) :
    ∃ outs p', p.runPool (missRound T id (nextVictim S k)) = some (outs, p') ∧
      Lined S T E (min (k + 1) S) (Function.update ids (nextVictim S k) id) p' ∧
      outs.countP isMiss = 1 ∧
      ∀ slot evicted, .lookup (.miss slot evicted) ∈ outs → slot = nextVictim S k := by
  obtain ⟨part, v, hpart, hv, hacq⟩ := h.acquire hS hS32 hk hid
  have hinserts := h.inserts 0 part hpart
  have hvictim := nextVictim_lt (k := k) hS
  have hlt : nextVictim S k < p.cache.slots.length := by
    rw [h.slots, lined_length]
    exact hvictim
  obtain ⟨map, hclaim⟩ : ∃ map, p.cache.claim 0 part id (nextVictim S k) v =
      { p.cache with
        slots := p.cache.slots.set (nextVictim S k)
          { id := some id, freq := 1, pins := 1, ready := false }
        parts := p.cache.parts.set 0 { part with
          map := map
          insertsSinceDecay := part.insertsSinceDecay + 1 }
        misses := p.cache.misses + 1 } := ⟨_, if_neg (by rw [h.decay, hinserts]; omega)⟩
  obtain ⟨c, hc⟩ : ∃ c, c = p.cache.claim 0 part id (nextVictim S k) v := ⟨_, rfl⟩
  rw [← hc] at hacq
  let fresh : SlotState := { id := some id, freq := 1, pins := 0, ready := false }
  let c' : ExpertCache := { c with slots := c.slots.set (nextVictim S k) fresh }
  have hrel : c.release (nextVictim S k) = some c' := by
    simp only [ExpertCache.release, c', fresh, hc, hclaim, List.getElem?_set_self hlt,
      Option.bind_eq_bind, Option.bind_some, Nat.one_pos, if_true, Nat.sub_self]
  have hslots : c'.slots = (lined S k ids).set (nextVictim S k) fresh := by
    simp only [c', hc, hclaim, List.set_set, h.slots]
  have hinv : ExpertCache.Inv ⟨1, E, S⟩ c' :=
    (ExpertCache.release_spec (ExpertCache.acquire_cases h.inv hacq).1 hrel).1
  have hdecay : c'.decayInterval = 2 ^ 32 - 1 := by
    simp only [c', hc, hclaim, h.decay]
  have hhalve : { p with cache := c' }.runPool (List.replicate T .tick) =
      some (List.replicate T .done,
        { p with ticks := p.ticks + T, cache := c'.decayAll }) :=
    runPool_halve h.shared h.tokens hT h.ticks
  refine ⟨.lookup (.miss (nextVictim S k) v.id) :: .done :: List.replicate T .done,
    { p with ticks := p.ticks + T, cache := c'.decayAll }, ?_, ?_, ?_, ?_⟩
  · simp only [missRound, runPool, poolStep, ExpertCache.call, hacq, hrel, hhalve,
      Option.map_some, Option.bind_eq_bind, Option.bind_some]
  · refine ⟨h.shared, h.tokens, ?_, ExpertCache.decayAll_inv hinv, ?_, ?_, hdecay⟩
    · show (p.ticks + T) % T = 0
      rw [Nat.add_mod_right]
      exact h.ticks
    · show c'.slots.map _ = _
      rw [hslots]
      exact lined_claim hS rfl (by simp [fresh]) rfl rfl
    · intro q part' hq
      have hq : (c'.parts.map _)[q]? = some part' := hq
      rw [List.getElem?_map] at hq
      obtain ⟨part'', -, rfl⟩ := Option.map_eq_some_iff.mp hq
      rfl
  · have hdone : (List.replicate T Outcome.done).countP isMiss = 0 := by
      rw [List.countP_replicate, if_neg (by decide)]
    rw [List.countP_cons_of_pos rfl, List.countP_cons_of_neg (by decide), hdone]
  · intro slot evicted hmem
    simp only [List.mem_cons, Outcome.lookup.injEq, Lookup.miss.injEq, reduceCtorEq,
      List.mem_replicate, and_false, or_false] at hmem
    exact hmem.1

theorem tickDriven_append {ops ops' : List PoolOp} (h : TickDriven ops) (h' : TickDriven ops') :
    TickDriven (ops ++ ops') := by
  unfold TickDriven at *
  simp [h, h']

theorem tickDriven_missRound (slot : Nat) : TickDriven (missRound T id slot) := by
  simp [TickDriven, missRound, List.mem_replicate]

/-- A fresh pool is in line. -/
theorem lined_new {cfg : PagerConfig} (h : IsPool S T cfg) (hnew : Pager.new cfg = some p) :
    Lined S T cfg.expertsPerLayer 0 (fun j => j) p := by
  have hinv := pool_inv h hnew
  obtain ⟨cache, hcache, hnew⟩ := Option.bind_eq_some_iff.mp hnew
  cases hnew
  unfold newCache ExpertCache.partitioned at hcache
  rw [if_pos h.shared, h.size] at hcache
  split at hcache
  case isFalse => cases hcache
  case isTrue hpos =>
  cases hcache
  refine ⟨h.shared, h.tokens, Nat.zero_mod _, hinv, ?_, ?_, rfl⟩
  · refine List.ext_getElem? fun j => ?_
    simp [lined, List.getElem?_replicate]
  · intro q part hq
    rw [List.getElem?_map] at hq
    obtain ⟨l, -, rfl⟩ := Option.map_eq_some_iff.mp hq
    rfl

/-- Rounds with experts `0, 1, ..` fill the pool. -/
theorem Lined.fill (h : Lined S T E 0 (fun j => j) p) (hS : 0 < S) (hS32 : S < 2 ^ 32)
    (hT : 0 < T) (n : Nat) (hn : n ≤ S) :
    ∃ ops outs p', p.runPool ops = some (outs, p') ∧ Lined S T E n (fun j => j) p' ∧
      TickDriven ops := by
  induction n with
  | zero => exact ⟨[], [], p, rfl, h, by simp [TickDriven]⟩
  | succ n ih =>
      obtain ⟨ops, outs, p₁, hrun, h₁, hdriven⟩ := ih (by omega)
      have hnext : nextVictim S n = n := if_pos (by omega)
      obtain ⟨outs', p', hround, h', -, -⟩ :=
        h₁.round hS hS32 hT (by omega) (show ∀ j < n, j ≠ n by omega)
      rw [hnext, Function.update_eq_self, Nat.min_eq_left (by omega)] at h'
      refine ⟨ops ++ missRound T n (nextVictim S n), outs ++ outs', p', ?_, h',
        tickDriven_append hdriven (tickDriven_missRound _)⟩
      rw [runPool_append hrun, hround]
      rfl

/-- In a full pool, experts 0 and `S` take turns in the first slot. -/
theorem Lined.turns (h : Lined S T E S (fun j => j) p) (hS : 2 ≤ S) (hS32 : S < 2 ^ 32)
    (hT : 0 < T) (n : Nat) :
    ∃ ops outs p' a, p.runPool ops = some (outs, p') ∧ (a = 0 ∨ a = S) ∧
      Lined S T E S (Function.update (fun j => j) 0 a) p' ∧ TickDriven ops ∧ Forsaken 1 ops ∧
      outs.countP isMiss = n ∧
      ∀ slot evicted, .lookup (.miss slot evicted) ∈ outs → slot = 0 := by
  induction n with
  | zero =>
      refine ⟨[], [], p, 0, rfl, .inl rfl, ?_, by simp [TickDriven], by simp [Forsaken], rfl, nofun⟩
      rw [Function.update_eq_self]
      exact h
  | succ n ih =>
      obtain ⟨ops, outs, p₁, a, hrun, ha, h₁, hdriven, hforsaken, hcount, hslot⟩ := ih
      have hnext : nextVictim S S = 0 := if_neg (lt_irrefl S)
      have hother : ∀ j < S, Function.update (fun j => j) 0 a j ≠ S - a := by
        intro j hj
        by_cases hzero : j = 0
        · subst hzero
          rw [Function.update_self]
          omega
        · rw [Function.update_of_ne hzero]
          omega
      obtain ⟨outs', p', hround, h', hcount', hslot'⟩ :=
        h₁.round (by omega) hS32 hT (Nat.le_refl S) hother
      rw [hnext, Function.update_idem, Nat.min_eq_right (by omega)] at h'
      refine ⟨ops ++ missRound T (S - a) (nextVictim S S), outs ++ outs', p', S - a, ?_, by omega,
        h', tickDriven_append hdriven (tickDriven_missRound _), ?_, ?_, ?_⟩
      · rw [runPool_append hrun, hround]
        rfl
      · have hone : S - a ≠ 1 := by omega
        unfold Forsaken at *
        simp [missRound, List.mem_replicate, hforsaken, Ne.symm hone]
      · rw [List.countP_append, hcount, hcount']
      · intro slot evicted hmem
        rcases List.mem_append.mp hmem with hold | hnew
        · exact hslot slot evicted hold
        · exact (hslot' slot evicted hnew).trans hnext

/-- A pool of at least two slots starves its dead experts of eviction. -/
theorem starves (hS : 2 ≤ S) (hS32 : S < 2 ^ 32) (hT : 0 < T) :
    ¬∃ bound, ∀ cfg, IsPool S T cfg → AgesOut bound cfg := by
  intro ⟨bound, hbound⟩
  let cfg : PagerConfig :=
    { numLayers := 1, expertsPerLayer := S + 1, slotsPerLayer := S, decayInterval := 1,
      ioThreads := 1, globalPool := true, decayTokens := T }
  have hpool : IsPool S T cfg :=
    ⟨rfl, by rw [Nat.one_mul, Nat.mod_eq_of_lt hS32], by show max T 1 = T; omega⟩
  obtain ⟨p₀, hnew⟩ : ∃ p₀, Pager.new cfg = some p₀ := by
    have hcache : ∃ c, newCache cfg = some c := by
      unfold newCache
      rw [if_pos rfl, hpool.size]
      exact ⟨_, if_pos ⟨Nat.one_pos, by omega, by decide, by simp⟩⟩
    obtain ⟨c, hc⟩ := hcache
    exact ⟨_, by rw [Pager.new, hc]; rfl⟩
  obtain ⟨before, outs₀, p, hbefore, hlined, hdriven⟩ :=
    (lined_new hpool hnew).fill (by omega) hS32 hT S (Nat.le_refl S)
  obtain ⟨after, outs, p', a, hafter, -, -, hdriven', hforsaken, hcount, hslot⟩ :=
    hlined.turns hS hS32 hT (bound 0)
  -- expert 1 sits in slot 1, with counter 0
  have hone : p.cache.slots[1]? = some { id := some 1, freq := 0, pins := 0, ready := false } := by
    rw [hlined.slots, lined_get (by omega), if_pos (by omega)]
  have hout := hbound cfg hpool p₀ p p' before after outs₀ outs 1 1 _ hnew hbefore hdriven hone
    rfl rfl hafter hdriven' hforsaken hcount.ge
  exact absurd (hslot 1 (some 1) hout) Nat.one_ne_zero

end Rounds

/-- **Ageing in the shared pool.** There is a bound on the misses that a dead
expert outlives exactly in a pool of one slot, whatever the cadence of the
halvings. -/
theorem pool_ages_iff {S T : Nat} (hS : 0 < S) (hS32 : S < 2 ^ 32) (hT : 0 < T) :
    (∃ bound, ∀ cfg, IsPool S T cfg → AgesOut bound cfg) ↔ S = 1 := by
  constructor
  · intro hages
    by_contra hne
    exact starves (by omega) hS32 hT hages
  · rintro rfl
    refine ⟨fun _ => 1, fun cfg hpool => ?_⟩
    intro p₀ p p' before after outs₀ outs i x s hnew hbefore _ hs hid _ hafter _ _ hmiss
    have hinv := runPool_inv (pool_inv hpool hnew) hbefore
    have hlt : i < p.cache.slots.length := (List.getElem?_eq_some_iff.mp hs).1
    rw [hinv.slots_length] at hlt
    obtain rfl : i = 0 := by
      have : i < 1 * 1 := hlt
      omega
    refine runPool_sole hinv ?_ hafter hmiss
    rw [ExpertCache.view_eq hs]
    exact hid

theorem pool_ages_one_slot : ∃ bound, ∀ cfg, IsPool 1 4 cfg → AgesOut bound cfg :=
  (pool_ages_iff (by decide) (by decide) (by decide)).mpr rfl

/-- Two slots and the default cadence. -/
theorem pool_of_two_starves : ¬∃ bound, ∀ cfg, IsPool 2 4 cfg → AgesOut bound cfg :=
  starves (by decide) (by decide) (by decide)

end Pager

end LlmPager
