import LlmPager.Core.Layers
import LlmPager.Lib.Ageing

/-!
# LlmPager.Core.Ageing

Dead experts leave: what the ageing of a partition gives a resident that nobody
asks for any more.

The slot of such a resident stays unpinned and its counter only halves, so the
partition is a population in the sense of `Lib.Age`. A miss takes a slot whose
counter is at most the dead expert's; at zero it uses up one of the zero counters
that the last halving left. `Dormant.call` is that step, `Dormant.runCalls` the
run.
-/

namespace LlmPager

open LlmPager.Lib

namespace ExpertCache

/-! ### Counters -/

/-- The counter of a slot; indices past the end read 0. -/
def freqAt (slots : List SlotState) (i : Nat) : Nat := (slots[i]?.map SlotState.freq).getD 0

/-- How many of the slots `base .. base + len` have counter 0. -/
def zeros (slots : List SlotState) (base len : Nat) : Nat :=
  ((Finset.Ico base (base + len)).filter fun i => freqAt slots i = 0).card

/-- The population of a partition, with slot `i` watched. -/
def ageOf (slots : List SlotState) (part : Partition) (i : Nat) : Age :=
  { freq := freqAt slots i, zeros := zeros slots part.base part.len,
    inserts := part.insertsSinceDecay }

section Counters

variable {slots slots' : List SlotState} {part : Partition} {i j base len : Nat} {s t : SlotState}

theorem freqAt_eq (h : slots[i]? = some s) : freqAt slots i = s.freq := by
  simp [freqAt, h]

theorem freqAt_set (h : slots[j]? = some t) :
    freqAt (slots.set j s) i = if i = j then s.freq else freqAt slots i := by
  have hlt := (List.getElem?_eq_some_iff.mp h).1
  by_cases hi : i = j
  · subst hi
    simp [freqAt, hlt]
  · simp [freqAt, hi, Ne.symm hi]

theorem zeros_le : zeros slots base len ≤ len := by
  refine (Finset.card_filter_le _ _).trans ?_
  simp

theorem zeros_mono
    (h : ∀ i, base ≤ i ∧ i < base + len → freqAt slots' i = 0 → freqAt slots i = 0) :
    zeros slots' base len ≤ zeros slots base len := by
  refine Finset.card_le_card fun i hi => ?_
  simp only [Finset.mem_filter, Finset.mem_Ico] at hi ⊢
  exact ⟨hi.1, h i hi.1 hi.2⟩

/-- A zero counter that rises is one zero less. -/
theorem zeros_lt (hi : base ≤ i ∧ i < base + len) (hzero : freqAt slots i = 0)
    (hpos : freqAt slots' i ≠ 0)
    (h : ∀ i, base ≤ i ∧ i < base + len → freqAt slots' i = 0 → freqAt slots i = 0) :
    zeros slots' base len < zeros slots base len := by
  refine Finset.card_lt_card ⟨fun j hj => ?_, fun hsub => hpos ?_⟩
  · simp only [Finset.mem_filter, Finset.mem_Ico] at hj ⊢
    exact ⟨hj.1, h j hj.1 hj.2⟩
  · have hmem : i ∈ (Finset.Ico base (base + len)).filter fun i => freqAt slots i = 0 := by
      simp [hi, hzero]
    exact (Finset.mem_filter.mp (hsub hmem)).2

theorem ageOf_ok (howns : part.Owns i) : (ageOf slots part i).Ok part.len where
  zeros_le := zeros_le
  watched hzero := by
    show 0 < zeros slots part.base part.len
    refine Finset.card_pos.mpr ⟨i, ?_⟩
    simp only [Finset.mem_filter, Finset.mem_Ico]
    exact ⟨howns, hzero⟩

theorem freqAt_halveRange (hi : base ≤ i ∧ i < base + len) :
    freqAt (halveRange slots base len) i = freqAt slots i / 2 := by
  cases hs : slots[i]? with
  | none => simp [freqAt, halveRange, List.getElem?_mapIdx, hs]
  | some s => simp [freqAt, halveRange, List.getElem?_mapIdx, hs, hi]

end Counters

/-! ### A dormant expert -/

/-- Expert `x` sits unpinned in slot `i` of partition `p`. -/
structure Dormant (c : ExpertCache) (p i x : Nat) (part : Partition) : Prop where
  get : c.parts[p]? = some part
  owns : part.Owns i
  slot : ∃ s, c.slots[i]? = some s ∧ s.id = some x ∧ s.pins = 0
  inserts : part.insertsSinceDecay < c.decayInterval

/-- The call is a miss of partition `p`. -/
def isMiss (c : ExpertCache) (p : Nat) (op : CacheCall) (out : Outcome) : Bool :=
  match op, out with
  | .acquire id, .lookup (.miss _ _) => c.partOf id = some p
  | _, _ => false

/-- The misses of partition `p` in a run. -/
def missesIn (c : ExpertCache) (p : Nat) (ops : List CacheCall) (outs : List Outcome) : Nat :=
  (ops.zip outs).countP fun x => c.isMiss p x.1 x.2

/-- Nobody asks for `x`, and nobody halves the counters by hand. -/
def Forsakes (x : Nat) (op : CacheCall) : Prop :=
  op ≠ .acquire x ∧ op ≠ .lookupReady x ∧ op ≠ .decayAll

/-- How many more misses the dormant expert of slot `i` can outlive. -/
def patience (c : ExpertCache) (part : Partition) (i : Nat) : Nat :=
  (ageOf c.slots part i).patience c.decayInterval c.decayInterval part.len

namespace Dormant

variable {sh : Shape} {c c' : ExpertCache} {p i j x : Nat} {part : Partition} {s t : SlotState}

/-- A call that takes no slot of the partition. -/
theorem quiet (h : Dormant c p i x part) (hsize : part.len ≤ c.decayInterval)
    (hpart : c'.parts[p]? = c.parts[p]?) (hdecay : c'.decayInterval = c.decayInterval)
    (hslot : ∃ s, c'.slots[i]? = some s ∧ s.id = some x ∧ s.pins = 0)
    (hfreq : freqAt c'.slots i = freqAt c.slots i)
    (hzero : ∀ j, part.Owns j → freqAt c'.slots j = 0 → freqAt c.slots j = 0) :
    Dormant c' p i x part ∧ patience c' part i ≤ patience c part i := by
  refine ⟨⟨hpart.trans h.get, h.owns, hslot, hdecay ▸ h.inserts⟩, ?_⟩
  unfold patience
  rw [hdecay]
  have hstep : Age.Step c.decayInterval c.decayInterval part.len (ageOf c.slots part i) 0
      (ageOf c'.slots part i) := by
    unfold ageOf
    rw [hfreq]
    exact .quiet (zeros_mono hzero)
  exact hstep.patience hsize (ageOf_ok h.owns) (ageOf_ok h.owns)

/-- A write to one slot that does not bring its counter to 0, and to the dormant
one only if it keeps what makes it dormant. -/
theorem set (h : Dormant c p i x part) (hsize : part.len ≤ c.decayInterval)
    (ht : c.slots[j]? = some t) (hzero : s.freq = 0 → t.freq = 0)
    (hkeep : j = i → s.id = t.id ∧ s.pins = t.pins ∧ s.freq = t.freq) (hits : Nat) :
    Dormant { c with slots := c.slots.set j s, hits := hits } p i x part ∧
      patience { c with slots := c.slots.set j s, hits := hits } part i ≤ patience c part i := by
  obtain ⟨v, hv, hid, hpins⟩ := h.slot
  have hlt := (List.getElem?_eq_some_iff.mp ht).1
  refine h.quiet hsize rfl rfl ?_ ?_ ?_
  · by_cases hj : j = i
    · subst hj
      obtain rfl : t = v := Option.some.inj (ht.symm.trans hv)
      obtain ⟨hsid, hspins, -⟩ := hkeep rfl
      exact ⟨s, by simp [hlt], hsid.trans hid, hspins.trans hpins⟩
    · exact ⟨v, by simp [hj, hv], hid, hpins⟩
  · rw [freqAt_set ht]
    split
    · rename_i hi
      rw [hi, freqAt_eq ht]
      exact (hkeep hi.symm).2.2
    · rfl
  · intro k _ hk
    rw [freqAt_set ht] at hk
    split at hk
    · rename_i hkj
      rw [hkj, freqAt_eq ht]
      exact hzero hk
    · exact hk

theorem touch (h : Dormant c p i x part) (hsize : part.len ≤ c.decayInterval) (hj : j ≠ i)
    (htouch : c.touch j = some c') :
    Dormant c' p i x part ∧ c'.decayInterval = c.decayInterval ∧
      patience c' part i ≤ patience c part i := by
  obtain ⟨t, ht, htouch⟩ := Option.bind_eq_some_iff.mp htouch
  obtain ⟨pins, -, htouch⟩ := Option.bind_eq_some_iff.mp htouch
  cases htouch
  have hset := h.set hsize ht (s := { t with freq := u32SaturatingAdd t.freq 1, pins := pins })
    (fun hz => absurd hz (by simp [u32SaturatingAdd])) (fun hji => absurd hji hj) (c.hits + 1)
  exact ⟨hset.1, rfl, hset.2⟩

/-- The slot of a resident that is not `x` is not the dormant one. -/
theorem ne_of_lookup (h : Dormant c p i x part) (hc : Inv sh c) {id : Nat}
    (hmap : part.map.lookup id = some j) (hne : id ≠ x) : j ≠ i := by
  rintro rfl
  obtain ⟨s, hs, hid, -⟩ := h.slot
  have hview := ((hc.mapped p part h.get id j).mp hmap).2
  rw [view_eq hs] at hview
  exact hne (Option.some.inj (hview.symm.trans hid))

/-- Another partition's business. -/
theorem other {q : Nat} (h : Dormant c p i x part) (hc : Inv sh c)
    (hsize : part.len ≤ c.decayInterval) (hother : OnlyPartition sh q c c') (hne : p ≠ q) :
    Dormant c' p i x part ∧ patience c' part i ≤ patience c part i := by
  obtain ⟨hbase, hlen⟩ := hc.range p part h.get
  have hslots : ∀ k, part.Owns k → c'.slots[k]? = c.slots[k]? := by
    intro k hk
    refine hother.slots k fun hq => hne (Shape.Owns.unique (p := p) ?_ hq)
    show p * sh.slotsPerPartition ≤ k ∧ k < p * sh.slotsPerPartition + sh.slotsPerPartition
    rw [← hbase, ← hlen]
    exact hk
  refine h.quiet hsize (hother.parts p hne) hother.decay ?_ ?_ ?_
  · rw [hslots i h.owns]
    exact h.slot
  · simp only [freqAt, hslots i h.owns]
  · intro k hk hzero
    simpa only [freqAt, hslots k hk] using hzero

/-- The partition a miss leaves, before it is aged. -/
def inserted (part : Partition) (id slot : Nat) (v : SlotState) : Partition :=
  { part with
    map := (match v.id with
      | some old => part.map.erase old
      | none => part.map).insert id slot
    insertsSinceDecay := part.insertsSinceDecay + 1 }

/-- A miss that takes another slot is an insertion, and then, when the interval
is full, a halving. -/
theorem claim (id : Nat) {slot : Nat} {v : SlotState} (h : Dormant c p i x part)
    (hsize : part.len ≤ c.decayInterval) (hv : c.slots[slot]? = some v) (howns : part.Owns slot)
    (hne : slot ≠ i) (hzero : freqAt c.slots i = 0 → v.freq = 0) :
    ∃ part', Dormant (c.claim p part id slot v) p i x part' ∧ part'.len = part.len ∧
      (c.claim p part id slot v).decayInterval = c.decayInterval ∧
      patience (c.claim p part id slot v) part' i + 1 ≤ patience c part i := by
  obtain ⟨s, hs, hid, hpins⟩ := h.slot
  have hlt := (List.getElem?_eq_some_iff.mp h.get).1
  let fresh : SlotState := { id := some id, freq := 1, pins := 1, ready := false }
  let slots := c.slots.set slot fresh
  have hslot : slots[i]? = some s := (List.getElem?_set_ne hne).trans hs
  have hfreq : freqAt slots i = freqAt c.slots i := by
    rw [freqAt_eq hslot, freqAt_eq hs]
  have hinsert : Age.Step c.decayInterval c.decayInterval part.len (ageOf c.slots part i) 1
      (ageOf slots (inserted part id slot v) i) := by
    unfold ageOf
    rw [hfreq]
    refine .insert h.inserts fun hf => zeros_lt howns ?_ ?_ ?_
    · rw [freqAt_eq hv]
      exact hzero hf
    · rw [freqAt_set hv, if_pos rfl]
      exact Nat.one_ne_zero
    · intro j _ hj
      rw [freqAt_set hv] at hj
      split at hj
      · cases hj
      · exact hj
  have hok : (ageOf slots (inserted part id slot v) i).Ok part.len :=
    @ageOf_ok _ (inserted part id slot v) _ h.owns
  have hafter := hinsert.patience hsize (ageOf_ok h.owns) hok
  by_cases hdecay : c.decayInterval ≤ part.insertsSinceDecay + 1
  · -- the interval is full
    let aged : Partition := { inserted part id slot v with insertsSinceDecay := 0 }
    have hclaim : c.claim p part id slot v =
        { c with slots := halveRange slots part.base part.len, parts := c.parts.set p aged,
                 misses := c.misses + 1 } := if_pos hdecay
    have hhalve : Age.Step c.decayInterval c.decayInterval part.len
        (ageOf slots (inserted part id slot v) i) 0
        (ageOf (halveRange slots part.base part.len) aged i) := by
      unfold ageOf
      rw [freqAt_halveRange h.owns]
      exact .halve hdecay
    have hok' : (ageOf (halveRange slots part.base part.len) aged i).Ok part.len :=
      @ageOf_ok _ aged _ h.owns
    have hpatience := hhalve.patience hsize hok hok'
    rw [hclaim]
    refine ⟨aged, ⟨by simp [hlt], h.owns, ⟨{ s with freq := s.freq / 2 }, ?_, hid, hpins⟩,
      h.inserts.pos⟩, rfl, rfl, ?_⟩
    · have hin : part.base ≤ i ∧ i < part.base + part.len := h.owns
      simp [halveRange, hslot, hin]
    · show Age.patience _ _ _ (ageOf (halveRange slots part.base part.len) aged i) + 1 ≤ _
      exact (Nat.add_le_add_right hpatience 1).trans hafter
  · have hclaim : c.claim p part id slot v =
        { c with slots := slots, parts := c.parts.set p (inserted part id slot v),
                 misses := c.misses + 1 } := if_neg hdecay
    rw [hclaim]
    exact ⟨inserted part id slot v, ⟨by simp [hlt], h.owns, ⟨s, hslot, hid, hpins⟩,
      Nat.lt_of_not_le hdecay⟩, rfl, rfl, hafter⟩

/-- How a call on a dormant expert ends: evicted for good, or dormant with a miss
less to outlive if the call was a miss of its partition. -/
def Fate (c c' : ExpertCache) (p i x : Nat) (part : Partition) (op : CacheCall) (out : Outcome) :
    Prop :=
  out = .lookup (.miss i (some x)) ∨
    ∃ part', Dormant c' p i x part' ∧ part'.len = part.len ∧
      c'.decayInterval = c.decayInterval ∧
      patience c' part' i + (if c.isMiss p op out then 1 else 0) ≤ patience c part i

/-- The victim's counter is at most the dormant one's. -/
theorem victim_freq {slot : Nat} {key : Nat × Bool} {v : SlotState} (h : Dormant c p i x part)
    (hscan : scanVictim c.slots (List.range' part.base part.len) none = some (some (slot, key)))
    (hv : c.slots[slot]? = some v) : part.Owns slot ∧ (freqAt c.slots i = 0 → v.freq = 0) := by
  obtain ⟨s, hs, -, hpins⟩ := h.slot
  obtain ⟨hmem, w, hw, -, hkey⟩ := (scanVictim_some hscan).resolve_left nofun
  obtain rfl : v = w := Option.some.inj (hv.symm.trans hw)
  have hleast := (scanVictim_least hscan List.pairwise_lt_range' nofun).2 i
    ((mem_owns part i).mpr h.owns) s hs hpins
  refine ⟨(mem_owns part slot).mp hmem, fun hf => ?_⟩
  rw [freqAt_eq hs] at hf
  rcases hleast with hlt | ⟨heq, -⟩
  · rw [hkey, keyLt_iff] at hlt
    simp only [keyOf, hf] at hlt
    omega
  · rw [hkey] at heq
    simp only [keyOf, hf, Prod.mk.injEq] at heq
    exact heq.1

theorem acquire {id : Nat} {r : Lookup} (h : Dormant c p i x part) (hc : Inv sh c)
    (hsize : part.len ≤ c.decayInterval) (hne : id ≠ x) (hacq : c.acquire id = some (r, c')) :
    Fate c c' p i x part (.acquire id) (.lookup r) := by
  obtain ⟨q, part', hq, hpart', hcases⟩ := acquire_inv hacq
  by_cases hpq : p = q
  · subst hpq
    obtain rfl : part = part' := Option.some.inj (h.get.symm.trans hpart')
    cases hcases with
    | hit hmap htouch =>
        obtain ⟨hdormant, hsame, hle⟩ := h.touch hsize (h.ne_of_lookup hc hmap hne) htouch
        exact .inr ⟨part, hdormant, rfl, hsame, hle⟩
    | @miss slot key v hmap hscan hv =>
        obtain ⟨howns, hzero⟩ := h.victim_freq hscan hv
        by_cases hslot : slot = i
        · subst hslot
          obtain ⟨s, hs, hid, -⟩ := h.slot
          obtain rfl : s = v := Option.some.inj (hs.symm.trans hv)
          exact .inl (by rw [hid])
        · obtain ⟨part', hdormant, hlen, hsame, hle⟩ :=
            h.claim id hsize hv howns hslot hzero
          exact .inr ⟨part', hdormant, hlen, hsame, by simpa [isMiss, hq] using hle⟩
    | stalled => exact .inr ⟨part, h, rfl, rfl, Nat.le_refl _⟩
  · have hother := OnlyPartition.acquire hc hq hacq
    obtain ⟨hdormant, hle⟩ := h.other hc hsize hother hpq
    have hmiss : c.isMiss p (.acquire id) (.lookup r) = false := by
      cases r <;> simp [isMiss, hq, Ne.symm hpq]
    exact .inr ⟨part, hdormant, rfl, hother.decay, by simpa [hmiss] using hle⟩

theorem lookupReady {id : Nat} {r : Option Nat} (h : Dormant c p i x part) (hc : Inv sh c)
    (hsize : part.len ≤ c.decayInterval) (hne : id ≠ x)
    (hlook : c.lookupReady id = some (r, c')) :
    Fate c c' p i x part (.lookupReady id) (.ready r) := by
  obtain ⟨q, part', hq, hpart', hcases⟩ := lookupReady_inv hlook
  by_cases hpq : p = q
  · subst hpq
    obtain rfl : part = part' := Option.some.inj (h.get.symm.trans hpart')
    rcases hcases with ⟨-, rfl⟩ | ⟨slot, _, hmap, -, -, htouch, -⟩
    · exact .inr ⟨part, h, rfl, rfl, Nat.le_refl _⟩
    · obtain ⟨hdormant, hsame, hle⟩ := h.touch hsize (h.ne_of_lookup hc hmap hne) htouch
      exact .inr ⟨part, hdormant, rfl, hsame, hle⟩
  · have hother := OnlyPartition.lookupReady hc hq hlook
    obtain ⟨hdormant, hle⟩ := h.other hc hsize hother hpq
    exact .inr ⟨part, hdormant, rfl, hother.decay, hle⟩

/-- **Step lemma.** -/
theorem call {op : CacheCall} {out : Outcome} (h : Dormant c p i x part) (hc : Inv sh c)
    (hsize : part.len ≤ c.decayInterval) (hop : Forsakes x op) (hcall : c.call op = some (out, c')) :
    Fate c c' p i x part op out := by
  obtain ⟨hacquire, hlookup, hdecay⟩ := hop
  cases op with
  | acquire id =>
      obtain ⟨⟨r, c₁⟩, hacq, heq⟩ := Option.map_eq_some_iff.mp hcall
      cases heq
      exact h.acquire hc hsize (fun heq => hacquire (by rw [heq])) hacq
  | lookupReady id =>
      obtain ⟨⟨r, c₁⟩, hlook, heq⟩ := Option.map_eq_some_iff.mp hcall
      cases heq
      exact h.lookupReady hc hsize (fun heq => hlookup (by rw [heq])) hlook
  | isWedged id =>
      obtain ⟨b, -, heq⟩ := Option.map_eq_some_iff.mp hcall
      cases heq
      exact .inr ⟨part, h, rfl, rfl, Nat.le_refl _⟩
  | publish slot =>
      obtain ⟨c₁, hpub, heq⟩ := Option.map_eq_some_iff.mp hcall
      cases heq
      obtain ⟨t, ht, hpub⟩ := Option.bind_eq_some_iff.mp hpub
      cases hpub
      have hset := h.set hsize ht (s := { t with ready := true }) id
        (fun _ => ⟨rfl, rfl, rfl⟩) c.hits
      exact .inr ⟨part, hset.1, rfl, rfl, hset.2⟩
  | release slot =>
      obtain ⟨c₁, hrel, heq⟩ := Option.map_eq_some_iff.mp hcall
      cases heq
      obtain ⟨t, ht, hrel⟩ := Option.bind_eq_some_iff.mp hrel
      by_cases hpos : 0 < t.pins
      · rw [if_pos hpos] at hrel
        cases hrel
        have hne : slot ≠ i := by
          rintro rfl
          obtain ⟨s, hs, -, hpins⟩ := h.slot
          obtain rfl : s = t := Option.some.inj (hs.symm.trans ht)
          omega
        have hset := h.set hsize ht (s := { t with pins := t.pins - 1 }) id
          (fun heq => absurd heq hne) c.hits
        exact .inr ⟨part, hset.1, rfl, rfl, hset.2⟩
      · rw [if_neg hpos] at hrel
        cases hrel
  | decayAll => exact absurd rfl hdecay

end Dormant

/-! ### Runs -/

section Runs

variable {sh : Shape} {c c' : ExpertCache} {p i x : Nat} {part : Partition}

theorem missesIn_cons {op : CacheCall} {out : Outcome} {ops : List CacheCall}
    {outs : List Outcome} :
    c.missesIn p (op :: ops) (out :: outs) =
      c.missesIn p ops outs + if c.isMiss p op out then 1 else 0 := by
  simp [missesIn, List.countP_cons]

/-- Misses are those of a partition, which ids fold to alike in every state. -/
theorem missesIn_congr (hc : Inv sh c) (hc' : Inv sh c') (ops : List CacheCall)
    (outs : List Outcome) : c'.missesIn p ops outs = c.missesIn p ops outs := by
  have hpart : ∀ id, c'.partOf id = c.partOf id :=
    partOf_congr (hc'.ids.trans hc.ids.symm) (hc'.parts_length.trans hc.parts_length.symm)
  have hmiss : c'.isMiss p = c.isMiss p := by
    funext op out
    cases op <;> cases out <;> simp [isMiss, hpart]
  rw [missesIn, missesIn, hmiss]

/-- **Run lemma.** -/
theorem Dormant.runCalls {ops : List CacheCall} {outs : List Outcome}
    (h : Dormant c p i x part) (hc : Inv sh c) (hsize : part.len ≤ c.decayInterval)
    (hops : ∀ op ∈ ops, Forsakes x op) (hrun : c.runCalls ops = some (outs, c')) :
    .lookup (.miss i (some x)) ∈ outs ∨ c.missesIn p ops outs < patience c part i := by
  induction ops generalizing c part outs with
  | nil =>
      cases hrun
      right
      refine Age.patience_pos ?_ (ageOf_ok h.owns)
      have howns : part.base ≤ i ∧ i < part.base + part.len := h.owns
      omega
  | cons op ops ih =>
      obtain ⟨⟨out, c₁⟩, hcall, hrun⟩ := Option.bind_eq_some_iff.mp hrun
      obtain ⟨⟨outs₁, c₂⟩, hrest, hrun⟩ := Option.bind_eq_some_iff.mp hrun
      cases hrun
      have hc₁ := call_inv hc hcall
      rcases h.call hc hsize (hops op (by simp)) hcall with hout | ⟨part₁, h₁, hlen, hdecay, hle⟩
      · exact .inl (by simp [hout])
      · rcases ih h₁ hc₁ (by rw [hlen, hdecay]; exact hsize)
          (fun o ho => hops o (List.mem_cons_of_mem _ ho)) hrest with hmem | hlt
        · exact .inl (List.mem_cons_of_mem _ hmem)
        · right
          rw [missesIn_cons]
          rw [missesIn_congr hc hc₁] at hlt
          omega

/-- No partition is due for a halving. -/
structure Paced (D : Nat) (c : ExpertCache) : Prop where
  decay : c.decayInterval = D
  inserts : ∀ (p : Nat) part, c.parts[p]? = some part → part.insertsSinceDecay < D

theorem Paced.touch {D slot : Nat} (h : Paced D c) (htouch : c.touch slot = some c') :
    Paced D c' := by
  obtain ⟨t, -, htouch⟩ := Option.bind_eq_some_iff.mp htouch
  obtain ⟨pins, -, htouch⟩ := Option.bind_eq_some_iff.mp htouch
  cases htouch
  exact ⟨h.decay, h.inserts⟩

theorem Paced.claim {D id slot : Nat} {v : SlotState} (h : Paced D c)
    (hpart : c.parts[p]? = some part) : Paced D (c.claim p part id slot v) := by
  have hlt := (List.getElem?_eq_some_iff.mp hpart).1
  have hset : ∀ part' : Partition, part'.insertsSinceDecay < D → ∀ (q : Nat) part'',
      (c.parts.set p part')[q]? = some part'' → part''.insertsSinceDecay < D := by
    intro part' hinserts q part'' hget
    by_cases hq : q = p
    · subst hq
      rw [List.getElem?_set_self hlt] at hget
      cases hget
      exact hinserts
    · rw [List.getElem?_set_ne (Ne.symm hq)] at hget
      exact h.inserts q part'' hget
  by_cases hdecay : c.decayInterval ≤ part.insertsSinceDecay + 1
  · simp only [ExpertCache.claim, if_pos hdecay]
    exact ⟨h.decay, hset _ (h.inserts p part hpart).pos⟩
  · simp only [ExpertCache.claim, if_neg hdecay]
    exact ⟨h.decay, hset _ (h.decay ▸ Nat.lt_of_not_le hdecay)⟩

theorem Paced.call {D : Nat} {op : CacheCall} {out : Outcome} (h : Paced D c)
    (hcall : c.call op = some (out, c')) : Paced D c' := by
  cases op with
  | acquire id =>
      obtain ⟨⟨r, c₁⟩, hacq, heq⟩ := Option.map_eq_some_iff.mp hcall
      cases heq
      obtain ⟨q, part, -, hpart, hcases⟩ := acquire_inv hacq
      cases hcases with
      | hit _ htouch => exact h.touch htouch
      | miss => exact h.claim hpart
      | stalled => exact h
  | lookupReady id =>
      obtain ⟨⟨r, c₁⟩, hlook, heq⟩ := Option.map_eq_some_iff.mp hcall
      cases heq
      obtain ⟨q, part, -, -, ⟨-, rfl⟩ | ⟨slot, _, -, -, -, htouch, -⟩⟩ := lookupReady_inv hlook
      · exact h
      · exact h.touch htouch
  | isWedged id =>
      obtain ⟨b, -, heq⟩ := Option.map_eq_some_iff.mp hcall
      cases heq
      exact h
  | publish slot =>
      obtain ⟨c₁, hpub, heq⟩ := Option.map_eq_some_iff.mp hcall
      cases heq
      obtain ⟨t, -, hpub⟩ := Option.bind_eq_some_iff.mp hpub
      cases hpub
      exact ⟨h.decay, h.inserts⟩
  | release slot =>
      obtain ⟨c₁, hrel, heq⟩ := Option.map_eq_some_iff.mp hcall
      cases heq
      obtain ⟨t, -, hrel⟩ := Option.bind_eq_some_iff.mp hrel
      split at hrel <;> cases hrel
      exact ⟨h.decay, h.inserts⟩
  | decayAll =>
      cases hcall
      refine ⟨h.decay, fun q part hq => ?_⟩
      simp only [decayAll, List.getElem?_map] at hq
      obtain ⟨part', hpart', rfl⟩ := Option.map_eq_some_iff.mp hq
      exact (h.inserts q part' hpart').pos

theorem Paced.runCalls {D : Nat} {ops : List CacheCall} {outs : List Outcome} (h : Paced D c)
    (hrun : c.runCalls ops = some (outs, c')) : Paced D c' := by
  induction ops generalizing c outs with
  | nil =>
      cases hrun
      exact h
  | cons op ops ih =>
      obtain ⟨⟨out, c₁⟩, hcall, hrun⟩ := Option.bind_eq_some_iff.mp hrun
      obtain ⟨⟨outs₁, c₂⟩, hrest, hrun⟩ := Option.bind_eq_some_iff.mp hrun
      cases hrun
      exact ih (h.call hcall) hrest

theorem paced_partitioned {P E S D : Nat} (hnew : partitioned P E S D = some c) : Paced D c := by
  unfold partitioned at hnew
  split at hnew
  case isFalse => cases hnew
  case isTrue hpos =>
  cases hnew
  refine ⟨rfl, fun p part hp => ?_⟩
  rw [List.getElem?_map] at hp
  obtain ⟨q, -, rfl⟩ := Option.map_eq_some_iff.mp hp
  exact hpos.2.2.1

/-- A resident is dormant in the partition it folds to while its slot is
unpinned. -/
theorem dormant_of_resident {D : Nat} {s : SlotState} (hc : Inv sh c) (hpaced : Paced D c)
    (hs : c.slots[i]? = some s) (hid : s.id = some x) (hpins : s.pins = 0)
    (hp : c.partOf x = some p) : ∃ part, Dormant c p i x part ∧ part.len = sh.slotsPerPartition := by
  have hview : (c.view i).id = some x := by
    rw [view_eq hs]
    exact hid
  obtain ⟨howns, part, hpart, -⟩ := hc.resident hview
  cases hc.partOf_eq hp
  obtain ⟨hbase, hlen⟩ := hc.range _ part hpart
  refine ⟨part, ⟨hpart, ?_, ⟨s, hs, hid, hpins⟩, ?_⟩, hlen⟩
  · show part.base ≤ i ∧ i < part.base + part.len
    rw [hbase, hlen]
    exact howns
  · rw [hpaced.decay]
    exact hpaced.inserts _ part hpart

/-- **Dead experts leave.** Once nobody asks for a resident whose slot is
unpinned, it is evicted by miss number `(bits of its counter + 2) * D` of its
partition at the latest, whatever else is acquired, hit, pinned, released or
published in the meantime. -/
theorem forsaken_evicted {P E S D : Nat} {before after : List CacheCall}
    {outs₀ outs : List Outcome} {c₀ : ExpertCache} {s : SlotState}
    (hnew : partitioned P E S D = some c₀) (hinterval : S ≤ D)
    (hbefore : c₀.runCalls before = some (outs₀, c))
    (hs : c.slots[i]? = some s) (hid : s.id = some x) (hpins : s.pins = 0)
    (hp : c.partOf x = some p)
    (hafter : c.runCalls after = some (outs, c')) (hops : ∀ op ∈ after, Forsakes x op)
    (hmisses : (Nat.size s.freq + 2) * D ≤ c.missesIn p after outs) :
    .lookup (.miss i (some x)) ∈ outs := by
  have hc := runCalls_inv (partitioned_spec hnew).1 hbefore
  have hpaced := (paced_partitioned hnew).runCalls hbefore
  obtain ⟨part, hdormant, hlen⟩ := dormant_of_resident hc hpaced hs hid hpins hp
  have hsize : part.len ≤ c.decayInterval := by
    rw [hlen, hpaced.decay]
    exact hinterval
  rcases hdormant.runCalls hc hsize hops hafter with hmem | hlt
  · exact hmem
  · have hbound := Age.patience_le hsize (Nat.le_refl _) (ageOf c.slots part i)
    have hfreq : (ageOf c.slots part i).freq = s.freq := freqAt_eq hs
    rw [hfreq, hpaced.decay] at hbound
    unfold patience at hlt
    rw [hpaced.decay] at hlt
    omega

/-- A miss, and the release of the slot it took. -/
def missCalls (turns : List (Nat × Nat)) : List CacheCall :=
  turns.flatMap fun (id, slot) => [.acquire id, .release slot]

/-- Expert 0 in the first of two slots, and six misses without it. -/
theorem forsaken_evicted_two_slots :
    ∃ c outs c', ExpertCache.runCalls c (missCalls [(1, 1), (2, 0), (3, 1), (1, 0), (2, 1), (3, 0)]) =
        some (outs, c') ∧ .lookup (.miss 0 (some 0)) ∈ outs := by
  let dead : SlotState := { id := some 0, freq := 1, pins := 0, ready := false }
  let after := missCalls [(1, 1), (2, 0), (3, 1), (1, 0), (2, 1), (3, 0)]
  obtain ⟨c₀, hnew, hrun⟩ : ∃ c₀, partitioned 1 8 2 2 = some c₀ ∧
      (c₀.runCalls (missCalls [(0, 0)])).any (fun r => decide (r.2.slots[0]? = some dead) &&
        decide (r.2.partOf 0 = some 0) && (r.2.runCalls after).any
          fun r' => decide (6 ≤ r.2.missesIn 0 after r'.1)) = true := ⟨_, rfl, by decide⟩
  obtain ⟨⟨outs₀, c⟩, hbefore, hrun⟩ := (Option.any_eq_true _ _).mp hrun
  simp only [Bool.and_eq_true, decide_eq_true_eq] at hrun
  obtain ⟨⟨hs, hp⟩, hrun⟩ := hrun
  obtain ⟨⟨outs, c'⟩, hafter, hmisses⟩ := (Option.any_eq_true _ _).mp hrun
  exact ⟨c, outs, c', hafter, forsaken_evicted hnew (by decide) hbefore hs rfl rfl hp hafter
    (by simp [after, missCalls, Forsakes]) (by simpa [dead] using hmisses)⟩

end Runs

end ExpertCache

end LlmPager
