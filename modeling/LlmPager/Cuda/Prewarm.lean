import LlmPager.Core.Eviction
import LlmPager.Core.PackTotal
import LlmPager.Cuda.RamTierInv
import LlmPager.Lib.Fallible
import LlmPager.Lib.Ranking

/-!
# LlmPager.Cuda.Prewarm

The warm start of the RAM tier from a profile (`Pager::prewarm` in
`llmpager-cuda/src/pager.rs`), and which profiles it can take.

A profile counts how often each expert was fetched, in the order of the pack; it is read
from a file, and nothing compares its length with the pack's. Nobody else uses the tier
while it is warmed up, so `put` is one step here.

The loop keeps `Warming.Inv`: the experts it has read, and no others, are resident, each in
a published slab that holds its blob. A read that fails ends the loop with what it loaded in
the tier (`run_warming`). So `prewarm` keeps its promise on every choice of the largest
counts that is `Loadable`, and on no other (`prewarms_iff`).
-/

namespace LlmPager

open Lib

variable {Value : Type}

/-! ### The code -/

namespace RamTier

/-- `bytes / span`: the mapping has one span for each slot. -/
def capacity (t : RamTier) : Nat := t.cache.slots.length

/-- `RamTier::put`, with nobody else at the tier; `none` where it panics. -/
def put (t : RamTier) (layer expert : Nat) (src : List UInt8) : Option RamTier := do
  let (found, c) ← t.cache.acquire (t.key layer expert)
  match found with
  | .miss slot _ => do
      let slab := Function.update t.slab slot (src.take t.span)
      let c ← c.publish slot
      let c ← c.release slot
      some { t with cache := c, slab := slab }
  | .hit slot => do
      let c ← c.release slot
      some { t with cache := c }
  | .stalled => some { t with cache := c }

end RamTier

/-- The positions that `prewarm` reads: those of the highest counts, in the order of the
pack. -/
def keptPositions (s : UnstableSort (Nat × Nat)) (counts : List Nat) (capacity : Nat) :
    List Nat :=
  let ranked := counts.zipIdx.filter fun p => 0 < p.1
  let ranked := (s.sort (descLe Prod.fst) ranked).take capacity
  (ranked.map Prod.snd).mergeSort

/-- The locals of the loop. -/
structure Warming (Value : Type) where
  reader : PackReader Value
  buf : Buf
  tier : RamTier
  loaded : Nat

namespace Warming

variable (unzstd : List UInt8 → Nat → Option (List UInt8)) (epl : Nat)

/-- The body of the loop. -/
def load (w : Warming Value) (i : Nat) : Except PackError (Warming Value) :=
  if epl = 0 then .error .panic
  else
    let layer := i / epl % 2 ^ 16
    let expert := i % epl % 2 ^ 16
    match w.reader.readBlobInto unzstd layer expert w.buf with
    | .error e => .error e
    | .ok (_, buf, reader) =>
        -- the slice of one span
        if buf.bytes.length < w.tier.span then .error .panic
        else match w.tier.put layer expert (buf.bytes.take w.tier.span) with
          | none => .error .panic
          | some tier => .ok { reader, buf, tier, loaded := w.loaded + 1 }

/-- The loop: its result, and the tier it leaves. -/
def run (w : Warming Value) : List Nat → Except PackError Nat × RamTier
  | [] => (.ok w.loaded, w.tier)
  | i :: is =>
      match w.load unzstd epl i with
      | .error e => (.error e, w.tier)
      | .ok w => w.run is

end Warming

/-- `Pager::prewarm`, on the pack file `bytes`; the tier is the one it leaves. -/
def prewarm (codec : Codec Value) (unzstd : List UInt8 → Nat → Option (List UInt8))
    (bytes : List UInt8) (direct : Bool) (epl : Nat) (s : UnstableSort (Nat × Nat))
    (ram : Option RamTier) (counts : List Nat) : Except PackError Nat × Option RamTier :=
  match ram with
  | none => (.ok 0, none)
  | some t =>
      let idxs := keptPositions s counts t.capacity
      match PackReader.openInner codec bytes direct with
      | .error e => (.error e, some t)
      | .ok reader =>
          let w : Warming Value := { reader, buf := alignedBuf t.span, tier := t, loaded := 0 }
          let (result, t) := w.run unzstd epl idxs
          (result, some t)

/-! ### What it is for -/

/-- The positions with a positive count. -/
def counted (counts : List Nat) : Finset Nat :=
  (Finset.range counts.length).filter fun i => 0 < counts.getD i 0

/-- `top` are `slots` of the positions with the largest counts, or all that have been
counted. -/
def TopCounts (counts : List Nat) (slots : Nat) (top : Finset Nat) : Prop :=
  TopSet (fun i => counts.getD i 0) (counted counts) slots top

/-- The tier holds the experts at these positions of the pack, and no others; each is
published, with its blob in its slab. -/
structure Holds (unzstd : List UInt8 → Nat → Option (List UInt8)) (r : PackReader Value)
    (t : RamTier) (top : Finset Nat) : Prop where
  resident : ∀ i, (∃ slot, (t.cache.view slot).id = some i) ↔ i ∈ top
  published : ∀ slot i, (t.cache.view slot).id = some i → (t.cache.view slot).ready = true ∧
    HoldsBlob unzstd r (i / r.packMeta.expertsPerLayer.toNat, i % r.packMeta.expertsPerLayer.toNat)
      (t.slab slot)

/-- What `prewarm` promises of its result and of the tier it leaves: no panic, and if it
returns a number, that many experts of the pack with the largest counts are in the tier. -/
def Prewarms (unzstd : List UInt8 → Nat → Option (List UInt8)) (r : PackReader Value)
    (counts : List Nat) (slots : Nat) : Except PackError Nat × Option RamTier → Prop
  | (.error e, _) => e ≠ .panic
  | (.ok n, t) => ∃ t', t = some t' ∧ ∃ top, TopCounts counts slots top ∧ top.card = n ∧
      (∀ i ∈ top, i < r.packMeta.total) ∧ Holds unzstd r t' top

/-- The position in the pack at which position `i` of a profile is read: layers are `u16`. -/
def placeOf (epl i : Nat) : Nat := flatId epl (i / epl % 2 ^ 16, i % epl)

namespace PackReader

variable (unzstd : List UInt8 → Nat → Option (List UInt8)) (r : PackReader Value)

/-- The read of the expert at a position, by a reader just opened. -/
def readAt (i : Nat) : Except PackError (Nat × Buf × PackReader Value) :=
  let epl := r.packMeta.expertsPerLayer.toNat
  r.readBlobInto unzstd (i / epl % 2 ^ 16) (i % epl) (alignedBuf (Fetchers.spanOf r))

def CanRead (i : Nat) : Prop := ∃ res, r.readAt unzstd i = .ok res

/-- The experts at these positions can be loaded: all can be read, and where they are read
are again positions with the largest counts; or the first that cannot be read is an error of
the file, not a panic. -/
def Loadable (counts : List Nat) (slots : Nat) (top : Finset Nat) : Prop :=
  (∀ i ∈ top, r.CanRead unzstd i) ∧
      TopCounts counts slots (top.image (placeOf r.packMeta.expertsPerLayer.toNat)) ∨
    ∃ i ∈ top, (∃ e, e ≠ .panic ∧ r.readAt unzstd i = .error e) ∧
      ∀ j ∈ top, j < i → r.CanRead unzstd j

end PackReader

/-! ### A read does not depend on the reads before -/

section Reading

variable {unzstd : List UInt8 → Nat → Option (List UInt8)} {r r' : PackReader Value}
  {layer expert : Nat} {buf : Buf}

theorem preadFull_outcome (f : PackFile) {b b' : Buf} (n offset : Nat)
    (hb : b.addr % blockAlign = 0) (hb' : b'.addr % blockAlign = 0) :
    (preadFull f b n offset).map (fun _ => ()) = (preadFull f b' n offset).map (fun _ => ()) := by
  unfold preadFull
  rw [hb, hb']
  split
  · rfl
  · split
    · rfl
    · split <;> rfl

theorem PackReader.readBlobInto_outcome (hr : r.scratch = none) (hsame : r.SameButScratch r')
    (haddr : buf.addr % blockAlign = 0) (hlen : buf.bytes.length = Fetchers.spanOf r) :
    (r'.readBlobInto unzstd layer expert buf).map (fun _ => ()) =
      (r.readBlobInto unzstd layer expert (alignedBuf (Fetchers.spanOf r))).map (fun _ => ()) := by
  have hroom : (alignedBuf (Fetchers.spanOf r)).bytes.length = buf.bytes.length := by
    rw [hlen]
    simp only [alignedBuf, List.length_replicate]
    exact alignUp_of_aligned (alignUp_mod _)
  have hentry : r'.entry layer expert = r.entry layer expert := by
    rw [PackReader.entry, PackReader.entry, hsame.index, hsame.packMeta]
  unfold PackReader.readBlobInto
  rw [hentry]
  cases he : r.entry layer expert with
  | none => rfl
  | some e =>
      simp only [hsame.packMeta, hsame.file, hroom]
      by_cases hover : 2 ^ 64 ≤ alignUp e.nbytes
      · rw [if_pos hover, if_pos hover]
      rw [if_neg hover, if_neg hover]
      by_cases hraw : r.packMeta.compression = none
      · rw [if_pos hraw, if_pos hraw]
        split
        · rfl
        · rw [if_neg fun h => h.2 haddr, if_neg fun h => h.2 rfl]
          exact Except.map_bind_congr (preadFull_outcome _ _ _ haddr rfl) fun _ _ _ _ => rfl
      · rw [if_neg hraw, if_neg hraw]
        have hstart := PackReader.SameButScratch.start hr
        by_cases hroom : alignUp r.maxStoredBytes < 2 ^ 63
        · obtain ⟨b₀, hb₀⟩ := PackReader.exists_scratchBuf hroom
          obtain ⟨b, hb⟩ : ∃ b, r'.scratchBuf = some b :=
            PackReader.exists_scratchBuf (by rwa [PackReader.maxStoredBytes_congr hsame.index])
          obtain ⟨haddr₀, hlen₀, -⟩ := hstart.room hb₀
          obtain ⟨haddr', hlen', -⟩ := hsame.room hb
          have hspan := alignUp_mono (PackReader.nbytes_le_maxStored he)
          simp only [hb, hb₀]
          rw [if_neg (Nat.not_lt.mpr (hspan.trans hlen')),
            if_neg (Nat.not_lt.mpr (hspan.trans hlen₀))]
          refine Except.map_bind_congr (preadFull_outcome _ _ _ haddr' haddr₀) fun a b ha hb => ?_
          -- the frame is the file's
          have hframe : a.bytes.take e.nbytes = b.bytes.take e.nbytes := by
            rw [preadFull_take ha (le_alignUp _), preadFull_take hb (le_alignUp _)]
          rw [hframe]
          cases unzstd (b.bytes.take e.nbytes) buf.bytes.length <;> rfl
        · rw [hsame.scratchBuf_eq_none hroom, hstart.scratchBuf_eq_none hroom]

end Reading

/-! ### Putting an expert into a tier nobody else uses -/

section Putting

variable {unzstd : List UInt8 → Nat → Option (List UInt8)} {r : PackReader Value} {sh : Shape}
  {t : RamTier} {ids : List Nat} {layer expert slot : Nat} {src : List UInt8}

/-- A tier that nobody uses, after the experts with these ids were put into it. -/
structure Warm (unzstd : List UInt8 → Nat → Option (List UInt8)) (r : PackReader Value)
    (sh : Shape) (t : RamTier) (ids : List Nat) : Prop where
  tier : Tier unzstd r t [] [] []
  cache : ExpertCache.Inv sh t.cache
  idle : ExpertCache.Idle t.cache.slots
  filled : ExpertCache.Filled sh t.cache ids
  epl : t.expertsPerLayer = r.packMeta.expertsPerLayer.toNat

/-- One partition, of as many slots as a `u32` counts. -/
structure OnePartition (sh : Shape) : Prop where
  partitions : sh.partitions = 1
  pos : 0 < sh.slotsPerPartition
  lt : sh.slotsPerPartition < 2 ^ 32

namespace OnePartition

variable (hone : OnePartition sh)

include hone

theorem foldOf (id : Nat) : sh.foldOf id = 0 := if_pos hone.partitions

/-- The only partition is where every id is looked for. -/
theorem partOf {c : ExpertCache} (hinv : ExpertCache.Inv sh c) (id : Nat) :
    c.partOf id = some 0 ∧ ∃ part, c.parts[0]? = some part ∧ part.base = 0 ∧
      part.len = sh.slotsPerPartition := by
  have hlen : c.parts.length = 1 := hinv.parts_length.trans hone.partitions
  have hpart : c.parts[0]? = some c.parts[0] := List.getElem?_eq_getElem (by omega)
  obtain ⟨hbase, hlen'⟩ := hinv.range 0 _ hpart
  exact ⟨if_pos hlen, _, hpart, by simpa using hbase, hlen'⟩

/-- With no pins, `acquire` neither panics nor stalls. -/
theorem acquire {c : ExpertCache} (hinv : ExpertCache.Inv sh c)
    (hpins : ∀ i, (c.view i).pins = 0) (id : Nat) :
    ∃ found c', c.acquire id = some (found, c') ∧ found ≠ .stalled := by
  obtain ⟨hp, part, hpart, hbase, hlen⟩ := hone.partOf hinv id
  have hsome : c.acquire id ≠ none := by
    rw [Ne, ExpertCache.acquire_eq_none_iff hinv hp hpart]
    have hlt := hone.lt
    rintro (⟨slot, s, -, hs, hover⟩ | ⟨-, hover⟩)
    · have hzero := hpins slot
      rw [ExpertCache.view_eq hs] at hzero
      have hpin : s.pins = 0 := hzero
      omega
    · omega
  obtain ⟨⟨found, c'⟩, hacq⟩ := Option.ne_none_iff_exists'.mp hsome
  refine ⟨found, c', hacq, fun hstalled => ?_⟩
  obtain ⟨-, ⟨slot, hfound, -⟩ | ⟨slot, hfound, -⟩ | ⟨-, -, -, hall⟩⟩ :=
    ExpertCache.acquire_cases hinv hacq
  · exact absurd (hfound.symm.trans hstalled) (by simp)
  · exact absurd (hfound.symm.trans hstalled) (by simp)
  · rw [hone.foldOf] at hall
    have hpos := hone.pos
    have := hall 0 (by unfold Shape.Owns; omega)
    rw [hpins] at this
    exact absurd this (Nat.lt_irrefl 0)

end OnePartition

theorem RamTier.put_hit {c c' : ExpertCache}
    (hacq : t.cache.acquire (t.key layer expert) = some (.hit slot, c))
    (hrel : c.release slot = some c') :
    t.put layer expert src = some { t with cache := c' } := by
  simp [RamTier.put, hacq, hrel]

theorem RamTier.put_miss {c c₁ c₂ : ExpertCache} {old : Option Nat}
    (hacq : t.cache.acquire (t.key layer expert) = some (.miss slot old, c))
    (hpub : c.publish slot = some c₁) (hrel : c₁.release slot = some c₂) :
    t.put layer expert src = some { t with
      cache := c₂, slab := Function.update t.slab slot (src.take t.span) } := by
  simp [RamTier.put, hacq, hpub, hrel]

namespace Warm

/-- Nobody holds a pin. -/
theorem unpinned (h : Warm unzstd r sh t ids) (i : Nat) : (t.cache.view i).pins = 0 := by
  obtain ⟨fill, dev, hf, -⟩ := h.tier.fetching
  rw [hf.accounts.pins]
  rfl

/-- A resident is published, with its blob in its slab. -/
theorem resident {i : Nat} (h : Warm unzstd r sh t ids) (hid : (t.cache.view slot).id = some i) :
    (t.cache.view slot).ready = true ∧
      HoldsBlob unzstd r (i / r.packMeta.expertsPerLayer.toNat,
        i % r.packMeta.expertsPerLayer.toNat) (t.slab slot) := by
  obtain ⟨fill, dev, hf, -, hholds⟩ := h.tier.fetching
  have hready : fill slot = .ready := by
    cases hfill : fill slot with
    | ready => rfl
    | empty => exact absurd (hid.symm.trans (hf.empty slot hfill)) (by simp)
    | inFlight => exact absurd ((hf.inFlight slot).mp hfill) (by simp)
  obtain ⟨e, hdev, he⟩ := hf.loaded slot hready
  refine ⟨(hf.ready slot).mp hready, ?_⟩
  have hlt : e.2 < r.packMeta.expertsPerLayer.toNat := h.epl ▸ hf.inPack.2.2 slot e hdev
  obtain rfl : i = flatId r.packMeta.expertsPerLayer.toNat e := by
    rw [← h.epl]
    exact Option.some.inj (hid.symm.trans he)
  have hdiv : flatId r.packMeta.expertsPerLayer.toNat e / r.packMeta.expertsPerLayer.toNat = e.1 := by
    unfold flatId
    rw [Nat.mul_comm, Nat.mul_add_div (by omega), Nat.div_eq_of_lt hlt, Nat.add_zero]
  have hmod : flatId r.packMeta.expertsPerLayer.toNat e % r.packMeta.expertsPerLayer.toNat = e.2 := by
    unfold flatId
    rw [Nat.mul_comm, Nat.mul_add_mod, Nat.mod_eq_of_lt hlt]
  rw [hdiv, hmod]
  exact hholds slot e hdev

theorem start {bytes numLayers epl : Nat} (hepl : epl = r.packMeta.expertsPerLayer.toNat)
    (hnew : RamTier.new bytes (Fetchers.spanOf r) numLayers epl = some (some t)) :
    ∃ sh, OnePartition sh ∧ sh.slotsPerPartition = t.capacity ∧ Warm unzstd r sh t [] := by
  have hstart : Tier unzstd r t [] [] [] ∧ t.expertsPerLayer = epl ∧ numLayers * epl < 2 ^ 16 :=
    Tier.start hnew
  obtain ⟨htier, heplt, -⟩ := hstart
  unfold RamTier.new at hnew
  split at hnew
  · cases hnew
  · simp only at hnew
    split at hnew
    · cases hnew
    · rename_i hsome
      split at hnew
      · cases hnew
      · obtain ⟨cache, hcache, hnew⟩ := Option.bind_eq_some_iff.mp hnew
        cases hnew
        obtain ⟨hinv, hview⟩ := ExpertCache.partitioned_spec hcache
        refine ⟨_, ⟨rfl, ?_, Nat.mod_lt _ (by decide)⟩, ?_, htier, hinv,
          ExpertCache.Idle.partitioned hcache, ⟨fun i id hid => ?_, fun p _ id hid => ?_⟩,
          heplt.trans hepl⟩
        · exact Nat.pos_of_ne_zero fun hzero => hsome (Or.inl hzero)
        · have hlen := hinv.slots_length
          simp only [Nat.one_mul] at hlen
          exact hlen.symm
        · have hview' : (cache.view i).id = none := by
            rw [hview]
            rfl
          exact absurd (hid.symm.trans hview') (by simp)
        · simp [ExpertCache.askedOf] at hid

/-- `put` succeeds, and what it was given is in the tier. -/
theorem put (h : Warm unzstd r sh t ids) (hone : OnePartition sh)
    (hlt : expert < r.packMeta.expertsPerLayer.toNat)
    (hkey : t.key layer expert = flatId t.expertsPerLayer (layer, expert))
    (hb : HoldsBlob unzstd r (layer, expert) src) (hlen : src.length = Fetchers.spanOf r) :
    ∃ t', t.put layer expert src = some t' ∧ t'.span = t.span ∧
      Warm unzstd r sh t' (ids ++ [flatId r.packMeta.expertsPerLayer.toNat (layer, expert)]) := by
  have hfull : src.take t.span = src := by
    rw [h.tier.span, ← hlen, List.take_length]
  obtain ⟨found, c, hacq, hstalled⟩ := hone.acquire h.cache h.unpinned (t.key layer expert)
  obtain ⟨hinv, hcases⟩ := ExpertCache.acquire_cases h.cache hacq
  have hidle := h.idle.acquire h.cache hacq
  have hfilled := h.filled.acquire h.cache h.idle hacq
  rw [hkey, h.epl] at hfilled
  cases found with
  | stalled => exact absurd rfl hstalled
  | hit slot =>
      obtain ⟨slot', hslot, hid, hview⟩ | ⟨slot', hslot, -⟩ | ⟨hslot, -⟩ := hcases
      · cases hslot
        have hpinned : 0 < (c.view slot).pins := by
          rw [hview, SlotTable.pin_pins, if_pos rfl]
          omega
        obtain ⟨c', hrel⟩ := ExpertCache.exists_release hpinned
        obtain ⟨hinv', -, hview'⟩ := ExpertCache.release_spec hinv hrel
        refine ⟨_, RamTier.put_hit hacq hrel, rfl, h.tier.claim_hit hacq hrel, hinv',
          hidle.release hrel, hfilled.congr fun i => ?_, h.epl⟩
        rw [hview', SlotTable.unpin_id]
      · cases hslot
      · cases hslot
  | miss slot old =>
      obtain ⟨slot', hslot, -⟩ | ⟨slot', hslot, hown, hslots, -, -, hview⟩ | ⟨hslot, -⟩ := hcases
      · cases hslot
      · obtain ⟨rfl, rfl⟩ : slot = slot' ∧ old = (t.cache.view slot').id := by
          injection hslot with h₁ h₂
          exact ⟨h₁, h₁ ▸ h₂⟩
        have hbound : slot < c.slots.length := by
          rw [hinv.slots_length, ← h.cache.slots_length]
          exact hslots
        obtain ⟨c₁, hpub⟩ := ExpertCache.exists_publish hbound
        obtain ⟨hinv₁, -, hview₁⟩ := ExpertCache.publish_spec hinv hpub
        have hpinned : 0 < (c₁.view slot).pins := by
          rw [hview₁, SlotTable.publish_pins, hview, SlotTable.claim_pins, if_pos rfl]
          omega
        obtain ⟨c₂, hrel⟩ := ExpertCache.exists_release hpinned
        obtain ⟨hinv₂, -, hview₂⟩ := ExpertCache.release_spec hinv₁ hrel
        let j : Job := ⟨layer, expert, slot, true⟩
        have hclaimed : Tier unzstd r { t with cache := c } [] [j] [] := by
          rw [hkey] at hacq
          exact h.tier.claim_miss hacq (h.epl ▸ hlt) rfl
        have hcopied : Tier unzstd r
            { t with cache := c, slab := Function.update t.slab slot src } [] [j] [j] :=
          hclaimed.copyIn (j := j) List.mem_cons_self hb hlen
        have hpublished : Tier unzstd r
            { t with cache := c₂, slab := Function.update t.slab slot src } [] [] [] :=
          hcopied.publish (j := j) List.mem_cons_self rfl (by simp) hpub hrel
        refine ⟨_, RamTier.put_miss hacq hpub hrel, rfl, ?_, hinv₂,
          (hidle.publish hpub).release hrel, hfilled.congr fun i => ?_, h.epl⟩
        · rw [hfull]
          exact hpublished
        · rw [hview₂, SlotTable.unpin_id, hview₁, SlotTable.publish_id]
      · cases hslot

end Warm

end Putting

/-! ### The loop -/

section Loop

variable {unzstd : List UInt8 → Nat → Option (List UInt8)} {r : PackReader Value} {sh : Shape}
  {w : Warming Value} {ids : List Nat} {i : Nat} {e : PackError}

/-- A pack whose experts have `u16` keys, freshly opened. -/
structure Keyed (r : PackReader Value) : Prop where
  scratch : r.scratch = none
  experts : 0 < r.packMeta.expertsPerLayer.toNat
  index : r.index.length = r.packMeta.total
  keys : r.packMeta.total < 2 ^ 16

theorem PackReader.CanRead.lt (h : r.CanRead unzstd i) (hk : Keyed r) :
    placeOf r.packMeta.expertsPerLayer.toNat i < r.packMeta.total := by
  obtain ⟨⟨n, buf, r'⟩, hread⟩ := h
  obtain ⟨e, he, -⟩ := PackReader.readBlobInto_cases hread
  obtain ⟨hlt, -⟩ := List.getElem?_eq_some_iff.mp he
  exact hk.index ▸ hlt

/-- The state of the loop after it has read the experts with these ids. -/
structure Warming.Inv (unzstd : List UInt8 → Nat → Option (List UInt8)) (r : PackReader Value)
    (sh : Shape) (w : Warming Value) (ids : List Nat) : Prop where
  reader : r.SameButScratch w.reader
  addr : w.buf.addr % blockAlign = 0
  room : w.buf.bytes.length = Fetchers.spanOf r
  warm : Warm unzstd r sh w.tier ids
  loaded : w.loaded = ids.length

namespace Warming.Inv

theorem outcome (h : Inv unzstd r sh w ids) (hk : Keyed r) :
    (w.reader.readBlobInto unzstd (i / r.packMeta.expertsPerLayer.toNat % 2 ^ 16)
        (i % r.packMeta.expertsPerLayer.toNat) w.buf).map (fun _ => ()) =
      (r.readAt unzstd i).map (fun _ => ()) :=
  PackReader.readBlobInto_outcome hk.scratch h.reader h.addr h.room

theorem expert_lt (hk : Keyed r) (i : Nat) :
    i % r.packMeta.expertsPerLayer.toNat % 2 ^ 16 = i % r.packMeta.expertsPerLayer.toNat := by
  have hlt := Nat.mod_lt i hk.experts
  have hexperts := r.packMeta.expertsPerLayer.toNat_lt
  exact Nat.mod_eq_of_lt (by omega)

/-- A read that fails ends the loop. -/
theorem load_error (h : Inv unzstd r sh w ids) (hk : Keyed r)
    (hread : r.readAt unzstd i = .error e) :
    w.load unzstd r.packMeta.expertsPerLayer.toNat i = .error e := by
  have hout := h.outcome hk (i := i)
  rw [hread] at hout
  unfold load
  rw [if_neg hk.experts.ne', expert_lt hk]
  cases hres : w.reader.readBlobInto unzstd (i / r.packMeta.expertsPerLayer.toNat % 2 ^ 16)
      (i % r.packMeta.expertsPerLayer.toNat) w.buf with
  | ok res =>
      rw [hres] at hout
      cases hout
  | error e' =>
      rw [hres] at hout
      simp only [hres]
      exact congrArg Except.error (Except.error.inj hout)

/-- **Step lemma**: an expert that can be read is loaded. -/
theorem load (hcap : ∀ frame c out, unzstd frame c = some out → out.length ≤ c)
    (h : Inv unzstd r sh w ids) (hk : Keyed r) (hone : OnePartition sh)
    (hread : r.CanRead unzstd i) :
    ∃ w', w.load unzstd r.packMeta.expertsPerLayer.toNat i = .ok w' ∧
      Inv unzstd r sh w' (ids ++ [placeOf r.packMeta.expertsPerLayer.toNat i]) := by
  have hplace := hread.lt hk
  obtain ⟨res, hread⟩ := hread
  have hout := h.outcome hk (i := i)
  rw [hread] at hout
  unfold Warming.load
  rw [if_neg hk.experts.ne', expert_lt hk]
  cases hres : w.reader.readBlobInto unzstd (i / r.packMeta.expertsPerLayer.toNat % 2 ^ 16)
      (i % r.packMeta.expertsPerLayer.toNat) w.buf with
  | error e' =>
      rw [hres] at hout
      cases hout
  | ok res =>
      obtain ⟨n, buf', reader⟩ := res
      have hroom : w.buf.bytes.length = alignUp (Fetchers.spanOf r) :=
        h.room.trans (alignUp_of_aligned (alignUp_mod _)).symm
      obtain ⟨blob, hblob, -, htake, hle, hlen⟩ :=
        PackReader.readBlobInto_spec hcap hk.scratch h.reader hroom hres
      have haddr : buf'.addr % blockAlign = 0 := by
        obtain ⟨e, -, -, ⟨-, hspan, hpread, -⟩ | ⟨-, scratch, b, out, -, -, -, -, -, rfl, -⟩⟩ :=
          PackReader.readBlobInto_cases hres
        · rw [(PackReader.preadFull_frame hpread hspan).1]
          exact h.addr
        · exact h.addr
      have hspan : w.tier.span = buf'.bytes.length := by
        rw [h.warm.tier.span, hlen, h.room]
      have hkey : w.tier.key (i / r.packMeta.expertsPerLayer.toNat % 2 ^ 16)
          (i % r.packMeta.expertsPerLayer.toNat) = flatId w.tier.expertsPerLayer
            (i / r.packMeta.expertsPerLayer.toNat % 2 ^ 16,
              i % r.packMeta.expertsPerLayer.toNat) := by
        refine Nat.mod_eq_of_lt (lt_trans ?_ hk.keys)
        rw [h.warm.epl]
        exact hplace
      have hholds : HoldsBlob unzstd r (i / r.packMeta.expertsPerLayer.toNat % 2 ^ 16,
          i % r.packMeta.expertsPerLayer.toNat) buf'.bytes :=
        ⟨blob, hblob, htake, h.room ▸ hle⟩
      obtain ⟨tier, hput, -, hwarm⟩ := h.warm.put hone (Nat.mod_lt i hk.experts) hkey hholds
        (hlen.trans h.room)
      simp only [hres]
      rw [if_neg (by omega), hspan, List.take_length, hput]
      refine ⟨_, rfl, h.reader.step ⟨_, _, _, _, _, hres⟩, haddr, hlen.trans h.room, hwarm, ?_⟩
      simp [h.loaded]

end Warming.Inv

/-- **Run lemma**: the loop over positions that can be read loads them all. -/
theorem run_reads (hcap : ∀ frame c out, unzstd frame c = some out → out.length ≤ c)
    (hk : Keyed r) (hone : OnePartition sh) {is : List Nat}
    (hreads : ∀ i ∈ is, r.CanRead unzstd i) (h : Warming.Inv unzstd r sh w ids)
    (rest : List Nat) :
    ∃ w', w.run unzstd r.packMeta.expertsPerLayer.toNat (is ++ rest) =
        w'.run unzstd r.packMeta.expertsPerLayer.toNat rest ∧
      Warming.Inv unzstd r sh w' (ids ++ is.map (placeOf r.packMeta.expertsPerLayer.toNat)) := by
  induction is generalizing w ids with
  | nil => exact ⟨w, rfl, by simpa using h⟩
  | cons i is ih =>
      obtain ⟨hi, his⟩ := List.forall_mem_cons.mp hreads
      obtain ⟨w₁, hload, h₁⟩ := h.load hcap hk hone hi
      obtain ⟨w₂, hrun, h₂⟩ := ih his h₁
      refine ⟨w₂, ?_, ?_⟩
      · rw [← hrun, List.cons_append, Warming.run, hload]
      · simpa using h₂

end Loop

/-! ### The positions that are kept -/

section Kept

variable {counts : List Nat} {slots : Nat} {top : Finset Nat}

/-- What `prewarm` ranks: the positive counts, each with its position. -/
def rankedCounts (counts : List Nat) : List (Nat × Nat) :=
  counts.zipIdx.filter fun p => 0 < p.1

theorem mem_rankedCounts {p : Nat × Nat} :
    p ∈ rankedCounts counts ↔ p.2 ∈ counted counts ∧ p.1 = counts.getD p.2 0 := by
  obtain ⟨c, i⟩ := p
  simp only [rankedCounts, counted, List.mem_filter, List.mem_zipIdx_iff_getElem?,
    Finset.mem_filter, Finset.mem_range, List.getD_eq_getElem?_getD, decide_eq_true_eq]
  constructor
  · intro h
    obtain ⟨hget, hpos⟩ := h
    obtain ⟨hlt, -⟩ := List.getElem?_eq_some_iff.mp hget
    rw [hget]
    exact ⟨⟨hlt, hpos⟩, rfl⟩
  · intro h
    obtain ⟨⟨hlt, hpos⟩, rfl⟩ := h
    rw [List.getElem?_eq_getElem hlt] at hpos ⊢
    exact ⟨rfl, hpos⟩

theorem nodup_rankedCounts (counts : List Nat) : (rankedCounts counts).Nodup := by
  have hidx : (counts.zipIdx.map Prod.snd).Nodup := by
    rw [List.zipIdx_map_snd]
    exact List.nodup_range'
  exact (List.Nodup.of_map _ hidx).filter _

/-- A position is ranked once. -/
theorem rankedCounts_inj :
    Set.InjOn Prod.snd ((rankedCounts counts).toFinset : Set (Nat × Nat)) := by
  intro p hp q hq heq
  rw [Finset.mem_coe, List.mem_toFinset, mem_rankedCounts] at hp hq
  exact Prod.ext (by rw [hp.2, hq.2, heq]) heq

theorem image_rankedCounts : (rankedCounts counts).toFinset.image Prod.snd = counted counts := by
  ext i
  simp only [Finset.mem_image, List.mem_toFinset, mem_rankedCounts]
  constructor
  · intro h
    obtain ⟨p, ⟨hp, -⟩, rfl⟩ := h
    exact hp
  · intro h
    exact ⟨(counts.getD i 0, i), ⟨h, rfl⟩, rfl⟩

theorem toFinset_keptPositions (s : UnstableSort (Nat × Nat)) :
    (keptPositions s counts slots).toFinset =
      ((s.sort (descLe Prod.fst) (rankedCounts counts)).take slots).toFinset.image Prod.snd := by
  ext i
  unfold keptPositions
  simp only [List.mem_toFinset, List.mem_mergeSort, List.mem_map, Finset.mem_image]
  rfl

/-- **What is kept are the largest counts**, whatever the sort does with ties. -/
theorem keptPositions_top (s : UnstableSort (Nat × Nat)) (counts : List Nat) (slots : Nat) :
    TopCounts counts slots (keptPositions s counts slots).toFinset := by
  have htop := s.topSet Prod.fst (nodup_rankedCounts counts) slots
  rw [TopCounts, toFinset_keptPositions, ← image_rankedCounts]
  exact htop.image rankedCounts_inj fun p hp =>
    (mem_rankedCounts.mp (List.mem_toFinset.mp hp)).2.symm

/-- And any choice of the largest counts is kept by some sort. -/
theorem TopCounts.kept (h : TopCounts counts slots top) :
    ∃ s, (keptPositions s counts slots).toFinset = top := by
  have hinj : Set.InjOn (fun i => (counts.getD i 0, i)) (counted counts : Set Nat) :=
    fun i _ j _ heq => congrArg Prod.snd heq
  have himage : (counted counts).image (fun i => (counts.getD i 0, i)) =
      (rankedCounts counts).toFinset := by
    ext p
    rw [Finset.mem_image, List.mem_toFinset, mem_rankedCounts]
    constructor
    · intro h
      obtain ⟨i, hi, rfl⟩ := h
      exact ⟨hi, rfl⟩
    · intro h
      exact ⟨p.2, h.1, Prod.ext h.2.symm rfl⟩
  have hpairs : TopSet Prod.fst (rankedCounts counts).toFinset slots
      (top.image fun i => (counts.getD i 0, i)) := by
    rw [← himage]
    exact TopSet.image h hinj fun _ _ => rfl
  refine ⟨UnstableSort.preferring (top.image fun i => (counts.getD i 0, i)), ?_⟩
  rw [toFinset_keptPositions, hpairs.exists_sort (nodup_rankedCounts counts), Finset.image_image]
  exact Finset.image_id

/-- The positions are read in ascending order, each once. -/
theorem keptPositions_sorted (s : UnstableSort (Nat × Nat)) (counts : List Nat) (slots : Nat) :
    (keptPositions s counts slots).Pairwise (· < ·) := by
  have hperm := s.perm (descLe Prod.fst) (rankedCounts counts)
  have hsub := List.take_sublist slots (s.sort (descLe Prod.fst) (rankedCounts counts))
  have hpairs : ((s.sort (descLe Prod.fst) (rankedCounts counts)).take slots).Nodup :=
    (hperm.nodup_iff.mpr (nodup_rankedCounts counts)).sublist hsub
  have hnodup : (keptPositions s counts slots).Nodup := by
    refine (List.mergeSort_perm _ _).nodup_iff.mpr (hpairs.map_on fun p hp q hq heq => ?_)
    have hmem : ∀ p ∈ (s.sort (descLe Prod.fst) (rankedCounts counts)).take slots,
        p ∈ ((rankedCounts counts).toFinset : Set (Nat × Nat)) := fun p hp =>
      Finset.mem_coe.mpr (List.mem_toFinset.mpr (hperm.mem_iff.mp (hsub.subset hp)))
    exact rankedCounts_inj (hmem p hp) (hmem q hq) heq
  have hle : (keptPositions s counts slots).Pairwise (· ≤ ·) := by
    unfold keptPositions
    refine (List.pairwise_mergeSort ?_ ?_ _).imp of_decide_eq_true
    · intro a b c hab hbc
      rw [decide_eq_true_eq] at *
      exact hab.trans hbc
    · intro a b
      simpa using Nat.le_total a b
  exact hle.imp₂ (fun _ _ hab hne => lt_of_le_of_ne hab hne) hnodup

end Kept

/-! ### The whole of `prewarm` -/

section Whole

variable {codec : Codec Value} {unzstd : List UInt8 → Nat → Option (List UInt8)}
  {bytes : List UInt8} {direct : Bool} {r : PackReader Value} {sh : Shape} {t : RamTier}
  {w : Warming Value} {ids : List Nat} {ramBytes : Nat}

/-- As long as there is a slot for each, the tier holds what was put into it. -/
theorem Warm.holds (h : Warm unzstd r sh t ids) (hone : OnePartition sh)
    (hcard : ids.toFinset.card ≤ sh.slotsPerPartition) : Holds unzstd r t ids.toFinset := by
  have hasked : ExpertCache.askedOf sh 0 ids = ids.toFinset := by
    ext i
    simp [ExpertCache.mem_askedOf, hone.foldOf]
  refine ⟨fun i => ⟨fun hres => ?_, fun hi => ?_⟩, fun slot i hid => h.resident hid⟩
  · obtain ⟨slot, hid⟩ := hres
    exact List.mem_toFinset.mpr (h.filled.known slot i hid)
  · rw [← hasked] at hi hcard
    exact h.filled.together 0 hcard i hi

/-- How the loop over ascending positions ends: it has loaded them all, or all before the
first that cannot be read. -/
theorem run_cases (hcap : ∀ frame c out, unzstd frame c = some out → out.length ≤ c)
    (hk : Keyed r) (hone : OnePartition sh) (h : Warming.Inv unzstd r sh w []) (is : List Nat) :
    (∃ t', (∀ i ∈ is, r.CanRead unzstd i) ∧
      w.run unzstd r.packMeta.expertsPerLayer.toNat is = (.ok is.length, t') ∧
      Warm unzstd r sh t' (is.map (placeOf r.packMeta.expertsPerLayer.toNat))) ∨
    ∃ pre i post e t', is = pre ++ i :: post ∧ (∀ j ∈ pre, r.CanRead unzstd j) ∧
      r.readAt unzstd i = .error e ∧
      w.run unzstd r.packMeta.expertsPerLayer.toNat is = (.error e, t') ∧
      Warm unzstd r sh t' (pre.map (placeOf r.packMeta.expertsPerLayer.toNat)) := by
  by_cases hall : ∀ i ∈ is, r.CanRead unzstd i
  · obtain ⟨w', hrun, hinv⟩ := run_reads hcap hk hone hall h []
    rw [List.append_nil] at hrun
    refine Or.inl ⟨w'.tier, hall, ?_, by simpa using hinv.warm⟩
    rw [hrun, Warming.run, hinv.loaded]
    simp
  · -- the first position that cannot be read
    right
    have hsplit : ∃ pre i post, is = pre ++ i :: post ∧ (∀ j ∈ pre, r.CanRead unzstd j) ∧
        ¬ r.CanRead unzstd i := by
      clear h
      induction is with
      | nil => exact absurd (by simp) hall
      | cons i is ih =>
          by_cases hi : r.CanRead unzstd i
          · have htail : ¬ ∀ j ∈ is, r.CanRead unzstd j := fun htail =>
              hall (List.forall_mem_cons.mpr ⟨hi, htail⟩)
            obtain ⟨pre, k, post, hl, hpre, hk'⟩ := ih htail
            exact ⟨i :: pre, k, post, by rw [hl]; rfl, List.forall_mem_cons.mpr ⟨hi, hpre⟩, hk'⟩
          · exact ⟨[], i, is, rfl, by simp, hi⟩
    obtain ⟨pre, i, post, hl, hpre, hi⟩ := hsplit
    have herror : ∃ e, r.readAt unzstd i = .error e := by
      cases hread : r.readAt unzstd i with
      | error e => exact ⟨e, rfl⟩
      | ok res => exact absurd ⟨res, hread⟩ hi
    obtain ⟨e, he⟩ := herror
    obtain ⟨w', hrun, hinv⟩ := run_reads hcap hk hone hpre h (i :: post)
    refine ⟨pre, i, post, e, w'.tier, hl, hpre, he, ?_, by simpa using hinv.warm⟩
    rw [hl, hrun, Warming.run, hinv.load_error hk he]

/-- The state that `prewarm` starts its loop in. -/
theorem Warming.Inv.start (hr : r.scratch = none) (h : Warm unzstd r sh t []) :
    Warming.Inv unzstd r sh
      { reader := r, buf := alignedBuf t.span, tier := t, loaded := 0 } [] := by
  refine ⟨PackReader.SameButScratch.start hr, rfl, ?_, h, rfl⟩
  rw [h.tier.span]
  simp only [alignedBuf, List.length_replicate]
  exact alignUp_of_aligned (alignUp_mod _)

theorem Keyed.of_open (hopen : PackReader.openInner codec bytes direct = .ok r)
    (hexperts : 0 < r.packMeta.expertsPerLayer.toNat)
    (hnew : RamTier.new ramBytes (Fetchers.spanOf r) r.packMeta.numLayers.toNat
      r.packMeta.expertsPerLayer.toNat = some (some t)) : Keyed r := by
  obtain ⟨-, -, -, -, -, hindex⟩ := openInner_ok hopen
  obtain ⟨-, -, -, -, -, -, hkeys⟩ := RamTier.new_spec hnew
  refine ⟨Fetchers.openInner_scratch hopen, hexperts, ?_, hkeys⟩
  rw [hindex, List.length_map, List.length_range]

/-- **`prewarm` for one sort** keeps its promise exactly if the counts that the sort leaves
first are loadable. -/
theorem prewarms_kept_iff (hopen : PackReader.openInner codec bytes direct = .ok r)
    (hcap : ∀ frame c out, unzstd frame c = some out → out.length ≤ c)
    (hexperts : 0 < r.packMeta.expertsPerLayer.toNat)
    (hnew : RamTier.new ramBytes (Fetchers.spanOf r) r.packMeta.numLayers.toNat
      r.packMeta.expertsPerLayer.toNat = some (some t)) (s : UnstableSort (Nat × Nat))
    (counts : List Nat) :
    Prewarms unzstd r counts t.capacity
        (prewarm codec unzstd bytes direct r.packMeta.expertsPerLayer.toNat s (some t) counts) ↔
      r.Loadable unzstd counts t.capacity (keptPositions s counts t.capacity).toFinset := by
  have hk := Keyed.of_open hopen hexperts hnew
  have hstart : ∃ sh, OnePartition sh ∧ sh.slotsPerPartition = t.capacity ∧
      Warm unzstd r sh t [] := Warm.start rfl hnew
  obtain ⟨sh, hone, hslots, hwarm⟩ := hstart
  have htop := keptPositions_top s counts t.capacity
  have hsorted := keptPositions_sorted s counts t.capacity
  have hcases := run_cases hcap hk hone (Warming.Inv.start hk.scratch hwarm)
    (keptPositions s counts t.capacity)
  simp only [prewarm, hopen]
  generalize keptPositions s counts t.capacity = is at htop hsorted hcases ⊢
  have hnodup : is.Nodup := hsorted.imp fun hab => hab.ne
  have hlen : is.toFinset.card = is.length := List.toFinset_card_of_nodup hnodup
  obtain ⟨t', hall, hrun, hwarm'⟩ | ⟨pre, i, post, e, t', rfl, hpre, he, hrun, -⟩ := hcases
  · rw [hrun]
    have himage : (is.map (placeOf r.packMeta.expertsPerLayer.toNat)).toFinset =
        is.toFinset.image (placeOf r.packMeta.expertsPerLayer.toNat) := by
      ext i
      simp
    have hfits : (is.toFinset.image (placeOf r.packMeta.expertsPerLayer.toNat)).card ≤
        sh.slotsPerPartition := by
      refine Finset.card_image_le.trans ?_
      rw [htop.card, hslots]
      exact Nat.min_le_left _ _
    have hholds := hwarm'.holds hone (himage ▸ hfits)
    rw [himage] at hholds
    constructor
    · intro h
      obtain ⟨t₁, ht₁, top, hcounts, -, -, hheld⟩ := h
      cases ht₁
      have heq : top = is.toFinset.image (placeOf r.packMeta.expertsPerLayer.toNat) := by
        ext i
        rw [← hheld.resident, hholds.resident]
      exact Or.inl ⟨fun i hi => hall i (List.mem_toFinset.mp hi), heq ▸ hcounts⟩
    · intro h
      obtain ⟨-, hcounts⟩ | ⟨i, hi, ⟨e, -, he⟩, -⟩ := h
      · refine ⟨t', rfl, _, hcounts, ?_, fun i hi => ?_, hholds⟩
        · rw [hcounts.card, ← hlen, htop.card]
        · obtain ⟨j, hj, rfl⟩ := Finset.mem_image.mp hi
          exact (hall j (List.mem_toFinset.mp hj)).lt hk
      · obtain ⟨res, hread⟩ := hall i (List.mem_toFinset.mp hi)
        rw [hread] at he
        cases he
  · rw [hrun]
    have hi : i ∈ (pre ++ i :: post).toFinset := by simp
    have hbefore : ∀ j ∈ (pre ++ i :: post).toFinset, j < i → r.CanRead unzstd j := by
      intro j hj hlt
      rw [List.mem_toFinset, List.mem_append, List.mem_cons] at hj
      rw [List.pairwise_append, List.pairwise_cons] at hsorted
      rcases hj with hj | rfl | hj
      · exact hpre j hj
      · exact absurd hlt (Nat.lt_irrefl j)
      · exact absurd (hsorted.2.1.1 j hj) (by omega)
    constructor
    · intro h
      exact Or.inr ⟨i, hi, ⟨e, h, he⟩, hbefore⟩
    · intro h
      show e ≠ .panic
      obtain ⟨hall, -⟩ | ⟨k, hk', ⟨e', hne, he'⟩, hfirst⟩ := h
      · obtain ⟨res, hread⟩ := hall i hi
        rw [he] at hread
        cases hread
      · -- both are the first that cannot be read
        have hunreadable : ∀ {j e}, r.readAt unzstd j = .error e → ¬ r.CanRead unzstd j := by
          intro j e hj h
          obtain ⟨res, hread⟩ := h
          rw [hj] at hread
          cases hread
        obtain hlt | rfl | hlt := Nat.lt_trichotomy k i
        · exact absurd (hbefore k hk' hlt) (hunreadable he')
        · rw [he] at he'
          cases he'
          exact hne
        · exact absurd (hfirst i hi hlt) (hunreadable he)

/-- **`prewarm` keeps its promise** for every order of equal counts if and only if every
choice of the largest counts is loadable. -/
theorem prewarms_iff (hopen : PackReader.openInner codec bytes direct = .ok r)
    (hcap : ∀ frame c out, unzstd frame c = some out → out.length ≤ c)
    (hexperts : 0 < r.packMeta.expertsPerLayer.toNat)
    (hnew : RamTier.new ramBytes (Fetchers.spanOf r) r.packMeta.numLayers.toNat
      r.packMeta.expertsPerLayer.toNat = some (some t)) (counts : List Nat) :
    (∀ s, Prewarms unzstd r counts t.capacity
        (prewarm codec unzstd bytes direct r.packMeta.expertsPerLayer.toNat s (some t) counts)) ↔
      ∀ top, TopCounts counts t.capacity top → r.Loadable unzstd counts t.capacity top := by
  constructor
  · intro h top htop
    obtain ⟨s, hs⟩ := htop.kept
    rw [← hs]
    exact (prewarms_kept_iff hopen hcap hexperts hnew s counts).mp (h s)
  · intro h s
    refine (prewarms_kept_iff hopen hcap hexperts hnew s counts).mpr (h _ ?_)
    exact keptPositions_top s counts t.capacity

end Whole

/-! ### Profiles of a pack of one expert -/

open Fetchers

theorem counted_singleton {i : Nat} {counts : List Nat}
    (h : ∀ j, j < counts.length → (0 < counts.getD j 0 ↔ j = i)) (hi : i < counts.length)
    {slots : Nat} (hslots : 0 < slots) {top : Finset Nat} :
    TopCounts counts slots top ↔ top = {i} := by
  have hcounted : counted counts = {i} := by
    ext j
    simp only [counted, Finset.mem_filter, Finset.mem_range, Finset.mem_singleton]
    constructor
    · intro hj
      exact (h j hj.1).mp hj.2
    · intro hj
      exact hj ▸ ⟨hi, (h i hi).mpr rfl⟩
  constructor
  · intro htop
    have hcard := htop.card
    rw [hcounted, Finset.card_singleton, Nat.min_eq_right hslots] at hcard
    exact Finset.eq_of_subset_of_card_le (hcounted ▸ htop.subset) (by simp [hcard])
  · intro htop
    subst htop
    refine ⟨hcounted.symm.subset, ?_, ?_⟩
    · rw [hcounted, Finset.card_singleton, Nat.min_eq_right hslots]
    · intro a _ b hb hout
      rw [hcounted] at hb
      exact absurd hb hout

theorem zeroReader_span : spanOf zeroReader = 8192 := by decide

theorem zeroReader_canRead : zeroReader.CanRead unzstdZeroes 0 := by
  obtain ⟨scratch, hread⟩ := zeroReader_reads (alignedBuf 8192) List.length_replicate
  unfold PackReader.CanRead PackReader.readAt
  rw [zeroReader_span]
  exact ⟨_, hread⟩

theorem zeroReader_experts : zeroReader.packMeta.expertsPerLayer.toNat = 1 := by decide

theorem zeroReader_file :
    PackReader.openInner zeroCodec zeroReader.file.bytes false = .ok zeroReader :=
  zeroReader_opens.2

/-- The profile of the pack itself is taken, by a tier of one slot. -/
theorem prewarms_iff_zeroes : zeroTier.capacity = 1 ∧
    ∀ s, Prewarms unzstdZeroes zeroReader [5] zeroTier.capacity
      (prewarm zeroCodec unzstdZeroes zeroReader.file.bytes false 1 s (some zeroTier) [5]) := by
  refine ⟨rfl, ?_⟩
  have hiff := prewarms_iff zeroReader_file unzstdZeroes_fits (by decide) zeroTier_new [5]
  rw [zeroReader_experts] at hiff
  rw [hiff]
  intro top htop
  have hsingle : ∀ {top}, TopCounts [5] zeroTier.capacity top ↔ top = {0} :=
    counted_singleton (by simp) (by simp) (by decide)
  rw [hsingle] at htop
  subst htop
  refine Or.inl ⟨fun i hi => ?_, hsingle.mpr rfl⟩
  rw [Finset.mem_singleton.mp hi]
  exact zeroReader_canRead

/-- **A strange profile**: one count too many, and the warm start goes out of the index. -/
theorem longer_profile_panics :
    PackReader.openInner zeroCodec zeroReader.file.bytes false = .ok zeroReader ∧
    RamTier.new 8192 (spanOf zeroReader) 1 1 = some (some zeroTier) ∧
    ∀ s, ¬ Prewarms unzstdZeroes zeroReader [0, 5] zeroTier.capacity
      (prewarm zeroCodec unzstdZeroes zeroReader.file.bytes false 1 s (some zeroTier) [0, 5]) := by
  refine ⟨zeroReader_file, zeroTier_new, fun s => ?_⟩
  have hiff := prewarms_kept_iff zeroReader_file unzstdZeroes_fits (by decide) zeroTier_new s [0, 5]
  rw [zeroReader_experts] at hiff
  rw [hiff]
  intro hs
  have htop := keptPositions_top s [0, 5] zeroTier.capacity
  have hcounts : ∀ j, j < [0, 5].length → (0 < [0, 5].getD j 0 ↔ j = 1) := by decide
  have hsingle := (counted_singleton hcounts (by decide) (by decide)).mp htop
  have hpanic : zeroReader.readAt unzstdZeroes 1 = .error .panic := rfl
  rw [hsingle] at hs
  obtain ⟨hreads, -⟩ | ⟨i, hi, ⟨e, hne, he⟩, -⟩ := hs
  · obtain ⟨res, hread⟩ := hreads 1 (Finset.mem_singleton_self 1)
    rw [hpanic] at hread
    cases hread
  · rw [Finset.mem_singleton.mp hi, hpanic] at he
    cases he
    exact hne rfl

end LlmPager
