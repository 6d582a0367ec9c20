import LlmPager.Core.PackRoundTrip
import LlmPager.Cuda.Slabs

/-!
# LlmPager.Cuda.RamTierInv

When a fetch served from RAM agrees with one served from the disk.

The tier is a small pager: a thread that copies out of a slab holds a handle on
its slot, a thread that copies into one has a prefetch on its way. So the
invariant is the pager's own `Fetching`, with the expert whose `put` wrote a
slab last in the place of the device, and `Tier` adds that a slab written for an
expert holds that expert's blob (`HoldsBlob`).

A hit therefore finds the right bytes. What it may get wrong is how many of them
it copies: the index entry's length, which in a compressed pack is that of the
frame (`reachable_ram_hit`, `short_frame_leaves_stale_bytes`).
-/

namespace LlmPager

open Lib

variable {Value : Type} {unzstd : List UInt8 → Nat → Option (List UInt8)}

/-! ### The disk path -/

namespace PackReader

variable {r r' r'' : PackReader Value} {layer expert n cap : Nat} {buf buf' : Buf}

/-- What reading an expert's blob yields, with room for `cap` bytes. -/
def blobOf (unzstd : List UInt8 → Nat → Option (List UInt8)) (r : PackReader Value) (cap : Nat)
    (layer expert : Nat) : Option (List UInt8) :=
  match r.readBlobInto unzstd layer expert (alignedBuf cap) with
  | .ok (n, buf, _) => some (buf.bytes.take n)
  | .error _ => none

/-- A read that works with some buffer works with an aligned one. -/
theorem preadFull_exists {f : PackFile} {offset : Nat} {b : Buf}
    (h : preadFull f buf n offset = .ok buf') (hb : b.addr % blockAlign = 0) :
    ∃ b', preadFull f b n offset = .ok b' := by
  unfold preadFull at h ⊢
  split at h
  · rename_i hn
    exact ⟨b, if_pos hn⟩
  · rename_i hn
    split at h
    · cases h
    · rename_i haligned
      split at h
      · cases h
      · rename_i heof
        rw [if_neg hn, if_neg (fun hd => haligned ⟨hd.1, fun ha => hd.2 ⟨hb, ha.2⟩⟩), if_neg heof]
        exact ⟨_, rfl⟩

/-- **What a successful read does**, at any time and into any buffer of the
size: it is the blob that a first read would have found, from the start of the
buffer on. -/
theorem readBlobInto_spec
    (hcap : ∀ frame c out, unzstd frame c = some out → out.length ≤ c)
    (hr : r.scratch = none) (hsame : SameButScratch r r') (hlen : buf.bytes.length = alignUp cap)
    (hread : r'.readBlobInto unzstd layer expert buf = .ok (n, buf', r'')) :
    ∃ blob, r.blobOf unzstd cap layer expert = some blob ∧ n = blob.length ∧
      buf'.bytes.take blob.length = blob ∧ blob.length ≤ buf.bytes.length ∧
      buf'.bytes.length = buf.bytes.length := by
  obtain ⟨e, he, hfits64, hcases⟩ := readBlobInto_cases hread
  have hentry : r.entry layer expert = some e := by
    rw [← he, entry, entry, hsame.index, hsame.packMeta]
  have hnbytes := le_alignUp e.nbytes
  have hroom : (alignedBuf cap).bytes.length = buf.bytes.length := by
    rw [hlen]
    simp [alignedBuf]
  rw [hsame.file] at hcases
  rcases hcases with ⟨hraw, hspan, hpread, rfl, rfl⟩ |
    ⟨hzstd, scratch, b, out, hscratch, -, hpread, hout, rfl, rfl, -⟩
  · obtain ⟨b, hb⟩ := preadFull_exists hpread (b := alignedBuf cap) rfl
    have htake : b.bytes.take e.nbytes = buf'.bytes.take e.nbytes := by
      rw [preadFull_take hb hnbytes, preadFull_take hpread hnbytes]
    have hframe := preadFull_frame hpread hspan
    have hblob : (buf'.bytes.take e.nbytes).length = e.nbytes := by
      rw [List.length_take]
      omega
    refine ⟨buf'.bytes.take e.nbytes, ?_, hblob.symm, by rw [hblob], by omega, hframe.2⟩
    rw [hsame.packMeta] at hraw
    simp only [blobOf, readBlobInto, hentry, hraw, if_true]
    rw [if_neg (by omega), if_neg (by omega), if_neg (fun h => h.2 rfl), hb]
    exact congrArg some htake
  · -- the first read makes a scratch buffer, since this one has one
    obtain ⟨scratch₀, hscratch₀⟩ := exists_scratchBuf (hsame.room hscratch).2.2
    obtain ⟨haddr₀, hlen₀, -⟩ := (SameButScratch.start hr).room hscratch₀
    obtain ⟨b₀, hb₀⟩ := preadFull_exists hpread haddr₀
    have hframe : b₀.bytes.take e.nbytes = b.bytes.take e.nbytes := by
      rw [preadFull_take hb₀ hnbytes, preadFull_take hpread hnbytes]
    have hfits := hcap _ _ _ hout
    refine ⟨out, ?_, rfl, by simp, hfits, by simp; omega⟩
    rw [hsame.packMeta] at hzstd
    have hspan₀ := (alignUp_mono (nbytes_le_maxStored hentry)).trans hlen₀
    simp only [blobOf, readBlobInto, hentry, hzstd, if_false, hscratch₀]
    rw [if_neg (by omega), if_neg (by omega), hb₀]
    simp only [bind, Except.bind, hframe, hroom, hout]
    simp

end PackReader

/-! ### The tier -/

/-- Bytes that begin with the blob of an expert. -/
def HoldsBlob (unzstd : List UInt8 → Nat → Option (List UInt8)) (r : PackReader Value)
    (e : Nat × Nat) (bytes : List UInt8) : Prop :=
  ∃ blob, r.blobOf unzstd (Fetchers.spanOf r) e.1 e.2 = some blob ∧
    bytes.take blob.length = blob ∧ blob.length ≤ Fetchers.spanOf r

section

variable {r : PackReader Value} {t : RamTier} {hs hs' : List ExpertHandle} {js js' ws ws' : List Job}
  {h : ExpertHandle} {j : Job} {c c' : ExpertCache} {slot : Nat}

/-- A copy of one span keeps the blob. -/
theorem HoldsBlob.copy {e : Nat × Nat} {bytes : List UInt8} (hb : HoldsBlob unzstd r e bytes)
    (rest : List UInt8) : HoldsBlob unzstd r e (bytes.take (Fetchers.spanOf r) ++ rest) := by
  obtain ⟨blob, hblob, htake, hspan⟩ := hb
  refine ⟨blob, hblob, ?_, hspan⟩
  have hlen : blob.length ≤ bytes.length := by
    have := congrArg List.length htake
    rw [List.length_take] at this
    omega
  rw [List.take_append_of_le_length (by rw [List.length_take]; omega), List.take_take,
    Nat.min_eq_left hspan, htake]

/-- The tier's invariant, with the handles of the threads that copy out of a
slab, and the jobs of those that copy into one — `ws` those that have. -/
structure Tier (unzstd : List UInt8 → Nat → Option (List UInt8)) (r : PackReader Value)
    (t : RamTier) (hs : List ExpertHandle) (js ws : List Job) : Prop where
  cache : ∃ sh, ExpertCache.Inv sh t.cache
  fetching : ∃ fill dev, Fetching t.expertsPerLayer t.cache.view fill dev hs js ws ∧
    (∀ h ∈ hs, fill h.slot = .ready) ∧ ∀ i e, dev i = some e → HoldsBlob unzstd r e (t.slab i)
  span : t.span = Fetchers.spanOf r
  slabs : ∀ i, (t.slab i).length = Fetchers.spanOf r

namespace Tier

theorem slabsOf (ht : Tier unzstd r t hs js ws) : Slabs t.expertsPerLayer t.cache hs js ws
    fun i e => HoldsBlob unzstd r e (t.slab i) :=
  ⟨ht.cache, ht.fetching⟩

/-- What a critical section does to the slots, it does to the tier. -/
theorem ofSlabs (ht : Tier unzstd r t hs js ws) (hits : Nat)
    (h : Slabs t.expertsPerLayer c hs' js' ws' fun i e => HoldsBlob unzstd r e (t.slab i)) :
    Tier unzstd r { t with cache := c, hits := hits } hs' js' ws' :=
  ⟨h.cache, h.fetching, ht.span, ht.slabs⟩

theorem perm (ht : Tier unzstd r t hs js ws) (hh : hs.Perm hs') (hj : js.Perm js')
    (hw : ∀ j ∈ ws', j ∈ ws) : Tier unzstd r t hs' js' ws' :=
  ht.ofSlabs t.hits (ht.slabsOf.perm hh hj hw)

theorem start {bytes numLayers epl : Nat}
    (hnew : RamTier.new bytes (Fetchers.spanOf r) numLayers epl = some (some t)) :
    Tier unzstd r t [] [] [] ∧ t.expertsPerLayer = epl ∧ numLayers * epl < 2 ^ 16 := by
  obtain ⟨sh, hinv, hview, hslab, hspan, hepl, hfits⟩ := RamTier.new_spec hnew
  have hstart : Slabs t.expertsPerLayer t.cache [] [] []
      fun i e => HoldsBlob unzstd r e (t.slab i) := Slabs.start hinv hview
  refine ⟨⟨hstart.cache, hstart.fetching, hspan, fun i => ?_⟩, hepl, hfits⟩
  rw [hslab]
  exact List.length_replicate

/-- `get` hits: the thread holds the slot. -/
theorem look (ht : Tier unzstd r t hs js ws)
    (hlook : t.cache.lookupReady (flatId t.expertsPerLayer h.expertOf) = some (some h.slot, c))
    (hlt : h.expert < t.expertsPerLayer) :
    Tier unzstd r { t with cache := c } (h :: hs) js ws :=
  ht.ofSlabs t.hits (ht.slabsOf.look hlook hlt)

/-- `get` misses: nothing changes. -/
theorem look_none {id : Nat} (ht : Tier unzstd r t hs js ws)
    (hlook : t.cache.lookupReady id = some (none, c)) :
    Tier unzstd r { t with cache := c } hs js ws :=
  ht.ofSlabs t.hits (ht.slabsOf.look_none hlook)

/-- A held slab holds the expert it was looked up for. -/
theorem holds (ht : Tier unzstd r t hs js ws) (hm : h ∈ hs) :
    HoldsBlob unzstd r h.expertOf (t.slab h.slot) :=
  ht.slabsOf.holds hm

theorem release (ht : Tier unzstd r t (h :: hs) js ws) (hrel : t.cache.release h.slot = some c)
    (hits : Nat) : Tier unzstd r { t with cache := c, hits := hits } hs js ws :=
  ht.ofSlabs hits (ht.slabsOf.release hrel)

/-- `put` finds the expert in the tier and drops its pin. -/
theorem claim_hit {id : Nat} (ht : Tier unzstd r t hs js ws)
    (hacq : t.cache.acquire id = some (.hit slot, c)) (hrel : c.release slot = some c') :
    Tier unzstd r { t with cache := c' } hs js ws :=
  ht.ofSlabs t.hits (ht.slabsOf.claim_hit hacq hrel)

/-- `put` claims a slot: the thread is to fill it. -/
theorem claim_miss {old : Option Nat} (ht : Tier unzstd r t hs js ws)
    (hacq : t.cache.acquire (flatId t.expertsPerLayer j.expertOf) = some (.miss j.slot old, c))
    (hlt : j.expert < t.expertsPerLayer) (hrel : j.releaseAfterFill = true) :
    Tier unzstd r { t with cache := c } hs (j :: js) ws :=
  ht.ofSlabs t.hits (ht.slabsOf.claim_miss hacq hlt hrel)

/-- The tier is full of pinned slots: nothing changes. -/
theorem claim_stalled {id : Nat} (ht : Tier unzstd r t hs js ws)
    (hacq : t.cache.acquire id = some (.stalled, c)) :
    Tier unzstd r { t with cache := c } hs js ws :=
  ht.ofSlabs t.hits (ht.slabsOf.claim_stalled hacq)

/-- The thread copies its blob into the slab. -/
theorem copyIn {bytes : List UInt8} (ht : Tier unzstd r t hs js ws) (hm : j ∈ js)
    (hb : HoldsBlob unzstd r j.expertOf bytes) (hlen : bytes.length = Fetchers.spanOf r) :
    Tier unzstd r { t with slab := Function.update t.slab j.slot bytes } hs js (j :: ws) := by
  have hslabs : Slabs t.expertsPerLayer t.cache hs js (j :: ws)
      fun i e => HoldsBlob unzstd r e (Function.update t.slab j.slot bytes i) := by
    refine ht.slabsOf.copyIn hm ?_ fun i e hi he => ?_
    · rw [Function.update_self]
      exact hb
    · rw [Function.update_of_ne hi]
      exact he
  refine ⟨hslabs.cache, hslabs.fetching, ht.span, fun i => ?_⟩
  show (Function.update t.slab j.slot bytes i).length = _
  by_cases hi : i = j.slot
  · rw [hi, Function.update_self]
    exact hlen
  · rw [Function.update_of_ne hi]
    exact ht.slabs i

/-- The slab is published and let go. -/
theorem publish (ht : Tier unzstd r t hs (j :: js) ws) (hw : j ∈ ws)
    (hrel : j.releaseAfterFill = true) (hws : ∀ j' ∈ ws', j' ∈ ws ∧ j' ∈ js)
    (hpub : t.cache.publish j.slot = some c) (hrelease : c.release j.slot = some c') :
    Tier unzstd r { t with cache := c' } hs js ws' :=
  ht.ofSlabs t.hits (ht.slabsOf.publish hw hrel hws hpub hrelease)

end Tier

end

/-! ### The threads -/

namespace FetchPhase

/-- The slot a thread is copying out of. -/
def handles : FetchPhase → List ExpertHandle
  | copyingOut job slot | copiedOut job slot => [⟨job.layer, job.expert, slot⟩]
  | _ => []

/-- The slot a thread is to fill. -/
def jobs : FetchPhase → List Job
  | writing job slot _ | written job slot _ => [⟨job.layer, job.expert, slot, true⟩]
  | _ => []

/-- The slot a thread has filled. -/
def filled : FetchPhase → List Job
  | written job slot _ => [⟨job.layer, job.expert, slot, true⟩]
  | _ => []

end FetchPhase

namespace Fetchers

variable {r : PackReader Value} {s s' : Fetchers Value} {w w' : FetchWorker Value}
  {t t' : RamTier} {job : FetchJob} {k len ramBytes : Nat}

/-- The job names an expert of the pack. -/
def Named (r : PackReader Value) (job : FetchJob) : Prop :=
  job.layer < r.packMeta.numLayers.toNat ∧ job.expert < r.packMeta.expertsPerLayer.toNat

/-- The disk path's length for a job. -/
def RawLen (unzstd : List UInt8 → Nat → Option (List UInt8)) (r : PackReader Value)
    (job : FetchJob) (len : Nat) : Prop :=
  ∀ blob, r.blobOf unzstd (spanOf r) job.layer job.expert = some blob → len = blob.length

/-- What a thread knows at each point of its fetch. -/
def Knows (unzstd : List UInt8 → Nat → Option (List UInt8)) (r : PackReader Value)
    (bytes : List UInt8) : FetchPhase → Prop
  | .idle | .dead => True
  | .looking job | .missed job | .copyingOut job _ => Named r job
  | .copiedOut job _ => Named r job ∧ HoldsBlob unzstd r (job.layer, job.expert) bytes
  | .read job len | .writing job _ len | .written job _ len | .fetched job false len =>
      Named r job ∧ HoldsBlob unzstd r (job.layer, job.expert) bytes ∧ RawLen unzstd r job len
  | .fetched job true len => Named r job ∧ HoldsBlob unzstd r (job.layer, job.expert) bytes ∧
      ∃ e, r.entry job.layer job.expert = some e ∧ len = e.nbytes

/-- A thread in order. -/
structure WorkerOk (unzstd : List UInt8 → Nat → Option (List UInt8)) (r : PackReader Value)
    (w : FetchWorker Value) : Prop where
  reader : r.SameButScratch w.reader
  pin : w.pin.bytes.length = spanOf r
  knows : Knows unzstd r w.pin.bytes w.phase

/-- The invariant of the tier and its threads. -/
structure Inv (unzstd : List UInt8 → Nat → Option (List UInt8)) (r : PackReader Value)
    (s : Fetchers Value) : Prop where
  tier : Tier unzstd r s.tier (s.workers.flatMap (·.phase.handles))
    (s.workers.flatMap (·.phase.jobs)) (s.workers.flatMap (·.phase.filled))
  epl : s.tier.expertsPerLayer = r.packMeta.expertsPerLayer.toNat
  keys : r.packMeta.total < 2 ^ 16
  workers : ∀ w ∈ s.workers, WorkerOk unzstd r w

/-- The `u16` key of an expert of the pack is its flat id. -/
theorem Inv.key (h : Inv unzstd r s) (hn : Named r job) :
    s.tier.key job.layer job.expert =
      flatId s.tier.expertsPerLayer (job.layer, job.expert) := by
  refine Nat.mod_eq_of_lt (lt_trans ?_ h.keys)
  rw [h.epl]
  exact flatId_lt hn.1 hn.2

theorem knows_afterPut {bytes : List UInt8} (hn : Named r job)
    (hb : HoldsBlob unzstd r (job.layer, job.expert) bytes) (hlen : RawLen unzstd r job len) :
    Knows unzstd r bytes (FetchWorker.afterPut job len) := by
  unfold FetchWorker.afterPut
  split
  · trivial
  · exact ⟨hn, hb, hlen⟩

theorem afterPut_nothing (job : FetchJob) (len : Nat) :
    (FetchWorker.afterPut job len).handles = [] ∧ (FetchWorker.afterPut job len).jobs = [] ∧
      (FetchWorker.afterPut job len).filled = [] := by
  unfold FetchWorker.afterPut
  split <;> exact ⟨rfl, rfl, rfl⟩

/-- A slot that is filled is one that was to be. -/
theorem filled_subset {workers : List (FetchWorker Value)} {j : Job}
    (hm : j ∈ workers.flatMap (·.phase.filled)) : j ∈ workers.flatMap (·.phase.jobs) := by
  obtain ⟨w, hw, hj⟩ := List.mem_flatMap.mp hm
  refine List.mem_flatMap.mpr ⟨w, hw, ?_⟩
  cases hphase : w.phase with
  | written job slot len =>
      rw [hphase] at hj
      exact hj
  | _ =>
      rw [hphase] at hj
      cases hj

/-- The invariant after thread `k` has moved: the tier's part is up to who holds
what, the other threads are as before. -/
theorem Inv.move (h : Inv unzstd r s) (hw' : WorkerOk unzstd r w')
    (ht : Tier unzstd r t' ((s.workers.set k w').flatMap (·.phase.handles))
      ((s.workers.set k w').flatMap (·.phase.jobs)) ((s.workers.set k w').flatMap (·.phase.filled)))
    (hepl : t'.expertsPerLayer = s.tier.expertsPerLayer) :
    Inv unzstd r ⟨t', s.workers.set k w'⟩ := by
  refine ⟨ht, hepl.trans h.epl, h.keys, fun v hv => ?_⟩
  rcases List.mem_or_eq_of_mem_set hv with hold | rfl
  · exact h.workers v hold
  · exact hw'

/-- A thread that holds nothing before and after moves the tier's part with it. -/
theorem tier_set (hk : s.workers[k]? = some w)
    (ht : Tier unzstd r t' (s.workers.flatMap (·.phase.handles))
      (s.workers.flatMap (·.phase.jobs)) (s.workers.flatMap (·.phase.filled)))
    (hh : w'.phase.handles = w.phase.handles) (hj : w'.phase.jobs = w.phase.jobs)
    (hf : w'.phase.filled = w.phase.filled) :
    Tier unzstd r t' ((s.workers.set k w').flatMap (·.phase.handles))
      ((s.workers.set k w').flatMap (·.phase.jobs))
      ((s.workers.set k w').flatMap (·.phase.filled)) := by
  refine ht.perm (flatMap_perm_set hk hh) (flatMap_perm_set hk hj) fun j hm => ?_
  exact (flatMap_perm_set hk hf).mem_iff.mpr hm

theorem take_inv (h : Inv unzstd r s) (hstep : step unzstd r s (.take k job) = some s') :
    Inv unzstd r s' := by
  obtain ⟨w, hk, hstep⟩ := Option.bind_eq_some_iff.mp hstep
  simp only at hstep
  split at hstep
  · rename_i hidle
    cases hstep
    have hw := h.workers w (List.mem_of_getElem? hk)
    have hnothing : ∀ p : FetchPhase, p = .missed job ∨ p = .looking job →
        Inv unzstd r ⟨s.tier, s.workers.set k { w with phase := p }⟩ := by
      rintro p (rfl | rfl) <;>
      · refine h.move ⟨hw.reader, hw.pin, hidle.2⟩ (tier_set hk h.tier ?_ ?_ ?_) rfl <;>
          rw [hidle.1] <;> rfl
    refine hnothing _ ?_
    split
    · exact .inl rfl
    · exact .inr rfl
  · cases hstep

/-- `get`, from the lookup to the released slab. -/
theorem next_get (h : Inv unzstd r s) (hk : s.workers[k]? = some w)
    (hnext : w.next unzstd s.tier = some (t', w'))
    (hphase : w.phase = .looking job ∨ ∃ slot, w.phase = .copyingOut job slot ∨
      w.phase = .copiedOut job slot) : Inv unzstd r ⟨t', s.workers.set k w'⟩ := by
  have hw := h.workers w (List.mem_of_getElem? hk)
  have hknows := hw.knows
  unfold FetchWorker.next at hnext
  rcases hphase with hphase | ⟨slot, hphase | hphase⟩ <;> rw [hphase] at hnext hknows
  · obtain ⟨⟨res, c⟩, hlook, hnext⟩ := Option.bind_eq_some_iff.mp hnext
    rw [h.key hknows] at hlook
    cases res with
    | some slot =>
        cases hnext
        have ht := h.tier.look (h := ⟨job.layer, job.expert, slot⟩) hlook (h.epl ▸ hknows.2)
        refine h.move ⟨hw.reader, hw.pin, hknows⟩ (ht.perm ?_ ?_ ?_) rfl
        · exact flatMap_perm_gain [_] hk (by rw [hphase]; exact .refl _)
        · exact flatMap_perm_set hk (by rw [hphase]; rfl)
        · intro j hm
          exact (flatMap_perm_set hk (by rw [hphase]; rfl)).mem_iff.mpr hm
    | none =>
        cases hnext
        refine h.move ⟨hw.reader, hw.pin, hknows⟩
          (tier_set hk (h.tier.look_none hlook) ?_ ?_ ?_) rfl <;> rw [hphase] <;> rfl
  · cases hnext
    have hm : (⟨job.layer, job.expert, slot⟩ : ExpertHandle) ∈
        s.workers.flatMap (·.phase.handles) := by
      refine List.mem_flatMap.mpr ⟨w, List.mem_of_getElem? hk, ?_⟩
      rw [hphase]
      exact List.mem_cons_self
    have hspan := h.tier.span
    refine h.move ⟨hw.reader, ?_, hknows, ?_⟩ (tier_set hk h.tier ?_ ?_ ?_) rfl
    · have hpin := hw.pin
      have hslab := h.tier.slabs slot
      simp only [hspan, List.length_append, List.length_take, List.length_drop]
      omega
    · rw [hspan]
      exact (h.tier.holds hm).copy _
    all_goals rw [hphase]; rfl
  · obtain ⟨c, hrel, hnext⟩ := Option.bind_eq_some_iff.mp hnext
    obtain ⟨e, he, hnext⟩ := Option.bind_eq_some_iff.mp hnext
    cases hnext
    have hentry : r.entry job.layer job.expert = some e := by
      rw [← he, PackReader.entry, PackReader.entry, hw.reader.index, hw.reader.packMeta]
    have hheld : (s.workers.flatMap (·.phase.handles)).Perm (⟨job.layer, job.expert, slot⟩ ::
        (s.workers.set k { w with phase := .fetched job true e.nbytes }).flatMap
          (·.phase.handles)) :=
      flatMap_perm_lose [_] hk (by rw [hphase]; exact .refl _)
    have ht := (h.tier.perm hheld (.refl _) fun _ hm => hm).release hrel (s.tier.hits + 1)
    refine h.move ⟨hw.reader, hw.pin, hknows.1, hknows.2, e, hentry, rfl⟩ (ht.perm (.refl _) ?_ ?_) rfl
    · exact flatMap_perm_set hk (by rw [hphase]; rfl)
    · intro j hm
      exact (flatMap_perm_set hk (by rw [hphase]; rfl)).mem_iff.mpr hm

/-- The read from the disk. -/
theorem next_read (hcap : ∀ frame c out, unzstd frame c = some out → out.length ≤ c)
    (hr : r.scratch = none) (h : Inv unzstd r s) (hk : s.workers[k]? = some w)
    (hnext : w.next unzstd s.tier = some (t', w')) (hphase : w.phase = .missed job) :
    Inv unzstd r ⟨t', s.workers.set k w'⟩ := by
  have hw := h.workers w (List.mem_of_getElem? hk)
  have hknows := hw.knows
  unfold FetchWorker.next at hnext
  rw [hphase] at hnext hknows
  simp only at hnext
  split at hnext
  · cases hnext
    refine h.move ⟨hw.reader, hw.pin, trivial⟩ (tier_set hk h.tier ?_ ?_ ?_) rfl <;>
      rw [hphase] <;> rfl
  · rename_i n pin reader hread
    cases hnext
    have hroom : w.pin.bytes.length = alignUp (spanOf r) :=
      hw.pin.trans (alignUp_of_aligned (alignUp_mod _)).symm
    obtain ⟨blob, hblob, rfl, htake, hle, hlen⟩ :=
      PackReader.readBlobInto_spec hcap hr hw.reader hroom hread
    refine h.move ⟨hw.reader.step ⟨_, _, _, _, _, hread⟩, hlen.trans hw.pin, hknows, ?_, ?_⟩
      (tier_set hk h.tier ?_ ?_ ?_) rfl
    · exact ⟨blob, hblob, htake, hw.pin ▸ hle⟩
    · intro blob' hblob'
      rw [Option.some.inj (hblob.symm.trans hblob')]
    all_goals rw [hphase]; rfl

/-- `put`, from the claim to the published slab. -/
theorem next_put (h : Inv unzstd r s) (hk : s.workers[k]? = some w)
    (hnext : w.next unzstd s.tier = some (t', w'))
    (hphase : w.phase = .read job len ∨ ∃ slot, w.phase = .writing job slot len ∨
      w.phase = .written job slot len) : Inv unzstd r ⟨t', s.workers.set k w'⟩ := by
  have hw := h.workers w (List.mem_of_getElem? hk)
  have hknows := hw.knows
  have hspan := h.tier.span
  obtain ⟨hnohandle, hnojob, hnofilled⟩ := afterPut_nothing job len
  unfold FetchWorker.next at hnext
  rcases hphase with hphase | ⟨slot, hphase | hphase⟩ <;> rw [hphase] at hnext hknows <;>
    obtain ⟨hn, hb, hlen⟩ := hknows
  · obtain ⟨⟨res, c⟩, hacq, hnext⟩ := Option.bind_eq_some_iff.mp hnext
    rw [h.key hn] at hacq
    have hdone := knows_afterPut hn hb hlen
    cases res with
    | miss slot old =>
        cases hnext
        have ht := h.tier.claim_miss (j := ⟨job.layer, job.expert, slot, true⟩) hacq
          (h.epl ▸ hn.2) rfl
        refine h.move ⟨hw.reader, hw.pin, hn, hb, hlen⟩ (ht.perm ?_ ?_ ?_) rfl
        · exact flatMap_perm_set hk (by rw [hphase]; rfl)
        · exact flatMap_perm_gain [_] hk (by rw [hphase]; exact .refl _)
        · intro j hm
          exact (flatMap_perm_set hk (by rw [hphase]; rfl)).mem_iff.mpr hm
    | hit slot =>
        obtain ⟨c', hrel, hnext⟩ := Option.bind_eq_some_iff.mp hnext
        cases hnext
        refine h.move ⟨hw.reader, hw.pin, hdone⟩
          (tier_set hk (h.tier.claim_hit hacq hrel) ?_ ?_ ?_) rfl <;> rw [hphase] <;> assumption
    | stalled =>
        cases hnext
        refine h.move ⟨hw.reader, hw.pin, hdone⟩
          (tier_set hk (h.tier.claim_stalled hacq) ?_ ?_ ?_) rfl <;> rw [hphase] <;> assumption
  · cases hnext
    have hm : (⟨job.layer, job.expert, slot, true⟩ : Job) ∈ s.workers.flatMap (·.phase.jobs) := by
      refine List.mem_flatMap.mpr ⟨w, List.mem_of_getElem? hk, ?_⟩
      rw [hphase]
      exact List.mem_cons_self
    have hcopy : HoldsBlob unzstd r (job.layer, job.expert) (w.pin.bytes.take s.tier.span) := by
      rw [hspan, ← List.append_nil (List.take _ _)]
      exact hb.copy []
    have hfull : (w.pin.bytes.take s.tier.span).length = spanOf r := by
      rw [List.length_take, hw.pin, hspan, Nat.min_self]
    refine h.move ⟨hw.reader, hw.pin, hn, hb, hlen⟩
      ((h.tier.copyIn hm hcopy hfull).perm ?_ ?_ ?_) rfl
    · exact flatMap_perm_set hk (by rw [hphase]; rfl)
    · exact flatMap_perm_set hk (by rw [hphase]; rfl)
    · intro j hm
      exact (flatMap_perm_gain [_] hk (by rw [hphase]; exact .refl _)).mem_iff.mpr hm
  · obtain ⟨c, hpub, hnext⟩ := Option.bind_eq_some_iff.mp hnext
    obtain ⟨c', hrel, hnext⟩ := Option.bind_eq_some_iff.mp hnext
    cases hnext
    let j : Job := ⟨job.layer, job.expert, slot, true⟩
    have hlost : (s.workers.flatMap (·.phase.jobs)).Perm
        (j :: (s.workers.set k { w with phase := FetchWorker.afterPut job len }).flatMap
          (·.phase.jobs)) := by
      refine flatMap_perm_lose [j] hk ?_
      rw [hphase, hnojob]
      exact .refl _
    have hfilled : j ∈ s.workers.flatMap (·.phase.filled) := by
      refine List.mem_flatMap.mpr ⟨w, List.mem_of_getElem? hk, ?_⟩
      rw [hphase]
      exact List.mem_cons_self
    have ht := (h.tier.perm (.refl _) hlost fun _ hm => hm).publish hfilled rfl
      (fun j' hm => ⟨?_, filled_subset hm⟩) hpub hrel
    · refine h.move ⟨hw.reader, hw.pin, knows_afterPut hn hb hlen⟩
        (ht.perm (flatMap_perm_set hk ?_) (.refl _) fun _ hm => hm) rfl
      rw [hphase]
      exact hnohandle
    · -- the other threads have filled what they had
      rcases mem_flatMap_set hm with hm | hm
      · rw [hnofilled] at hm
        cases hm
      · exact hm

/-- The copy to the device. -/
theorem next_deliver {hit : Bool} (h : Inv unzstd r s) (hk : s.workers[k]? = some w)
    (hnext : w.next unzstd s.tier = some (t', w')) (hphase : w.phase = .fetched job hit len) :
    Inv unzstd r ⟨t', s.workers.set k w'⟩ := by
  have hw := h.workers w (List.mem_of_getElem? hk)
  unfold FetchWorker.next at hnext
  rw [hphase] at hnext
  simp only at hnext
  split at hnext <;> cases hnext <;>
  · refine h.move ⟨hw.reader, hw.pin, trivial⟩ (tier_set hk h.tier ?_ ?_ ?_) rfl <;>
      rw [hphase] <;> rfl

theorem step_inv (hcap : ∀ frame c out, unzstd frame c = some out → out.length ≤ c)
    (hr : r.scratch = none) (h : Inv unzstd r s) {a : FetchAction}
    (hstep : step unzstd r s a = some s') : Inv unzstd r s' := by
  cases a with
  | take k job => exact take_inv h hstep
  | next k =>
      obtain ⟨w, hk, hstep⟩ := Option.bind_eq_some_iff.mp hstep
      obtain ⟨⟨t', w'⟩, hnext, hstep⟩ := Option.bind_eq_some_iff.mp hstep
      cases hstep
      cases hphase : w.phase with
      | idle | dead =>
          unfold FetchWorker.next at hnext
          rw [hphase] at hnext
          cases hnext
      | looking job => exact next_get h hk hnext (.inl hphase)
      | copyingOut job slot => exact next_get h hk hnext (.inr ⟨slot, .inl hphase⟩)
      | copiedOut job slot => exact next_get h hk hnext (.inr ⟨slot, .inr hphase⟩)
      | missed job => exact next_read hcap hr h hk hnext hphase
      | read job len => exact next_put h hk hnext (.inl hphase)
      | writing job slot len => exact next_put h hk hnext (.inr ⟨slot, .inl hphase⟩)
      | written job slot len => exact next_put h hk hnext (.inr ⟨slot, .inr hphase⟩)
      | fetched job hit len => exact next_deliver h hk hnext hphase

theorem reachable_inv (hcap : ∀ frame c out, unzstd frame c = some out → out.length ≤ c)
    (hr : r.scratch = none)
    (h : (system unzstd r ramBytes).Reachable Lib.System.anyStep s) : Inv unzstd r s := by
  refine h.invariant ?_ fun s a s' (hs : Inv unzstd r s) _
    (hstep : step unzstd r s a = some s') => step_inv hcap hr hs hstep
  intro s ⟨hnew, hidle⟩
  obtain ⟨htier, hepl, hkeys⟩ := Tier.start hnew
  have hnone : ∀ {β : Type} (f : FetchPhase → List β), f .idle = [] →
      s.workers.flatMap (fun w => f w.phase) = [] := by
    intro β f hf
    refine List.flatMap_eq_nil_iff.mpr fun w hw => ?_
    rw [(hidle w hw).2.1, hf]
  refine ⟨?_, hepl, hkeys, fun w hw => ?_⟩
  · rw [hnone _ rfl, hnone _ rfl, hnone _ rfl]
    exact htier
  · obtain ⟨hreader, hphase, hpin⟩ := hidle w hw
    refine ⟨?_, hpin, ?_⟩
    · rw [hreader]
      exact .start hr
    · rw [hphase]
      trivial

/-! ### Agreement of the two paths -/

/-- The copy to the device begins with the blob and is its aligned length. -/
def CopiesBlob (w : FetchWorker Value) (len : Nat) (blob : List UInt8) : Prop :=
  ∃ bytes, w.copied len = some bytes ∧ bytes.take blob.length = blob ∧
    bytes.length = alignUp blob.length

/-- With the blob at the start of the buffer, only the length matters. -/
theorem copiesBlob_iff {blob : List UInt8} (htake : w.pin.bytes.take blob.length = blob)
    (hspan : blob.length ≤ spanOf r) (hpin : w.pin.bytes.length = spanOf r) :
    CopiesBlob w len blob ↔ alignUp len = alignUp blob.length := by
  have hroom : alignUp blob.length ≤ w.pin.bytes.length := by
    rw [hpin]
    exact (alignUp_mono hspan).trans_eq (alignUp_of_aligned (alignUp_mod _))
  unfold CopiesBlob FetchWorker.copied
  constructor
  · rintro ⟨bytes, hbytes, -, hlen⟩
    split at hbytes
    · rename_i hle
      cases hbytes
      rw [List.length_take] at hlen
      omega
    · cases hbytes
  · intro hlen
    rw [hlen, if_pos hroom]
    refine ⟨_, rfl, ?_, ?_⟩
    · rw [List.take_take, Nat.min_eq_left (le_alignUp _), htake]
    · rw [List.length_take, Nat.min_eq_left hroom]

theorem openInner_scratch {codec : Codec Value} {bytes : List UInt8} {direct : Bool}
    (hopen : PackReader.openInner codec bytes direct = .ok r) : r.scratch = none := by
  unfold PackReader.openInner at hopen
  simp only [bind, Except.bind, pure, Except.pure, throw, throwThe, MonadExceptOf.throw] at hopen
  repeat' split at hopen
  all_goals cases hopen
  rfl

/-- The disk path always copies the blob. -/
theorem reachable_disk_copies (hcap : ∀ frame c out, unzstd frame c = some out → out.length ≤ c)
    (hr : r.scratch = none) (h : (system unzstd r ramBytes).Reachable Lib.System.anyStep s)
    (hw : w ∈ s.workers) (hphase : w.phase = .fetched job false len) :
    ∃ blob, r.blobOf unzstd (spanOf r) job.layer job.expert = some blob ∧
      CopiesBlob w len blob := by
  have hok := (reachable_inv hcap hr h).workers w hw
  have hknows := hok.knows
  rw [hphase] at hknows
  obtain ⟨-, ⟨blob, hblob, htake, hspan⟩, hlen⟩ := hknows
  exact ⟨blob, hblob, (copiesBlob_iff htake hspan hok.pin).mpr (by rw [hlen blob hblob])⟩

/-- **A fetch served from RAM** copies what the disk path would have copied
exactly when the index entry's length and the blob's round up to the same span.
-/
theorem reachable_ram_hit {codec : Codec Value} {bytes : List UInt8} {direct : Bool}
    (hopen : PackReader.openInner codec bytes direct = .ok r)
    (hcap : ∀ frame c out, unzstd frame c = some out → out.length ≤ c)
    (h : (system unzstd r ramBytes).Reachable Lib.System.anyStep s)
    (hw : w ∈ s.workers) (hphase : w.phase = .fetched job true len) :
    ∃ blob e, r.blobOf unzstd (spanOf r) job.layer job.expert = some blob ∧
      r.entry job.layer job.expert = some e ∧
      (CopiesBlob w len blob ↔ alignUp e.nbytes = alignUp blob.length) := by
  have hok := (reachable_inv hcap (openInner_scratch hopen) h).workers w hw
  have hknows := hok.knows
  rw [hphase] at hknows
  obtain ⟨-, ⟨blob, hblob, htake, hspan⟩, e, he, rfl⟩ := hknows
  exact ⟨blob, e, hblob, he, copiesBlob_iff htake hspan hok.pin⟩

/-- In a raw pack the entry's length is the blob's. -/
theorem blobOf_raw {layer expert : Nat} {blob : List UInt8} {e : IndexEntry}
    (hraw : r.packMeta.compression = none) (he : r.entry layer expert = some e)
    (hblob : r.blobOf unzstd (spanOf r) layer expert = some blob) : e.nbytes = blob.length := by
  unfold PackReader.blobOf at hblob
  split at hblob
  · rename_i n buf _ hread
    cases hblob
    obtain ⟨e', he', -, ⟨-, hspan, hpread, rfl, -⟩ | ⟨hzstd, -⟩⟩ :=
      PackReader.readBlobInto_cases hread
    · obtain rfl : e = e' := Option.some.inj (he.symm.trans he')
      have hlen := (PackReader.preadFull_frame hpread hspan).2
      have hnbytes := le_alignUp e.nbytes
      rw [List.length_take]
      omega
    · exact absurd hraw hzstd
  · cases hblob

/-- So in a raw pack the two paths agree. -/
theorem reachable_ram_hit_raw {codec : Codec Value} {bytes : List UInt8} {direct : Bool}
    (hopen : PackReader.openInner codec bytes direct = .ok r)
    (hraw : r.packMeta.compression = none)
    (hcap : ∀ frame c out, unzstd frame c = some out → out.length ≤ c)
    (h : (system unzstd r ramBytes).Reachable Lib.System.anyStep s)
    (hw : w ∈ s.workers) (hphase : w.phase = .fetched job true len) :
    ∃ blob, r.blobOf unzstd (spanOf r) job.layer job.expert = some blob ∧
      CopiesBlob w len blob := by
  obtain ⟨blob, e, hblob, he, hiff⟩ := reachable_ram_hit hopen hcap h hw hphase
  exact ⟨blob, hblob, hiff.mpr (by rw [blobOf_raw hraw he hblob])⟩

/-! ### A blob that compresses well -/

/-- 8192 zeroes, as one frame: a header and a block that repeats one byte. -/
def zeroFrame : List UInt8 :=
  [0x28, 0xB5, 0x2F, 0xFD, 0x60, 0x00, 0x1F, 0x03, 0x00, 0x01, 0x00]

def zeroMeta : PackMeta Unit :=
  { model := "x", numLayers := 1, expertsPerLayer := 1, dtype := "raw", config := (),
    compression := some "zstd", maxRawBlob := 8192 }

def zeroJson : List UInt8 :=
  let fields := "\"model\":\"x\",\"num_layers\":1,\"experts_per_layer\":1,\"dtype\":\"raw\","
  let more := "\"compression\":\"zstd\",\"max_raw_blob\":8192"
  ("\x7b" ++ fields ++ more ++ "\x7d").toList.map fun c => UInt8.ofNat c.toNat

/-- A codec that knows these metadata. -/
def zeroCodec : Codec Unit where
  toVec _ := zeroJson
  fromSlice bytes := if bytes = zeroJson then some zeroMeta else none

def zeroes : List UInt8 := List.replicate 8192 0

theorem length_zeroes : zeroes.length = 8192 := List.length_replicate

/-- A decompressor that knows the frame. -/
def unzstdZeroes (frame : List UInt8) (cap : Nat) : Option (List UInt8) :=
  if frame = zeroFrame ∧ 8192 ≤ cap then some zeroes else none

theorem unzstdZeroes_fits (frame : List UInt8) (cap : Nat) (out : List UInt8)
    (h : unzstdZeroes frame cap = some out) : out.length ≤ cap := by
  unfold unzstdZeroes at h
  split at h
  · rename_i hcap
    cases h
    rw [length_zeroes]
    exact hcap.2
  · cases h

/-- The reader of the pack that holds the frame. -/
def zeroReader : PackReader Unit :=
  ⟨⟨packImage zeroCodec zeroMeta [zeroFrame], false⟩, zeroMeta,
    layout zeroMeta.indexEnd [zeroFrame], none⟩

theorem zeroReader_opens :
    writePack zeroCodec zeroMeta [zeroFrame] = .ok (packImage zeroCodec zeroMeta [zeroFrame]) ∧
      PackReader.openInner zeroCodec (packImage zeroCodec zeroMeta [zeroFrame]) false =
        .ok zeroReader :=
  ⟨writePack_eq (by decide +kernel) rfl (by decide),
    openInner_image (by decide +kernel) (by decide +kernel) rfl (by decide) false⟩

/-- Reading the expert with room for a span. -/
theorem zeroReader_reads (buf : Buf) (hbuf : buf.bytes.length = 8192) :
    ∃ scratch, zeroReader.readBlobInto unzstdZeroes 0 0 buf =
      .ok (8192, ⟨buf.addr, zeroes⟩, { zeroReader with scratch := some scratch }) := by
  obtain ⟨e, he, hp⟩ := placed zeroMeta.indexEnd [zeroFrame] 0 rfl
  have hloc : PackReader.Located (packImage zeroCodec _ _) _ e :=
    .of_placed (by decide +kernel) rfl hp
  have hentry : zeroReader.entry 0 0 = some e := he
  obtain ⟨scratch, hread⟩ :=
    PackReader.readBlobInto_zstd unzstdZeroes buf (.start rfl) hentry hloc (by decide) (by decide)
  refine ⟨scratch, hread.trans ?_⟩
  rw [unzstdZeroes, if_pos ⟨rfl, hbuf.ge⟩]
  have hdrop : buf.bytes.drop 8192 = [] := List.drop_eq_nil_of_le hbuf.le
  simp only [length_zeroes, hdrop, List.append_nil]

/-- The tier of one slab. -/
def zeroTier : RamTier :=
  { cache := (ExpertCache.new 1 1 256).get rfl, slab := fun _ => List.replicate 8192 0,
    span := 8192, expertsPerLayer := 1, hits := 0 }

theorem zeroTier_new : RamTier.new 8192 (spanOf zeroReader) 1 1 = some (some zeroTier) := by
  have hspan : spanOf zeroReader = 8192 := by decide
  rw [hspan, RamTier.new, if_neg (by decide)]
  rfl

/-- The expert is warmed up, then fetched. -/
theorem zero_hit : ∃ s w, (system unzstdZeroes zeroReader 8192).Reachable Lib.System.anyStep s ∧
    w ∈ s.workers ∧ w.phase = .fetched ⟨0, 0, false⟩ true 11 := by
  let w : FetchWorker Unit := ⟨⟨0, zeroes⟩, zeroReader, .idle⟩
  have hinit : (system unzstdZeroes zeroReader 8192).init ⟨zeroTier, [w]⟩ := by
    refine ⟨zeroTier_new, fun v hv => ?_⟩
    rw [List.mem_singleton.mp hv]
    exact ⟨rfl, rfl, length_zeroes⟩
  obtain ⟨scratch, hread⟩ := zeroReader_reads ⟨0, zeroes⟩ length_zeroes
  let w' : FetchWorker Unit :=
    ⟨⟨0, zeroes⟩, { zeroReader with scratch := some scratch }, .read ⟨0, 0, true⟩ 8192⟩
  have htake : step unzstdZeroes zeroReader ⟨zeroTier, [w]⟩ (.take 0 ⟨0, 0, true⟩) =
      some ⟨zeroTier, [{ w with phase := .missed ⟨0, 0, true⟩ }]⟩ := rfl
  have hwarm : step unzstdZeroes zeroReader
      ⟨zeroTier, [{ w with phase := .missed ⟨0, 0, true⟩ }]⟩ (.next 0) =
        some ⟨zeroTier, [w']⟩ := by
    simp only [step, FetchWorker.next, List.getElem?_cons_zero, Option.bind_eq_bind,
      Option.bind_some, w, hread]
    rfl
  -- the rest of the run does not look at the bytes
  have hfetch : ([.next 0, .next 0, .next 0, .take 0 ⟨0, 0, false⟩, .next 0, .next 0,
      .next 0].foldlM (step unzstdZeroes zeroReader) ⟨zeroTier, [w']⟩).map
        (fun s => s.workers.map (·.phase)) = some [.fetched ⟨0, 0, false⟩ true 11] := rfl
  obtain ⟨s, hs, hphases⟩ := Option.map_eq_some_iff.mp hfetch
  obtain ⟨v, hv, hphase⟩ := List.map_eq_singleton_iff.mp hphases
  have hrun : [.take 0 ⟨0, 0, true⟩, .next 0, .next 0, .next 0, .next 0,
      .take 0 ⟨0, 0, false⟩, .next 0, .next 0, .next 0].foldlM (step unzstdZeroes zeroReader)
      ⟨zeroTier, [w]⟩ = some s := by
    simpa only [List.foldlM_cons, htake, hwarm, Option.bind_eq_bind, Option.bind_some] using hs
  exact ⟨s, v, ⟨_, _, hinit, Lib.System.run_of_foldlM (fun _ _ _ => trivial) hrun⟩,
    hv ▸ List.mem_cons_self, hphase⟩

theorem zeroReader_blob :
    zeroReader.blobOf unzstdZeroes (spanOf zeroReader) 0 0 = some zeroes := by
  have hspan : spanOf zeroReader = 8192 := by decide
  obtain ⟨scratch, hread⟩ := zeroReader_reads (alignedBuf 8192) List.length_replicate
  rw [hspan, PackReader.blobOf, hread]
  show some (zeroes.take 8192) = some zeroes
  rw [List.take_of_length_le length_zeroes.le]

/-- A hit on the pack, and what decides whether it agrees with the disk. -/
theorem reachable_ram_hit_zeroes : ∃ s w blob e,
    (system unzstdZeroes zeroReader 8192).Reachable Lib.System.anyStep s ∧ w ∈ s.workers ∧
    zeroReader.blobOf unzstdZeroes (spanOf zeroReader) 0 0 = some blob ∧
    zeroReader.entry 0 0 = some e ∧
    (CopiesBlob w 11 blob ↔ alignUp e.nbytes = alignUp blob.length) := by
  obtain ⟨s, w, hs, hw, hphase⟩ := zero_hit
  obtain ⟨blob, e, hblob, he, hiff⟩ :=
    reachable_ram_hit zeroReader_opens.2 unzstdZeroes_fits hs hw hphase
  exact ⟨s, w, blob, e, hs, hw, hblob, he, hiff⟩

/-- **A short frame leaves stale bytes.** 8192 zeroes compress to 11 bytes; the
disk path copies two pages, a fetch of the same expert from RAM copies one. -/
theorem short_frame_leaves_stale_bytes :
    unzstdZeroes zeroFrame 8192 = some zeroes ∧
    writePack zeroCodec zeroMeta [zeroFrame] = .ok zeroReader.file.bytes ∧
    PackReader.openInner zeroCodec zeroReader.file.bytes false = .ok zeroReader ∧
    zeroReader.blobOf unzstdZeroes (spanOf zeroReader) 0 0 = some zeroes ∧
    ∃ s w, (system unzstdZeroes zeroReader 8192).Reachable Lib.System.anyStep s ∧
      w ∈ s.workers ∧ w.phase = .fetched ⟨0, 0, false⟩ true 11 ∧ ¬ CopiesBlob w 11 zeroes := by
  refine ⟨if_pos ⟨rfl, Nat.le_refl _⟩, zeroReader_opens.1, zeroReader_opens.2, zeroReader_blob, ?_⟩
  obtain ⟨s, w, hs, hw, hphase⟩ := zero_hit
  refine ⟨s, w, hs, hw, hphase, ?_⟩
  rintro ⟨bytes, hbytes, -, hlen⟩
  unfold FetchWorker.copied at hbytes
  split at hbytes
  · cases hbytes
    rw [length_zeroes, List.length_take] at hlen
    have : min (alignUp 11) w.pin.bytes.length ≤ alignUp 11 := Nat.min_le_left _ _
    rw [hlen] at this
    exact absurd this (by decide)
  · cases hbytes

end Fetchers

end LlmPager
