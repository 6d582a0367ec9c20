import LlmPager.Cuda.Prewarm

/-!
# LlmPager.Cuda.WarmTier

What a warm start is good for: threads that fetch from a tier that `prewarm` left.

A profile no longer than the pack is always taken (`prewarms_of_length_le`). Whatever
`prewarm` answered, the threads that go on copy the right blobs (`reachable_warm_fetch`),
and as long as they fetch only what was loaded they never read the pack
(`reachable_from_ram`).
-/

namespace LlmPager

open Lib Fetchers

variable {Value : Type}

/-! ### A profile of the pack's own size -/

section OwnProfile

variable {codec : Codec Value} {unzstd : List UInt8 → Nat → Option (List UInt8)}
  {bytes : List UInt8} {direct : Bool} {r : PackReader Value} {t : RamTier}
  {counts : List Nat} {ramBytes : Nat}

/-- Reading an expert of the pack is an error at worst, if all its blobs have a length that
a buffer can have. -/
theorem PackReader.readBlobInto_ne_panic {layer expert : Nat} {e : IndexEntry} {buf : Buf}
    (hentry : r.entry layer expert = some e) (hfits : ∀ e ∈ r.index, alignUp e.nbytes < 2 ^ 63)
    (hr : r.scratch = none) : r.readBlobInto unzstd layer expert buf ≠ .error .panic := by
  intro hpanic
  have hover := hfits e (List.mem_of_getElem? hentry)
  unfold PackReader.readBlobInto at hpanic
  simp only [hentry] at hpanic
  rw [if_neg (by omega)] at hpanic
  split at hpanic
  · split at hpanic
    · cases hpanic
    · split at hpanic
      · cases hpanic
      · cases hread : preadFull r.file buf (alignUp e.nbytes) e.offset with
        | ok buf =>
            rw [hread] at hpanic
            cases hpanic
        | error e =>
            rw [hread] at hpanic
            cases hpanic
            exact PackReader.preadFull_error hread rfl
  · have hroom : alignUp r.maxStoredBytes < 2 ^ 63 :=
      PackReader.alignUp_max?_lt (Nat.two_pow_pos 63) (List.forall_mem_map.mpr hfits)
    obtain ⟨scratch, hscratch⟩ := PackReader.exists_scratchBuf hroom
    have hlen := ((PackReader.SameButScratch.start hr).room hscratch).2.1
    have hstored := alignUp_mono (PackReader.nbytes_le_maxStored hentry)
    simp only [hscratch] at hpanic
    rw [if_neg (Nat.not_lt.mpr (hstored.trans hlen))] at hpanic
    cases hread : preadFull r.file scratch (alignUp e.nbytes) e.offset with
    | error e =>
        rw [hread] at hpanic
        cases hpanic
        exact PackReader.preadFull_error hread rfl
    | ok buf =>
        rw [hread] at hpanic
        simp only [bind, Except.bind] at hpanic
        split at hpanic
        · cases hpanic
        · cases hpanic

theorem PackReader.readAt_ne_panic (hk : Keyed r) {i : Nat}
    (hi : placeOf r.packMeta.expertsPerLayer.toNat i < r.packMeta.total)
    (hfits : ∀ e ∈ r.index, alignUp e.nbytes < 2 ^ 63) :
    r.readAt unzstd i ≠ .error .panic := by
  rw [← hk.index] at hi
  have hentry : r.entry (i / r.packMeta.expertsPerLayer.toNat % 2 ^ 16)
      (i % r.packMeta.expertsPerLayer.toNat) = some r.index[placeOf _ i] :=
    List.getElem?_eq_getElem hi
  exact PackReader.readBlobInto_ne_panic hentry hfits hk.scratch

/-- A position of the pack is read where it stands. -/
theorem placeOf_eq {i : Nat} (hi : i < r.packMeta.total) : placeOf r.packMeta.expertsPerLayer.toNat i = i := by
  have hlayers := r.packMeta.numLayers.toNat_lt
  have hlayer : i / r.packMeta.expertsPerLayer.toNat < r.packMeta.numLayers.toNat :=
    Nat.div_lt_of_lt_mul (by rw [Nat.mul_comm]; exact hi)
  unfold placeOf flatId
  rw [Nat.mod_eq_of_lt (by omega)]
  exact Nat.div_add_mod' i _

/-- The largest counts of a profile no longer than the pack are read where they stand. -/
theorem TopCounts.inside {slots : Nat} {top : Finset Nat} (htop : TopCounts counts slots top)
    (hlen : counts.length ≤ r.packMeta.total) :
    (∀ i ∈ top, i < r.packMeta.total) ∧
      top.image (placeOf r.packMeta.expertsPerLayer.toNat) = top := by
  have hinside : ∀ i ∈ top, i < r.packMeta.total := by
    intro i hi
    have hcounted := htop.subset hi
    simp only [counted, Finset.mem_filter, Finset.mem_range] at hcounted
    omega
  refine ⟨hinside, ?_⟩
  rw [Finset.image_congr fun i hi => placeOf_eq (hinside i hi)]
  exact Finset.image_id

/-- **A profile no longer than the pack** is always taken: the largest counts are loaded, or
the file's own error is returned. -/
theorem prewarms_of_length_le (hopen : PackReader.openInner codec bytes direct = .ok r)
    (hcap : ∀ frame c out, unzstd frame c = some out → out.length ≤ c)
    (hexperts : 0 < r.packMeta.expertsPerLayer.toNat)
    (hnew : RamTier.new ramBytes (spanOf r) r.packMeta.numLayers.toNat
      r.packMeta.expertsPerLayer.toNat = some (some t))
    (hfits : ∀ e ∈ r.index, alignUp e.nbytes < 2 ^ 63)
    (hlen : counts.length ≤ r.packMeta.total) (s : UnstableSort (Nat × Nat)) :
    Prewarms unzstd r counts t.capacity
      (prewarm codec unzstd bytes direct r.packMeta.expertsPerLayer.toNat s (some t) counts) := by
  have hk := Keyed.of_open hopen hexperts hnew
  rw [prewarms_kept_iff hopen hcap hexperts hnew]
  have htop := keptPositions_top s counts t.capacity
  generalize (keptPositions s counts t.capacity).toFinset = top at htop
  obtain ⟨hinside, himage⟩ := htop.inside hlen
  by_cases hall : ∀ i ∈ top, r.CanRead unzstd i
  · refine Or.inl ⟨hall, ?_⟩
    rw [himage]
    exact htop
  · -- the first that cannot be read
    classical
    have hex : ∃ i, i ∈ top ∧ ¬ r.CanRead unzstd i := by simpa using hall
    obtain ⟨hi, hunreadable⟩ := Nat.find_spec hex
    refine Or.inr ⟨Nat.find hex, hi, ?_, fun j hj hlt => ?_⟩
    · cases hread : r.readAt unzstd (Nat.find hex) with
      | ok res => exact absurd ⟨res, hread⟩ hunreadable
      | error e =>
          refine ⟨e, fun he => ?_, rfl⟩
          have hplace := (placeOf_eq (hinside _ hi)).trans_lt (hinside _ hi)
          exact PackReader.readAt_ne_panic hk hplace hfits (he ▸ hread)
    · by_contra hj'
      exact Nat.find_min hex hlt ⟨hj, hj'⟩

/-- If `prewarm` returns a number, it has read every position it keeps. -/
theorem prewarms_of_ok {sort : UnstableSort (Nat × Nat)} {t' : RamTier} {n : Nat}
    (hopen : PackReader.openInner codec bytes direct = .ok r)
    (hcap : ∀ frame c out, unzstd frame c = some out → out.length ≤ c)
    (hexperts : 0 < r.packMeta.expertsPerLayer.toNat)
    (hnew : RamTier.new ramBytes (spanOf r) r.packMeta.numLayers.toNat
      r.packMeta.expertsPerLayer.toNat = some (some t))
    (hlen : counts.length ≤ r.packMeta.total)
    (hprewarm : prewarm codec unzstd bytes direct r.packMeta.expertsPerLayer.toNat sort (some t)
      counts = (.ok n, some t')) :
    Prewarms unzstd r counts t.capacity (.ok n, some t') := by
  have hk := Keyed.of_open hopen hexperts hnew
  obtain ⟨sh, hone, -, hwarm⟩ : ∃ sh, OnePartition sh ∧ sh.slotsPerPartition = t.capacity ∧
      Warm unzstd r sh t [] := Warm.start rfl hnew
  have hall : ∀ i ∈ keptPositions sort counts t.capacity, r.CanRead unzstd i := by
    have hrun := hprewarm
    simp only [prewarm, hopen] at hrun
    obtain ⟨t₁, hall, -⟩ | ⟨pre, i, post, e, t₁, -, -, -, hfailed, -⟩ :=
      run_cases hcap hk hone (Warming.Inv.start hk.scratch hwarm)
        (keptPositions sort counts t.capacity)
    · exact hall
    · rw [hfailed] at hrun
      cases hrun
  have htop := keptPositions_top sort counts t.capacity
  rw [← hprewarm, prewarms_kept_iff hopen hcap hexperts hnew]
  refine Or.inl ⟨fun i hi => hall i (List.mem_toFinset.mp hi), ?_⟩
  rw [(htop.inside hlen).2]
  exact htop

end OwnProfile

/-! ### Fetching from a warm tier -/

namespace Fetchers

section Warm

variable {codec : Codec Value} {unzstd : List UInt8 → Nat → Option (List UInt8)}
  {bytes : List UInt8} {direct : Bool} {r : PackReader Value} {t t' : RamTier} {sh : Shape}
  {ids counts : List Nat} {ramBytes len n : Nat} {s s' : Fetchers Value} {w w' : FetchWorker Value}
  {job : FetchJob} {hit : Bool} {sort : UnstableSort (Nat × Nat)} {top : Finset Nat}
  {result : Except PackError Nat}

/-- The interleavings of any number of threads that find the tier in state `t`. -/
def systemFrom (unzstd : List UInt8 → Nat → Option (List UInt8)) (r : PackReader Value)
    (t : RamTier) : Lib.System (Fetchers Value) FetchAction :=
  .ofPartial
    (fun s => s.tier = t ∧
      ∀ w ∈ s.workers, w.reader = r ∧ w.phase = .idle ∧ w.pin.bytes.length = spanOf r)
    (step unzstd r)

/-- Threads that start on a tier nobody uses are in order. -/
theorem start_inv (hk : Keyed r) (h : Warm unzstd r sh t ids)
    (hs : (systemFrom unzstd r t).init s) : Inv unzstd r s := by
  obtain ⟨htier, hidle⟩ := hs
  have hnone : ∀ {β : Type} (f : FetchPhase → List β), f .idle = [] →
      s.workers.flatMap (fun w => f w.phase) = [] := by
    intro β f hf
    refine List.flatMap_eq_nil_iff.mpr fun w hw => ?_
    rw [(hidle w hw).2.1, hf]
  refine ⟨?_, htier ▸ h.epl, hk.keys, fun w hw => ?_⟩
  · rw [hnone _ rfl, hnone _ rfl, hnone _ rfl, htier]
    exact h.tier
  · obtain ⟨hreader, hphase, hpin⟩ := hidle w hw
    refine ⟨?_, hpin, ?_⟩
    · rw [hreader]
      exact PackReader.SameButScratch.start hk.scratch
    · rw [hphase]
      trivial

/-- Whatever `prewarm` answers, it leaves a tier nobody uses. -/
theorem warm_of_prewarm (hopen : PackReader.openInner codec bytes direct = .ok r)
    (hcap : ∀ frame c out, unzstd frame c = some out → out.length ≤ c)
    (hexperts : 0 < r.packMeta.expertsPerLayer.toNat)
    (hnew : RamTier.new ramBytes (spanOf r) r.packMeta.numLayers.toNat
      r.packMeta.expertsPerLayer.toNat = some (some t))
    (hprewarm : prewarm codec unzstd bytes direct r.packMeta.expertsPerLayer.toNat sort (some t)
      counts = (result, some t')) :
    ∃ sh ids, Warm unzstd r sh t' ids := by
  have hk := Keyed.of_open hopen hexperts hnew
  have hstart : ∃ sh, OnePartition sh ∧ sh.slotsPerPartition = t.capacity ∧
      Warm unzstd r sh t [] := Warm.start rfl hnew
  obtain ⟨sh, hone, -, hwarm⟩ := hstart
  have hcases := run_cases hcap hk hone (Warming.Inv.start hk.scratch hwarm)
    (keptPositions sort counts t.capacity)
  simp only [prewarm, hopen] at hprewarm
  obtain ⟨t₁, -, hrun, hwarm'⟩ | ⟨pre, i, post, e, t₁, -, -, -, hrun, hwarm'⟩ := hcases
  · rw [hrun] at hprewarm
    cases hprewarm
    exact ⟨sh, _, hwarm'⟩
  · rw [hrun] at hprewarm
    cases hprewarm
    exact ⟨sh, _, hwarm'⟩

/-- **After a warm start**, failed or not, threads that fetch from the pack in any order copy
an expert's blob to the device, from the disk always and from RAM exactly when the index
entry's length and the blob's round up to the same span. -/
theorem reachable_warm_fetch (hopen : PackReader.openInner codec bytes direct = .ok r)
    (hcap : ∀ frame c out, unzstd frame c = some out → out.length ≤ c)
    (hexperts : 0 < r.packMeta.expertsPerLayer.toNat)
    (hnew : RamTier.new ramBytes (spanOf r) r.packMeta.numLayers.toNat
      r.packMeta.expertsPerLayer.toNat = some (some t))
    (hprewarm : prewarm codec unzstd bytes direct r.packMeta.expertsPerLayer.toNat sort (some t)
      counts = (result, some t'))
    (h : (systemFrom unzstd r t').Reachable Lib.System.anyStep s)
    (hw : w ∈ s.workers) (hphase : w.phase = .fetched job hit len) :
    ∃ blob, r.blobOf unzstd (spanOf r) job.layer job.expert = some blob ∧
      (CopiesBlob w len blob ↔ hit = false ∨
        ∃ e, r.entry job.layer job.expert = some e ∧ alignUp e.nbytes = alignUp blob.length) := by
  have hk := Keyed.of_open hopen hexperts hnew
  obtain ⟨sh, ids, hwarm⟩ := warm_of_prewarm hopen hcap hexperts hnew hprewarm
  have hinv : Inv unzstd r s := h.invariant (fun s hs => start_inv hk hwarm hs)
    fun s a s' (hs : Inv unzstd r s) _ (hstep : step unzstd r s a = some s') =>
      step_inv hcap hk.scratch hs hstep
  have hok := hinv.workers w hw
  have hknows := hok.knows
  rw [hphase] at hknows
  cases hit with
  | false =>
      obtain ⟨-, ⟨blob, hblob, htake, hspan⟩, hlen⟩ := hknows
      have hcopies : CopiesBlob w len blob :=
        (copiesBlob_iff htake hspan hok.pin).mpr (by rw [hlen blob hblob])
      exact ⟨blob, hblob, iff_of_true hcopies (Or.inl rfl)⟩
  | true =>
      obtain ⟨-, ⟨blob, hblob, htake, hspan⟩, e, he, rfl⟩ := hknows
      refine ⟨blob, hblob, (copiesBlob_iff htake hspan hok.pin).trans ?_⟩
      simp [he]

/-- A fetch of one of the experts `top`, by a thread that has not read the disk. -/
def FromRam (r : PackReader Value) (top : Finset Nat) : FetchPhase → Prop
  | .idle | .dead | .copyingOut _ _ | .copiedOut _ _ | .fetched _ true _ => True
  | .looking job => flatId r.packMeta.expertsPerLayer.toNat (job.layer, job.expert) ∈ top
  | _ => False

/-- Jobs are fetches, of the experts `top`. -/
def Within (r : PackReader Value) (top : Finset Nat) (_ : Fetchers Value) : FetchAction → Prop
  | .take _ job => job.warm = false ∧
      flatId r.packMeta.expertsPerLayer.toNat (job.layer, job.expert) ∈ top
  | .next _ => True

/-- The experts `top` are resident and published, and nobody reads the disk. -/
structure Serves (unzstd : List UInt8 → Nat → Option (List UInt8)) (r : PackReader Value)
    (top : Finset Nat) (s : Fetchers Value) : Prop where
  inv : Inv unzstd r s
  resident : ∀ i ∈ top, ∃ slot, (s.tier.cache.view slot).id = some i ∧
    (s.tier.cache.view slot).ready = true
  phases : ∀ w ∈ s.workers, FromRam r top w.phase

/-- A published resident is found. -/
theorem lookup_found {c c' : ExpertCache} {i slot : Nat} (hinv : ExpertCache.Inv sh c)
    (hid : (c.view slot).id = some i) (hready : (c.view slot).ready = true) :
    c.lookupReady i ≠ some (none, c') := by
  intro hlook
  obtain ⟨-, part, hpart, hmap⟩ := hinv.resident hid
  obtain ⟨s, hs⟩ : ∃ s, c.slots[slot]? = some s :=
    ⟨_, List.getElem?_eq_getElem (ExpertCache.lt_of_view_id hid)⟩
  have hsready : s.ready = true := by
    rw [ExpertCache.view_eq hs] at hready
    exact hready
  obtain ⟨p, hp, hlook⟩ := Option.bind_eq_some_iff.mp hlook
  obtain ⟨part', hpart', hlook⟩ := Option.bind_eq_some_iff.mp hlook
  cases hinv.partOf_eq hp
  cases hpart.symm.trans hpart'
  simp only [hmap, hs, hsready, Option.bind_eq_bind, Option.bind_some, if_true] at hlook
  obtain ⟨c₁, -, hlook⟩ := Option.bind_eq_some_iff.mp hlook
  cases hlook

/-- The residents after a thread has moved are those before. -/
theorem Serves.move {k : Nat} (h : Serves unzstd r top s)
    (hinv : Inv unzstd r ⟨t', s.workers.set k w'⟩)
    (hview : ∀ i, (t'.cache.view i).id = (s.tier.cache.view i).id ∧
      (t'.cache.view i).ready = (s.tier.cache.view i).ready)
    (hphase : FromRam r top w'.phase) : Serves unzstd r top ⟨t', s.workers.set k w'⟩ := by
  refine ⟨hinv, fun i hi => ?_, fun v hv => ?_⟩
  · obtain ⟨slot, hid, hready⟩ := h.resident i hi
    refine ⟨slot, ?_, ?_⟩
    · rw [(hview slot).1, hid]
    · rw [(hview slot).2, hready]
  · rcases List.mem_or_eq_of_mem_set hv with hold | rfl
    · exact h.phases v hold
    · exact hphase

/-- **Step lemma**: a fetch of a resident leaves the residents and the disk alone. -/
theorem Serves.step (hcap : ∀ frame c out, unzstd frame c = some out → out.length ≤ c)
    (hr : r.scratch = none) (h : Serves unzstd r top s) {a : FetchAction}
    (hwithin : Within r top s a) (hstep : Fetchers.step unzstd r s a = some s') :
    Serves unzstd r top s' := by
  have hinv := step_inv hcap hr h.inv hstep
  cases a with
  | take k job =>
      obtain ⟨w, hk, hstep⟩ := Option.bind_eq_some_iff.mp hstep
      obtain ⟨hwarm, hmem⟩ := hwithin
      simp only [hwarm] at hstep
      split at hstep
      · cases hstep
        exact h.move hinv (fun i => ⟨rfl, rfl⟩) hmem
      · cases hstep
  | next k =>
      obtain ⟨w, hk, hstep⟩ := Option.bind_eq_some_iff.mp hstep
      obtain ⟨⟨t', w'⟩, hnext, hstep⟩ := Option.bind_eq_some_iff.mp hstep
      cases hstep
      have hw := List.mem_of_getElem? hk
      have hphases := h.phases w hw
      obtain ⟨⟨sh, hcache⟩, -⟩ := h.inv.tier
      unfold FetchWorker.next at hnext
      cases hphase : w.phase with
      | idle | dead =>
          rw [hphase] at hnext
          cases hnext
      | looking job =>
          rw [hphase] at hnext hphases
          obtain ⟨⟨res, c⟩, hlook, hnext⟩ := Option.bind_eq_some_iff.mp hnext
          have hknows := (h.inv.workers w hw).knows
          rw [hphase] at hknows
          rw [h.inv.key hknows, h.inv.epl] at hlook
          obtain ⟨slot, hid, hready⟩ := h.resident _ hphases
          cases res with
          | none => exact absurd hlook (lookup_found hcache hid hready)
          | some slot' =>
              cases hnext
              obtain ⟨-, ⟨slot₁, -, -, -, hview⟩ | ⟨hnone, -⟩⟩ :=
                ExpertCache.lookupReady_cases hcache hlook
              · refine h.move hinv (fun i => ?_) trivial
                show (c.view i).id = _ ∧ (c.view i).ready = _
                rw [hview]
                exact ⟨SlotTable.pin_id, SlotTable.pin_ready⟩
              · cases hnone
      | copyingOut job slot =>
          rw [hphase] at hnext
          cases hnext
          exact h.move hinv (fun i => ⟨rfl, rfl⟩) trivial
      | copiedOut job slot =>
          rw [hphase] at hnext
          obtain ⟨c, hrel, hnext⟩ := Option.bind_eq_some_iff.mp hnext
          obtain ⟨e, -, hnext⟩ := Option.bind_eq_some_iff.mp hnext
          cases hnext
          obtain ⟨-, -, hview⟩ := ExpertCache.release_spec hcache hrel
          refine h.move hinv (fun i => ?_) trivial
          show (c.view i).id = _ ∧ (c.view i).ready = _
          rw [hview]
          exact ⟨SlotTable.unpin_id, SlotTable.unpin_ready⟩
      | fetched job hit len =>
          rw [hphase] at hnext
          simp only at hnext
          split at hnext
          · cases hnext
            exact h.move hinv (fun i => ⟨rfl, rfl⟩) trivial
          · cases hnext
            exact h.move hinv (fun i => ⟨rfl, rfl⟩) trivial
      | missed job | read job len | writing job slot len | written job slot len =>
          rw [hphase] at hphases
          exact hphases.elim

/-- **A warm start saves the disk**: after `prewarm` has loaded the largest counts, threads
that fetch these experts, in any order, never read the pack. -/
theorem reachable_from_ram (hopen : PackReader.openInner codec bytes direct = .ok r)
    (hcap : ∀ frame c out, unzstd frame c = some out → out.length ≤ c)
    (hexperts : 0 < r.packMeta.expertsPerLayer.toNat)
    (hnew : RamTier.new ramBytes (spanOf r) r.packMeta.numLayers.toNat
      r.packMeta.expertsPerLayer.toNat = some (some t))
    (hlen : counts.length ≤ r.packMeta.total)
    (hprewarm : prewarm codec unzstd bytes direct r.packMeta.expertsPerLayer.toNat sort (some t)
      counts = (.ok n, some t')) :
    ∃ top, TopCounts counts t.capacity top ∧ top.card = n ∧
      ∀ s, (systemFrom unzstd r t').Reachable (Within r top) s →
        ∀ w ∈ s.workers, FromRam r top w.phase := by
  have hk := Keyed.of_open hopen hexperts hnew
  obtain ⟨sh, ids, hwarm⟩ := warm_of_prewarm hopen hcap hexperts hnew hprewarm
  obtain ⟨t₁, ht₁, top, htop, hcard, -, hholds⟩ :=
    prewarms_of_ok hopen hcap hexperts hnew hlen hprewarm
  cases ht₁
  refine ⟨top, htop, hcard, fun s hs => ?_⟩
  have hserves : Serves unzstd r top s := by
    refine hs.invariant (fun s hs => ?_) fun s a s' (hs : Serves unzstd r top s) hC
      (hstep : Fetchers.step unzstd r s a = some s') => hs.step hcap hk.scratch hC hstep
    refine ⟨start_inv hk hwarm hs, fun i hi => ?_, fun w hw => ?_⟩
    · rw [hs.1]
      obtain ⟨slot, hid⟩ := (hholds.resident i).mpr hi
      exact ⟨slot, hid, (hholds.published slot i hid).1⟩
    · rw [(hs.2 w hw).2.1]
      trivial
  exact hserves.phases

end Warm

/-! ### A warm start that fits -/

/-- The tier of one slab, with the pack's expert in it. -/
def warmTier : RamTier := (zeroTier.put 0 0 zeroes).get rfl

theorem zero_prewarm (s : UnstableSort (Nat × Nat)) :
    prewarm zeroCodec unzstdZeroes zeroReader.file.bytes false
      zeroReader.packMeta.expertsPerLayer.toNat s (some zeroTier) [5] =
        (.ok 1, some warmTier) := by
  have htop := keptPositions_top s [5] zeroTier.capacity
  have hcounts : ∀ j, j < [5].length → (0 < [5].getD j 0 ↔ j = 0) := by decide
  have hsingle := (counted_singleton hcounts (by decide) (by decide)).mp htop
  have hkept : keptPositions s [5] zeroTier.capacity = [0] := by
    have hnodup : (keptPositions s [5] zeroTier.capacity).Nodup :=
      (keptPositions_sorted s [5] zeroTier.capacity).imp fun hab => hab.ne
    have hperm := List.perm_of_nodup_nodup_toFinset_eq hnodup (List.nodup_singleton 0)
      (by rw [hsingle]; rfl)
    exact List.perm_singleton.mp hperm
  obtain ⟨scratch, hread⟩ := zeroReader_reads (alignedBuf 8192) List.length_replicate
  have hput : zeroTier.put 0 0 (zeroes.take 8192) = some warmTier := by
    rw [List.take_of_length_le length_zeroes.le]
    rfl
  have hspan : zeroTier.span = 8192 := rfl
  have hload : Warming.load unzstdZeroes 1 ⟨zeroReader, alignedBuf 8192, zeroTier, 0⟩ 0 =
      .ok ⟨{ zeroReader with scratch := some scratch }, ⟨(alignedBuf 8192).addr, zeroes⟩,
        warmTier, 1⟩ := by
    have hlayer : 0 / 1 % 2 ^ 16 = 0 := rfl
    simp only [Warming.load, hlayer, hread, hspan, hput, length_zeroes]
    rfl
  simp only [prewarm, zeroReader_file, zeroReader_experts, hkept, hspan, Warming.run, hload]

/-- The expert is fetched from the warm tier. -/
theorem zero_warm_hit : ∃ s w,
    (systemFrom unzstdZeroes zeroReader warmTier).Reachable Lib.System.anyStep s ∧
      w ∈ s.workers ∧ w.phase = .fetched ⟨0, 0, false⟩ true 11 := by
  let w : FetchWorker Unit := ⟨⟨0, zeroes⟩, zeroReader, .idle⟩
  have hinit : (systemFrom unzstdZeroes zeroReader warmTier).init ⟨warmTier, [w]⟩ := by
    refine ⟨rfl, fun v hv => ?_⟩
    rw [List.mem_singleton.mp hv]
    exact ⟨rfl, rfl, length_zeroes.trans zeroReader_span.symm⟩
  have hfetch : ([.take 0 ⟨0, 0, false⟩, .next 0, .next 0, .next 0].foldlM
      (step unzstdZeroes zeroReader) ⟨warmTier, [w]⟩).map (fun s => s.workers.map (·.phase)) =
        some [.fetched ⟨0, 0, false⟩ true 11] := rfl
  obtain ⟨s, hs, hphases⟩ := Option.map_eq_some_iff.mp hfetch
  obtain ⟨v, hv, hphase⟩ := List.map_eq_singleton_iff.mp hphases
  exact ⟨s, v, ⟨_, _, hinit, Lib.System.run_of_foldlM (fun _ _ _ => trivial) hs⟩,
    hv ▸ List.mem_cons_self, hphase⟩

/-- What that fetch copies. -/
theorem reachable_warm_fetch_zeroes : ∃ s w blob,
    (systemFrom unzstdZeroes zeroReader warmTier).Reachable Lib.System.anyStep s ∧
      w ∈ s.workers ∧ w.phase = .fetched ⟨0, 0, false⟩ true 11 ∧
      zeroReader.blobOf unzstdZeroes (spanOf zeroReader) 0 0 = some blob ∧
      (CopiesBlob w 11 blob ↔ true = false ∨
        ∃ e, zeroReader.entry 0 0 = some e ∧ alignUp e.nbytes = alignUp blob.length) := by
  obtain ⟨s, w, hs, hw, hphase⟩ := zero_warm_hit
  obtain ⟨blob, hblob, hiff⟩ := reachable_warm_fetch zeroReader_file unzstdZeroes_fits (by decide)
    zeroTier_new (zero_prewarm UnstableSort.stable) hs hw hphase
  exact ⟨s, w, blob, hs, hw, hphase, hblob, hiff⟩

/-- The expert is never read again. -/
theorem reachable_from_ram_zeroes : ∃ top, TopCounts [5] zeroTier.capacity top ∧ top.card = 1 ∧
    ∀ s, (systemFrom unzstdZeroes zeroReader warmTier).Reachable (Within zeroReader top) s →
      ∀ w ∈ s.workers, FromRam zeroReader top w.phase :=
  reachable_from_ram zeroReader_file unzstdZeroes_fits (by decide) zeroTier_new (by decide)
    (zero_prewarm UnstableSort.stable)

end Fetchers

end LlmPager
