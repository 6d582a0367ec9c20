import LlmPager.Convert.CoreFileSpec
import LlmPager.Convert.Kimi
import LlmPager.Convert.QwenSpec
import LlmPager.Core.PackRoundTrip
import LlmPager.Run.BlobLayout
import LlmPager.Run.KimiOpen

/-!
# LlmPager.Convert.KimiSpec

What the decoder finds of a checkpoint that `convert_kimi` converted.

The decoder takes the pack, with the number of dense layers that the conversion counted, and
whatever is read before, reading expert `e` of pack layer `L - dense` gives the blob of
tensors that are named after layer `L` and expert `e` (`convertKimi_serves`). Compressing is
invisible: frames are decompressed into a buffer for the longest blob, which the writer
cannot know before the end (`PackedSoFar`). The core has the text stack's other tensors,
under their names without the prefix, and no more.
-/

namespace LlmPager

open Lib (Json JsonCodec)
open Lib.Except (ok_parts ok_of_mapError foldlM_ok)

namespace Kimi

/-! ### Names -/

theorem expertsInfix_eq : ".mlp.experts.".toList = '.' :: "mlp.experts.".toList := by decide

/-- Experts' tensors do not stay resident. -/
theorem not_resident {name : String} {slot : Slot} (h : parseExpertPacked name = some slot) :
    ¬Resident name := by
  simp only [parseExpertPacked, Option.bind_eq_bind, Option.pure_def, Option.bind_eq_some_iff] at h
  obtain ⟨rest, hrest, layer, hlayer, rest', hrest', -⟩ := h
  obtain ⟨front, hname, -⟩ := List.dropPrefix?_eq_some_iff.mp hrest
  obtain ⟨experts, hsplit', hexperts⟩ := List.dropPrefix?_eq_some_iff.mp hrest'
  obtain ⟨-, hsplit⟩ := Lib.splitOnce_eq_some hlayer
  intro hres
  apply hres.2
  rw [expertsInfix_eq, hname, hsplit, hsplit', ← eq_of_beq hexperts]
  exact ⟨front ++ layer.1, rest', by simp⟩

theorem stripPacked_eq_some {name base : String} (h : stripPacked name = some base) :
    name = base ++ "_packed" := by
  unfold stripPacked at h
  split at h
  · next hsuffix =>
    cases h
    apply String.toList_injective
    rw [String.toList_append, String.toList_ofList]
    obtain ⟨front, hfront⟩ := hsuffix
    rw [← hfront, List.length_append, Nat.add_sub_cancel, List.take_left]
  · cases h

theorem renamed_inj {name name' : String} (h : Resident name) (h' : Resident name')
    (heq : renamed name = renamed name') : name = name' := by
  obtain ⟨rest, hrest⟩ := h.1
  obtain ⟨rest', hrest'⟩ := h'.1
  have hdrop := congrArg String.toList heq
  simp only [renamed, String.toList_ofList, ← hrest, ← hrest', List.drop_left] at hdrop
  exact String.toList_injective (by rw [← hrest, ← hrest', hdrop])

/-! ### The table -/

/-- The table and the core, of the names passed so far. -/
structure Assigned (ls : Layers) (done : List String) (a : Assignment) : Prop where
  core : a.core = (done.filter fun name => Resident name).map fun name => (name, renamed name)
  owner : ∀ (slot : Slot) base, a.table slot.layer slot.expert slot.proj = some base →
    base ++ "_packed" ∈ done ∧
      parseExpertPacked (base ++ "_packed") = some { slot with layer := slot.layer + ls.dense.toNat }

variable {ls : Layers}

theorem Assigned.step {done : List String} {a a' : Assignment} {name : String}
    (h : Assigned ls done a) (hstep : assignStep ls a name = .ok a') :
    Assigned ls (done ++ [name]) a' := by
  have howner : ∀ (slot : Slot) base, a.table slot.layer slot.expert slot.proj = some base →
      base ++ "_packed" ∈ done ++ [name] ∧ parseExpertPacked (base ++ "_packed") =
        some { slot with layer := slot.layer + ls.dense.toNat } :=
    fun slot base hbase => ⟨by simp [(h.owner slot base hbase).1], (h.owner slot base hbase).2⟩
  unfold assignStep at hstep
  split at hstep
  · next slot hslot =>
    split at hstep
    · cases hstep
    · next hin =>
      split at hstep
      · cases hstep
      · next base hbase =>
        cases hstep
        obtain rfl := stripPacked_eq_some hbase
        refine ⟨by simpa [List.filter_append, not_resident hslot, Assignment.put] using h.core,
          fun slot' base' hbase' => ?_⟩
        have hput : (if slot' = { slot with layer := slot.layer - ls.dense.toNat } then
            some base else a.table slot'.layer slot'.expert slot'.proj) = some base' := hbase'
        split at hput
        · next heq =>
          cases hput
          have hback : slot.layer - ls.dense.toNat + ls.dense.toNat = slot.layer := by omega
          exact ⟨by simp, by rw [hslot, heq, hback]⟩
        · exact howner slot' base' hput
  · split at hstep
    · next hres =>
      cases hstep
      exact ⟨by simp [List.filter_append, hres, h.core], howner⟩
    · next hres =>
      cases hstep
      exact ⟨by simpa [List.filter_append, hres] using h.core, howner⟩

theorem assigned {ckpt : Shards.Checkpoint} {a : Assignment} (h : assign ckpt ls = .ok a) :
    Assigned ls ckpt.tensors.keys a :=
  foldlM_ok (fun _ _ _ _ _ _ hb hstep => hb.step hstep)
    ⟨rfl, fun _ _ hbase => by cases hbase⟩ h

end Kimi

/-! ### The longest blob -/

namespace PackWriter

/-- The writer, had it been made for another longest blob. -/
def withRaw (w : PackWriter Json) (n : Nat) : PackWriter Json :=
  { w with packMeta := { w.packMeta with maxRawBlob := n } }

theorem addBlob_withRaw {w w' : PackWriter Json} {blob : List UInt8} (h : w.addBlob blob = .ok w')
    (n : Nat) : (w.withRaw n).addBlob blob = .ok (w'.withRaw n) := by
  unfold addBlob at h
  split at h
  · cases h
  · next hfull =>
    have hfull' : ¬(w.withRaw n).index.length = (w.withRaw n).packMeta.total := hfull
    dsimp only at h
    split at h
    · cases h
    · next hend =>
      cases h
      have hend' : ¬2 ^ 64 ≤ (w.withRaw n).cursor + alignUp blob.length := hend
      unfold addBlob
      rw [if_neg hfull']
      dsimp only
      rw [if_neg hend']
      rfl

theorem foldlM_addBlob_withRaw {w w' : PackWriter Json} {blobs : List (List UInt8)}
    (h : blobs.foldlM addBlob w = .ok w') (n : Nat) :
    blobs.foldlM addBlob (w.withRaw n) = .ok (w'.withRaw n) := by
  induction blobs generalizing w with
  | nil =>
      cases h
      rfl
  | cons blob blobs ih =>
      rw [List.foldlM_cons] at h ⊢
      obtain ⟨w₁, hw₁, h⟩ := ok_parts h
      rw [addBlob_withRaw hw₁ n]
      exact ih h

end PackWriter

namespace Kimi

/-! ### The pack -/

section Pack

variable {comp : Compression} {m : PackMeta Json}

/-- What is stored of a blob. -/
def Compression.store (comp : Compression) (blob : List UInt8) : Option (List UInt8) :=
  if comp.enabled then comp.zstd blob else some blob

/-- What the writer is given these blobs: it stands as if it had known the longest of them,
if they are compressed, from the start. -/
structure PackedSoFar (comp : Compression) (m : PackMeta Json) (blobs : List (List UInt8))
    (w : PackWriter Json) : Prop where
  written : ∃ (stored : List (List UInt8)) (longest : Nat), blobs.map comp.store = stored.map some ∧
    stored.foldlM PackWriter.addBlob (PackWriter.create { m with maxRawBlob := longest }) = .ok w ∧
    (comp.enabled = true → ∀ blob ∈ blobs, blob.length ≤ longest) ∧
    (comp.enabled = false → longest = 0)

theorem PackedSoFar.step {blobs : List (List UInt8)} {w w' : PackWriter Json}
    {r : Except BlobError (List UInt8)} (h : PackedSoFar comp m blobs w)
    (hadd : addResult comp w r = .ok w') :
    ∃ blob, r = .ok blob ∧ PackedSoFar comp m (blobs ++ [blob]) w' := by
  obtain ⟨stored, longest, hstored, hrun, hlongest, hzero⟩ := h.written
  unfold addResult at hadd
  cases r with
  | error e => cases hadd
  | ok blob =>
      refine ⟨blob, rfl, ?_⟩
      dsimp only at hadd
      split at hadd
      · next henabled =>
        split at hadd
        · cases hadd
        · next framed hframed =>
          have hmax : w.packMeta.maxRawBlob = longest :=
            congrArg PackMeta.maxRawBlob (foldlM_addBlob_ok hrun (indexEnd_lt _)).1
          have hnoted := PackWriter.foldlM_addBlob_withRaw hrun (max longest blob.length)
          refine ⟨stored ++ [framed], max longest blob.length, ?_, ?_, fun _ => ?_, fun hoff => ?_⟩
          · simp [hstored, Compression.store, henabled, hframed]
          · refine Lib.Except.foldlM_concat hnoted ?_
            have hadd' := ok_of_mapError hadd
            unfold PackWriter.noteRawLen at hadd'
            rwa [hmax] at hadd'
          · simp only [List.mem_append, List.mem_singleton]
            rintro b (hb | rfl)
            · exact (hlongest henabled b hb).trans (le_max_left _ _)
            · exact le_max_right _ _
          · rw [henabled] at hoff
            cases hoff
      · next hoff =>
        refine ⟨stored ++ [blob], longest, ?_, ?_, fun hon => absurd hon hoff, hzero⟩
        · simp [hstored, Compression.store, hoff]
        · exact Lib.Except.foldlM_concat hrun (ok_of_mapError hadd)

/-- Results that were all written are blobs. -/
theorem PackedSoFar.results {results : List (Except BlobError (List UInt8))}
    {blobs : List (List UInt8)} {w w' : PackWriter Json} (h : PackedSoFar comp m blobs w)
    (hrun : results.foldlM (addResult comp) w = .ok w') :
    ∃ more : List (List UInt8), results = more.map .ok ∧ PackedSoFar comp m (blobs ++ more) w' := by
  induction results generalizing blobs w with
  | nil =>
      cases hrun
      exact ⟨[], rfl, by rwa [List.append_nil]⟩
  | cons r results ih =>
      rw [List.foldlM_cons] at hrun
      obtain ⟨w₁, hw₁, hrest⟩ := ok_parts hrun
      obtain ⟨blob, rfl, h₁⟩ := h.step hw₁
      obtain ⟨more, rfl, hmore⟩ := ih h₁ hrest
      exact ⟨blob :: more, rfl, by rwa [List.append_assoc] at hmore⟩

variable {ckpt : Shards.Checkpoint} {a : Assignment} {experts : UInt16}

/-- Blob `e` of layer `l` is that of the expert's row of the table. -/
def Built (ckpt : Shards.Checkpoint) (a : Assignment) (l e : Nat) (blob : List UInt8) : Prop :=
  buildKimiBlob ckpt.view (a.table l e) l e = some (.ok blob)

theorem PackedSoFar.layer {l : Nat} {blobs : List (List UInt8)} {w w' : PackWriter Json}
    (h : PackedSoFar comp m blobs w) (hrun : packLayer comp ckpt a experts w l = .ok w') :
    ∃ row : List (List UInt8), row.length = experts.toNat ∧ PackedSoFar comp m (blobs ++ row) w' ∧
      ∀ e < experts.toNat, ∃ blob, row[e]? = some blob ∧ Built ckpt a l e blob := by
  unfold packLayer at hrun
  split at hrun
  · cases hrun
  · next results hresults =>
    obtain ⟨row, rfl, hrow⟩ := h.results hrun
    have hmap := Lib.mapM_option_ok hresults
    have hlength : row.length = experts.toNat := by
      simpa using (congrArg List.length hmap).symm
    refine ⟨row, hlength, hrow, fun e he => ?_⟩
    have hget := congrArg (fun l => l[e]?) hmap
    simp only [List.getElem?_map, List.getElem?_range he, Option.map_some] at hget
    rw [List.getElem?_eq_getElem (hlength ▸ he)] at hget ⊢
    exact ⟨_, rfl, Option.some.inj hget⟩

/-- The layers' blobs, one layer behind the other. -/
theorem packLayers {n : Nat} {w : PackWriter Json} (hm : m.maxRawBlob = 0)
    (h : (List.range n).foldlM (packLayer comp ckpt a experts) (PackWriter.create m) = .ok w) :
    ∃ blobs : List (List UInt8), PackedSoFar comp m blobs w ∧ blobs.length = n * experts.toNat ∧
      ∀ l < n, ∀ e < experts.toNat, ∃ blob, blobs[l * experts.toNat + e]? = some blob ∧
        Built ckpt a l e blob := by
  induction n generalizing w with
  | zero =>
      cases h
      refine ⟨[], ⟨[], 0, rfl, ?_, by simp, by simp⟩, by simp, by simp⟩
      rw [← hm]
      rfl
  | succ n ih =>
      rw [List.range_succ, List.foldlM_append] at h
      obtain ⟨w₁, hw₁, h⟩ := ok_parts h
      obtain ⟨blobs, hblobs, hlength, hbuilt⟩ := ih hw₁
      rw [List.foldlM_cons] at h
      obtain ⟨w₂, hlayer, h⟩ := ok_parts h
      cases h
      obtain ⟨row, hrow, hpacked, hbuiltRow⟩ := hblobs.layer hlayer
      refine ⟨blobs ++ row, hpacked, ?_, fun l hl e he => ?_⟩
      · rw [List.length_append, hlength, hrow, Nat.add_mul, Nat.one_mul]
      · rcases Nat.lt_succ_iff_lt_or_eq.mp hl with hlt | rfl
        · rw [List.getElem?_append_left (hlength ▸ Lib.block_lt hlt he)]
          exact hbuilt l hlt e he
        · rw [List.getElem?_append_right (by omega), hlength, Nat.add_sub_cancel_left]
          exact hbuiltRow e he

/-- A blob has all its names. -/
theorem table_of_built {l e : Nat} {blob : List UInt8} (h : Built ckpt a l e blob) (p : Proj) :
    ∃ base, a.table l e p = some base := by
  obtain ⟨res, hres, hmap⟩ := Option.map_eq_some_iff.mp h
  cases res with
  | error err => cases hmap
  | ok regions =>
      obtain ⟨region, hregion, -⟩ := buildRegions_ok hres
      have hp := hregion p
      unfold buildKimiRegion at hp
      split at hp
      · cases hp
      · next base hbase => exact ⟨base, hbase⟩

/-- The longest frame that is stored is one of `zstd`'s. -/
theorem longest_stored {blobs stored : List (List UInt8)} (henabled : comp.enabled = true)
    (hstored : blobs.map comp.store = stored.map some)
    (hshort : ∀ blob frame, comp.zstd blob = some frame → alignUp frame.length < 2 ^ 63) :
    alignUp ((stored.map List.length).max?.getD 0) < 2 ^ 63 := by
  refine PackReader.alignUp_max?_lt (Nat.two_pow_pos 63) fun len hlen => ?_
  obtain ⟨frame, hmem, rfl⟩ := List.mem_map.mp hlen
  have hsome : some frame ∈ blobs.map comp.store := hstored ▸ List.mem_map_of_mem hmem
  obtain ⟨blob, -, hstore⟩ := List.mem_map.mp hsome
  exact hshort blob frame (by simpa [Compression.store, henabled] using hstore)

/-- Reading expert `e` of layer `l` gives the blob, in a buffer of at least `cap` bytes. -/
def Reads (unzstd : List UInt8 → Nat → Option (List UInt8)) (cap : Nat) (r : PackReader Json)
    (l e : Nat) (blob : List UInt8) : Prop :=
  ∀ buf : Buf, alignUp cap ≤ buf.bytes.length → (r.file.direct = true → buf.addr % blockAlign = 0) →
    ∃ buf' r', r.readBlobInto unzstd l e buf = .ok (blob.length, buf', r') ∧
      buf'.bytes.take blob.length = blob

/-- What was packed is read, compressed or not. -/
theorem PackedSoFar.serves {packCodec : Codec Json} {blobs : List (List UInt8)}
    {w : PackWriter Json} {pack : List UInt8} {unzstd : List UInt8 → Nat → Option (List UInt8)}
    (h : PackedSoFar comp m blobs w) (hfinish : w.finish packCodec = .ok pack)
    (hcomp : m.compression = if comp.enabled then some "zstd" else none)
    (hjson : ∀ longest, (comp.enabled = false → longest = 0) →
      packCodec.fromSlice (packCodec.toVec { m with maxRawBlob := longest }) =
        some { m with maxRawBlob := longest })
    (hzstd : ∀ blob frame cap, comp.zstd blob = some frame → blob.length ≤ cap →
      unzstd frame cap = some blob)
    (hshort : ∀ blob frame, comp.zstd blob = some frame → alignUp frame.length < 2 ^ 63)
    (direct : Bool) :
    ∃ r longest, PackReader.openInner packCodec pack direct = .ok r ∧
      r.packMeta = { m with maxRawBlob := longest } ∧ r.file.direct = direct ∧
      ∀ r', Relation.ReflTransGen (PackReader.ReadStep unzstd) r r' →
        ∀ l < m.numLayers.toNat, ∀ e < m.expertsPerLayer.toNat, ∃ blob,
          blobs[l * m.expertsPerLayer.toNat + e]? = some blob ∧
          Reads unzstd r.maxBlobBytes r' l e blob := by
  obtain ⟨stored, longest, hstored, hrun, hlongest, hzero⟩ := h.written
  have hwrite : writePack packCodec { m with maxRawBlob := longest } stored = .ok pack := by
    unfold writePack
    rw [hrun]
    exact hfinish
  obtain ⟨hfits, hcount, hend, rfl⟩ := writePack_ok hwrite
  obtain ⟨r, hopen, hdirect, hreads⟩ :=
    serves_image unzstd (hjson longest hzero) hfits hcount hend direct
  obtain ⟨hmeta, -, hmax, -⟩ := hreads r .refl
  refine ⟨r, longest, hopen, hmeta, hdirect, fun r' hr' l hl e he => ?_⟩
  obtain ⟨hmeta', hfile', hmax', hserve⟩ := hreads r' hr'
  obtain ⟨frame, entry, hframe, hserves⟩ := hserve l hl e he
  have hget := congrArg (fun bs => bs[l * m.expertsPerLayer.toNat + e]?) hstored
  simp only [List.getElem?_map] at hget
  rw [hframe, Option.map_some] at hget
  obtain ⟨blob, hblob, hstore⟩ := Option.map_eq_some_iff.mp hget
  refine ⟨blob, hblob, fun buf hbuf haddr => ?_⟩
  have hcap : r.maxBlobBytes ≤ buf.bytes.length := (le_alignUp _).trans hbuf
  have hmaxBlob : r.maxBlobBytes = if 0 < longest then longest else r.maxStoredBytes := by
    unfold PackReader.maxBlobBytes
    rw [hmeta]
  cases henabled : comp.enabled with
  | true =>
      have hraw : r'.packMeta.compression ≠ none := by
        rw [hmeta']
        simp [hcomp, henabled]
      have hlen : blob.length ≤ buf.bytes.length := by
        have hle := hlongest henabled blob (List.mem_of_getElem? hblob)
        split at hmaxBlob <;> omega
      have hframed : comp.zstd blob = some frame := by
        simpa [Compression.store, henabled] using hstore
      have hroom : alignUp r'.maxStoredBytes < 2 ^ 63 :=
        hmax' ▸ longest_stored henabled hstored hshort
      obtain ⟨buf', r'', hread, htake⟩ :=
        hserves.compressed hraw hroom buf blob (hzstd blob frame _ hframed hlen)
      exact ⟨buf', r'', hread, htake⟩
  | false =>
      have hraw : r'.packMeta.compression = none := by
        rw [hmeta']
        simp [hcomp, henabled]
      obtain rfl : blob = frame := by simpa [Compression.store, henabled] using hstore
      have hlen : blob.length ≤ r.maxBlobBytes := by
        rw [hmaxBlob, if_neg (by simp [hzero henabled]), hmax]
        exact List.le_max?_getD_of_mem (List.mem_map_of_mem (List.mem_of_getElem? hframe))
      obtain ⟨buf', hread, htake⟩ := hserves.raw hraw buf haddr (by
        rw [hserves.nbytes]
        exact (alignUp_mono hlen).trans hbuf)
      exact ⟨buf', r', hread, htake⟩

end Pack

/-! ### The conversion -/

section Conversion

variable {codec : JsonCodec} {packCodec : Codec Json} {comp : Compression} {dir : Shards.ModelDir}
  {ckpt : Shards.Checkpoint} {out : Converted} {ls : Layers}

/-- The layers that a conversion counts. -/
theorem readLayers_ok {text : Json} (h : readLayers text = .ok ls) :
    ls.dense ≤ ls.total ∧ ∃ n, (text.get "num_hidden_layers").asU64 = some n ∧
      ls.total = n.toUInt16 := by
  obtain ⟨total, htotal, h⟩ := ok_parts h
  obtain ⟨experts, -, h⟩ := ok_parts h
  unfold configU16 at htotal
  split at htotal
  · next n hn =>
    cases htotal
    dsimp only at h
    split at h
    · cases h
    · next hle =>
      cases h
      exact ⟨UInt16.not_lt.mp hle, n, hn, rfl⟩
  · cases htotal

theorem convertKimi_parts (h : convertKimi codec packCodec comp dir = .ok out) :
    ∃ ckpt ls a cfg n w, Shards.Checkpoint.openDir codec dir = .ok ckpt ∧
      readLayers (ckpt.config.get "text_config") = .ok ls ∧ assign ckpt ls = .ok a ∧
      Shards.writeSafetensorsRenamed codec ckpt a.core = .ok (out.core, n) ∧
      (ckpt.config.get "text_config").set "moe_layer_offset"
        (.num (UInt64.ofNat ls.dense.toNat)) = some cfg ∧
      (List.range ls.moe.toNat).foldlM (packLayer comp ckpt a ls.experts)
        (PackWriter.create (packMeta cfg ls comp.enabled)) = .ok w ∧
      w.finish packCodec = .ok out.pack := by
  obtain ⟨ckpt, hckpt, h⟩ := ok_parts h
  dsimp only at h
  split at h
  · cases h
  · obtain ⟨ls, hls, h⟩ := ok_parts h
    obtain ⟨a, ha, h⟩ := ok_parts h
    obtain ⟨core, hcore, h⟩ := ok_parts h
    split at h
    · next cfg hcfg =>
      obtain ⟨w, hw, h⟩ := ok_parts h
      obtain ⟨pack, hpack, h⟩ := ok_parts h
      cases h
      exact ⟨ckpt, ls, a, cfg, core.2, w, ok_of_mapError hckpt, hls, ha, ok_of_mapError hcore,
        hcfg, hw, ok_of_mapError hpack⟩
    · cases h

/-- The blob is that of tensors that are named after a layer of the model and an expert. -/
def BlobOf (ckpt : Shards.Checkpoint) (ls : Layers) (layer expert : Nat) (blob : List UInt8) :
    Prop :=
  ∃ names : Proj → Option String,
    (∀ p, ∃ base, names p = some base ∧ base ++ "_packed" ∈ ckpt.tensors.keys ∧
      parseExpertPacked (base ++ "_packed") = some ⟨layer, expert, p⟩) ∧
    buildKimiBlob ckpt.view names (layer - ls.dense.toNat) expert = some (.ok blob)

theorem blobOf_built {a : Assignment} (ha : Assigned ls ckpt.tensors.keys a) {layer expert : Nat}
    {blob : List UInt8} (hdense : ls.dense.toNat ≤ layer)
    (h : Built ckpt a (layer - ls.dense.toNat) expert blob) : BlobOf ckpt ls layer expert blob := by
  refine ⟨a.table (layer - ls.dense.toNat) expert, fun p => ?_, h⟩
  obtain ⟨base, hbase⟩ := table_of_built h p
  obtain ⟨hmem, hparse⟩ := ha.owner ⟨layer - ls.dense.toNat, expert, p⟩ base hbase
  rw [Nat.sub_add_cancel hdense] at hparse
  exact ⟨base, hbase, hmem, hparse⟩

/-- The decoder takes a pack with the configuration of the model if the model's layers are
fewer than a `u16` counts. -/
theorem checkPack_iff {text cfg : Json} {m : PackMeta Json} {c : Config}
    (hls : readLayers text = .ok ls)
    (hcfg : text.set "moe_layer_offset" (.num (UInt64.ofNat ls.dense.toNat)) = some cfg)
    (hmeta : m.config = cfg ∧ m.dtype = "q4g32-gud" ∧ m.numLayers = ls.moe)
    (hc : Config.fromJson text = .ok c) :
    checkPack m = .ok ({ c with denseLayers := ls.dense.toNat }, 32) ↔ c.layers < 2 ^ 16 := by
  obtain ⟨hle, n, hn, htotal⟩ := readLayers_ok hls
  obtain ⟨hconfig, hdtype, hlayers⟩ := hmeta
  have hdense : moeLayerOffset cfg = ls.dense.toNat := by
    unfold moeLayerOffset
    rw [Json.get_set hcfg, if_pos rfl]
    simp [Json.asU64]
  have hread : Config.fromJson cfg = .ok { c with denseLayers := ls.dense.toNat } :=
    Config.fromJson_congr (fun k hk => by rw [Json.get_set hcfg, if_neg hk]) hdense hc
  have hcount : c.layers = n.toNat := by
    obtain ⟨nope, -, h⟩ := ok_parts hc
    obtain ⟨rope, -, h⟩ := ok_parts h
    obtain ⟨hidden, -, h⟩ := ok_parts h
    obtain ⟨layers, hread, h⟩ := ok_parts h
    have hlast : c.layers = layers := by
      repeat obtain ⟨_, -, h⟩ := ok_parts h
      cases h
      rfl
    unfold configUsize at hread
    rw [hn] at hread
    cases hread
    exact hlast
  have hmoe : m.numLayers.toNat = n.toNat % 2 ^ 16 - ls.dense.toNat := by
    rw [hlayers, Layers.moe, UInt16.toNat_sub_of_le _ _ hle, htotal, UInt64.toNat_toUInt16]
  have hfits : ls.dense.toNat ≤ n.toNat % 2 ^ 16 := by
    rw [← UInt64.toNat_toUInt16, ← htotal]
    exact UInt16.le_iff_toNat_le.mp hle
  have hmod := Nat.mod_le n.toNat (2 ^ 16)
  have hrun : checkPack m = if m.numLayers.toNat ≠ c.layers - ls.dense.toNat then
      .error (.layers m.numLayers.toNat (c.layers - ls.dense.toNat))
      else .ok ({ c with denseLayers := ls.dense.toNat }, 32) := by
    unfold checkPack
    rw [hconfig, hread, hdtype]
    show (if c.layers < ls.dense.toNat then _ else _) = _
    rw [if_neg (by omega)]
    rfl
  rw [hrun, hcount, hmoe]
  constructor
  · intro h
    split at h
    · cases h
    · next heq =>
      have hlt := Nat.mod_lt n.toNat (show 0 < 2 ^ 16 by decide)
      omega
  · intro hlt
    rw [if_neg (by rw [Nat.mod_eq_of_lt hlt]; simp)]

/-- The resident tensors of the checkpoint are the tensors of the core file. -/
def CoreHolds (codec : JsonCodec) (ckpt : Shards.Checkpoint) (file : List UInt8) : Prop :=
  ∃ st, SafeTensors.openFile codec file = .ok st ∧
    st.names.Perm ((ckpt.tensors.keys.filter fun name => Resident name).map renamed) ∧
    ∀ name ∈ ckpt.tensors.keys, Resident name → ∃ loc raw info, ckpt.tensors[name]? = some loc ∧
      ckpt.readRaw loc = .ok raw ∧ st.raw (renamed name) = .ok (raw, info) ∧
      info.dtype = loc.dtype ∧ info.shape = loc.shape

theorem coreHolds {a : Assignment} {file : List UInt8} {n : Nat}
    (ha : Assigned ls ckpt.tensors.keys a)
    (hmeta : "language_model.__metadata__" ∉ ckpt.tensors.keys)
    (hjson : ∀ st, Shards.makeHeader ckpt a.core = .ok st → codec.Decodes (.obj st.header.toList))
    (h : Shards.writeSafetensorsRenamed codec ckpt a.core = .ok (file, n)) :
    CoreHolds codec ckpt file := by
  have hnames : a.core.map Prod.snd =
      (ckpt.tensors.keys.filter fun name => Resident name).map renamed := by
    rw [ha.core, List.map_map]
    rfl
  have hnodup : (a.core.map Prod.snd).Nodup := by
    rw [hnames]
    refine List.Nodup.map_on (fun x hx y hy heq => ?_) (ckpt.tensors.nodup_keys.filter _)
    exact renamed_inj (by simpa using List.of_mem_filter hx) (by simpa using List.of_mem_filter hy) heq
  have hnometa : "__metadata__" ∉ a.core.map Prod.snd := by
    rw [hnames]
    intro hin
    obtain ⟨name, hname, heq⟩ := List.mem_map.mp hin
    obtain ⟨hmem, hres⟩ := List.mem_filter.mp hname
    have hres : Resident name := by simpa using hres
    have hmetaRes : Resident "language_model.__metadata__" := by decide
    obtain rfl := renamed_inj hres hmetaRes (heq.trans (by decide))
    exact hmeta hmem
  obtain ⟨st, hopen, hlisted, htensors⟩ := Shards.core_tensors hnodup hnometa hjson h
  refine ⟨st, hopen, hnames ▸ hlisted, fun name hname hres => ?_⟩
  obtain ⟨loc, raw, info, hloc, hread, -, hraw, hdtype, hshape⟩ :=
    htensors (name, renamed name) (by
      rw [ha.core]
      exact List.mem_map.mpr ⟨name, List.mem_filter.mpr ⟨hname, by simpa using hres⟩, rfl⟩)
  exact ⟨loc, raw, info, hloc, hread, hraw, hdtype, hshape⟩

/-- **A converted checkpoint is served.** -/
theorem convertKimi_serves {unzstd : List UInt8 → Nat → Option (List UInt8)}
    (h : convertKimi codec packCodec comp dir = .ok out)
    (hzstd : ∀ blob frame cap, comp.zstd blob = some frame → blob.length ≤ cap →
      unzstd frame cap = some blob)
    (hshort : ∀ blob frame, comp.zstd blob = some frame → alignUp frame.length < 2 ^ 63)
    (hpack : ∀ ckpt ls cfg longest, Shards.Checkpoint.openDir codec dir = .ok ckpt →
      readLayers (ckpt.config.get "text_config") = .ok ls →
      (ckpt.config.get "text_config").set "moe_layer_offset"
        (.num (UInt64.ofNat ls.dense.toNat)) = some cfg →
      (comp.enabled = false → longest = 0) →
      packCodec.fromSlice (packCodec.toVec
        { packMeta cfg ls comp.enabled with maxRawBlob := longest }) =
        some { packMeta cfg ls comp.enabled with maxRawBlob := longest })
    (hcore : ∀ ckpt ls a st, Shards.Checkpoint.openDir codec dir = .ok ckpt →
      readLayers (ckpt.config.get "text_config") = .ok ls → assign ckpt ls = .ok a →
      Shards.makeHeader ckpt a.core = .ok st →
        codec.Decodes (.obj st.header.toList))
    (hmeta : ∀ ckpt, Shards.Checkpoint.openDir codec dir = .ok ckpt →
      "language_model.__metadata__" ∉ ckpt.tensors.keys) :
    ∃ ckpt ls, Shards.Checkpoint.openDir codec dir = .ok ckpt ∧
      readLayers (ckpt.config.get "text_config") = .ok ls ∧ CoreHolds codec ckpt out.core ∧
      ∀ direct, ∃ r, PackReader.openInner packCodec out.pack direct = .ok r ∧
        (∀ c, Config.fromJson (ckpt.config.get "text_config") = .ok c →
          (checkPack r.packMeta = .ok ({ c with denseLayers := ls.dense.toNat }, 32) ↔
            c.layers < 2 ^ 16)) ∧
        ∀ r', Relation.ReflTransGen (PackReader.ReadStep unzstd) r r' →
          ∀ layer, ls.dense.toNat ≤ layer → layer < ls.total.toNat →
            ∀ expert < ls.experts.toNat, ∃ blob, BlobOf ckpt ls layer expert blob ∧
              Reads unzstd r.maxBlobBytes r' (layer - ls.dense.toNat) expert blob := by
  obtain ⟨ckpt, ls, a, cfg, n, w, hckpt, hls, ha, hfile, hcfg, hw, hfinish⟩ := convertKimi_parts h
  have hassigned := assigned ha
  obtain ⟨blobs, hpacked, -, hbuilt⟩ := packLayers rfl hw
  refine ⟨ckpt, ls, hckpt, hls, coreHolds hassigned (hmeta ckpt hckpt)
    (fun st hst => hcore ckpt ls a st hckpt hls ha hst) hfile, fun direct => ?_⟩
  obtain ⟨r, longest, hopen, hrmeta, -, hserves⟩ := hpacked.serves hfinish rfl
    (fun longest hlongest => hpack ckpt ls cfg longest hckpt hls hcfg hlongest) hzstd hshort direct
  refine ⟨r, hopen, fun c hc => ?_, fun r' hr' layer hdense htotal expert hexpert => ?_⟩
  · exact checkPack_iff hls hcfg (by rw [hrmeta]; exact ⟨rfl, rfl, rfl⟩) hc
  · have hle := (readLayers_ok hls).1
    have hlayer : layer - ls.dense.toNat < ls.moe.toNat := by
      rw [Layers.moe, UInt16.toNat_sub_of_le _ _ hle]
      omega
    obtain ⟨blob, hblob, hreads⟩ := hserves r' hr' _ hlayer expert hexpert
    obtain ⟨blob', hblob', hbuilt'⟩ := hbuilt _ hlayer expert hexpert
    obtain rfl := Option.some.inj (hblob.symm.trans hblob')
    exact ⟨blob, blobOf_built hassigned hdense hbuilt', hreads⟩

end Conversion

/-! ### One expert -/

def demoName (proj part : String) : String :=
  "language_model.model.layers.1.mlp.experts.0." ++ proj ++ "_proj.weight_" ++ part

def demoEntry (dtype : String) (shape : List UInt64) (start stop : UInt64) : Json :=
  .object [("dtype", .str dtype), ("shape", .arr (shape.map .num)),
    ("data_offsets", .arr [.num start, .num stop])]

/-- An expert of 32 values a projection, a norm, and a norm of the vision tower. -/
def demoHeader : Json :=
  .object [(demoName "down" "packed", demoEntry "I32" [1, 4] 0 16),
    (demoName "down" "scale", demoEntry "BF16" [1, 1] 16 18),
    (demoName "gate" "packed", demoEntry "I32" [1, 4] 18 34),
    (demoName "gate" "scale", demoEntry "BF16" [1, 1] 34 36),
    (demoName "up" "packed", demoEntry "I32" [1, 4] 36 52),
    (demoName "up" "scale", demoEntry "BF16" [1, 1] 52 54),
    ("language_model.norm", demoEntry "BF16" [1] 54 56), ("vision_tower.norm", demoEntry "BF16" [1] 56 58)]

def demoNames : List String :=
  [demoName "down" "packed", demoName "down" "scale", demoName "gate" "packed",
    demoName "gate" "scale", demoName "up" "packed", demoName "up" "scale", "language_model.norm",
    "vision_tower.norm"]

def demoCoreHeader : Json := .object [("norm", demoEntry "BF16" [1] 0 2)]

/-- Of two layers the first is dense. -/
def demoText : Json :=
  .object [("first_k_dense_replace", .num 1), ("n_routed_experts", .num 1),
    ("num_hidden_layers", .num 2)]

def demoConfig : Json := .object [("text_config", demoText)]

def demoDir : Shards.ModelDir where
  path := "demo"
  files name :=
    if name = "config.json" then some (Qwen.textBytes demoConfig)
    else if name = "model.safetensors" then
      some (Lib.leBytes 8 (Qwen.textBytes demoHeader).length ++ Qwen.textBytes demoHeader ++
        (List.range 58).map UInt8.ofNat)
    else none

def demoCodec : JsonCodec where
  toVec := Qwen.textBytes
  fromSlice bs := [demoConfig, demoHeader, demoCoreHeader].find? fun v =>
    Qwen.textBytes v = bs.rdropWhile (· = 0x20)

def demoMeta : PackMeta Json :=
  packMeta (.object [("first_k_dense_replace", .num 1), ("moe_layer_offset", .num 1),
    ("n_routed_experts", .num 1), ("num_hidden_layers", .num 2)]) ⟨1, 2, 1⟩ false

/-- The text of a raw pack's metadata: absent and zero fields are skipped. -/
def demoPackCodec : Codec Json where
  toVec m := Qwen.textBytes (.obj [("model", .str m.model),
    ("num_layers", .num m.numLayers.toUInt64), ("experts_per_layer", .num m.expertsPerLayer.toUInt64),
    ("dtype", .str m.dtype), ("config", m.config)])
  fromSlice _ := some demoMeta

/-- A frame of one raw block, of less than 256 bytes. -/
def rawFrame (blob : List UInt8) : Option (List UInt8) :=
  if blob.length < 256 then
    some ([0x28, 0xB5, 0x2F, 0xFD, 0x20, UInt8.ofNat blob.length] ++
      Lib.leBytes 3 (blob.length * 8 + 1) ++ blob)
  else none

def unrawFrame (frame : List UInt8) (cap : Nat) : Option (List UInt8) :=
  if frame.take 5 = [0x28, 0xB5, 0x2F, 0xFD, 0x20] ∧ (frame.drop 9).length ≤ cap then
    some (frame.drop 9)
  else none

theorem length_rawFrame {blob frame : List UInt8} (h : rawFrame blob = some frame) :
    alignUp frame.length < 2 ^ 63 := by
  unfold rawFrame at h
  split at h
  · cases h
    simp only [List.length_append, List.length_cons, List.length_nil, Lib.length_leBytes, alignUp,
      blockAlign]
    omega
  · cases h

theorem unrawFrame_rawFrame {blob frame : List UInt8} {cap : Nat} (h : rawFrame blob = some frame)
    (hcap : blob.length ≤ cap) : unrawFrame frame cap = some blob := by
  unfold rawFrame at h
  split at h
  · cases h
    have hdrop : ([0x28, 0xB5, 0x2F, 0xFD, 0x20, UInt8.ofNat blob.length] ++
        Lib.leBytes 3 (blob.length * 8 + 1) ++ blob).drop 9 = blob :=
      List.drop_left' (by simp)
    unfold unrawFrame
    rw [hdrop, if_pos ⟨by simp, hcap⟩]
  · cases h

/-- What the demo's proofs look up in the checkpoint of its directory. -/
def demoOpens : Bool :=
  ((Shards.Checkpoint.openDir demoCodec demoDir).toOption.any fun ckpt =>
    ckpt.tensors.keys = demoNames ∧
      ckpt.tensors["language_model.norm"]? = some ⟨0, "BF16", [1], 942, 944⟩) ∧
  (convertKimi demoCodec demoPackCodec ⟨false, rawFrame⟩ demoDir).toOption.isSome

instance demoOpens_true : Fact (demoOpens = true) := ⟨by decide +kernel⟩

/-- A checkpoint's configuration is what stands in the directory. -/
theorem openDir_config {codec : JsonCodec} {dir : Shards.ModelDir} {ckpt : Shards.Checkpoint}
    (h : Shards.Checkpoint.openDir codec dir = .ok ckpt) :
    Shards.Checkpoint.readConfig codec dir = .ok ckpt.config := by
  obtain ⟨config, hconfig, h⟩ := ok_parts h
  obtain ⟨names, -, h⟩ := ok_parts h
  have hkept : ckpt.config = config := by
    refine foldlM_ok (fun done name rest c c' hl hc hstep => ?_) rfl h
      (I := fun _ c => c.config = config)
    unfold Shards.Checkpoint.openShard at hstep
    split at hstep
    · cases hstep
    · obtain ⟨header, -, hstep⟩ := ok_parts hstep
      obtain ⟨tensors, -, hstep⟩ := ok_parts hstep
      cases hstep
      exact hc
  rw [hkept]
  exact hconfig

theorem demo_config {ckpt : Shards.Checkpoint}
    (h : Shards.Checkpoint.openDir demoCodec demoDir = .ok ckpt) : ckpt.config = demoConfig := by
  have hconfig := openDir_config h
  have htext : Qwen.textBytes demoConfig = (Qwen.textBytes demoConfig).rdropWhile (· = 0x20) := by
    decide
  have hparse : demoCodec.fromSlice (Qwen.textBytes demoConfig) = some demoConfig := by
    show List.find? _ _ = _
    rw [List.find?_cons_of_pos (by simpa using htext)]
  have hread : Shards.Checkpoint.readConfig demoCodec demoDir = .ok demoConfig := by
    show Shards.Checkpoint.parse demoCodec (Qwen.textBytes demoConfig) = _
    unfold Shards.Checkpoint.parse
    rw [hparse]
  exact Except.ok.inj (hconfig.symm.trans hread)

/-- The header of the demo's core is decoded. -/
theorem demo_decodes {ckpt : Shards.Checkpoint} {loc : Shards.TensorLoc}
    (hloc : ckpt.tensors["language_model.norm"]? = some loc) (hdtype : loc.dtype = "BF16")
    (hshape : loc.shape = [1]) (hsize : loc.size = .ok 2) {st : Shards.HeaderState}
    (h : Shards.makeHeader ckpt [("language_model.norm", "norm")] = .ok st) :
    demoCodec.Decodes (.obj st.header.toList) := by
  have hst : Json.obj st.header.toList = demoCoreHeader := by
    have htensor : ckpt.tensor "language_model.norm" = .ok loc := by
      unfold Shards.Checkpoint.tensor
      rw [hloc]
    obtain ⟨st', hst', h⟩ := ok_parts h
    cases h
    obtain ⟨loc', hloc', hst'⟩ := ok_parts hst'
    obtain rfl := Except.ok.inj (htensor.symm.trans hloc')
    obtain ⟨len, hlen, hst'⟩ := ok_parts hst'
    obtain rfl := Except.ok.inj (hsize.symm.trans hlen)
    cases hst'
    show Json.obj (Std.TreeMap.toList (Std.TreeMap.insert ∅ "norm" (Shards.headerEntry loc 0 2))) = _
    unfold Shards.headerEntry
    rw [hdtype, hshape]
    rfl
  have hlast : (Qwen.textBytes demoCoreHeader).getLast? ≠ some 0x20 := by decide
  have hconfig : Qwen.textBytes demoConfig ≠ Qwen.textBytes demoCoreHeader := by decide
  have hheader : Qwen.textBytes demoHeader ≠ Qwen.textBytes demoCoreHeader := by decide
  intro spaces
  rw [hst]
  show List.find? _ _ = _
  simp only [demoCodec, Qwen.rdropWhile_spaces hlast]
  rw [List.find?_cons_of_neg (by simpa using hconfig), List.find?_cons_of_neg (by simpa using hheader),
    List.find?_cons_of_pos (by simp)]

theorem convertKimi_serves_one : ∃ out ckpt r blob,
    convertKimi demoCodec demoPackCodec ⟨false, rawFrame⟩ demoDir = .ok out ∧
    Shards.Checkpoint.openDir demoCodec demoDir = .ok ckpt ∧ ckpt.tensors.keys = demoNames ∧
    CoreHolds demoCodec ckpt out.core ∧
    PackReader.openInner demoPackCodec out.pack true = .ok r ∧ BlobOf ckpt ⟨1, 2, 1⟩ 1 0 blob ∧
    Reads unrawFrame r.maxBlobBytes r 0 0 blob := by
  have hopens := demoOpens_true.out
  unfold demoOpens at hopens
  simp only [Bool.decide_and, Bool.decide_eq_true, Bool.and_eq_true] at hopens
  obtain ⟨hfacts, hout⟩ := hopens
  obtain ⟨ckpt, hckpt, hfacts⟩ := Qwen.toOption_any hfacts
  simp only [Bool.and_eq_true, decide_eq_true_eq] at hfacts
  obtain ⟨hkeys, hloc⟩ := hfacts
  obtain ⟨out, hout⟩ : ∃ out, convertKimi demoCodec demoPackCodec ⟨false, rawFrame⟩ demoDir = .ok out := by
    cases hrun : convertKimi demoCodec demoPackCodec ⟨false, rawFrame⟩ demoDir with
    | error e =>
        rw [hrun] at hout
        cases hout
    | ok out => exact ⟨out, rfl⟩
  have htext : ∀ {ckpt' : Shards.Checkpoint}, Shards.Checkpoint.openDir demoCodec demoDir = .ok ckpt' →
      ckpt'.config.get "text_config" = demoText := by
    intro ckpt' hckpt'
    rw [demo_config hckpt']
    rfl
  have hlayers : readLayers demoText = .ok ⟨1, 2, 1⟩ := by rfl
  obtain ⟨ckpt', ls, hckpt', hls, hcore, hreader⟩ := convertKimi_serves hout
    (fun blob frame cap hframe hcap => unrawFrame_rawFrame hframe hcap)
    (fun blob frame hframe => length_rawFrame hframe)
    (fun ckpt' ls cfg longest hckpt' hls hcfg hlongest => by
      rw [htext hckpt'] at hls hcfg
      obtain rfl := Except.ok.inj (hlayers.symm.trans hls)
      cases hcfg
      rw [hlongest rfl]
      rfl)
    (fun ckpt' ls a st hckpt' hls ha hst => by
      obtain rfl := Except.ok.inj (hckpt.symm.trans hckpt')
      have hnames : a.core = [("language_model.norm", "norm")] := by
        rw [(assigned ha).core, hkeys]
        decide +kernel
      rw [hnames] at hst
      exact demo_decodes hloc rfl rfl rfl hst)
    (fun ckpt' hckpt' => by
      obtain rfl := Except.ok.inj (hckpt.symm.trans hckpt')
      rw [hkeys]
      decide +kernel)
  obtain rfl := Except.ok.inj (hckpt.symm.trans hckpt')
  rw [htext hckpt] at hls
  obtain rfl := Except.ok.inj (hlayers.symm.trans hls)
  obtain ⟨r, hopen, -, hserves⟩ := hreader true
  obtain ⟨blob, hblob, hreads⟩ := hserves r .refl 1 (by decide) (by decide) 0 (by decide)
  exact ⟨out, ckpt, r, blob, hout, hckpt, hkeys, hcore, hopen, hblob, hreads⟩

end Kimi

end LlmPager
