import LlmPager.Convert.CoreFileSpec
import LlmPager.Convert.Qwen
import LlmPager.Run.BlobLayout

/-!
# LlmPager.Convert.QwenSpec

What a conversion keeps: a tensor of the checkpoint is in the core file, or it is the source
of one region of the pack, if and only if no two names of the checkpoint spell the same
expert tensor (`convert_lossless_iff`).

The table that the names are sorted into holds, in each slot, the last name that is parsed
to it (`Assigned`). A conversion that succeeds found all slots taken.
-/

namespace LlmPager

open Lib (Json JsonCodec leBytes)
open Lib.Except (ok_parts ok_of_mapError foldlM_ok)

/-! ### The checkpoint -/

namespace Shards.Checkpoint

variable {codec : JsonCodec} {dir : ModelDir}

theorem openEntry_metadata {fidx : Nat} {dataBase : UInt64}
    {tensors tensors' : Std.TreeMap String TensorLoc} {kv : String × Json}
    (h : openEntry fidx dataBase tensors kv = .ok tensors') (hnone : tensors["__metadata__"]? = none) :
    tensors'["__metadata__"]? = none := by
  unfold openEntry at h
  split at h
  · cases h
    exact hnone
  · next hne =>
    cases hinfo : tensorInfo dataBase kv.1 kv.2 with
    | error e =>
        rw [hinfo] at h
        cases h
    | ok info =>
        rw [hinfo] at h
        cases h
        rwa [Lib.getElem?_insert_of_ne hne]

theorem openShard_metadata {alloc : Nat → Bool} {ckpt ckpt' : Checkpoint} {name : String}
    (h : openShard codec dir alloc ckpt name = .ok ckpt')
    (hnone : ckpt.tensors["__metadata__"]? = none) : ckpt'.tensors["__metadata__"]? = none := by
  unfold openShard at h
  split at h
  · cases h
  · obtain ⟨header, -, h⟩ := ok_parts h
    obtain ⟨tensors, htensors, h⟩ := ok_parts h
    cases h
    exact foldlM_ok (I := fun _ tensors => tensors["__metadata__"]? = none)
      (fun _ _ _ _ _ _ hb hstep => openEntry_metadata hstep hb) hnone htensors

/-- The metadata of a shard is no tensor. -/
theorem openDir_metadata {ckpt : Checkpoint} (h : openDir codec dir = .ok ckpt) :
    "__metadata__" ∉ ckpt.tensors.keys := by
  obtain ⟨config, -, h⟩ := ok_parts h
  obtain ⟨names, -, h⟩ := ok_parts h
  have hnone : ckpt.tensors["__metadata__"]? = none :=
    foldlM_ok (I := fun _ ckpt => ckpt.tensors["__metadata__"]? = none)
      (fun _ _ _ _ _ _ hb hstep => openShard_metadata hstep hb) Std.TreeMap.getElem?_emptyc h
  rw [Std.TreeMap.mem_keys, ← Std.TreeMap.isSome_getElem?_iff_mem, hnone]
  simp

end Shards.Checkpoint

namespace Qwen

/-! ### The table -/

/-- The table and the core, of the names passed so far. -/
structure Assigned (layers experts : UInt16) (done : List String) (a : Assignment) : Prop where
  core : a.core = done.filter fun name => parseExpert name = none
  owner : ∀ slot name, a.table slot.layer slot.expert slot.proj = some name →
    name ∈ done ∧ parseExpert name = some slot
  taken : ∀ name slot, name ∈ done → parseExpert name = some slot →
    slot.layer < layers.toNat ∧ slot.expert < experts.toNat ∧
      ∃ name', a.table slot.layer slot.expert slot.proj = some name'

variable {layers experts : UInt16}

theorem table_put (a : Assignment) (slot slot' : Slot) (name : String) :
    (a.put slot name).table slot'.layer slot'.expert slot'.proj =
      if slot' = slot then some name else a.table slot'.layer slot'.expert slot'.proj := rfl

theorem Assigned.step {done : List String} {a a' : Assignment} {name : String}
    (h : Assigned layers experts done a) (hstep : assignStep layers experts a name = .ok a') :
    Assigned layers experts (done ++ [name]) a' := by
  unfold assignStep at hstep
  split at hstep
  · next slot hslot =>
    split at hstep
    · next hin =>
      cases hstep
      refine ⟨?_, ?_, ?_⟩
      · simpa [List.filter_append, hslot, Assignment.put] using h.core
      · intro slot' name' hname'
        rw [table_put] at hname'
        split at hname'
        · next heq =>
          cases hname'
          exact ⟨by simp, heq ▸ hslot⟩
        · obtain ⟨hmem, hparse⟩ := h.owner slot' name' hname'
          exact ⟨by simp [hmem], hparse⟩
      · intro name' slot' hmem hparse
        rw [table_put]
        by_cases heq : slot' = slot
        · rw [if_pos heq, heq]
          exact ⟨hin.1, hin.2, name, rfl⟩
        · rw [if_neg heq]
          rcases List.mem_append.mp hmem with hdone | hlast
          · exact h.taken name' slot' hdone hparse
          · obtain rfl := List.mem_singleton.mp hlast
            exact absurd (Option.some.inj (hparse.symm.trans hslot)) heq
    · cases hstep
  · next hnone =>
    cases hstep
    refine ⟨?_, ?_, ?_⟩
    · simp [List.filter_append, hnone, h.core]
    · intro slot' name' hname'
      obtain ⟨hmem, hparse⟩ := h.owner slot' name' hname'
      exact ⟨by simp [hmem], hparse⟩
    · intro name' slot' hmem hparse
      rcases List.mem_append.mp hmem with hdone | hlast
      · exact h.taken name' slot' hdone hparse
      · rw [List.mem_singleton.mp hlast, hnone] at hparse
        cases hparse

theorem assigned {ckpt : Shards.Checkpoint} {a : Assignment}
    (h : assign ckpt layers experts = .ok a) : Assigned layers experts ckpt.tensors.keys a :=
  foldlM_ok (fun _ _ _ _ _ _ hb hstep => hb.step hstep)
    ⟨rfl, by simp [Assignment.empty], by simp⟩ h

/-! ### The pack -/

/-- Results that were all written are blobs. -/
theorem foldlM_addResult {w w' : PackWriter Json} {results : List (Except BlobError (List UInt8))}
    (h : results.foldlM addResult w = .ok w') :
    ∃ blobs : List (List UInt8), results = blobs.map .ok ∧ blobs.foldlM PackWriter.addBlob w = .ok w' := by
  induction results generalizing w with
  | nil =>
      cases h
      exact ⟨[], rfl, rfl⟩
  | cons r results ih =>
      rw [List.foldlM_cons] at h
      obtain ⟨w₁, hw₁, h⟩ := ok_parts h
      obtain ⟨blobs, rfl, hrest⟩ := ih h
      cases r with
      | error e => cases hw₁
      | ok blob =>
          refine ⟨blob :: blobs, rfl, ?_⟩
          rw [List.foldlM_cons, ok_of_mapError hw₁]
          exact hrest

variable {ops : FloatOps} {ckpt : Shards.Checkpoint} {a : Assignment}

/-- Blob `e` of layer `l` is that of the expert's row of the table. -/
def Built (ops : FloatOps) (ckpt : Shards.Checkpoint) (a : Assignment) (l e : Nat)
    (blob : List UInt8) : Prop :=
  buildBlob ops ckpt.view (a.table l e) l e = some (.ok blob)

theorem packLayer_ok {w w' : PackWriter Json} {l : Nat}
    (h : packLayer ops ckpt a experts w l = .ok w') :
    ∃ blobs : List (List UInt8), blobs.length = experts.toNat ∧ blobs.foldlM PackWriter.addBlob w = .ok w' ∧
      ∀ e < experts.toNat, ∃ blob, blobs[e]? = some blob ∧ Built ops ckpt a l e blob := by
  unfold packLayer at h
  split at h
  · cases h
  · next results hresults =>
    obtain ⟨blobs, rfl, hrun⟩ := foldlM_addResult h
    have hmap := Lib.mapM_option_ok hresults
    have hlength : blobs.length = experts.toNat := by
      have := congrArg List.length hmap
      simpa using this.symm
    refine ⟨blobs, hlength, hrun, fun e he => ?_⟩
    have hget := congrArg (fun l => l[e]?) hmap
    simp only [List.getElem?_map, List.getElem?_range he, Option.map_some] at hget
    rw [List.getElem?_eq_getElem (hlength ▸ he)] at hget ⊢
    exact ⟨_, rfl, Option.some.inj hget⟩

/-- The layers' blobs, one layer behind the other. -/
theorem packLayers_ok {w w' : PackWriter Json} {n : Nat}
    (h : (List.range n).foldlM (packLayer ops ckpt a experts) w = .ok w') :
    ∃ blobs : List (List UInt8), blobs.length = n * experts.toNat ∧ blobs.foldlM PackWriter.addBlob w = .ok w' ∧
      ∀ l < n, ∀ e < experts.toNat, ∃ blob, blobs[l * experts.toNat + e]? = some blob ∧
        Built ops ckpt a l e blob := by
  induction n generalizing w' with
  | zero =>
      cases h
      exact ⟨[], by simp, rfl, by simp⟩
  | succ n ih =>
      rw [List.range_succ, List.foldlM_append] at h
      obtain ⟨w₁, hw₁, h⟩ := ok_parts h
      obtain ⟨blobs, hlength, hrun, hbuilt⟩ := ih hw₁
      rw [List.foldlM_cons] at h
      obtain ⟨w₂, hlayer, h⟩ := ok_parts h
      cases h
      obtain ⟨last, hlast, hrunLast, hbuiltLast⟩ := packLayer_ok hlayer
      refine ⟨blobs ++ last, ?_, ?_, ?_⟩
      · rw [List.length_append, hlength, hlast, Nat.add_mul, Nat.one_mul]
      · rw [List.foldlM_append, hrun]
        exact hrunLast
      · intro l hl e he
        rcases Nat.lt_succ_iff_lt_or_eq.mp hl with hlt | rfl
        · have hin : l * experts.toNat + e < blobs.length := hlength ▸ Lib.block_lt hlt he
          rw [List.getElem?_append_left hin]
          exact hbuilt l hlt e he
        · rw [List.getElem?_append_right (by omega), hlength, Nat.add_sub_cancel_left]
          exact hbuiltLast e he

/-- A blob has all its names. -/
theorem table_of_built {l e : Nat} {blob : List UInt8} (h : Built ops ckpt a l e blob) (p : Proj) :
    ∃ name, a.table l e p = some name := by
  obtain ⟨res, hres, hmap⟩ := Option.map_eq_some_iff.mp h
  cases res with
  | error err => cases hmap
  | ok regions =>
      obtain ⟨region, hregion, -⟩ := buildRegions_ok hres
      have hp := hregion p
      unfold buildRegion at hp
      split at hp
      · cases hp
      · next name hname => exact ⟨name, hname⟩

/-! ### What is kept -/

/-- The reader of the core file finds the tensor of the checkpoint under its own name. -/
def InCore (codec : JsonCodec) (ckpt : Shards.Checkpoint) (file : List UInt8) (name : String) :
    Prop :=
  ∃ st loc raw info, SafeTensors.openFile codec file = .ok st ∧ ckpt.tensors[name]? = some loc ∧
    ckpt.readRaw loc = .ok raw ∧ st.raw name = .ok (raw, info) ∧ info.dtype = loc.dtype ∧
    info.shape = loc.shape

/-- The tensor that a region is made from. -/
def Assignment.source (a : Assignment) (slot : Slot) : Option String :=
  a.table slot.layer slot.expert slot.proj

/-- Every tensor is in the core file or the source of one region, and every region has one
source. -/
structure Lossless (codec : JsonCodec) (ckpt : Shards.Checkpoint) (layers experts : UInt16)
    (a : Assignment) (file : List UInt8) : Prop where
  kept : ∀ name ∈ ckpt.tensors.keys,
    (InCore codec ckpt file name ∧ ∀ slot, a.source slot ≠ some name) ∨
    (¬ InCore codec ckpt file name ∧ ∃! slot : Slot,
      (slot.layer < layers.toNat ∧ slot.expert < experts.toNat) ∧ a.source slot = some name)
  filled : ∀ slot : Slot, slot.layer < layers.toNat → slot.expert < experts.toNat →
    ∃! name, name ∈ ckpt.tensors.keys ∧ a.source slot = some name
  assigned : ∀ name ∈ ckpt.tensors.keys, ∀ name' ∈ ckpt.tensors.keys, ∀ slot,
    parseExpert name = some slot → parseExpert name' = some slot → name = name'

/-- No two names spell the same expert tensor. -/
def NoRespelling (ckpt : Shards.Checkpoint) : Prop :=
  ∀ name ∈ ckpt.tensors.keys, ∀ name' ∈ ckpt.tensors.keys,
    (parseExpert name).isSome → (parseExpert name').isSome → Respelt name name' → name = name'

theorem noRespelling_iff : NoRespelling ckpt ↔
    ∀ name ∈ ckpt.tensors.keys, ∀ name' ∈ ckpt.tensors.keys, ∀ slot,
      parseExpert name = some slot → parseExpert name' = some slot → name = name' := by
  constructor
  · intro h name hname name' hname' slot hslot hslot'
    exact h name hname name' hname' (by rw [hslot]; rfl) (by rw [hslot']; rfl)
      ((parseExpert_inj hslot hslot').mp rfl)
  · intro h name hname name' hname' hsome hsome' hrespelt
    obtain ⟨slot, hslot⟩ := Option.isSome_iff_exists.mp hsome
    obtain ⟨slot', hslot'⟩ := Option.isSome_iff_exists.mp hsome'
    obtain rfl := (parseExpert_inj hslot hslot').mpr hrespelt
    exact h name hname name' hname' slot hslot hslot'

/-- The core file holds the names that are no expert's. -/
theorem inCore_iff {codec : JsonCodec} {file : List UInt8} {n : Nat}
    (hmeta : "__metadata__" ∉ ckpt.tensors.keys) (ha : Assigned layers experts ckpt.tensors.keys a)
    (hjson : ∀ st, Shards.makeHeader ckpt (a.core.map fun n => (n, n)) = .ok st →
      codec.Decodes (.obj st.header.toList))
    (h : Shards.writeSafetensors codec ckpt a.core = .ok (file, n)) {name : String}
    (hname : name ∈ ckpt.tensors.keys) :
    InCore codec ckpt file name ↔ parseExpert name = none := by
  have hnames : (a.core.map fun n => (n, n)).map Prod.snd = a.core := by
    rw [List.map_map]
    exact List.map_id _
  have hcore : ∀ {name}, name ∈ a.core ↔ name ∈ ckpt.tensors.keys ∧ parseExpert name = none := by
    intro name
    rw [ha.core]
    simp
  have hnodup : ((a.core.map fun n => (n, n)).map Prod.snd).Nodup := by
    rw [hnames, ha.core]
    exact ckpt.tensors.nodup_keys.filter _
  have hnometa : "__metadata__" ∉ (a.core.map fun n => (n, n)).map Prod.snd := by
    rw [hnames, hcore]
    exact fun hin => hmeta hin.1
  obtain ⟨st, hopen, hlisted, htensors⟩ := Shards.core_tensors hnodup hnometa hjson h
  constructor
  · intro hin
    obtain ⟨st', loc, raw, info, hopen', -, -, hraw, -, -⟩ := hin
    obtain rfl : st = st' := Except.ok.inj (hopen.symm.trans hopen')
    obtain ⟨info', hinfo, -⟩ := ok_parts hraw
    have hmem : name ∈ st.names := by
      show name ∈ st.tensors.keys
      rw [Std.TreeMap.mem_keys, ← Std.TreeMap.isSome_getElem?_iff_mem]
      unfold SafeTensors.info at hinfo
      split at hinfo
      · next hget =>
        rw [hget]
        rfl
      · cases hinfo
    rw [hlisted.mem_iff, hnames, hcore] at hmem
    exact hmem.2
  · intro hnone
    obtain ⟨loc, raw, info, hloc, hread, -, hraw, hdtype, hshape⟩ := htensors (name, name)
      (List.mem_map.mpr ⟨name, hcore.mpr ⟨hname, hnone⟩, rfl⟩)
    exact ⟨st, loc, raw, info, hopen, hloc, hread, hraw, hdtype, hshape⟩

theorem lossless_iff {codec : JsonCodec} {file : List UInt8}
    (ha : Assigned layers experts ckpt.tensors.keys a)
    (hcore : ∀ name ∈ ckpt.tensors.keys, InCore codec ckpt file name ↔ parseExpert name = none)
    (hfull : ∀ l < layers.toNat, ∀ e < experts.toNat, ∀ p, ∃ name, a.table l e p = some name) :
    Lossless codec ckpt layers experts a file ↔ NoRespelling ckpt := by
  rw [noRespelling_iff]
  constructor
  · exact fun h => h.assigned
  · intro hinj
    refine ⟨fun name hname => ?_, fun slot hlayer hexpert => ?_, hinj⟩
    · cases hslot : parseExpert name with
      | none =>
          refine .inl ⟨(hcore name hname).mpr hslot, fun slot hsource => ?_⟩
          have hparse := (ha.owner slot name hsource).2
          rw [hslot] at hparse
          cases hparse
      | some slot =>
          obtain ⟨hlayer, hexpert, name', hsource⟩ := ha.taken name slot hname hslot
          obtain ⟨hname', hparse⟩ := ha.owner slot name' hsource
          obtain rfl := hinj name hname name' hname' slot hslot hparse
          refine .inr ⟨fun hin => ?_, slot, ⟨⟨hlayer, hexpert⟩, hsource⟩, ?_⟩
          · rw [hcore name hname, hslot] at hin
            cases hin
          · intro slot' hslot'
            exact Option.some.inj ((ha.owner slot' name hslot'.2).2.symm.trans hslot)
    · obtain ⟨name, hname⟩ := hfull slot.layer hlayer slot.expert hexpert slot.proj
      refine ⟨name, ⟨(ha.owner slot name hname).1, hname⟩, fun name' hname' => ?_⟩
      exact Option.some.inj (hname'.2.symm.trans hname)

theorem convert_ok {codec : JsonCodec} {packCodec : Codec Json} {ops : FloatOps}
    {dir : Shards.ModelDir} {out : Converted} (h : convert codec packCodec ops dir = .ok out) :
    ∃ ckpt a n w, Shards.Checkpoint.openDir codec dir = .ok ckpt ∧
      assign ckpt out.layers out.experts = .ok a ∧
      Shards.writeSafetensors codec ckpt a.core = .ok (out.core, n) ∧
      (List.range out.layers.toNat).foldlM (packLayer ops ckpt a out.experts)
        (PackWriter.create (packMeta ckpt out.layers out.experts)) = .ok w ∧
      w.finish packCodec = .ok out.pack := by
  obtain ⟨ckpt, hckpt, h⟩ := ok_parts h
  obtain ⟨layers, -, h⟩ := ok_parts h
  obtain ⟨experts, -, h⟩ := ok_parts h
  obtain ⟨a, ha, h⟩ := ok_parts h
  obtain ⟨core, hcore, h⟩ := ok_parts h
  obtain ⟨w, hw, h⟩ := ok_parts h
  obtain ⟨pack, hpack, h⟩ := ok_parts h
  cases h
  exact ⟨ckpt, a, core.2, w, ok_of_mapError hckpt, ha, ok_of_mapError hcore, hw,
    ok_of_mapError hpack⟩

/-- **A conversion loses no tensor if and only if no two names spell the same expert
tensor.** -/
theorem convert_lossless_iff {codec : JsonCodec} {packCodec : Codec Json} {dir : Shards.ModelDir}
    {out : Converted} (h : convert codec packCodec ops dir = .ok out)
    (hjson : ∀ ckpt a st, Shards.Checkpoint.openDir codec dir = .ok ckpt →
      assign ckpt out.layers out.experts = .ok a →
      Shards.makeHeader ckpt (a.core.map fun n => (n, n)) = .ok st →
        codec.Decodes (.obj st.header.toList)) :
    ∃ ckpt a, ∃ blobs : List (List UInt8), Shards.Checkpoint.openDir codec dir = .ok ckpt ∧
      assign ckpt out.layers out.experts = .ok a ∧
      writePack packCodec (packMeta ckpt out.layers out.experts) blobs = .ok out.pack ∧
      blobs.length = out.layers.toNat * out.experts.toNat ∧
      (∀ l < out.layers.toNat, ∀ e < out.experts.toNat, ∃ blob,
        blobs[l * out.experts.toNat + e]? = some blob ∧ Built ops ckpt a l e blob) ∧
      (Lossless codec ckpt out.layers out.experts a out.core ↔ NoRespelling ckpt) := by
  obtain ⟨ckpt, a, n, w, hopen, ha, hfile, hw, hpack⟩ := convert_ok h
  obtain ⟨blobs, hlength, hrun, hbuilt⟩ := packLayers_ok hw
  have hassigned := assigned ha
  refine ⟨ckpt, a, blobs, hopen, ha, ?_, hlength, hbuilt, ?_⟩
  · unfold writePack
    rw [hrun]
    exact hpack
  · refine lossless_iff hassigned (fun name hname => ?_) fun l hl e he p => ?_
    · exact inCore_iff (Shards.Checkpoint.openDir_metadata hopen) hassigned
        (fun st hst => hjson ckpt a st hopen ha hst) hfile hname
    · obtain ⟨blob, -, hblob⟩ := hbuilt l hl e he
      exact table_of_built hblob p

/-! ### One expert -/

mutual

/-- The text of a value in which no string is escaped and no number has a sign or a
fraction. -/
def text : Json → List Char
  | .num n => (toString n.toNat).toList
  | .str s => '"' :: s.toList ++ ['"']
  | .arr vs => '[' :: textAll vs ++ [']']
  | .obj entries => '\x7b' :: textEntries entries ++ ['\x7d']
  | _ => "null".toList

def textAll : List Json → List Char
  | [] => []
  | [v] => text v
  | v :: vs => text v ++ ',' :: textAll vs

def textEntries : List (String × Json) → List Char
  | [] => []
  | [(k, v)] => '"' :: k.toList ++ '"' :: ':' :: text v
  | (k, v) :: entries => '"' :: k.toList ++ '"' :: ':' :: text v ++ ',' :: textEntries entries

end

def textBytes (v : Json) : List UInt8 := (text v).map fun c => UInt8.ofNat c.toNat

def tensorEntry (i : Nat) : Json :=
  .object [("dtype", .str "BF16"), ("shape", .arr [.num 1, .num 64]),
    ("data_offsets", .arr [.num (UInt64.ofNat (i * 128)), .num (UInt64.ofNat (i * 128 + 128))])]

def demoHeader (names : List String) : Json :=
  .object (names.zipIdx.map fun kv => (kv.1, tensorEntry kv.2))

def demoConfig : Json := .object [("num_experts", .num 1), ("num_hidden_layers", .num 1)]

/-- A checkpoint of one shard, in which each tensor has 64 zeros. -/
def demoDir (names : List String) : Shards.ModelDir where
  path := "demo"
  files name :=
    if name = "config.json" then some (textBytes demoConfig)
    else if name = "model.safetensors" then
      some (leBytes 8 (textBytes (demoHeader names)).length ++ textBytes (demoHeader names) ++
        List.replicate (names.length * 128) 0)
    else none

/-- The codec, of which only the texts of the demo's values are known. -/
def demoCodec (names : List String) : JsonCodec where
  toVec := textBytes
  fromSlice bs := [demoConfig, demoHeader names, demoHeader ["norm"]].find? fun v =>
    textBytes v = bs.rdropWhile (· = 0x20)

def demoPackCodec : Codec Json where
  toVec m := textBytes m.config
  fromSlice _ := none

def demoNames : List String :=
  ["model.layers.0.mlp.experts.0.down_proj.weight", "model.layers.0.mlp.experts.0.gate_proj.weight",
    "model.layers.0.mlp.experts.0.up_proj.weight", "norm"]

/-- An expert whose three tensors have 64 values each is packed. -/
theorem convert_one {codec : JsonCodec} {packCodec : Codec Json} {ops : FloatOps}
    {dir : Shards.ModelDir} {ckpt : Shards.Checkpoint} {a : Assignment}
    (hckpt : Shards.Checkpoint.openDir codec dir = .ok ckpt)
    (hlayers : configU16 ckpt "num_hidden_layers" = .ok 1)
    (hexperts : configU16 ckpt "num_experts" = .ok 1) (ha : assign ckpt 1 1 = .ok a)
    (hcore : (Shards.writeSafetensors codec ckpt a.core).toOption.isSome = true)
    (htable : ∀ p, ∃ name vals, a.table 0 0 p = some name ∧
      ckpt.view.readF32 name = .ok (vals, [1, 64]) ∧ vals.length = 64)
    (hjson : (packCodec.toVec (packMeta ckpt 1 1)).length ≤ 4080) :
    ∃ out, convert codec packCodec ops dir = .ok out ∧ out.layers = 1 ∧ out.experts = 1 := by
  cases hrun : Shards.writeSafetensors codec ckpt a.core with
  | error e =>
      rw [hrun] at hcore
      cases hcore
  | ok core =>
    have hregion : ∀ p, ∃ bytes, buildRegion ops ckpt.view (a.table 0 0) 0 0 p =
        some (.ok ⟨1, 64, bytes⟩) ∧ bytes.length = 34 := by
      intro p
      obtain ⟨name, vals, hname, hread, hvals⟩ := htable p
      obtain ⟨bytes, hbytes⟩ : ∃ bytes, buildRegion ops ckpt.view (a.table 0 0) 0 0 p =
          some (.ok ⟨1, 64, bytes⟩) := buildRegion_of_readF32 hname hread (by decide) hvals
      have hlength : bytes.length = 1 * (64 / GROUP) * 2 + 1 * (64 / GROUP) * (GROUP / 2) :=
        (buildRegion_isQ4 hbytes).length_bytes
      exact ⟨bytes, hbytes, hlength.trans (by decide)⟩
    obtain ⟨gate, hgate, hgateLen⟩ := hregion .gate
    obtain ⟨up, hup, hupLen⟩ := hregion .up
    obtain ⟨down, hdown, hdownLen⟩ := hregion .down
    have hblob : buildBlob ops ckpt.view (a.table 0 0) 0 0 =
        some (.ok (assembleBlob GROUP [⟨1, 64, gate⟩, ⟨1, 64, up⟩, ⟨1, 64, down⟩])) := by
      unfold buildBlob Proj.all
      simp [buildRegions, hgate, hup, hdown, Except.map]
    have hlength : (assembleBlob GROUP [⟨1, 64, gate⟩, ⟨1, 64, up⟩, ⟨1, 64, down⟩]).length = 134 := by
      simp [assembleBlob, hgateLen, hupLen, hdownLen]
    have htotal : (packMeta ckpt 1 1).total = 1 := rfl
    have hcursor : (PackWriter.create (packMeta ckpt 1 1)).cursor = 8192 := by
      show alignUp (blockAlign + (1 : UInt16).toNat * (1 : UInt16).toNat * indexEntryBytes) = 8192
      decide
    have hrows : (List.range (1 : UInt16).toNat).mapM
        (fun e => buildBlob ops ckpt.view (a.table 0 e) 0 e) =
          some [.ok (assembleBlob GROUP [⟨1, 64, gate⟩, ⟨1, 64, up⟩, ⟨1, 64, down⟩])] := by
      show ([0] : List Nat).mapM _ = _
      rw [List.mapM_cons, hblob, List.mapM_nil]
      rfl
    obtain ⟨w, hw, hindex, hmeta⟩ : ∃ w, packLayer ops ckpt a 1
        (PackWriter.create (packMeta ckpt 1 1)) 0 = .ok w ∧ w.index.length = 1 ∧
          w.packMeta = packMeta ckpt 1 1 := by
      unfold packLayer
      rw [hrows]
      simp only [List.foldlM_cons, List.foldlM_nil, addResult, PackWriter.addBlob, hlength]
      rw [if_neg (by show ¬ 0 = (packMeta ckpt 1 1).total; rw [htotal]; decide), if_neg (by rw [hcursor]; decide)]
      exact ⟨_, rfl, rfl, rfl⟩
    obtain ⟨pack, hpack⟩ : ∃ pack, w.finish packCodec = .ok pack := by
      unfold PackWriter.finish
      rw [hindex, hmeta, htotal, if_neg (by simp), if_neg (by show ¬ 4080 < _; omega)]
      exact ⟨_, rfl⟩
    refine ⟨⟨1, 1, pack, core.1, pack.length, core.2, a.core.length⟩, ?_, rfl, rfl⟩
    unfold convert
    rw [hckpt]
    show (configU16 ckpt "num_hidden_layers" >>= _) = _
    rw [hlayers]
    show (configU16 ckpt "num_experts" >>= _) = _
    rw [hexperts]
    show ((assign ckpt 1 1) >>= _) = _
    rw [ha]
    show ((Shards.writeSafetensors codec ckpt a.core).mapError ConvertError.core >>= _) = _
    rw [hrun]
    show (([0] : List Nat).foldlM (packLayer ops ckpt a 1)
      (PackWriter.create (packMeta ckpt 1 1)) >>= _) = _
    rw [List.foldlM_cons, hw]
    show ((w.finish packCodec).mapError ConvertError.pack >>= _) = _
    rw [hpack]
    rfl

def respelledNames : List String :=
  ["model.layers.0.mlp.experts.0.down_proj.weight", "model.layers.0.mlp.experts.0.gate_proj.weight",
    "model.layers.0.mlp.experts.0.up_proj.weight", "model.layers.00.mlp.experts.0.gate_proj.weight",
    "norm"]

/-- What the demo's proofs look up in the checkpoint of its directory. -/
def demoOpens (names : List String) (loc : Shards.TensorLoc) (gate : String) : Bool :=
  (Shards.Checkpoint.openDir (demoCodec names) (demoDir names)).toOption.any fun ckpt =>
    (ckpt.tensors.keys = names ∧ ckpt.tensors["norm"]? = some loc) ∧
    ((configU16 ckpt "num_hidden_layers").toOption = some 1 ∧
      (configU16 ckpt "num_experts").toOption = some 1) ∧
    ((assign ckpt 1 1).toOption.any fun a =>
      (a.table 0 0 .gate = some gate ∧
        (Shards.writeSafetensors (demoCodec names) ckpt a.core).toOption.isSome) ∧
      Proj.all.all fun p => (a.table 0 0 p).any fun name =>
        (ckpt.view.readF32 name).toOption.any fun r => r.1.length = 64 ∧ r.2 = [1, 64]) ∧
    (demoPackCodec.toVec (packMeta ckpt 1 1)).length ≤ 4080

theorem toOption_any {ε α : Type} {x : Except ε α} {f : α → Bool} (h : x.toOption.any f = true) :
    ∃ y, x = .ok y ∧ f y = true := by
  cases x with
  | error e => cases h
  | ok y => exact ⟨y, rfl, h⟩

theorem toOption_some {ε α : Type} {x : Except ε α} {y : α} (h : x.toOption = some y) :
    x = .ok y := by
  cases x with
  | error e => cases h
  | ok y => exact congrArg Except.ok (Option.some.inj h)

theorem demo_converts {names : List String} {loc : Shards.TensorLoc} {gate : String}
    (h : demoOpens names loc gate = true) : ∃ ckpt a out,
      Shards.Checkpoint.openDir (demoCodec names) (demoDir names) = .ok ckpt ∧
      ckpt.tensors.keys = names ∧ ckpt.tensors["norm"]? = some loc ∧ assign ckpt 1 1 = .ok a ∧
      a.table 0 0 .gate = some gate ∧ convert (demoCodec names) demoPackCodec zeroOps (demoDir names) = .ok out ∧
      out.layers = 1 ∧ out.experts = 1 := by
  obtain ⟨ckpt, hckpt, h⟩ := toOption_any h
  simp only [decide_eq_true_eq] at h
  obtain ⟨⟨hkeys, hloc⟩, ⟨hlayers, hexperts⟩, hassign, hjson⟩ := h
  obtain ⟨a, ha, hassign⟩ := toOption_any hassign
  simp only [decide_eq_true_eq] at hassign
  obtain ⟨⟨hgate, hcore⟩, htable⟩ := hassign
  have hrow : ∀ p, ∃ name vals, a.table 0 0 p = some name ∧
      ckpt.view.readF32 name = .ok (vals, [1, 64]) ∧ vals.length = 64 := by
    intro p
    have hp := List.all_eq_true.mp htable p (by cases p <;> decide)
    cases hname : a.table 0 0 p with
    | none =>
        rw [hname] at hp
        cases hp
    | some name =>
        rw [hname] at hp
        obtain ⟨r, hr, hsize⟩ := toOption_any hp
        simp only [decide_eq_true_eq] at hsize
        obtain ⟨vals, shape⟩ := r
        obtain rfl : shape = [1, 64] := hsize.2
        exact ⟨name, vals, rfl, hr, hsize.1⟩
  obtain ⟨out, hout, hone⟩ : ∃ out, convert (demoCodec names) demoPackCodec zeroOps
      (demoDir names) = .ok out ∧ out.layers = 1 ∧ out.experts = 1 :=
    convert_one hckpt (toOption_some hlayers) (toOption_some hexperts) ha hcore hrow hjson
  exact ⟨ckpt, a, out, hckpt, hkeys, hloc, ha, hgate, hout, hone⟩

theorem rdropWhile_spaces {bs : List UInt8} (hlast : bs.getLast? ≠ some 0x20)
    (spaces : Nat) : (bs ++ List.replicate spaces 0x20).rdropWhile (· = 0x20) = bs := by
  induction spaces with
  | zero =>
      rw [List.replicate_zero, List.append_nil, List.rdropWhile_eq_self_iff]
      intro hne hspace
      rw [List.getLast?_eq_getLast_of_ne_nil hne] at hlast
      exact hlast (congrArg some (of_decide_eq_true hspace))
  | succ n ih =>
      rw [List.replicate_succ', ← List.append_assoc, List.rdropWhile_concat_pos _ _ _ (by decide), ih]

/-- The header of the demo's core is decoded. -/
theorem demo_decodes {names : List String} {ckpt : Shards.Checkpoint} {a : Assignment}
    {loc : Shards.TensorLoc} (hcore : a.core = ["norm"]) (hloc : ckpt.tensors["norm"]? = some loc)
    (hdtype : loc.dtype = "BF16") (hshape : loc.shape = [1, 64]) (hsize : loc.size = .ok 128)
    (htexts : textBytes (demoHeader names) ≠ textBytes (demoHeader ["norm"]))
    {st : Shards.HeaderState} (h : Shards.makeHeader ckpt (a.core.map fun n => (n, n)) = .ok st) :
    (demoCodec names).Decodes (.obj st.header.toList) := by
  have hst : Json.obj st.header.toList = demoHeader ["norm"] := by
    have htensor : ckpt.tensor "norm" = .ok loc := by
      unfold Shards.Checkpoint.tensor
      rw [hloc]
    rw [hcore] at h
    obtain ⟨st', hst', h⟩ := ok_parts h
    cases h
    obtain ⟨loc', hloc', hst'⟩ := ok_parts hst'
    obtain rfl := Except.ok.inj (htensor.symm.trans hloc')
    obtain ⟨len, hlen, hst'⟩ := ok_parts hst'
    obtain rfl := Except.ok.inj (hsize.symm.trans hlen)
    cases hst'
    show Json.obj (Std.TreeMap.toList (Std.TreeMap.insert ∅ "norm" (Shards.headerEntry loc 0 128))) = _
    unfold Shards.headerEntry
    rw [hdtype, hshape]
    rfl
  intro spaces
  have hlast : (textBytes (demoHeader ["norm"])).getLast? ≠ some 0x20 := by decide
  have hconfig : textBytes demoConfig ≠ textBytes (demoHeader ["norm"]) := by decide
  rw [hst]
  show List.find? _ _ = _
  simp only [demoCodec, rdropWhile_spaces hlast]
  rw [List.find?_cons_of_neg (by simpa using hconfig), List.find?_cons_of_neg (by simpa using htexts),
    List.find?_cons_of_pos (by simp)]

theorem convert_lossless_one : ∃ out ckpt a,
    convert (demoCodec demoNames) demoPackCodec zeroOps (demoDir demoNames) = .ok out ∧
    Shards.Checkpoint.openDir (demoCodec demoNames) (demoDir demoNames) = .ok ckpt ∧
    ckpt.tensors.keys = demoNames ∧
    Lossless (demoCodec demoNames) ckpt out.layers out.experts a out.core := by
  obtain ⟨ckpt, a, out, hckpt, hkeys, hloc, ha, -, hout, hlayers, hexperts⟩ :=
    demo_converts (show demoOpens demoNames ⟨0, "BF16", [1, 64], 768, 896⟩
      "model.layers.0.mlp.experts.0.gate_proj.weight" = true by decide +kernel)
  have hcore : a.core = ["norm"] := by
    rw [(assigned ha).core, hkeys]
    decide
  obtain ⟨ckpt', a', blobs, hckpt', ha', -, -, -, hiff⟩ := convert_lossless_iff hout
    fun ckpt' a' st hckpt' ha' hst => by
      obtain rfl := Except.ok.inj (hckpt.symm.trans hckpt')
      rw [hlayers, hexperts] at ha'
      obtain rfl := Except.ok.inj (ha.symm.trans ha')
      exact demo_decodes hcore hloc rfl rfl rfl (by decide) hst
  obtain rfl := Except.ok.inj (hckpt.symm.trans hckpt')
  refine ⟨out, ckpt, a', hout, hckpt, hkeys, hiff.mpr (noRespelling_iff.mpr ?_)⟩
  have hinj : ∀ name ∈ demoNames, ∀ name' ∈ demoNames, (parseExpert name).isSome →
      parseExpert name = parseExpert name' → name = name' := by decide
  rw [hkeys]
  intro name hname name' hname' slot hslot hslot'
  exact hinj name hname name' hname' (by rw [hslot]; rfl) (hslot.trans hslot'.symm)

/-- Two spellings of one tensor's name: the one that comes first is in neither file. -/
theorem convert_loses_respelled : ∃ out ckpt a,
    convert (demoCodec respelledNames) demoPackCodec zeroOps (demoDir respelledNames) = .ok out ∧
    Shards.Checkpoint.openDir (demoCodec respelledNames) (demoDir respelledNames) = .ok ckpt ∧
    assign ckpt out.layers out.experts = .ok a ∧
    "model.layers.0.mlp.experts.0.gate_proj.weight" ∈ ckpt.tensors.keys ∧
    ¬ InCore (demoCodec respelledNames) ckpt out.core
      "model.layers.0.mlp.experts.0.gate_proj.weight" ∧
    (∀ slot, a.source slot ≠ some "model.layers.0.mlp.experts.0.gate_proj.weight") ∧
    ¬ Lossless (demoCodec respelledNames) ckpt out.layers out.experts a out.core := by
  obtain ⟨ckpt, a, out, hckpt, hkeys, hloc, ha, hgate, hout, hlayers, hexperts⟩ :=
    demo_converts (show demoOpens respelledNames ⟨0, "BF16", [1, 64], 1002, 1130⟩
      "model.layers.00.mlp.experts.0.gate_proj.weight" = true by decide +kernel)
  have hassigned := assigned ha
  have hcore : a.core = ["norm"] := by
    rw [hassigned.core, hkeys]
    decide
  have hlost : parseExpert "model.layers.0.mlp.experts.0.gate_proj.weight" =
      some ⟨0, 0, .gate⟩ := by decide
  have hmem : "model.layers.0.mlp.experts.0.gate_proj.weight" ∈ ckpt.tensors.keys := by
    rw [hkeys]
    decide
  have hsource : ∀ slot, a.source slot ≠ some "model.layers.0.mlp.experts.0.gate_proj.weight" := by
    intro slot hslot
    obtain rfl := Option.some.inj (hlost.symm.trans (hassigned.owner slot _ hslot).2)
    exact absurd (Option.some.inj (hgate.symm.trans hslot)) (by decide)
  obtain ⟨ckpt', a', n, w, hckpt', ha', hfile, -, -⟩ := convert_ok hout
  rw [hlayers, hexperts] at ha'
  obtain rfl := Except.ok.inj (hckpt.symm.trans hckpt')
  obtain rfl := Except.ok.inj (ha.symm.trans ha')
  have hin : ¬ InCore (demoCodec respelledNames) ckpt out.core
      "model.layers.0.mlp.experts.0.gate_proj.weight" := by
    rw [inCore_iff (Shards.Checkpoint.openDir_metadata hckpt) hassigned
      (fun st hst => demo_decodes hcore hloc rfl rfl rfl (by decide) hst) hfile hmem, hlost]
    simp
  refine ⟨out, ckpt, a, hout, hckpt, ?_, hmem, hin, hsource, fun hlossless => ?_⟩
  · rw [hlayers, hexperts]
    exact ha
  · rcases hlossless.kept _ hmem with hkept | hkept
    · exact hin hkept.1
    · obtain ⟨slot, hslot, -⟩ := hkept.2
      exact hsource slot hslot.2

end Qwen

end LlmPager
