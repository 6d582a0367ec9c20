import LlmPager.Convert.Shards
import LlmPager.Lib.Fallible

/-!
# LlmPager.Convert.OffsetRanges

What the two safetensors readers do with offsets that nobody has checked. Both go through the
tensors of a header in order: one without an array of offsets ends the loop with an error,
and one with fewer than two, or with one past the largest `u64` behind the header, is a panic
(`Header.load_cases`). What was listed last under a name is read, and that is the range of
the file that the offsets say unless they are out of order, too far apart for the allocator, or
equal and behind the end of the file (`readsRange_iff`).

Together: exactly on the headers that are `Header.Sound`, and on the directories that are
`Shards.Sound`, opening and reading answer as they should (`readers_total_iff`).
-/

namespace LlmPager

open Lib (Json JsonCodec slice Allocates)

/-! ### One read -/

/-- An error that is no panic, or an answer that is as it should be. -/
def Answers {α : Type} (good : α → Prop) : Except TensorError α → Prop
  | .error e => e ≠ .panic
  | .ok a => good a

/-- Exactly the bytes from `start` to `stop`. -/
def ReadsRange (file : List UInt8) (start stop : UInt64) :
    Except TensorError (List UInt8) → Prop :=
  Answers fun bytes => start ≤ stop ∧ stop.toNat ≤ file.length ∧
    bytes = slice start.toNat (stop.toNat - start.toNat) file

/-- What `raw` and `read_raw` do with a range. -/
def readRange (alloc : Nat → Bool) (file : List UInt8) (start stop : UInt64) :
    Except TensorError (List UInt8) :=
  if stop < start then .error .panic else readVec file (stop - start) start alloc

/-- **A range is read as it should be** if and only if its ends are in order, there is memory for
what is between them, and they are in the file where they are equal. -/
theorem readsRange_iff {alloc : Nat → Bool} {file : List UInt8} {start stop : UInt64} :
    ReadsRange file start stop (readRange alloc file start stop) ↔ start ≤ stop ∧
      Allocates alloc (stop.toNat - start.toNat) ∧ (start = stop → stop.toNat ≤ file.length) := by
  unfold readRange
  by_cases hlt : stop < start
  · rw [if_pos hlt]
    exact iff_of_false (fun h => h rfl) fun h => UInt64.not_le.mpr hlt h.1
  have hle : start ≤ stop := UInt64.not_lt.mp hlt
  have hle' : start.toNat ≤ stop.toNat := UInt64.le_iff_toNat_le.mp hle
  have hcount : (stop - start).toNat = stop.toNat - start.toNat := UInt64.toNat_sub_of_le _ _ hle
  rw [if_neg hlt, readVec, hcount]
  by_cases hroom : Allocates alloc (stop.toNat - start.toNat)
  swap
  · rw [if_neg hroom]
    exact iff_of_false (fun h => h rfl) fun h => hroom h.2.1
  rw [if_pos hroom, readExactAt]
  by_cases hempty : stop.toNat - start.toNat = 0
  · have heq : start = stop := UInt64.toNat_inj.mp (by omega)
    rw [if_pos hempty]
    subst heq
    simpa [ReadsRange, Answers, slice] using fun _ => hroom
  · have hne : start ≠ stop := by
      intro heq
      rw [heq, Nat.sub_self] at hempty
      exact hempty rfl
    rw [if_neg hempty]
    split
    · next hin =>
      exact iff_of_true ⟨hle, by omega, rfl⟩ ⟨hle, hroom, fun h => absurd h hne⟩
    · exact iff_of_true (by simp [ReadsRange, Answers]) ⟨hle, hroom, fun h => absurd h hne⟩

/-! ### The entries of a header -/

/-- `info["data_offsets"].as_array()`. -/
def dataOffsets (info : Json) : Option (List Json) := (info.get "data_offsets").asArray

/-- Two of the offsets, `0` where they are none. -/
def offsetOf (info : Json) (i : Nat) : UInt64 :=
  (((dataOffsets info).bind (·[i]?)).bind Json.asU64).getD 0

/-- There are two offsets, and both can be added to the base. -/
def Addable (dataBase : UInt64) (info : Json) : Prop :=
  (∀ offs, dataOffsets info = some offs → 2 ≤ offs.length) ∧
    ∀ i < 2, dataBase.toNat + (offsetOf info i).toNat < 2 ^ 64

/-- The offsets are in order, there is memory for what is between them, and they are in the file
where they are equal. -/
def Ranged (alloc : Nat → Bool) (length : Nat) (dataBase : UInt64) (info : Json) : Prop :=
  (offsetOf info 0).toNat ≤ (offsetOf info 1).toNat ∧
    Allocates alloc ((offsetOf info 1).toNat - (offsetOf info 0).toNat) ∧
    (offsetOf info 0 = offsetOf info 1 → dataBase.toNat + (offsetOf info 1).toNat ≤ length)

/-- What is listed for an entry. -/
def entryInfo (dataBase : UInt64) (info : Json) : TensorInfo where
  dtype := (info.get "dtype").asStr.getD ""
  shape := ((info.get "shape").asArray.map (List.filterMap Json.asU64)).getD []
  start := dataBase + offsetOf info 0
  stop := dataBase + offsetOf info 1

theorem tensorInfo_missing {dataBase : UInt64} {name : String} {info : Json}
    (h : dataOffsets info = none) : tensorInfo dataBase name info = .error (.missingOffsets name) := by
  unfold dataOffsets at h
  rw [tensorInfo, h]

theorem tensorInfo_short {dataBase : UInt64} {name : String} {info : Json} {offs : List Json}
    (h : dataOffsets info = some offs) (hlen : offs.length < 2) :
    tensorInfo dataBase name info = .error .panic := by
  unfold dataOffsets at h
  rw [tensorInfo, h]
  rcases offs with - | ⟨a, - | ⟨b, offs⟩⟩
  · rfl
  · rfl
  · simp at hlen

theorem tensorInfo_pair {dataBase : UInt64} {name : String} {info : Json} {offs : List Json}
    (h : dataOffsets info = some offs) (hlen : 2 ≤ offs.length) : tensorInfo dataBase name info = (do
      let start ← addOffset dataBase (offsetOf info 0)
      let stop ← addOffset dataBase (offsetOf info 1)
      return { entryInfo dataBase info with start := start, stop := stop }) := by
  unfold offsetOf
  rw [h]
  unfold dataOffsets at h
  rw [tensorInfo, h]
  rcases offs with - | ⟨a, - | ⟨b, offs⟩⟩
  · simp at hlen
  · simp at hlen
  · rfl

/-- What an entry comes to. -/
theorem tensorInfo_cases (dataBase : UInt64) (name : String) (info : Json) :
    dataOffsets info = none ∧ tensorInfo dataBase name info = .error (.missingOffsets name) ∨
      dataOffsets info ≠ none ∧ ¬ Addable dataBase info ∧
        tensorInfo dataBase name info = .error .panic ∨
      dataOffsets info ≠ none ∧ Addable dataBase info ∧
        tensorInfo dataBase name info = .ok (entryInfo dataBase info) := by
  cases hoffs : dataOffsets info with
  | none => exact Or.inl ⟨rfl, tensorInfo_missing hoffs⟩
  | some offs =>
      refine Or.inr ?_
      by_cases hlen : 2 ≤ offs.length
      · have hpair : tensorInfo dataBase name info = _ := tensorInfo_pair hoffs hlen
        by_cases h0 : 2 ^ 64 ≤ dataBase.toNat + (offsetOf info 0).toNat
        · refine Or.inl ⟨by simp, fun h => (h.2 0 (by decide)).not_ge h0, ?_⟩
          rw [hpair, addOffset_of_le h0]
          rfl
        by_cases h1 : 2 ^ 64 ≤ dataBase.toNat + (offsetOf info 1).toNat
        · refine Or.inl ⟨by simp, fun h => (h.2 1 (by decide)).not_ge h1, ?_⟩
          rw [hpair, addOffset_of_lt (not_le.mp h0), addOffset_of_le h1]
          rfl
        refine Or.inr ⟨by simp, ⟨?_, ?_⟩, ?_⟩
        · intro offs' hoffs'
          cases hoffs.symm.trans hoffs'
          exact hlen
        · intro i hi
          interval_cases i
          · exact not_le.mp h0
          · exact not_le.mp h1
        · rw [hpair, addOffset_of_lt (not_le.mp h0), addOffset_of_lt (not_le.mp h1)]
          rfl
      · exact Or.inl ⟨by simp, fun h => hlen (h.1 offs hoffs), tensorInfo_short hoffs (not_le.mp hlen)⟩

namespace Header

/-- The entries that are a tensor's. -/
def tensors (h : Header) : List (String × Json) := h.entries.filter fun kv => kv.1 ≠ "__metadata__"

def hasOffsets (kv : String × Json) : Bool := (dataOffsets kv.2).isSome

/-- No tensor is without an array of offsets. -/
def Complete (h : Header) : Prop := ∀ kv ∈ h.tensors, hasOffsets kv = true

/-- The tensors in front of the first one without such an array have offsets that can be added. -/
def Readable (h : Header) : Prop :=
  ∀ kv ∈ h.tensors.takeWhile hasOffsets, Addable h.dataBase kv.2

end Header

/-! ### The loop over the entries -/

section Load

variable {V : Type} (wrap : TensorInfo → V)

/-- One turn of the loop of either reader. -/
def loadEntry (dataBase : UInt64) (tensors : Std.TreeMap String V) (kv : String × Json) :
    Except TensorError (Std.TreeMap String V) :=
  if kv.1 = "__metadata__" then .ok tensors
  else (tensorInfo dataBase kv.1 kv.2).map fun info => tensors.insert kv.1 (wrap info)

theorem openEntry_eq (dataBase : UInt64) : SafeTensors.openEntry dataBase = loadEntry id dataBase := rfl

/-- The tensors of a header under their names, the last one of a name. -/
def listTensors (dataBase : UInt64) (kvs : List (String × Json)) (tensors : Std.TreeMap String V) :
    Std.TreeMap String V :=
  kvs.foldl (fun tensors kv => tensors.insert kv.1 (wrap (entryInfo dataBase kv.2))) tensors

/-- Metadata is passed over. -/
theorem foldlM_loadEntry_filter (dataBase : UInt64) (kvs : List (String × Json))
    (tensors : Std.TreeMap String V) : kvs.foldlM (loadEntry wrap dataBase) tensors =
      (kvs.filter fun kv => kv.1 ≠ "__metadata__").foldlM (loadEntry wrap dataBase) tensors := by
  induction kvs generalizing tensors with
  | nil => rfl
  | cons kv kvs ih =>
      rw [List.foldlM_cons]
      by_cases hmeta : kv.1 = "__metadata__"
      · rw [List.filter_cons_of_neg (by simpa using hmeta), ← ih, loadEntry, if_pos hmeta]
        rfl
      · rw [List.filter_cons_of_pos (by simpa using hmeta), List.foldlM_cons]
        exact congrArg _ (funext ih)

/-- What the loop over a header comes to. -/
theorem Header.load_cases (h : Header) (tensors : Std.TreeMap String V) :
    ¬ h.Readable ∧ h.entries.foldlM (loadEntry wrap h.dataBase) tensors = .error .panic ∨
      h.Readable ∧ ¬ h.Complete ∧
        (∃ name, h.entries.foldlM (loadEntry wrap h.dataBase) tensors = .error (.missingOffsets name)) ∨
      h.Readable ∧ h.Complete ∧ h.entries.foldlM (loadEntry wrap h.dataBase) tensors =
        .ok (listTensors wrap h.dataBase h.tensors tensors) := by
  rw [foldlM_loadEntry_filter]
  unfold Header.Readable Header.Complete
  show _ ∧ h.tensors.foldlM _ _ = _ ∨ _ ∧ _ ∧ (∃ name, h.tensors.foldlM _ _ = _) ∨
    _ ∧ _ ∧ h.tensors.foldlM _ _ = _
  have hnames : ∀ kv ∈ h.tensors, kv.1 ≠ "__metadata__" := by
    intro kv hkv
    simpa using (List.mem_filter.mp hkv).2
  generalize h.tensors = kvs at hnames
  induction kvs generalizing tensors with
  | nil => exact Or.inr (Or.inr ⟨by simp, by simp, rfl⟩)
  | cons kv kvs ih =>
      obtain ⟨hname, hnames⟩ := List.forall_mem_cons.mp hnames
      rw [List.foldlM_cons, loadEntry, if_neg hname]
      obtain ⟨hnone, hinfo⟩ | ⟨hsome, hbad, hinfo⟩ | ⟨hsome, hgood, hinfo⟩ :=
        tensorInfo_cases h.dataBase kv.1 kv.2
      · rw [hinfo]
        have hnot : ¬ Header.hasOffsets kv = true := by simp [Header.hasOffsets, hnone]
        refine Or.inr (Or.inl ⟨?_, fun hall => hnot (hall kv (by simp)), kv.1, rfl⟩)
        rw [List.takeWhile_cons_of_neg hnot]
        simp
      · have hhas : Header.hasOffsets kv = true := Option.isSome_iff_ne_none.mpr hsome
        rw [hinfo, List.takeWhile_cons_of_pos hhas]
        exact Or.inl ⟨fun hall => hbad (hall kv (by simp)), rfl⟩
      · have hhas : Header.hasOffsets kv = true := Option.isSome_iff_ne_none.mpr hsome
        rw [hinfo, List.takeWhile_cons_of_pos hhas, List.forall_mem_cons,
          List.forall_mem_cons, and_iff_right hgood, and_iff_right hhas]
        exact ih (tensors.insert kv.1 (wrap (entryInfo h.dataBase kv.2))) hnames

end Load

/-! ### One file -/

/-- Every tensor is read as it is listed. -/
def SafeTensors.Reads (alloc : Nat → Bool) (st : SafeTensors) : Prop :=
  ∀ (name : String) (info : TensorInfo), st.tensors[name]? = some info →
    ReadsRange st.file info.start info.stop ((st.raw name alloc).map Prod.fst)

/-- The tensors that are listed in the end have their ranges. -/
def Header.LastRanged (alloc : Nat → Bool) (h : Header) (length : Nat) : Prop :=
  ∀ before kv after, h.tensors = before ++ kv :: after → (∀ kv' ∈ after, kv'.1 ≠ kv.1) →
    Ranged alloc length h.dataBase kv.2

/-- The offsets can be read; and if all tensors have some, those that count have their ranges. -/
def Header.Sound (alloc : Nat → Bool) (h : Header) (length : Nat) : Prop :=
  h.Readable ∧ (h.Complete → h.LastRanged alloc length)

variable {alloc : Nat → Bool}

theorem ranged_iff {file : List UInt8} {dataBase : UInt64} {info : Json} (h : Addable dataBase info) :
    Ranged alloc file.length dataBase info ↔ ReadsRange file (entryInfo dataBase info).start
      (entryInfo dataBase info).stop (readRange alloc file (entryInfo dataBase info).start
        (entryInfo dataBase info).stop) := by
  have hsum : ∀ i < 2, (dataBase + offsetOf info i).toNat = dataBase.toNat + (offsetOf info i).toNat := by
    intro i hi
    rw [UInt64.toNat_add, Nat.mod_eq_of_lt (h.2 i hi)]
  have h0 := hsum 0 (by decide)
  have h1 := hsum 1 (by decide)
  have heq : dataBase + offsetOf info 0 = dataBase + offsetOf info 1 ↔ offsetOf info 0 = offsetOf info 1 := by
    rw [← UInt64.toNat_inj, ← UInt64.toNat_inj, h0, h1, Nat.add_left_cancel_iff]
  rw [readsRange_iff, UInt64.le_iff_toNat_le]
  show _ ↔ (dataBase + offsetOf info 0).toNat ≤ (dataBase + offsetOf info 1).toNat ∧
    Allocates alloc ((dataBase + offsetOf info 1).toNat - (dataBase + offsetOf info 0).toNat) ∧
      (dataBase + offsetOf info 0 = dataBase + offsetOf info 1 → _ ≤ _)
  rw [heq, h0, h1, Nat.add_le_add_iff_left, Nat.add_sub_add_left]
  show _ ↔ _ ∧ _ ∧ (_ → (dataBase + offsetOf info 1).toNat ≤ file.length)
  rw [h1]
  rfl

theorem raw_eq {st : SafeTensors} {name : String} {info : TensorInfo}
    (h : st.tensors[name]? = some info) :
    (st.raw name alloc).map Prod.fst = readRange alloc st.file info.start info.stop := by
  unfold SafeTensors.raw SafeTensors.info readRange
  rw [h]
  show Except.map _ (if info.stop < info.start then _ else _) = _
  split_ifs
  · rfl
  · cases readVec st.file (info.stop - info.start) info.start alloc <;> rfl

theorem Header.Complete.addable {h : Header} (hcomplete : h.Complete) (hreadable : h.Readable) :
    ∀ kv ∈ h.tensors, Addable h.dataBase kv.2 := by
  have hall : h.tensors.takeWhile Header.hasOffsets = h.tensors :=
    List.takeWhile_eq_self_iff.mpr hcomplete
  unfold Header.Readable at hreadable
  rwa [hall] at hreadable

theorem reads_list_iff {file : List UInt8} {h : Header}
    (haddable : ∀ kv ∈ h.tensors, Addable h.dataBase kv.2) :
    (SafeTensors.mk file (listTensors id h.dataBase h.tensors ∅)).Reads alloc ↔
      h.LastRanged alloc file.length := by
  have hranges : (SafeTensors.mk file (listTensors id h.dataBase h.tensors ∅)).Reads alloc ↔
      ∀ (name : String) (info : TensorInfo), (listTensors id h.dataBase h.tensors ∅)[name]? = some info →
        ReadsRange file info.start info.stop (readRange alloc file info.start info.stop) := by
    refine forall_congr' fun name => forall_congr' fun info => forall_congr' fun hget => ?_
    rw [raw_eq hget]
  refine hranges.trans (Lib.forall_getElem?_foldl_insert.trans ?_)
  refine forall_congr' fun before => forall_congr' fun kv => forall_congr' fun after =>
    forall_congr' fun hsplit => forall_congr' fun _ => ?_
  exact (ranged_iff (haddable kv (by rw [hsplit]; simp))).symm

theorem openFile_eq {codec : JsonCodec} {file : List UInt8} {h : Header}
    (hheader : readJsonHeader codec file alloc = .ok h) : SafeTensors.openFile codec file alloc =
      (h.entries.foldlM (loadEntry id h.dataBase) ∅).map (SafeTensors.mk file) := by
  rw [SafeTensors.openFile, hheader]
  show (h.entries.foldlM (SafeTensors.openEntry h.dataBase) ∅ >>= fun tensors => _) = _
  rw [openEntry_eq]
  cases h.entries.foldlM (loadEntry id h.dataBase) ∅ <;> rfl

/-- **One file**: opened or refused, and then read, as it should be, exactly if the header is sound. -/
theorem openFile_answers_iff {codec : JsonCodec} {file : List UInt8} {h : Header}
    (hheader : readJsonHeader codec file alloc = .ok h) :
    Answers (SafeTensors.Reads alloc) (SafeTensors.openFile codec file alloc) ↔
      h.Sound alloc file.length := by
  rw [openFile_eq hheader]
  obtain ⟨hbad, hload⟩ | ⟨hreadable, hincomplete, name, hload⟩ | ⟨hreadable, hcomplete, hload⟩ :=
    h.load_cases id ∅
  · rw [hload]
    exact iff_of_false (fun hne => hne rfl) fun hsound => hbad hsound.1
  · rw [hload]
    exact iff_of_true (by simp [Answers, Except.map]) ⟨hreadable, fun hc => absurd hc hincomplete⟩
  · rw [hload]
    refine (reads_list_iff (hcomplete.addable hreadable)).trans ?_
    exact ⟨fun hlast => ⟨hreadable, fun _ => hlast⟩, fun hsound => hsound.2 hcomplete⟩

/-! ### A directory -/

namespace Shards

/-- A shard that is there, and its header. -/
def found (alloc : Nat → Bool) (codec : JsonCodec) (dir : ModelDir) (name : String) :
    Option (List UInt8 × Header) :=
  (dir.files name).bind fun file => (readJsonHeader codec file alloc).toOption.map fun h => (file, h)

/-- The offsets can be read in every shard that is reached: a shard that is missing, or that has a
tensor without an array of offsets, is the last one. -/
def Readable (alloc : Nat → Bool) (codec : JsonCodec) (dir : ModelDir) : List String → Prop
  | [] => True
  | name :: names => ∀ s, found alloc codec dir name = some s →
      s.2.Readable ∧ (s.2.Complete → Readable alloc codec dir names)

/-- A tensor in a header, and where the header is. -/
structure Listing where
  fidx : Nat
  file : List UInt8
  dataBase : UInt64
  entry : String × Json

def Listing.loc (x : Listing) : TensorLoc :=
  let info := entryInfo x.dataBase x.entry.2
  ⟨x.fidx, info.dtype, info.shape, info.start, info.stop⟩

def listings (first : Nat) (shards : List (List UInt8 × Header)) : List Listing :=
  (shards.zipIdx first).flatMap fun s => s.1.2.tensors.map (Listing.mk s.2 s.1.1 s.1.2.dataBase)

/-- All shards are there, and all their tensors have offsets. -/
def Complete (alloc : Nat → Bool) (codec : JsonCodec) (dir : ModelDir) (names : List String)
    (shards : List (List UInt8 × Header)) : Prop :=
  names.map (found alloc codec dir) = shards.map some ∧ ∀ s ∈ shards, s.2.Complete

/-- The offsets can be read; and if all tensors have some, those that are listed in the end have
their ranges. -/
def Sound (alloc : Nat → Bool) (codec : JsonCodec) (dir : ModelDir) (names : List String) : Prop :=
  Readable alloc codec dir names ∧ ∀ shards, Complete alloc codec dir names shards →
    ∀ before x after, listings 0 shards = before ++ x :: after →
      (∀ y ∈ after, y.entry.1 ≠ x.entry.1) → Ranged alloc x.file.length x.dataBase x.entry.2

namespace Checkpoint

/-- Every tensor is read as it is listed. -/
def Reads (alloc : Nat → Bool) (ckpt : Checkpoint) : Prop :=
  ∀ (name : String) (loc : TensorLoc), ckpt.tensors[name]? = some loc → ∃ file, ckpt.files[loc.file]? = some file ∧
    ReadsRange file loc.start loc.stop (ckpt.readRaw loc alloc)

theorem readRaw_eq {ckpt : Checkpoint} {loc : TensorLoc} {file : List UInt8}
    (h : ckpt.files[loc.file]? = some file) :
    ckpt.readRaw loc alloc = readRange alloc file loc.start loc.stop := by
  unfold readRaw TensorLoc.size readRange
  rw [h]
  split_ifs
  · rfl
  · rfl

/-- The checkpoint with one more shard. -/
def push (ckpt : Checkpoint) (s : List UInt8 × Header) : Checkpoint :=
  { ckpt with
    files := ckpt.files ++ [s.1]
    tensors := listTensors (fun info =>
      ⟨ckpt.files.length, info.dtype, info.shape, info.start, info.stop⟩) s.2.dataBase s.2.tensors
      ckpt.tensors }

variable {codec : JsonCodec} {dir : ModelDir}

/-- The headers of the shards that are there can be parsed. -/
def Parses (alloc : Nat → Bool) (codec : JsonCodec) (dir : ModelDir) (name : String) : Prop :=
  ∀ file, dir.files name = some file → ∃ h, readJsonHeader codec file alloc = .ok h

theorem found_some {name : String} {file : List UInt8} {h : Header}
    (hfile : dir.files name = some file) (hheader : readJsonHeader codec file alloc = .ok h) :
    found alloc codec dir name = some (file, h) := by
  rw [found, hfile, Option.bind_some, hheader]
  rfl

/-- Where a tensor of the next shard is listed. -/
def locOf (ckpt : Checkpoint) (info : TensorInfo) : TensorLoc :=
  ⟨ckpt.files.length, info.dtype, info.shape, info.start, info.stop⟩

theorem openShard_eq {name : String} {file : List UInt8} {h : Header} (ckpt : Checkpoint)
    (hfile : dir.files name = some file) (hheader : readJsonHeader codec file alloc = .ok h) :
    openShard codec dir alloc ckpt name = (h.entries.foldlM (loadEntry ckpt.locOf h.dataBase)
      ckpt.tensors).map fun tensors =>
        { ckpt with files := ckpt.files ++ [file], tensors := tensors } := by
  rw [openShard, hfile]
  dsimp only
  rw [hheader]
  show (h.entries.foldlM (loadEntry ckpt.locOf h.dataBase) ckpt.tensors >>= fun tensors => _) = _
  cases h.entries.foldlM (loadEntry ckpt.locOf h.dataBase) ckpt.tensors <;> rfl

/-- What one turn of the loop over the shards comes to. -/
theorem openShard_cases {name : String} (hparses : Parses alloc codec dir name) (ckpt : Checkpoint) :
    (found alloc codec dir name = none ∧
      ∃ path, openShard codec dir alloc ckpt name = .error (.opening path)) ∨
    ∃ s, found alloc codec dir name = some s ∧
      (¬ s.2.Readable ∧ openShard codec dir alloc ckpt name = .error .panic ∨
        s.2.Readable ∧ ¬ s.2.Complete ∧
          (∃ tensor, openShard codec dir alloc ckpt name = .error (.missingOffsets tensor)) ∨
        s.2.Readable ∧ s.2.Complete ∧ openShard codec dir alloc ckpt name = .ok (ckpt.push s)) := by
  cases hfile : dir.files name with
  | none =>
      refine Or.inl ⟨by rw [found, hfile, Option.bind_none], dir.path ++ "/" ++ name, ?_⟩
      rw [openShard, hfile]
  | some file =>
      obtain ⟨h, hheader⟩ := hparses file hfile
      rw [openShard_eq ckpt hfile hheader, found_some hfile hheader]
      refine Or.inr ⟨(file, h), rfl, ?_⟩
      obtain ⟨hbad, hload⟩ | ⟨hreadable, hincomplete, tensor, hload⟩ | ⟨hreadable, hcomplete, hload⟩ :=
        h.load_cases ckpt.locOf ckpt.tensors
      · rw [hload]
        exact Or.inl ⟨hbad, rfl⟩
      · rw [hload]
        exact Or.inr (Or.inl ⟨hreadable, hincomplete, tensor, rfl⟩)
      · rw [hload]
        exact Or.inr (Or.inr ⟨hreadable, hcomplete, rfl⟩)

theorem complete_cons_iff {name : String} {names : List String} {shards : List (List UInt8 × Header)} :
    Complete alloc codec dir (name :: names) shards ↔ ∃ s shards', shards = s :: shards' ∧
      found alloc codec dir name = some s ∧ s.2.Complete ∧ Complete alloc codec dir names shards' := by
  unfold Complete
  constructor
  · intro h
    obtain ⟨hfound, hcomplete⟩ := h
    cases shards with
    | nil => cases hfound
    | cons s shards =>
        obtain ⟨hs, hshards⟩ := List.cons.inj hfound
        obtain ⟨hc, hcs⟩ := List.forall_mem_cons.mp hcomplete
        exact ⟨s, shards, rfl, hs, hc, hshards, hcs⟩
  · intro h
    obtain ⟨s, shards, rfl, hs, hc, hshards, hcs⟩ := h
    exact ⟨by rw [List.map_cons, List.map_cons, hs, hshards], List.forall_mem_cons.mpr ⟨hc, hcs⟩⟩

/-- What the loop over the shards comes to. -/
theorem foldlM_openShard_cases {names : List String} (hparses : ∀ name ∈ names, Parses alloc codec dir name)
    (ckpt : Checkpoint) :
    ¬ Readable alloc codec dir names ∧ names.foldlM (openShard codec dir alloc) ckpt = .error .panic ∨
      Readable alloc codec dir names ∧ (∀ shards, ¬ Complete alloc codec dir names shards) ∧
        (∃ e, e ≠ .panic ∧ names.foldlM (openShard codec dir alloc) ckpt = .error e) ∨
      Readable alloc codec dir names ∧ ∃ shards, Complete alloc codec dir names shards ∧
        names.foldlM (openShard codec dir alloc) ckpt = .ok (shards.foldl push ckpt) := by
  induction names generalizing ckpt with
  | nil => exact Or.inr (Or.inr ⟨trivial, [], ⟨rfl, by simp⟩, rfl⟩)
  | cons name names ih =>
      obtain ⟨hparse, hparses⟩ := List.forall_mem_cons.mp hparses
      rw [List.foldlM_cons]
      obtain ⟨hnone, path, hopen⟩ | ⟨s, hs, hturn⟩ := openShard_cases hparse ckpt
      · rw [hopen]
        refine Or.inr (Or.inl ⟨?_, ?_, .opening path, by simp, rfl⟩)
        · intro s hs
          cases hnone.symm.trans hs
        · intro shards hcomplete
          obtain ⟨s, -, -, hs, -⟩ := complete_cons_iff.mp hcomplete
          cases hnone.symm.trans hs
      · have hreadable_iff : Readable alloc codec dir (name :: names) ↔
            s.2.Readable ∧ (s.2.Complete → Readable alloc codec dir names) := by
          constructor
          · exact fun h => h s hs
          · intro h s' hs'
            cases hs.symm.trans hs'
            exact h
        rw [hreadable_iff]
        obtain ⟨hbad, hopen⟩ | ⟨hreadable, hincomplete, tensor, hopen⟩ | ⟨hreadable, hcomplete, hopen⟩ :=
          hturn
        · rw [hopen]
          exact Or.inl ⟨fun h => hbad h.1, rfl⟩
        · rw [hopen]
          refine Or.inr (Or.inl ⟨⟨hreadable, fun hc => absurd hc hincomplete⟩, ?_,
            .missingOffsets tensor, by simp, rfl⟩)
          intro shards hall
          obtain ⟨s', -, -, hs', hc, -⟩ := complete_cons_iff.mp hall
          cases hs.symm.trans hs'
          exact hincomplete hc
        · rw [hopen, and_iff_right hreadable, forall_prop_of_true hcomplete]
          obtain ⟨hbad, hrun⟩ | ⟨hok, hnone, e, he, hrun⟩ | ⟨hok, shards, hall, hrun⟩ :=
            ih hparses (ckpt.push s)
          · exact Or.inl ⟨hbad, hrun⟩
          · refine Or.inr (Or.inl ⟨hok, ?_, e, he, hrun⟩)
            intro shards hall
            obtain ⟨-, shards', -, -, -, hall'⟩ := complete_cons_iff.mp hall
            exact hnone shards' hall'
          · exact Or.inr (Or.inr ⟨hok, s :: shards,
              complete_cons_iff.mpr ⟨s, shards, rfl, hs, hcomplete, hall⟩, hrun⟩)

theorem listings_cons (first : Nat) (s : List UInt8 × Header) (shards : List (List UInt8 × Header)) :
    listings first (s :: shards) =
      s.2.tensors.map (Listing.mk first s.1 s.2.dataBase) ++ listings (first + 1) shards := by
  rw [listings, List.zipIdx_cons, List.flatMap_cons, ← listings]

/-- What is listed of the shards, when all could be read. -/
theorem foldl_push (shards : List (List UInt8 × Header)) (ckpt : Checkpoint) :
    (shards.foldl push ckpt).files = ckpt.files ++ shards.map Prod.fst ∧
      (shards.foldl push ckpt).tensors = (listings ckpt.files.length shards).foldl
        (fun tensors x => tensors.insert x.entry.1 x.loc) ckpt.tensors := by
  induction shards generalizing ckpt with
  | nil => exact ⟨(List.append_nil _).symm, rfl⟩
  | cons s shards ih =>
      obtain ⟨hfiles, htensors⟩ := ih (ckpt.push s)
      have hcount : (ckpt.push s).files.length = ckpt.files.length + 1 := List.length_append
      rw [List.foldl_cons]
      refine ⟨?_, ?_⟩
      · rw [hfiles, List.map_cons]
        show ckpt.files ++ [s.1] ++ _ = _
        rw [List.append_assoc, List.singleton_append]
      · rw [htensors, hcount, listings_cons, List.foldl_append, List.foldl_map]
        rfl

/-- A listing's file is where it says. -/
theorem getElem?_listing {shards : List (List UInt8 × Header)} {x : Listing}
    (hx : x ∈ listings 0 shards) : (shards.map Prod.fst)[x.loc.file]? = some x.file ∧
      ∃ s ∈ shards, x.dataBase = s.2.dataBase ∧ x.entry ∈ s.2.tensors := by
  obtain ⟨s, hs, hx⟩ := List.mem_flatMap.mp hx
  obtain ⟨kv, hkv, rfl⟩ := List.mem_map.mp hx
  have hget := List.mem_zipIdx_iff_getElem?.mp hs
  refine ⟨?_, s.1, List.mem_of_getElem? hget, rfl, hkv⟩
  show (shards.map Prod.fst)[s.2]? = some s.1.1
  rw [List.getElem?_map, hget]
  rfl

theorem readable_of_complete {names : List String} {shards : List (List UInt8 × Header)}
    (hall : Complete alloc codec dir names shards) (hreadable : Readable alloc codec dir names) :
    ∀ s ∈ shards, s.2.Readable := by
  induction names generalizing shards with
  | nil =>
      cases List.map_eq_nil_iff.mp hall.1.symm
      simp
  | cons name names ih =>
      obtain ⟨s, shards, rfl, hs, hcomplete, hall⟩ := complete_cons_iff.mp hall
      obtain ⟨hr, hrest⟩ := hreadable s hs
      exact List.forall_mem_cons.mpr ⟨hr, ih hall (hrest hcomplete)⟩

theorem reads_push_iff {names : List String} {shards : List (List UInt8 × Header)} {config : Json}
    (hall : Complete alloc codec dir names shards) (hreadable : Readable alloc codec dir names) :
    (shards.foldl push ⟨[], ∅, config⟩).Reads alloc ↔
      ∀ before x after, listings 0 shards = before ++ x :: after →
        (∀ y ∈ after, y.entry.1 ≠ x.entry.1) → Ranged alloc x.file.length x.dataBase x.entry.2 := by
  obtain ⟨hfiles, htensors⟩ := foldl_push shards ⟨[], ∅, config⟩
  generalize shards.foldl push ⟨[], ∅, config⟩ = ckpt at *
  rw [List.nil_append] at hfiles
  have htensors : ckpt.tensors = (listings 0 shards).foldl
      (fun tensors x => tensors.insert x.entry.1 x.loc) ∅ := htensors
  unfold Reads
  rw [htensors]
  refine Lib.forall_getElem?_foldl_insert.trans ?_
  refine forall_congr' fun before => forall_congr' fun x => forall_congr' fun after =>
    forall_congr' fun hsplit => forall_congr' fun _ => ?_
  have hx : x ∈ listings 0 shards := by
    rw [hsplit]
    simp
  obtain ⟨hfile, s, hs, hbase, hentry⟩ := getElem?_listing hx
  rw [← hfiles] at hfile
  have haddable : Addable x.dataBase x.entry.2 := hbase ▸
    (hall.2 s hs).addable (readable_of_complete hall hreadable s hs) x.entry hentry
  rw [ranged_iff haddable]
  constructor
  · intro h
    obtain ⟨file, hfile', hreads⟩ := h
    cases hfile.symm.trans hfile'
    rwa [readRaw_eq hfile] at hreads
  · intro h
    exact ⟨x.file, hfile, (readRaw_eq hfile).symm ▸ h⟩

theorem parse_ne_panic (bytes : List UInt8) : parse codec bytes ≠ .error .panic := by
  unfold parse
  split <;> simp

theorem readConfig_ne_panic : readConfig codec dir ≠ .error .panic := by
  unfold readConfig
  split
  · exact parse_ne_panic _
  · simp

theorem shardNames_ne_panic : shardNames codec dir ≠ .error .panic := by
  intro h
  unfold shardNames at h
  split at h
  · cases h
  · next bytes _ =>
    cases hidx : parse codec bytes with
    | error e =>
        rw [hidx] at h
        cases h
        exact parse_ne_panic bytes hidx
    | ok idx =>
        cases hmap : (idx.get "weight_map").asObject <;>
          simp [hidx, hmap, bind, Except.bind, pure, Except.pure] at h

theorem openDir_of_names {config : Json} {names : List String}
    (hconfig : readConfig codec dir = .ok config) (hnames : shardNames codec dir = .ok names) :
    openDir codec dir alloc = names.foldlM (openShard codec dir alloc) ⟨[], ∅, config⟩ := by
  rw [openDir, hconfig]
  show (shardNames codec dir >>= fun names => _) = _
  rw [hnames]
  rfl

/-- Without a configuration or an index there is an error. -/
theorem openDir_cases (alloc : Nat → Bool) (codec : JsonCodec) (dir : ModelDir) : (∃ e, e ≠ .panic ∧ openDir codec dir alloc = .error e ∧
      ∀ config names, readConfig codec dir = .ok config → shardNames codec dir ≠ .ok names) ∨
    ∃ config names, readConfig codec dir = .ok config ∧ shardNames codec dir = .ok names := by
  cases hconfig : readConfig codec dir with
  | error e =>
      refine Or.inl ⟨e, fun he => readConfig_ne_panic (he ▸ hconfig), ?_, by simp⟩
      rw [openDir, hconfig]
      rfl
  | ok config =>
      cases hnames : shardNames codec dir with
      | error e =>
          refine Or.inl ⟨e, fun he => shardNames_ne_panic (he ▸ hnames), ?_, by simp⟩
          rw [openDir, hconfig]
          show (shardNames codec dir >>= fun names => _) = _
          rw [hnames]
          rfl
      | ok names => exact Or.inr ⟨config, names, rfl, rfl⟩

/-- **A directory**: opened or refused, and then read, as it should be, exactly if its shards are
sound. -/
theorem openDir_answers_iff (hparses : ∀ names, shardNames codec dir = .ok names →
    ∀ name ∈ names, Parses alloc codec dir name) :
    Answers (Reads alloc) (openDir codec dir alloc) ↔ ∀ config names, readConfig codec dir = .ok config →
      shardNames codec dir = .ok names → Sound alloc codec dir names := by
  obtain ⟨e, he, hopen, hnone⟩ | ⟨config, names, hconfig, hnames⟩ := openDir_cases alloc codec dir
  · rw [hopen]
    exact iff_of_true he fun config names hconfig hnames => absurd hnames (hnone config names hconfig)
  have hsound : (∀ config names, readConfig codec dir = .ok config →
      shardNames codec dir = .ok names → Sound alloc codec dir names) ↔ Sound alloc codec dir names := by
    constructor
    · exact fun h => h config names hconfig hnames
    · intro h _ names' _ hnames'
      cases hnames.symm.trans hnames'
      exact h
  rw [hsound, openDir_of_names hconfig hnames]
  obtain ⟨hbad, hrun⟩ | ⟨hok, hnone, e, he, hrun⟩ | ⟨hok, shards, hall, hrun⟩ :=
    foldlM_openShard_cases (hparses names hnames) ⟨[], ∅, config⟩
  · rw [hrun]
    exact iff_of_false (fun hne => hne rfl) fun hsound => hbad hsound.1
  · rw [hrun]
    exact iff_of_true he ⟨hok, fun shards hall => absurd hall (hnone shards)⟩
  · rw [hrun]
    refine (reads_push_iff hall hok).trans ⟨fun h => ⟨hok, ?_⟩, fun h => h.2 shards hall⟩
    intro shards' hall'
    have heq : shards = shards' := List.map_injective_iff.mpr (Option.some_injective _)
      (hall.1.symm.trans hall'.1)
    exact heq ▸ h

end Checkpoint

end Shards

/-- **Both readers answer as they should on a header if and only if it is sound**: on one file, and
on the shards of a directory. -/
theorem readers_total_iff (codec : JsonCodec) (alloc : Nat → Bool) :
    (∀ file h, readJsonHeader codec file alloc = .ok h →
      (Answers (SafeTensors.Reads alloc) (SafeTensors.openFile codec file alloc) ↔
        h.Sound alloc file.length)) ∧
    ∀ dir, (∀ names, Shards.Checkpoint.shardNames codec dir = .ok names →
        ∀ name ∈ names, Shards.Checkpoint.Parses alloc codec dir name) →
      (Answers (Shards.Checkpoint.Reads alloc) (Shards.Checkpoint.openDir codec dir alloc) ↔
        ∀ config names, Shards.Checkpoint.readConfig codec dir = .ok config →
          Shards.Checkpoint.shardNames codec dir = .ok names → Shards.Sound alloc codec dir names) :=
  ⟨fun _ _ => openFile_answers_iff, fun _ => Shards.Checkpoint.openDir_answers_iff⟩

/-! ### One offset, and two -/

/-- A tensor without data. -/
def offsetHeader (offsets : List Json) : Json := .obj [("t", .obj [("data_offsets", .arr offsets)])]

/-- A tensor with one offset instead of two. -/
def oneText : List UInt8 := "\x7b\"t\":\x7b\"data_offsets\":[0]\x7d\x7d".toList.map fun c =>
  UInt8.ofNat c.toNat

def twoText : List UInt8 := "\x7b\"t\":\x7b\"data_offsets\":[0,1]\x7d\x7d".toList.map fun c =>
  UInt8.ofNat c.toNat

/-- On these texts the codec is as `serde_json` is. -/
def offsetCodec : JsonCodec where
  toVec _ := twoText
  fromSlice bs :=
    if bs = oneText then some (offsetHeader [.num 0])
    else if bs = twoText then some (offsetHeader [.num 0, .num 1])
    else none

def offsetFile (text : List UInt8) : List UInt8 := Lib.leBytes 8 text.length ++ text ++ [7]

/-- What is read of such a file. -/
def offsetEntry (offsets : List Json) : String × Json :=
  ("t", .obj [("data_offsets", .arr offsets)])

theorem oneOffset_header : readJsonHeader offsetCodec (offsetFile oneText) =
    .ok ⟨34, [offsetEntry [.num 0]]⟩ := rfl

/-- A heap of one page. -/
def pageHeap (bytes : Nat) : Bool := bytes ≤ 4096

theorem twoOffsets_header : readJsonHeader offsetCodec (offsetFile twoText) pageHeap =
    .ok ⟨36, [offsetEntry [.num 0, .num 1]]⟩ := rfl

theorem oneOffset_panics :
    (∃ h, readJsonHeader offsetCodec (offsetFile oneText) = .ok h) ∧
    ¬ Answers (SafeTensors.Reads fun _ => true)
      (SafeTensors.openFile offsetCodec (offsetFile oneText)) := by
  refine ⟨⟨_, oneOffset_header⟩, ?_⟩
  rw [openFile_answers_iff oneOffset_header]
  intro hsound
  have haddable := hsound.1 (offsetEntry [.num 0]) (List.mem_singleton_self _)
  exact absurd (haddable.1 [.num 0] rfl) (by decide)

theorem twoOffsets_read : Answers (SafeTensors.Reads pageHeap)
    (SafeTensors.openFile offsetCodec (offsetFile twoText) pageHeap) := by
  refine ((readers_total_iff offsetCodec pageHeap).1 _ _ twoOffsets_header).mpr ⟨?_, ?_⟩
  · intro kv hkv
    have hkv : kv ∈ [offsetEntry [.num 0, .num 1]] := hkv
    cases List.mem_singleton.mp hkv
    refine ⟨?_, by decide⟩
    intro offs hoffs
    cases hoffs
    decide
  · intro _ before kv after hsplit _
    have hkv : kv ∈ [offsetEntry [.num 0, .num 1]] := by
      rw [show [offsetEntry [.num 0, .num 1]] = before ++ kv :: after from hsplit]
      simp
    cases List.mem_singleton.mp hkv
    exact ⟨by decide, by decide, by decide⟩

end LlmPager
