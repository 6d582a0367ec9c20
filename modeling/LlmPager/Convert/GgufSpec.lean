import LlmPager.Convert.Gguf

/-!
# LlmPager.Convert.GgufSpec

The layout of a GGUF header, and the walk over it. Every header that is walked over is the
encoding of key/values and tensor infos, and every such encoding is walked over
(`reads_readParts`): so `skip_value` takes the bytes of its value and no others, whatever
follows (`skipValue_encode`), and the tensors are those that were listed
(`openFiles_header`).

The walk panics on the headers that begin with such an encoding and go on with a length
that is no `usize` from there, with a count that the machine has no memory for, with arrays
nested deeper than its stack, or that have no alignment or an offset past the largest
(`walk_total_iff`).
-/

namespace LlmPager

open Lib (Cursor Reads leNat leBytes times parseUnsigned reads_times reads_take_fixed)
open Lib.Cursor (Advance)

namespace Gguf

/-! ### Values -/

/-- The types of a fixed size. -/
inductive FixedTy
  | uint8
  | int8
  | uint16
  | int16
  | uint32
  | int32
  | float32
  | bool
  | uint64
  | int64
  | float64
  deriving Repr, DecidableEq

namespace FixedTy

def tag : FixedTy → UInt32
  | uint8 => 0
  | int8 => 1
  | uint16 => 2
  | int16 => 3
  | uint32 => 4
  | int32 => 5
  | float32 => 6
  | bool => 7
  | uint64 => 10
  | int64 => 11
  | float64 => 12

def width : FixedTy → Nat
  | uint8 | int8 | bool => 1
  | uint16 | int16 => 2
  | uint32 | int32 | float32 => 4
  | uint64 | int64 | float64 => 8

/-- The text that is kept; that of an `int32` or `int64` is of the number without a sign. -/
def text (bytes : List UInt8) : FixedTy → Option String
  | uint32 | int32 => some (toString (UInt32.ofNat (leNat bytes)))
  | uint64 | int64 => some (toString (UInt64.ofNat (leNat bytes)))
  | bool => some (toString (decide (bytes.getD 0 0 ≠ 0)))
  | _ => none

end FixedTy

/-- A value of a key, or of an array. -/
inductive Value
  | fixed (ty : FixedTy) (bytes : List UInt8)
  | string (s : List UInt8)
  | array (ety : UInt32) (vs : List Value)

def encodeString (s : List UInt8) : List UInt8 := leBytes 8 s.length ++ s

namespace Value

def tag : Value → UInt32
  | fixed ty _ => ty.tag
  | string _ => 8
  | array _ _ => 9

def text : Value → Option String
  | fixed ty bytes => ty.text bytes
  | string s => some (lossy s)
  | array _ _ => none

mutual

def encode : Value → List UInt8
  | fixed _ bytes => bytes
  | string s => encodeString s
  | array ety vs => leBytes 4 ety.toNat ++ (leBytes 8 vs.length ++ encodeAll vs)

def encodeAll : List Value → List UInt8
  | [] => []
  | v :: vs => encode v ++ encodeAll vs

end

mutual

/-- A value has its size, an array elements of one type. -/
def WellFormed : Value → Prop
  | fixed ty bytes => bytes.length = ty.width
  | string s => s.length < 2 ^ 64
  | array ety vs => vs.length < 2 ^ 64 ∧ AllWellFormed ety vs

def AllWellFormed (ety : UInt32) : List Value → Prop
  | [] => True
  | v :: vs => (v.tag = ety ∧ WellFormed v) ∧ AllWellFormed ety vs

end

mutual

/-- How deep arrays are nested, and calls with them. -/
def depth : Value → Nat
  | fixed _ _ => 1
  | string _ => 1
  | array _ vs => depthAll vs + 1

def depthAll : List Value → Nat
  | [] => 0
  | v :: vs => max (depth v) (depthAll vs)

end

theorem encodeAll_eq (vs : List Value) : encodeAll vs = vs.flatMap encode := by
  induction vs with
  | nil => rfl
  | cons v vs ih => rw [encodeAll, ih, List.flatMap_cons]

theorem allWellFormed_iff {ety : UInt32} {vs : List Value} :
    AllWellFormed ety vs ↔ ∀ v ∈ vs, v.tag = ety ∧ v.WellFormed := by
  induction vs with
  | nil => simp [AllWellFormed]
  | cons v vs ih => rw [AllWellFormed, ih, List.forall_mem_cons]

theorem depthAll_le_iff {n : Nat} {vs : List Value} : depthAll vs ≤ n ↔ ∀ v ∈ vs, v.depth ≤ n := by
  induction vs with
  | nil => simp [depthAll]
  | cons v vs ih => rw [depthAll, max_le_iff, ih, List.forall_mem_cons]

end Value

/-! ### Numbers and strings -/

theorem reads_u32 : Reads .panic u32 (fun bytes n => bytes = leBytes 4 n.toNat) fun _ _ => False := by
  refine ((reads_take_fixed (by decide) (by decide)).map).congr ?_ (fun _ _ _ => Iff.rfl)
  intro bytes n
  constructor
  · intro h
    obtain ⟨b, ⟨rfl, hlen⟩, rfl⟩ := h
    have hlt := Lib.leNat_lt b
    have hbytes := Lib.leBytes_leNat b
    rw [hlen] at hlt hbytes
    rw [UInt32.toNat_ofNat', Nat.mod_eq_of_lt (hlt.trans_eq (by decide)), hbytes]
  · intro h
    subst h
    refine ⟨_, ⟨rfl, Lib.length_leBytes 4 _⟩, ?_⟩
    rw [Lib.leNat_leBytes_of_lt n.toNat_lt, UInt32.ofNat_toNat]

theorem reads_u64 : Reads .panic u64 (fun bytes n => bytes = leBytes 8 n.toNat) fun _ _ => False := by
  refine ((reads_take_fixed (by decide) (by decide)).map).congr ?_ (fun _ _ _ => Iff.rfl)
  intro bytes n
  constructor
  · intro h
    obtain ⟨b, ⟨rfl, hlen⟩, rfl⟩ := h
    have hlt := Lib.leNat_lt b
    have hbytes := Lib.leBytes_leNat b
    rw [hlen] at hlt hbytes
    rw [UInt64.toNat_ofNat', Nat.mod_eq_of_lt (hlt.trans_eq (by decide)), hbytes]
  · intro h
    subst h
    refine ⟨_, ⟨rfl, Lib.length_leBytes 8 _⟩, ?_⟩
    rw [Lib.leNat_leBytes_of_lt n.toNat_lt, UInt64.ofNat_toNat]

/-- A length that is no `usize` from here. -/
def BadString (pos : Nat) (rest : List UInt8) : Prop :=
  ∃ (n : UInt64) (tail : List UInt8), rest = leBytes 8 n.toNat ++ tail ∧ 2 ^ 64 ≤ pos + 8 + n.toNat

theorem reads_string : Reads .panic string
    (fun bytes s => ∃ raw : List UInt8, raw.length < 2 ^ 64 ∧ bytes = encodeString raw ∧ s = lossy raw)
    BadString := by
  refine (reads_u64.bind fun n => (Lib.reads_take (by decide) n.toNat).map).congr ?_ ?_
  · intro bytes s
    constructor
    · intro h
      obtain ⟨_, n, raw, rfl, rfl, _, ⟨rfl, hlen⟩, rfl⟩ := h
      refine ⟨_, hlen ▸ n.toNat_lt, ?_, rfl⟩
      rw [encodeString, hlen]
    · intro h
      obtain ⟨raw, hlt, rfl, rfl⟩ := h
      have hlen : (UInt64.ofNat raw.length).toNat = raw.length := by
        rw [UInt64.toNat_ofNat', Nat.mod_eq_of_lt hlt]
      refine ⟨_, UInt64.ofNat raw.length, raw, rfl, ?_, raw, ⟨rfl, hlen.symm⟩, rfl⟩
      rw [hlen]
  · intro pos rest _
    constructor
    · intro h
      obtain ⟨_, n, tail, rfl, rfl, hwrap⟩ := h.resolve_left id
      rw [Lib.length_leBytes] at hwrap
      exact ⟨n, tail, rfl, hwrap⟩
    · intro h
      obtain ⟨n, tail, rfl, hwrap⟩ := h
      refine Or.inr ⟨_, n, tail, rfl, rfl, ?_⟩
      rwa [Lib.length_leBytes]

/-! ### `skip_value` -/

theorem tag_cases (ty : UInt32) : (∃ f : FixedTy, ty = f.tag) ∨ ty = 8 ∨ ty = 9 ∨ 12 < ty.toNat := by
  by_cases hle : ty.toNat ≤ 12
  · have hty : ty = UInt32.ofNat ty.toNat := UInt32.ofNat_toNat.symm
    generalize ty.toNat = n at *
    subst hty
    interval_cases n
    · exact Or.inl ⟨.uint8, rfl⟩
    · exact Or.inl ⟨.int8, rfl⟩
    · exact Or.inl ⟨.uint16, rfl⟩
    · exact Or.inl ⟨.int16, rfl⟩
    · exact Or.inl ⟨.uint32, rfl⟩
    · exact Or.inl ⟨.int32, rfl⟩
    · exact Or.inl ⟨.float32, rfl⟩
    · exact Or.inl ⟨.bool, rfl⟩
    · exact Or.inr (Or.inl rfl)
    · exact Or.inr (Or.inr (Or.inl rfl))
    · exact Or.inl ⟨.uint64, rfl⟩
    · exact Or.inl ⟨.int64, rfl⟩
    · exact Or.inl ⟨.float64, rfl⟩
  · exact Or.inr (Or.inr (Or.inr (by omega)))

/-- A value of a fixed size. -/
theorem skipValue_fixed (stack : Nat) (f : FixedTy) : skipValue (stack + 1) f.tag = (do
    let b ← take f.width
    pure (f.text b)) := by
  have h32 : (do let n ← u32; pure (some (toString n)) : Walk (Option String)) = (do
      let b ← take 4
      pure (some (toString (UInt32.ofNat (leNat b))))) := by
    rw [u32, bind_assoc]
    rfl
  have h64 : (do let n ← u64; pure (some (toString n)) : Walk (Option String)) = (do
      let b ← take 8
      pure (some (toString (UInt64.ofNat (leNat b))))) := by
    rw [u64, bind_assoc]
    rfl
  cases f
  case uint32 => exact h32
  case int32 => exact h32
  case uint64 => exact h64
  case int64 => exact h64
  all_goals rfl

theorem skipValue_string (stack : Nat) : skipValue (stack + 1) 8 = (do
    let s ← string
    pure (some s)) := rfl

theorem skipValue_array (stack : Nat) : skipValue (stack + 1) 9 = (do
    let ety ← u32
    let count ← u64
    let _ ← times count.toNat (skipValue stack ety)
    pure none) := rfl

theorem skipValue_unknown (stack : Nat) {ty : UInt32} (h : 12 < ty.toNat) :
    skipValue (stack + 1) ty = throw (.kvType ty) := by
  unfold skipValue
  split <;> first | omega | rfl

/-- A value of a type, nested no deeper than the stack. -/
structure Value.Fits (stack : Nat) (ty : UInt32) (v : Value) : Prop where
  wellFormed : v.WellFormed
  tag : v.tag = ty
  depth : v.depth ≤ stack

/-- The bytes on which `skip_value` panics: a string's length, or that of an element behind some
values of the array; or one call too many. -/
def BadValue : Nat → UInt32 → Nat → List UInt8 → Prop
  | 0, _, _, _ => True
  | stack + 1, ty, pos, rest =>
      ty = 8 ∧ BadString pos rest ∨
      ty = 9 ∧ ∃ (ety : UInt32) (count : UInt64) (vs : List Value) (tail : List UInt8),
        vs.length < count.toNat ∧ (∀ v ∈ vs, v.Fits stack ety) ∧
          rest = leBytes 4 ety.toNat ++ (leBytes 8 count.toNat ++ (vs.flatMap Value.encode ++ tail)) ∧
          BadValue stack ety (pos + 12 + (vs.flatMap Value.encode).length) tail

theorem tag_injective {f g : FixedTy} (h : g.tag = f.tag) : g = f := by
  revert h
  cases f <;> cases g <;> decide

theorem FixedTy.tag_le (f : FixedTy) : f.tag.toNat ≤ 12 := by
  cases f <;> decide

theorem tag_le (v : Value) : v.tag.toNat ≤ 12 := by
  cases v with
  | fixed f bytes => exact f.tag_le
  | string s => exact (by decide : (8 : UInt32).toNat ≤ 12)
  | array ety vs => exact (by decide : (9 : UInt32).toNat ≤ 12)

theorem tag_ne (f : FixedTy) : f.tag ≠ 8 ∧ f.tag ≠ 9 := by
  cases f <;> decide

theorem fits_fixed {stack : Nat} {f : FixedTy} {v : Value} :
    v.Fits (stack + 1) f.tag ↔ ∃ bytes, bytes.length = f.width ∧ v = .fixed f bytes := by
  constructor
  · intro h
    obtain ⟨hwf, htag, -⟩ := h
    cases v with
    | fixed g bytes =>
        cases tag_injective htag
        exact ⟨bytes, hwf, rfl⟩
    | string s => exact absurd htag.symm (tag_ne f).1
    | array ety vs => exact absurd htag.symm (tag_ne f).2
  · intro h
    obtain ⟨bytes, hlen, rfl⟩ := h
    exact ⟨hlen, rfl, Nat.succ_le_succ (Nat.zero_le _)⟩

theorem fits_string {stack : Nat} {v : Value} :
    v.Fits (stack + 1) 8 ↔ ∃ s : List UInt8, s.length < 2 ^ 64 ∧ v = .string s := by
  constructor
  · intro h
    obtain ⟨hwf, htag, -⟩ := h
    cases v with
    | fixed g bytes => exact absurd htag (tag_ne g).1
    | string s => exact ⟨s, hwf, rfl⟩
    | array ety vs => cases htag
  · intro h
    obtain ⟨s, hlen, rfl⟩ := h
    exact ⟨hlen, rfl, Nat.succ_le_succ (Nat.zero_le _)⟩

theorem fits_array {stack : Nat} {v : Value} : v.Fits (stack + 1) 9 ↔
    ∃ (ety : UInt32) (vs : List Value), vs.length < 2 ^ 64 ∧ (∀ v ∈ vs, v.Fits stack ety) ∧
      v = .array ety vs := by
  constructor
  · intro h
    obtain ⟨hwf, htag, hdepth⟩ := h
    cases v with
    | fixed g bytes => exact absurd htag (tag_ne g).2
    | string s => cases htag
    | array ety vs =>
        have hall := Value.allWellFormed_iff.mp hwf.2
        have hdeep := Value.depthAll_le_iff.mp (Nat.succ_le_succ_iff.mp hdepth)
        exact ⟨ety, vs, hwf.1, fun v hv => ⟨(hall v hv).2, (hall v hv).1, hdeep v hv⟩, rfl⟩
  · intro h
    obtain ⟨ety, vs, hlen, hall, rfl⟩ := h
    refine ⟨⟨hlen, Value.allWellFormed_iff.mpr fun v hv => ⟨(hall v hv).tag, (hall v hv).wellFormed⟩⟩,
      rfl, ?_⟩
    exact Nat.succ_le_succ (Value.depthAll_le_iff.mpr fun v hv => (hall v hv).depth)

/-- **What `skip_value` accepts**: the encoding of a value of the type, and nothing else. -/
theorem reads_skipValue (stack : Nat) (ty : UInt32) : Reads .panic (skipValue stack ty)
    (fun bytes text => ∃ v : Value, v.Fits stack ty ∧ bytes = v.encode ∧ text = v.text)
    (BadValue stack ty) := by
  induction stack generalizing ty with
  | zero =>
      refine Reads.throw_panic.congr ?_ (fun _ _ _ => Iff.rfl)
      intro bytes text
      constructor
      · exact False.elim
      · intro h
        obtain ⟨v, hv, -⟩ := h
        have hdepth := hv.depth
        cases v <;> simp [Value.depth] at hdepth
  | succ stack ih =>
      rcases tag_cases ty with ⟨f, rfl⟩ | rfl | rfl | hunknown
      · rw [skipValue_fixed]
        have hwidth : f.width ≤ 2 ^ 63 := by cases f <;> decide
        refine ((reads_take_fixed (by decide) hwidth).map).congr ?_ ?_
        · intro bytes text
          constructor
          · intro h
            obtain ⟨b, ⟨rfl, hlen⟩, rfl⟩ := h
            exact ⟨.fixed f b, fits_fixed.mpr ⟨b, hlen, rfl⟩, rfl, rfl⟩
          · intro h
            obtain ⟨v, hv, rfl, rfl⟩ := h
            obtain ⟨bytes, hlen, rfl⟩ := fits_fixed.mp hv
            exact ⟨bytes, ⟨rfl, hlen⟩, rfl⟩
        · intro pos rest _
          simp [BadValue, tag_ne f]
      · rw [skipValue_string]
        refine (reads_string.map).congr ?_ ?_
        · intro bytes text
          constructor
          · intro h
            obtain ⟨_, ⟨s, hlen, rfl, rfl⟩, rfl⟩ := h
            exact ⟨.string s, fits_string.mpr ⟨s, hlen, rfl⟩, rfl, rfl⟩
          · intro h
            obtain ⟨v, hv, rfl, rfl⟩ := h
            obtain ⟨s, hlen, rfl⟩ := fits_string.mp hv
            exact ⟨_, ⟨s, hlen, rfl, rfl⟩, rfl⟩
        · intro pos rest _
          simp [BadValue]
      · rw [skipValue_array]
        refine (reads_u32.bind fun ety => reads_u64.bind fun count =>
          (reads_times (ih ety) count.toNat).map).congr ?_ ?_
        · intro bytes text
          constructor
          · intro h
            obtain ⟨_, ety, _, rfl, rfl, _, count, _, rfl, rfl, _, ⟨vs, hlen, hvs, rfl, rfl⟩, rfl⟩ := h
            refine ⟨.array ety vs, fits_array.mpr ⟨ety, vs, hlen ▸ count.toNat_lt, hvs, rfl⟩, ?_, rfl⟩
            rw [Value.encode, Value.encodeAll_eq, hlen]
          · intro h
            obtain ⟨v, hv, rfl, rfl⟩ := h
            obtain ⟨ety, vs, hlen, hvs, rfl⟩ := fits_array.mp hv
            have hcount : (UInt64.ofNat vs.length).toNat = vs.length := by
              rw [UInt64.toNat_ofNat', Nat.mod_eq_of_lt hlen]
            refine ⟨_, ety, _, ?_, rfl, _, UInt64.ofNat vs.length, vs.flatMap Value.encode, rfl, rfl, _,
              ⟨vs, hcount.symm, hvs, rfl, rfl⟩, rfl⟩
            rw [Value.encode, Value.encodeAll_eq, hcount]
        · intro pos rest _
          constructor
          · intro h
            obtain ⟨_, ety, _, rfl, rfl, h⟩ := h.resolve_left id
            obtain ⟨_, count, _, rfl, rfl, vs, tail, hlen, hvs, rfl, hbad⟩ := h.resolve_left id
            refine Or.inr ⟨rfl, ety, count, vs, tail, hlen, hvs, rfl, ?_⟩
            rwa [Lib.length_leBytes, Lib.length_leBytes, Nat.add_assoc pos 4 8] at hbad
          · intro h
            rcases h with ⟨h8, -⟩ | ⟨-, ety, count, vs, tail, hlen, hvs, rfl, hbad⟩
            · exact absurd h8 (by decide)
            · refine Or.inr ⟨_, ety, _, rfl, rfl, Or.inr ⟨_, count, _, rfl, rfl, vs, tail, hlen, hvs,
                rfl, ?_⟩⟩
              rwa [Lib.length_leBytes, Lib.length_leBytes, Nat.add_assoc pos 4 8]
      · rw [skipValue_unknown stack hunknown]
        refine (Reads.throw (by simp)).congr ?_ ?_
        · intro bytes text
          constructor
          · exact False.elim
          · intro h
            obtain ⟨v, hv, -⟩ := h
            rw [← hv.tag] at hunknown
            exact absurd hunknown (tag_le v).not_gt
        · intro pos rest _
          constructor
          · exact False.elim
          · intro h
            rcases h with ⟨rfl, -⟩ | ⟨rfl, -⟩
            · revert hunknown
              decide
            · revert hunknown
              decide

/-! ### Key/values and tensor infos -/

/-- A key with its value. -/
structure KeyValue where
  key : List UInt8
  value : Value

namespace KeyValue

def encode (kv : KeyValue) : List UInt8 :=
  encodeString kv.key ++ (leBytes 4 kv.value.tag.toNat ++ kv.value.encode)

def read (kv : KeyValue) : String × Option String := (lossy kv.key, kv.value.text)

/-- The lengths are numbers of their size, and the stack holds the nested arrays. -/
structure Fits (host : Host) (kv : KeyValue) : Prop where
  key : kv.key.length < 2 ^ 64
  wellFormed : kv.value.WellFormed
  depth : kv.value.depth ≤ host.stack

end KeyValue

/-- The key's length, or something in the value. -/
def BadKv (host : Host) (pos : Nat) (rest : List UInt8) : Prop :=
  BadString pos rest ∨ ∃ (key : List UInt8) (ty : UInt32) (tail : List UInt8),
    key.length < 2 ^ 64 ∧ rest = encodeString key ++ (leBytes 4 ty.toNat ++ tail) ∧
      BadValue host.stack ty (pos + (encodeString key).length + 4) tail

theorem reads_readKv (host : Host) : Reads .panic (readKv host)
    (fun bytes read => ∃ kv : KeyValue, kv.Fits host ∧ bytes = kv.encode ∧ read = kv.read)
    (BadKv host) := by
  refine (reads_string.bind fun key => reads_u32.bind fun ty =>
    (reads_skipValue host.stack ty).map).congr ?_ ?_
  · intro bytes read
    constructor
    · intro h
      obtain ⟨_, _, _, rfl, ⟨key, hkey, rfl, rfl⟩, _, ty, _, rfl, rfl, _, ⟨v, hv, rfl, rfl⟩, rfl⟩ := h
      refine ⟨⟨key, v⟩, ⟨hkey, hv.wellFormed, hv.depth⟩, ?_, rfl⟩
      rw [← hv.tag]
      rfl
    · intro h
      obtain ⟨kv, hfits, rfl, rfl⟩ := h
      exact ⟨_, _, _, rfl, ⟨kv.key, hfits.key, rfl, rfl⟩, _, kv.value.tag, _, rfl, rfl, _,
        ⟨kv.value, ⟨hfits.wellFormed, rfl, hfits.depth⟩, rfl, rfl⟩, rfl⟩
  · intro pos rest _
    refine or_congr_right ?_
    constructor
    · intro h
      obtain ⟨_, _, _, rfl, ⟨key, hkey, rfl, rfl⟩, h⟩ := h
      obtain ⟨_, ty, tail, rfl, rfl, hbad⟩ := h.resolve_left id
      rw [Lib.length_leBytes] at hbad
      exact ⟨key, ty, tail, hkey, rfl, hbad⟩
    · intro h
      obtain ⟨key, ty, tail, hkey, rfl, hbad⟩ := h
      refine ⟨_, _, _, rfl, ⟨key, hkey, rfl, rfl⟩, Or.inr ⟨_, ty, tail, rfl, rfl, ?_⟩⟩
      rwa [Lib.length_leBytes]

/-- A tensor as it is listed. -/
structure TensorInfo where
  name : List UInt8
  dims : List UInt64
  ty : UInt32
  off : UInt64

def encodeDim (dim : UInt64) : List UInt8 := leBytes 8 dim.toNat

namespace TensorInfo

def encode (info : TensorInfo) : List UInt8 :=
  encodeString info.name ++ (leBytes 4 info.dims.length ++
    (info.dims.flatMap encodeDim ++ (leBytes 4 info.ty.toNat ++ leBytes 8 info.off.toNat)))

def read (info : TensorInfo) : Info :=
  ⟨lossy info.name, info.dims, GgmlType.fromU32 info.ty, info.off⟩

/-- The lengths are numbers of their size, and there is memory for the dims. -/
structure Fits (host : Host) (info : TensorInfo) : Prop where
  name : info.name.length < 2 ^ 64
  dims : info.dims.length < 2 ^ 32
  memory : host.Grants (info.dims.length * 8)

end TensorInfo

/-- The name's length, or no memory for so many dims. -/
def BadInfo (host : Host) (pos : Nat) (rest : List UInt8) : Prop :=
  BadString pos rest ∨ ∃ (name : List UInt8) (nDims : UInt32) (tail : List UInt8),
    name.length < 2 ^ 64 ∧ rest = encodeString name ++ (leBytes 4 nDims.toNat ++ tail) ∧
      ¬ host.Grants (nDims.toNat * 8)

theorem reads_reserve (host : Host) (size n : Nat) : Reads .panic (reserve host size n)
    (fun bytes _ => bytes = [] ∧ host.Grants (n * size)) fun _ _ => ¬ host.Grants (n * size) := by
  refine (Reads.ite (fun _ => Reads.pure _ ()) fun _ => Reads.throw_panic).congr ?_ ?_
  · intro bytes _
    simp [and_comm]
  · simp

theorem reads_dims (n : Nat) : Reads .panic (times n u64)
    (fun bytes dims => dims.length = n ∧ bytes = dims.flatMap encodeDim) fun _ _ => False := by
  have hu64 : Reads .panic u64 (fun bytes n => ∃ d : UInt64, True ∧ bytes = encodeDim d ∧ n = id d)
      fun _ _ => False := by
    refine reads_u64.congr ?_ (fun _ _ _ => Iff.rfl)
    intro bytes n
    simp [encodeDim]
  refine (reads_times hu64 n).congr ?_ (by simp)
  intro bytes dims
  simp only [implies_true, true_and, List.map_id]
  constructor
  · intro h
    obtain ⟨xs, hlen, rfl, rfl⟩ := h
    exact ⟨hlen, rfl⟩
  · intro h
    exact ⟨dims, h.1, h.2, rfl⟩

theorem reads_readInfo (host : Host) : Reads .panic (readInfo host)
    (fun bytes read => ∃ info : TensorInfo, info.Fits host ∧ bytes = info.encode ∧ read = info.read)
    (BadInfo host) := by
  refine (reads_string.bind fun name => reads_u32.bind fun nDims =>
    (reads_reserve host 8 nDims.toNat).bind fun _ => (reads_dims nDims.toNat).bind fun dims =>
      reads_u32.bind fun ty => reads_u64.map).congr ?_ ?_
  · intro bytes read
    constructor
    · intro h
      obtain ⟨_, _, _, rfl, ⟨name, hname, rfl, rfl⟩, _, nDims, _, rfl, rfl, _, _, _, rfl,
        ⟨rfl, hgrants⟩, _, dims, _, rfl, ⟨hlen, rfl⟩, _, ty, _, rfl, rfl, off, rfl, rfl⟩ := h
      rw [← hlen] at hgrants
      refine ⟨⟨name, dims, ty, off⟩, ⟨hname, hlen ▸ nDims.toNat_lt, hgrants⟩, ?_, rfl⟩
      rw [List.nil_append, ← hlen]
      rfl
    · intro h
      obtain ⟨info, hfits, rfl, rfl⟩ := h
      have hlen : (UInt32.ofNat info.dims.length).toNat = info.dims.length := by
        rw [UInt32.toNat_ofNat', Nat.mod_eq_of_lt hfits.dims]
      refine ⟨_, _, _, rfl, ⟨info.name, hfits.name, rfl, rfl⟩, _, UInt32.ofNat info.dims.length, _, ?_,
        rfl, [], (), _, (List.nil_append _).symm, ⟨rfl, ?_⟩, _, info.dims, _, rfl, ⟨hlen.symm, rfl⟩, _,
        info.ty, _, rfl, rfl, info.off, rfl, rfl⟩
      · rw [hlen]
      · rw [hlen]
        exact hfits.memory
  · intro pos rest _
    refine or_congr_right ?_
    constructor
    · intro h
      obtain ⟨_, _, _, rfl, ⟨name, hname, rfl, rfl⟩, h⟩ := h
      obtain ⟨_, nDims, tail, rfl, rfl, hbad⟩ := h.resolve_left id
      refine ⟨name, nDims, tail, hname, rfl, ?_⟩
      simpa using hbad
    · intro h
      obtain ⟨name, nDims, tail, hname, rfl, hbad⟩ := h
      exact ⟨_, _, _, rfl, ⟨name, hname, rfl, rfl⟩, Or.inr ⟨_, nDims, tail, rfl, rfl, Or.inl hbad⟩⟩

/-! ### The header -/

/-- What a file begins with. -/
structure Contents where
  version : UInt32
  kvs : List KeyValue
  infos : List TensorInfo

/-- Magic, version and the counts. -/
def encodeCounts (version : UInt32) (tensorCount kvCount : Nat) : List UInt8 :=
  leBytes 4 GGUF_MAGIC.toNat ++ (leBytes 4 version.toNat ++ (leBytes 8 tensorCount ++
    leBytes 8 kvCount))

namespace Contents

def encode (h : Contents) : List UInt8 :=
  encodeCounts h.version h.infos.length h.kvs.length ++
    (h.kvs.flatMap KeyValue.encode ++ h.infos.flatMap TensorInfo.encode)

def read (h : Contents) : List (String × Option String) × List Info :=
  (h.kvs.map KeyValue.read, h.infos.map TensorInfo.read)

/-- A header of these contents can be written, and the machine has room for reading it. -/
structure Fits (host : Host) (h : Contents) : Prop where
  version : 2 ≤ h.version ∧ h.version ≤ 3
  kvCount : h.kvs.length < 2 ^ 64
  kvs : ∀ kv ∈ h.kvs, kv.Fits host
  tensorCount : h.infos.length < 2 ^ 64
  infos : ∀ info ∈ h.infos, info.Fits host
  memory : host.Grants (h.infos.length * INFO_BYTES)

end Contents

/-- Behind the counts: a key/value behind those before it, or, behind all of them, no memory for the
tensor infos, or one of these behind those before it. -/
def BadBody (host : Host) (tensorCount kvCount : UInt64) (pos : Nat) (rest : List UInt8) : Prop :=
  (∃ (kvs : List KeyValue) (tail : List UInt8), kvs.length < kvCount.toNat ∧
    (∀ kv ∈ kvs, kv.Fits host) ∧ rest = kvs.flatMap KeyValue.encode ++ tail ∧
    BadKv host (pos + (kvs.flatMap KeyValue.encode).length) tail) ∨
  ∃ (kvs : List KeyValue) (tail : List UInt8), kvs.length = kvCount.toNat ∧
    (∀ kv ∈ kvs, kv.Fits host) ∧ rest = kvs.flatMap KeyValue.encode ++ tail ∧
    (¬ host.Grants (tensorCount.toNat * INFO_BYTES) ∨
      ∃ (infos : List TensorInfo) (tail' : List UInt8), infos.length < tensorCount.toNat ∧
        (∀ info ∈ infos, info.Fits host) ∧ tail = infos.flatMap TensorInfo.encode ++ tail' ∧
        BadInfo host (pos + (kvs.flatMap KeyValue.encode).length +
          (infos.flatMap TensorInfo.encode).length) tail')

theorem reads_body (host : Host) (tensorCount kvCount : UInt64) : Reads .panic (do
      let kvs ← times kvCount.toNat (readKv host)
      let _ ← reserve host INFO_BYTES tensorCount.toNat
      let infos ← times tensorCount.toNat (readInfo host)
      pure (kvs, infos))
    (fun bytes parts => ∃ (kvs : List KeyValue) (infos : List TensorInfo),
      (kvs.length = kvCount.toNat ∧ ∀ kv ∈ kvs, kv.Fits host) ∧
      (infos.length = tensorCount.toNat ∧ ∀ info ∈ infos, info.Fits host) ∧
      host.Grants (tensorCount.toNat * INFO_BYTES) ∧
      bytes = kvs.flatMap KeyValue.encode ++ infos.flatMap TensorInfo.encode ∧
      parts = (kvs.map KeyValue.read, infos.map TensorInfo.read))
    (BadBody host tensorCount kvCount) := by
  refine ((reads_times (reads_readKv host) kvCount.toNat).bind fun kvs =>
    (reads_reserve host INFO_BYTES tensorCount.toNat).bind fun _ =>
      (reads_times (reads_readInfo host) tensorCount.toNat).map).congr ?_ ?_
  · intro bytes parts
    constructor
    · intro h
      obtain ⟨_, _, _, rfl, ⟨kvs, hkvlen, hkvs, rfl, rfl⟩, _, _, _, rfl, ⟨rfl, hgrants⟩, _,
        ⟨infos, hlen, hinfos, rfl, rfl⟩, rfl⟩ := h
      exact ⟨kvs, infos, ⟨hkvlen, hkvs⟩, ⟨hlen, hinfos⟩, hgrants, rfl, rfl⟩
    · intro h
      obtain ⟨kvs, infos, ⟨hkvlen, hkvs⟩, ⟨hlen, hinfos⟩, hgrants, rfl, rfl⟩ := h
      exact ⟨_, _, _, rfl, ⟨kvs, hkvlen, hkvs, rfl, rfl⟩, [], (), _, rfl, ⟨rfl, hgrants⟩, _,
        ⟨infos, hlen, hinfos, rfl, rfl⟩, rfl⟩
  · intro pos rest _
    refine or_congr_right ?_
    constructor
    · intro h
      obtain ⟨_, _, tail, rfl, ⟨kvs, hlen, hkvs, rfl, rfl⟩, hrest⟩ := h
      refine ⟨kvs, tail, hlen, hkvs, rfl, hrest.imp_right ?_⟩
      intro hinfo
      obtain ⟨_, _, tail', rfl, ⟨rfl, -⟩, infos, tail'', hlen, hinfos, rfl, hbad⟩ := hinfo
      exact ⟨infos, tail'', hlen, hinfos, rfl, hbad⟩
    · intro h
      obtain ⟨kvs, tail, hlen, hkvs, rfl, hrest⟩ := h
      refine ⟨_, _, tail, rfl, ⟨kvs, hlen, hkvs, rfl, rfl⟩, ?_⟩
      by_cases hgrants : host.Grants (tensorCount.toNat * INFO_BYTES)
      · obtain ⟨infos, tail', hlen, hinfos, rfl, hbad⟩ := hrest.resolve_left (not_not_intro hgrants)
        exact Or.inr ⟨[], (), _, rfl, ⟨rfl, hgrants⟩, infos, tail', hlen, hinfos, rfl, hbad⟩
      · exact Or.inl hgrants

/-- The counts are read, and there is something wrong behind them. -/
def BadParts (host : Host) (pos : Nat) (rest : List UInt8) : Prop :=
  ∃ (version : UInt32) (tensorCount kvCount : UInt64) (tail : List UInt8),
    (2 ≤ version ∧ version ≤ 3) ∧
      rest = encodeCounts version tensorCount.toNat kvCount.toNat ++ tail ∧
      BadBody host tensorCount kvCount (pos + 24) tail

/-- **What is accepted of a header**: the encoding of contents that the machine has room for. -/
theorem reads_readParts (host : Host) : Reads .panic (readParts host)
    (fun bytes parts => ∃ h : Contents, h.Fits host ∧ bytes = h.encode ∧ parts = h.read)
    (BadParts host) := by
  refine (reads_u32.bind fun magic => Reads.ite (fun _ => Reads.throw (by simp)) fun _ =>
    reads_u32.bind fun version => Reads.ite (fun _ => Reads.throw (by simp)) fun _ =>
      reads_u64.bind fun tensorCount => reads_u64.bind fun kvCount =>
        reads_body host tensorCount kvCount).congr ?_ ?_
  · intro bytes parts
    constructor
    · intro h
      obtain ⟨_, magic, _, rfl, rfl, ⟨-, h⟩ | ⟨hmagic, h⟩⟩ := h
      · exact h.elim
      obtain ⟨_, version, _, rfl, rfl, ⟨-, h⟩ | ⟨hversion, h⟩⟩ := h
      · exact h.elim
      obtain ⟨_, tensorCount, _, rfl, rfl, _, kvCount, _, rfl, rfl, kvs, infos, ⟨hkvlen, hkvs⟩,
        ⟨hlen, hinfos⟩, hgrants, rfl, rfl⟩ := h
      refine ⟨⟨version, kvs, infos⟩, ⟨not_not.mp hversion, hkvlen ▸ kvCount.toNat_lt, hkvs,
        hlen ▸ tensorCount.toNat_lt, hinfos, hlen ▸ hgrants⟩, ?_, rfl⟩
      rw [not_not.mp hmagic, ← hkvlen, ← hlen]
      simp only [Contents.encode, encodeCounts, List.append_assoc]
    · intro h
      obtain ⟨h, hfits, rfl, rfl⟩ := h
      have hkvlen : (UInt64.ofNat h.kvs.length).toNat = h.kvs.length := by
        rw [UInt64.toNat_ofNat', Nat.mod_eq_of_lt hfits.kvCount]
      have hlen : (UInt64.ofNat h.infos.length).toNat = h.infos.length := by
        rw [UInt64.toNat_ofNat', Nat.mod_eq_of_lt hfits.tensorCount]
      refine ⟨_, GGUF_MAGIC, _, ?_, rfl, Or.inr ⟨not_not_intro rfl, _, h.version, _, rfl, rfl,
        Or.inr ⟨not_not_intro hfits.version, _, UInt64.ofNat h.infos.length, _, rfl, rfl, _,
          UInt64.ofNat h.kvs.length, _, rfl, rfl, h.kvs, h.infos, ⟨hkvlen.symm, hfits.kvs⟩,
          ⟨hlen.symm, hfits.infos⟩, ?_, rfl, rfl⟩⟩⟩
      · rw [hkvlen, hlen]
        simp only [Contents.encode, encodeCounts, List.append_assoc]
      · rw [hlen]
        exact hfits.memory
  · intro pos rest _
    constructor
    · intro h
      obtain ⟨_, magic, _, rfl, rfl, ⟨-, h⟩ | ⟨hmagic, h⟩⟩ := h.resolve_left id
      · exact h.elim
      obtain ⟨_, version, _, rfl, rfl, ⟨-, h⟩ | ⟨hversion, h⟩⟩ := h.resolve_left id
      · exact h.elim
      obtain ⟨_, tensorCount, _, rfl, rfl, h⟩ := h.resolve_left id
      obtain ⟨_, kvCount, tail, rfl, rfl, hbad⟩ := h.resolve_left id
      simp only [Lib.length_leBytes, Nat.add_assoc] at hbad
      refine ⟨version, tensorCount, kvCount, tail, not_not.mp hversion, ?_, hbad⟩
      rw [not_not.mp hmagic]
      simp only [encodeCounts, List.append_assoc]
    · intro h
      obtain ⟨version, tensorCount, kvCount, tail, hversion, rfl, hbad⟩ := h
      refine Or.inr ⟨_, GGUF_MAGIC, _, ?_, rfl, Or.inr ⟨not_not_intro rfl, Or.inr ⟨_, version, _, rfl,
        rfl, Or.inr ⟨not_not_intro hversion, Or.inr ⟨_, tensorCount, _, rfl, rfl, Or.inr ⟨_, kvCount,
          tail, rfl, rfl, ?_⟩⟩⟩⟩⟩⟩
      · simp only [encodeCounts, List.append_assoc]
      · simp only [Lib.length_leBytes, Nat.add_assoc]
        exact hbad

/-! ### The walk -/

/-- The texts of the values of `general.alignment`. -/
def alignmentTexts (kvs : List KeyValue) : List String :=
  kvs.filterMap fun kv => if lossy kv.key = "general.alignment" then kv.value.text else none

/-- The number that the last of them is; 32 if it is none, or if there are none. -/
def Contents.alignment (h : Contents) : Nat :=
  ((alignmentTexts h.kvs).getLast?.bind fun v => parseUnsigned (2 ^ 64) v.toList).getD 32

theorem foldl_alignmentStep (h : Contents) :
    (h.kvs.map KeyValue.read).foldl alignmentStep 32 = h.alignment := by
  unfold Contents.alignment
  induction h.kvs using List.reverseRecOn with
  | nil => rfl
  | append_singleton kvs kv ih =>
      have hlast : alignmentTexts (kvs ++ [kv]) = alignmentTexts kvs ++ alignmentTexts [kv] :=
        List.filterMap_append
      rw [List.map_append, List.foldl_append, ih, hlast, List.getLast?_append]
      show alignmentStep _ (lossy kv.key, kv.value.text) = _
      unfold alignmentStep
      cases htext : kv.value.text with
      | none => simp [alignmentTexts, htext]
      | some v =>
          by_cases hkey : lossy kv.key = "general.alignment"
          · simp [alignmentTexts, htext, hkey]
          · simp [alignmentTexts, hkey]

def Contents.dataStart (h : Contents) : Nat := Gguf.dataStart h.encode.length h.alignment

/-- The next multiple. -/
theorem dataStart_spec {pos alignment : Nat} (h : 0 < alignment) :
    alignment ∣ dataStart pos alignment ∧ pos ≤ dataStart pos alignment ∧
      dataStart pos alignment < pos + alignment := by
  refine ⟨Dvd.intro_left _ rfl, ?_⟩
  have hdiv : alignment * (pos / alignment) + pos % alignment = pos := Nat.div_add_mod pos alignment
  have hmod := Nat.mod_lt pos h
  unfold dataStart
  split_ifs with hzero
  · rw [Nat.mul_comm]
    omega
  · rw [Nat.add_mul, Nat.one_mul, Nat.mul_comm (pos / alignment)]
    omega

/-- Where the contents of a header are found out to be useless only behind it: there is no
alignment, or an offset is past the largest. -/
def Contents.Overflows (h : Contents) : Prop :=
  h.alignment = 0 ∨ ∃ info ∈ h.infos, 2 ^ 64 ≤ h.dataStart + info.off.toNat

/-- The headers on which the walk panics. -/
def BadHeader (host : Host) (head : List UInt8) : Prop :=
  BadParts host 0 head ∨ ∃ (h : Contents) (tail : List UInt8), h.Fits host ∧
    head = h.encode ++ tail ∧ h.Overflows

theorem walk_of_error {host : Host} {c c' : Cursor} {e : GgufError}
    (h : readParts host c = .error e c') : walk host c = .error e c' := by
  show EStateM.bind _ _ c = _
  rw [EStateM.bind, h]

theorem walk_of_parts {host : Host} {c c' : Cursor} {h : Contents}
    (hparts : readParts host c = .ok h.read c') (hpos : c'.pos = h.encode.length) :
    walk host c = (if h.alignment = 0 then throw .panic
      else if ∃ info ∈ h.read.2, 2 ^ 64 ≤ h.dataStart + info.off.toNat then throw .panic
      else pure ⟨h.read.1, h.read.2, h.dataStart⟩ : Walk Header) c' := by
  show EStateM.bind _ _ c = _
  rw [EStateM.bind, hparts]
  show (if h.read.1.foldl alignmentStep 32 = 0 then throw .panic
    else if ∃ info ∈ h.read.2, 2 ^ 64 ≤ Gguf.dataStart c'.pos (h.read.1.foldl alignmentStep 32) +
      info.off.toNat then throw .panic
    else pure ⟨h.read.1, h.read.2, Gguf.dataStart c'.pos (h.read.1.foldl alignmentStep 32)⟩ :
      Walk Header) c' = _
  rw [hpos, Contents.read, foldl_alignmentStep]
  rfl

theorem walk_panics {host : Host} {c c' : Cursor} {h : Contents}
    (hparts : readParts host c = .ok h.read c') (hpos : c'.pos = h.encode.length)
    (hover : h.Overflows) : walk host c = .error .panic c' := by
  rw [walk_of_parts hparts hpos]
  by_cases hzero : h.alignment = 0
  · rw [if_pos hzero]
    rfl
  · obtain ⟨info, hinfo, hoff⟩ := hover.resolve_left hzero
    rw [if_neg hzero, if_pos ⟨info.read, List.mem_map_of_mem hinfo, hoff⟩]
    rfl

theorem walk_ok {host : Host} {c c' : Cursor} {h : Contents}
    (hparts : readParts host c = .ok h.read c') (hpos : c'.pos = h.encode.length)
    (hover : ¬ h.Overflows) : walk host c = .ok ⟨h.read.1, h.read.2, h.dataStart⟩ c' := by
  rw [walk_of_parts hparts hpos, if_neg (fun hzero => hover (Or.inl hzero)), if_neg]
  · rfl
  · intro hoff
    obtain ⟨read, hread, hoff⟩ := hoff
    obtain ⟨info, hinfo, rfl⟩ := List.mem_map.mp hread
    exact hover (Or.inr ⟨info, hinfo, hoff⟩)

variable {host : Host} {head : List UInt8} {hlen : head.length < 2 ^ 63}

/-- What the walk panics on. -/
theorem walk_panics_iff :
    (∃ c', walk host (Cursor.start head hlen) = .error .panic c') ↔ BadHeader host head := by
  have hreads := reads_readParts host
  have hrest : (Cursor.start head hlen).rest = head := rfl
  constructor
  · intro hpanic
    obtain ⟨c', hpanic⟩ := hpanic
    cases hparts : readParts host (Cursor.start head hlen) with
    | error e c'' =>
        rw [walk_of_error hparts] at hpanic
        cases hpanic
        exact Or.inl ((hreads.panics _).mp ⟨_, hparts⟩)
    | ok parts c'' =>
        obtain ⟨_, hadv, h, hfits, rfl, rfl⟩ := (hreads.ok _ _ _).mp hparts
        have hpos : c''.pos = h.encode.length := hadv.pos.trans (Nat.zero_add _)
        by_cases hover : h.Overflows
        · exact Or.inr ⟨h, c''.rest, hfits, hrest.symm.trans hadv.rest, hover⟩
        · rw [walk_ok hparts hpos hover] at hpanic
          cases hpanic
  · intro hbad
    rcases hbad with hbad | hbad
    · obtain ⟨c', hparts⟩ := (hreads.panics (Cursor.start head hlen)).mpr hbad
      exact ⟨c', walk_of_error hparts⟩
    · obtain ⟨h, tail, hfits, rfl, hover⟩ := hbad
      obtain ⟨c', hadv, -⟩ := Cursor.exists_advance hrest
      have hpos : c'.pos = h.encode.length := hadv.pos.trans (Nat.zero_add _)
      have hparts := (hreads.ok _ _ _).mpr ⟨_, hadv, h, hfits, rfl, rfl⟩
      exact ⟨c', walk_panics hparts hpos hover⟩

/-- The walk leaves the buffer as it is. -/
theorem walk_stays :
    (∀ header c', walk host (Cursor.start head hlen) = .ok header c' → c'.buf = head) ∧
      ∀ e c', walk host (Cursor.start head hlen) = .error e c' → c'.buf = head := by
  have hreads := reads_readParts host
  cases hparts : readParts host (Cursor.start head hlen) with
  | error e c'' =>
      rw [walk_of_error hparts]
      refine ⟨fun _ _ h => (by cases h), ?_⟩
      intro e' c' h
      cases h
      exact hreads.stays _ _ _ hparts
  | ok parts c'' =>
      obtain ⟨_, hadv, h, hfits, rfl, rfl⟩ := (hreads.ok _ _ _).mp hparts
      have hpos : c''.pos = h.encode.length := hadv.pos.trans (Nat.zero_add _)
      by_cases hover : h.Overflows
      · rw [walk_panics hparts hpos hover]
        refine ⟨fun _ _ h => (by cases h), ?_⟩
        intro e' c' h
        cases h
        exact hadv.buf
      · rw [walk_ok hparts hpos hover]
        refine ⟨?_, fun _ _ h => (by cases h)⟩
        intro header c' h
        cases h
        exact hadv.buf

/-- An answer with the cursor in the header. -/
def Answered (head : List UInt8) : EStateM.Result GgufError Cursor Header → Prop
  | .ok _ c => c.buf = head ∧ c.pos ≤ head.length
  | .error e c => e ≠ .panic ∧ c.buf = head ∧ c.pos ≤ head.length

instance : (result : EStateM.Result GgufError Cursor Header) → Decidable (Answered head result)
  | .ok _ c => inferInstanceAs (Decidable (c.buf = head ∧ c.pos ≤ head.length))
  | .error e c => inferInstanceAs (Decidable (e ≠ .panic ∧ c.buf = head ∧ c.pos ≤ head.length))

/-- **The walk answers on every header, but for the bad ones**: those that begin with a readable
part and go on with a length that is no `usize` from there, with a count that there is no memory
for or with arrays nested too deep, and those without an alignment or with an offset too far. -/
theorem walk_total_iff (host : Host) (head : List UInt8) (hlen : head.length < 2 ^ 63) :
    Answered head (walk host (Cursor.start head hlen)) ↔ ¬ BadHeader host head := by
  rw [← @walk_panics_iff host head hlen]
  obtain ⟨hok, herr⟩ := @walk_stays host head hlen
  cases hwalk : walk host (Cursor.start head hlen) with
  | ok header c =>
      have hbuf := hok header c hwalk
      have hin := c.inside
      rw [hbuf] at hin
      simp [Answered, hbuf, hin]
  | error e c =>
      have hbuf := herr e c hwalk
      have hin := c.inside
      rw [hbuf] at hin
      simp [Answered, hbuf, hin]

/-- A key of `u64::MAX` bytes. -/
def longKeyHeader : List UInt8 := encodeCounts 3 0 1 ++ leBytes 8 (2 ^ 64 - 1)

theorem longKeyHeader_panics : ¬ Answered longKeyHeader
    (walk ⟨64, fun _ => true⟩ (Cursor.start longKeyHeader (by decide))) := by
  decide +kernel

/-- A key with an array of two arrays, and a tensor. -/
def nestedHeader : Contents where
  version := 3
  kvs := [⟨[97], .array 9 [.array 0 [.fixed .uint8 [1], .fixed .uint8 [2]], .array 8 [.string [98]]]⟩]
  infos := [⟨[116], [4], 0, 32⟩]

theorem nestedHeader_walked : ¬ BadHeader ⟨64, fun _ => true⟩ nestedHeader.encode :=
  (walk_total_iff _ _ (by decide +kernel)).mp (by decide +kernel)

/-! ### Well-formed headers -/

/-- **`skip_value` takes the bytes of its value**, whatever follows. -/
theorem skipValue_encode {stack : Nat} {v : Value} (hwf : v.WellFormed) (hdepth : v.depth ≤ stack)
    {c : Cursor} {tail : List UInt8} (hrest : c.rest = v.encode ++ tail) :
    ∃ c', skipValue stack v.tag c = .ok v.text c' ∧ Advance c v.encode c' ∧ c'.rest = tail := by
  obtain ⟨c', hadv, hrest'⟩ := Cursor.exists_advance hrest
  exact ⟨c', ((reads_skipValue stack v.tag).ok c v.text c').mpr
    ⟨v.encode, hadv, v, ⟨hwf, rfl, hdepth⟩, rfl, rfl⟩, hadv, hrest'⟩

/-- The bytes of a text. -/
def utf8 (s : String) : List UInt8 := s.toList.flatMap String.utf8EncodeChar

theorem lossy_utf8 (s : String) : lossy (utf8 s) = s := by
  rw [lossy, utf8, Lib.Utf8.decodeLossy_encode, String.ofList_toList]

/-- The name under which a tensor is listed. -/
def TensorInfo.label (info : TensorInfo) : String := lossy info.name

def TensorInfo.tensor (fidx start : Nat) (info : TensorInfo) : GgufTensor :=
  ⟨fidx, info.dims, GgmlType.fromU32 info.ty, start + info.off.toNat⟩

/-- A file with a header that fits. -/
theorem openFile_header {host : Host} {h : Contents} (g : Gguf) (fidx : Nat) (data : List UInt8)
    (hfits : h.Fits host) (hhead : h.encode.length ≤ HEAD_BYTES) (hover : ¬ h.Overflows)
    (hnodup : (h.infos.map TensorInfo.label).Nodup) :
    ∃ g', openFile host g fidx (h.encode ++ data) = .ok g' ∧
      (∀ info ∈ h.infos, g'.tensors[info.label]? = some (info.tensor fidx h.dataStart)) ∧
      ∀ name, name ∉ h.infos.map TensorInfo.label → g'.tensors[name]? = g.tensors[name]? := by
  have hrest : (headCursor (h.encode ++ data)).rest =
      h.encode ++ data.take (HEAD_BYTES - h.encode.length) := by
    show (h.encode ++ data).take HEAD_BYTES = _
    rw [List.take_append, List.take_of_length_le hhead]
  obtain ⟨c', hadv, -⟩ := Cursor.exists_advance hrest
  have hparts := ((reads_readParts host).ok _ _ _).mpr ⟨_, hadv, h, hfits, rfl, rfl⟩
  have hwalk := walk_ok hparts (hadv.pos.trans (Nat.zero_add _)) hover
  have hfold : ∀ tensors : Std.TreeMap String GgufTensor,
      h.read.2.foldl (fun tensors info => tensors.insert info.name (info.tensor fidx h.dataStart))
        tensors = h.infos.foldl (fun tensors info =>
          tensors.insert info.label (info.tensor fidx h.dataStart)) tensors :=
    fun _ => List.foldl_map
  refine ⟨_, by rw [openFile, hwalk], ?_⟩
  show (∀ info ∈ h.infos, (List.foldl _ g.tensors h.read.2)[info.label]? = _) ∧
    ∀ name, _ → (List.foldl _ g.tensors h.read.2)[name]? = _
  rw [hfold]
  exact Lib.getElem?_foldl_insert hnodup g.tensors

/-- A file of a model: a header and the data behind it. -/
structure Shard where
  contents : Contents
  data : List UInt8

namespace Shard

def file (s : Shard) : List UInt8 := s.contents.encode ++ s.data

def labels (s : Shard) : List String := s.contents.infos.map TensorInfo.label

/-- The header fits the read and the machine, it has an alignment, and the offsets are a `u64`. -/
structure Opens (host : Host) (s : Shard) : Prop where
  fits : s.contents.Fits host
  head : s.contents.encode.length ≤ HEAD_BYTES
  aligned : 0 < s.contents.alignment
  offsets : ∀ info ∈ s.contents.infos, s.contents.dataStart + info.off.toNat < 2 ^ 64

theorem Opens.not_overflows {host : Host} {s : Shard} (h : s.Opens host) :
    ¬ s.contents.Overflows := by
  intro hover
  rcases hover with hzero | ⟨info, hinfo, hoff⟩
  · exact h.aligned.ne' hzero
  · exact (h.offsets info hinfo).not_ge hoff

end Shard

/-- The loop over the files. -/
theorem foldlM_openFile {host : Host} {shards : List Shard} (hopens : ∀ s ∈ shards, s.Opens host)
    (hnodup : (shards.flatMap Shard.labels).Nodup) (g : Gguf) (first : Nat) :
    ∃ g', ((shards.map Shard.file).zipIdx first).foldlM (fun g f => openFile host g f.2 f.1) g = .ok g' ∧
      (∀ (i : Nat) (s : Shard), shards[i]? = some s → ∀ info ∈ s.contents.infos,
        g'.tensors[info.label]? = some (info.tensor (first + i) s.contents.dataStart)) ∧
      ∀ name, name ∉ shards.flatMap Shard.labels → g'.tensors[name]? = g.tensors[name]? := by
  induction shards generalizing g first with
  | nil => exact ⟨g, rfl, by simp, fun _ _ => rfl⟩
  | cons s shards ih =>
      obtain ⟨hs, hopens⟩ := List.forall_mem_cons.mp hopens
      rw [List.flatMap_cons, List.nodup_append] at hnodup
      obtain ⟨hnodup, hnodups, hapart⟩ := hnodup
      obtain ⟨g₁, hopen, hlisted, hrest⟩ :=
        openFile_header g first s.data hs.fits hs.head hs.not_overflows hnodup
      obtain ⟨g₂, hrun, hlisteds, hrests⟩ := ih hopens hnodups g₁ (first + 1)
      refine ⟨g₂, ?_, ?_, ?_⟩
      · rw [List.map_cons, List.zipIdx_cons, List.foldlM_cons, Shard.file, hopen]
        exact hrun
      · intro i s' hget info hinfo
        cases i with
        | zero =>
            cases hget
            have hmem : info.label ∈ s.labels := List.mem_map_of_mem hinfo
            rw [hrests _ fun h => hapart _ hmem _ h rfl]
            exact hlisted info hinfo
        | succ i =>
            rw [hlisteds i s' hget info hinfo, Nat.add_right_comm, Nat.add_assoc]
      · intro name hname
        rw [List.flatMap_cons, List.mem_append, not_or] at hname
        rw [hrests name hname.2, hrest name hname.1]

/-- An alignment that is given as a `u32`. -/
def alignmentKey (n : UInt32) : KeyValue :=
  ⟨utf8 "general.alignment", .fixed .uint32 (leBytes 4 n.toNat)⟩

theorem alignment_u32 {h : Contents} {before after : List KeyValue} {n : UInt32}
    (hkvs : h.kvs = before ++ alignmentKey n :: after) (hafter : alignmentTexts after = []) :
    h.alignment = n.toNat := by
  have htext : alignmentTexts [alignmentKey n] = [toString n.toNat] := by
    have hvalue : (alignmentKey n).value.text = some (toString n.toNat) := by
      show some (toString (UInt32.ofNat (leNat (leBytes 4 n.toNat)))) = _
      rw [Lib.leNat_leBytes_of_lt n.toNat_lt, UInt32.ofNat_toNat]
      rfl
    rw [alignmentTexts, List.filterMap_cons, hvalue, alignmentKey, lossy_utf8]
    rfl
  have hlast : alignmentTexts h.kvs = alignmentTexts before ++ [toString n.toNat] := by
    rw [hkvs, ← List.singleton_append, alignmentTexts, List.filterMap_append, List.filterMap_append,
      ← alignmentTexts, ← alignmentTexts, ← alignmentTexts, htext, hafter, List.append_nil]
  have hlt : n.toNat < 2 ^ 64 := n.toNat_lt.trans (by decide)
  rw [Contents.alignment, hlast, List.getLast?_concat, Option.bind_some, Lib.parseUnsigned_repr hlt]
  rfl

theorem alignment_default {h : Contents} (hnone : alignmentTexts h.kvs = []) : h.alignment = 32 := by
  rw [Contents.alignment, hnone]
  rfl

/-- **Well-formed headers are walked over as they are**: a value takes its bytes, the tensors are the
ones that are listed, and their data begins at the next multiple of the alignment: of the number
in the last `general.alignment`, a `u32` or any other value with a text, or else of 32. -/
theorem walk_exact (host : Host) :
    (∀ (stack : Nat) (v : Value) (c : Cursor) (tail : List UInt8), v.WellFormed → v.depth ≤ stack →
      c.rest = v.encode ++ tail →
        ∃ c', skipValue stack v.tag c = .ok v.text c' ∧ Advance c v.encode c' ∧ c'.rest = tail) ∧
    (∀ shards : List Shard, (∀ s ∈ shards, s.Opens host) → (shards.flatMap Shard.labels).Nodup →
      ∃ g, openFiles host (shards.map Shard.file) = .ok g ∧
        (∀ (i : Nat) (s : Shard), shards[i]? = some s → ∀ info ∈ s.contents.infos,
          g.tensors[info.label]? = some (info.tensor i s.contents.dataStart)) ∧
        ∀ name, name ∉ shards.flatMap Shard.labels → g.tensors[name]? = none) ∧
    ∀ h : Contents,
      (0 < h.alignment → h.alignment ∣ h.dataStart ∧ h.encode.length ≤ h.dataStart ∧
        h.dataStart < h.encode.length + h.alignment) ∧
      (alignmentTexts h.kvs = [] → h.alignment = 32) ∧
      ∀ before n after, h.kvs = before ++ alignmentKey n :: after → alignmentTexts after = [] →
        h.alignment = n.toNat := by
  refine ⟨fun stack v c tail hwf hdepth => skipValue_encode hwf hdepth, ?_, ?_⟩
  · intro shards hopens hnodup
    obtain ⟨g, hrun, hlisted, hrest⟩ := foldlM_openFile hopens hnodup ⟨∅, ∅⟩ 0
    refine ⟨g, hrun, ?_, ?_⟩
    · intro i s hget info hinfo
      rw [hlisted i s hget info hinfo, Nat.zero_add]
    · intro name hname
      rw [hrest name hname]
      simp
  · intro h
    exact ⟨dataStart_spec, alignment_default, fun before n after => alignment_u32⟩

/-- An alignment that is given as a `u64`. -/
def wideAlignment : Shard where
  contents := {
    version := 3
    kvs := [⟨utf8 "general.alignment", .fixed .uint64 (leBytes 8 64)⟩]
    infos := [⟨utf8 "t", [4], 0, 0⟩] }
  data := []

theorem wideAlignment_opens : wideAlignment.Opens ⟨64, fun _ => true⟩ := by
  refine ⟨⟨by decide, by decide, ?_, by decide, ?_, by decide⟩, by decide, by decide, by decide⟩
  · intro kv hkv
    cases List.mem_singleton.mp hkv
    exact ⟨by decide, rfl, by decide⟩
  · intro info hinfo
    cases List.mem_singleton.mp hinfo
    exact ⟨by decide, by decide, by decide⟩

/-- Behind a header of 94 bytes the data is at 128, and not at the next multiple of 32, although no
alignment is a `u32`. -/
theorem wideAlignment_placed : wideAlignment.Opens ⟨64, fun _ => true⟩ ∧
    (∀ kv ∈ wideAlignment.contents.kvs, kv.value.tag ≠ FixedTy.uint32.tag) ∧
    ((openFiles ⟨64, fun _ => true⟩ [wideAlignment.file]).toOption.bind (·.tensors["t"]?)).map
      GgufTensor.absOffset = some 128 ∧
    Gguf.dataStart wideAlignment.contents.encode.length 32 = 96 :=
  ⟨wideAlignment_opens, by decide +kernel, by decide +kernel, by decide +kernel⟩

/-- An array of an array of strings and an array of numbers, and two tensors, the second of which
is 64 bytes behind the first. -/
def nestedShard : Shard where
  contents := {
    version := 3
    kvs := [⟨utf8 "tokens", .array 9 [.array 8 [.string [97, 98], .string []],
      .array 5 [.fixed .int32 (leBytes 4 7)]]⟩, alignmentKey 64]
    infos := [⟨utf8 "a", [2, 8], 0, 0⟩, ⟨utf8 "b", [32], 8, 64⟩] }
  data := List.replicate 128 7

theorem nestedShard_opens : nestedShard.Opens ⟨64, fun _ => true⟩ := by
  refine ⟨⟨by decide, by decide, ?_, by decide, ?_, by decide⟩, by decide +kernel, by decide +kernel,
    by decide +kernel⟩
  · intro kv hkv
    rcases List.mem_pair.mp hkv with rfl | rfl
    · exact ⟨by decide, by simp [Value.WellFormed, Value.AllWellFormed, Value.tag, FixedTy.tag,
        FixedTy.width], by decide⟩
    · exact ⟨by decide, rfl, by decide⟩
  · intro info hinfo
    rcases List.mem_pair.mp hinfo with rfl | rfl
    · exact ⟨by decide, by decide, by decide⟩
    · exact ⟨by decide, by decide, by decide⟩

/-- Three tensors in two files, each behind the header of its own. -/
theorem twoShards_walked : ∃ g, openFiles ⟨64, fun _ => true⟩ [nestedShard.file, wideAlignment.file] = .ok g ∧
    g.tensors["a"]? = some ⟨0, [2, 8], .F32, 256⟩ ∧ g.tensors["b"]? = some ⟨0, [32], .Q8_0, 320⟩ ∧
      g.tensors["t"]? = some ⟨1, [4], .F32, 128⟩ ∧ g.tensors["c"]? = none := by
  have hlabels : [nestedShard, wideAlignment].flatMap Shard.labels = ["a", "b", "t"] := by
    simp [Shard.labels, nestedShard, wideAlignment, TensorInfo.label, lossy_utf8]
  obtain ⟨g, hrun, hlisted, hrest⟩ := (walk_exact ⟨64, fun _ => true⟩).2.1 [nestedShard, wideAlignment]
    (by simpa using ⟨nestedShard_opens, wideAlignment_opens⟩) (by rw [hlabels]; decide)
  have hentry : ∀ (i : Nat) (s : Shard), [nestedShard, wideAlignment][i]? = some s →
      ∀ name dims ty off, ⟨utf8 name, dims, ty, off⟩ ∈ s.contents.infos → g.tensors[name]? =
        some ⟨i, dims, GgmlType.fromU32 ty, s.contents.dataStart + off.toNat⟩ := by
    intro i s hs name dims ty off hinfo
    have hlisted := hlisted i s hs _ hinfo
    rwa [TensorInfo.label, lossy_utf8] at hlisted
  have hstart : nestedShard.contents.dataStart = 256 := by decide +kernel
  have hstart' : wideAlignment.contents.dataStart = 128 := by decide
  refine ⟨g, hrun, ?_, ?_, ?_, hrest "c" (by rw [hlabels]; decide)⟩
  · have ha := hentry 0 nestedShard rfl "a" [2, 8] 0 0 (by simp [nestedShard])
    rwa [hstart] at ha
  · have hb := hentry 0 nestedShard rfl "b" [32] 8 64 (by simp [nestedShard])
    rwa [hstart] at hb
  · have ht := hentry 1 wideAlignment rfl "t" [4] 0 0 (by simp [wideAlignment])
    rwa [hstart'] at ht

end Gguf

end LlmPager
