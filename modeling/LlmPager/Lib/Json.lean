import Mathlib

/-!
# LlmPager.Lib.Json

JSON values with their objects sorted by key, as `serde_json` has them by default, and
the maps that objects are built with: string keys in a search tree, of which the last
value inserted under a key counts.
-/

namespace LlmPager.Lib

/-- A JSON value. The numbers that are a `u64` are apart from all others. -/
inductive Json
  | null
  | bool (b : Bool)
  | num (n : UInt64)
  | negInt (n : Int)
  | float (bits : UInt64)
  | str (s : String)
  | arr (vs : List Json)
  | obj (entries : List (String × Json))

/-- `serde_json::to_vec` and `from_slice`. -/
structure JsonCodec where
  toVec : Json → List UInt8
  fromSlice : List UInt8 → Option Json

/-- A value is decoded from its text, with spaces behind it or not. -/
def JsonCodec.Decodes (codec : JsonCodec) (v : Json) : Prop :=
  ∀ spaces, codec.fromSlice (codec.toVec v ++ List.replicate spaces 0x20) = some v

/-! ### Maps -/

section Maps

variable {V : Type}

theorem lookup_of_mem {l : List (String × V)} (hnodup : (l.map Prod.fst).Nodup) {k : String} {v : V}
    (h : (k, v) ∈ l) : l.lookup k = some v := by
  induction l with
  | nil => cases h
  | cons kv l ih =>
      rw [List.map_cons, List.nodup_cons] at hnodup
      rcases List.mem_cons.mp h with rfl | hmem
      · simp
      · have hne : k ≠ kv.1 := fun heq => hnodup.1 (heq ▸ List.mem_map_of_mem hmem)
        obtain ⟨k', v'⟩ := kv
        rw [List.lookup_cons, beq_eq_false_iff_ne.mpr hne]
        exact ih hnodup.2 hmem

/-- Looking a key up in the entries is looking it up in the map. -/
theorem lookup_toList (t : Std.TreeMap String V) (k : String) : t.toList.lookup k = t[k]? := by
  have hnodup : (t.toList.map Prod.fst).Nodup := by
    rw [Std.TreeMap.map_fst_toList_eq_keys]
    exact t.nodup_keys
  cases hget : t[k]? with
  | some v => exact lookup_of_mem hnodup (Std.TreeMap.mem_toList_iff_getElem?_eq_some.mpr hget)
  | none =>
      rw [List.lookup_eq_none_iff]
      intro kv hkv
      obtain ⟨k', v'⟩ := kv
      rw [bne_iff_ne]
      rintro rfl
      rw [Std.TreeMap.mem_toList_iff_getElem?_eq_some, hget] at hkv
      cases hkv

theorem getElem?_insert_of_ne {t : Std.TreeMap String V} {k k' : String} {v : V} (h : k ≠ k') :
    (t.insert k v)[k']? = t[k']? := by
  rw [Std.TreeMap.getElem?_insert, if_neg]
  intro heq
  exact h (Std.LawfulEqCmp.eq_of_compare heq)

/-- What is found after a loop of inserts is what was inserted last under its key. -/
theorem getElem?_foldl_insert_iff {X : Type} {key : X → String} {val : X → V} {xs : List X}
    {k : String} {v : V} :
    (xs.foldl (fun t x => t.insert (key x) (val x)) (∅ : Std.TreeMap String V))[k]? = some v ↔
      ∃ before x after, xs = before ++ x :: after ∧ (∀ y ∈ after, key y ≠ key x) ∧ key x = k ∧
        val x = v := by
  induction xs using List.reverseRecOn with
  | nil => simp
  | append_singleton xs z ih =>
      rw [List.foldl_concat]
      by_cases hz : key z = k
      · subst hz
        rw [Std.TreeMap.getElem?_insert_self]
        constructor
        · intro h
          exact ⟨xs, z, [], rfl, by simp, rfl, Option.some.inj h⟩
        · intro h
          obtain ⟨before, x, after, hsplit, hafter, hkey, rfl⟩ := h
          rcases List.eq_nil_or_concat after with rfl | ⟨after, y, rfl⟩
          · rw [List.singleton_inj.mp (List.append_inj' hsplit rfl).2]
          · rw [List.concat_eq_append, ← List.cons_append, ← List.append_assoc] at hsplit
            have hy : z = y := List.singleton_inj.mp (List.append_inj' hsplit rfl).2
            exact absurd (hkey.symm ▸ hy ▸ rfl) (hafter y (by simp))
      · rw [getElem?_insert_of_ne hz, ih]
        constructor
        · intro h
          obtain ⟨before, x, after, rfl, hafter, hkey, hval⟩ := h
          refine ⟨before, x, after ++ [z], by simp, ?_, hkey, hval⟩
          intro y hy
          rcases List.mem_append.mp hy with hy | hy
          · exact hafter y hy
          · rw [List.mem_singleton.mp hy, hkey]
            exact hz
        · intro h
          obtain ⟨before, x, after, hsplit, hafter, hkey, hval⟩ := h
          rcases List.eq_nil_or_concat after with rfl | ⟨after, y, rfl⟩
          · have hx : z = x := List.singleton_inj.mp (List.append_inj' hsplit rfl).2
            exact absurd (hx ▸ hkey) hz
          · rw [List.concat_eq_append, ← List.cons_append, ← List.append_assoc] at hsplit
            refine ⟨before, x, after, (List.append_inj' hsplit rfl).1, ?_, hkey, hval⟩
            intro y' hy'
            exact hafter y' (by simp [hy'])

theorem forall_getElem?_foldl_insert {X : Type} {key : X → String} {val : X → V} {xs : List X}
    {P : String → V → Prop} :
    (∀ k v, (xs.foldl (fun t x => t.insert (key x) (val x)) (∅ : Std.TreeMap String V))[k]? = some v →
      P k v) ↔ ∀ before x after, xs = before ++ x :: after → (∀ y ∈ after, key y ≠ key x) →
        P (key x) (val x) := by
  constructor
  · intro h before x after hsplit hafter
    exact h _ _ (getElem?_foldl_insert_iff.mpr ⟨before, x, after, hsplit, hafter, rfl, rfl⟩)
  · intro h k v hget
    obtain ⟨before, x, after, hsplit, hafter, rfl, rfl⟩ := getElem?_foldl_insert_iff.mp hget
    exact h before x after hsplit hafter

/-- Values that are inserted under distinct keys. -/
theorem getElem?_foldl_insert {X : Type} {key : X → String} {val : X → V} {xs : List X}
    (hnodup : (xs.map key).Nodup) (t : Std.TreeMap String V) :
    (∀ x ∈ xs, (xs.foldl (fun t x => t.insert (key x) (val x)) t)[key x]? = some (val x)) ∧
      ∀ k, k ∉ xs.map key → (xs.foldl (fun t x => t.insert (key x) (val x)) t)[k]? = t[k]? := by
  induction xs generalizing t with
  | nil => exact ⟨by simp, fun _ _ => rfl⟩
  | cons x xs ih =>
      rw [List.map_cons, List.nodup_cons] at hnodup
      obtain ⟨hmem, hout⟩ := ih hnodup.2 (t.insert (key x) (val x))
      rw [List.foldl_cons]
      constructor
      · intro y hy
        rcases List.mem_cons.mp hy with rfl | hy
        · rw [hout _ hnodup.1, Std.TreeMap.getElem?_insert_self]
        · exact hmem y hy
      · intro k hk
        rw [List.map_cons, List.mem_cons, not_or] at hk
        rw [hout k hk.2, getElem?_insert_of_ne (Ne.symm hk.1)]

end Maps

namespace Json

/-- `json!({..})`: an object of these entries. -/
def object (entries : List (String × Json)) : Json :=
  .obj (entries.foldl (fun m kv => m.insert kv.1 kv.2) (∅ : Std.TreeMap String Json)).toList

/-- `v[key]`: `Null` where there is no such entry. -/
def get (v : Json) (key : String) : Json :=
  match v with
  | obj entries => (entries.lookup key).getD null
  | _ => null

/-- `v[key] = x` of an object; of other values it is a panic. -/
def set (v : Json) (key : String) (x : Json) : Option Json :=
  match v with
  | obj entries =>
      some (.obj ((entries.filter (·.1 ≠ key)).orderedInsert (fun a b => a.1 ≤ b.1) (key, x)))
  | _ => none

def isNull : Json → Bool
  | null => true
  | _ => false

def asU64 : Json → Option UInt64
  | num n => some n
  | _ => none

def asStr : Json → Option String
  | str s => some s
  | _ => none

def asArray : Json → Option (List Json)
  | arr vs => some vs
  | _ => none

def asObject : Json → Option (List (String × Json))
  | obj entries => some entries
  | _ => none

/-- The entry of an object under one of its distinct keys. -/
theorem get_object {entries : List (String × Json)} (hnodup : (entries.map Prod.fst).Nodup)
    {key : String} {v : Json} (h : (key, v) ∈ entries) : (object entries).get key = v := by
  show (List.lookup key _).getD null = v
  rw [lookup_toList, (getElem?_foldl_insert hnodup ∅).1 (key, v) h]
  rfl

theorem get_object_of_notMem {entries : List (String × Json)}
    (hnodup : (entries.map Prod.fst).Nodup) {key : String} (h : key ∉ entries.map Prod.fst) :
    (object entries).get key = null := by
  show (List.lookup key _).getD null = null
  rw [lookup_toList, (getElem?_foldl_insert hnodup ∅).2 key h]
  rfl

theorem lookup_orderedInsert {entries : List (String × Json)} {key : String} (x : Json)
    (h : ∀ kv ∈ entries, kv.1 ≠ key) (k : String) :
    (entries.orderedInsert (fun a b => a.1 ≤ b.1) (key, x)).lookup k =
      if k = key then some x else entries.lookup k := by
  have hfront : ∀ l : List (String × Json), List.lookup k ((key, x) :: l) =
      if k = key then some x else l.lookup k := by
    intro l
    rw [List.lookup_cons]
    by_cases hk : k = key
    · simp [hk]
    · rw [beq_eq_false_iff_ne.mpr hk, if_neg hk]
  induction entries with
  | nil => exact hfront []
  | cons kv entries ih =>
      rw [List.orderedInsert_cons]
      split
      · exact hfront _
      · obtain ⟨k', v⟩ := kv
        have hne : k' ≠ key := h _ List.mem_cons_self
        rw [List.lookup_cons, List.lookup_cons, ih fun kv hkv => h kv (List.mem_cons_of_mem _ hkv)]
        by_cases hk : k = k'
        · simp [hk, hne]
        · rw [beq_eq_false_iff_ne.mpr hk]

theorem lookup_filter_ne {entries : List (String × Json)} {key k : String} (h : k ≠ key) :
    (entries.filter (·.1 ≠ key)).lookup k = entries.lookup k := by
  induction entries with
  | nil => rfl
  | cons kv entries ih =>
      obtain ⟨k', v⟩ := kv
      rw [List.lookup_cons]
      by_cases hk' : k' = key
      · rw [List.filter_cons_of_neg (by simpa using hk'), ih, hk', beq_eq_false_iff_ne.mpr h]
      · rw [List.filter_cons_of_pos (by simpa using hk'), List.lookup_cons, ih]

/-- Writing one field of an object. -/
theorem get_set {v v' : Json} {key : String} {x : Json} (h : v.set key x = some v') (k : String) :
    v'.get k = if k = key then x else v.get k := by
  cases v with
  | obj entries =>
      cases h
      have hall : ∀ kv ∈ entries.filter (·.1 ≠ key), kv.1 ≠ key := by
        intro kv hkv
        simpa using List.of_mem_filter hkv
      show (List.lookup k _).getD null = _
      rw [lookup_orderedInsert x hall]
      by_cases hk : k = key
      · simp [hk]
      · rw [if_neg hk, if_neg hk, lookup_filter_ne hk]
        rfl
  | _ => cases h

end Json

end LlmPager.Lib
