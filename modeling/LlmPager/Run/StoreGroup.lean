import LlmPager.Core.HalfNearest
import LlmPager.Run.BlobLayout

/-!
# LlmPager.Run.StoreGroup

`q4_store_group`, which writes the scale and the nibbles of one group over those in a
buffer. The two are slices of the buffer, and the slices of all groups tile it: a store
changes those of its own group (`q4StoreGroup_spec`), and storing again what was read of
every group, in whatever order and over whatever buffer, gives the buffer that was read
(`storeAll_readGroup`).
-/

namespace LlmPager

open Lib (leNat leBytes slice poke pokeAll binary16)

/-- `(qs[2 * i] & 0x0F) | ((qs[2 * i + 1] & 0x0F) << 4)`. -/
def storeByte (qs : List UInt8) (i : Nat) : UInt8 :=
  (qs.getD (2 * i) 0 &&& (0x0F : UInt8)) ||| ((qs.getD (2 * i + 1) 0 &&& (0x0F : UInt8)) <<< (4 : UInt8))

/-- `q4_store_group`; `none` is a panic: a division by zero, a slice or an index out of
range. -/
def q4StoreGroup (dst : List UInt8) (rows cols group row g : Nat) (scale : UInt32)
    (qs : List UInt8) : Option (List UInt8) :=
  let groupsPerRow := cols / group
  let scalesLen := rows * groupsPerRow * 2
  if group = 0 ∨ dst.length < scalesLen ∨ qs.length < 2 * (group / 2) then none
  else do
    let sidx := (row * groupsPerRow + g) * 2
    let scales ← poke (dst.take scalesLen) sidx (leBytes 2 (f32ToF16Bits scale).toNat)
    let base := row * cols / 2 + g * group / 2
    let data ← pokeAll (dst.drop scalesLen)
      ((List.range (group / 2)).map fun i => (base + i, [storeByte qs i]))
    pure (scales ++ data)

/-! ### Groups -/

/-- The bytes of a group's scale. -/
def groupScale (cols group : Nat) (buf : List UInt8) (r g : Nat) : List UInt8 :=
  slice ((r * (cols / group) + g) * 2) 2 buf

/-- The bytes of its nibbles. -/
def groupNibbles (rows cols group : Nat) (buf : List UInt8) (r g : Nat) : List UInt8 :=
  slice (rows * (cols / group) * 2 + r * cols / 2 + g * group / 2) (group / 2) buf

/-- A group's scale, read back. -/
def readScale (cols group : Nat) (buf : List UInt8) (r g : Nat) : UInt32 :=
  f16BitsToF32 (UInt16.ofNat (leNat (groupScale cols group buf r g)))

/-- Its nibbles: `qs[2 * i] = b & 0x0F; qs[2 * i + 1] = b >> 4;`. -/
def readNibbles (rows cols group : Nat) (buf : List UInt8) (r g : Nat) : List UInt8 :=
  (groupNibbles rows cols group buf r g).flatMap fun b => [b &&& (0x0F : UInt8), b >>> (4 : UInt8)]

/-- The groups of `order` of one buffer, stored one after the other. -/
def storeAll (rows cols group : Nat) (buf : List UInt8) (order : List (Nat × Nat)) (dst : List UInt8) :
    Option (List UInt8) :=
  order.foldlM (fun dst p => q4StoreGroup dst rows cols group p.1 p.2
    (readScale cols group buf p.1 p.2) (readNibbles rows cols group buf p.1 p.2)) dst

/-- Two buffers have the same bytes in a group. -/
def SameGroup (rows cols group : Nat) (buf buf' : List UInt8) (r g : Nat) : Prop :=
  groupScale cols group buf r g = groupScale cols group buf' r g ∧
    groupNibbles rows cols group buf r g = groupNibbles rows cols group buf' r g

section Tiles

variable {rows cols group : Nat} {dst buf : List UInt8}

/-- The nibbles of group `n`, counted over all rows, begin after those of `n` groups. -/
theorem nibbles_place (heven : group % 2 = 0) (hcols : group ∣ cols) (r g : Nat) :
    rows * (cols / group) * 2 + r * cols / 2 + g * group / 2 =
      rows * (cols / group) * 2 + (r * (cols / group) + g) * (group / 2) := by
  rw [row_div_two heven (Nat.div_mul_cancel hcols).symm, mul_div_two heven]
  ring

/-- Different groups have different numbers. -/
theorem place_ne {n r g r' g' : Nat} (hg : g < n) (hg' : g' < n) (hne : (r', g') ≠ (r, g)) :
    r' * n + g' ≠ r * n + g := by
  rcases Nat.lt_trichotomy r r' with hlt | rfl | hgt
  · have := Lib.mul_row_le hlt n
    omega
  · intro heq
    exact hne (by rw [Nat.add_left_cancel heq])
  · have := Lib.mul_row_le hgt n
    omega

/-- A tile of each of two regions is replaced. -/
theorem store_tile {total h n : Nat} (hlen : dst.length = total * 2 + total * h) (hn : n < total)
    {scale nibbles : List UInt8} (hscale : scale.length = 2) (hnibbles : nibbles.length = h) :
    ∃ scales data, poke (dst.take (total * 2)) (n * 2) scale = some scales ∧
      poke (dst.drop (total * 2)) (n * h) nibbles = some data ∧
      (scales ++ data).length = dst.length ∧
      slice (n * 2) 2 (scales ++ data) = scale ∧
      slice (total * 2 + n * h) h (scales ++ data) = nibbles ∧
      ∀ m < total, m ≠ n →
        slice (m * 2) 2 (scales ++ data) = slice (m * 2) 2 dst ∧
          slice (total * 2 + m * h) h (scales ++ data) = slice (total * 2 + m * h) h dst := by
  have hscales : (dst.take (total * 2)).length = total * 2 := by
    rw [List.length_take]
    omega
  have hdata : (dst.drop (total * 2)).length = total * h := by
    rw [List.length_drop]
    omega
  have htile := fun m (hm : m < total) => Lib.mul_row_le hm
  have hfitsScale : n * 2 + scale.length ≤ (dst.take (total * 2)).length := by
    rw [hscales, hscale]
    exact htile n hn 2
  have hfitsData : n * h + nibbles.length ≤ (dst.drop (total * 2)).length := by
    rw [hdata, hnibbles]
    exact htile n hn h
  obtain ⟨scales, hpokeScale⟩ : ∃ scales, poke (dst.take (total * 2)) (n * 2) scale = some scales :=
    ⟨_, Lib.poke_eq hfitsScale⟩
  obtain ⟨data, hpokeData⟩ : ∃ data, poke (dst.drop (total * 2)) (n * h) nibbles = some data :=
    ⟨_, Lib.poke_eq hfitsData⟩
  have hscales' := (Lib.length_poke hpokeScale).trans hscales
  have hdata' := (Lib.length_poke hpokeData).trans hdata
  -- the slices of the two regions
  have hleft : ∀ m < total, ∀ rest, slice (m * 2) 2 (scales ++ rest) = slice (m * 2) 2 scales :=
    fun m hm rest => Lib.slice_append_left (by rw [hscales']; exact htile m hm 2)
  have hright : ∀ m, slice (total * 2 + m * h) h (scales ++ data) = slice (m * h) h data := by
    intro m
    rw [Lib.slice_append_right (by omega), hscales', Nat.add_sub_cancel_left]
  have hsplit : dst = dst.take (total * 2) ++ dst.drop (total * 2) := (List.take_append_drop _ _).symm
  refine ⟨scales, data, hpokeScale, hpokeData, ?_, ?_, ?_, ?_⟩
  · rw [List.length_append, hscales', hdata', hlen]
  · have hself := Lib.slice_poke_self hpokeScale
    rw [hscale] at hself
    rw [hleft n hn, hself]
  · have hself := Lib.slice_poke_self hpokeData
    rw [hnibbles] at hself
    rw [hright, hself]
  · intro m hm hne
    have hapart : ∀ w, m * w + w ≤ n * w ∨ n * w + w ≤ m * w := by
      intro w
      rcases Nat.lt_or_gt_of_ne hne with hlt | hgt
      · exact Or.inl (Lib.mul_row_le hlt w)
      · exact Or.inr (Lib.mul_row_le hgt w)
    constructor
    · rw [hleft m hm, Lib.slice_poke_disjoint hpokeScale (by rw [hscale]; exact hapart 2)]
      conv_rhs => rw [hsplit]
      rw [Lib.slice_append_left (by rw [hscales]; exact htile m hm 2)]
    · rw [hright, Lib.slice_poke_disjoint hpokeData (by rw [hnibbles]; exact hapart h)]
      conv_rhs => rw [hsplit]
      rw [Lib.slice_append_right (by omega), hscales, Nat.add_sub_cancel_left]

/-- **One store.** It succeeds, sets the scale and the nibbles of its group and leaves those
of every other group as they were. -/
theorem q4StoreGroup_spec (heven : group % 2 = 0) (hcols : group ∣ cols)
    (hlen : dst.length = q4Bytes rows cols group) {r g : Nat} (hr : r < rows) (hg : g < cols / group)
    (scale : UInt32) {qs : List UInt8} (hqs : group ≤ qs.length) :
    ∃ dst', q4StoreGroup dst rows cols group r g scale qs = some dst' ∧
      dst'.length = dst.length ∧
      groupScale cols group dst' r g = leBytes 2 (f32ToF16Bits scale).toNat ∧
      groupNibbles rows cols group dst' r g = (List.range (group / 2)).map (storeByte qs) ∧
      ∀ r' < rows, ∀ g' < cols / group, (r', g') ≠ (r, g) →
        SameGroup rows cols group dst' dst r' g' := by
  have hgroup : group ≠ 0 := by
    rintro rfl
    simp at hg
  have hin : ∀ r' < rows, ∀ g' < cols / group, r' * (cols / group) + g' < rows * (cols / group) := by
    intro r' hr' g' hg'
    have hrow := Lib.mul_row_le hr' (cols / group)
    omega
  rw [q4Bytes_groups rows heven (Nat.div_mul_cancel hcols).symm] at hlen
  have hbytes : (leBytes 2 (f32ToF16Bits scale).toNat).length = 2 := Lib.length_leBytes 2 _
  have hnibs : ((List.range (group / 2)).map (storeByte qs)).length = group / 2 := by simp
  obtain ⟨scales, data, hscales, hdata, hlen', hscale, hnibbles, hother⟩ :=
    store_tile hlen (hin r hr g hg) hbytes hnibs
  have hbase : r * cols / 2 + g * group / 2 = (r * (cols / group) + g) * (group / 2) := by
    have hplace := @nibbles_place 0 cols group heven hcols r g
    simpa using hplace
  have hfits : (r * (cols / group) + g) * (group / 2) + group / 2 ≤
      (dst.drop (rows * (cols / group) * 2)).length := by
    have hrow := Lib.mul_row_le (hin r hr g hg) (group / 2)
    rw [List.length_drop]
    omega
  refine ⟨scales ++ data, ?_, hlen', hscale, ?_, ?_⟩
  · unfold q4StoreGroup
    dsimp only
    rw [if_neg (by omega), hbase, Lib.pokeAll_singles _ hfits, hscales, hdata]
    rfl
  · rw [groupNibbles, nibbles_place heven hcols]
    exact hnibbles
  · intro r' hr' g' hg' hne
    unfold SameGroup groupScale groupNibbles
    rw [nibbles_place heven hcols]
    exact hother _ (hin r' hr' g' hg') (place_ne hg hg' hne)

/-! ### Reading and storing again -/

theorem length_groupNibbles (heven : group % 2 = 0) (hcols : group ∣ cols)
    (hlen : buf.length = q4Bytes rows cols group) {r g : Nat} (hr : r < rows) (hg : g < cols / group) :
    (groupNibbles rows cols group buf r g).length = group / 2 := by
  have hplace : r * (cols / group) + g < rows * (cols / group) := by
    have hrow := Lib.mul_row_le hr (cols / group)
    omega
  have hfits := Lib.mul_row_le hplace (group / 2)
  rw [q4Bytes_groups rows heven (Nat.div_mul_cancel hcols).symm] at hlen
  rw [groupNibbles, nibbles_place heven hcols]
  exact Lib.length_slice (by omega)

theorem length_groupScale (hlen : buf.length = q4Bytes rows cols group) {r g : Nat} (hr : r < rows)
    (hg : g < cols / group) : (groupScale cols group buf r g).length = 2 := by
  have hplace : r * (cols / group) + g < rows * (cols / group) := by
    have hrow := Lib.mul_row_le hr (cols / group)
    omega
  have hfits := Lib.mul_row_le hplace 2
  unfold q4Bytes at hlen
  exact Lib.length_slice (by omega)

set_option maxRecDepth 8000 in
/-- Both nibbles of a byte. -/
theorem nibbles_byte : ∀ n < 256, let b := UInt8.ofNat n
    ((b &&& (0x0F : UInt8)) &&& (0x0F : UInt8)) |||
      (((b >>> (4 : UInt8)) &&& (0x0F : UInt8)) <<< (4 : UInt8)) = b := by
  decide

theorem getD_pairs (l : List UInt8) (f f' : UInt8 → UInt8) {i : Nat} (hi : i < l.length) :
    (l.flatMap fun b => [f b, f' b]).getD (2 * i) 0 = f (l.getD i 0) ∧
      (l.flatMap fun b => [f b, f' b]).getD (2 * i + 1) 0 = f' (l.getD i 0) := by
  induction l generalizing i with
  | nil => simp at hi
  | cons b l ih =>
      cases i with
      | zero => simp
      | succ i =>
          obtain ⟨hlow, hhigh⟩ := ih (by simpa using hi)
          rw [List.flatMap_cons, List.getD_cons_succ]
          exact ⟨hlow, hhigh⟩

/-- The nibbles that were read make the bytes again. -/
theorem storeByte_readNibbles (l : List UInt8) :
    (List.range l.length).map (storeByte (l.flatMap fun b => [b &&& (0x0F : UInt8), b >>> (4 : UInt8)])) =
      l := by
  refine List.ext_getElem (by simp) ?_
  intro i hi hi'
  obtain ⟨hlow, hhigh⟩ := getD_pairs l (fun b => b &&& (0x0F : UInt8)) (fun b => b >>> (4 : UInt8)) hi'
  have hbyte := nibbles_byte (l.getD i 0).toNat (l.getD i 0).toNat_lt
  rw [List.getElem_map, List.getElem_range, storeByte, hlow, hhigh]
  rw [UInt8.ofNat_toNat] at hbyte
  exact hbyte.trans (List.getElem_eq_getD 0).symm

/-- The scale that was read makes the bytes again, unless it is a NaN. -/
theorem scale_readScale {bytes : List UInt8} (hlen : bytes.length = 2)
    (hnum : binary16.expField (UInt16.ofNat (leNat bytes)).toNat = 31 →
      binary16.fracField (UInt16.ofNat (leNat bytes)).toNat = 0) :
    leBytes 2 (f32ToF16Bits (f16BitsToF32 (UInt16.ofNat (leNat bytes)))).toNat = bytes := by
  have hlt := Lib.leNat_lt bytes
  have hbytes := Lib.leBytes_leNat bytes
  rw [hlen] at hlt hbytes
  have hword : (UInt16.ofNat (leNat bytes)).toNat = leNat bytes := by
    rw [UInt16.toNat_ofNat']
    exact Nat.mod_eq_of_lt hlt
  rw [f32ToF16Bits_f16BitsToF32 hnum, hword, hbytes]

/-- No scale of a buffer is a NaN. -/
def NumberScales (rows cols group : Nat) (buf : List UInt8) : Prop :=
  ∀ r < rows, ∀ g < cols / group,
    binary16.expField (UInt16.ofNat (leNat (groupScale cols group buf r g))).toNat = 31 →
      binary16.fracField (UInt16.ofNat (leNat (groupScale cols group buf r g))).toNat = 0

instance : Decidable (NumberScales rows cols group buf) :=
  inferInstanceAs (Decidable (∀ r < rows, ∀ g < cols / group, _ → _))

theorem SameGroup.trans {buf' : List UInt8} {r g : Nat} (h : SameGroup rows cols group dst buf' r g)
    (h' : SameGroup rows cols group buf' buf r g) : SameGroup rows cols group dst buf r g :=
  ⟨h.1.trans h'.1, h.2.trans h'.2⟩

/-- A group of `buf`, stored into `dst`. -/
theorem storeRead_spec (heven : group % 2 = 0) (hcols : group ∣ cols)
    (hbuf : buf.length = q4Bytes rows cols group) (hnum : NumberScales rows cols group buf)
    (hlen : dst.length = q4Bytes rows cols group) {r g : Nat} (hr : r < rows) (hg : g < cols / group) :
    ∃ dst', q4StoreGroup dst rows cols group r g (readScale cols group buf r g)
        (readNibbles rows cols group buf r g) = some dst' ∧
      dst'.length = q4Bytes rows cols group ∧ SameGroup rows cols group dst' buf r g ∧
      ∀ r' < rows, ∀ g' < cols / group, (r', g') ≠ (r, g) →
        SameGroup rows cols group dst' dst r' g' := by
  have hnibbles := length_groupNibbles heven hcols hbuf hr hg
  have hqs : group ≤ (readNibbles rows cols group buf r g).length := by
    have hpair : ∀ b : UInt8, [b &&& (0x0F : UInt8), b >>> (4 : UInt8)].length = 2 := fun _ => rfl
    rw [readNibbles, Lib.length_flatMap_of_const hpair, hnibbles]
    omega
  obtain ⟨dst', hstore, hlen', hscale, hdata, hother⟩ := q4StoreGroup_spec heven hcols hlen hr hg
    (readScale cols group buf r g) hqs
  refine ⟨dst', hstore, hlen'.trans hlen, ⟨?_, ?_⟩, hother⟩
  · rw [hscale]
    exact scale_readScale (length_groupScale hbuf hr hg) (hnum r hr g hg)
  · rw [hdata, ← hnibbles]
    exact storeByte_readNibbles _

/-- **Any order of groups**: those of the order are the groups of `buf`, the others stay. -/
theorem storeAll_spec (heven : group % 2 = 0) (hcols : group ∣ cols)
    (hbuf : buf.length = q4Bytes rows cols group) (hnum : NumberScales rows cols group buf)
    {order : List (Nat × Nat)} (horder : ∀ p ∈ order, p.1 < rows ∧ p.2 < cols / group)
    (hlen : dst.length = q4Bytes rows cols group) :
    ∃ dst', storeAll rows cols group buf order dst = some dst' ∧
      dst'.length = q4Bytes rows cols group ∧
      ∀ r < rows, ∀ g < cols / group,
        ((r, g) ∈ order → SameGroup rows cols group dst' buf r g) ∧
        ((r, g) ∉ order → SameGroup rows cols group dst' dst r g) := by
  induction order generalizing dst with
  | nil => exact ⟨dst, rfl, hlen, fun r _ g _ => ⟨by simp, fun _ => ⟨rfl, rfl⟩⟩⟩
  | cons p order ih =>
      obtain ⟨hp, horder⟩ := List.forall_mem_cons.mp horder
      obtain ⟨mid, hstore, hmid, hself, hother⟩ := storeRead_spec heven hcols hbuf hnum hlen hp.1 hp.2
      obtain ⟨dst', hrest, hlen', hgroups⟩ := ih horder hmid
      refine ⟨dst', ?_, hlen', ?_⟩
      · rw [storeAll, List.foldlM_cons, hstore]
        exact hrest
      · intro r hr g hg
        obtain ⟨hin, hout⟩ := hgroups r hr g hg
        rw [List.mem_cons]
        constructor
        · intro hmem
          by_cases hlater : (r, g) ∈ order
          · exact hin hlater
          · obtain rfl := hmem.resolve_right hlater
            exact (hout hlater).trans hself
        · intro hmem
          rw [not_or] at hmem
          exact (hout hmem.2).trans (hother r hr g hg hmem.1)

/-- The groups tile a buffer. -/
theorem eq_of_sameGroups (heven : group % 2 = 0) (hcols : group ∣ cols)
    (hlen : dst.length = q4Bytes rows cols group) (hbuf : buf.length = q4Bytes rows cols group)
    (h : ∀ r < rows, ∀ g < cols / group, SameGroup rows cols group dst buf r g) : dst = buf := by
  have htiles : ∀ l : List UInt8, l.length = q4Bytes rows cols group →
      l = ((List.range (rows * (cols / group))).flatMap fun n => slice (0 + n * 2) 2 l) ++
        (List.range (rows * (cols / group))).flatMap fun n =>
          slice (rows * (cols / group) * 2 + n * (group / 2)) (group / 2) l := by
    intro l hl
    rw [q4Bytes_groups rows heven (Nat.div_mul_cancel hcols).symm] at hl
    rw [Lib.flatMap_slice, Lib.flatMap_slice]
    unfold slice
    rw [List.drop_zero, List.take_of_length_le (l := List.drop _ l)]
    · exact (List.take_append_drop _ l).symm
    · rw [List.length_drop]
      omega
  have hplace : ∀ n < rows * (cols / group), slice (0 + n * 2) 2 dst = slice (0 + n * 2) 2 buf ∧
      slice (rows * (cols / group) * 2 + n * (group / 2)) (group / 2) dst =
        slice (rows * (cols / group) * 2 + n * (group / 2)) (group / 2) buf := by
    intro n hn
    have hpos : 0 < cols / group := by
      by_contra h0
      rw [Nat.eq_zero_of_not_pos h0, Nat.mul_zero] at hn
      exact absurd hn (Nat.not_lt_zero n)
    have hsame := h (n / (cols / group)) (Nat.div_lt_of_lt_mul (by rwa [Nat.mul_comm])) (n % (cols / group))
      (Nat.mod_lt _ hpos)
    unfold SameGroup groupScale groupNibbles at hsame
    rw [nibbles_place heven hcols, Nat.div_add_mod'] at hsame
    rw [Nat.zero_add]
    exact hsame
  rw [htiles dst hlen, htiles buf hbuf]
  congr 1
  · exact List.flatMap_congr fun n hn => (hplace n (List.mem_range.mp hn)).1
  · exact List.flatMap_congr fun n hn => (hplace n (List.mem_range.mp hn)).2

/-- **The store is the inverse of the read**, in any order of all groups and over any
buffer, and one store leaves the bytes of all other groups. -/
theorem storeGroup_inverse (heven : group % 2 = 0) (hcols : group ∣ cols) :
    (∀ buf dst : List UInt8, buf.length = q4Bytes rows cols group →
      dst.length = q4Bytes rows cols group → NumberScales rows cols group buf →
      ∀ order : List (Nat × Nat), (∀ p, p ∈ order ↔ p.1 < rows ∧ p.2 < cols / group) →
        storeAll rows cols group buf order dst = some buf) ∧
    ∀ dst : List UInt8, dst.length = q4Bytes rows cols group →
      ∀ r < rows, ∀ g < cols / group, ∀ (scale : UInt32) (qs : List UInt8), group ≤ qs.length →
        ∃ dst', q4StoreGroup dst rows cols group r g scale qs = some dst' ∧
          dst'.length = dst.length ∧
          groupScale cols group dst' r g = leBytes 2 (f32ToF16Bits scale).toNat ∧
          groupNibbles rows cols group dst' r g = (List.range (group / 2)).map (storeByte qs) ∧
          ∀ r' < rows, ∀ g' < cols / group, (r', g') ≠ (r, g) →
            SameGroup rows cols group dst' dst r' g' := by
  constructor
  · intro buf dst hbuf hdst hnum order horder
    obtain ⟨dst', hstore, hlen, hgroups⟩ := storeAll_spec heven hcols hbuf hnum
      (fun p hp => (horder p).mp hp) hdst
    rw [hstore, eq_of_sameGroups heven hcols hlen hbuf]
    intro r hr g hg
    exact (hgroups r hr g hg).1 ((horder (r, g)).mpr ⟨hr, hg⟩)
  · intro dst hdst r hr g hg scale qs hqs
    exact q4StoreGroup_spec heven hcols hdst hr hg scale hqs

end Tiles

/-- Two rows of one group each, the second stored first, over ones. -/
theorem storeGroup_inverse_two :
    storeAll 2 8 8 [0x00, 0x3C, 0x01, 0x80, 1, 2, 3, 4, 5, 6, 7, 8] [(1, 0), (0, 0)]
      (List.replicate 12 1) = some [0x00, 0x3C, 0x01, 0x80, 1, 2, 3, 4, 5, 6, 7, 8] := by
  refine (storeGroup_inverse (by decide) (by decide)).1 _ _ rfl rfl (by decide) _ ?_
  intro p
  obtain ⟨r, g⟩ := p
  simp
  omega

end LlmPager
