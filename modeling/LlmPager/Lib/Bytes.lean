import Mathlib

/-!
# LlmPager.Lib.Bytes

Files written and read in pieces.

Little-endian integers of a fixed width (`leBytes`, `leNat`), the slices of a
concatenation, and `Sink`: a file with a write position that may be moved past
its end. Consecutive writes are one write (`Sink.write_write`), so that what a
writer leaves behind is computed from what it wrote, not from how. A writer may
also stop: `FileOp` are its operations in order, of which the file has seen the
first few items only.
-/

namespace LlmPager.Lib

/-! ### Little-endian integers -/

/-- The `w` low bytes of `n`, least significant first. -/
def leBytes : Nat → Nat → List UInt8
  | 0, _ => []
  | w + 1, n => UInt8.ofNat n :: leBytes w (n / 256)

/-- The number with these bytes. -/
def leNat : List UInt8 → Nat
  | [] => 0
  | b :: bs => b.toNat + 256 * leNat bs

@[simp] theorem length_leBytes (w n : Nat) : (leBytes w n).length = w := by
  induction w generalizing n with
  | zero => rfl
  | succ w ih => simp [leBytes, ih]

theorem leNat_leBytes (w n : Nat) : leNat (leBytes w n) = n % 256 ^ w := by
  induction w generalizing n with
  | zero => simp [leBytes, leNat, Nat.mod_one]
  | succ w ih =>
      show (UInt8.ofNat n).toNat + 256 * leNat (leBytes w (n / 256)) = _
      have hbyte : (UInt8.ofNat n).toNat = n % 256 := by simp
      rw [ih, hbyte, Nat.pow_succ, Nat.mul_comm (256 ^ w), Nat.mod_mul]

theorem leNat_lt (bs : List UInt8) : leNat bs < 256 ^ bs.length := by
  induction bs with
  | nil => exact Nat.one_pos
  | cons b bs ih =>
      have hb := b.toNat_lt
      rw [List.length_cons, Nat.pow_succ]
      show b.toNat + 256 * leNat bs < _
      omega

/-- The bytes of a number, from the number. -/
theorem leBytes_leNat (bs : List UInt8) : leBytes bs.length (leNat bs) = bs := by
  induction bs with
  | nil => rfl
  | cons b bs ih =>
      have hb := b.toNat_lt
      have hdiv : (b.toNat + 256 * leNat bs) / 256 = leNat bs := by omega
      have hbyte : UInt8.ofNat (b.toNat + 256 * leNat bs) = b := by
        refine UInt8.toNat_inj.mp ?_
        rw [UInt8.toNat_ofNat']
        omega
      show UInt8.ofNat (b.toNat + 256 * leNat bs) ::
        leBytes bs.length ((b.toNat + 256 * leNat bs) / 256) = _
      rw [hdiv, hbyte, ih]

/-- Zero bytes behind a number do not change it. -/
theorem leNat_zeroes (bs : List UInt8) (r : Nat) : leNat (bs ++ List.replicate r 0) = leNat bs := by
  induction bs with
  | nil =>
      induction r with
      | zero => rfl
      | succ r ih =>
          show (0 : UInt8).toNat + 256 * leNat ([] ++ List.replicate r 0) = 0
          rw [ih]
          rfl
  | cons b bs ih =>
      show b.toNat + 256 * leNat (bs ++ List.replicate r 0) = b.toNat + 256 * leNat bs
      rw [ih]

theorem take_leBytes (w n k : Nat) : (leBytes w n).take k = leBytes (min k w) n := by
  induction w generalizing n k with
  | zero => simp [leBytes]
  | succ w ih =>
      cases k with
      | zero => simp [leBytes]
      | succ k =>
          rw [Nat.add_min_add_right]
          show UInt8.ofNat n :: (leBytes w (n / 256)).take k = _
          rw [ih]
          rfl

/-- A number of which only the low `k` bytes were written over zeroes. -/
theorem leNat_cut {w n : Nat} (hn : n < 256 ^ w) (k r : Nat) :
    leNat ((leBytes w n).take k ++ List.replicate r 0) = n % 256 ^ k := by
  rw [leNat_zeroes, take_leBytes, leNat_leBytes]
  rcases Nat.le_total k w with hle | hle
  · rw [Nat.min_eq_left hle]
  · rw [Nat.min_eq_right hle, Nat.mod_eq_of_lt hn,
      Nat.mod_eq_of_lt (hn.trans_le (Nat.pow_le_pow_right (by decide) hle))]

theorem leNat_leBytes_of_lt {w n : Nat} (h : n < 256 ^ w) : leNat (leBytes w n) = n := by
  rw [leNat_leBytes, Nat.mod_eq_of_lt h]

/-! ### Slices -/

variable {α : Type}

/-- The `len` items from `off` on. -/
def slice (off len : Nat) (l : List α) : List α := (l.drop off).take len

theorem slice_append_left {off len : Nat} {l m : List α} (h : off + len ≤ l.length) :
    slice off len (l ++ m) = slice off len l := by
  unfold slice
  rw [List.drop_append_of_le_length (by omega), List.take_append_of_le_length]
  rw [List.length_drop]
  omega

theorem slice_append_right {off len : Nat} {l m : List α} (h : l.length ≤ off) :
    slice off len (l ++ m) = slice (off - l.length) len m := by
  unfold slice
  rw [List.drop_append, List.drop_eq_nil_of_le h, List.nil_append]

theorem slice_front {n : Nat} {l m : List α} (h : l.length = n) : slice 0 n (l ++ m) = l := by
  show (l ++ m).take n = l
  rw [← h, List.take_left']
  rfl

/-- A slice of a list of which only the first `k` items are there, over a
filling. -/
theorem slice_cut {off len : Nat} {l : List α} (h : off + len ≤ l.length) (k : Nat) (z : α) :
    slice off len (l.take k ++ List.replicate (l.length - k) z) =
      (slice off len l).take (k - off) ++ List.replicate (len - (k - off)) z := by
  refine List.ext_getElem? fun i => ?_
  unfold slice
  simp only [List.getElem?_take, List.getElem?_drop, List.getElem?_append, List.getElem?_replicate,
    List.length_take, List.length_drop]
  by_cases hi : i < len
  · by_cases hk : off + i < k
    · rw [if_pos hi, if_pos (by omega), if_pos hk, if_pos (by omega), if_pos (by omega), if_pos hi]
    · rw [if_pos hi, if_neg (by omega), if_pos (by omega), if_neg (by omega), if_pos (by omega)]
  · rw [if_neg hi, if_neg (by omega), if_neg (by omega)]

/-- Records of one size stand at the multiples of that size. -/
theorem slice_flatMap {β : Type} {f : β → List α} {k : Nat} (hf : ∀ b, (f b).length = k)
    (l : List β) (i : Nat) (h : i < l.length) : slice (i * k) k (l.flatMap f) = f l[i] := by
  induction l generalizing i with
  | nil => simp at h
  | cons b l ih =>
      rw [List.flatMap_cons]
      cases i with
      | zero =>
          rw [Nat.zero_mul]
          exact slice_front (hf b)
      | succ i =>
          have hk : (i + 1) * k - k = i * k := by
            rw [Nat.add_mul, Nat.one_mul, Nat.add_sub_cancel]
          rw [slice_append_right (by rw [hf, Nat.add_mul]; omega), hf, hk]
          exact ih i (by simpa using h)

theorem length_flatMap_of_const {β : Type} {f : β → List α} {k : Nat}
    (hf : ∀ b, (f b).length = k) (l : List β) : (l.flatMap f).length = l.length * k := by
  rw [List.length_flatMap, List.map_congr_left fun b _ => hf b, List.map_const', List.sum_replicate]
  rfl

theorem length_slice {off len : Nat} {l : List α} (h : off + len ≤ l.length) :
    (slice off len l).length = len := by
  unfold slice
  rw [List.length_take, List.length_drop]
  omega

/-- A slice of a slice. -/
theorem slice_slice {off len i n : Nat} {l : List α} (h : i + n ≤ len) :
    slice i n (slice off len l) = slice (off + i) n l := by
  unfold slice
  rw [List.drop_take, List.take_take, List.drop_drop, Nat.min_eq_left (by omega)]

/-- A slice in pieces of `w`. -/
theorem flatMap_slice (off w n : Nat) (l : List α) :
    ((List.range n).flatMap fun i => slice (off + i * w) w l) = slice off (n * w) l := by
  induction n with
  | zero => simp [slice]
  | succ n ih =>
      rw [List.range_succ, List.flatMap_append, ih]
      unfold slice
      rw [Nat.add_mul, Nat.one_mul, List.take_add, List.drop_drop]
      simp

/-! ### Tables -/

/-- Row `i` of `n` rows lies among them. -/
theorem mul_row_le {i n : Nat} (h : i < n) (size : Nat) : i * size + size ≤ n * size :=
  calc i * size + size = (i + 1) * size := by ring
    _ ≤ n * size := Nat.mul_le_mul_right size h

/-- Item `h` of block `s`. -/
theorem block_lt {s slots h heads : Nat} (hs : s < slots) (hh : h < heads) :
    s * heads + h < slots * heads :=
  calc s * heads + h < s * heads + heads := by omega
    _ ≤ slots * heads := mul_row_le hs heads

/-- The cells of a table, row by row. -/
def table (rows cols : Nat) (f : Nat → Nat → List α) : List α :=
  (List.range rows).flatMap fun r => (List.range cols).flatMap (f r)

variable {rows cols w : Nat} {f : Nat → Nat → List α}

theorem length_table (hf : ∀ r c, (f r c).length = w) : (table rows cols f).length = rows * cols * w := by
  unfold table
  rw [length_flatMap_of_const (k := cols * w) fun r => by
      rw [length_flatMap_of_const (hf r), List.length_range], List.length_range, Nat.mul_assoc]

/-- Cell `(r, c)` is the one that many cells behind the first. -/
theorem slice_table (hf : ∀ r c, (f r c).length = w) {r c : Nat} (hr : r < rows) (hc : c < cols) :
    slice ((r * cols + c) * w) w (table rows cols f) = f r c := by
  have hrow : ∀ r, ((List.range cols).flatMap (f r)).length = cols * w := fun r => by
    rw [length_flatMap_of_const (hf r), List.length_range]
  have hin : c * w + w ≤ cols * w := mul_row_le hc w
  have hoff : (r * cols + c) * w = r * (cols * w) + c * w := by ring
  rw [hoff, ← slice_slice hin, table, slice_flatMap hrow _ r (by simpa using hr), List.getElem_range,
    slice_flatMap (hf r) _ c (by simpa using hc), List.getElem_range]

/-- Two loops are one over the cells' numbers. -/
theorem flatMap_map_range {β : Type} (a b : Nat) (F : Nat → Nat → β) :
    ((List.range a).flatMap fun r => (List.range b).map (F r)) =
      (List.range (a * b)).map fun k => F (k / b) (k % b) := by
  induction a with
  | zero => simp
  | succ a ih =>
      rw [List.range_succ, List.flatMap_append, ih, Nat.add_mul, Nat.one_mul, List.range_add,
        List.map_append, List.map_map, List.flatMap_singleton]
      congr 1
      refine List.map_congr_left fun c hc => ?_
      have hlt : c < b := by simpa using hc
      have hdiv : (a * b + c) / b = a := by
        rw [Nat.mul_comm, Nat.mul_add_div (by omega), Nat.div_eq_of_lt hlt, Nat.add_zero]
      have hmod : (a * b + c) % b = c := by rw [Nat.mul_comm, Nat.mul_add_mod, Nat.mod_eq_of_lt hlt]
      simp only [Function.comp_apply, hdiv, hmod]

theorem table_eq_range (rows cols : Nat) (f : Nat → Nat → List α) :
    table rows cols f = (List.range (rows * cols)).flatMap fun k => f (k / cols) (k % cols) := by
  have h := congrArg List.flatten (flatMap_map_range rows cols f)
  rw [← List.flatMap_def] at h
  rw [← h, table, List.flatMap_def, List.flatMap_def, List.flatten_flatten, List.map_map]
  rfl

theorem table_of_range (rows cols : Nat) (h : Nat → List α) :
    (table rows cols fun r c => h (r * cols + c)) = (List.range (rows * cols)).flatMap h := by
  rw [table_eq_range]
  simp only [Nat.div_add_mod']

/-- A table whose cells are rows of a finer one. -/
theorem table_table (rows cols k : Nat) (f : Nat → Nat → Nat → List α) :
    (table rows (cols * k) fun r c => f r (c / k) (c % k)) =
      table rows cols fun r c => (List.range k).flatMap (f r c) :=
  List.flatMap_congr fun r _ => (table_eq_range cols k (f r)).symm

/-! ### A buffer being filled -/

/-- `bs` in place of the items from `a` on; `none` where they do not fit. -/
def poke (l : List α) (a : Nat) (bs : List α) : Option (List α) :=
  if a + bs.length ≤ l.length then some (l.take a ++ bs ++ l.drop (a + bs.length)) else none

/-- Several, in this order. -/
def pokeAll (l : List α) (ws : List (Nat × List α)) : Option (List α) :=
  ws.foldlM (fun l w => poke l w.1 w.2) l

theorem poke_eq {l : List α} {a : Nat} {bs : List α} (h : a + bs.length ≤ l.length) :
    poke l a bs = some (l.take a ++ bs ++ l.drop (a + bs.length)) := if_pos h

theorem length_pokeAll {l l' : List α} {ws : List (Nat × List α)} (h : pokeAll l ws = some l') :
    l'.length = l.length := by
  induction ws generalizing l with
  | nil =>
      cases h
      rfl
  | cons w ws ih =>
      obtain ⟨mid, hmid, hrest⟩ := Option.bind_eq_some_iff.mp h
      rw [ih hrest]
      by_cases hfits : w.1 + w.2.length ≤ l.length
      · obtain rfl := Option.some.inj ((if_pos hfits).symm.trans hmid)
        simp only [List.length_append, List.length_take, List.length_drop]
        omega
      · cases (if_neg hfits).symm.trans hmid

theorem length_poke {l l' : List α} {a : Nat} {bs : List α} (h : poke l a bs = some l') :
    l'.length = l.length := by
  have hall : pokeAll l [(a, bs)] = some l' := by
    rw [pokeAll, List.foldlM_cons, h]
    rfl
  exact length_pokeAll hall

/-- What was put is there. -/
theorem slice_poke_self {l l' : List α} {a : Nat} {bs : List α} (h : poke l a bs = some l') :
    slice a bs.length l' = bs := by
  unfold poke at h
  split_ifs at h with hfits
  cases h
  have hlen : (l.take a).length = a := by
    rw [List.length_take]
    omega
  rw [List.append_assoc, slice_append_right hlen.le, hlen, Nat.sub_self, slice_front rfl]

/-- The rest stays. -/
theorem slice_poke_disjoint {l l' : List α} {a off len : Nat} {bs : List α} (h : poke l a bs = some l')
    (hdisj : off + len ≤ a ∨ a + bs.length ≤ off) : slice off len l' = slice off len l := by
  unfold poke at h
  split_ifs at h with hfits
  cases h
  have hlen : (l.take a).length = a := by
    rw [List.length_take]
    omega
  rcases hdisj with hbefore | hafter
  · rw [List.append_assoc, slice_append_left (by omega)]
    unfold slice
    rw [List.drop_take, List.take_take, Nat.min_eq_left (by omega)]
  · have hhead : (l.take a ++ bs).length = a + bs.length := by rw [List.length_append, hlen]
    rw [slice_append_right (by omega), hhead]
    unfold slice
    rw [List.drop_drop]
    congr 2
    omega

/-- Items put one by one from `base` on. -/
theorem pokeAll_singles (f : Nat → α) {l : List α} {base n : Nat} (h : base + n ≤ l.length) :
    pokeAll l ((List.range n).map fun i => (base + i, [f i])) = poke l base ((List.range n).map f) := by
  induction n with
  | zero =>
      rw [Nat.add_zero] at h
      simp [pokeAll, poke, h]
  | succ n ih =>
      have hfits : base + ((List.range n).map f).length ≤ l.length := by
        rw [List.length_map, List.length_range]
        omega
      have hmid := poke_eq hfits
      rw [List.length_map, List.length_range] at hmid
      have hlen : (l.take base ++ (List.range n).map f).length = base + n := by
        rw [List.length_append, List.length_take, List.length_map, List.length_range]
        omega
      have hall : (l.take base ++ (List.range n).map f ++ l.drop (base + n)).length = l.length := by
        rw [List.length_append, hlen, List.length_drop]
        omega
      rw [List.range_succ, List.map_append, pokeAll, List.foldlM_append]
      show (pokeAll l _).bind _ = _
      rw [ih (by omega), hmid]
      show (poke _ (base + n) [f n] >>= fun l => some l) = _
      rw [poke_eq (by rw [hall]; simp; omega), poke_eq (by simp; omega)]
      simp only [Option.bind_eq_bind, Option.bind_some, List.map_append, List.map_cons, List.map_nil,
        List.length_append, List.length_map, List.length_range, List.length_cons, List.length_nil]
      rw [List.take_left' hlen, List.drop_append, hlen, List.drop_eq_nil_of_le (by rw [hlen]; omega),
        List.drop_drop, Nat.zero_add, Nat.add_sub_cancel_left, Nat.add_assoc base n 1]
      simp

/-- Pieces of one length, one behind the other. -/
theorem pokeAll_range {g : Nat → List α} (hg : ∀ k, (g k).length = w) {l : List α} {n : Nat}
    (h : n * w ≤ l.length) : pokeAll l ((List.range n).map fun k => (k * w, g k)) =
      some ((List.range n).flatMap g ++ l.drop (n * w)) := by
  induction n with
  | zero => simp [pokeAll]
  | succ n ih =>
      rw [Nat.add_mul, Nat.one_mul] at h
      have hlen : ((List.range n).flatMap g).length = n * w := by
        rw [length_flatMap_of_const hg, List.length_range]
      rw [List.range_succ, List.map_append, pokeAll, List.foldlM_append]
      show (pokeAll l _).bind _ = _
      rw [ih (by omega)]
      show ([(n * w, g n)].foldlM (fun l w => poke l w.1 w.2) _ : Option (List α)) = _
      have hfits : n * w + (g n).length ≤ ((List.range n).flatMap g ++ l.drop (n * w)).length := by
        rw [List.length_append, hlen, List.length_drop, hg]
        omega
      simp only [List.foldlM_cons, List.foldlM_nil, poke, if_pos hfits]
      rw [List.take_left' hlen, List.drop_append, hlen, List.drop_eq_nil_of_le (by rw [hlen]; omega),
        List.drop_drop, hg, Nat.add_sub_cancel_left, List.flatMap_append, Nat.add_mul, Nat.one_mul]
      simp

/-- Pieces that fill the buffer. -/
theorem pokeAll_range_full {g : Nat → List α} (hg : ∀ k, (g k).length = w) {l : List α} {n : Nat}
    (h : l.length = n * w) : pokeAll l ((List.range n).map fun k => (k * w, g k)) =
      some ((List.range n).flatMap g) := by
  rw [pokeAll_range hg (Nat.le_of_eq h.symm), List.drop_eq_nil_of_le (Nat.le_of_eq h),
    List.append_nil]

/-- If they fitted, they ended inside the buffer. -/
theorem pokeAll_range_le {g : Nat → List α} (hg : ∀ k, (g k).length = w) {l l' : List α} {n : Nat}
    (h : pokeAll l ((List.range n).map fun k => (k * w, g k)) = some l') : n * w ≤ l.length := by
  induction n generalizing l' with
  | zero => simp
  | succ n ih =>
      rw [List.range_succ, List.map_append, pokeAll, List.foldlM_append] at h
      obtain ⟨mid, hmid, hlast⟩ := Option.bind_eq_some_iff.mp h
      have hle := ih hmid
      have hmid' : mid = (List.range n).flatMap g ++ l.drop (n * w) :=
        Option.some.inj (hmid.symm.trans (pokeAll_range hg hle))
      have hlen : mid.length = l.length := by
        rw [hmid', List.length_append, length_flatMap_of_const hg, List.length_range,
          List.length_drop]
        omega
      by_contra hbig
      have hout : ¬ n * w + (g n).length ≤ mid.length := by
        rw [hlen, hg]
        rw [Nat.add_mul, Nat.one_mul] at hbig
        omega
      simp [poke, hout] at hlast

theorem flatMap_replicate {β : Type} (l : List β) (w : Nat) (z : α) :
    (l.flatMap fun _ => List.replicate w z) = List.replicate (l.length * w) z := by
  induction l with
  | nil => simp
  | cons b l ih =>
      rw [List.flatMap_cons, ih, List.length_cons, Nat.add_mul, Nat.one_mul, Nat.add_comm,
        List.replicate_add]

/-- Pieces that fitted into a buffer of `z`, with what is left of it. -/
theorem pokeAll_range_padded (hw : 0 < w) {g : Nat → List α} (hg : ∀ k, (g k).length = w) {z : α}
    {l' : List α} {n total : Nat} (h : pokeAll (List.replicate (total * w) z)
      ((List.range n).map fun k => (k * w, g k)) = some l') :
    l' = (List.range total).flatMap fun k => if k < n then g k else List.replicate w z := by
  have hle := pokeAll_range_le hg h
  rw [List.length_replicate] at hle
  have hn : n ≤ total := Nat.le_of_mul_le_mul_right hle hw
  rw [pokeAll_range hg (by simpa using hle)] at h
  cases h
  obtain ⟨k, rfl⟩ := Nat.exists_eq_add_of_le hn
  rw [List.range_add, List.flatMap_append, List.drop_replicate, ← Nat.sub_mul,
    Nat.add_sub_cancel_left]
  congr 1
  · refine List.flatMap_congr fun i hi => ?_
    rw [if_pos (by simpa using hi)]
  · have hfill : ∀ i ∈ (List.range k).map (n + ·),
        (if i < n then g i else List.replicate w z) = List.replicate w z := by
      intro i hi
      obtain ⟨j, -, rfl⟩ := List.mem_map.mp hi
      rw [if_neg (by omega)]
    rw [List.flatMap_congr hfill, flatMap_replicate, List.length_map, List.length_range]

/-! ### A file being written -/

/-- A file and the position of the next write. -/
structure Sink (α : Type) where
  data : List α
  pos : Nat
  deriving Repr, DecidableEq

namespace Sink

variable [Inhabited α]

def seek (f : Sink α) (pos : Nat) : Sink α := { f with pos := pos }

/-- What is before the position, a gap after the end filled up. -/
def before (f : Sink α) : List α :=
  (f.data ++ List.replicate (f.pos - f.data.length) default).take f.pos

/-- Writing nothing leaves the file alone, wherever the position. -/
def write (f : Sink α) (b : List α) : Sink α :=
  if b = [] then f
  else { data := f.before ++ b ++ f.data.drop (f.pos + b.length), pos := f.pos + b.length }

@[simp] theorem length_before (f : Sink α) : f.before.length = f.pos := by
  simp only [before, List.length_take, List.length_append, List.length_replicate]
  omega

@[simp] theorem write_nil (f : Sink α) : f.write [] = f := if_pos rfl

@[simp] theorem write_pos (f : Sink α) (b : List α) : (f.write b).pos = f.pos + b.length := by
  unfold write
  split
  · rename_i h
    rw [h]
    rfl
  · rfl

/-- What was written stands before the new position. -/
theorem before_write (f : Sink α) (b : List α) : (f.write b).before = f.before ++ b := by
  by_cases h : b = []
  · rw [h, write_nil, List.append_nil]
  · have hpos : (f.before ++ b).length = f.pos + b.length := by simp
    show ((f.write b).data ++ _).take (f.write b).pos = _
    rw [write_pos, write, if_neg h, List.append_assoc, List.take_append_of_le_length hpos.ge,
      List.take_of_length_le hpos.le]

/-- **Consecutive writes are one write.** -/
theorem write_write (f : Sink α) (a b : List α) : (f.write a).write b = f.write (a ++ b) := by
  by_cases hb : b = []
  · rw [hb, write_nil, List.append_nil]
  · by_cases ha : a = []
    · rw [ha, write_nil, List.nil_append]
    · have hdata : (f.write a).data.drop ((f.write a).pos + b.length)
          = f.data.drop (f.pos + (a ++ b).length) := by
        rw [write_pos, write, if_neg ha]
        show (f.before ++ a ++ f.data.drop (f.pos + a.length)).drop _ = _
        rw [List.drop_append, List.drop_eq_nil_of_le (by simp), List.nil_append,
          List.drop_drop, List.length_append, List.length_append, length_before]
        congr 1
        omega
      have hab : a ++ b ≠ [] := by simp [ha]
      conv_lhs => rw [write, if_neg hb, hdata, before_write, write_pos]
      rw [write, if_neg hab, List.length_append, List.append_assoc f.before, Nat.add_assoc]

/-- A run of writes is one write. -/
theorem foldl_write (f : Sink α) (bs : List (List α)) :
    bs.foldl write f = f.write bs.flatten := by
  induction bs generalizing f with
  | nil => exact (write_nil f).symm
  | cons b bs ih => rw [List.foldl_cons, ih, write_write, List.flatten_cons]

/-- Overwriting from the start of a file. -/
theorem write_start {f : Sink α} (hpos : f.pos = 0) (b : List α) :
    (f.write b).data = b ++ f.data.drop b.length := by
  by_cases hb : b = []
  · rw [hb, write_nil]
    rfl
  · have hnone : f.before = [] := List.length_eq_zero_iff.mp ((length_before f).trans hpos)
    rw [write, if_neg hb, hnone, hpos, Nat.zero_add, List.nil_append]

/-- Writing at or past the end of a file. -/
theorem write_end {f : Sink α} (hend : f.data.length ≤ f.pos) {b : List α} (hb : b ≠ []) :
    (f.write b).data = f.data ++ List.replicate (f.pos - f.data.length) default ++ b := by
  have hbefore : f.before = f.data ++ List.replicate (f.pos - f.data.length) default := by
    rw [before, List.take_of_length_le]
    simp only [List.length_append, List.length_replicate]
    omega
  rw [write, if_neg hb, hbefore, List.drop_eq_nil_of_le (by omega), List.append_nil]

end Sink

/-! ### A file whose writing stops -/

/-- What a program asks of a file it writes. -/
inductive FileOp (α : Type)
  | seek (pos : Nat)
  | write (b : List α)
  deriving Repr, DecidableEq

/-- The same, one item at a time. -/
def FileOp.itemwise : FileOp α → List (FileOp α)
  | .seek pos => [.seek pos]
  | .write b => b.map fun x => .write [x]

namespace Sink

variable [Inhabited α]

def run (f : Sink α) : FileOp α → Sink α
  | .seek pos => f.seek pos
  | .write b => f.write b

/-- The file after some operations. -/
def replay (f : Sink α) (ops : List (FileOp α)) : Sink α := ops.foldl run f

/-- Items written one after the other are one write. -/
theorem replay_items (f : Sink α) (b : List α) :
    f.replay (b.map fun x => .write [x]) = f.write b := by
  induction b generalizing f with
  | nil => exact (write_nil f).symm
  | cons x b ih =>
      show (f.write [x]).replay (b.map fun x => .write [x]) = _
      rw [ih, write_write]
      rfl

theorem replay_append (f : Sink α) (ops ops' : List (FileOp α)) :
    f.replay (ops ++ ops') = (f.replay ops).replay ops' := List.foldl_append

/-- A write that stops has written its first items. -/
theorem replay_take_items (f : Sink α) (b : List α) (n : Nat) :
    f.replay ((b.map fun x => FileOp.write [x]).take n) = f.write (b.take n) := by
  rw [← List.map_take, replay_items]

end Sink

end LlmPager.Lib
