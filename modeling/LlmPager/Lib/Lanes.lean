import LlmPager.Lib.Bytes

/-!
# LlmPager.Lib.Lanes

A byte-addressed memory, and lanes laid out in it.

`Lanes` is a set of equally long arrays (`cap` rows of `row` bytes), one for
each lane and slot, no two of which overlap; its `cell`s are the rows. What is
written into whole rows is read back from them and from no other
(`Lanes.cell_writeAll`), and a prefix of a slot can be taken out into one buffer
and put back (`Lanes.extract`, `Lanes.insert`).

A transfer between a buffer and the memory is a list of `Frame`s: a range of the
buffer and the address that it is copied from or to.
-/

namespace LlmPager.Lib

/-- A memory of bytes. -/
abbrev Mem := Nat → UInt8

/-- The ranges `[a, a + n)` and `[b, b + k)` do not overlap. -/
def Apart (a n b k : Nat) : Prop := a + n ≤ b ∨ b + k ≤ a

theorem Apart.symm {a n b k : Nat} (h : Apart a n b k) : Apart b k a n := Or.symm h

theorem Apart.mono {a n b k a' n' b' k' : Nat} (h : Apart a n b k) (ha : a ≤ a')
    (han : a' + n' ≤ a + n) (hb : b ≤ b') (hbk : b' + k' ≤ b + k) : Apart a' n' b' k' := by
  unfold Apart at *
  omega

/-- Two of the consecutive ranges of `size` bytes. -/
theorem apart_mul {i j : Nat} (h : i ≠ j) (size : Nat) : Apart (i * size) size (j * size) size := by
  unfold Apart
  rcases Nat.lt_or_gt_of_ne h with hlt | hgt
  · left
    calc i * size + size = (i + 1) * size := by ring
      _ ≤ j * size := Nat.mul_le_mul_right size hlt
  · right
    calc j * size + size = (j + 1) * size := by ring
      _ ≤ i * size := Nat.mul_le_mul_right size hgt

theorem Apart.add_left {a n b k : Nat} (h : Apart a n b k) (base : Nat) :
    Apart (base + a) n (base + b) k := by
  unfold Apart at *
  omega

namespace Mem

def read (m : Mem) (a n : Nat) : List UInt8 := (List.range n).map fun i => m (a + i)

def write (m : Mem) (a : Nat) (bs : List UInt8) : Mem := fun x =>
  if a ≤ x then bs.getD (x - a) (m x) else m x

/-- Writes in this order, each with its address. -/
def writeAll (m : Mem) (ws : List (Nat × List UInt8)) : Mem :=
  ws.foldl (fun m w => m.write w.1 w.2) m

@[simp] theorem writeAll_nil (m : Mem) : m.writeAll [] = m := rfl

@[simp] theorem writeAll_cons (m : Mem) (w : Nat × List UInt8) (ws : List (Nat × List UInt8)) :
    m.writeAll (w :: ws) = (m.write w.1 w.2).writeAll ws := rfl

@[simp] theorem length_read (m : Mem) (a n : Nat) : (m.read a n).length = n := by simp [read]

theorem read_congr {m m' : Mem} {a n : Nat} (h : ∀ x, a ≤ x → x < a + n → m x = m' x) :
    m.read a n = m'.read a n := by
  unfold read
  refine List.map_congr_left fun i hi => ?_
  rw [List.mem_range] at hi
  exact h (a + i) (by omega) (by omega)

theorem read_add (m : Mem) (a n k : Nat) : m.read a (n + k) = m.read a n ++ m.read (a + n) k := by
  unfold read
  rw [List.range_add, List.map_append, List.map_map]
  congr 1
  refine List.map_congr_left fun i _ => ?_
  rw [Function.comp_apply, Nat.add_assoc]

/-- A range of `n` rows, row by row. -/
theorem read_rows (m : Mem) (a n size : Nat) :
    m.read a (n * size) = (List.range n).flatMap fun p => m.read (a + p * size) size := by
  induction n with
  | zero => simp [read]
  | succ n ih =>
      rw [Nat.add_mul, Nat.one_mul, read_add, ih, List.range_succ, List.flatMap_append]
      simp

theorem write_outside (m : Mem) {a x : Nat} {bs : List UInt8} (h : x < a ∨ a + bs.length ≤ x) :
    m.write a bs x = m x := by
  unfold write
  by_cases ha : a ≤ x
  · simp [List.getElem?_eq_none (show bs.length ≤ x - a by omega)]
  · rw [if_neg ha]

theorem read_write_same (m : Mem) (a : Nat) (bs : List UInt8) :
    (m.write a bs).read a bs.length = bs := by
  refine List.ext_getElem (by simp) fun i hi _ => ?_
  have hlt : i < bs.length := by simpa using hi
  simp [read, write, List.getElem?_eq_getElem hlt]

/-- An address that no write covers. -/
theorem writeAll_outside {ws : List (Nat × List UInt8)} {x : Nat} (m : Mem)
    (h : ∀ w ∈ ws, x < w.1 ∨ w.1 + w.2.length ≤ x) : m.writeAll ws x = m x := by
  induction ws generalizing m with
  | nil => rfl
  | cons w ws ih =>
      rw [writeAll_cons, ih _ fun v hv => h v (List.mem_cons_of_mem _ hv)]
      exact write_outside m (h w List.mem_cons_self)

theorem read_writeAll_apart {ws : List (Nat × List UInt8)} {b n : Nat} (m : Mem)
    (h : ∀ w ∈ ws, Apart w.1 w.2.length b n) : (m.writeAll ws).read b n = m.read b n := by
  refine read_congr fun x hb hn => writeAll_outside m fun w hw => ?_
  have := h w hw
  unfold Apart at this
  omega

/-- What one of the writes wrote is read back, as long as the others are
elsewhere or write the same. -/
theorem read_writeAll_mem {ws : List (Nat × List UInt8)} {w : Nat × List UInt8} (m : Mem)
    (hw : w ∈ ws) (hother : ∀ v ∈ ws, v = w ∨ Apart v.1 v.2.length w.1 w.2.length) :
    (m.writeAll ws).read w.1 w.2.length = w.2 := by
  induction ws generalizing m with
  | nil => cases hw
  | cons v ws ih =>
      have htail : ∀ u ∈ ws, u = w ∨ Apart u.1 u.2.length w.1 w.2.length := fun u hu =>
        hother u (List.mem_cons_of_mem _ hu)
      rw [writeAll_cons]
      -- the last write to the place is the one that counts
      by_cases hlater : w ∈ ws
      · exact ih _ hlater htail
      · have hvw : w = v := by simpa [hlater] using hw
        subst hvw
        rw [read_writeAll_apart, read_write_same]
        intro u hu
        exact (htail u hu).resolve_left fun h => hlater (h ▸ hu)

end Mem

/-! ### Lanes -/

/-- Arrays of `cap` rows of `row` bytes, one for each lane and slot, that do not
overlap. -/
structure Lanes (ι : Type) where
  lanes : List ι
  slots : Nat
  cap : Nat
  row : Nat
  /-- Where a lane's rows of a slot begin. -/
  start : ι → Nat → Nat
  nodup : lanes.Nodup
  apart : ∀ i ∈ lanes, ∀ j ∈ lanes, ∀ s < slots, ∀ t < slots, i ≠ j ∨ s ≠ t →
    Apart (start i s) (cap * row) (start j t) (cap * row)

namespace Lanes

variable {ι : Type} {L : Lanes ι} {m : Mem} {i j : ι} {s t p q len : Nat}

def rowAddr (L : Lanes ι) (i : ι) (s p : Nat) : Nat := L.start i s + p * L.row

def cell (L : Lanes ι) (m : Mem) (i : ι) (s p : Nat) : List UInt8 := m.read (L.rowAddr i s p) L.row

/-- A lane, slot and position of the layout. -/
structure Valid (L : Lanes ι) (i : ι) (s p : Nat) : Prop where
  lane : i ∈ L.lanes
  slot : s < L.slots
  pos : p < L.cap

theorem rowAddr_le (h : p < L.cap) (i : ι) (s : Nat) :
    L.rowAddr i s p + L.row ≤ L.start i s + L.cap * L.row := by
  have := mul_row_le h L.row
  unfold rowAddr
  omega

theorem rows_apart (hi : L.Valid i s p) (hj : L.Valid j t q) (h : i ≠ j ∨ s ≠ t ∨ p ≠ q) :
    Apart (L.rowAddr i s p) L.row (L.rowAddr j t q) L.row := by
  by_cases hlane : i ≠ j ∨ s ≠ t
  · exact (L.apart i hi.lane j hj.lane s hi.slot t hj.slot hlane).mono (Nat.le_add_right _ _)
      (rowAddr_le hi.pos i s) (Nat.le_add_right _ _) (rowAddr_le hj.pos j t)
  · obtain ⟨rfl, rfl⟩ : i = j ∧ s = t := by simpa [not_or] using hlane
    exact (apart_mul (by simpa using h) L.row).add_left (L.start i s)

/-- The writes fill row `p` of slot `s` of the lanes in `J` with the pieces
`piece i 0`, `piece i 1`, … of `width` bytes. -/
structure FillsRows (L : Lanes ι) (ws : List (Nat × List UInt8)) (J : ι → Prop) (s p width count : Nat)
    (piece : ι → Nat → List UInt8) : Prop where
  fits : count * width = L.row
  length : ∀ i d, (piece i d).length = width
  mem : ∀ w, w ∈ ws ↔ ∃ i ∈ L.lanes, J i ∧ ∃ d < count, w = (L.rowAddr i s p + d * width, piece i d)

/-- Rows that are filled piece by piece hold their pieces, and no other row
changes. -/
theorem cell_writeAll {ws : List (Nat × List UInt8)} {J : ι → Prop} {width count : Nat}
    {piece : ι → Nat → List UInt8} (h : L.FillsRows ws J s p width count piece)
    (hs : s < L.slots) (hp : p < L.cap) (hj : L.Valid j t q) [Decidable (J j ∧ t = s ∧ q = p)] :
    L.cell (m.writeAll ws) j t q =
      if J j ∧ t = s ∧ q = p then (List.range count).flatMap (piece j) else L.cell m j t q := by
  -- a piece lies inside its row
  have hinside : ∀ i d, d < count →
      L.rowAddr i s p + d * width + width ≤ L.rowAddr i s p + L.row := by
    intro i d hd
    have := mul_row_le hd width
    rw [h.fits] at this
    omega
  have hpieces : ∀ {i d}, i ∈ L.lanes → d < count → i ≠ j ∨ s ≠ t ∨ p ≠ q →
      Apart (L.rowAddr i s p + d * width) (piece i d).length (L.rowAddr j t q) L.row := by
    intro i d hi hd hne
    refine (rows_apart ⟨hi, hs, hp⟩ hj hne).mono (Nat.le_add_right _ _) ?_ (Nat.le_refl _)
      (Nat.le_refl _)
    rw [h.length]
    exact hinside i d hd
  by_cases hhere : J j ∧ t = s ∧ q = p
  · rw [if_pos hhere]
    obtain ⟨hJ, rfl, rfl⟩ := hhere
    unfold cell
    rw [← h.fits, Mem.read_rows]
    refine List.flatMap_congr fun d hd => ?_
    rw [List.mem_range] at hd
    have hmem : (L.rowAddr j t q + d * width, piece j d) ∈ ws :=
      (h.mem _).mpr ⟨j, hj.lane, hJ, d, hd, rfl⟩
    refine Eq.trans ?_ (Mem.read_writeAll_mem m hmem ?_)
    · rw [h.length]
    intro v hv
    obtain ⟨i, hi, -, e, he, rfl⟩ := (h.mem v).mp hv
    by_cases hij : i = j
    · subst hij
      by_cases hed : e = d
      · subst hed
        exact .inl rfl
      · refine .inr ?_
        rw [h.length, h.length]
        exact (apart_mul hed width).add_left (L.rowAddr i t q)
    · refine .inr ((hpieces hi he (.inl hij)).mono (Nat.le_refl _) (Nat.le_refl _)
        (Nat.le_add_right _ _) ?_)
      rw [h.length]
      exact hinside j d hd
  · rw [if_neg hhere]
    refine Mem.read_writeAll_apart m fun w hw => ?_
    obtain ⟨i, hi, hJ, d, hd, rfl⟩ := (h.mem w).mp hw
    refine hpieces hi hd ?_
    by_contra hsame
    simp only [not_or, not_not] at hsame
    obtain ⟨rfl, rfl, rfl⟩ := hsame
    exact hhere ⟨hJ, rfl, rfl⟩

/-! ### A prefix of a slot -/

/-- The first `len` rows of slot `s`, lane after lane. -/
def extract (L : Lanes ι) (m : Mem) (s len : Nat) : List UInt8 :=
  L.lanes.flatMap fun i => m.read (L.start i s) (len * L.row)

theorem extract_eq_cells : L.extract m s len =
    L.lanes.flatMap fun i => (List.range len).flatMap (L.cell m i s) :=
  List.flatMap_congr fun i _ => m.read_rows (L.start i s) len L.row

theorem length_extract : (L.extract m s len).length = L.lanes.length * (len * L.row) :=
  length_flatMap_of_const (fun _ => Mem.length_read _ _ _) _

variable [DecidableEq ι]

/-- A lane's part of a buffer that holds `n` bytes for each of the lanes. -/
def part (ls : List ι) (n : Nat) (blob : List UInt8) (i : ι) : List UInt8 :=
  slice (ls.idxOf i * n) n blob

/-- Put the first `len` rows of slot `s` back. -/
def insert (L : Lanes ι) (m : Mem) (s len : Nat) (blob : List UInt8) : Mem :=
  m.writeAll (L.lanes.map fun i => (L.start i s, part L.lanes (len * L.row) blob i))

theorem length_part {ls : List ι} {n : Nat} {blob : List UInt8} (hi : i ∈ ls)
    (hlen : blob.length = ls.length * n) : (part ls n blob i).length = n := by
  have hlt := mul_row_le (List.idxOf_lt_length_of_mem hi) n
  unfold part slice
  rw [List.length_take, List.length_drop]
  omega

theorem flatMap_part {ls : List ι} {n : Nat} {blob : List UInt8} (hnodup : ls.Nodup)
    (hlen : blob.length = ls.length * n) : ls.flatMap (part ls n blob) = blob := by
  induction ls generalizing blob with
  | nil => exact (List.eq_nil_of_length_eq_zero (by simpa using hlen)).symm
  | cons i ls ih =>
      obtain ⟨hnot, htail⟩ := List.nodup_cons.mp hnodup
      have hn : n ≤ blob.length := by
        rw [hlen, List.length_cons, Nat.add_mul]
        omega
      have hhead : part (i :: ls) n blob i = blob.take n := by simp [part, slice]
      have hrest : ∀ j ∈ ls, part (i :: ls) n blob j = part ls n (blob.drop n) j := by
        intro j hj
        have hne : i ≠ j := fun h => hnot (h ▸ hj)
        unfold part slice
        rw [List.idxOf_cons_ne _ hne, List.drop_drop, Nat.succ_mul, Nat.add_comm]
      have hdrop : (blob.drop n).length = ls.length * n := by
        rw [List.length_drop, hlen, List.length_cons, Nat.add_mul]
        omega
      rw [List.flatMap_cons, hhead, List.flatMap_congr hrest, ih htail hdrop,
        List.take_append_drop]

variable {blob : List UInt8}

/-- A lane's part of the buffer is read back where it was put. -/
theorem read_insert (hs : s < L.slots) (hlen : len ≤ L.cap)
    (hblob : blob.length = L.lanes.length * (len * L.row)) (hi : i ∈ L.lanes) :
    (L.insert m s len blob).read (L.start i s) (len * L.row) =
      part L.lanes (len * L.row) blob i := by
  have hmem := List.mem_map_of_mem (f := fun i => (L.start i s, part L.lanes (len * L.row) blob i)) hi
  refine Eq.trans ?_ (Mem.read_writeAll_mem m hmem ?_)
  · rw [length_part hi hblob]
    rfl
  intro v hv
  obtain ⟨j, hj, rfl⟩ := List.mem_map.mp hv
  by_cases hji : j = i
  · exact .inl (by rw [hji])
  · have hle := Nat.mul_le_mul_right L.row hlen
    rw [length_part hi hblob, length_part hj hblob]
    exact .inr ((L.apart j hj i hi s hs s hs (.inl hji)).mono (Nat.le_refl _)
      (by omega) (Nat.le_refl _) (by omega))

theorem extract_insert (hs : s < L.slots) (hlen : len ≤ L.cap)
    (hblob : blob.length = L.lanes.length * (len * L.row)) :
    L.extract (L.insert m s len blob) s len = blob :=
  (List.flatMap_congr fun _ hi => read_insert hs hlen hblob hi).trans
    (flatMap_part L.nodup hblob)

/-- A row that is in the prefix holds its part of the buffer. -/
theorem cell_insert_of_lt (hs : s < L.slots) (hlen : len ≤ L.cap)
    (hblob : blob.length = L.lanes.length * (len * L.row)) (hi : i ∈ L.lanes) (hp : p < len) :
    L.cell (L.insert m s len blob) i s p =
      slice (p * L.row) L.row (part L.lanes (len * L.row) blob i) := by
  rw [← read_insert (m := m) hs hlen hblob hi, Mem.read_rows,
    slice_flatMap (fun _ => Mem.length_read _ _ _) _ p (by simpa using hp), List.getElem_range]
  rfl

/-- A row that is not in the prefix, or of another slot, is as it was. -/
theorem cell_insert_of_ne (hs : s < L.slots) (hlen : len ≤ L.cap)
    (hblob : blob.length = L.lanes.length * (len * L.row)) (hj : L.Valid j t q)
    (h : t ≠ s ∨ len ≤ q) : L.cell (L.insert m s len blob) j t q = L.cell m j t q := by
  refine Mem.read_writeAll_apart m fun w hw => ?_
  obtain ⟨i, hi, rfl⟩ := List.mem_map.mp hw
  have hle := Nat.mul_le_mul_right L.row hlen
  rw [length_part hi hblob]
  by_cases hlane : i ≠ j ∨ s ≠ t
  · exact (L.apart i hi j hj.lane s hs t hj.slot hlane).mono (Nat.le_refl _) (by omega)
      (Nat.le_add_right _ _) (rowAddr_le hj.pos j t)
  · -- the same lane and slot: the row is behind the prefix
    obtain ⟨rfl, rfl⟩ : i = j ∧ s = t := by simpa [not_or] using hlane
    have hq := Nat.mul_le_mul_right L.row (h.resolve_left (fun hne => hne rfl))
    left
    show L.start i s + len * L.row ≤ L.start i s + q * L.row
    omega

/-- A prefix that was taken out of one slot and put into another. -/
theorem cell_insert_extract (hs : s < L.slots) (hlen : len ≤ L.cap) (hi : i ∈ L.lanes)
    (hp : p < len) : L.cell (L.insert m s len (L.extract m t len)) i s p = L.cell m i t p := by
  have hpart : part L.lanes (len * L.row) (L.extract m t len) i =
      m.read (L.start i t) (len * L.row) := by
    unfold part extract
    rw [slice_flatMap (fun _ => Mem.length_read _ _ _) _ _ (List.idxOf_lt_length_of_mem hi),
      List.getElem_idxOf]
  rw [cell_insert_of_lt hs hlen length_extract hi hp, hpart, Mem.read_rows,
    slice_flatMap (fun _ => Mem.length_read _ _ _) _ p (by simpa using hp), List.getElem_range]
  rfl

theorem insert_outside (hblob : blob.length = L.lanes.length * (len * L.row)) {x : Nat}
    (h : ∀ i ∈ L.lanes, x < L.start i s ∨ L.start i s + len * L.row ≤ x) :
    L.insert m s len blob x = m x := by
  refine Mem.writeAll_outside m fun w hw => ?_
  obtain ⟨i, hi, rfl⟩ := List.mem_map.mp hw
  rw [length_part hi hblob]
  exact h i hi

/-! ### Stacked lanes -/

variable {β : Type} {bufs : List β} {base : β → Nat} {heads slots cap row : Nat}

/-- The lanes of a set of buffers, each of `slots` blocks of `heads` lanes. -/
def stacked (bufs : List β) (base : β → Nat) (heads slots cap row : Nat) (hnodup : bufs.Nodup)
    (hapart : ∀ b ∈ bufs, ∀ b' ∈ bufs, b ≠ b' →
      Apart (base b) (slots * heads * (cap * row)) (base b') (slots * heads * (cap * row))) :
    Lanes (β × Nat) where
  lanes := bufs.product (List.range heads)
  slots := slots
  cap := cap
  row := row
  start i s := base i.1 + (s * heads + i.2) * (cap * row)
  nodup := hnodup.product List.nodup_range
  apart := by
    intro i hi j hj s hs t ht hne
    obtain ⟨hib, hih⟩ := List.mem_product.mp hi
    obtain ⟨hjb, hjh⟩ := List.mem_product.mp hj
    rw [List.mem_range] at hih hjh
    by_cases hb : i.1 = j.1
    · -- one buffer: the two lanes are different blocks of it
      rw [hb]
      refine (apart_mul (fun heq => ?_) _).add_left _
      have hst : s = t := by
        have := congrArg (· / heads) heq
        simpa [Nat.mul_add_div (Nat.zero_lt_of_lt hih), Nat.mul_comm _ heads,
          Nat.div_eq_of_lt hih, Nat.div_eq_of_lt hjh] using this
      subst hst
      exact hne.elim (fun h => h (Prod.ext hb (by omega))) fun h => h rfl
    · have hle := mul_row_le (block_lt hs hih) (cap * row)
      have hle' := mul_row_le (block_lt ht hjh) (cap * row)
      exact (hapart i.1 hib j.1 hjb hb).mono (Nat.le_add_right _ _) (by omega)
        (Nat.le_add_right _ _) (by omega)

end Lanes

/-! ### Transfers between a buffer and the memory -/

/-- The range `[lo, hi)` of the buffer is copied to or from address `dev`. -/
structure Frame where
  dev : Nat
  lo : Nat
  hi : Nat
  deriving Repr, DecidableEq

/-- Copies into the buffer; `none` where a range is not inside it. -/
def copyOut (m : Mem) : List Frame → List UInt8 → Option (List UInt8)
  | [], out => some out
  | f :: fs, out =>
      if f.lo ≤ f.hi ∧ f.hi ≤ out.length then
        copyOut m fs (out.take f.lo ++ m.read f.dev (f.hi - f.lo) ++ out.drop f.hi)
      else none

/-- Copies from the buffer. -/
def copyIn (blob : List UInt8) : List Frame → Mem → Option Mem
  | [], m => some m
  | f :: fs, m =>
      if f.lo ≤ f.hi ∧ f.hi ≤ blob.length then
        copyIn blob fs (m.write f.dev (slice f.lo (f.hi - f.lo) blob))
      else none

/-- Ranges of `run` bytes of the buffer, one behind the other from `pos` on. -/
def framed (run : Nat) : List Nat → Nat → List Frame
  | [], _ => []
  | dev :: devs, pos => ⟨dev, pos, pos + run⟩ :: framed run devs (pos + run)

theorem framed_append (run : Nat) (devs devs' : List Nat) (pos : Nat) :
    framed run (devs ++ devs') pos =
      framed run devs pos ++ framed run devs' (pos + devs.length * run) := by
  induction devs generalizing pos with
  | nil => simp [framed]
  | cons dev devs ih =>
      have hpos : pos + run + devs.length * run = pos + (devs.length + 1) * run := by ring
      rw [List.cons_append, framed, framed, ih, List.cons_append, List.length_cons, hpos]

/-- The `k`-th range of the buffer begins at `k * run`. -/
theorem framed_range (run : Nat) (dev : Nat → Nat) (n : Nat) :
    framed run ((List.range n).map dev) 0 =
      (List.range n).map fun k => ⟨dev k, k * run, (k + 1) * run⟩ := by
  induction n with
  | zero => rfl
  | succ n ih =>
      rw [List.range_succ, List.map_append, List.map_append, framed_append, ih]
      simp [framed, Nat.add_mul]

theorem mem_framed {run : Nat} {devs : List Nat} {pos : Nat} {f : Frame}
    (h : f ∈ framed run devs pos) : f.dev ∈ devs ∧ f.hi - f.lo = run := by
  induction devs generalizing pos with
  | nil => cases h
  | cons dev devs ih =>
      rcases List.mem_cons.mp h with rfl | h
      · exact ⟨List.mem_cons_self, Nat.add_sub_cancel_left pos run⟩
      · exact ⟨List.mem_cons_of_mem _ (ih h).1, (ih h).2⟩

theorem copyOut_framed (m : Mem) {run : Nat} (devs : List Nat) {pos : Nat} {out : List UInt8}
    (hout : pos + devs.length * run ≤ out.length) : copyOut m (framed run devs pos) out =
      some (out.take pos ++ devs.flatMap (m.read · run) ++ out.drop (pos + devs.length * run)) := by
  induction devs generalizing pos out with
  | nil => simp [framed, copyOut]
  | cons dev devs ih =>
      rw [List.length_cons, Nat.succ_mul] at hout
      have hpos : (out.take pos).length = pos := by
        rw [List.length_take]
        omega
      unfold framed copyOut
      rw [if_pos ⟨by simp, by show pos + run ≤ _; omega⟩]
      show copyOut m _ (out.take pos ++ m.read dev (pos + run - pos) ++ out.drop (pos + run)) = _
      rw [Nat.add_sub_cancel_left]
      -- the buffer so far: what was there, the run just read, what is still to come
      have hlen : (out.take pos ++ m.read dev run).length = pos + run := by
        rw [List.length_append, hpos, Mem.length_read]
      rw [ih (by rw [List.length_append, hlen, List.length_drop]; omega),
        List.take_left' hlen, List.drop_append, hlen, List.drop_eq_nil_of_le (by rw [hlen]; omega),
        List.drop_drop, List.flatMap_cons, List.length_cons, Nat.succ_mul]
      have hrest : pos + run + (pos + run + devs.length * run - (pos + run)) =
          pos + (devs.length * run + run) := by omega
      rw [hrest]
      simp only [List.nil_append, List.append_assoc]

theorem copyIn_framed {run : Nat} {ι : Type} [DecidableEq ι] {ls : List ι} (hnodup : ls.Nodup)
    (dev : ι → Nat) {pos : Nat} {blob : List UInt8} (hblob : pos + ls.length * run ≤ blob.length)
    (m : Mem) : copyIn blob (framed run (ls.map dev) pos) m =
      some (m.writeAll (ls.map fun i => (dev i, Lanes.part ls run (blob.drop pos) i))) := by
  induction ls generalizing pos m with
  | nil => rfl
  | cons i ls ih =>
      obtain ⟨hnot, htail⟩ := List.nodup_cons.mp hnodup
      rw [List.length_cons, Nat.succ_mul] at hblob
      have hhead : slice pos (pos + run - pos) blob =
          Lanes.part (i :: ls) run (blob.drop pos) i := by simp [Lanes.part, slice]
      have hrest : ∀ j ∈ ls, (dev j, Lanes.part ls run (blob.drop (pos + run)) j) =
          (dev j, Lanes.part (i :: ls) run (blob.drop pos) j) := by
        intro j hj
        have hne : i ≠ j := fun h => hnot (h ▸ hj)
        unfold Lanes.part slice
        rw [List.idxOf_cons_ne _ hne, List.drop_drop, List.drop_drop, Nat.succ_mul, Nat.add_assoc,
          Nat.add_comm run]
      rw [List.map_cons]
      unfold framed copyIn
      rw [if_pos ⟨by simp, by show pos + run ≤ _; omega⟩]
      show copyIn blob _ (m.write (dev i) (slice pos (pos + run - pos) blob)) = _
      rw [ih htail (by omega), List.map_cons, Mem.writeAll_cons, hhead, List.map_congr_left hrest]

end LlmPager.Lib
