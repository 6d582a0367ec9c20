import LlmPager.Run.BlobLayout

/-!
# LlmPager.Run.WordAlign

The words that `q4g64_gemv` and `q4g64_gemv_batch` load, and whether their addresses are
multiples of four, as the comment in `q4g64.cu` has it for any group.

Between the words of a tensor all strides are multiples of four, so that all depends on
where the nibbles begin, two bytes for each group behind the tensor's start
(`wordsAligned_iff`). In an expert's blob the groups of the regions before count too
(`blob_words_iff`).
-/

namespace LlmPager

open Lib (asI32 sizeT)

/-- The arguments, for a blob at `base`. -/
def GemvArgs.at (a : GemvArgs) (base : Nat) : GemvArgs := { a with regionOff := base + a.regionOff }

/-- Every word that is loaded lies at a multiple of four. -/
def WordsAligned (a : GemvArgs) : Prop :=
  ∀ row g i : Int, a.Visits row g → 0 ≤ i → i < a.words → a.wordAddr row g i % 4 = 0

theorem sizeT_mod_four (x : Int) : sizeT x % 4 = 0 ↔ x % 4 = 0 := by
  unfold sizeT
  omega

/-- A tensor of groups of 32 or 64. -/
theorem wordsAligned_iff {a : GemvArgs} (hgroup : a.group = 32 ∨ a.group = 64) (hcols : a.group ∣ a.cols) :
    WordsAligned a ↔ (0 < a.rows → 0 < a.cols → (a.regionOff + a.rows * a.groups * 2) % 4 = 0) := by
  obtain ⟨k, hk⟩ := hcols
  have hgroups : a.groups = k := by
    unfold GemvArgs.groups
    rw [hk, Int.mul_tdiv_cancel_left _ (by omega)]
  have hrow : ∀ row : Int, ∃ m, row * (a.cols / 2) = 4 * m := by
    intro row
    rcases hgroup with h | h
    · refine ⟨row * (4 * k), ?_⟩
      have hhalf : a.cols / 2 = 16 * k := by
        rw [hk, h]
        omega
      rw [hhalf]
      ring
    · refine ⟨row * (8 * k), ?_⟩
      have hhalf : a.cols / 2 = 32 * k := by
        rw [hk, h]
        omega
      rw [hhalf]
      ring
  have hplace : ∀ g : Int, ∃ m, g * (a.group / 2) = 4 * m := by
    intro g
    rcases hgroup with h | h
    · refine ⟨g * 4, ?_⟩
      rw [h]
      ring
    · refine ⟨g * 8, ?_⟩
      rw [h]
      ring
  have haddr : ∀ row g i, a.wordAddr row g i % 4 = 0 ↔
      (a.regionOff + a.rows * a.groups * 2) % 4 = 0 := by
    intro row g i
    obtain ⟨m, hm⟩ := hrow row
    obtain ⟨n, hn⟩ := hplace g
    rw [GemvArgs.wordAddr, sizeT_mod_four, hm, hn]
    omega
  constructor
  · intro h hrows hpos
    have hone : 0 < k := by
      rcases hgroup with hg | hg <;> rw [hg] at hk <;> omega
    refine (haddr 0 0 0).mp (h 0 0 0 ⟨le_rfl, hrows, le_rfl, hgroups ▸ hone⟩ le_rfl ?_)
    unfold GemvArgs.words
    omega
  · intro h row g i hv _ _
    have hone : 0 < k := by
      have := hv.g_nonneg.trans_lt hv.g_lt
      rwa [hgroups] at this
    refine (haddr row g i).mpr (h (hv.row_nonneg.trans_lt hv.row_lt) ?_)
    rcases hgroup with hg | hg <;> rw [hg] at hk <;> omega

/-- An `i32` cast changes a number by a multiple of `2^32`, so of 128. -/
theorem asI32_eq (n : Nat) : ∃ k : Int, asI32 n = n + 128 * k := by
  refine ⟨-(((n : Int) + 2 ^ 31) / 2 ^ 32) * 2 ^ 25, ?_⟩
  unfold asI32 Int.bmod
  dsimp only
  split_ifs <;> omega

/-- The same, with the dimensions before they are cast. -/
theorem wordsAligned_dims {off rows cols group : Nat} (hgroup : group = 32 ∨ group = 64)
    (hcols : group ∣ cols) : WordsAligned ⟨off, asI32 rows, asI32 cols, group⟩ ↔
      (0 < asI32 rows → 0 < asI32 cols → (off + rows * (cols / group) * 2) % 4 = 0) := by
  obtain ⟨u, hu⟩ := asI32_eq rows
  obtain ⟨v, hv⟩ := asI32_eq cols
  obtain ⟨n, rfl⟩ := hcols
  -- the cast leaves the parity of both factors
  obtain ⟨w, hw⟩ : ∃ w : Int, asI32 (group * n) = group * (n + 2 * w) := by
    rcases hgroup with rfl | rfl
    · refine ⟨2 * v, ?_⟩
      rw [hv]
      push_cast
      ring
    · refine ⟨v, ?_⟩
      rw [hv]
      push_cast
      ring
  have hpos : 0 < group := by omega
  have hgroup' : (group : Int) = 32 ∨ (group : Int) = 64 := by omega
  have hproduct : (rows + 128 * u) * (n + 2 * w) * 2 =
      ((rows * n * 2 : Nat) : Int) + 4 * (64 * u * n + rows * w + 128 * u * w) := by
    push_cast
    ring
  rw [Nat.mul_div_cancel_left _ hpos]
  generalize asI32 (group * n) = cols at *
  generalize asI32 rows = rows' at *
  subst hw hu
  have hgroups : GemvArgs.groups ⟨off, rows + 128 * u, group * (n + 2 * w), group⟩ = n + 2 * w := by
    unfold GemvArgs.groups
    rw [Int.mul_tdiv_cancel_left _ (by omega)]
  have hiff := wordsAligned_iff (a := ⟨off, rows + 128 * u, group * (n + 2 * w), group⟩) hgroup'
    ⟨_, rfl⟩
  rw [hgroups] at hiff
  rw [hiff]
  refine imp_congr_right fun _ => imp_congr_right fun _ => ?_
  dsimp only
  rw [hproduct]
  omega

/-! ### Experts -/

/-- The groups of the regions up to one. -/
def groupsUpTo (groups : Proj → Nat) : Proj → Nat
  | .gate => groups .gate
  | .up => groups .gate + groups .up
  | .down => groups .gate + groups .up + groups .down

theorem Builder.group_cases (b : Builder) : b.group = 32 ∨ b.group = 64 := by
  cases b
  · exact Or.inr rfl
  · exact Or.inl rfl

theorem Builder.region_length {b : Builder} {ckpt : Checkpoint} {names : Proj → Option String}
    {layer expert : Nat} {p : Proj} {r : Region}
    (h : b.region ckpt names layer expert p = some (.ok r)) (hcols : b.group ∣ r.cols) :
    r.bytes.length = r.rows * (r.cols / b.group) * 2 + r.rows * (r.cols / b.group) * (b.group / 2) := by
  cases b with
  | quantise ops => exact (buildRegion_isQ4 h).length_bytes
  | repack => exact (buildKimiRegion_isQ4 (Nat.mod_eq_zero_of_dvd hcols) h).length_bytes

/-- Where the nibbles of a region begin. -/
theorem regionOff_mod {size groups : Proj → Nat} {half : Nat} (hhalf : half % 4 = 0)
    (hsize : ∀ p, size p = groups p * 2 + groups p * half) (base : Nat) (hbase : base % 4 = 0)
    (p : Proj) : (base + regionOff size p + groups p * 2) % 4 = 0 ↔ groupsUpTo groups p % 2 = 0 := by
  have hmult : ∀ p, ∃ m, groups p * half = 4 * m := by
    intro p
    obtain ⟨k, rfl⟩ := Nat.dvd_of_mod_eq_zero hhalf
    exact ⟨groups p * k, by ring⟩
  obtain ⟨m, hm⟩ := hmult .gate
  obtain ⟨n, hn⟩ := hmult .up
  cases p <;> simp only [regionOff, groupsUpTo, BLOB_HEADER_BYTES, hsize, hm, hn] <;> omega

/-- **The words of an expert's blob** are aligned exactly if the groups up to each region that
is read are even in number. -/
theorem blob_words_iff {b : Builder} {ckpt : Checkpoint} {names : Proj → Option String}
    {layer expert : Nat} {region : Proj → Region}
    (hregion : ∀ p, b.region ckpt names layer expert p = some (.ok (region p)))
    (hcols : ∀ p, b.group ∣ (region p).cols) {slot : Nat} (hslot : slot % 4 = 0) :
    (∀ p, WordsAligned ⟨slot + regionOff (fun p => (region p).bytes.length) p,
        asI32 (region p).rows, asI32 (region p).cols, b.group⟩) ↔
      ∀ p, 0 < asI32 (region p).rows → 0 < asI32 (region p).cols →
        groupsUpTo (fun p => (region p).rows * ((region p).cols / b.group)) p % 2 = 0 := by
  have hhalf : b.group / 2 % 4 = 0 := by
    rcases b.group_cases with h | h <;> rw [h]
  refine forall_congr' fun p => ?_
  rw [wordsAligned_dims b.group_cases (hcols p)]
  refine imp_congr_right fun _ => imp_congr_right fun _ => ?_
  exact regionOff_mod hhalf (fun p => b.region_length (hregion p) (hcols p)) slot hslot p

/-- The decoders' own regions, of an expert with one hidden and one inner dimension, are always
aligned: a multiple of the group has an even number of rows. -/
theorem q4Regions_words {moeInter hidden group : Nat} (hgroup : group = 32 ∨ group = 64)
    (hI : group ∣ moeInter) (hH : group ∣ hidden) {slot : Nat} (hslot : slot % 4 = 0) (p : Proj) :
    WordsAligned (((q4Regions moeInter hidden group).gemv moeInter hidden p).at slot) := by
  have hcols : ∀ p : Proj, group ∣ p.cols moeInter hidden := by
    intro p
    cases p <;> assumption
  have heven : group % 2 = 0 := by omega
  have hhalf : group / 2 % 4 = 0 := by omega
  have hsize : q4Bytes moeInter hidden group =
      moeInter * (hidden / group) * 2 + moeInter * (hidden / group) * (group / 2) :=
    q4Bytes_groups moeInter heven (Nat.div_mul_cancel hH).symm
  -- as many groups in each region, and an even number
  have hsame := groups_comm hI hH
  have hmany : moeInter * (hidden / group) % 2 = 0 := by
    obtain ⟨k, rfl⟩ := hI
    rw [Nat.mul_assoc, Nat.mul_mod, heven, Nat.zero_mul, Nat.zero_mod]
  generalize hn : moeInter * (hidden / group) = n at *
  have hplace : (slot + regionOff (fun _ => q4Bytes moeInter hidden group) p + n * 2) % 4 = 0 ↔
      groupsUpTo (fun _ => n) p % 2 = 0 := regionOff_mod hhalf (fun _ => hsize) slot hslot p
  have hall : groupsUpTo (fun _ => n) p % 2 = 0 := by
    cases p <;> simp only [groupsUpTo] <;> omega
  have hwords : WordsAligned ⟨slot + regionOff (fun _ => q4Bytes moeInter hidden group) p,
      asI32 (p.rows moeInter hidden), asI32 (p.cols moeInter hidden), group⟩ := by
    refine (wordsAligned_dims hgroup (hcols p)).mpr fun _ _ => ?_
    have hgroups : p.rows moeInter hidden * (p.cols moeInter hidden / group) = n := by
      cases p
      · exact hn
      · exact hn
      · exact hsame
    rw [hgroups]
    exact hplace.mpr hall
  cases p <;>
    simpa only [GemvArgs.at, Regions.gemv, q4Regions, regionOff, Proj.rows, Proj.cols,
      BLOB_HEADER_BYTES, Nat.two_mul, Nat.add_assoc] using hwords

/-- **Where the words are aligned**: in an expert's blob, of a region that is read, exactly if
the groups up to it are even in number; in a matrix of the core, exactly if its own are; in the
regions of a decoder, always. -/
theorem words_aligned_iff (slot : Nat) :
    (∀ (b : Builder) (ckpt : Checkpoint) (names : Proj → Option String) (layer expert : Nat)
      (blob : List UInt8), b.blob ckpt names layer expert = some (.ok blob) →
      ∃ region : Proj → Region, (∀ p, b.region ckpt names layer expert p = some (.ok (region p))) ∧
        blob = assembleBlob b.group [region .gate, region .up, region .down] ∧
        ((∀ p, b.group ∣ (region p).cols) → 4096 ∣ slot →
          ((∀ p, WordsAligned ⟨slot + regionOff (fun p => (region p).bytes.length) p,
              asI32 (region p).rows, asI32 (region p).cols, b.group⟩) ↔
            ∀ p, 0 < asI32 (region p).rows → 0 < asI32 (region p).cols →
              groupsUpTo (fun p => (region p).rows * ((region p).cols / b.group)) p % 2 = 0))) ∧
    (∀ rows cols base : Nat, cols % 64 = 0 → 256 ∣ base →
      (WordsAligned ⟨base, asI32 rows, asI32 cols, 64⟩ ↔
        (0 < asI32 rows → 0 < asI32 cols → rows * (cols / 64) % 2 = 0))) ∧
    ∀ moeInter hidden group : Nat, group = 32 ∨ group = 64 → group ∣ moeInter →
      group ∣ hidden → 4096 ∣ slot → ∀ p,
        WordsAligned (((q4Regions moeInter hidden group).gemv moeInter hidden p).at slot) := by
  refine ⟨?_, ?_, ?_⟩
  · intro b ckpt names layer expert blob hblob
    rw [Builder.blob_eq] at hblob
    obtain ⟨res, hres, hmap⟩ := Option.map_eq_some_iff.mp hblob
    cases res with
    | error e => cases hmap
    | ok regions =>
        cases hmap
        obtain ⟨region, hregion, rfl⟩ := buildRegions_ok hres
        refine ⟨region, hregion, rfl, ?_⟩
        intro hcols hslot
        exact blob_words_iff hregion hcols (by omega)
  · intro rows cols base hcols hbase
    rw [← Nat.cast_ofNat (R := ℤ) (n := 64)]
    rw [wordsAligned_dims (Or.inr rfl) (Nat.dvd_of_mod_eq_zero hcols)]
    refine imp_congr_right fun _ => imp_congr_right fun _ => ?_
    omega
  · intro moeInter hidden group hgroup hI hH hslot p
    exact q4Regions_words hgroup hI hH (by omega) p

/-- An expert at 8192 whose bytes count up, and a matrix of 3 rows and 128 columns. -/
theorem ramp_words_aligned :
    (∃ blob, (Builder.quantise rampOps).blob (rampCkpt 64 128) rampNames 0 0 = some (.ok blob) ∧
      ∃ region : Proj → Region,
        blob = assembleBlob 64 [region .gate, region .up, region .down] ∧
          ∀ p, WordsAligned ⟨8192 + regionOff (fun p => (region p).bytes.length) p,
            asI32 (region p).rows, asI32 (region p).cols, 64⟩) ∧
      WordsAligned ⟨256, asI32 3, asI32 128, 64⟩ := by
  obtain ⟨hexperts, hmatrices, -⟩ := words_aligned_iff 8192
  obtain ⟨⟨blob, hblob⟩, hshape⟩ := rampCkpt_blob rampOps (show 64 ∣ 64 by decide)
    (show 64 ∣ 128 by decide)
  obtain ⟨region, hregion, hparts, hiff⟩ := hexperts (.quantise rampOps) _ _ 0 0 blob hblob
  have hrows : ∀ p, (region p).rows = p.rows 64 128 := fun p => (hshape p _ (hregion p)).1
  have hcols : ∀ p, (region p).cols = p.cols 64 128 := fun p => (hshape p _ (hregion p)).2
  refine ⟨⟨blob, hblob, region, hparts, (hiff ?_ (by decide)).mpr ?_⟩,
    (hmatrices 3 128 256 (by decide) (by decide)).mpr fun _ _ => by decide⟩
  · intro p
    rw [hcols]
    cases p <;> decide
  · intro p _ _
    simp only [hrows, hcols]
    cases p <;> decide

/-- An output matrix for 50257 tokens and 2880 dimensions, 45 groups a row: the first word lies
two bytes beside a multiple of four. -/
theorem core_word_misaligned :
    ¬ WordsAligned ⟨0x7F0000000000, asI32 50257, asI32 2880, 64⟩ := by
  intro h
  have hword := h 0 0 0 ⟨by decide, by decide, by decide, by decide⟩ (by decide) (by decide)
  revert hword
  decide

end LlmPager
