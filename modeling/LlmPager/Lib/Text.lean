import Mathlib

/-!
# LlmPager.Lib.Text

Names in parts and numbers in decimals, as the standard library of Rust reads them:
`split_once`, and the `parse` of an unsigned integer, which takes a plus sign and any
number of leading zeros.

Two texts of the same number differ in these only (`parseUnsigned_inj`).
-/

namespace LlmPager.Lib

variable {c : Char} {s t a b : List Char}

/-- `split_once`, at a character. -/
def splitOnce (c : Char) (s : List Char) : Option (List Char × List Char) :=
  if c ∈ s then some (s.takeWhile (· ≠ c), (s.dropWhile (· ≠ c)).tail) else none

theorem splitOnce_append (ha : c ∉ a) : splitOnce c (a ++ c :: b) = some (a, b) := by
  have hall : ∀ x ∈ a, decide (x ≠ c) = true := by
    intro x hx
    simpa using fun heq : x = c => ha (heq ▸ hx)
  rw [splitOnce, if_pos (by simp), List.takeWhile_append_of_pos hall,
    List.dropWhile_append_of_pos hall]
  simp

theorem splitOnce_eq_some (h : splitOnce c s = some (a, b)) : c ∉ a ∧ s = a ++ c :: b := by
  unfold splitOnce at h
  split at h
  · next hmem =>
    cases h
    refine ⟨fun hin => by simpa using List.mem_takeWhile_imp hin, ?_⟩
    have hne : s.dropWhile (· ≠ c) ≠ [] := by
      rw [Ne, List.dropWhile_eq_nil_iff]
      intro hall
      simpa using hall c hmem
    have hhead : (s.dropWhile (· ≠ c)).head hne = c := by
      simpa using List.head_dropWhile_not (fun x => decide (x ≠ c)) hne
    conv_lhs => rw [← List.takeWhile_append_dropWhile (p := fun x => decide (x ≠ c)) (l := s),
      ← List.cons_head_tail hne, hhead]
  · cases h

/-! ### Decimals -/

def digitVal (c : Char) : Nat := c.toNat - '0'.toNat

/-- The number that digits stand for, the first one the highest. -/
def decimal (ds : List Char) : Nat := Nat.ofDigits 10 (ds.reverse.map digitVal)

/-- The digits behind a plus sign, if there is one. -/
def unsignedDigits (s : List Char) : List Char := if s.head? = some '+' then s.tail else s

/-- `from_str` of an unsigned integer type with `bound` values. -/
def parseUnsigned (bound : Nat) (s : List Char) : Option Nat :=
  let ds := unsignedDigits s
  if ds ≠ [] ∧ ds.all Char.isDigit ∧ decimal ds < bound then some (decimal ds) else none

/-- A number's text without what does not change it: a plus sign, and leading zeros. -/
def numeral (s : List Char) : List Char := (unsignedDigits s).dropWhile (· = '0')

theorem digit_range (h : c.isDigit = true) : 48 ≤ c.toNat ∧ c.toNat ≤ 57 :=
  Char.isDigit_iff_toNat.mp h

theorem decimal_dropWhile (ds : List Char) : decimal (ds.dropWhile (· = '0')) = decimal ds := by
  induction ds with
  | nil => rfl
  | cons d ds ih =>
      by_cases hd : d = '0'
      · rw [List.dropWhile_cons_of_pos (by simpa using hd), ih, hd]
        unfold decimal
        rw [List.reverse_cons, List.map_append, Nat.ofDigits_append]
        simp [digitVal]
      · rw [List.dropWhile_cons_of_neg (by simpa using hd)]

/-- Digits that do not begin with a zero are the number's. -/
theorem digits_decimal {ds : List Char} (hdigits : ∀ c ∈ ds, c.isDigit = true)
    (hhead : ds.head? ≠ some '0') : Nat.digits 10 (decimal ds) = ds.reverse.map digitVal := by
  refine Nat.digits_ofDigits 10 (by decide) _ ?_ ?_
  · intro d hd
    obtain ⟨c, hc, rfl⟩ := List.mem_map.mp hd
    have hrange := digit_range (hdigits c (List.mem_reverse.mp hc))
    show c.toNat - 48 < 10
    omega
  · intro hne
    cases ds with
    | nil => simp at hne
    | cons c ds =>
        have hrange := digit_range (hdigits c (by simp))
        have hzero : c.toNat ≠ 48 := by
          intro heq
          refine hhead (congrArg some (Char.toNat_inj.mp ?_))
          exact heq
        simp only [List.reverse_cons, List.map_append, List.map_cons, List.map_nil,
          List.getLast_append_singleton]
        show c.toNat - 48 ≠ 0
        omega

theorem digitVal_injOn {ds es : List Char} (hds : ∀ c ∈ ds, c.isDigit = true)
    (hes : ∀ c ∈ es, c.isDigit = true) (h : ds.map digitVal = es.map digitVal) : ds = es := by
  have hback : ∀ {l : List Char}, (∀ c ∈ l, c.isDigit = true) →
      (l.map digitVal).map (fun d => Char.ofNat (d + 48)) = l := by
    intro l hl
    rw [List.map_map]
    refine (List.map_congr_left fun c hc => ?_).trans (List.map_id l)
    have hrange := digit_range (hl c hc)
    have hval : c.toNat - 48 + 48 = c.toNat := by omega
    show Char.ofNat (c.toNat - 48 + 48) = c
    rw [hval, Char.ofNat_toNat]
  rw [← hback hds, h, hback hes]

theorem decimal_concat (ds : List Char) (c : Char) :
    decimal (ds ++ [c]) = 10 * decimal ds + digitVal c := by
  unfold decimal
  rw [List.reverse_append, List.reverse_singleton, List.singleton_append, List.map_cons,
    Nat.ofDigits_cons, Nat.add_comm]

theorem decimal_toDigits (n : Nat) : decimal (Nat.toDigits 10 n) = n := by
  induction n using Nat.strong_induction_on with
  | h n ih =>
      rw [Nat.toDigits_eq_if (by decide)]
      split
      · next hlt =>
        show Nat.ofDigits 10 [n.digitChar.toNat - 48] = n
        rw [Nat.ofDigits_singleton, Nat.toNat_digitChar_sub_48_of_lt_ten hlt]
      · have hmod : n % 10 < 10 := Nat.mod_lt n (by decide)
        have hval : digitVal (n % 10).digitChar = n % 10 := Nat.toNat_digitChar_sub_48_of_lt_ten hmod
        rw [decimal_concat, ih (n / 10) (by omega), hval]
        exact Nat.div_add_mod n 10

/-- A number's own text. -/
theorem parseUnsigned_repr {bound n : Nat} (h : n < bound) :
    parseUnsigned bound (toString n).toList = some n := by
  have htext : (toString n).toList = Nat.toDigits 10 n := Nat.toList_repr
  have hdigits : ∀ c ∈ Nat.toDigits 10 n, c.isDigit = true :=
    fun c hc => Nat.isDigit_of_mem_toDigits (by decide) (by decide) hc
  have hplus : unsignedDigits (Nat.toDigits 10 n) = Nat.toDigits 10 n := by
    refine if_neg ?_
    intro hhead
    exact absurd (hdigits '+' (List.mem_of_mem_head? hhead)) (by decide)
  rw [htext]
  unfold parseUnsigned
  rw [hplus]
  dsimp only
  rw [decimal_toDigits]
  exact if_pos ⟨Nat.toDigits_ne_nil, List.all_eq_true.mpr hdigits, h⟩

theorem parseUnsigned_eq_some {bound n : Nat} (h : parseUnsigned bound s = some n) :
    (∀ c ∈ numeral s, c.isDigit = true) ∧ (numeral s).head? ≠ some '0' ∧ decimal (numeral s) = n := by
  unfold parseUnsigned at h
  dsimp only at h
  split at h
  · next hok =>
    cases h
    have hdigits := List.all_eq_true.mp hok.2.1
    refine ⟨fun c hc => hdigits c (List.dropWhile_suffix _ |>.mem hc), ?_, decimal_dropWhile _⟩
    intro hzero
    have hfalse := List.head?_dropWhile_not (fun c => decide (c = '0')) (unsignedDigits s)
    unfold numeral at hzero
    rw [hzero] at hfalse
    simp at hfalse
  · cases h

/-- **Two texts stand for one number if and only if they differ in a plus sign and leading
zeros only.** -/
theorem parseUnsigned_inj {bound n m : Nat} (hs : parseUnsigned bound s = some n)
    (ht : parseUnsigned bound t = some m) : n = m ↔ numeral s = numeral t := by
  obtain ⟨hds, hhead, rfl⟩ := parseUnsigned_eq_some hs
  obtain ⟨hes, hhead', rfl⟩ := parseUnsigned_eq_some ht
  constructor
  · intro heq
    have hdigits := congrArg (Nat.digits 10) heq
    rw [digits_decimal hds hhead, digits_decimal hes hhead'] at hdigits
    exact List.reverse_injective (digitVal_injOn (by simpa using hds) (by simpa using hes) hdigits)
  · intro heq
    rw [heq]

end LlmPager.Lib
