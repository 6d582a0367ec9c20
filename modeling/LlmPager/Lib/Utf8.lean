import Mathlib

/-!
# LlmPager.Lib.Utf8

Lossy UTF-8 decoding (`from_utf8_lossy`), one byte at a time. Bytes that may
still become a character are pending; bytes that cannot, and pending bytes that
are cut off, become one U+FFFD each time, as the Unicode standard recommends.

The decoding of a byte string is not a prefix of the decoding of a longer one
in general, because pending bytes show as U+FFFD until the rest of their
character is there. `prefix_iff` says exactly when it is: no character
but U+FFFD itself is split at the end of the shorter one.

Also here: slicing a text at a byte offset, which fails off a character boundary.
-/

namespace LlmPager.Lib.Utf8

open String (utf8EncodeChar)

/-- U+FFFD. -/
def replacement : Char := Char.ofNat 0xFFFD

/-! ### Encodings of characters -/

def isTail (b : UInt8) : Bool := 0x80 ≤ b.toNat ∧ b.toNat ≤ 0xBF

/-- The second byte of a character of three or four bytes: neither overlong, nor
a surrogate, nor past U+10FFFF. -/
def isSecond (b0 b1 : UInt8) : Bool :=
  isTail b1 ∧ (b0.toNat = 0xE0 → 0xA0 ≤ b1.toNat) ∧ (b0.toNat = 0xED → b1.toNat ≤ 0x9F) ∧
    (b0.toNat = 0xF0 → 0x90 ≤ b1.toNat) ∧ (b0.toNat = 0xF4 → b1.toNat ≤ 0x8F)

/-- Whether bytes are a proper beginning of the encoding of some character. -/
def viable : List UInt8 → Bool
  | [b0] => 0xC2 ≤ b0.toNat ∧ b0.toNat ≤ 0xF4
  | [b0, b1] => 0xE0 ≤ b0.toNat ∧ b0.toNat ≤ 0xF4 ∧ isSecond b0 b1
  | [b0, b1, b2] => 0xF0 ≤ b0.toNat ∧ b0.toNat ≤ 0xF4 ∧ isSecond b0 b1 ∧ isTail b2
  | _ => false

/-- The character some bytes are the encoding of. -/
def complete (p : List UInt8) : Option Char :=
  (p.toByteArray.utf8DecodeChar? 0).filter fun c => c.utf8Size = p.length

theorem complete_eq_some {p : List UInt8} {c : Char} :
    complete p = some c ↔ utf8EncodeChar c = p := by
  constructor
  · intro h
    simp only [complete, Option.filter_eq_some_iff, decide_eq_true_eq] at h
    obtain ⟨hdec, hlen⟩ := h
    have henc := String.toByteArray_utf8EncodeChar_of_utf8DecodeChar?_eq_some hdec
    rw [hlen, ← List.size_toByteArray, ByteArray.extract_zero_size] at henc
    exact List.toByteArray_inj.mp henc
  · intro h
    subst h
    have hdec := List.utf8DecodeChar?_utf8Encode_singleton (c := c)
    rw [List.utf8Encode_singleton] at hdec
    simp [complete, hdec]

/-- The shapes an encoding can have. -/
inductive Encoding : List UInt8 → Prop
  | one {b0} : b0.toNat < 0x80 → Encoding [b0]
  | two {b0 b1} : 0xC2 ≤ b0.toNat → b0.toNat < 0xE0 → isTail b1 → Encoding [b0, b1]
  | three {b0 b1 b2} : 0xE0 ≤ b0.toNat → b0.toNat < 0xF0 → isSecond b0 b1 → isTail b2 →
      Encoding [b0, b1, b2]
  | four {b0 b1 b2 b3} : 0xF0 ≤ b0.toNat → b0.toNat ≤ 0xF4 → isSecond b0 b1 → isTail b2 →
      isTail b3 → Encoding [b0, b1, b2, b3]

theorem encoding_utf8EncodeChar (c : Char) : Encoding (utf8EncodeChar c) := by
  have hvalid : c.val.toNat < 0xD800 ∨ 0xDFFF < c.val.toNat ∧ c.val.toNat < 0x110000 := c.valid
  fun_cases utf8EncodeChar c with
  | case1 v h1 =>
      have hv : v = c.val.toNat := rfl
      exact .one (by simp; omega)
  | case2 v h1 h2 =>
      have hv : v = c.val.toNat := rfl
      refine .two ?_ ?_ ?_ <;> simp [isTail] <;> omega
  | case3 v h1 h2 h3 =>
      have hv : v = c.val.toNat := rfl
      refine .three ?_ ?_ ?_ ?_ <;> simp [isTail, isSecond] <;> omega
  | case4 v h1 h2 h3 =>
      have hv : v = c.val.toNat := rfl
      refine .four ?_ ?_ ?_ ?_ ?_ <;> simp [isTail, isSecond] <;> omega

/-- A whole encoding is not a proper beginning of one. -/
theorem not_viable_encode (c : Char) : viable (utf8EncodeChar c) = false := by
  have henc := encoding_utf8EncodeChar c
  generalize utf8EncodeChar c = bytes at henc
  cases henc with
  | one h => simp [viable]; omega
  | two h h' _ => simp [viable]; omega
  | three h h' _ _ => simp [viable]; omega
  | four => rfl

theorem complete_of_viable {p : List UInt8} (h : viable p = true) : complete p = none := by
  cases hc : complete p with
  | none => rfl
  | some c =>
      rw [← complete_eq_some.mp hc, not_viable_encode] at h
      exact absurd h Bool.false_ne_true

theorem viable_of_encode {c : Char} {p q : List UInt8} (h : utf8EncodeChar c = p ++ q)
    (hp : p ≠ []) (hq : q ≠ []) : viable p = true := by
  have henc := encoding_utf8EncodeChar c
  rw [h] at henc
  -- the lengths of `p` and `q` that each shape allows
  match p, q, hp, hq, henc with
  | [b0], [b1], _, _, .two h h' _ => simp [viable]; omega
  | [b0], [b1, b2], _, _, .three h h' _ _ => simp [viable]; omega
  | [b0, b1], [b2], _, _, .three h h' hsnd _ => simp [viable, hsnd]; omega
  | [b0], [b1, b2, b3], _, _, .four h h' _ _ _ => simp [viable]; omega
  | [b0, b1], [b2, b3], _, _, .four h h' hsnd _ _ => simp [viable, hsnd]; omega
  | [b0, b1, b2], [b3], _, _, .four h h' hsnd ht _ => simp [viable, hsnd, ht]; omega
  | _ :: _ :: _ :: _ :: p, _ :: _, _, _, henc => cases p <;> cases henc

/-- Only tail bytes continue pending bytes. -/
theorem isTail_of_viable {p : List UInt8} {b : UInt8} (hp : p ≠ [])
    (h : viable (p ++ [b]) = true) : isTail b = true := by
  match p, hp with
  | [b0], _ => simp [viable, isSecond] at h; exact h.2.2.1
  | [b0, b1], _ => simp [viable] at h; exact h.2.2.2
  | b0 :: b1 :: b2 :: p, _ => cases p <;> simp [viable] at h

/-- Only tail bytes complete pending bytes. -/
theorem isTail_of_encode {c : Char} {p : List UInt8} {b : UInt8} (hp : p ≠ [])
    (h : utf8EncodeChar c = p ++ [b]) : isTail b = true := by
  have henc := encoding_utf8EncodeChar c
  rw [h] at henc
  match p, hp, henc with
  | [b0], _, .two _ _ ht => exact ht
  | [b0, b1], _, .three _ _ _ ht => exact ht
  | [b0, b1, b2], _, .four _ _ _ _ ht => exact ht
  | _ :: _ :: _ :: _ :: p, _, henc => cases p <;> cases henc

theorem not_isTail_head {c : Char} {b : UInt8} {q : List UInt8}
    (h : utf8EncodeChar c = b :: q) : isTail b = false := by
  have henc := encoding_utf8EncodeChar c
  rw [h] at henc
  cases henc <;> simp [isTail] <;> omega

/-! ### The decoder -/

/-- The characters decoded so far, and the bytes that may still become one. -/
structure Lossy where
  out : List Char
  pending : List UInt8

namespace Lossy

/-- A byte with nothing pending before it. -/
def start (out : List Char) (b : UInt8) : Lossy :=
  match complete [b] with
  | some c => ⟨out ++ [c], []⟩
  | none => if viable [b] then ⟨out, [b]⟩ else ⟨out ++ [replacement], []⟩

def push (s : Lossy) (b : UInt8) : Lossy :=
  if s.pending = [] then start s.out b
  else match complete (s.pending ++ [b]) with
    | some c => ⟨s.out ++ [c], []⟩
    | none =>
        if viable (s.pending ++ [b]) then { s with pending := s.pending ++ [b] }
        else start (s.out ++ [replacement]) b

def run (s : Lossy) (bytes : List UInt8) : Lossy := bytes.foldl push s

/-- The end of the bytes cuts off what is pending. -/
def finish (s : Lossy) : List Char := s.out ++ if s.pending = [] then [] else [replacement]

end Lossy

def decodeLossy (bytes : List UInt8) : List Char := (Lossy.run ⟨[], []⟩ bytes).finish

example : decodeLossy [0x41, 0xF0, 0x9F, 0x98, 0x80, 0xC3] = ['A', '😀', replacement] := by decide

example : decodeLossy [0xE0, 0x80, 0xF0, 0x9F, 0x41] =
    [replacement, replacement, replacement, 'A'] := by decide

namespace Lossy

variable {s : Lossy} {b : UInt8} {c : Char} {out : List Char} {p q : List UInt8}

theorem run_append (bytes more : List UInt8) : s.run (bytes ++ more) = (s.run bytes).run more :=
  List.foldl_append

theorem run_cons (bytes : List UInt8) : s.run (b :: bytes) = (s.push b).run bytes := rfl

theorem run_singleton : s.run [b] = s.push b := rfl

/-! One byte. -/

/-- What `start` does: it emits one character, or keeps the byte. -/
theorem start_cases (out : List Char) (b : UInt8) :
    (∃ c, start out b = ⟨out ++ [c], []⟩) ∨ start out b = ⟨out, [b]⟩ := by
  unfold start
  cases complete [b] with
  | some c => exact .inl ⟨c, rfl⟩
  | none =>
      by_cases hv : viable [b]
      · exact .inr (by simp [hv])
      · exact .inl ⟨replacement, by simp [hv]⟩

theorem push_nil (h : s.pending = []) : s.push b = start s.finish b := by
  simp [push, finish, h]

/-- What `push` does to pending bytes: it completes a character, keeps the byte
behind them, or gives them up. -/
theorem push_cases (hp : s.pending ≠ []) (b : UInt8) :
    (∃ c, utf8EncodeChar c = s.pending ++ [b] ∧ s.push b = ⟨s.out ++ [c], []⟩) ∨
    (viable (s.pending ++ [b]) ∧ s.push b = ⟨s.out, s.pending ++ [b]⟩) ∨
    s.push b = start s.finish b := by
  unfold push
  rw [if_neg hp]
  cases hc : complete (s.pending ++ [b]) with
  | some c => exact .inl ⟨c, complete_eq_some.mp hc, rfl⟩
  | none =>
      by_cases hv : viable (s.pending ++ [b])
      · exact .inr (.inl ⟨hv, by simp [hv]⟩)
      · exact .inr (.inr (by simp [hv, finish, hp]))

/-- The pending bytes are the last ones. -/
theorem push_pending (b : UInt8) :
    (s.push b).pending = [] ∨ (s.push b).pending = [b] ∨
      (s.push b).pending = s.pending ++ [b] := by
  have hstart : (start s.finish b).pending = [] ∨ (start s.finish b).pending = [b] := by
    obtain ⟨c, hc⟩ | hc := start_cases s.finish b
    · exact .inl (by rw [hc])
    · exact .inr (by rw [hc])
  by_cases hp : s.pending = []
  · rw [push_nil hp]
    exact hstart.imp id .inl
  · obtain ⟨c, -, hc⟩ | ⟨-, hc⟩ | hc := push_cases hp b
    · exact .inl (by rw [hc])
    · exact .inr (.inr (by rw [hc]))
    · rw [hc]
      exact hstart.imp id .inl

/-- A byte that is no tail cuts off whatever is pending. -/
theorem push_head (hb : isTail b = false) : s.push b = start s.finish b := by
  by_cases hp : s.pending = []
  · exact push_nil hp
  · obtain ⟨c, hc, -⟩ | ⟨hv, -⟩ | hc := push_cases hp b
    · simp [isTail_of_encode hp hc] at hb
    · simp [isTail_of_viable hp hv] at hb
    · exact hc

theorem out_prefix_finish : s.out <+: s.finish := List.prefix_append _ _

theorem out_prefix_push (b : UInt8) : s.out <+: (s.push b).out := by
  have hstart : s.finish <+: (start s.finish b).out := by
    obtain ⟨c, hc⟩ | hc := start_cases s.finish b
    · rw [hc]
      exact List.prefix_append _ _
    · rw [hc]
  by_cases hp : s.pending = []
  · rw [push_nil hp]
    exact out_prefix_finish.trans hstart
  · obtain ⟨c, -, hc⟩ | ⟨-, hc⟩ | hc := push_cases hp b
    · rw [hc]
      exact List.prefix_append _ _
    · rw [hc]
    · rw [hc]
      exact out_prefix_finish.trans hstart

theorem push_complete (hp : s.pending ≠ []) (h : utf8EncodeChar c = s.pending ++ [b]) :
    s.push b = ⟨s.out ++ [c], []⟩ := by
  unfold push
  rw [if_neg hp, complete_eq_some.mpr h]

theorem push_viable (hp : s.pending ≠ []) (hv : viable (s.pending ++ [b])) :
    s.push b = ⟨s.out, s.pending ++ [b]⟩ := by
  unfold push
  rw [if_neg hp, complete_of_viable hv]
  exact if_pos hv

theorem start_viable (hv : viable [b]) : start out b = ⟨out, [b]⟩ := by
  unfold start
  rw [complete_of_viable hv]
  exact if_pos hv

/-! Whole runs. -/

theorem out_prefix_run (bytes : List UInt8) : s.out <+: (s.run bytes).out := by
  induction bytes generalizing s with
  | nil => exact List.prefix_refl _
  | cons b bytes ih => exact (out_prefix_push b).trans ih

theorem finish_of_out {cs : List Char} (h : cs <+: s.out) (bytes : List UInt8) :
    cs <+: (s.run bytes).finish :=
  h.trans ((out_prefix_run bytes).trans out_prefix_finish)

theorem pending_suffix (bytes : List UInt8) : (run ⟨[], []⟩ bytes).pending <:+ bytes := by
  induction bytes using List.reverseRecOn with
  | nil => exact List.suffix_refl _
  | append_singleton bytes b ih =>
      rw [run_append, run_singleton]
      rcases push_pending (s := run ⟨[], []⟩ bytes) b with h | h | h
      · rw [h]
        exact List.nil_suffix
      · rw [h]
        exact List.suffix_append _ _
      · rw [h]
        exact (List.suffix_append_inj_of_length_eq rfl).mpr ⟨ih, rfl⟩

/-- What pending bytes become: U+FFFD, or the character that the bytes behind
them complete. -/
theorem run_pending (hp : s.pending ≠ []) (bytes : List UInt8) :
    ∃ c, s.out ++ [c] <+: (s.run bytes).finish ∧
      (c = replacement ∨ ∃ q d, q ≠ [] ∧ bytes = q ++ d ∧ utf8EncodeChar c = s.pending ++ q) := by
  induction bytes generalizing s with
  | nil => exact ⟨replacement, by simp [run, finish, hp], .inl rfl⟩
  | cons b bytes ih =>
      rw [run_cons]
      obtain ⟨c, henc, hpush⟩ | ⟨-, hpush⟩ | hpush := push_cases hp b
      · refine ⟨c, ?_, .inr ⟨[b], bytes, by simp, rfl, henc⟩⟩
        rw [hpush]
        exact finish_of_out (s := ⟨s.out ++ [c], []⟩) (List.prefix_refl _) bytes
      · obtain ⟨c, hout, hc⟩ := ih (s := s.push b) (by simp [hpush])
        refine ⟨c, by simpa [hpush] using hout, hc.imp id ?_⟩
        rintro ⟨q, d, -, hbytes, henc⟩
        exact ⟨b :: q, d, by simp, by simp [hbytes], by simpa [hpush] using henc⟩
      · refine ⟨replacement, ?_, .inl rfl⟩
        rw [hpush]
        have hfinish : s.out ++ [replacement] = s.finish := by simp [finish, hp]
        rw [hfinish]
        refine finish_of_out ?_ bytes
        obtain ⟨c, hc⟩ | hc := start_cases s.finish b
        · rw [hc]
          exact List.prefix_append _ _
        · rw [hc]

/-- A beginning of an encoding is pending once it is read, whatever came before. -/
theorem run_front (h : utf8EncodeChar c = p ++ q) (hp : p ≠ []) (hq : q ≠ []) :
    s.run p = ⟨s.finish, p⟩ := by
  induction p using List.reverseRecOn generalizing q with
  | nil => exact absurd rfl hp
  | append_singleton p b ih =>
      have hviable : viable (p ++ [b]) := viable_of_encode h hp hq
      rw [run_append, run_singleton]
      by_cases hnil : p = []
      · subst hnil
        show s.push b = _
        rw [push_head (not_isTail_head h), start_viable hviable]
        rfl
      · rw [ih (q := b :: q) (by simp [h]) hnil (by simp), push_viable hnil hviable]

/-- The rest of an encoding completes its character. -/
theorem run_rest (hp : s.pending ≠ []) (h : utf8EncodeChar c = s.pending ++ q) (hq : q ≠ []) :
    s.run q = ⟨s.out ++ [c], []⟩ := by
  induction q generalizing s with
  | nil => exact absurd rfl hq
  | cons b q ih =>
      rw [run_cons]
      by_cases hnil : q = []
      · subst hnil
        exact push_complete hp h
      · have hpush := push_viable (b := b) hp
          (viable_of_encode (c := c) (q := q) (by simp [h]) (by simp) hnil)
        rw [ih (by simp [hpush]) (by simp [hpush, h]) hnil, hpush]

/-- A whole encoding is read as its character. -/
theorem run_char (hs : s.pending = []) : s.run (utf8EncodeChar c) = ⟨s.out ++ [c], []⟩ := by
  cases h : utf8EncodeChar c with
  | nil => exact absurd h String.utf8EncodeChar_ne_nil
  | cons b q =>
      by_cases hq : q = []
      · subst hq
        show s.push b = _
        rw [push_nil hs, start, complete_eq_some.mpr h]
        simp [finish, hs]
      · have hfront : s.run [b] = ⟨s.finish, [b]⟩ := run_front h (by simp) hq
        have hrest : run ⟨s.finish, [b]⟩ q = ⟨s.finish ++ [c], []⟩ := run_rest (by simp) h hq
        rw [← List.singleton_append, run_append, hfront, hrest]
        simp [finish, hs]

end Lossy

/-- Well-formed text comes back as it is. -/
theorem decodeLossy_encode (cs : List Char) : decodeLossy (cs.flatMap utf8EncodeChar) = cs := by
  have hrun : ∀ s : Lossy, s.pending = [] → s.run (cs.flatMap utf8EncodeChar) = ⟨s.out ++ cs, []⟩ := by
    induction cs with
    | nil =>
        intro s hs
        obtain ⟨out, pending⟩ := s
        simp only at hs
        simp [Lossy.run, hs]
    | cons c cs ih =>
        intro s hs
        rw [List.flatMap_cons, Lossy.run_append, Lossy.run_char hs, ih _ rfl]
        simp
  rw [decodeLossy, hrun _ rfl]
  simp [Lossy.finish]

/-! ### When a decoding continues another -/

/-- Position `n` lies inside an encoding of `c`. -/
def Splits (bytes : List UInt8) (n : Nat) (c : Char) : Prop :=
  ∃ a d, bytes = a ++ utf8EncodeChar c ++ d ∧ a.length < n ∧
    n < a.length + (utf8EncodeChar c).length

theorem splits_iff {bytes more : List UInt8} {c : Char} :
    Splits (bytes ++ more) bytes.length c ↔
      ∃ a p q d, p ≠ [] ∧ q ≠ [] ∧ bytes = a ++ p ∧ more = q ++ d ∧ utf8EncodeChar c = p ++ q := by
  constructor
  · intro ⟨a, d, heq, hlt, hlt'⟩
    rw [List.append_assoc] at heq
    obtain ⟨p, rfl, hrest⟩ | ⟨p, rfl, hrest⟩ := List.append_eq_append_iff.mp heq
    · simp at hlt
    simp only [List.length_append] at hlt hlt'
    obtain ⟨q, rfl, rfl⟩ | ⟨q, henc, rfl⟩ := List.append_eq_append_iff.mp hrest
    · simp at hlt'
    refine ⟨a, p, q, d, ?_, ?_, rfl, rfl, henc⟩
    · intro hp
      simp [hp] at hlt
    · intro hq
      simp [henc, hq] at hlt'
  · rintro ⟨a, p, q, d, hp, hq, rfl, rfl, henc⟩
    have hplen := List.length_pos_iff.mpr hp
    have hqlen := List.length_pos_iff.mpr hq
    exact ⟨a, d, by simp [henc], by simp [hplen], by simp [henc, hqlen]⟩

/-- **When a decoding continues another.** What a byte string decodes to is a
prefix of what a longer one decodes to exactly when the shorter one does not end
inside a character other than U+FFFD. -/
theorem prefix_iff {bytes more : List UInt8} :
    decodeLossy bytes <+: decodeLossy (bytes ++ more) ↔
      ∀ c, Splits (bytes ++ more) bytes.length c → c = replacement := by
  have hrun : decodeLossy (bytes ++ more) = ((Lossy.run ⟨[], []⟩ bytes).run more).finish := by
    rw [decodeLossy, Lossy.run_append]
  constructor
  · intro h c hc
    obtain ⟨a, p, q, d, hp, hq, rfl, rfl, henc⟩ := splits_iff.mp hc
    -- the bytes of the character before the cut are pending there, the rest completes it
    let before := (Lossy.run ⟨[], []⟩ a).finish
    have hfront : Lossy.run ⟨[], []⟩ (a ++ p) = ⟨before, p⟩ := by
      rw [Lossy.run_append]
      exact Lossy.run_front henc hp hq
    have hrest : Lossy.run ⟨before, p⟩ q = ⟨before ++ [c], []⟩ := Lossy.run_rest hp henc hq
    have hshort : decodeLossy (a ++ p) = before ++ [replacement] := by
      simp [decodeLossy, hfront, Lossy.finish, hp]
    have hlong : before ++ [c] <+: decodeLossy (a ++ p ++ (q ++ d)) := by
      rw [hrun, hfront, Lossy.run_append, hrest]
      exact Lossy.finish_of_out (s := ⟨before ++ [c], []⟩) (List.prefix_refl _) d
    rw [hshort] at h
    have heq := (List.prefix_of_prefix_length_le hlong h (by simp)).eq_of_length (by simp)
    simpa using heq
  · intro h
    rw [hrun]
    by_cases hp : (Lossy.run ⟨[], []⟩ bytes).pending = []
    · simp only [decodeLossy, Lossy.finish, hp, if_true, List.append_nil]
      exact Lossy.finish_of_out (List.prefix_refl _) more
    · obtain ⟨c, hout, hc⟩ := Lossy.run_pending hp more
      have hc' : c = replacement := by
        rcases hc with hc | ⟨q, d, hq, hmore, henc⟩
        · exact hc
        · obtain ⟨a, ha⟩ := Lossy.pending_suffix bytes
          exact h c (splits_iff.mpr ⟨a, _, q, d, hp, hq, ha.symm, hmore, henc⟩)
      subst hc'
      simpa [decodeLossy, Lossy.finish, hp] using hout

/-- A decoding that continues into a longer one continues into all between. -/
theorem prefix_between {bytes more rest : List UInt8}
    (h : decodeLossy bytes <+: decodeLossy (bytes ++ more ++ rest)) :
    decodeLossy bytes <+: decodeLossy (bytes ++ more) := by
  rw [List.append_assoc, prefix_iff] at h
  rw [prefix_iff]
  intro c ⟨a, d, heq, hlt, hlt'⟩
  exact h c ⟨a, d ++ rest, by rw [← List.append_assoc, heq]; simp, hlt, hlt'⟩

/-! ### Byte offsets into a text -/

/-- The characters from a byte offset on, unless it is past the end or inside a
character. -/
def dropBytes : Nat → List Char → Option (List Char)
  | 0, cs => some cs
  | _ + 1, [] => none
  | n + 1, c :: cs => if c.utf8Size ≤ n + 1 then dropBytes (n + 1 - c.utf8Size) cs else none

/-- `&s[n..]`. -/
def sliceFrom (s : String) (n : Nat) : Option String := (dropBytes n s.toList).map String.ofList

theorem dropBytes_append (l r : List Char) : dropBytes (String.utf8Len l) (l ++ r) = some r := by
  induction l with
  | nil => cases r <;> rfl
  | cons c l ih =>
      have hpos := c.utf8Size_pos
      obtain ⟨n, hn⟩ : ∃ n, String.utf8Len l + c.utf8Size = n + 1 :=
        ⟨String.utf8Len l + c.utf8Size - 1, by omega⟩
      rw [String.utf8Len_cons, List.cons_append, hn, dropBytes, if_pos (by omega), ← hn,
        Nat.add_sub_cancel, ih]

theorem sliceFrom_append (s t : String) : sliceFrom (s ++ t) s.utf8ByteSize = some t := by
  have hlen : s.utf8ByteSize = String.utf8Len s.toList := by
    rw [← String.utf8ByteSize_ofList, String.ofList_toList]
  rw [sliceFrom, hlen, String.toList_append, dropBytes_append, Option.map_some,
    String.ofList_toList]

end LlmPager.Lib.Utf8
