import LlmPager.Lib.Bytes

/-!
# LlmPager.Lib.Reader

Readers of a buffer from front to back, that fail or panic.

What a reader does is told by two languages (`Reads`): the bytes that it accepts, with the
answer, and the bytes on which it panics, with where they begin. Both are made from those of
its parts: a sequence (`Reads.bind`) accepts what its parts accept one after the other, and
panics where the first part does or, behind what the first accepts, the second.
-/

namespace LlmPager.Lib

/-- A request for so many bytes succeeds, if `alloc` is what the allocator grants. Nothing is
requested for no bytes, and no request is larger than `isize::MAX`. -/
def Allocates (alloc : Nat → Bool) (bytes : Nat) : Prop := bytes = 0 ∨ bytes < 2 ^ 63 ∧ alloc bytes = true

instance (alloc : Nat → Bool) (bytes : Nat) : Decidable (Allocates alloc bytes) :=
  inferInstanceAs (Decidable (_ ∨ _))

theorem allocates_all {bytes : Nat} : Allocates (fun _ => true) bytes ↔ bytes < 2 ^ 63 := by
  simp only [Allocates, and_true]
  omega

/-- A slice, of at most `isize::MAX` bytes, and a position in it. -/
@[ext] structure Cursor where
  buf : List UInt8
  pos : Nat
  inside : pos ≤ buf.length
  sized : buf.length < 2 ^ 63

namespace Cursor

def start (buf : List UInt8) (h : buf.length < 2 ^ 63) : Cursor := ⟨buf, 0, Nat.zero_le _, h⟩

/-- What is still to be read. -/
def rest (c : Cursor) : List UInt8 := c.buf.drop c.pos

theorem length_rest (c : Cursor) : c.pos + c.rest.length = c.buf.length := by
  have := c.inside
  rw [rest, List.length_drop]
  omega

theorem room (c : Cursor) : c.pos + c.rest.length < 2 ^ 63 := c.length_rest.trans_lt c.sized

/-- `c'` is behind `bytes`, which were read from `c`. -/
structure Advance (c : Cursor) (bytes : List UInt8) (c' : Cursor) : Prop where
  buf : c'.buf = c.buf
  pos : c'.pos = c.pos + bytes.length
  rest : c.rest = bytes ++ c'.rest

variable {c c' c'' : Cursor} {bytes bytes' tail : List UInt8}

theorem Advance.refl (c : Cursor) : Advance c [] c := ⟨rfl, rfl, rfl⟩

theorem Advance.trans (h : Advance c bytes c') (h' : Advance c' bytes' c'') :
    Advance c (bytes ++ bytes') c'' :=
  ⟨h'.buf.trans h.buf, by rw [h'.pos, h.pos, List.length_append, Nat.add_assoc],
    by rw [h.rest, h'.rest, List.append_assoc]⟩

theorem Advance.unique (h : Advance c bytes c') (h' : Advance c bytes c'') : c' = c'' :=
  Cursor.ext (h.buf.trans h'.buf.symm) (h.pos.trans h'.pos.symm)

/-- The bytes at the front can be read. -/
theorem exists_advance (h : c.rest = bytes ++ tail) : ∃ c', Advance c bytes c' ∧ c'.rest = tail := by
  have hlen := c.length_rest
  rw [h, List.length_append] at hlen
  have htail : c.buf.drop (c.pos + bytes.length) = tail := by
    rw [← List.drop_drop, ← rest, h, List.drop_left]
  exact ⟨⟨c.buf, c.pos + bytes.length, by omega, c.sized⟩, ⟨rfl, rfl,
    h.trans (congrArg (bytes ++ ·) htail.symm)⟩, htail⟩

end Cursor

open Cursor (Advance)

variable {ε α β X : Type}

/-- What a reader accepts and answers, and where it panics. -/
structure Reads (panic : ε) (m : EStateM ε Cursor α) (Good : List UInt8 → α → Prop)
    (Bad : Nat → List UInt8 → Prop) : Prop where
  ok : ∀ c a c', m c = .ok a c' ↔ ∃ bytes, Advance c bytes c' ∧ Good bytes a
  panics : ∀ c, (∃ c', m c = .error panic c') ↔ Bad c.pos c.rest
  /-- Errors leave the buffer, too. -/
  stays : ∀ c e c', m c = .error e c' → c'.buf = c.buf

namespace Reads

variable {panic : ε} {m : EStateM ε Cursor α} {Good Good' : List UInt8 → α → Prop}
  {Bad Bad' : Nat → List UInt8 → Prop}

theorem congr (h : Reads panic m Good Bad) (hgood : ∀ bytes a, Good bytes a ↔ Good' bytes a)
    (hbad : ∀ pos rest, pos + rest.length < 2 ^ 63 → (Bad pos rest ↔ Bad' pos rest)) :
    Reads panic m Good' Bad' := by
  refine ⟨?_, ?_, h.stays⟩
  · intro c a c'
    rw [h.ok]
    exact exists_congr fun bytes => and_congr_right fun _ => hgood bytes a
  · intro c
    rw [h.panics]
    exact hbad c.pos c.rest c.room

theorem pure (panic : ε) (a : α) : Reads panic (Pure.pure a : EStateM ε Cursor α)
    (fun bytes a' => bytes = [] ∧ a' = a) fun _ _ => False := by
  constructor
  · intro c a' c'
    show EStateM.Result.ok a c = .ok a' c' ↔ _
    constructor
    · intro h
      cases h
      exact ⟨[], Advance.refl c, rfl, rfl⟩
    · intro h
      obtain ⟨bytes, hadv, rfl, rfl⟩ := h
      rw [hadv.unique (Advance.refl c)]
  · intro c
    show (∃ c', EStateM.Result.ok a c = .error panic c') ↔ False
    simp
  · intro c e c' h
    cases h

/-- An error is no panic. -/
theorem throw {e : ε} (hne : e ≠ panic) : Reads panic (MonadExcept.throw e : EStateM ε Cursor α)
    (fun _ _ => False) fun _ _ => False := by
  refine ⟨?_, ?_, ?_⟩
  · intro c a c'
    show EStateM.Result.error e c = .ok a c' ↔ _
    simp
  · intro c
    show (∃ c', EStateM.Result.error e c = .error panic c') ↔ False
    simp [hne]
  · intro c e' c' h
    cases h
    rfl

theorem throw_panic : Reads panic (MonadExcept.throw panic : EStateM ε Cursor α)
    (fun _ _ => False) fun _ _ => True := by
  refine ⟨?_, ?_, ?_⟩
  · intro c a c'
    show EStateM.Result.error panic c = .ok a c' ↔ _
    simp
  · intro c
    show (∃ c', EStateM.Result.error panic c = .error panic c') ↔ True
    simp
  · intro c e c' h
    cases h
    rfl

theorem bind {f : α → EStateM ε Cursor β} {Then : α → List UInt8 → β → Prop}
    {BadThen : α → Nat → List UInt8 → Prop} (hm : Reads panic m Good Bad)
    (hf : ∀ a, Reads panic (f a) (Then a) (BadThen a)) :
    Reads panic (m >>= f)
      (fun bytes b => ∃ front a back, bytes = front ++ back ∧ Good front a ∧ Then a back b)
      fun pos rest => Bad pos rest ∨ ∃ front a tail, rest = front ++ tail ∧ Good front a ∧
        BadThen a (pos + front.length) tail := by
  have hbind : ∀ c, (m >>= f) c = EStateM.bind m f c := fun _ => rfl
  have hrun : ∀ {c a c'}, m c = .ok a c' → (m >>= f) c = f a c' := by
    intro c a c' h
    rw [hbind, EStateM.bind, h]
  have hstop : ∀ {c e c'}, m c = .error e c' → (m >>= f) c = .error e c' := by
    intro c e c' h
    rw [hbind, EStateM.bind, h]
  refine ⟨?_, ?_, ?_⟩
  · intro c b c''
    constructor
    · intro h
      cases hc : m c with
      | error e c' => rw [hstop hc] at h; cases h
      | ok a c' =>
          rw [hrun hc] at h
          obtain ⟨front, hfront, hgood⟩ := (hm.ok c a c').mp hc
          obtain ⟨back, hback, hthen⟩ := ((hf a).ok c' b c'').mp h
          exact ⟨front ++ back, hfront.trans hback, front, a, back, rfl, hgood, hthen⟩
    · intro h
      obtain ⟨bytes, hadv, front, a, back, rfl, hgood, hthen⟩ := h
      have hrest := hadv.rest
      rw [List.append_assoc] at hrest
      obtain ⟨c', hfront, hrest'⟩ := Cursor.exists_advance hrest
      obtain ⟨c₂, hback, -⟩ := Cursor.exists_advance hrest'
      have hc₂ : c₂ = c'' := (hfront.trans hback).unique hadv
      rw [hc₂] at hback
      rw [hrun ((hm.ok c a c').mpr ⟨front, hfront, hgood⟩)]
      exact ((hf a).ok c' b c'').mpr ⟨back, hback, hthen⟩
  · intro c
    constructor
    · intro h
      obtain ⟨c'', h⟩ := h
      cases hc : m c with
      | error e c' =>
          rw [hstop hc] at h
          cases h
          exact Or.inl ((hm.panics c).mp ⟨_, hc⟩)
      | ok a c' =>
          rw [hrun hc] at h
          obtain ⟨front, hfront, hgood⟩ := (hm.ok c a c').mp hc
          have hbad := ((hf a).panics c').mp ⟨_, h⟩
          rw [hfront.pos] at hbad
          exact Or.inr ⟨front, a, c'.rest, hfront.rest, hgood, hbad⟩
    · intro h
      rcases h with h | h
      · obtain ⟨c', hc⟩ := (hm.panics c).mpr h
        exact ⟨c', hstop hc⟩
      · obtain ⟨front, a, tail, hrest, hgood, hbad⟩ := h
        obtain ⟨c', hfront, hrest'⟩ := Cursor.exists_advance hrest
        rw [hrun ((hm.ok c a c').mpr ⟨front, hfront, hgood⟩)]
        refine ((hf a).panics c').mpr ?_
        rw [hfront.pos, hrest']
        exact hbad
  · intro c e c'' h
    cases hc : m c with
    | error e' c' =>
        rw [hstop hc] at h
        cases h
        exact hm.stays c _ _ hc
    | ok a c' =>
        rw [hrun hc] at h
        obtain ⟨front, hfront, -⟩ := (hm.ok c a c').mp hc
        exact ((hf a).stays c' e c'' h).trans hfront.buf

/-- What only computes. -/
theorem map {f : α → β} (hm : Reads panic m Good Bad) :
    Reads panic (do let a ← m; Pure.pure (f a)) (fun bytes b => ∃ a, Good bytes a ∧ b = f a) Bad := by
  refine (hm.bind fun a => Reads.pure panic (f a)).congr ?_ ?_
  · intro bytes b
    constructor
    · intro h
      obtain ⟨front, a, back, rfl, hgood, rfl, rfl⟩ := h
      exact ⟨a, by rwa [List.append_nil], rfl⟩
    · intro h
      obtain ⟨a, hgood, rfl⟩ := h
      exact ⟨bytes, a, [], (List.append_nil _).symm, hgood, rfl, rfl⟩
  · intro pos rest _
    simp

theorem ite {c : Prop} [Decidable c] {m' : EStateM ε Cursor α} (hm : c → Reads panic m Good Bad)
    (hm' : ¬ c → Reads panic m' Good' Bad') : Reads panic (if c then m else m')
      (fun bytes a => c ∧ Good bytes a ∨ ¬ c ∧ Good' bytes a)
      fun pos rest => c ∧ Bad pos rest ∨ ¬ c ∧ Bad' pos rest := by
  by_cases h : c
  · rw [if_pos h]
    exact (hm h).congr (by simp [h]) (by simp [h])
  · rw [if_neg h]
    exact (hm' h).congr (by simp [h]) (by simp [h])

end Reads

/-! ### Bytes and numbers -/

/-- The next `n` bytes. Where the end of the slice is not a `usize` it is a panic. -/
def take (short panic : ε) (n : Nat) : EStateM ε Cursor (List UInt8) := fun c =>
  if 2 ^ 64 ≤ c.pos + n then .error panic c
  else if h : c.buf.length < c.pos + n then .error short c
  else .ok (slice c.pos n c.buf) { c with pos := c.pos + n, inside := by omega }

variable {short panic : ε}

theorem reads_take (hne : short ≠ panic) (n : Nat) :
    Reads panic (take short panic n) (fun bytes a => a = bytes ∧ bytes.length = n)
      fun pos _ => 2 ^ 64 ≤ pos + n := by
  refine ⟨?_, ?_, ?_⟩
  · intro c a c'
    have hsized := c.sized
    have hlen := c.length_rest
    unfold take
    constructor
    · intro h
      split_ifs at h with hwrap hshort
      cases h
      have hslice : (slice c.pos n c.buf).length = n := length_slice (by omega)
      refine ⟨_, ⟨rfl, by rw [hslice], ?_⟩, rfl, hslice⟩
      show c.buf.drop c.pos = (c.buf.drop c.pos).take n ++ c.buf.drop (c.pos + n)
      rw [← List.drop_drop, List.take_append_drop]
    · intro h
      obtain ⟨bytes, hadv, rfl, rfl⟩ := h
      have hin := c'.inside
      rw [hadv.pos, hadv.buf] at hin
      have hslice : slice c.pos a.length c.buf = a := by
        show c.rest.take a.length = a
        rw [hadv.rest, List.take_left]
      rw [if_neg (by omega), dif_neg (by omega), hslice]
      congr 1
      exact Cursor.ext hadv.buf.symm hadv.pos.symm
  · intro c
    unfold take
    split_ifs with hwrap hshort
    · exact iff_of_true ⟨c, rfl⟩ hwrap
    · exact iff_of_false (by simp [hne]) hwrap
    · exact iff_of_false (by simp) hwrap
  · intro c e c' h
    unfold take at h
    split_ifs at h <;> cases h <;> rfl

/-- A few bytes never wrap. -/
theorem reads_take_fixed (hne : short ≠ panic) {n : Nat} (hn : n ≤ 2 ^ 63) :
    Reads panic (take short panic n) (fun bytes a => a = bytes ∧ bytes.length = n)
      fun _ _ => False := by
  refine (reads_take hne n).congr (fun _ _ => Iff.rfl) ?_
  intro pos rest hroom
  constructor
  · intro hwrap
    omega
  · exact False.elim

/-! ### Loops -/

/-- `n` times, one after the other. -/
def times : Nat → EStateM ε Cursor α → EStateM ε Cursor (List α)
  | 0, _ => Pure.pure []
  | n + 1, m => do
      let a ← m
      let as ← times n m
      Pure.pure (a :: as)

/-- Items that are written one after the other. -/
theorem reads_times {m : EStateM ε Cursor α} {P : X → Prop} {enc : X → List UInt8} {out : X → α}
    {Bad : Nat → List UInt8 → Prop}
    (hm : Reads panic m (fun bytes a => ∃ x, P x ∧ bytes = enc x ∧ a = out x) Bad) (n : Nat) :
    Reads panic (times n m)
      (fun bytes as => ∃ xs : List X, xs.length = n ∧ (∀ x ∈ xs, P x) ∧ bytes = xs.flatMap enc ∧
        as = xs.map out)
      fun pos rest => ∃ (xs : List X) (tail : List UInt8), xs.length < n ∧ (∀ x ∈ xs, P x) ∧
        rest = xs.flatMap enc ++ tail ∧ Bad (pos + (xs.flatMap enc).length) tail := by
  induction n with
  | zero =>
      refine (Reads.pure panic []).congr ?_ ?_
      · intro bytes as
        constructor
        · intro h
          obtain ⟨rfl, rfl⟩ := h
          exact ⟨[], rfl, by simp, rfl, rfl⟩
        · intro h
          obtain ⟨xs, hlen, -, rfl, rfl⟩ := h
          rw [List.eq_nil_of_length_eq_zero hlen]
          exact ⟨rfl, rfl⟩
      · simp
  | succ n ih =>
      refine (hm.bind fun a => ih.map).congr ?_ ?_
      · intro bytes as
        constructor
        · intro h
          obtain ⟨front, a, back, rfl, ⟨x, hx, rfl, rfl⟩, as', ⟨xs, hlen, hxs, rfl, rfl⟩, rfl⟩ := h
          exact ⟨x :: xs, by rw [List.length_cons, hlen], List.forall_mem_cons.mpr ⟨hx, hxs⟩, rfl, rfl⟩
        · intro h
          obtain ⟨xs, hlen, hxs, rfl, rfl⟩ := h
          cases xs with
          | nil => cases hlen
          | cons x xs =>
              obtain ⟨hx, hxs⟩ := List.forall_mem_cons.mp hxs
              exact ⟨enc x, out x, xs.flatMap enc, rfl, ⟨x, hx, rfl, rfl⟩, _,
                ⟨xs, Nat.succ.inj hlen, hxs, rfl, rfl⟩, rfl⟩
      · intro pos rest _
        constructor
        · intro h
          rcases h with h | h
          · exact ⟨[], rest, Nat.succ_pos n, by simp, rfl, h⟩
          · obtain ⟨front, a, tail, rfl, ⟨x, hx, rfl, rfl⟩, xs, tail', hlen, hxs, rfl, hbad⟩ := h
            refine ⟨x :: xs, tail', Nat.succ_lt_succ hlen, List.forall_mem_cons.mpr ⟨hx, hxs⟩, ?_, ?_⟩
            · rw [List.flatMap_cons, List.append_assoc]
            · rwa [List.flatMap_cons, List.length_append, ← Nat.add_assoc]
        · intro h
          obtain ⟨xs, tail, hlen, hxs, rfl, hbad⟩ := h
          cases xs with
          | nil => exact Or.inl hbad
          | cons x xs =>
              obtain ⟨hx, hxs⟩ := List.forall_mem_cons.mp hxs
              rw [List.flatMap_cons, List.length_append, ← Nat.add_assoc] at hbad
              refine Or.inr ⟨enc x, out x, xs.flatMap enc ++ tail, ?_, ⟨x, hx, rfl, rfl⟩, xs, tail,
                Nat.succ_lt_succ_iff.mp hlen, hxs, rfl, hbad⟩
              rw [List.flatMap_cons, List.append_assoc]

end LlmPager.Lib
