import Mathlib

/-!
# LlmPager.Lib.Frames

A stream of frames, each ended by a blank line: two newlines, where a frame has none. The
receiver cuts frames out of what has arrived so far, wherever the stream was torn.
-/

namespace LlmPager.Lib.Frames

variable {α : Type*} [DecidableEq α] (nl : α)

/-- The frames that have arrived as a whole, and what follows them; `cur` is what has
arrived of the first one before. -/
def cutFrom (cur : List α) : List α → List (List α) × List α
  | [] => ([], cur)
  | b :: rest =>
      if b = nl ∧ cur.getLast? = some nl then
        (cur.dropLast :: (cutFrom [] rest).1, (cutFrom [] rest).2)
      else cutFrom (cur ++ [b]) rest

def cut (bytes : List α) : List (List α) × List α := cutFrom nl [] bytes

/-- A frame on the wire. -/
def wire (frame : List α) : List α := frame ++ [nl, nl]

variable {nl}

/-- A piece without newlines behind one without newlines goes into the same frame. -/
theorem cutFrom_append {piece : List α} (h : nl ∉ piece) (cur rest : List α) :
    cutFrom nl cur (piece ++ rest) = cutFrom nl (cur ++ piece) rest := by
  induction piece generalizing cur with
  | nil => simp
  | cons b piece ih =>
      have hb : b ≠ nl := fun heq => h (heq ▸ List.mem_cons_self)
      simp [cutFrom, hb, ih fun hmem => h (List.mem_cons_of_mem _ hmem)]

theorem cut_wire {frame : List α} (h : nl ∉ frame) (rest : List α) :
    cut nl (wire nl frame ++ rest) = (frame :: (cut nl rest).1, (cut nl rest).2) := by
  have hlast : frame.getLast? ≠ some nl := fun heq => h (List.mem_of_getLast? heq)
  have hsplit : wire nl frame ++ rest = frame ++ nl :: nl :: rest := by simp [wire]
  rw [cut, hsplit, cutFrom_append h]
  simp [cutFrom, hlast, cut]

/-- What arrives later changes nothing about the frames that have arrived. -/
theorem cutFrom_prefix (cur : List α) {arrived all : List α} (h : arrived <+: all) :
    (cutFrom nl cur arrived).1 <+: (cutFrom nl cur all).1 := by
  induction arrived generalizing cur all with
  | nil => simp [cutFrom]
  | cons b arrived ih =>
      obtain ⟨all', rfl, h'⟩ := List.cons_prefix_iff.mp h
      unfold cutFrom
      split
      · exact (List.prefix_cons_inj _).mpr (ih [] h')
      · exact ih _ h'

theorem cut_prefix {arrived all : List α} (h : arrived <+: all) :
    (cut nl arrived).1 <+: (cut nl all).1 :=
  cutFrom_prefix [] h

/-- **Round trip.** -/
theorem cut_wires {frames : List (List α)} (h : ∀ frame ∈ frames, nl ∉ frame) :
    cut nl (frames.flatMap (wire nl)) = (frames, []) := by
  induction frames with
  | nil => simp [cut, cutFrom]
  | cons frame frames ih =>
      rw [List.flatMap_cons, cut_wire (h frame List.mem_cons_self),
        ih fun f hf => h f (List.mem_cons_of_mem _ hf)]

end LlmPager.Lib.Frames
