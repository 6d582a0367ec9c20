import LlmPager.Convert.Blob
import LlmPager.Lib.Text

/-!
# LlmPager.Convert.ExpertNames

`parse_expert` of the converter: which tensor names are an expert's weights, and whose.

The layer and the expert are parsed as `u16`, so that a name may spell them with a plus sign
or with leading zeros. Two names are of one weight if they differ in that, and only then
(`parseExpert_inj`).
-/

namespace LlmPager

open Lib (splitOnce parseUnsigned numeral)

/-- A weight of an expert. -/
structure Slot where
  layer : Nat
  expert : Nat
  proj : Proj
  deriving Repr, DecidableEq

def Proj.suffix : Proj → String
  | gate => "gate_proj.weight"
  | up => "up_proj.weight"
  | down => "down_proj.weight"

def projOf (rest : List Char) : Option Proj := Proj.all.find? fun p => p.suffix.toList = rest

def parseExpert (name : String) : Option Slot := do
  let rest ← name.toList.dropPrefix? "model.layers.".toList
  let layer ← splitOnce '.' rest
  let rest ← layer.2.dropPrefix? "mlp.experts.".toList
  let expert ← splitOnce '.' rest
  let proj ← projOf expert.2
  let l ← parseUnsigned (2 ^ 16) layer.1
  let e ← parseUnsigned (2 ^ 16) expert.1
  return ⟨l, e, proj⟩

/-! ### Spellings -/

/-- The name of a weight, its layer and its expert spelt so. -/
def expertName (layer expert : List Char) (p : Proj) : String :=
  String.ofList ("model.layers.".toList ++ (layer ++ '.' ::
    ("mlp.experts.".toList ++ (expert ++ '.' :: p.suffix.toList))))

/-- The names of one weight: the numbers are spelt alike, but for a plus sign and leading
zeros. -/
def Respelt (a b : String) : Prop :=
  ∃ layer expert layer' expert' p, '.' ∉ layer ∧ '.' ∉ expert ∧ '.' ∉ layer' ∧ '.' ∉ expert' ∧
    a = expertName layer expert p ∧ b = expertName layer' expert' p ∧
    numeral layer = numeral layer' ∧ numeral expert = numeral expert'

theorem projOf_suffix (p : Proj) : projOf p.suffix.toList = some p := by
  cases p <;> decide

theorem projOf_eq_some {rest : List Char} {p : Proj} (h : projOf rest = some p) :
    rest = p.suffix.toList := by
  have hfound := List.find?_some h
  exact (of_decide_eq_true hfound).symm

theorem parseExpert_expertName {layer expert : List Char} (hlayer : '.' ∉ layer)
    (hexpert : '.' ∉ expert) (p : Proj) : parseExpert (expertName layer expert p) = do
      let l ← parseUnsigned (2 ^ 16) layer
      let e ← parseUnsigned (2 ^ 16) expert
      return ⟨l, e, p⟩ := by
  unfold parseExpert expertName
  rw [String.toList_ofList, List.dropPrefix?_append_of_beq _ (by simp)]
  simp only [Option.bind_eq_bind, Option.bind_some, Lib.splitOnce_append hlayer,
    Lib.splitOnce_append hexpert, List.dropPrefix?_append_of_beq _ (beq_self_eq_true _),
    projOf_suffix]

theorem parseExpert_eq_some {name : String} {slot : Slot} (h : parseExpert name = some slot) :
    ∃ layer expert, '.' ∉ layer ∧ '.' ∉ expert ∧ name = expertName layer expert slot.proj ∧
      parseUnsigned (2 ^ 16) layer = some slot.layer ∧
      parseUnsigned (2 ^ 16) expert = some slot.expert := by
  simp only [parseExpert, Option.bind_eq_bind, Option.pure_def, Option.bind_eq_some_iff,
    Option.some.injEq] at h
  obtain ⟨rest, hrest, layer, hlayer, rest', hrest', expert, hexpert, proj, hproj, l, hl, e, he,
    rfl⟩ := h
  obtain ⟨front, hname, hfront⟩ := List.dropPrefix?_eq_some_iff.mp hrest
  obtain ⟨front', hrest, hfront'⟩ := List.dropPrefix?_eq_some_iff.mp hrest'
  obtain ⟨hdot, hsplit⟩ := Lib.splitOnce_eq_some hlayer
  obtain ⟨hdot', hsplit'⟩ := Lib.splitOnce_eq_some hexpert
  refine ⟨layer.1, expert.1, hdot, hdot', ?_, hl, he⟩
  refine String.toList_injective ?_
  unfold expertName
  rw [String.toList_ofList, hname, eq_of_beq hfront, hsplit, hrest, eq_of_beq hfront', hsplit',
    projOf_eq_some hproj]

/-- **Two names are of one weight if and only if they are its respellings.** -/
theorem parseExpert_inj {a b : String} {i j : Slot} (ha : parseExpert a = some i)
    (hb : parseExpert b = some j) : i = j ↔ Respelt a b := by
  constructor
  · rintro rfl
    obtain ⟨layer, expert, hdot, hdot', hname, hl, he⟩ := parseExpert_eq_some ha
    obtain ⟨layer', expert', hdot₁, hdot₁', hname', hl', he'⟩ := parseExpert_eq_some hb
    exact ⟨layer, expert, layer', expert', i.proj, hdot, hdot', hdot₁, hdot₁', hname, hname',
      (Lib.parseUnsigned_inj hl hl').mp rfl, (Lib.parseUnsigned_inj he he').mp rfl⟩
  · intro h
    obtain ⟨layer, expert, layer', expert', p, hdot, hdot', hdot₁, hdot₁', rfl, rfl, hl, he⟩ := h
    rw [parseExpert_expertName hdot hdot'] at ha
    rw [parseExpert_expertName hdot₁ hdot₁'] at hb
    simp only [Option.bind_eq_bind, Option.pure_def, Option.bind_eq_some_iff, Option.some.injEq]
      at ha hb
    obtain ⟨l, hl₁, e, he₁, rfl⟩ := ha
    obtain ⟨l', hl₂, e', he₂, rfl⟩ := hb
    rw [(Lib.parseUnsigned_inj hl₁ hl₂).mpr hl, (Lib.parseUnsigned_inj he₁ he₂).mpr he]

end LlmPager
