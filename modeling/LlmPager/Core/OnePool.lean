import LlmPager.Core.Layers

/-!
# LlmPager.Core.OnePool

`ExpertCache::new` and its layers.

The constructor asks for one partition per layer and passes `u32::MAX` as the
number of ids per partition, so every id but the last of the `u32` folds to
partition 0. `new_by_layer_iff` says for which layer counts and layer sizes its
cache is one cache per layer all the same.
-/

namespace LlmPager

namespace ExpertCache

/-- `ExpertCache::fold`; `none` where the `u32` overflows. -/
def fold (layer expert expertsPerLayer : Nat) : Option Nat :=
  if layer * expertsPerLayer < 2 ^ 32 then u32Add (layer * expertsPerLayer) expert else none

theorem fold_eq {l e E id : Nat} (h : fold l e E = some id) : id = flatId E (l, e) := by
  unfold fold at h
  split at h
  · exact u32Add_eq_some h
  · cases h

end ExpertCache

/-- An id is the fold of a layer below `L` and an expert below `E`, which is a
`u16`. -/
def CacheCall.Folded (L E : Nat) : CacheCall → Prop
  | .acquire id | .lookupReady id | .isWedged id =>
      ∃ l e, l < L ∧ e < E ∧ e < 2 ^ 16 ∧ ExpertCache.fold l e E = some id
  | .publish _ | .release _ | .decayAll => True

namespace ExpertCache

/-- Every run on the cache of `new` answers each layer's calls as a stand-alone
cache of `S` slots would that sees them only, on slots of the layer's own; where
slots are counted in 32 bits and only slots of the cache are named, it panics only
if one of those caches does. -/
def NewByLayer (L S D E : Nat) : Prop :=
  ∀ c ops, new L S D = some c → (∀ op ∈ ops, op.Folded L E) →
    (∀ outs c', c.runCalls ops = some (outs, c') →
      ∀ l < L, ∃ d louts d', new 1 S D = some d ∧
        d.runCalls (callsOf E S l ops) = some (louts, d') ∧
        outcomesOf E S l ops outs = louts.map (Outcome.shift (l * S))) ∧
    (c.runCalls ops = none → L * S < 2 ^ 32 → (∀ op ∈ ops, op.InRange (L * S)) →
      ∃ l < L, ∃ d, new 1 S D = some d ∧ d.runCalls (callsOf E S l ops) = none)

/-- Where the layer of every id is the one its partition number says, the cache
of `new` is one cache per layer. -/
theorem newByLayer_of_agree {L S D E : Nat}
    (h : ∀ op : CacheCall, op.Folded L E →
      op.Named L (2 ^ 32 - 1) ∧ op.layer E S = op.layer (2 ^ 32 - 1) S) : NewByLayer L S D E := by
  intro c ops hnew hops
  have hseen : ∀ l, ∀ op ∈ ops, op.seenBy E S l = op.seenBy (2 ^ 32 - 1) S l := by
    intro l op hop
    rw [CacheCall.seenBy, CacheCall.seenBy, (h op (hops op hop)).2]
  have hcalls : ∀ l, callsOf E S l ops = callsOf (2 ^ 32 - 1) S l ops := by
    intro l
    rw [callsOf, callsOf, List.filter_congr (hseen l)]
  obtain ⟨hok, hnone⟩ := refines_layers hnew fun op hop => (h op (hops op hop)).1
  refine ⟨fun outs c' hrun l hl => ?_, fun hrun hfits hslots => ?_⟩
  · obtain ⟨d, d', louts, -, -, hd, hdrun, houts, -⟩ := hok outs c' hrun l hl
    refine ⟨d, louts, d', hd, by rw [hcalls, hdrun], ?_⟩
    rw [outcomesOf, List.filter_congr fun x hx => hseen l x.1 (List.of_mem_zip hx).1]
    exact houts
  · obtain ⟨l, hl, d, hd, hdrun⟩ := hnone hrun hfits hslots
    exact ⟨l, hl, d, hd, by rw [hcalls, hdrun]⟩

/-- The first expert of the second layer lands in the first layer's partition. -/
theorem not_newByLayer {L S D E : Nat} (hL : 2 ≤ L) (hS : 0 < S) (hD : 0 < D)
    (hslots : (L - 1) * S < 2 ^ 32) (hE : 0 < E) (hE32 : E < 2 ^ 32 - 1) :
    ¬NewByLayer L S D E := by
  intro h
  have hS32 : S < 2 ^ 32 := by
    have : 1 * S ≤ (L - 1) * S := Nat.mul_le_mul_right S (by omega)
    omega
  obtain ⟨c, hnew⟩ : ∃ c, new L S D = some c := ⟨_, if_pos ⟨by omega, hS, hD, hslots⟩⟩
  obtain ⟨hinv, hview⟩ := partitioned_spec hnew
  have hempty : ∀ i, (c.view i).id = none ∧ (c.view i).pins = 0 := by
    intro i
    rw [hview]
    exact ⟨rfl, rfl⟩
  have hdiv : E / (2 ^ 32 - 1) = 0 := Nat.div_eq_of_lt hE32
  have hfold : Shape.foldOf ⟨L, 2 ^ 32 - 1, S⟩ E = 0 := by
    rw [Shape.foldOf, hdiv]
    simp
  have hpart : c.partOf E = some 0 := by
    rw [partOf, hinv.parts_length, hinv.ids, hdiv, if_neg (by show L ≠ 1; omega),
      if_neg (by show ¬2 ^ 32 - 1 = 0; decide), Nat.zero_min]
  obtain ⟨part, hget⟩ := hinv.part_exists (p := 0) (by show 0 < L; omega)
  obtain ⟨hbase, hlen⟩ := hinv.range 0 part hget
  -- the call does not panic
  have hsome : c.acquire E ≠ none := by
    rw [Ne, acquire_eq_none_iff hinv hpart hget]
    rintro (⟨slot, s, hmap, -⟩ | ⟨-, hover⟩)
    · have hid := ((hinv.mapped 0 part hget E slot).mp hmap).2
      rw [(hempty slot).1] at hid
      cases hid
    · rw [hbase, hlen] at hover
      have : S < 2 ^ 32 := hS32
      have : 2 ^ 32 ≤ 0 * S + S := hover
      omega
  obtain ⟨⟨r, c'⟩, hacq⟩ := Option.ne_none_iff_exists'.mp hsome
  have hmiss : ∃ slot, slot < S ∧ ∃ evicted, r = .miss slot evicted := by
    rcases (acquire_cases hinv hacq).2 with ⟨slot, -, hid, -⟩ | ⟨slot, hr, howns, -⟩ | ⟨-, -, -, hall⟩
    · rw [(hempty slot).1] at hid
      cases hid
    · rw [hfold] at howns
      have hslot : slot < 0 * S + S := howns.2
      exact ⟨slot, by omega, _, hr⟩
    · have hpos := hall 0 (by
        rw [hfold]
        exact ⟨by simp, by show 0 < 0 * S + S; omega⟩)
      rw [(hempty 0).2] at hpos
      cases hpos
  obtain ⟨slot, hslot, evicted, rfl⟩ := hmiss
  have hfolded : fold 1 0 E = some E := by
    rw [fold, if_pos (by omega), u32Add, if_pos (by omega), Nat.one_mul, Nat.add_zero]
  have hrun : c.runCalls [.acquire E] = some ([.lookup (.miss slot evicted)], c') := by
    simp only [runCalls, call, hacq, Option.map_some, Option.bind_eq_bind, Option.bind_some]
  have hnamed : ∀ op ∈ [CacheCall.acquire E], op.Folded L E := by
    intro op hop
    cases List.mem_singleton.mp hop
    exact ⟨1, 0, by omega, hE, by decide, hfolded⟩
  obtain ⟨d, louts, d', -, -, houts⟩ := (h c [.acquire E] hnew hnamed).1 _ c' hrun 1 (by omega)
  have hseen : CacheCall.seenBy E S 1 (.acquire E) = true := by
    simp [CacheCall.seenBy, CacheCall.layer, Nat.div_self hE]
  rw [outcomesOf_seen hseen] at houts
  -- an answer of the second layer's cache is about slots from `S` on
  cases louts with
  | nil => cases houts
  | cons out louts =>
      rw [List.map_cons, List.cons.injEq] at houts
      cases out with
      | lookup r =>
          cases r with
          | miss slot' evicted' =>
              have hshift := houts.1
              simp only [Outcome.shift, Lookup.shift, Outcome.lookup.injEq, Lookup.miss.injEq] at hshift
              omega
          | hit | stalled => cases houts.1
      | ready | wedged | done => cases houts.1

/-- **The layers of `new`.** Its cache is one cache per layer exactly when there
is one layer, or none of the layers has an expert, or the second layer starts at
the last id of the `u32`. -/
theorem new_by_layer_iff {L S D E : Nat} (hL : 0 < L) (hS : 0 < S) (hD : 0 < D)
    (hslots : (L - 1) * S < 2 ^ 32) (hE : E < 2 ^ 32) :
    NewByLayer L S D E ↔ L = 1 ∨ E = 0 ∨ E = 2 ^ 32 - 1 := by
  constructor
  · intro h
    by_contra hnot
    exact not_newByLayer (by omega) hS hD hslots (by omega) (by omega) h
  · intro h
    refine newByLayer_of_agree fun op hop => ?_
    cases op with
    | acquire id | lookupReady id | isWedged id =>
        obtain ⟨l, e, hl, he, -, hid⟩ := hop
        obtain rfl := fold_eq hid
        rcases h with rfl | rfl | rfl
        · obtain rfl : l = 0 := by omega
          have he' : flatId E (0, e) = e := by simp [flatId]
          refine ⟨⟨0, e, hl, by omega, by simp [flatId]⟩, ?_⟩
          simp only [CacheCall.layer, he', Nat.div_eq_of_lt he,
            Nat.div_eq_of_lt (show e < 2 ^ 32 - 1 by omega)]
        · cases he
        · exact ⟨⟨l, e, hl, he, rfl⟩, rfl⟩
    | publish slot | release slot | decayAll => exact ⟨trivial, rfl⟩

theorem new_by_layer_one : NewByLayer 1 4 64 128 :=
  (new_by_layer_iff (by decide) (by decide) (by decide) (by decide) (by decide)).mpr (.inl rfl)

/-- Two layers of one slot: the second layer's expert evicts the first one's. -/
theorem new_shares_slots :
    ((new 2 1 1000).bind fun c => (c.runCalls [.acquire 5, .release 0, .acquire 133]).map Prod.fst) =
        some [.lookup (.miss 0 none), .done, .lookup (.miss 0 (some 5))] ∧
      fold 0 5 128 = some 5 ∧ fold 1 5 128 = some 133 ∧ ¬NewByLayer 2 1 1000 128 :=
  ⟨by decide, by decide, by decide,
    not_newByLayer (by decide) (by decide) (by decide) (by decide) (by decide) (by decide)⟩

end ExpertCache

end LlmPager
