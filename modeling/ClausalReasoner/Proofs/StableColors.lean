/-
This file shows that refining colors ends with a stable coloring. The signature of a variable holds
its color, so a round never puts variables together that were told apart, and it makes at least as
many classes as there were. A round that makes more of them can be followed by fewer rounds of this
kind than before, because there are no more classes than variables. A round that makes as many classes
as there were has only renamed them: then there are as many signatures as colors, and variables with
the same color have the same signature.

A signature lists the places of a variable in sorted order, hence equal signatures are the same places
in any order. The color need not be compared, since every place tells the color of its variable.
-/

import ClausalReasoner.CanonicalKey.Unbounded
import ClausalReasoner.Proofs.KeyInvariance
import Mathlib

namespace ClausalReasoner

namespace Coloring

variable {colors : Coloring} {literals : List ShapedLiteral} {vs : List Variable} {v w : Variable}

/-! ### Counting the classes of a round -/

/-- The number of colors that variables have. -/
def colorCount (colors : Coloring) (vs : List Variable) : Nat :=
  (vs.toFinset.image colors.color).card

theorem length_kinds (colors : Coloring) (literals : List ShapedLiteral) (vs : List Variable) :
    (colors.kinds literals vs).length = (vs.toFinset.image (colors.signature literals)).card := by
  have distinct : (colors.kinds literals vs).Nodup := nodup_firstOccurrences _
  rw [← List.toFinset_card_of_nodup distinct]
  congr 1
  ext signature
  rw [List.mem_toFinset, kinds, mem_firstOccurrences, (perm_sortedBy _).mem_iff, List.mem_map,
    Finset.mem_image]
  simp only [List.mem_toFinset]

/-- The color can be read off the signature. -/
theorem image_color_eq (colors : Coloring) (literals : List ShapedLiteral) (vs : List Variable) :
    vs.toFinset.image colors.color =
      (vs.toFinset.image (colors.signature literals)).image VariableSignature.color := by
  rw [Finset.image_image]
  rfl

/-- A round makes at least as many classes as there were. -/
theorem colorCount_le_length_kinds : colors.colorCount vs ≤ (colors.kinds literals vs).length := by
  rw [length_kinds, colorCount, colors.image_color_eq literals]
  exact Finset.card_image_le

theorem colorCount_le_length (colors : Coloring) (vs : List Variable) :
    colors.colorCount vs ≤ vs.length :=
  Finset.card_image_le.trans (List.toFinset_card_le vs)

/-- When a round makes as many classes as there were, no class has been divided. -/
theorem signature_eq_of_color_eq
    (same : (colors.kinds literals vs).length = colors.colorCount vs) (here : v ∈ vs)
    (there : w ∈ vs) (equal : colors.color v = colors.color w) :
    colors.signature literals v = colors.signature literals w := by
  rw [length_kinds, colorCount, colors.image_color_eq literals] at same
  have injective := Finset.injOn_of_card_image_eq same.symm
  have signed : ∀ {u}, u ∈ vs →
      colors.signature literals u ∈ vs.toFinset.image (colors.signature literals) :=
    fun member => Finset.mem_image_of_mem _ (List.mem_toFinset.2 member)
  exact injective (signed here) (signed there) equal

/-- The new colors are as many as the classes. -/
theorem colorCount_recolored :
    (colors.recolored literals vs).colorCount vs = (colors.kinds literals vs).length := by
  have numbered : vs.toFinset.image (colors.recolored literals vs).color =
      (vs.toFinset.image (colors.signature literals)).image (colors.kinds literals vs).idxOf := by
    rw [Finset.image_image]
    exact Finset.image_congr fun v member => color_map _ (List.mem_toFinset.1 member)
  have listed : ∀ signature ∈ vs.toFinset.image (colors.signature literals),
      signature ∈ colors.kinds literals vs := by
    intro signature member
    obtain ⟨v, inside, rfl⟩ := Finset.mem_image.1 member
    refine mem_firstOccurrences.2 ((perm_sortedBy _).mem_iff.2 (List.mem_map_of_mem ?_))
    exact List.mem_toFinset.1 inside
  rw [colorCount, numbered, length_kinds]
  exact Finset.card_image_of_injOn fun first here second there equal =>
    (List.idxOf_inj (listed first here)).1 equal

/-- At the start there is one class, if there are variables at all. -/
theorem colorCount_start (vs : List Variable) :
    colorCount (vs.map fun v => (v, 0)) vs = min 1 vs.length := by
  have zeros : vs.toFinset.image (color (vs.map fun v => (v, 0))) =
      vs.toFinset.image fun _ => 0 :=
    Finset.image_congr fun v member => color_map _ (List.mem_toFinset.1 member)
  rw [colorCount, zeros]
  cases vs with
  | nil => rfl
  | cons first rest =>
    have some : (first :: rest).toFinset.Nonempty := ⟨first, by simp⟩
    rw [Finset.image_const some, Finset.card_singleton, List.length_cons]
    omega

/-! ### The loop -/

theorem refineWithin_succ (literals : List ShapedLiteral) (vs : List Variable)
    (rounds classes : Nat) (colors : Coloring) :
    refineWithin literals vs (rounds + 1) classes colors =
      if (colors.kinds literals vs).length = classes then colors
      else refineWithin literals vs rounds (colors.kinds literals vs).length
        (colors.recolored literals vs) := by
  rw [refineWithin, recolored, kinds]
  simp only [List.map_map]
  rfl

/-- The loop ends when it may take more rounds than classes can still be added. -/
theorem refineToRest_eq {rounds classes : Nat} (counted : colors.colorCount vs = classes)
    (enough : vs.length < classes + rounds) :
    refineToRest literals vs rounds classes colors =
      some (refineWithin literals vs rounds classes colors) := by
  induction rounds generalizing classes colors with
  | zero =>
    exact absurd (counted ▸ colors.colorCount_le_length vs) (Nat.not_le.2 enough)
  | succ rounds inductionHypothesis =>
    have more : colors.colorCount vs ≤ (colors.kinds literals vs).length :=
      colorCount_le_length_kinds
    rw [refineToRest, refineWithin_succ]
    split
    · rfl
    · exact inductionHypothesis colorCount_recolored (by omega)

/-- What the loop comes to is stable. -/
theorem stable_of_refineToRest {rounds classes : Nat} {stable : Coloring}
    (counted : colors.colorCount vs = classes)
    (ended : refineToRest literals vs rounds classes colors = some stable) :
    (stable.kinds literals vs).length = stable.colorCount vs := by
  induction rounds generalizing classes colors with
  | zero => exact absurd ended nofun
  | succ rounds inductionHypothesis =>
    rw [refineToRest] at ended
    split at ended
    · next same => exact Option.some.inj ended ▸ same.trans counted.symm
    · exact inductionHypothesis colorCount_recolored ended

/-! ### Places and signatures -/

section Places

variable {ls : List Literal}

/-- A variable has a place wherever it stands in a literal. -/
theorem mem_places_iff {p : OccurrencePlace} :
    p ∈ colors.places (ls.map ShapedLiteral.ofLiteral) v ↔
      ∃ l ∈ ls, ∃ position, l.occurrences[position]? = some v ∧
        p = ⟨l.shape, l.occurrences.map colors.color, position⟩ := by
  rw [places_eq, List.mem_flatMap]
  refine exists_congr fun l => and_congr_right fun _ => ?_
  rw [placesIn, List.mem_filterMap]
  constructor
  · rintro ⟨⟨u, position⟩, listed, found⟩
    rw [List.mem_zipIdx_iff_getElem?] at listed
    dsimp only at found
    split at found
    · next same => exact ⟨position, same ▸ listed, (Option.some.inj found).symm⟩
    · cases found
  · rintro ⟨position, stands, rfl⟩
    exact ⟨(v, position), List.mem_zipIdx_iff_getElem?.2 stands, if_pos rfl⟩

/-- A place tells the color of its variable. -/
theorem getElem?_colors_of_mem_places {p : OccurrencePlace}
    (member : p ∈ colors.places (ls.map ShapedLiteral.ofLiteral) v) :
    p.colors[p.position]? = some (colors.color v) := by
  obtain ⟨l, _, position, stands, rfl⟩ := mem_places_iff.1 member
  rw [List.getElem?_map, stands]
  rfl

/-- Variables of the literals that have the same places have the same color. -/
theorem color_eq_of_perm_places (occurs : v ∈ Literal.occurrencesList ls)
    (same : (colors.places (ls.map ShapedLiteral.ofLiteral) v).Perm
      (colors.places (ls.map ShapedLiteral.ofLiteral) w)) :
    colors.color v = colors.color w := by
  obtain ⟨l, member, inside⟩ := List.mem_flatMap.1 occurs
  obtain ⟨position, stands⟩ := List.mem_iff_getElem?.1 inside
  have place : ⟨l.shape, l.occurrences.map colors.color, position⟩ ∈
      colors.places (ls.map ShapedLiteral.ofLiteral) v :=
    mem_places_iff.2 ⟨l, member, position, stands, rfl⟩
  have here := getElem?_colors_of_mem_places place
  exact Option.some.inj (here.symm.trans (getElem?_colors_of_mem_places (same.mem_iff.1 place)))

/-- Variables have the same signature just in case they have the same places, in any order. -/
theorem signature_eq_iff (occurs : v ∈ Literal.occurrencesList ls) :
    colors.signature (ls.map ShapedLiteral.ofLiteral) v =
        colors.signature (ls.map ShapedLiteral.ofLiteral) w ↔
      (colors.places (ls.map ShapedLiteral.ofLiteral) v).Perm
        (colors.places (ls.map ShapedLiteral.ofLiteral) w) := by
  constructor
  · intro equal
    have sorted := congrArg VariableSignature.places equal
    exact (perm_sortedBy _).symm.trans ((List.Perm.of_eq sorted).trans (perm_sortedBy _))
  · intro same
    rw [signature, signature, color_eq_of_perm_places occurs same, sortedBy_eq_of_perm same
      fun p here q there => OccurrencePlace.eq_of_order (isInLiteral_of_mem_places here)
        (isInLiteral_of_mem_places there)]

end Places

/-! ### Stable colors -/

/-- **Refining colors ends with a stable coloring.** For all literals the loop ends within one round
more than there are variables, and comes to the refined coloring. Under it two variables of the
literals have the same color just in case they have the same signature, which means that they stand at
the same places: equally often at the same position of literals with the same shape and the same colors
of variables. -/
theorem refinement_stable (ls : List Literal) :
    let literals := ls.map ShapedLiteral.ofLiteral
    let colors := refined literals
    refinedToRest literals ((Literal.varsList ls).length + 1) = some colors ∧
    ∀ v ∈ Literal.varsList ls, ∀ w ∈ Literal.varsList ls,
      (colors.color v = colors.color w ↔
        colors.signature literals v = colors.signature literals w) ∧
      (colors.signature literals v = colors.signature literals w ↔
        (colors.places literals v).Perm (colors.places literals w)) := by
  intro literals colors
  have occurrences : literals.flatMap (·.occurrences) = Literal.occurrencesList ls :=
    List.flatMap_map ..
  have ended : refinedToRest literals ((Literal.varsList ls).length + 1) = some colors := by
    show _ = some (refined literals)
    rw [refinedToRest, refined, occurrences]
    refine refineToRest_eq (colorCount_start _) ?_
    rw [Literal.varsList]
    omega
  refine ⟨ended, fun v here w there => ⟨⟨fun equal => ?_, congrArg VariableSignature.color⟩,
    signature_eq_iff (mem_firstOccurrences.1 here)⟩⟩
  rw [refinedToRest, occurrences] at ended
  exact signature_eq_of_color_eq (stable_of_refineToRest (colorCount_start _) ended) here there equal

/-- `Near(x, y)`, `Near(y, x)` and `Near(z, u)`. -/
def neighbors : List Literal :=
  [.positive (.predicate "Near" [.var ⟨"x", none⟩, .var ⟨"y", none⟩]),
    .positive (.predicate "Near" [.var ⟨"y", none⟩, .var ⟨"x", none⟩]),
    .positive (.predicate "Near" [.var ⟨"z", none⟩, .var ⟨"u", none⟩])]

/-- The colors of the variables of `neighbors`. -/
def neighborColors : Coloring :=
  [(⟨"x", none⟩, 1), (⟨"y", none⟩, 1), (⟨"z", none⟩, 0), (⟨"u", none⟩, 2)]

theorem refined_neighbors : refined (neighbors.map ShapedLiteral.ofLiteral) = neighborColors := by
  cbv

/-- The variables that are near each other are told from the other two but not from one another, and
they stand at the same places. -/
theorem refinement_stable_neighbors :
    refinedToRest (neighbors.map ShapedLiteral.ofLiteral) 5 = some neighborColors ∧
      ⟨"x", none⟩ ∈ Literal.varsList neighbors ∧ ⟨"y", none⟩ ∈ Literal.varsList neighbors ∧
      (neighborColors.places (neighbors.map ShapedLiteral.ofLiteral) ⟨"x", none⟩).Perm
        (neighborColors.places (neighbors.map ShapedLiteral.ofLiteral) ⟨"y", none⟩) := by
  have first : ⟨"x", none⟩ ∈ Literal.varsList neighbors := by decide
  have second : ⟨"y", none⟩ ∈ Literal.varsList neighbors := by decide
  have stable := refinement_stable neighbors
  simp only [refined_neighbors] at stable
  obtain ⟨ended, alike⟩ := stable
  obtain ⟨colored, placed⟩ := alike _ first _ second
  exact ⟨ended, first, second, placed.1 (colored.1 (by decide))⟩

end Coloring

end ClausalReasoner
