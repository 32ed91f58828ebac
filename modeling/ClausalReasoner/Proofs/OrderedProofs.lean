/-
This file shows that a proof taken from a derivation is in order. A derivation is ordered when every
step rests on steps before it and premises and goals rest on nothing, and it is well-founded when
nothing else rests on nothing. The walk down from a step lists each step it meets after those that
the step rests on. To move premises and goals to the front keeps that order, because they rest on
nothing themselves. So when the steps are numbered as lines of a proof, every line rests on lines
with smaller numbers, and everything in the proof is there because the last line rests on it.
-/

import ClausalReasoner.Derivation
import ClausalReasoner.Proofs.CollectedKeys

namespace ClausalReasoner

open Relation

/-! ### Ordered and well-founded derivations -/

/-- A rule by which a step is made out of nothing. -/
def Rule.IsGiven (rule : Rule) : Prop :=
  rule = .premise ∨ rule = .goal

instance (rule : Rule) : Decidable rule.IsGiven :=
  inferInstanceAs (Decidable (rule = .premise ∨ rule = .goal))

theorem Rule.rank_eq_two_iff {rule : Rule} : rule.rank = 2 ↔ ¬ rule.IsGiven := by
  cases rule <;> simp [rank, IsGiven]

/-- What a step must be like to come after so many others: it rests on some of them, unless it is a
premise or a goal, which rests on nothing. -/
structure Step.Fits (step : Step) (size : Nat) : Prop where
  earlier : ∀ source ∈ step.sources, source < size
  given : step.sources = [] ↔ step.rule.IsGiven

/-- What is left of it when other steps may rest on nothing too. -/
@[mk_iff]
structure Step.Follows (step : Step) (size : Nat) : Prop where
  earlier : ∀ source ∈ step.sources, source < size
  given : step.rule.IsGiven → step.sources = []

instance (step : Step) (size : Nat) : Decidable (step.Follows size) :=
  decidable_of_iff' _ (step.follows_iff size)

/-- The shape of a good proof. The lines are numbered from one. Each rests on lines with smaller
numbers, and on none if and only if it is a premise or a goal. The last one rests, directly or not,
on every other. -/
structure Proof.WellFounded (p : Proof) : Prop where
  numbered : p.lines.map ProofLine.number = List.range' 1 p.lines.length
  earlier : ∀ line ∈ p.lines, ∀ source ∈ line.sources,
    source < line.number ∧ ∃ other ∈ p.lines, other.number = source
  connected : ∃ last, p.lines.getLast? = some last ∧ ∀ line ∈ p.lines,
    ReflTransGen (fun above below => below ∈ p.lines ∧ below.number ∈ above.sources) last line
  given : ∀ line ∈ p.lines, line.sources = [] ↔ line.rule = .premise ∨ line.rule = .goal

namespace Derivation

/-- Every step rests on steps before it. -/
def WellFounded (d : Derivation) : Prop :=
  ∀ (number : StepNumber) (step : Step), d.steps[number]? = some step → step.Fits number

/-- Every step rests on steps before it, and premises and goals rest on nothing. -/
def Ordered (d : Derivation) : Prop :=
  ∀ (number : StepNumber) (step : Step), d.steps[number]? = some step → step.Follows number

theorem ordered_iff {d : Derivation} :
    d.Ordered ↔ ∀ number (known : number < d.steps.size), d.steps[number].Follows number := by
  refine ⟨fun ordered number known => ordered number _ (Array.getElem?_eq_getElem known),
    fun each number step found => ?_⟩
  obtain ⟨known, rfl⟩ := Array.getElem?_eq_some_iff.1 found
  exact each number known

instance (d : Derivation) : Decidable d.Ordered :=
  decidable_of_iff' _ ordered_iff

/-- A step is one of the sources of another. -/
def RestsOn (d : Derivation) (above below : StepNumber) : Prop :=
  ∃ step, d.steps[above]? = some step ∧ below ∈ step.sources

variable {d : Derivation}

theorem exists_step {number : StepNumber} (known : number < d.size) :
    ∃ step, d.steps[number]? = some step :=
  ⟨_, Array.getElem?_eq_getElem known⟩

namespace WellFounded

theorem empty : WellFounded {} :=
  fun _ _ found => absurd found nofun

/-- A step that fits may be recorded. -/
theorem record (wellFounded : d.WellFounded) {step : Step} (fits : step.Fits d.size) :
    (d.record step).2.WellFounded := by
  intro number other found
  change (d.steps.push step)[number]? = some other at found
  rw [Array.getElem?_push] at found
  split at found
  · next last =>
    obtain rfl := Option.some.inj found
    exact last ▸ fits
  · exact wellFounded number other found

theorem ordered (wellFounded : d.WellFounded) : d.Ordered := by
  intro number step found
  have fits := wellFounded number step found
  exact ⟨fits.earlier, fits.given.2⟩

end WellFounded

namespace Ordered

variable (ordered : d.Ordered)

include ordered

theorem lt_of_restsOn {above below : StepNumber} (rests : d.RestsOn above below) :
    below < above := by
  obtain ⟨step, found, member⟩ := rests
  exact (ordered above step found).earlier below member

theorem lt_of_transGen {above below : StepNumber} (rests : TransGen d.RestsOn above below) :
    below < above := by
  induction rests with
  | single direct => exact ordered.lt_of_restsOn direct
  | tail _ direct inductionHypothesis =>
    exact Nat.lt_trans (ordered.lt_of_restsOn direct) inductionHypothesis

end Ordered

/-! ### The walk over the steps -/

/-- A list of steps, the last one first, in which every step comes after its sources. -/
def Listed (d : Derivation) : List StepNumber → Prop
  | [] => True
  | number :: before => number ∉ before ∧
      (∃ step, d.steps[number]? = some step ∧ ∀ source ∈ step.sources, source ∈ before) ∧
      d.Listed before

/-- Everything that is listed comes after its sources and was met. -/
structure Walk.InOrder (d : Derivation) (walk : Walk) : Prop where
  listed : d.Listed walk.listed
  met : ∀ number ∈ walk.listed, number ∈ walk.met

/-- How a walk goes on: nothing is forgotten or leaves the list, all that is met anew is listed in
the end, and all that is listed anew lies within reach. -/
structure Walk.GoesOn (reach : StepNumber → Prop) (walk later : Walk) : Prop where
  remembers : ∀ number ∈ walk.met, number ∈ later.met
  keeps : ∀ number ∈ walk.listed, number ∈ later.listed
  met : ∀ number ∈ later.met, number ∈ walk.met ∨ number ∈ later.listed
  within : ∀ number ∈ later.listed, number ∈ walk.listed ∨ reach number

namespace Walk.GoesOn

variable {reach wider : StepNumber → Prop} {first second third : Walk}

theorem refl (walk : Walk) : walk.GoesOn reach walk :=
  ⟨fun _ => id, fun _ => id, fun _ => Or.inl, fun _ => Or.inl⟩

theorem trans (left : first.GoesOn reach second) (right : second.GoesOn reach third) :
    first.GoesOn reach third where
  remembers number member := right.remembers number (left.remembers number member)
  keeps number member := right.keeps number (left.keeps number member)
  met number member := (right.met number member).elim
    (fun before => (left.met number before).imp_right (right.keeps number)) Or.inr
  within number member := (right.within number member).elim (left.within number) Or.inr

theorem mono (goesOn : first.GoesOn reach second) (imp : ∀ number, reach number → wider number) :
    first.GoesOn wider second :=
  ⟨goesOn.remembers, goesOn.keeps, goesOn.met, fun number member =>
    (goesOn.within number member).imp_right (imp number)⟩

end Walk.GoesOn

/-- Visiting a step lists it and what it rests on. Steps that are met but not listed yet are those
that the walk is on its way down from, so they have greater numbers. -/
theorem Ordered.visit (ordered : d.Ordered) {depth : Nat} {number : StepNumber}
    (deep : number < depth) (known : number < d.size) {walk : Walk} (inOrder : walk.InOrder d)
    (pending : ∀ other ∈ walk.met, other ≤ number → other ∈ walk.listed) :
    (d.visit depth number walk).InOrder d ∧
      walk.GoesOn (ReflTransGen d.RestsOn number) (d.visit depth number walk) ∧
        number ∈ (d.visit depth number walk).listed := by
  induction depth generalizing number walk with
  | zero => exact absurd deep (Nat.not_lt_zero _)
  | succ depth inductionHypothesis =>
    rw [Derivation.visit]
    split
    · next before =>
      exact ⟨inOrder, .refl walk, pending number (List.contains_iff_mem.1 before) (Nat.le_refl _)⟩
    · next new =>
      obtain ⟨step, found⟩ := exists_step known
      have unmet : number ∉ walk.met := fun member => new (List.contains_iff_mem.2 member)
      let entered : Walk := { walk with met := number :: walk.met }
      -- below the step nothing but what it rests on is listed, hence not the step itself
      obtain ⟨⟨inOrderBelow, above⟩, goesOn, all⟩ := @foldl_reaches Walk StepNumber
        (fun later source => d.visit depth source later) step.sources
        (fun later : Walk => later.InOrder d ∧
          ∀ other ∈ later.met, other < number → other ∈ later.listed)
        (Walk.GoesOn (TransGen d.RestsOn number)) (fun source later => source ∈ later.listed)
        Walk.GoesOn.refl (fun _ _ _ => Walk.GoesOn.trans)
        (fun source _ _ goesOn => goesOn.keeps source)
        (fun later source member kept => by
          have rests : d.RestsOn number source := ⟨step, found, member⟩
          have less := ordered.lt_of_restsOn rests
          obtain ⟨inOrderLater, goesOn, listed⟩ := inductionHypothesis
            (Nat.lt_of_lt_of_le less (Nat.lt_succ_iff.1 deep)) (Nat.lt_trans less known) kept.1
            fun other met le => kept.2 other met (Nat.lt_of_le_of_lt le less)
          refine ⟨⟨inOrderLater, fun other met below => ?_⟩, goesOn.mono fun other reached =>
            TransGen.head' rests reached, listed⟩
          exact (goesOn.met other met).elim
            (fun before => goesOn.keeps other (kept.2 other before below)) id)
        entered ⟨⟨inOrder.listed, fun other listed =>
            List.mem_cons_of_mem _ (inOrder.met other listed)⟩,
          fun other met less => pending other
            ((List.mem_cons.1 met).resolve_left (Nat.ne_of_lt less)) (Nat.le_of_lt less)⟩
      simp only [found]
      generalize step.sources.foldl (fun later source => d.visit depth source later) entered = below
        at inOrderBelow above goesOn all
      have absent : number ∉ below.listed := by
        intro listed
        rcases goesOn.within number listed with before | reached
        · exact unmet (inOrder.met number before)
        · exact Nat.lt_irrefl _ (ordered.lt_of_transGen reached)
      have metBefore : number ∈ below.met := goesOn.remembers number List.mem_cons_self
      refine ⟨⟨⟨absent, ⟨step, found, all⟩, inOrderBelow.listed⟩, ?_⟩, ⟨?_, ?_, ?_, ?_⟩,
        List.mem_cons_self⟩
      · exact List.forall_mem_cons.2 ⟨metBefore, inOrderBelow.met⟩
      · exact fun other met => goesOn.remembers other (List.mem_cons_of_mem _ met)
      · exact fun other listed => List.mem_cons_of_mem _ (goesOn.keeps other listed)
      · intro other met
        rcases goesOn.met other met with before | listed
        · rcases List.mem_cons.1 before with rfl | earlier
          · exact Or.inr List.mem_cons_self
          · exact Or.inl earlier
        · exact Or.inr (List.mem_cons_of_mem _ listed)
      · intro other listed
        rcases List.mem_cons.1 listed with rfl | lower
        · exact Or.inr .refl
        · exact (goesOn.within other lower).imp_right TransGen.to_reflTransGen

/-- In such a list whatever a listed step rests on is listed as well. -/
theorem Listed.closed {numbers : List StepNumber} (listed : d.Listed numbers) :
    ∀ above ∈ numbers, ∀ below, d.RestsOn above below → below ∈ numbers := by
  induction numbers with
  | nil => exact fun _ absent => absurd absent List.not_mem_nil
  | cons first before inductionHypothesis =>
    obtain ⟨_, ⟨step, found, sources⟩, rest⟩ := listed
    intro above member below rests
    rcases List.mem_cons.1 member with rfl | earlier
    · obtain ⟨same, foundToo, source⟩ := rests
      obtain rfl := Option.some.inj (found.symm.trans foundToo)
      exact List.mem_cons_of_mem _ (sources below source)
    · exact List.mem_cons_of_mem _ (inductionHypothesis rest above earlier below rests)

/-- The steps that a step rests on, in order: the step itself is the last one, and the others are
within its reach. -/
theorem Ordered.ancestry (ordered : d.Ordered) {last : StepNumber}
    (known : last < d.size) : ∃ below, (d.ancestry last).reverse = last :: below ∧
      d.Listed (last :: below) ∧
        ∀ number ∈ last :: below, ReflTransGen d.RestsOn last number := by
  have start : Walk.InOrder d {} := ⟨trivial, fun _ absent => absurd absent List.not_mem_nil⟩
  obtain ⟨inOrder, goesOn, _⟩ := ordered.visit (Nat.lt_succ_of_lt known) known start
    fun _ absent => absurd absent List.not_mem_nil
  obtain ⟨step, found⟩ := exists_step known
  have ends : ∃ below, (d.visit (d.size + 1) last {}).listed = last :: below := by
    rw [Derivation.visit, if_neg (by simp), found]
    exact ⟨_, rfl⟩
  obtain ⟨below, same⟩ := ends
  refine ⟨below, ?_, same ▸ inOrder.listed, fun number member => ?_⟩
  · rw [Derivation.ancestry, List.reverse_reverse, same]
  · exact (goesOn.within number (same ▸ member)).resolve_left List.not_mem_nil

/-! ### Premises and goals at the front -/

theorem rankOf_of_found {number : StepNumber} {step : Step} (found : d.steps[number]? = some step) :
    d.rankOf number = step.rule.rank := by
  rw [rankOf, found]

theorem Ordered.sources_of_rank (ordered : d.Ordered) {number : StepNumber}
    (given : d.rankOf number ≠ 2) {step : Step} (found : d.steps[number]? = some step) :
    step.sources = [] := by
  rw [rankOf_of_found found] at given
  exact (ordered number step found).given (not_not.1 (mt Rule.rank_eq_two_iff.2 given))

theorem rankOf_cases (d : Derivation) (number : StepNumber) :
    d.rankOf number = 0 ∨ d.rankOf number = 1 ∨ d.rankOf number = 2 := by
  rw [rankOf]
  split
  · exact Or.inr (Or.inr rfl)
  · next step _ => cases step.rule <;> simp [Rule.rank]

/-- Steps that rest on nothing may be listed in any order. -/
theorem listed_of_given {numbers : List StepNumber} (nodup : numbers.Nodup)
    (given : ∀ number ∈ numbers, ∃ step, d.steps[number]? = some step ∧ step.sources = []) :
    d.Listed numbers := by
  induction numbers with
  | nil => trivial
  | cons first before inductionHypothesis =>
    obtain ⟨⟨step, found, none⟩, rest⟩ := List.forall_mem_cons.1 given
    obtain ⟨absent, distinct⟩ := List.nodup_cons.1 nodup
    refine ⟨absent, ⟨step, found, fun source member => ?_⟩, inductionHypothesis distinct rest⟩
    rw [none] at member
    exact absurd member List.not_mem_nil

theorem Listed.nodup {numbers : List StepNumber} (listed : d.Listed numbers) : numbers.Nodup := by
  induction numbers with
  | nil => exact List.nodup_nil
  | cons first before inductionHypothesis =>
    exact List.nodup_cons.2 ⟨listed.1, inductionHypothesis listed.2.2⟩

theorem Listed.exists_step {numbers : List StepNumber} (listed : d.Listed numbers) :
    ∀ number ∈ numbers, ∃ step, d.steps[number]? = some step := by
  induction numbers with
  | nil => exact fun _ absent => absurd absent List.not_mem_nil
  | cons first before inductionHypothesis =>
    obtain ⟨_, ⟨step, found, _⟩, rest⟩ := listed
    exact List.forall_mem_cons.2 ⟨⟨step, found⟩, inductionHypothesis rest⟩

/-- What is left of an ordered list without the premises and goals is still in order behind them. -/
theorem Listed.filter_append {numbers front : List StepNumber} (listed : d.Listed numbers)
    (ordered : d.Listed front) (given : ∀ number ∈ front, d.rankOf number ≠ 2)
    (moved : ∀ number ∈ numbers, d.rankOf number ≠ 2 → number ∈ front) :
    d.Listed (numbers.filter (d.rankOf · = 2) ++ front) := by
  induction numbers with
  | nil => exact ordered
  | cons first before inductionHypothesis =>
    obtain ⟨absent, ⟨step, found, sources⟩, rest⟩ := listed
    have later := inductionHypothesis rest fun number member =>
      moved number (List.mem_cons_of_mem _ member)
    rw [List.filter_cons]
    split
    · next derived =>
      have derived : d.rankOf first = 2 := of_decide_eq_true derived
      refine ⟨fun member => ?_, ⟨step, found, fun source member => ?_⟩, later⟩
      · rcases List.mem_append.1 member with kept | front
        · exact absent (List.mem_of_mem_filter kept)
        · exact given first front derived
      · by_cases kept : d.rankOf source = 2
        · exact List.mem_append_left _
            (List.mem_filter.2 ⟨sources source member, decide_eq_true kept⟩)
        · exact List.mem_append_right _
            (moved source (List.mem_cons_of_mem _ (sources source member)) kept)
    · exact later

theorem reverse_premisesFirst (d : Derivation) (numbers : List StepNumber) :
    (d.premisesFirst numbers).reverse = numbers.reverse.filter (d.rankOf · = 2) ++
      (numbers.reverse.filter (d.rankOf · = 1) ++ numbers.reverse.filter (d.rankOf · = 0)) := by
  rw [premisesFirst, List.reverse_append, List.reverse_append, List.filter_reverse,
    List.filter_reverse, List.filter_reverse]

theorem mem_premisesFirst {number : StepNumber} {numbers : List StepNumber} :
    number ∈ d.premisesFirst numbers ↔ number ∈ numbers := by
  simp only [premisesFirst, List.mem_append, List.mem_filter, decide_eq_true_eq]
  constructor
  · rintro ((⟨member, _⟩ | ⟨member, _⟩) | ⟨member, _⟩) <;> exact member
  · intro member
    rcases d.rankOf_cases number with rank | rank | rank <;> simp [member, rank]

/-- Moving premises and goals to the front keeps the order. -/
theorem Ordered.listed_premisesFirst (ordered : d.Ordered) {numbers : List StepNumber}
    (listed : d.Listed numbers.reverse) : d.Listed (d.premisesFirst numbers).reverse := by
  have steps := listed.exists_step
  have nodup := listed.nodup
  rw [reverse_premisesFirst]
  generalize numbers.reverse = listing at listed steps nodup ⊢
  have given : ∀ number ∈ listing.filter (d.rankOf · = 1) ++ listing.filter (d.rankOf · = 0),
      number ∈ listing ∧ d.rankOf number ≠ 2 := by
    intro number member
    simp only [List.mem_append, List.mem_filter, decide_eq_true_eq] at member
    rcases member with ⟨inside, rank⟩ | ⟨inside, rank⟩ <;> exact ⟨inside, by rw [rank]; decide⟩
  refine listed.filter_append (listed_of_given ?_ fun number member => ?_)
    (fun number member => (given number member).2) fun number member rank => ?_
  · refine List.nodup_append.2 ⟨nodup.filter _, nodup.filter _, fun first goal second premise => ?_⟩
    rintro rfl
    simp only [List.mem_filter, decide_eq_true_eq] at goal premise
    exact absurd (goal.2.symm.trans premise.2) Nat.one_ne_zero
  · obtain ⟨inside, rank⟩ := given number member
    obtain ⟨step, found⟩ := steps number inside
    exact ⟨step, found, ordered.sources_of_rank rank found⟩
  · simp only [List.mem_append, List.mem_filter, decide_eq_true_eq]
    rcases d.rankOf_cases number with zero | one | two
    · exact Or.inr ⟨member, zero⟩
    · exact Or.inl ⟨member, one⟩
    · exact absurd two rank

/-- The last step stays the last one, for if it is a premise or a goal it is the only one. -/
theorem Ordered.premisesFirst_ancestry (ordered : d.Ordered) {last : StepNumber}
    (known : last < d.size) :
    ∃ below, (d.premisesFirst (d.ancestry last)).reverse = last :: below := by
  obtain ⟨below, same, listed, reached⟩ := ordered.ancestry known
  rw [reverse_premisesFirst, same]
  by_cases derived : d.rankOf last = 2
  · rw [List.filter_cons, if_pos (decide_eq_true derived)]
    exact ⟨_, rfl⟩
  · obtain ⟨step, found⟩ := exists_step known
    have alone : below = [] := by
      refine List.eq_nil_iff_forall_not_mem.2 fun number member => ?_
      rcases ReflTransGen.cases_head (reached number (List.mem_cons_of_mem _ member)) with
        rfl | ⟨source, ⟨sameStep, foundToo, rests⟩, _⟩
      · exact listed.1 member
      · obtain rfl := Option.some.inj (found.symm.trans foundToo)
        rw [ordered.sources_of_rank derived found] at rests
        exact absurd rests List.not_mem_nil
    subst alone
    rcases d.rankOf_cases last with rank | rank | rank
    · exact ⟨[], by simp [rank]⟩
    · exact ⟨[], by simp [rank]⟩
    · exact absurd rank derived

/-! ### Lines -/

/-- The line for a step at a place of a list. -/
def lineAt (numbers : List StepNumber) (place : Nat) (step : Step) : ProofLine :=
  { number := place + 1, rule := step.rule, conclusion := step.conclusion, detail := step.detail
    sources := step.sources.filterMap fun source => (numbers.idxOf? source).map (· + 1) }

theorem mem_linesOf {numbers : List StepNumber} {line : ProofLine} :
    line ∈ d.linesOf numbers ↔ ∃ place number step, numbers[place]? = some number ∧
      d.steps[number]? = some step ∧ line = lineAt numbers place step := by
  rw [linesOf, List.mem_filterMap]
  constructor
  · rintro ⟨⟨number, place⟩, member, made⟩
    obtain ⟨step, found, rfl⟩ := Option.map_eq_some_iff.1 made
    exact ⟨place, number, step, List.mem_zipIdx_iff_getElem?.1 member, found, rfl⟩
  · rintro ⟨place, number, step, here, found, rfl⟩
    exact ⟨(number, place), List.mem_zipIdx_iff_getElem?.2 here,
      Option.map_eq_some_iff.2 ⟨step, found, rfl⟩⟩

theorem Listed.sources_behind {later before : List StepNumber} {number : StepNumber} {step : Step}
    (listed : d.Listed (later ++ number :: before)) (found : d.steps[number]? = some step) :
    ∀ source ∈ step.sources, source ∈ before := by
  induction later with
  | nil =>
    obtain ⟨_, ⟨same, foundToo, sources⟩, _⟩ := listed
    rwa [Option.some.inj (found.symm.trans foundToo)]
  | cons _ _ inductionHypothesis => exact inductionHypothesis listed.2.2

/-- In an ordered list the sources of a step are found at smaller places. -/
theorem Listed.idxOf?_source {numbers : List StepNumber} (listed : d.Listed numbers.reverse)
    {place : Nat} {number : StepNumber} (here : numbers[place]? = some number) {step : Step}
    (found : d.steps[number]? = some step) {source : StepNumber} (member : source ∈ step.sources) :
    ∃ earlier < place, numbers.idxOf? source = some earlier ∧ numbers[earlier]? = some source := by
  obtain ⟨inside, isNumber⟩ := List.getElem?_eq_some_iff.1 here
  have split : numbers = numbers.take place ++ number :: numbers.drop (place + 1) := by
    rw [← isNumber, List.getElem_cons_drop, List.take_append_drop]
  have taken : source ∈ numbers.take place := by
    rw [split, List.reverse_append, List.reverse_cons, List.append_assoc,
      List.singleton_append] at listed
    exact List.mem_reverse.1 (listed.sources_behind found source member)
  have listedToo : source ∈ numbers := List.mem_of_mem_take taken
  obtain ⟨earlier, first⟩ := Option.isSome_iff_exists.1 (List.isSome_idxOf?.2 listedToo)
  have place_eq : numbers.idxOf source = earlier := by
    rw [List.idxOf_eq_getD_idxOf?, first, Option.getD_some]
  obtain ⟨bound, isSource, _⟩ := List.idxOf?_eq_some_iff.1 first
  exact ⟨earlier, place_eq ▸ (List.mem_take_iff_idxOf_lt listedToo).1 taken, first,
    List.getElem?_eq_some_iff.2 ⟨bound, isSource⟩⟩

variable {numbers : List StepNumber}

/-- Every step of an ordered list becomes a line. -/
theorem Listed.linesOf_eq_map (listed : d.Listed numbers.reverse) :
    d.linesOf numbers = numbers.zipIdx.map fun (number, place) =>
      lineAt numbers place (d.steps[number]?.getD default) := by
  rw [linesOf, ← List.filterMap_eq_map]
  refine List.filterMap_congr fun entry member => ?_
  have inside := List.mem_of_getElem? (List.mem_zipIdx_iff_getElem?.1 member)
  obtain ⟨step, found⟩ := listed.exists_step entry.1 (List.mem_reverse.2 inside)
  simp only [found, Function.comp_apply, Option.getD_some]
  rfl

theorem Listed.number_linesOf (listed : d.Listed numbers.reverse) :
    (d.linesOf numbers).map ProofLine.number = List.range' 1 numbers.length := by
  calc (d.linesOf numbers).map ProofLine.number
      = (numbers.zipIdx.map Prod.snd).map (· + 1) := by
        rw [listed.linesOf_eq_map, List.map_map, List.map_map]
        rfl
    _ = List.range' 1 numbers.length := by
        rw [List.zipIdx_map_snd, List.map_congr_left fun place _ => Nat.add_comm place 1,
          List.map_add_range']

theorem Listed.sources_lineAt (listed : d.Listed numbers.reverse) {place : Nat}
    {number : StepNumber} (here : numbers[place]? = some number) {step : Step}
    (found : d.steps[number]? = some step) :
    (lineAt numbers place step).sources = [] ↔ step.sources = [] := by
  constructor
  · intro none
    refine List.eq_nil_iff_forall_not_mem.2 fun source member => ?_
    obtain ⟨earlier, _, first, _⟩ := listed.idxOf?_source here found member
    have absent := List.filterMap_eq_nil_iff.1 none source member
    rw [first] at absent
    exact absurd absent nofun
  · intro none
    rw [lineAt, none]
    rfl

/-- A step that another rests on has a line, and the line of the other says so. -/
theorem Listed.exists_line (listed : d.Listed numbers.reverse) {place : Nat} {number : StepNumber}
    (here : numbers[place]? = some number) {step : Step} (found : d.steps[number]? = some step)
    {source : StepNumber} (member : source ∈ step.sources) : ∃ earlier < place, ∃ below,
      numbers[earlier]? = some source ∧ d.steps[source]? = some below ∧
        earlier + 1 ∈ (lineAt numbers place step).sources := by
  obtain ⟨earlier, less, first, there⟩ := listed.idxOf?_source here found member
  obtain ⟨below, foundBelow⟩ := listed.exists_step source
    (List.mem_reverse.2 (List.mem_of_getElem? there))
  exact ⟨earlier, less, below, there, foundBelow,
    List.mem_filterMap.2 ⟨source, member, by rw [first]; rfl⟩⟩

theorem Listed.place_inj (listed : d.Listed numbers.reverse) {first second : Nat}
    {number : StepNumber} (here : numbers[first]? = some number)
    (there : numbers[second]? = some number) : first = second :=
  (List.getElem?_inj (List.getElem?_eq_some_iff.1 here).1 (List.nodup_reverse.1 listed.nodup)).1
    (here.trans there.symm)

theorem getLast?_linesOf {before : List StepNumber} {last : StepNumber} {step : Step}
    (found : d.steps[last]? = some step) : (d.linesOf (before ++ [last])).getLast? =
      some (lineAt (before ++ [last]) before.length step) := by
  simp [linesOf, lineAt, List.zipIdx_append, found]

/-- The way from a step down to one that it rests on is followed by the lines of the steps. -/
theorem Listed.exists_way (listed : d.Listed numbers.reverse) {lastPlace : Nat} {last : StepNumber}
    {lastStep : Step} (atEnd : numbers[lastPlace]? = some last)
    (foundLast : d.steps[last]? = some lastStep) {number : StepNumber}
    (reached : ReflTransGen d.RestsOn last number) : ∃ place step,
      numbers[place]? = some number ∧ d.steps[number]? = some step ∧ ReflTransGen
        (fun above below => below ∈ d.linesOf numbers ∧ below.number ∈ above.sources)
        (lineAt numbers lastPlace lastStep) (lineAt numbers place step) := by
  induction reached with
  | refl => exact ⟨lastPlace, lastStep, atEnd, foundLast, .refl⟩
  | tail _ rests inductionHypothesis =>
    obtain ⟨place, step, here, found, way⟩ := inductionHypothesis
    obtain ⟨same, foundToo, member⟩ := rests
    obtain rfl := Option.some.inj (found.symm.trans foundToo)
    obtain ⟨earlier, _, below, there, foundBelow, source⟩ := listed.exists_line here found member
    exact ⟨earlier, below, there, foundBelow,
      way.tail ⟨mem_linesOf.2 ⟨earlier, _, below, there, foundBelow, rfl⟩, source⟩⟩

/-- The lines of an ordered list whose steps are all within reach of the last one are in order. -/
theorem WellFounded.lines (wellFounded : d.WellFounded) (listed : d.Listed numbers.reverse)
    {last : StepNumber} {below : List StepNumber} (ends : numbers.reverse = last :: below)
    (reached : ∀ number ∈ numbers, ReflTransGen d.RestsOn last number) (bindings : Substitution) :
    Proof.WellFounded ⟨d.linesOf numbers, bindings⟩ where
  numbered := by
    have numbered := listed.number_linesOf
    have length := congrArg List.length numbered
    rw [List.length_map, List.length_range'] at length
    rw [numbered, length]
  earlier := by
    intro line member source rests
    obtain ⟨place, number, step, here, found, rfl⟩ := mem_linesOf.1 member
    obtain ⟨below, inside, isPlace⟩ := List.mem_filterMap.1 rests
    obtain ⟨earlier, less, first, there⟩ := listed.idxOf?_source here found inside
    obtain ⟨other, foundOther⟩ := listed.exists_step below
      (List.mem_reverse.2 (List.mem_of_getElem? there))
    rw [first] at isPlace
    obtain rfl := Option.some.inj isPlace
    exact ⟨Nat.succ_lt_succ less, _,
      mem_linesOf.2 ⟨earlier, below, other, there, foundOther, rfl⟩, rfl⟩
  connected := by
    have split : numbers = below.reverse ++ [last] := by
      rw [← List.reverse_reverse numbers, ends, List.reverse_cons]
    have atEnd : numbers[below.length]? = some last := by
      rw [split, ← List.length_reverse, List.getElem?_concat_length]
    obtain ⟨lastStep, foundLast⟩ := listed.exists_step last (ends ▸ List.mem_cons_self)
    refine ⟨lineAt numbers below.length lastStep, ?_, fun line member => ?_⟩
    · rw [split, ← List.length_reverse]
      exact getLast?_linesOf foundLast
    · obtain ⟨place, number, step, here, found, rfl⟩ := mem_linesOf.1 member
      obtain ⟨samePlace, sameStep, there, foundToo, way⟩ := listed.exists_way atEnd foundLast
        (reached number (List.mem_of_getElem? here))
      obtain rfl := listed.place_inj here there
      obtain rfl := Option.some.inj (found.symm.trans foundToo)
      exact way
  given := by
    intro line member
    obtain ⟨place, number, step, here, found, rfl⟩ := mem_linesOf.1 member
    rw [listed.sources_lineAt here found]
    exact (wellFounded number step found).given

/-- A proof taken from a well-founded derivation is well-founded. -/
theorem WellFounded.proof (wellFounded : d.WellFounded) {last : StepNumber}
    (known : last < d.size) (bindings : Substitution) : (d.proof last bindings).WellFounded := by
  have ordered := wellFounded.ordered
  obtain ⟨below, same, listed, reached⟩ := ordered.ancestry known
  obtain ⟨others, ends⟩ := ordered.premisesFirst_ancestry known
  refine wellFounded.lines (ordered.listed_premisesFirst (same ▸ listed)) ends
    (fun number member => ?_) bindings
  exact reached number (same ▸ List.mem_reverse.2 (mem_premisesFirst.1 member))

end Derivation

end ClausalReasoner
