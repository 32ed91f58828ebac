/-
This file says what a proof lists and in which order. The walk with a stack does what the recursive
walk does, since working off the task to enter a step comes to visiting the step, and the tasks for
steps that were met before do nothing. So in an ordered derivation the lines of a proof are a
topological order of the steps that the last one rests on: each of them has one line, premises come
first and goals next, and the lines that a line refers to are those of the sources of its step and
stand before it.
-/

import ClausalReasoner.Proofs.OrderedProofs
import ClausalReasoner.StackedWalk

namespace ClausalReasoner

open Relation

/-- A line shows the step at a place of a list: it has the number of that place, counted from one,
all that the step says, and for each source of the step the number of an earlier line, which is that
of the source. -/
structure ProofLine.Shows (line : ProofLine) (numbers : List StepNumber) (place : Nat)
    (step : Step) : Prop where
  number : line.number = place + 1
  rule : line.rule = step.rule
  conclusion : line.conclusion = step.conclusion
  detail : line.detail = step.detail
  sources : List.Forall₂ (fun source shown => ∃ earlier < place,
    numbers[earlier]? = some source ∧ shown = earlier + 1) step.sources line.sources

namespace Derivation

variable {d : Derivation}

/-! ### The walk with a stack -/

theorem visit_of_met {depth : Nat} {number : StepNumber} {walk : Walk} (met : number ∈ walk.met) :
    d.visit depth number walk = walk := by
  cases depth with
  | zero => rfl
  | succ depth => rw [visit, if_pos (List.contains_iff_mem.2 met)]

/-- A walk forgets nothing that it met. -/
theorem met_subset_visit (d : Derivation) (depth : Nat) (number : StepNumber) (walk : Walk) :
    walk.met ⊆ (d.visit depth number walk).met := by
  induction depth generalizing number walk with
  | zero => exact fun _ => id
  | succ depth inductionHypothesis =>
    rw [visit]
    split
    · exact fun _ => id
    · cases d.steps[number]? with
      | none => exact List.subset_cons_self _ _
      | some step =>
        exact foldl_invariant (fun later : Walk => walk.met ⊆ later.met)
          (fun later source _ kept => List.Subset.trans kept (inductionHypothesis source later))
          (List.subset_cons_self _ _)

/-- Steps are entered from a stack as they are visited one after the other, even if those that were
met before are left off the stack. -/
theorem workOff_append {depth : Nat} {rest : List Task} {sources known : List StepNumber}
    (each : ∀ source ∈ sources, ∀ rest walk,
      d.workOff (.enter source :: rest) walk = d.workOff rest (d.visit depth source walk))
    {walk : Walk} (met : known ⊆ walk.met) :
    d.workOff ((sources.filter fun source => !known.contains source).map .enter ++ rest) walk =
      d.workOff rest (sources.foldl (fun later source => d.visit depth source later) walk) := by
  induction sources generalizing walk with
  | nil => rfl
  | cons first others inductionHypothesis =>
    have later := fun source member => each source (List.mem_cons_of_mem _ member)
    rw [List.foldl_cons]
    by_cases before : first ∈ known
    · rw [List.filter_cons_of_neg (by simpa using before), visit_of_met (met before)]
      exact inductionHypothesis later met
    · rw [List.filter_cons_of_pos (by simpa using before), List.map_cons, List.cons_append,
        each first List.mem_cons_self]
      exact inductionHypothesis later (List.Subset.trans met (met_subset_visit d depth first walk))

/-- The task to enter a step comes to visiting it. In an ordered derivation the sources of a step
have smaller numbers, so what lies above the step on the stack is worked off at smaller depths. -/
theorem Ordered.workOff_enter (ordered : d.Ordered) {depth : Nat} {number : StepNumber}
    (deep : number < depth) (rest : List Task) (walk : Walk) :
    d.workOff (.enter number :: rest) walk = d.workOff rest (d.visit depth number walk) := by
  induction depth generalizing number rest walk with
  | zero => exact absurd deep (Nat.not_lt_zero _)
  | succ depth inductionHypothesis =>
    rw [workOff, Derivation.visit]
    split
    · rfl
    · cases found : d.steps[number]? with
      | none => rfl
      | some step =>
        have each : ∀ source ∈ step.sources, ∀ rest walk,
            d.workOff (.enter source :: rest) walk =
              d.workOff rest (d.visit depth source walk) := by
          intro source member
          have less : source < number := (ordered number step found).earlier source member
          exact inductionHypothesis (Nat.lt_of_lt_of_le less (Nat.le_of_lt_succ deep))
        refine (workOff_append each (List.Subset.refl _)).trans ?_
        rw [workOff]

/-- Both walks list the same steps in the same order. -/
theorem Ordered.ancestryOnStack_eq (ordered : d.Ordered) {last : StepNumber}
    (known : last < d.size) : d.ancestryOnStack last = d.ancestry last := by
  rw [ancestryOnStack, ordered.workOff_enter (Nat.lt_succ_of_lt known), workOff,
    Derivation.ancestry]

/-! ### The order of the steps -/

/-- Some steps are all that a step rests on and the step itself, each once, premises first and goals
before all others, and each of them behind its sources. -/
structure Arranges (d : Derivation) (last : StepNumber) (numbers : List StepNumber) : Prop where
  distinct : numbers.Nodup
  mem_iff : ∀ number, number ∈ numbers ↔ ReflTransGen d.RestsOn last number
  grouped : numbers.Pairwise fun first second => d.rankOf first ≤ d.rankOf second
  earlier : ∀ before number after, numbers = before ++ number :: after →
    ∀ source, d.RestsOn number source → source ∈ before
  ends : numbers.getLast? = some last

theorem pairwise_premisesFirst (d : Derivation) (numbers : List StepNumber) :
    (d.premisesFirst numbers).Pairwise fun first second => d.rankOf first ≤ d.rankOf second := by
  have alike : ∀ rank, (numbers.filter (d.rankOf · = rank)).Pairwise
      fun first second => d.rankOf first ≤ d.rankOf second := by
    intro rank
    refine List.pairwise_of_forall_mem_list fun first here second there => ?_
    rw [of_decide_eq_true (List.mem_filter.1 here).2, of_decide_eq_true (List.mem_filter.1 there).2]
  refine List.pairwise_append.2 ⟨List.pairwise_append.2 ⟨alike 0, alike 1, ?_⟩, alike 2, ?_⟩
  · intro first here second there
    rw [of_decide_eq_true (List.mem_filter.1 here).2]
    exact Nat.zero_le _
  · intro first here second there
    rw [of_decide_eq_true (List.mem_filter.1 there).2]
    rcases d.rankOf_cases first with rank | rank | rank <;> rw [rank] <;> decide

/-- A list in which steps come after their sources, and which lies within reach of one of its steps,
is everything that this step rests on. -/
theorem Listed.mem_iff {numbers : List StepNumber} (listed : d.Listed numbers) {last : StepNumber}
    (member : last ∈ numbers) (reached : ∀ number ∈ numbers, ReflTransGen d.RestsOn last number)
    {number : StepNumber} : number ∈ numbers ↔ ReflTransGen d.RestsOn last number := by
  refine ⟨reached number, fun way => ?_⟩
  induction way with
  | refl => exact member
  | tail _ rests inductionHypothesis => exact listed.closed _ inductionHypothesis _ rests

theorem Ordered.arranges (ordered : d.Ordered) {last : StepNumber} (known : last < d.size) :
    d.Arranges last (d.premisesFirst (d.ancestry last)) ∧
      d.Listed (d.premisesFirst (d.ancestry last)).reverse := by
  obtain ⟨below, same, listed, reached⟩ := ordered.ancestry known
  obtain ⟨others, ends⟩ := ordered.premisesFirst_ancestry known
  have moved := ordered.listed_premisesFirst (same ▸ listed)
  have members : ∀ number, number ∈ d.premisesFirst (d.ancestry last) ↔ number ∈ last :: below := by
    intro number
    rw [mem_premisesFirst, ← same, List.mem_reverse]
  refine ⟨⟨List.nodup_reverse.1 moved.nodup, fun number => (members number).trans
    (listed.mem_iff List.mem_cons_self reached), d.pairwise_premisesFirst _,
    fun before number after split source rests => ?_, ?_⟩, moved⟩
  · obtain ⟨step, found, member⟩ := rests
    rw [split, List.reverse_append, List.reverse_cons, List.append_assoc, List.singleton_append]
      at moved
    exact List.mem_reverse.1 (moved.sources_behind found source member)
  · rw [List.getLast?_eq_head?_reverse, ends]
    rfl

/-! ### The lines of a proof -/

theorem forall₂_filterMap {Element Image : Type*} {image : Element → Option Image}
    {related : Element → Image → Prop} {list : List Element}
    (each : ∀ element ∈ list, ∃ other, image element = some other ∧ related element other) :
    List.Forall₂ related list (list.filterMap image) := by
  induction list with
  | nil => exact .nil
  | cons first rest inductionHypothesis =>
    obtain ⟨⟨other, isImage, holds⟩, later⟩ := List.forall_mem_cons.1 each
    rw [List.filterMap_cons_some isImage]
    exact .cons holds (inductionHypothesis later)

/-- The lines for the steps of an ordered list show these steps. -/
theorem Listed.exists_shows {numbers : List StepNumber} (listed : d.Listed numbers.reverse)
    {place : Nat} {number : StepNumber} (here : numbers[place]? = some number) :
    ∃ (step : Step) (line : ProofLine), d.steps[number]? = some step ∧
      (d.linesOf numbers)[place]? = some line ∧ line.Shows numbers place step := by
  obtain ⟨step, found⟩ :=
    listed.exists_step number (List.mem_reverse.2 (List.mem_of_getElem? here))
  refine ⟨step, lineAt numbers place step, found, ?_, ⟨rfl, rfl, rfl, rfl, ?_⟩⟩
  · rw [listed.linesOf_eq_map, List.getElem?_map, List.getElem?_zipIdx, here, Nat.zero_add]
    simp [found]
  · refine forall₂_filterMap fun source member => ?_
    obtain ⟨earlier, less, first, there⟩ := listed.idxOf?_source here found member
    exact ⟨earlier + 1, by rw [first]; rfl, earlier, less, there, rfl⟩

/-- **Flattening a derivation is a topological order.** In an ordered derivation the lines of the
proof that ends in a step show, one by one, the steps that the walk with a stack lists, with
premises moved to the front and goals behind them. These are exactly the steps that the last one
rests on, directly or not, and itself, each of them once and behind its sources; and what a line
refers to are the earlier lines of the sources of its step. -/
theorem Ordered.proof_isTopological (ordered : d.Ordered) {last : StepNumber}
    (known : last < d.size) (bindings : Substitution) :
    d.Arranges last (d.premisesFirst (d.ancestryOnStack last)) ∧
    (d.proof last bindings).bindings = bindings ∧
    (d.proof last bindings).lines.length = (d.premisesFirst (d.ancestryOnStack last)).length ∧
    ∀ place number, (d.premisesFirst (d.ancestryOnStack last))[place]? = some number →
      ∃ (step : Step) (line : ProofLine), d.steps[number]? = some step ∧
        (d.proof last bindings).lines[place]? = some line ∧
          line.Shows (d.premisesFirst (d.ancestryOnStack last)) place step := by
  rw [ordered.ancestryOnStack_eq known]
  obtain ⟨arranges, listed⟩ := ordered.arranges known
  have numbered := congrArg List.length listed.number_linesOf
  rw [List.length_map, List.length_range'] at numbered
  exact ⟨arranges, rfl, numbered, fun place number here => listed.exists_shows here⟩

/-- A goal, a premise with the clause that it is turned into, a premise that nothing needs, and a
copy of the clause that the last step uses beside the clause itself. -/
def sharedClause : Derivation :=
  ⟨#[⟨.goal, .text "goal", .none, []⟩, ⟨.premise, .text "premise", .none, []⟩,
    ⟨.clausified, .text "clause", .none, [1]⟩, ⟨.premise, .text "unused", .none, []⟩,
    ⟨.renamed, .text "copy", .none, [2]⟩, ⟨.resolution, .text "last", .none, [4, 0, 2, 4]⟩]⟩

/-- The premise comes before the goal that was recorded earlier, the clause is listed once, and the
last line refers to its sources as often as the last step does. -/
theorem proof_isTopological_sharedClause :
    sharedClause.Ordered ∧
    sharedClause.premisesFirst (sharedClause.ancestryOnStack 5) = [1, 0, 2, 4, 5] ∧
    sharedClause.Arranges 5 [1, 0, 2, 4, 5] ∧
    (sharedClause.proof 5 ∅).lines.map ProofLine.sources =
      [[], [], [1], [3], [4, 2, 3, 4]] := by
  have ordered : sharedClause.Ordered := by decide
  have numbers : sharedClause.premisesFirst (sharedClause.ancestryOnStack 5) = [1, 0, 2, 4, 5] := by
    cbv
  have arranges := (ordered.proof_isTopological (by decide : 5 < sharedClause.size) ∅).1
  rw [numbers] at arranges
  exact ⟨ordered, numbers, arranges, by cbv⟩

end Derivation

end ClausalReasoner
