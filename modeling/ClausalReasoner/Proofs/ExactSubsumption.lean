/-
This file says exactly what subsumption decides. One clause subsumes another one if and only if it
is shorter, has no more literals of either polarity and of any kind, and some substitution of its
variables turns each of its literals into one of the other clause. Which variables the clauses have
in common makes no difference, and neither does the way in which a partner is looked for: trying the
candidates of one literal after the other comes to the same verdict as counting through all
assignments and passing over those that begin like one that failed, in whatever order the kinds of
literals come. A clause that is subsumed follows from the one that subsumes it.
-/

import ClausalReasoner.Proofs.CounterOrder
import ClausalReasoner.Proofs.ExactMatching
import ClausalReasoner.Proofs.NegativeVerdict

namespace ClausalReasoner

universe u

open Substitution

variable {value : Variable → Term} {ls targets : List Literal}

/-! ### Turning literals into others -/

namespace Literal

/-- Whether a replacement turns each of some literals into one of the targets. Only polarity and
atom count, not the mark of a reduced literal. -/
def EmbedIn (value : Variable → Term) (ls targets : List Literal) : Prop :=
  ∀ l ∈ ls, ∃ m ∈ targets, m.polarity = l.polarity ∧ m.atom = l.atom.replace value

theorem kind_replace (value : Variable → Term) (l : Literal) :
    (l.replace value).kind = l.kind := by
  obtain ⟨a, polarity, reduced⟩ := l
  have length : (a.replace value).arguments.length = a.arguments.length := by
    rw [Atom.arguments_replace, Term.replaceList_eq_map, List.length_map]
  cases a <;> simp_all [kind, replace, Atom.replace, Atom.isEquality, Atom.symbol, Atom.arity]

theorem kind_eq_of_image {l m : Literal} (polarity : m.polarity = l.polarity)
    (image : m.atom = l.atom.replace value) : m.kind = l.kind := by
  rw [← l.kind_replace value, kind, kind, polarity, image]
  rfl

/-- What a literal is turned into stands among the literals of its kind. -/
theorem exists_candidate_iff {l : Literal} :
    (∃ m ∈ literalsOfKind l.kind targets, m.atom = l.atom.replace value) ↔
      ∃ m ∈ targets, m.polarity = l.polarity ∧ m.atom = l.atom.replace value := by
  constructor
  · rintro ⟨m, candidate, image⟩
    obtain ⟨member, kind⟩ := List.mem_filter.1 candidate
    exact ⟨m, member, congrArg LiteralKind.polarity (of_decide_eq_true kind), image⟩
  · rintro ⟨m, member, polarity, image⟩
    have kind := kind_eq_of_image polarity image
    exact ⟨m, List.mem_filter.2 ⟨member, decide_eq_true kind⟩, image⟩

end Literal

open Literal

/-! ### Trying one candidate after the other -/

theorem embeds_cons_iff {l : Literal} {σ : Substitution} :
    embeds targets (l :: ls) σ ↔ ∃ target ∈ literalsOfKind l.kind targets, ∃ extended,
      l.atom.matchWith target.atom σ = some extended ∧ embeds targets ls extended := by
  rw [embeds, List.any_eq_true]
  refine exists_congr fun target => and_congr_right fun _ => ?_
  split
  · next extended found => simp [found]
  · next found => simp [found]

/-- The search succeeds exactly if a replacement that agrees with the bindings turns the literals
into targets. -/
theorem embeds_iff {σ : Substitution} :
    embeds targets ls σ ↔ ∃ value, σ.Admits value ∧ EmbedIn value ls targets := by
  induction ls generalizing σ with
  | nil => exact iff_of_true rfl ⟨σ.value, σ.admits_value, List.forall_mem_nil _⟩
  | cons l rest inductionHypothesis =>
    rw [embeds_cons_iff]
    constructor
    · rintro ⟨target, candidate, extended, found, goesOn⟩
      obtain ⟨value, after, others⟩ := inductionHypothesis.1 goesOn
      obtain ⟨admits, image⟩ := (Atom.allows_matchWith_iff _ _ σ).1 ⟨extended, found, after⟩
      exact ⟨value, admits, List.forall_mem_cons.2
        ⟨exists_candidate_iff.1 ⟨target, candidate, image⟩, others⟩⟩
    · rintro ⟨value, admits, into⟩
      obtain ⟨first, others⟩ := List.forall_mem_cons.1 into
      obtain ⟨target, candidate, image⟩ := exists_candidate_iff.2 first
      obtain ⟨extended, found, after⟩ := (Atom.allows_matchWith_iff _ _ σ).2 ⟨admits, image⟩
      exact ⟨target, candidate, extended, found, inductionHypothesis.2 ⟨value, after, others⟩⟩

/-! ### Counting through the assignments -/

/-- Whether a replacement turns every literal into one of its candidates. -/
def Choice.AllMet (value : Variable → Term) (choices : List Choice) : Prop :=
  ∀ choice ∈ choices, ∃ m ∈ choice.candidates, m.atom = choice.literal.atom.replace value

/-- Whether a failure comes about depends on nothing behind the literal that fails. -/
theorem firstFailure_eq_of_take_eq {choices : List Choice} {digits other : List Nat}
    {σ : Substitution} {position : Nat} (failed : firstFailure choices digits σ = some position)
    (same : other.take (position + 1) = digits.take (position + 1)) :
    firstFailure choices other σ = some position := by
  induction choices generalizing digits other σ position with
  | nil => exact absurd failed (by simp [firstFailure])
  | cons choice choices inductionHypothesis =>
    cases digits with
    | nil => exact absurd failed (by simp [firstFailure])
    | cons digit digits =>
      cases other with
      | nil => exact absurd same (by simp)
      | cons first others =>
        rw [List.take_succ_cons, List.take_succ_cons] at same
        obtain ⟨rfl, behind⟩ := List.cons.inj same
        rw [firstFailure] at failed ⊢
        split at failed
        · next extended found =>
          obtain ⟨position, later, rfl⟩ := Option.map_eq_some_iff.1 failed
          rw [inductionHypothesis later behind]
          rfl
        · exact failed

/-- Some assignment fails nowhere exactly if a replacement that agrees with the bindings turns every
literal into one of its candidates. -/
theorem exists_firstFailure_eq_none_iff {choices : List Choice} {σ : Substitution} :
    (∃ digits, MixedRadix.IsValue (choices.map fun choice => choice.candidates.length) digits ∧
        firstFailure choices digits σ = none) ↔
      ∃ value, σ.Admits value ∧ Choice.AllMet value choices := by
  induction choices generalizing σ with
  | nil =>
    exact iff_of_true ⟨[], .nil, by simp [firstFailure]⟩
      ⟨σ.value, σ.admits_value, List.forall_mem_nil _⟩
  | cons choice choices inductionHypothesis =>
    constructor
    · rintro ⟨_, @⟨⟩ | @⟨digit, _, digits, _, below, rest⟩, unfailing⟩
      rw [firstFailure, List.getD_eq_getElem _ _ below] at unfailing
      split at unfailing
      · next extended found =>
        obtain ⟨value, admits, others⟩ :=
          inductionHypothesis.1 ⟨digits, rest, Option.map_eq_none_iff.1 unfailing⟩
        obtain ⟨before, image⟩ := (Atom.allows_matchWith_iff _ _ σ).1 ⟨extended, found, admits⟩
        exact ⟨value, before, List.forall_mem_cons.2
          ⟨⟨_, List.getElem_mem below, image⟩, others⟩⟩
      · cases unfailing
    · rintro ⟨value, admits, met⟩
      obtain ⟨⟨m, candidate, image⟩, others⟩ := List.forall_mem_cons.1 met
      obtain ⟨digit, below, rfl⟩ := List.getElem_of_mem candidate
      obtain ⟨extended, found, after⟩ := (Atom.allows_matchWith_iff _ _ σ).2 ⟨admits, image⟩
      obtain ⟨digits, rest, unfailing⟩ := inductionHypothesis.2 ⟨value, after, others⟩
      refine ⟨digit :: digits, .cons below rest, ?_⟩
      rw [firstFailure, List.getD_eq_getElem _ _ below, found]
      exact Option.map_eq_none_iff.2 unfailing

/-- Counting from a value on finds an assignment exactly if one that fails nowhere is yet to come:
what is passed over begins like an assignment that failed, and fails for the same reason. -/
theorem succeedsFrom_iff {choices : List Choice} {n : MixedRadix} (proper : n.IsProper) :
    succeedsFrom choices n ↔
      ∃ digits, n.Ahead digits ∧ firstFailure choices digits ∅ = none := by
  induction n using succeedsFrom.induct choices with
  | case1 n ended =>
    rw [succeedsFrom, if_pos ended]
    refine iff_of_false Bool.false_ne_true ?_
    rintro ⟨_, ahead, _⟩
    exact ahead.1 ended
  | case2 n goesOn unfailing =>
    rw [succeedsFrom, if_neg goesOn, unfailing]
    have here : n.Ahead n.digits := ⟨goesOn, proper goesOn, MixedRadix.noEarlier_refl _⟩
    exact iff_of_true rfl ⟨n.digits, here, unfailing⟩
  | case3 n goesOn position failed inductionHypothesis =>
    rw [succeedsFrom, if_neg goesOn, failed]
    refine (inductionHypothesis (proper.countAt position)).trans (exists_congr fun digits => ?_)
    refine and_congr_left fun unfailing => ?_
    refine (MixedRadix.ahead_countAt_iff proper goesOn position).trans (and_iff_left fun same => ?_)
    rw [firstFailure_eq_of_take_eq failed same] at unfailing
    cases unfailing

theorem succeeds_iff {choices : List Choice} :
    succeeds choices ↔ ∃ value, Choice.AllMet value choices := by
  rw [succeeds, succeedsFrom_iff (MixedRadix.isProper_start _)]
  simp only [MixedRadix.ahead_start_iff, exists_firstFailure_eq_none_iff, admits_empty, true_and]

/-- Taking the literals kind by kind leaves none out. -/
theorem allMet_choicesAmong_iff (order : KindOrder ls) :
    Choice.AllMet value (choicesAmong targets ls order.kinds) ↔ EmbedIn value ls targets := by
  constructor
  · intro met l member
    have choice : ⟨l, literalsOfKind l.kind targets⟩ ∈ choicesAmong targets ls order.kinds :=
      List.mem_flatMap.2 ⟨l.kind, (order.mem_kinds l.kind).2 ⟨l, member, rfl⟩,
        List.mem_map_of_mem (List.mem_filter.2 ⟨member, decide_eq_true rfl⟩)⟩
    exact exists_candidate_iff.1 (met _ choice)
  · intro into choice member
    obtain ⟨kind, _, among⟩ := List.mem_flatMap.1 member
    obtain ⟨l, ofKind, rfl⟩ := List.mem_map.1 among
    obtain ⟨inside, same⟩ := List.mem_filter.1 ofKind
    obtain rfl := of_decide_eq_true same
    exact exists_candidate_iff.2 (into l inside)

/-! ### Kinds of literals -/

theorem literalsOfKind_map_replace (kind : LiteralKind) (value : Variable → Term)
    (ls : List Literal) : literalsOfKind kind (ls.map (Literal.replace value)) =
      (literalsOfKind kind ls).map (Literal.replace value) := by
  rw [literalsOfKind, List.filter_map]
  refine congrArg _ (List.filter_congr fun l _ => ?_)
  rw [Function.comp_apply, l.kind_replace]

/-- There are no literals of a kind that none of them has. -/
theorem literalsOfKind_eq_nil {kind : LiteralKind} (absent : ∀ l ∈ ls, l.kind ≠ kind) :
    literalsOfKind kind ls = [] :=
  List.filter_eq_nil_iff.2 fun l member same => absent l member (of_decide_eq_true same)

/-- It is enough to count the literals of the kinds that there are. -/
theorem forall_length_literalsOfKind_le_iff :
    (∀ kind, (∃ l ∈ ls, l.kind = kind) →
        (literalsOfKind kind ls).length ≤ (literalsOfKind kind targets).length) ↔
      ∀ kind, (literalsOfKind kind ls).length ≤ (literalsOfKind kind targets).length := by
  refine forall_congr' fun kind => ⟨fun counted => ?_, fun le _ => le⟩
  by_cases there : ∃ l ∈ ls, l.kind = kind
  · exact counted there
  · rw [literalsOfKind_eq_nil fun l member same => there ⟨l, member, same⟩]
    exact Nat.zero_le _

/-! ### Subsumption -/

namespace Clause

variable {c d : Clause}

theorem fitsByKind_iff : c.fitsByKind d ↔
    ∀ kind, (literalsOfKind kind c.literals).length ≤ (literalsOfKind kind d.literals).length := by
  rw [← forall_length_literalsOfKind_le_iff, fitsByKind, List.all_eq_true]
  simp only [decide_eq_true_eq]
  constructor
  · rintro counted _ ⟨l, member, rfl⟩
    exact counted l member
  · exact fun counted l member => counted l.kind ⟨l, member, rfl⟩

/-- The literals that are matched are those of the clause, up to a change of variables that can be
undone. -/
theorem areVariants_literalsApartFrom (c d : Clause) :
    Literal.AreVariants c.literals (c.literalsApartFrom d) := by
  rw [literalsApartFrom]
  split
  · exact (c.copyOf_renamed _).1
  · exact .refl c.literals

/-- A change of variables that can be undone makes no difference to what literals can be turned
into. -/
theorem exists_embedIn_of_areVariants {ms : List Literal} (variants : Literal.AreVariants ls ms)
    (embeds : ∃ value, Literal.EmbedIn value ms targets) :
    ∃ value, Literal.EmbedIn value ls targets := by
  obtain ⟨forward, back, rfl, _⟩ := variants
  obtain ⟨value, into⟩ := embeds
  refine ⟨fun v => (forward v).replace value, fun l member => ?_⟩
  obtain ⟨m, there, polarity, image⟩ := into _ (List.mem_map_of_mem member)
  exact ⟨m, there, polarity, image.trans (l.atom.replace_replace forward value)⟩

theorem exists_embedIn_literalsApartFrom_iff :
    (∃ value, Literal.EmbedIn value (c.literalsApartFrom d) targets) ↔
      ∃ value, Literal.EmbedIn value c.literals targets :=
  ⟨exists_embedIn_of_areVariants (c.areVariants_literalsApartFrom d),
    exists_embedIn_of_areVariants (c.areVariants_literalsApartFrom d).symm⟩

theorem length_literalsOfKind_literalsApartFrom (c d : Clause) (kind : LiteralKind) :
    (literalsOfKind kind (c.literalsApartFrom d)).length =
      (literalsOfKind kind c.literals).length := by
  obtain ⟨forward, back, literals, _⟩ := c.areVariants_literalsApartFrom d
  rw [literals, literalsOfKind_map_replace, List.length_map]

/-- What it takes for a clause to subsume another one, whose variables count as constants. -/
@[mk_iff]
structure Generalizes (c d : Clause) : Prop where
  shorter : c.size < d.size
  positives : c.positives.length ≤ d.positives.length
  negatives : c.negatives.length ≤ d.negatives.length
  kinds : ∀ kind,
    (literalsOfKind kind c.literals).length ≤ (literalsOfKind kind d.literals).length
  exists_value : ∃ value : Variable → Term, Literal.EmbedIn value c.literals d.literals

/-- Subsumption as it is searched for, one literal after the other, decides what it stands for. -/
theorem subsumes_iff : c.subsumes d ↔ c.Generalizes d := by
  simp only [subsumes, Bool.and_eq_true, decide_eq_true_eq, fitsByKind_iff, embeds_iff,
    admits_empty, true_and, exists_embedIn_literalsApartFrom_iff, generalizes_iff, and_assoc]

/-- A clause that subsumes another one is shorter. -/
theorem size_lt_of_subsumes (subsumes : c.subsumes d) : c.size < d.size :=
  (subsumes_iff.1 subsumes).shorter

/-- Counting through the assignments decides the same, in whatever order the kinds come. -/
theorem subsumesByCounting_iff (order : KindOrder (c.literalsApartFrom d)) :
    c.subsumesByCounting d order ↔ c.Generalizes d := by
  have kinds : (order.kinds.all fun kind => decide ((literalsOfKind kind
      (c.literalsApartFrom d)).length ≤ (literalsOfKind kind d.literals).length)) ↔
      ∀ kind, (literalsOfKind kind c.literals).length ≤
        (literalsOfKind kind d.literals).length := by
    simp only [List.all_eq_true, decide_eq_true_eq, order.mem_kinds]
    rw [forall_length_literalsOfKind_le_iff]
    simp only [length_literalsOfKind_literalsApartFrom]
  simp only [subsumesByCounting, Bool.and_eq_true, decide_eq_true_eq, kinds, succeeds_iff,
    allMet_choicesAmong_iff, exists_embedIn_literalsApartFrom_iff, generalizes_iff, and_assoc]

/-- What a replacement makes of the literals of a clause, a substitution of the variables of the
clause makes of them too. -/
theorem exists_substitution (c : Clause) (value : Variable → Term) :
    ∃ σ : Substitution, (∀ v, σ.binds v → v ∈ c.vars) ∧
      ∀ l ∈ c.literals, l.atom.substitute σ = l.atom.replace value := by
  have keys : (c.vars.map fun v => (v, value v)).map Prod.fst = c.vars := by
    rw [List.map_map]
    exact List.map_id c.vars
  refine ⟨.ofList (c.vars.map fun v => (v, value v)), fun v bound => ?_, fun l member => ?_⟩
  · obtain ⟨t, found⟩ := Option.isSome_iff_exists.1 bound
    rw [← keys]
    exact List.mem_map_of_mem (f := Prod.fst) (mem_of_get?_ofList found)
  · refine Atom.replace_congr fun v occurs => value_of_get?_some ?_
    have inside : v ∈ c.vars := mem_vars.2 (mem_occurrencesList member occurs)
    refine get?_ofList_of_mem ?_ (List.mem_map_of_mem (f := fun v => (v, value v)) inside)
    rw [keys]
    exact nodup_firstOccurrences _

/-- A clause is valid wherever one is valid whose literals are turned into some of its own. -/
theorem ValidIn.of_embedIn {Universe : Type u} {meaning : Interpretation Universe}
    (valid : c.ValidIn meaning) (into : Literal.EmbedIn value c.literals d.literals) :
    d.ValidIn meaning := by
  intro values
  obtain ⟨l, member, holds⟩ := valid fun v => (value v).valueIn meaning values
  obtain ⟨m, there, polarity, image⟩ := into l member
  refine ⟨m, there, ?_⟩
  have same : m.holdsIn meaning values ↔ (l.replace value).holdsIn meaning values := by
    rw [Literal.holdsIn, Literal.holdsIn, polarity, image]
    rfl
  exact same.2 ((l.holdsIn_replace meaning values value).2 holds)

/-- A clause is valid wherever one that subsumes it is. -/
theorem ValidIn.of_subsumes {Universe : Type u} {meaning : Interpretation Universe}
    (valid : c.ValidIn meaning) (subsumes : c.subsumes d) : d.ValidIn meaning := by
  obtain ⟨_, into⟩ := (subsumes_iff.1 subsumes).exists_value
  exact valid.of_embedIn into

/-- Subsumption decides exactly its definition. A clause subsumes another one if and only if it has
fewer literals, no more of either polarity, no more of any kind, which is a polarity with a
predicate and a number of arguments, and a substitution of its variables turns every literal into
one of the other clause, polarity and atom. Nothing is assumed about the variables of the two.
Counting through the assignments, with the kinds in any order, gives the same answer, and the
answer true means that the other clause follows. -/
theorem subsumes_exactly (c d : Clause) :
    (c.subsumes d ↔
      c.size < d.size ∧ c.positives.length ≤ d.positives.length ∧
      c.negatives.length ≤ d.negatives.length ∧
      (∀ kind, (literalsOfKind kind c.literals).length ≤
        (literalsOfKind kind d.literals).length) ∧
      ∃ σ : Substitution, (∀ v, σ.binds v → v ∈ c.vars) ∧
        ∀ l ∈ c.literals, ∃ m ∈ d.literals,
          m.polarity = l.polarity ∧ m.atom = l.atom.substitute σ) ∧
    (∀ order : KindOrder (c.literalsApartFrom d),
      c.subsumesByCounting d order = c.subsumes d) ∧
    (c.subsumes d → ∀ {Universe : Type u} (meaning : Interpretation Universe),
      c.ValidIn meaning → d.ValidIn meaning) := by
  refine ⟨subsumes_iff.trans ⟨fun generalizes => ?_, ?_⟩, fun order => ?_,
    fun subsumes _ _ valid => valid.of_subsumes subsumes⟩
  · obtain ⟨shorter, positives, negatives, kinds, value, into⟩ := generalizes
    obtain ⟨σ, confined, same⟩ := c.exists_substitution value
    refine ⟨shorter, positives, negatives, kinds, σ, confined, fun l member => ?_⟩
    rw [same l member]
    exact into l member
  · rintro ⟨shorter, positives, negatives, kinds, σ, _, into⟩
    exact ⟨shorter, positives, negatives, kinds, σ.value, into⟩
  · exact Bool.eq_iff_iff.2 ((subsumesByCounting_iff order).trans subsumes_iff.symm)

/-- Two steps of a path. -/
def twoSteps : Clause :=
  .ofLiterals [.positive (.predicate "P" [.var ⟨"x", none⟩, .var ⟨"y", none⟩]),
    .positive (.predicate "P" [.var ⟨"y", none⟩, .var ⟨"z", none⟩])]

/-- Steps in which the second one of a path comes last, beside a literal that has a variable in
common with `twoSteps`. -/
def steps : Clause :=
  .ofLiterals [.positive (.predicate "P" [.constant "A", .constant "B"]),
    .positive (.predicate "P" [.constant "C", .constant "D"]),
    .positive (.predicate "P" [.constant "B", .constant "C"]),
    .positive (.predicate "Q" [.var ⟨"x", none⟩])]

theorem subsumes_exactly_twoSteps : twoSteps.subsumes steps ∧
    twoSteps.subsumesByCounting steps default ∧
    ∀ {Universe : Type} (meaning : Interpretation Universe),
      twoSteps.ValidIn meaning → steps.ValidIn meaning := by
  have found : twoSteps.subsumes steps := by cbv
  have exactly := subsumes_exactly twoSteps steps
  exact ⟨found, (exactly.2.1 default).trans found, exactly.2.2 found⟩

end Clause

end ClausalReasoner
