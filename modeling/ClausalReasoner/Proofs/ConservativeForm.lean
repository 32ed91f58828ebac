/-
This file puts the stations together: the clausal form of a sentence is a conservative Skolemized
form of it. An interpretation in which the clauses are valid is one in which the sentence holds,
and one in which the sentence holds becomes one in which the clauses are valid when the Skolem
symbols that were invented for it are given a meaning.

The two directions ask for different things. The way back needs a closed sentence, for a free
variable may share its name with a bound one, and in the clauses the two are one variable. The way
there is possible whenever the existential quantifiers are anchored, whether the sentence is closed
or not; the bound variables that share their names with free ones only make the clauses say less.
-/

import ClausalReasoner.Proofs.Skolemization
import ClausalReasoner.Proofs.Distribution

namespace ClausalReasoner

universe u

variable {Universe : Type u} {meaning : Interpretation Universe} {values : Assignment Universe}

/-- A symbol is new in a later vocabulary when it was not known before. -/
def Vocabulary.IsNewIn (voc later : Vocabulary) (symbol : Symbol) : Prop :=
  later.knows symbol ∧ ¬ voc.knows symbol

namespace Sentence

/-- The sentence before its quantifiers are removed. -/
def prepared (s : Sentence) : Sentence :=
  s.withoutImplications.negationsInward.distinctBinders

theorem holdsIn_prepared (s : Sentence) :
    s.prepared.holdsIn meaning values ↔ s.holdsIn meaning values := by
  rw [prepared, holdsIn_distinctBinders, negationsInward, holdsIn_settle,
    holdsIn_withoutImplications]
  exact iff_true_right rfl

theorem isNegationNormal_prepared (s : Sentence) : s.prepared.IsNegationNormal :=
  (s.isNegationNormal_settle false true).distinctBinders

theorem mem_freeVars_prepared {s : Sentence} {v : Variable} :
    v ∈ s.prepared.freeVars ↔ v ∈ s.freeVars := by
  rw [prepared, mem_freeVars_distinctBinders, negationsInward, mem_freeVars_settle,
    mem_freeVars_withoutImplications]

theorem notMem_binders_prepared {s : Sentence} {v : Variable} (free : v ∈ s.freeVars)
    (unbound : v ∉ s.binders) : v ∉ s.prepared.binders := by
  refine notMem_binders_distinctBinders (mem_occurrences_of_mem_freeVars ?_) ?_
  · exact mem_freeVars_settle.2 (mem_freeVars_withoutImplications.2 free)
  · exact fun bound => unbound (mem_binders_withoutImplications.1 (mem_binders_settle.1 bound))

theorem mem_symbols_prepared {s : Sentence} {symbol : Symbol} :
    symbol ∈ s.prepared.symbols ↔ symbol ∈ s.symbols := by
  rw [prepared, mem_symbols_distinctBinders, negationsInward, mem_symbols_settle,
    mem_symbols_withoutImplications]

theorem Anchored.prepared {s : Sentence} {anchored : Variable → Prop}
    (given : s.Anchored true anchored) : s.prepared.Anchored true anchored :=
  (given.settle false).distinctBinders

/-- At the start nothing is in scope and nothing is replaced. -/
theorem skolemizable_prepared (s : Sentence) : Skolemizable [] .var s.prepared :=
  ⟨nodup_binders_distinctBinders _, fun _ member => absurd member List.not_mem_nil, fun _ _ => rfl⟩

theorem registered_prepared {s : Sentence} {voc : Vocabulary}
    (registered : ∀ symbol ∈ s.symbols, voc.knows symbol) : Registered .var voc s.prepared :=
  ⟨fun symbol inside => registered symbol (mem_symbols_prepared.1 inside),
    fun _ _ _ inside => absurd inside List.not_mem_nil⟩

/-- The quantifier free sentence that the clauses are read off from. -/
def matrix (s : Sentence) (voc : Vocabulary) : Sentence :=
  (s.prepared.withoutQuantifiers voc).1

/-- What a sentence becomes before its quantifiers are removed, if an atom is joined to it whose
variables count as taken. -/
def preparedBeside (s : Sentence) (a : Atom) : Sentence :=
  (s.withoutImplications.negationsInward.renameBinders false id
    { taken := (Sentence.or s.withoutImplications.negationsInward (.atom a)).variableNames }).1

/-- An atom that is joined to a sentence comes through unchanged. -/
theorem matrix_or_atom (s : Sentence) (a : Atom) (voc : Vocabulary) :
    (Sentence.or s (.atom a)).matrix voc =
      .or ((s.preparedBeside a).skolemize [] .var voc).1 (.atom a) := by
  have unfolded : (Sentence.or s (.atom a)).matrix voc =
      .or ((s.preparedBeside a).skolemize [] .var voc).1
        (.atom ((a.replace .var).replace .var)) := rfl
  rw [unfolded, Atom.replace_var, Atom.replace_var]

theorem within_clausalForm (s : Sentence) (voc : Vocabulary) :
    voc.Within (s.clausalForm voc).2 :=
  within_skolemize s.prepared [] .var voc

/-- The clauses hold under some values exactly when the matrix does. -/
theorem holdsIn_clausalForm (s : Sentence) (voc : Vocabulary) :
    (∀ c ∈ (s.clausalForm voc).1, c.holdsIn meaning values) ↔
      (s.matrix voc).holdsIn meaning values := by
  have conjunctive := (s.isNegationNormal_prepared.skolemize [] .var voc).distribute
    (isQuantifierFree_skolemize s.prepared [] .var voc)
  exact conjunctive.holdsIn_clauses.trans (holdsIn_distribute _)

/-- The symbols of the clauses are known afterwards. -/
theorem knows_clausalForm {s : Sentence} {voc : Vocabulary}
    (registered : ∀ symbol ∈ s.symbols, voc.knows symbol) :
    ∀ c ∈ (s.clausalForm voc).1, ∀ symbol ∈ c.symbols, (s.clausalForm voc).2.knows symbol := by
  intro c member symbol inside
  have inMatrix := mem_symbols_distribute.1 (mem_symbols_of_mem_clauses member symbol inside)
  exact (registered_prepared registered).knows_skolemize s.skolemizable_prepared symbol inMatrix

/-- Nothing but constants and functions is invented. -/
theorem knows_predicate_skolemize {s : Sentence} {scope : List Variable}
    {value : Variable → Term} {voc : Vocabulary} {name : String} :
    (s.skolemize scope value voc).2.knows (.predicate name) ↔ voc.knows (.predicate name) := by
  have terms : ∀ (vs : List Variable) (scope : List Variable) (start : Variable → Term)
      (voc : Vocabulary), (skolemTerms scope voc vs start).2.knows (.predicate name) ↔
        voc.knows (.predicate name) := by
    intro vs scope
    induction vs with
    | nil => exact fun _ _ => Iff.rfl
    | cons v vs inductionHypothesis =>
      intro start voc
      cases scope with
      | nil =>
        exact (inductionHypothesis _ _).trans ((voc.skolemConstant_invents.knows_iff _).trans
          (or_iff_left nofun))
      | cons w ws =>
        exact (inductionHypothesis _ _).trans ((voc.skolemFunction_invents.knows_iff _).trans
          (or_iff_left nofun))
  induction s generalizing scope value voc with
  | atom a => exact Iff.rfl
  | negation body inductionHypothesis => exact inductionHypothesis
  | connected connective left right leftHypothesis rightHypothesis =>
    exact rightHypothesis.trans leftHypothesis
  | quantified quantifier bound body inductionHypothesis =>
    cases quantifier with
    | universal => exact inductionHypothesis
    | existential => exact inductionHypothesis.trans (terms _ _ _ _)

/-! ### Sentences without quantifiers -/

theorem isQuantifierFree_withoutImplications {s : Sentence} (plain : s.isQuantifierFree) :
    s.withoutImplications.isQuantifierFree := by
  induction s with
  | atom a => rfl
  | negation body inductionHypothesis => exact inductionHypothesis plain
  | connected connective left right leftHypothesis rightHypothesis =>
    rw [isQuantifierFree, Bool.and_eq_true] at plain
    have first := leftHypothesis plain.1
    have second := rightHypothesis plain.2
    cases connective <;> simp [withoutImplications, isQuantifierFree, first, second]
  | quantified quantifier bound body => exact absurd plain Bool.false_ne_true

theorem isQuantifierFree_settle {s : Sentence} (plain : s.isQuantifierFree)
    (expanding affirmed : Bool) : (s.settle expanding affirmed).isQuantifierFree := by
  induction s generalizing expanding affirmed with
  | atom a => cases affirmed <;> rfl
  | negation body inductionHypothesis => exact inductionHypothesis plain _ _
  | connected connective left right leftHypothesis rightHypothesis =>
    rw [isQuantifierFree, Bool.and_eq_true] at plain
    have first := leftHypothesis plain.1
    have second := rightHypothesis plain.2
    cases connective <;> cases affirmed <;> cases expanding <;>
      simp [settle, isQuantifierFree, first, second]
  | quantified quantifier bound body => exact absurd plain Bool.false_ne_true

theorem isQuantifierFree_renameBinders {s : Sentence} (plain : s.isQuantifierFree) (inside : Bool)
    (change : Variable → Variable) (names : BinderNames) :
    (s.renameBinders inside change names).1.isQuantifierFree := by
  induction s generalizing names with
  | atom a => rfl
  | negation body inductionHypothesis => exact inductionHypothesis plain names
  | connected connective left right leftHypothesis rightHypothesis =>
    rw [isQuantifierFree, Bool.and_eq_true] at plain
    rw [renameBinders]
    exact (Bool.and_eq_true _ _).mpr ⟨leftHypothesis plain.1 names, rightHypothesis plain.2 _⟩
  | quantified quantifier bound body => exact absurd plain Bool.false_ne_true

theorem skolemize_of_isQuantifierFree {s : Sentence} (plain : s.isQuantifierFree)
    (scope : List Variable) (value : Variable → Term) (voc : Vocabulary) :
    (s.skolemize scope value voc).2 = voc := by
  induction s generalizing voc with
  | atom a => rfl
  | negation body inductionHypothesis => exact inductionHypothesis plain voc
  | connected connective left right leftHypothesis rightHypothesis =>
    rw [isQuantifierFree, Bool.and_eq_true] at plain
    exact (rightHypothesis plain.2 _).trans (leftHypothesis plain.1 voc)
  | quantified quantifier bound body => exact absurd plain Bool.false_ne_true

/-- Nothing is invented for a sentence without quantifiers. -/
theorem clausalForm_of_isQuantifierFree {s : Sentence} (plain : s.isQuantifierFree)
    (voc : Vocabulary) : (s.clausalForm voc).2 = voc :=
  skolemize_of_isQuantifierFree (isQuantifierFree_renameBinders
    (isQuantifierFree_settle (isQuantifierFree_withoutImplications plain) _ _) _ _ _) [] .var voc

/-! ### The clauses and the sentence -/

/-- Where existential quantifiers are anchored, the Skolem symbols can be interpreted so that the
clauses hold wherever the sentence does. -/
theorem exists_interpretation_of_clausalForm {s : Sentence} {voc : Vocabulary}
    (given : s.Anchored true fun _ => False)
    (registered : ∀ symbol ∈ s.symbols, voc.knows symbol) (meaning : Interpretation Universe) :
    ∃ chosen : Interpretation Universe,
      meaning.Agree (fun symbol => ¬ voc.IsNewIn (s.clausalForm voc).2 symbol) chosen ∧
        ∀ values, s.holdsIn meaning values →
          ∀ c ∈ (s.clausalForm voc).1, c.holdsIn chosen values := by
  obtain ⟨chosen, agree, holdsMatrix⟩ := s.isNegationNormal_prepared.expands
    s.skolemizable_prepared given.prepared (fun v reach => absurd reach not_false)
    (registered_prepared registered) meaning
  refine ⟨chosen, agree.mono fun symbol old known => ?_, fun values holds => ?_⟩
  · by_contra unknown
    exact old ⟨known, unknown⟩
  · exact (s.holdsIn_clausalForm voc).2 (holdsMatrix values (s.holdsIn_prepared.2 holds))

/-- A sentence that binds none of its free variables is valid wherever its clauses are. -/
theorem validIn_of_clausalForm_of_unbound {s : Sentence}
    (unbound : ∀ v ∈ s.freeVars, v ∉ s.binders) {voc : Vocabulary}
    (valid : ∀ c ∈ (s.clausalForm voc).1, c.ValidIn meaning) :
    s.ValidIn meaning := by
  intro values
  have apart : ValuesApart .var s.prepared := by
    intro v free w occurs
    rw [Term.occurrences, List.mem_singleton] at occurs
    have freeBefore := mem_freeVars_prepared.1 free
    exact occurs ▸ notMem_binders_prepared freeBefore (unbound v freeBefore)
  refine s.holdsIn_prepared.1 (holdsIn_of_skolemize s.isNegationNormal_prepared
    s.skolemizable_prepared apart voc fun chosen _ => ?_)
  exact (s.holdsIn_clausalForm voc).1 fun c member => valid c member chosen

/-- A closed sentence is valid wherever its clauses are. -/
theorem validIn_of_clausalForm {s : Sentence} (closed : s.IsClosed) {voc : Vocabulary}
    (valid : ∀ c ∈ (s.clausalForm voc).1, c.ValidIn meaning) : s.ValidIn meaning := by
  refine validIn_of_clausalForm_of_unbound (fun v free => ?_) valid
  rw [closed] at free
  exact absurd free List.not_mem_nil

/-- **The clausal form of a closed sentence is a conservative Skolemized form.** Every
interpretation in which the clauses are valid satisfies the sentence, and every interpretation that
satisfies the sentence satisfies the clauses too once the symbols invented for them, which are
constants and functions, are interpreted. -/
theorem clausalForm_conservative (s : Sentence) (voc : Vocabulary) (closed : s.IsClosed)
    (registered : ∀ symbol ∈ s.symbols, voc.knows symbol)
    (meaning : Interpretation Universe) :
    ((∀ c ∈ (s.clausalForm voc).1, c.ValidIn meaning) → s.ValidIn meaning) ∧
    (s.ValidIn meaning → ∃ chosen : Interpretation Universe,
      meaning.Agree (fun symbol => ¬ voc.IsNewIn (s.clausalForm voc).2 symbol) chosen ∧
        ∀ c ∈ (s.clausalForm voc).1, c.ValidIn chosen) ∧
    ∀ name, ¬ voc.IsNewIn (s.clausalForm voc).2 (.predicate name) := by
  refine ⟨validIn_of_clausalForm closed, fun valid => ?_, fun name new => ?_⟩
  · obtain ⟨chosen, agree, holds⟩ :=
      exists_interpretation_of_clausalForm (closed.anchored true _) registered meaning
    exact ⟨chosen, agree, fun c member values => holds values (valid values) c member⟩
  · exact new.2 (knows_predicate_skolemize.1 new.1)

/-- Every `x` is below some `y` that is itself below something, called `x` again and bound twice. -/
def everyoneIsBelow : Sentence :=
  .quantified .universal [⟨"x", none⟩] (.quantified .existential [⟨"y", none⟩]
    (.and (.atom (.predicate "below" [.var ⟨"x", none⟩, .var ⟨"y", none⟩]))
      (.quantified .existential [⟨"x", none⟩, ⟨"x", none⟩]
        (.atom (.predicate "below" [.var ⟨"y", none⟩, .var ⟨"x", none⟩])))))

/-- The natural numbers in their order. -/
def numbersInOrder : Interpretation Nat where
  constant _ := 0
  function _ _ := 0
  predicate _ arguments := arguments.Pairwise (· < ·)
  equality := Eq

/-- The numbers become a model of the clauses when the Skolem functions are given a meaning. -/
theorem clausalForm_conservative_numbersInOrder :
    everyoneIsBelow.IsClosed ∧
      (∀ symbol ∈ everyoneIsBelow.symbols,
        (({} : Vocabulary).registerSentence everyoneIsBelow).knows symbol) ∧
      ∃ chosen : Interpretation Nat,
        numbersInOrder.Agree (fun symbol =>
          ¬ (({} : Vocabulary).registerSentence everyoneIsBelow).IsNewIn (everyoneIsBelow.clausalForm
            (({} : Vocabulary).registerSentence everyoneIsBelow)).2 symbol) chosen ∧
        ∀ c ∈ (everyoneIsBelow.clausalForm
          (({} : Vocabulary).registerSentence everyoneIsBelow)).1, c.ValidIn chosen := by
  have closed : everyoneIsBelow.IsClosed := by decide
  have registered : ∀ symbol ∈ everyoneIsBelow.symbols,
      (({} : Vocabulary).registerSentence everyoneIsBelow).knows symbol := by decide
  refine ⟨closed, registered, (clausalForm_conservative everyoneIsBelow _ closed registered
    numbersInOrder).2.1 fun values x => ?_⟩
  refine ⟨x + 1, ?_, 0, x + 2, ?_⟩
  all_goals
    simp [holdsIn, Atom.holdsIn, Term.valuesIn, Term.valueIn, Assignment.set, numbersInOrder,
      Quantifier.holdsOver]

end Sentence

end ClausalReasoner
