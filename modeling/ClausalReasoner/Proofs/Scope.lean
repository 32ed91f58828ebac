/-
This file says what the truth of a sentence depends on: the values of its free variables and the
meaning of its symbols, and nothing else. A quantifier list is read at once. Something holds over a
list when it holds under all assignments, or under one, that differ from the given assignment on
the variables of the list only; the order of the list and the repetitions in it make no difference.

Two interpretations agree on some symbols when these mean the same in both. Interpretations that
agree on what is known are what a Skolem symbol or an answer predicate leads from and to: its
meaning is free to be chosen as long as it is not known.
-/

import ClausalReasoner.Proofs.Symbols
import ClausalReasoner.Semantics

namespace ClausalReasoner

universe u

variable {Universe : Type u}

/-! ### Interpretations that agree on some symbols -/

namespace Interpretation

/-- A symbol means the same in two interpretations. -/
def SameAt (first second : Interpretation Universe) : Symbol → Prop
  | .constant name => first.constant name = second.constant name
  | .function name => first.function name = second.function name
  | .predicate name => first.predicate name = second.predicate name

/-- Two interpretations read equality alike and agree on the given symbols. -/
structure Agree (known : Symbol → Prop) (first second : Interpretation Universe) : Prop where
  equality : first.equality = second.equality
  symbols : ∀ symbol, known symbol → first.SameAt second symbol

namespace Agree

variable {known wider : Symbol → Prop} {first second third : Interpretation Universe}

theorem refl (known : Symbol → Prop) (meaning : Interpretation Universe) :
    meaning.Agree known meaning :=
  ⟨rfl, fun symbol _ => by cases symbol <;> rfl⟩

theorem symm (agree : first.Agree known second) : second.Agree known first := by
  refine ⟨agree.equality.symm, fun symbol inside => ?_⟩
  have same := agree.symbols symbol inside
  cases symbol <;> exact Eq.symm same

theorem trans (agree : first.Agree known second) (later : second.Agree known third) :
    first.Agree known third := by
  refine ⟨agree.equality.trans later.equality, fun symbol inside => ?_⟩
  have same := agree.symbols symbol inside
  have next := later.symbols symbol inside
  cases symbol <;> exact Eq.trans same next

theorem mono (agree : first.Agree wider second) (narrower : ∀ symbol, known symbol → wider symbol) :
    first.Agree known second :=
  ⟨agree.equality, fun symbol inside => agree.symbols symbol (narrower symbol inside)⟩

theorem isNormal (agree : first.Agree known second) (normal : first.IsNormal) :
    second.IsNormal := by
  intro left right
  rw [← agree.equality]
  exact normal left right

end Agree

end Interpretation

/-! ### What the value of a term and the truth of an atom depend on -/

variable {meaning other : Interpretation Universe} {values changed : Assignment Universe}

theorem Term.valuesIn_eq_map (meaning : Interpretation Universe) (values : Assignment Universe)
    (ts : List Term) : valuesIn meaning values ts = ts.map (valueIn meaning values) := by
  induction ts with
  | nil => rfl
  | cons t ts inductionHypothesis => rw [valuesIn, inductionHypothesis, List.map_cons]

theorem Term.valueIn_congr {t : Term}
    (symbols : ∀ symbol ∈ t.symbols, meaning.SameAt other symbol)
    (agree : ∀ v ∈ t.occurrences, values v = changed v) :
    t.valueIn meaning values = t.valueIn other changed := by
  induction t with
  | constant name => exact symbols (.constant name) (List.mem_singleton_self _)
  | var v => exact agree v (List.mem_singleton_self v)
  | app function ts inductionHypothesis =>
    have head : meaning.function function = other.function function :=
      symbols (.function function) List.mem_cons_self
    rw [valueIn, valueIn, head, valuesIn_eq_map, valuesIn_eq_map]
    refine congrArg _ (List.map_congr_left fun t member => ?_)
    refine inductionHypothesis t member (fun symbol inside => ?_) (fun v occurs => ?_)
    · exact symbols symbol (List.mem_cons_of_mem _ (mem_symbolsList.2 ⟨t, member, inside⟩))
    · exact agree v (mem_occurrencesList.2 ⟨t, member, occurs⟩)

/-- Only the values of the variables that occur matter. -/
theorem Term.valueIn_congr_values {t : Term} (agree : ∀ v ∈ t.occurrences, values v = changed v) :
    t.valueIn meaning values = t.valueIn meaning changed :=
  valueIn_congr (fun symbol _ =>
    (Interpretation.Agree.refl (fun _ => True) meaning).symbols symbol trivial) agree

theorem Term.valuesIn_congr {ts : List Term}
    (symbols : ∀ symbol ∈ symbolsList ts, meaning.SameAt other symbol)
    (agree : ∀ v ∈ occurrencesList ts, values v = changed v) :
    valuesIn meaning values ts = valuesIn other changed ts := by
  rw [valuesIn_eq_map, valuesIn_eq_map]
  refine List.map_congr_left fun t member => valueIn_congr (fun symbol inside => ?_) fun v occurs => ?_
  · exact symbols symbol (mem_symbolsList.2 ⟨t, member, inside⟩)
  · exact agree v (mem_occurrencesList.2 ⟨t, member, occurs⟩)

theorem Atom.holdsIn_congr {a : Atom} (equality : meaning.equality = other.equality)
    (symbols : ∀ symbol ∈ a.symbols, meaning.SameAt other symbol)
    (agree : ∀ v ∈ a.occurrences, values v = changed v) :
    a.holdsIn meaning values ↔ a.holdsIn other changed := by
  have arguments := Term.valuesIn_congr
    (fun symbol inside => symbols symbol (List.mem_append_right _ inside)) agree
  cases a with
  | predicate name ts =>
    have head : meaning.predicate name = other.predicate name :=
      symbols (.predicate name) List.mem_cons_self
    rw [holdsIn, holdsIn, head]
    exact iff_of_eq (congrArg _ arguments)
  | equality left right =>
    simp only [Atom.arguments, Term.valuesIn, List.cons.injEq, and_true] at arguments
    rw [holdsIn, holdsIn, equality, arguments.1, arguments.2]

theorem Atom.holdsIn_replace (meaning : Interpretation Universe) (values : Assignment Universe)
    (value : Variable → Term) (a : Atom) :
    (a.replace value).holdsIn meaning values ↔
      a.holdsIn meaning fun v => (value v).valueIn meaning values := by
  cases a with
  | predicate name ts => rw [replace, holdsIn, holdsIn, Term.valuesIn_replaceList]
  | equality left right => rw [replace, holdsIn, holdsIn, Term.valueIn_replace, Term.valueIn_replace]

/-! ### Quantifier lists are read at once -/

/-- Two assignments give the same values to all variables but the listed ones. -/
def Assignment.AgreeOff (bound : List Variable) (first second : Assignment Universe) : Prop :=
  ∀ v, v ∉ bound → first v = second v

/-- The assignment that takes the values of the listed variables from another one. -/
def Assignment.override (values : Assignment Universe) (bound : List Variable)
    (inside : Assignment Universe) : Assignment Universe :=
  fun v => if v ∈ bound then inside v else values v

namespace Assignment

variable {bound : List Variable} {inside : Assignment Universe}

theorem override_of_mem {v : Variable} (member : v ∈ bound) :
    values.override bound inside v = inside v :=
  if_pos member

theorem override_of_notMem {v : Variable} (absent : v ∉ bound) :
    values.override bound inside v = values v :=
  if_neg absent

theorem agreeOff_override : AgreeOff bound (values.override bound inside) values :=
  fun _ absent => override_of_notMem absent

/-- Giving the first variable of a list a value and then varying over the rest comes to varying
over the whole list. -/
theorem agreeOff_cons_iff {v : Variable} {vs : List Variable} :
    AgreeOff (v :: vs) changed values ↔ ∃ value, AgreeOff vs changed (values.set v value) := by
  constructor
  · intro agree
    refine ⟨changed v, fun w absent => ?_⟩
    by_cases same : w = v
    · rw [same, set, if_pos rfl]
    · rw [set, if_neg same]
      exact agree w fun member => (List.mem_cons.1 member).elim same absent
  · rintro ⟨value, agree⟩ w absent
    obtain ⟨different, later⟩ := List.ne_and_not_mem_of_not_mem_cons absent
    rw [agree w later, set, if_neg different]

end Assignment

namespace Quantifier

variable {body : Assignment Universe → Prop} {bound : List Variable}

theorem holdsOver_universal_iff :
    universal.holdsOver body bound values ↔
      ∀ inside, Assignment.AgreeOff bound inside values → body inside := by
  induction bound generalizing values with
  | nil =>
    refine ⟨fun holds inside agree => ?_, fun holds => holds values fun _ _ => rfl⟩
    have same : inside = values := funext fun v => agree v List.not_mem_nil
    exact same ▸ holds
  | cons v vs inductionHypothesis =>
    simp only [holdsOver, inductionHypothesis, Assignment.agreeOff_cons_iff]
    exact ⟨fun holds inside ⟨value, agree⟩ => holds value inside agree,
      fun holds value inside agree => holds inside ⟨value, agree⟩⟩

theorem holdsOver_existential_iff :
    existential.holdsOver body bound values ↔
      ∃ inside, Assignment.AgreeOff bound inside values ∧ body inside := by
  induction bound generalizing values with
  | nil =>
    refine ⟨fun holds => ⟨values, fun _ _ => rfl, holds⟩, fun ⟨inside, agree, holds⟩ => ?_⟩
    have same : inside = values := funext fun v => agree v List.not_mem_nil
    exact same ▸ holds
  | cons v vs inductionHypothesis =>
    simp only [holdsOver, inductionHypothesis, Assignment.agreeOff_cons_iff]
    exact ⟨fun ⟨value, inside, agree, holds⟩ => ⟨inside, ⟨value, agree⟩, holds⟩,
      fun ⟨inside, ⟨value, agree⟩, holds⟩ => ⟨value, inside, agree, holds⟩⟩

/-- Two quantifications come to the same when every choice of values in one is matched by a choice
in the other. -/
theorem holdsOver_iff_of_matching (quantifier : Quantifier)
    {first second : Assignment Universe → Prop} {boundFirst boundSecond : List Variable}
    (there : ∀ inside, Assignment.AgreeOff boundFirst inside values →
      ∃ matched, Assignment.AgreeOff boundSecond matched changed ∧ (first inside ↔ second matched))
    (back : ∀ matched, Assignment.AgreeOff boundSecond matched changed →
      ∃ inside, Assignment.AgreeOff boundFirst inside values ∧ (first inside ↔ second matched)) :
    quantifier.holdsOver first boundFirst values ↔
      quantifier.holdsOver second boundSecond changed := by
  cases quantifier with
  | universal =>
    rw [holdsOver_universal_iff, holdsOver_universal_iff]
    constructor
    · intro holds matched agree
      obtain ⟨inside, agreeInside, same⟩ := back matched agree
      exact same.1 (holds inside agreeInside)
    · intro holds inside agree
      obtain ⟨matched, agreeMatched, same⟩ := there inside agree
      exact same.2 (holds matched agreeMatched)
  | existential =>
    rw [holdsOver_existential_iff, holdsOver_existential_iff]
    constructor
    · rintro ⟨inside, agree, holds⟩
      obtain ⟨matched, agreeMatched, same⟩ := there inside agree
      exact ⟨matched, agreeMatched, same.1 holds⟩
    · rintro ⟨matched, agree, holds⟩
      obtain ⟨inside, agreeInside, same⟩ := back matched agree
      exact ⟨inside, agreeInside, same.2 holds⟩

/-- Two quantifications over one list come to the same when the bodies do under assignments that
give the listed variables the same values. -/
theorem holdsOver_congr (quantifier : Quantifier) {first second : Assignment Universe → Prop}
    (same : ∀ inside matched, Assignment.AgreeOff bound inside values →
      Assignment.AgreeOff bound matched changed → (∀ v ∈ bound, inside v = matched v) →
        (first inside ↔ second matched)) :
    quantifier.holdsOver first bound values ↔ quantifier.holdsOver second bound changed := by
  refine quantifier.holdsOver_iff_of_matching (fun inside agree => ?_) (fun matched agree => ?_)
  · exact ⟨changed.override bound inside, Assignment.agreeOff_override,
      same _ _ agree Assignment.agreeOff_override fun v member =>
        (Assignment.override_of_mem member).symm⟩
  · exact ⟨values.override bound matched, Assignment.agreeOff_override,
      same _ _ Assignment.agreeOff_override agree fun v member =>
        Assignment.override_of_mem member⟩

/-- Renaming the variables of a quantifier comes to the same when different variables stay different
and the free ones stay apart from the binders: a binder is given the value of the variable that
became it. -/
theorem holdsOver_of_renaming (quantifier : Quantifier) {inside : Variable → Prop}
    {before after : Variable → Variable} {binders : List Variable}
    {first second : Assignment Universe → Prop}
    (injective : ∀ v w, inside v → inside w → after v = after w → v = w)
    (within : ∀ v ∈ bound, inside v) (listed : ∀ v ∈ bound, after v ∈ binders)
    (free : ∀ v, inside v → v ∉ bound → after v = before v ∧ before v ∉ binders)
    (inner : ∀ chosen, first chosen ↔ second fun v => chosen (after v))
    (onlyInside : ∀ chosen matched, (∀ v, inside v → chosen v = matched v) →
      (second chosen ↔ second matched)) (values : Assignment Universe) :
    quantifier.holdsOver first binders values ↔
      quantifier.holdsOver second bound fun v => values (before v) := by
  refine quantifier.holdsOver_iff_of_matching (fun chosen agree => ?_) (fun matched agree => ?_)
  · refine ⟨Assignment.override _ bound fun v => chosen (after v),
      Assignment.agreeOff_override, (inner chosen).trans (onlyInside _ _ fun v member => ?_)⟩
    by_cases here : v ∈ bound
    · rw [Assignment.override_of_mem here]
    · have kept := free v member here
      rw [Assignment.override_of_notMem here, kept.1]
      exact agree _ kept.2
  · classical
    let chosen : Assignment Universe := fun w =>
      if became : ∃ v ∈ bound, after v = w then matched became.choose else values w
    refine ⟨chosen, fun w absent => ?_, (inner chosen).trans (onlyInside _ _ fun v member => ?_)⟩
    · refine dif_neg ?_
      rintro ⟨v, here, rfl⟩
      exact absent (listed v here)
    · by_cases here : v ∈ bound
      · have became : ∃ u ∈ bound, after u = after v := ⟨v, here, rfl⟩
        refine (dif_pos became).trans (congrArg matched ?_)
        exact injective _ v (within _ became.choose_spec.1) member became.choose_spec.2
      · have kept := free v member here
        rw [agree v here]
        refine (dif_neg ?_).trans (congrArg values kept.1)
        rintro ⟨u, found, same⟩
        exact here (injective u v (within u found) member same ▸ found)

/-- Under a negation a quantifier turns into its dual. -/
theorem not_holdsOver_iff (quantifier : Quantifier) :
    ¬ quantifier.holdsOver body bound values ↔
      quantifier.dual.holdsOver (fun inside => ¬ body inside) bound values := by
  cases quantifier with
  | universal =>
    rw [dual, holdsOver_universal_iff, holdsOver_existential_iff]
    push Not
    exact Iff.rfl
  | existential =>
    rw [dual, holdsOver_universal_iff, holdsOver_existential_iff]
    push Not
    exact Iff.rfl

end Quantifier

/-! ### Free variables -/

namespace Sentence

/-- The variable occurrences in the atoms of a sentence that no quantifier binds. -/
def freeVars : Sentence → List Variable
  | .atom a => a.occurrences
  | .negation body => body.freeVars
  | .connected _ left right => left.freeVars ++ right.freeVars
  | .quantified _ bound body => body.freeVars.filter (· ∉ bound)

/-- A sentence is closed when no variable is free in it. -/
def IsClosed (s : Sentence) : Prop :=
  s.freeVars = []

instance (s : Sentence) : Decidable s.IsClosed :=
  inferInstanceAs (Decidable (s.freeVars = []))

/-- Whether no quantifier stands in a sentence. -/
def isQuantifierFree : Sentence → Bool
  | .atom _ => true
  | .negation body => body.isQuantifierFree
  | .connected _ left right => left.isQuantifierFree && right.isQuantifierFree
  | .quantified _ _ _ => false

theorem mem_freeVars_quantified {quantifier : Quantifier} {bound : List Variable}
    {body : Sentence} {v : Variable} :
    v ∈ (quantified quantifier bound body).freeVars ↔ v ∈ body.freeVars ∧ v ∉ bound := by
  rw [freeVars, List.mem_filter, decide_eq_true_iff]

/-- A variable that is free stands in an atom. -/
theorem mem_occurrences_of_mem_freeVars {s : Sentence} {v : Variable} (free : v ∈ s.freeVars) :
    v ∈ s.occurrences := by
  induction s with
  | atom a => exact free
  | negation body inductionHypothesis => exact inductionHypothesis free
  | connected connective left right leftHypothesis rightHypothesis =>
    rcases List.mem_append.1 free with here | there
    · exact List.mem_append_left _ (leftHypothesis here)
    · exact List.mem_append_right _ (rightHypothesis there)
  | quantified quantifier bound body inductionHypothesis =>
    exact inductionHypothesis (mem_freeVars_quantified.1 free).1

/-- The truth of a sentence depends on its symbols and its free variables only. -/
theorem holdsIn_congr {s : Sentence} (equality : meaning.equality = other.equality)
    (symbols : ∀ symbol ∈ s.symbols, meaning.SameAt other symbol)
    (agree : ∀ v ∈ s.freeVars, values v = changed v) :
    s.holdsIn meaning values ↔ s.holdsIn other changed := by
  induction s generalizing values changed with
  | atom a => exact Atom.holdsIn_congr equality symbols agree
  | negation body inductionHypothesis =>
    exact not_congr (inductionHypothesis symbols agree)
  | connected connective left right leftHypothesis rightHypothesis =>
    have first := leftHypothesis (fun symbol inside => symbols symbol (List.mem_append_left _ inside))
      fun v free => agree v (List.mem_append_left _ free)
    have second := rightHypothesis
      (fun symbol inside => symbols symbol (List.mem_append_right _ inside))
      fun v free => agree v (List.mem_append_right _ free)
    rw [holdsIn, holdsIn, propext first, propext second]
  | quantified quantifier bound body inductionHypothesis =>
    refine quantifier.holdsOver_congr fun inside matched agreeInside agreeMatched same => ?_
    refine inductionHypothesis symbols fun v free => ?_
    by_cases listed : v ∈ bound
    · exact same v listed
    · rw [agreeInside v listed, agreeMatched v listed]
      exact agree v (mem_freeVars_quantified.2 ⟨free, listed⟩)

/-- Assignments that agree on the free variables make no difference. -/
theorem holdsIn_congr_values {s : Sentence} (agree : ∀ v ∈ s.freeVars, values v = changed v) :
    s.holdsIn meaning values ↔ s.holdsIn meaning changed :=
  holdsIn_congr rfl
    (fun symbol _ => ((Interpretation.Agree.refl (fun _ => True) meaning).symbols symbol trivial))
    agree

/-- Interpretations that agree on the symbols make no difference. -/
theorem holdsIn_congr_meaning {s : Sentence} {known : Symbol → Prop}
    (agree : meaning.Agree known other) (symbols : ∀ symbol ∈ s.symbols, known symbol) :
    s.holdsIn meaning values ↔ s.holdsIn other values :=
  holdsIn_congr agree.equality (fun symbol inside => agree.symbols symbol (symbols symbol inside))
    fun _ _ => rfl

/-- A closed sentence is valid where it holds under one assignment. -/
theorem IsClosed.validIn_iff {s : Sentence} (closed : s.IsClosed)
    (values : Assignment Universe) : s.ValidIn meaning ↔ s.holdsIn meaning values := by
  refine ⟨fun valid => valid values, fun holds changed => ?_⟩
  refine (holdsIn_congr_values fun v free => ?_).1 holds
  rw [closed] at free
  exact absurd free List.not_mem_nil

/-! ### Quantifiers that disappear with their variables -/

/-- A quantifier list follows a renaming of its variables. -/
theorem replaceBinders_eq_map {value : Variable → Term} {change : Variable → Variable}
    {bound : List Variable} (renamed : ∀ v ∈ bound, value v = .var (change v)) :
    replaceBinders value bound = bound.map change := by
  rw [replaceBinders,
    List.filterMap_congr fun v listed => congrArg Term.asVariable? (renamed v listed)]
  exact congrFun List.filterMap_eq_map' bound

theorem holdsIn_quantify (quantifier : Quantifier) (bound : List Variable) (body : Sentence) :
    (quantify quantifier bound body).holdsIn meaning values ↔
      quantifier.holdsOver (body.holdsIn meaning) bound values := by
  cases bound <;> exact Iff.rfl

theorem mem_freeVars_quantify {quantifier : Quantifier} {bound : List Variable} {body : Sentence}
    {v : Variable} :
    v ∈ (quantify quantifier bound body).freeVars ↔ v ∈ body.freeVars ∧ v ∉ bound := by
  cases bound with
  | nil => simp [quantify]
  | cons w ws => exact mem_freeVars_quantified

@[simp]
theorem symbols_quantify (quantifier : Quantifier) (bound : List Variable) (body : Sentence) :
    (quantify quantifier bound body).symbols = body.symbols := by
  cases bound <;> rfl

@[simp]
theorem binders_quantify (quantifier : Quantifier) (bound : List Variable) (body : Sentence) :
    (quantify quantifier bound body).binders = bound ++ body.binders := by
  cases bound <;> rfl

end Sentence

/-! ### What the truth of a clause depends on -/

theorem Literal.holdsIn_congr {l : Literal} (equality : meaning.equality = other.equality)
    (symbols : ∀ symbol ∈ l.symbols, meaning.SameAt other symbol)
    (agree : ∀ v ∈ l.occurrences, values v = changed v) :
    l.holdsIn meaning values ↔ l.holdsIn other changed := by
  have same := Atom.holdsIn_congr equality symbols agree
  rw [holdsIn, holdsIn]
  cases l.polarity with
  | positive => exact same
  | negative => exact not_congr same

theorem Clause.holdsIn_congr_meaning {c : Clause} {known : Symbol → Prop}
    (agree : meaning.Agree known other) (symbols : ∀ symbol ∈ c.symbols, known symbol) :
    c.holdsIn meaning values ↔ c.holdsIn other values := by
  have same : ∀ l ∈ c.literals, l.holdsIn meaning values ↔ l.holdsIn other values := by
    intro l member
    refine Literal.holdsIn_congr agree.equality (fun symbol inside => ?_) fun _ _ => rfl
    exact agree.symbols symbol (symbols symbol (mem_symbols.2 ⟨l, member, inside⟩))
  exact exists_congr fun l => and_congr_right fun member => same l member

theorem Clause.validIn_congr_meaning {c : Clause} {known : Symbol → Prop}
    (agree : meaning.Agree known other) (symbols : ∀ symbol ∈ c.symbols, known symbol) :
    c.ValidIn meaning ↔ c.ValidIn other :=
  forall_congr' fun _ => c.holdsIn_congr_meaning agree symbols

end ClausalReasoner
