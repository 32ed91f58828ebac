/-
This file is about definite clauses, those with one positive literal. Such a clause holds when its
head does as soon as its body does. Over ground terms, where an interpretation is a set of ground
atoms, definite clauses have a least model: the ground atoms that are in all of their models form a
model again. Symbols are strings, and the ground terms are those over all symbols there are.
-/

import Mathlib.Data.Set.Basic
import ClausalReasoner.Proofs.ClausesApart

namespace ClausalReasoner

universe u

/-! ### Heads and bodies -/

namespace Clause

variable {Universe : Type u} {meaning : Interpretation Universe} {values : Assignment Universe}
  {c : Clause} {head l : Literal}

/-- A definite clause has one head. -/
theorem positives_of_isDefinite (definite : c.isDefinite) (isHead : head ∈ c.positives) :
    c.positives = [head] := by
  obtain ⟨only, isOnly⟩ := List.length_eq_one_iff.1 (of_decide_eq_true definite)
  rw [isOnly] at isHead ⊢
  rw [List.mem_singleton.1 isHead]

theorem eq_of_isDefinite (definite : c.isDefinite) (isHead : head ∈ c.positives)
    (isPositive : l ∈ c.positives) : l = head := by
  rw [positives_of_isDefinite definite isHead] at isPositive
  exact List.mem_singleton.1 isPositive

/-- The positive literals of a clause without reduced literals affirm their atoms. -/
theorem eq_positive_of_mem_positives (plain : ∀ l ∈ c.literals, l.reduced = false)
    (isPositive : l ∈ c.positives) : l = .positive l.atom := by
  obtain ⟨inside, affirms⟩ := List.mem_filter.1 isPositive
  obtain ⟨a, polarity, reduced⟩ := l
  obtain rfl : reduced = false := plain _ inside
  obtain rfl : polarity = .positive := of_decide_eq_true affirms
  rfl

theorem exists_head (definite : c.isDefinite) : ∃ head, head ∈ c.positives := by
  obtain ⟨only, isOnly⟩ := List.length_eq_one_iff.1 (of_decide_eq_true definite)
  exact ⟨only, isOnly ▸ List.mem_singleton_self only⟩

theorem isDefinite_of_isRule (rule : c.isRule) : c.isDefinite :=
  ((Bool.and_eq_true _ _).mp rule).1

/-- A unit that affirms an atom is definite. -/
theorem isDefinite_of_literals {a : Atom} (literals : c.literals = [.positive a]) :
    c.isDefinite := by
  rw [isDefinite, positives, literals]
  rfl

theorem isRule_of_literals {a : Atom} (literals : c.literals = [.positive a]) :
    c.isRule = false := by
  rw [isRule, negatives, literals]
  exact Bool.and_false _

theorem mem_positives_or_negatives (member : l ∈ c.literals) :
    l ∈ c.positives ∨ l ∈ c.negatives := by
  cases polarity : l.polarity with
  | positive => exact Or.inl (List.mem_filter.2 ⟨member, decide_eq_true polarity⟩)
  | negative => exact Or.inr (List.mem_filter.2 ⟨member, decide_eq_true polarity⟩)

/-- A definite clause that is no rule is its head. -/
theorem literals_of_isDefinite (definite : c.isDefinite) (noRule : c.isRule = false)
    (isHead : head ∈ c.positives) : c.literals = [head] := by
  have noBody : c.negatives = [] := by
    rw [isRule, definite, Bool.true_and, Bool.not_eq_false'] at noRule
    exact List.isEmpty_iff.1 noRule
  have same : ∀ l ∈ c.literals, l = head := by
    intro l member
    rcases mem_positives_or_negatives member with isPositive | isNegative
    · exact eq_of_isDefinite definite isHead isPositive
    · rw [noBody] at isNegative
      exact absurd isNegative List.not_mem_nil
  have inside := List.mem_of_mem_filter isHead
  cases literals : c.literals with
  | nil => exact absurd (literals ▸ inside) List.not_mem_nil
  | cons first rest =>
    obtain rfl := same first (literals ▸ List.mem_cons_self)
    cases rest with
    | nil => rfl
    | cons second rest =>
      have again := same second (literals ▸ List.mem_cons_of_mem _ List.mem_cons_self)
      have distinct := c.distinct
      rw [literals, again] at distinct
      exact absurd List.mem_cons_self (List.nodup_cons.1 distinct).1

/-- The positive and the negative literals of a copy are copies of those of the clause. -/
theorem CopyOf.exists_sides {copy : Clause} (isCopy : copy.CopyOf c) :
    ∃ forward back : Variable → Term,
      copy.positives = c.positives.map (Literal.replace forward) ∧
      copy.negatives = c.negatives.map (Literal.replace forward) ∧
      ∀ l ∈ c.literals, (l.replace forward).replace back = l := by
  obtain ⟨forward, back, literals, undone⟩ := isCopy
  refine ⟨forward, back, ?_, ?_, undone⟩
  · rw [positives, literals, List.filter_map]
    rfl
  · rw [negatives, literals, List.filter_map]
    rfl

theorem CopyOf.isDefinite {copy : Clause} (isCopy : copy.CopyOf c) (definite : c.isDefinite) :
    copy.isDefinite := by
  obtain ⟨_, _, positives, _⟩ := isCopy.exists_sides
  rw [Clause.isDefinite, positives, List.length_map]
  exact definite

/-- A definite clause holds when its head does as soon as its body does. -/
theorem holdsIn_iff_of_isDefinite (definite : c.isDefinite) (isHead : head ∈ c.positives) :
    c.holdsIn meaning values ↔
      ((∀ l ∈ c.negatives, l.atom.holdsIn meaning values) → head.atom.holdsIn meaning values) := by
  have affirms : ∀ {l : Literal}, l ∈ c.positives →
      (l.holdsIn meaning values ↔ l.atom.holdsIn meaning values) := by
    intro l isPositive
    rw [Literal.holdsIn, of_decide_eq_true (List.mem_filter.1 isPositive).2]
  have denies : ∀ {l : Literal}, l ∈ c.negatives →
      (l.holdsIn meaning values ↔ ¬ l.atom.holdsIn meaning values) := by
    intro l isNegative
    rw [Literal.holdsIn, of_decide_eq_true (List.mem_filter.1 isNegative).2]
  constructor
  · rintro ⟨l, member, holds⟩ body
    rcases mem_positives_or_negatives member with isPositive | isNegative
    · rw [← eq_of_isDefinite definite isHead isPositive]
      exact (affirms isPositive).1 holds
    · exact absurd (body l isNegative) ((denies isNegative).1 holds)
  · intro implied
    by_cases body : ∀ l ∈ c.negatives, l.atom.holdsIn meaning values
    · exact ⟨head, List.mem_of_mem_filter isHead, (affirms isHead).2 (implied body)⟩
    · push Not at body
      obtain ⟨l, isNegative, fails⟩ := body
      exact ⟨l, List.mem_of_mem_filter isNegative, (denies isNegative).2 fails⟩

/-- Every variable of the head stands in the body too. -/
def IsRangeRestricted (c : Clause) : Prop :=
  ∀ head ∈ c.positives, ∀ v ∈ head.occurrences, ∃ l ∈ c.negatives, v ∈ l.occurrences

instance (c : Clause) : Decidable c.IsRangeRestricted :=
  inferInstanceAs (Decidable
    (∀ head ∈ c.positives, ∀ v ∈ head.occurrences, ∃ l ∈ c.negatives, v ∈ l.occurrences))

theorem CopyOf.isRangeRestricted {copy : Clause} (isCopy : copy.CopyOf c)
    (restricted : c.IsRangeRestricted) : copy.IsRangeRestricted := by
  obtain ⟨forward, _, positives, negatives, _⟩ := isCopy.exists_sides
  intro head isHead v occurs
  rw [positives] at isHead
  obtain ⟨original, isOriginal, rfl⟩ := List.mem_map.1 isHead
  obtain ⟨w, inHead, here⟩ := Atom.mem_occurrences_replace.1 occurs
  obtain ⟨l, isBody, inBody⟩ := restricted original isOriginal w inHead
  refine ⟨l.replace forward, negatives ▸ List.mem_map_of_mem isBody, ?_⟩
  exact Atom.mem_occurrences_replace.2 ⟨w, inBody, here⟩

end Clause

/-! ### Ground terms and atoms -/

namespace Term

theorem allGround_iff {ts : List Term} : allGround ts ↔ ∀ t ∈ ts, t.isGround := by
  induction ts with
  | nil => exact ⟨fun _ _ absent => absurd absent List.not_mem_nil, fun _ => rfl⟩
  | cons t ts inductionHypothesis =>
    rw [allGround, Bool.and_eq_true, inductionHypothesis, List.forall_mem_cons]

/-- A term is ground when no variable stands in it. -/
theorem isGround_iff {t : Term} : t.isGround ↔ ∀ v, v ∉ t.occurrences := by
  induction t with
  | constant name => exact ⟨fun _ _ => List.not_mem_nil, fun _ => rfl⟩
  | var v =>
    refine ⟨fun ground => absurd ground Bool.false_ne_true, fun none => ?_⟩
    exact absurd (List.mem_singleton_self v) (none v)
  | app function ts inductionHypothesis =>
    rw [isGround, allGround_iff]
    constructor
    · intro ground v occurs
      obtain ⟨t, member, here⟩ := mem_occurrencesList.1 occurs
      exact (inductionHypothesis t member).1 (ground t member) v here
    · intro none t member
      exact (inductionHypothesis t member).2 fun v here =>
        none v (mem_occurrencesList.2 ⟨t, member, here⟩)

end Term

namespace Atom

variable {a : Atom} {value : Variable → Term}

theorem isGround_iff : a.isGround ↔ ∀ v, v ∉ a.occurrences := by
  rw [isGround, Term.allGround_iff]
  constructor
  · intro ground v occurs
    obtain ⟨t, member, here⟩ := Term.mem_occurrencesList.1 occurs
    exact Term.isGround_iff.1 (ground t member) v here
  · exact fun none t member => Term.isGround_iff.2 fun v here =>
      none v (Term.mem_occurrencesList.2 ⟨t, member, here⟩)

/-- A replacement makes an atom ground when it puts ground terms in the place of its variables. -/
theorem isGround_replace :
    (a.replace value).isGround ↔ ∀ v ∈ a.occurrences, (value v).isGround := by
  simp only [isGround_iff, Term.isGround_iff, mem_occurrences_replace, not_exists, not_and]
  exact ⟨fun none v occurs w => none w v occurs, fun none w v occurs => none v occurs w⟩

/-- Nothing is replaced in a ground atom. -/
theorem replace_of_isGround (ground : a.isGround) (value : Variable → Term) :
    a.replace value = a :=
  replace_eq_self fun v occurs => absurd occurs (isGround_iff.1 ground v)

end Atom

/-- Nothing is replaced in a ground literal. -/
theorem Literal.replace_of_isGround {l : Literal} (ground : l.atom.isGround)
    (value : Variable → Term) : l.replace value = l := by
  rw [replace, Atom.replace_of_isGround ground]

/-! ### Herbrand interpretations -/

/-- A term without variables. -/
def GroundTerm : Type :=
  { t : Term // t.isGround }

/-- The interpretation over ground terms in which the given atoms hold and every term is its own
value. -/
def Interpretation.herbrand (atoms : Set Atom) : Interpretation (ULift.{u} GroundTerm) where
  constant name := ⟨⟨.constant name, rfl⟩⟩
  function name ts := ⟨⟨.app name (ts.map fun t => t.down.val),
    Term.allGround_iff.2 fun t member => by
      obtain ⟨argument, _, rfl⟩ := List.mem_map.1 member
      exact argument.down.property⟩⟩
  predicate name ts := .predicate name (ts.map fun t => t.down.val) ∈ atoms
  equality left right := .equality left.down.val right.down.val ∈ atoms

section Herbrand

variable {atoms : Set Atom}

theorem Term.valueIn_herbrand (atoms : Set Atom) (values : Assignment (ULift.{u} GroundTerm))
    (t : Term) :
    (t.valueIn (.herbrand atoms) values).down.val = t.replace fun v => (values v).down.val := by
  induction t with
  | constant name => rfl
  | var v => rfl
  | app function ts inductionHypothesis =>
    have arguments : (valuesIn (.herbrand atoms) values ts).map (fun t => t.down.val) =
        replaceList (fun v => (values v).down.val) ts := by
      rw [valuesIn_eq_map, replaceList_eq_map, List.map_map]
      exact List.map_congr_left inductionHypothesis
    rw [replace, ← arguments]
    rfl

theorem Term.valuesIn_herbrand (atoms : Set Atom) (values : Assignment (ULift.{u} GroundTerm))
    (ts : List Term) :
    (valuesIn (.herbrand atoms) values ts).map (fun t => t.down.val) =
      replaceList (fun v => (values v).down.val) ts := by
  rw [valuesIn_eq_map, replaceList_eq_map, List.map_map]
  exact List.map_congr_left fun t _ => t.valueIn_herbrand atoms values

/-- An atom holds when its instance is one of the atoms. -/
theorem Atom.holdsIn_herbrand (values : Assignment (ULift.{u} GroundTerm)) (a : Atom) :
    a.holdsIn (.herbrand atoms) values ↔ a.replace (fun v => (values v).down.val) ∈ atoms := by
  cases a with
  | predicate name ts =>
    rw [replace, ← Term.valuesIn_herbrand atoms values ts]
    rfl
  | equality left right =>
    rw [replace, ← Term.valueIn_herbrand atoms values left,
      ← Term.valueIn_herbrand atoms values right]
    rfl

/-- A ground atom is valid when it is one of the atoms. -/
theorem Atom.validIn_herbrand_iff {a : Atom} (ground : a.isGround) :
    (Sentence.atom a).ValidIn (Interpretation.herbrand.{u} atoms) ↔ a ∈ atoms := by
  have instances : ∀ values : Assignment (ULift.{u} GroundTerm),
      a.holdsIn (.herbrand atoms) values ↔ a ∈ atoms := by
    intro values
    rw [holdsIn_herbrand, replace_of_isGround ground]
  exact ⟨fun valid => (instances _).1 (valid fun _ => ⟨⟨.constant "", rfl⟩⟩),
    fun inside values => (instances values).2 inside⟩

/-- A definite clause is valid when the atoms have the head of every ground instance of which they
have the body. -/
theorem Clause.validIn_herbrand_iff {c : Clause} (definite : c.isDefinite) {head : Literal}
    (isHead : head ∈ c.positives) :
    c.ValidIn (Interpretation.herbrand.{u} atoms) ↔
      ∀ value : Variable → Term, (∀ v, (value v).isGround) →
        (∀ l ∈ c.negatives, l.atom.replace value ∈ atoms) → head.atom.replace value ∈ atoms := by
  simp only [ValidIn, holdsIn_iff_of_isDefinite definite isHead, Atom.holdsIn_herbrand]
  exact ⟨fun valid value ground => valid fun v => ⟨⟨value v, ground v⟩⟩,
    fun closed values => closed _ fun v => (values v).down.property⟩

/-! ### The least Herbrand model -/

/-- The ground atoms that are in every Herbrand model of clauses. -/
def leastHerbrandModel (cs : List Clause) : Set Atom :=
  { a | a.isGround ∧
    ∀ atoms : Set Atom, (∀ c ∈ cs, c.ValidIn (Interpretation.herbrand.{0} atoms)) → a ∈ atoms }

variable {cs : List Clause}

/-- A Herbrand model that is inside every Herbrand model is the least one. -/
theorem eq_leastHerbrandModel
    (model : ∀ c ∈ cs, c.ValidIn (Interpretation.herbrand.{0} atoms))
    (least : atoms ⊆ leastHerbrandModel cs) : atoms = leastHerbrandModel cs :=
  Set.Subset.antisymm least fun _ inside => inside.2 atoms model

end Herbrand

end ClausalReasoner
