/-
This file says which symbols stand in an expression and which a vocabulary knows. A name is a
different symbol as a constant, as a function and as a predicate; the equality sign is none. What
is built from expressions by replacing variables has no symbols but theirs, which is how the
symbols of everything that is ever derived are traced back to what was told.
-/

import ClausalReasoner.Proofs.SolvedForm
import ClausalReasoner.Clause

namespace ClausalReasoner

/-! ### The symbols of expressions -/

/-- A symbol is a name together with the kind of use that is made of it. -/
inductive Symbol where
  | constant (name : String)
  | function (name : String)
  | predicate (name : String)
  deriving DecidableEq, Repr

namespace Term

mutual

/-- The symbols of a term, one entry for each place where one stands. -/
def symbols : Term → List Symbol
  | .constant name => [.constant name]
  | .var _ => []
  | .app function ts => .function function :: symbolsList ts

/-- The symbols of the terms of a list. -/
def symbolsList : List Term → List Symbol
  | [] => []
  | t :: ts => symbols t ++ symbolsList ts

end

theorem mem_symbolsList {symbol : Symbol} {ts : List Term} :
    symbol ∈ symbolsList ts ↔ ∃ t ∈ ts, symbol ∈ t.symbols := by
  induction ts with
  | nil => simp [symbolsList]
  | cons t ts inductionHypothesis => simp [symbolsList, inductionHypothesis]

/-- A replacement brings in the symbols of what it puts in the place of the variables. -/
theorem mem_symbols_replace {value : Variable → Term} {symbol : Symbol} {t : Term} :
    symbol ∈ (t.replace value).symbols ↔
      symbol ∈ t.symbols ∨ ∃ v ∈ t.occurrences, symbol ∈ (value v).symbols := by
  induction t with
  | constant name => simp [replace, symbols, occurrences]
  | var v => simp [replace, symbols, occurrences]
  | app function ts inductionHypothesis =>
    simp only [replace, symbols, occurrences, replaceList_eq_map, List.mem_cons, mem_symbolsList,
      mem_occurrencesList, List.mem_map]
    constructor
    · rintro (head | ⟨_, ⟨t, member, rfl⟩, inside⟩)
      · exact Or.inl (Or.inl head)
      · rcases (inductionHypothesis t member).1 inside with own | ⟨v, occurs, new⟩
        · exact Or.inl (Or.inr ⟨t, member, own⟩)
        · exact Or.inr ⟨v, ⟨t, member, occurs⟩, new⟩
    · rintro ((head | ⟨t, member, own⟩) | ⟨v, ⟨t, member, occurs⟩, new⟩)
      · exact Or.inl head
      · exact Or.inr ⟨_, ⟨t, member, rfl⟩, (inductionHypothesis t member).2 (Or.inl own)⟩
      · exact Or.inr ⟨_, ⟨t, member, rfl⟩,
          (inductionHypothesis t member).2 (Or.inr ⟨v, occurs, new⟩)⟩

theorem mem_symbolsList_replaceList {value : Variable → Term} {symbol : Symbol}
    {ts : List Term} : symbol ∈ symbolsList (replaceList value ts) ↔
      symbol ∈ symbolsList ts ∨ ∃ v ∈ occurrencesList ts, symbol ∈ (value v).symbols := by
  simp only [replaceList_eq_map, mem_symbolsList, mem_occurrencesList, List.mem_map]
  constructor
  · rintro ⟨_, ⟨t, member, rfl⟩, inside⟩
    rcases mem_symbols_replace.1 inside with own | ⟨v, occurs, new⟩
    · exact Or.inl ⟨t, member, own⟩
    · exact Or.inr ⟨v, ⟨t, member, occurs⟩, new⟩
  · rintro (⟨t, member, own⟩ | ⟨v, ⟨t, member, occurs⟩, new⟩)
    · exact ⟨_, ⟨t, member, rfl⟩, mem_symbols_replace.2 (Or.inl own)⟩
    · exact ⟨_, ⟨t, member, rfl⟩, mem_symbols_replace.2 (Or.inr ⟨v, occurs, new⟩)⟩

end Term

namespace Atom

/-- The predicate symbol of an atom. An equality has none. -/
def predicateSymbols : Atom → List Symbol
  | .predicate name _ => [.predicate name]
  | .equality _ _ => []

/-- The symbols of an atom. -/
def symbols (a : Atom) : List Symbol :=
  a.predicateSymbols ++ Term.symbolsList a.arguments

theorem mem_symbols_replace {value : Variable → Term} {symbol : Symbol} {a : Atom} :
    symbol ∈ (a.replace value).symbols ↔
      symbol ∈ a.symbols ∨ ∃ v ∈ a.occurrences, symbol ∈ (value v).symbols := by
  have head : (a.replace value).predicateSymbols = a.predicateSymbols := by
    cases a <;> rfl
  rw [symbols, symbols, List.mem_append, List.mem_append, head, arguments_replace,
    Term.mem_symbolsList_replaceList, occurrences, or_assoc]

end Atom

/-- The symbols of a literal are those of its atom. -/
def Literal.symbols (l : Literal) : List Symbol :=
  l.atom.symbols

/-- The symbols of a clause. -/
def Clause.symbols (c : Clause) : List Symbol :=
  c.literals.flatMap Literal.symbols

theorem Clause.mem_symbols {symbol : Symbol} {c : Clause} :
    symbol ∈ c.symbols ↔ ∃ l ∈ c.literals, symbol ∈ l.symbols :=
  List.mem_flatMap

/-- The symbols of a sentence. -/
def Sentence.symbols : Sentence → List Symbol
  | .atom a => a.symbols
  | .negation body => body.symbols
  | .connected _ left right => left.symbols ++ right.symbols
  | .quantified _ _ body => body.symbols

/-! ### Expressions built from given variables and symbols -/

variable {allowed : Variable → Prop} {known : Symbol → Prop}

/-- The variables and the symbols of a term are among the given ones. -/
def Term.BuiltFrom (allowed : Variable → Prop) (known : Symbol → Prop) (t : Term) : Prop :=
  (∀ v ∈ t.occurrences, allowed v) ∧ ∀ symbol ∈ t.symbols, known symbol

namespace Term.BuiltFrom

theorem arguments {function : String} {ts : List Term}
    (built : (Term.app function ts).BuiltFrom allowed known) :
    ∀ t ∈ ts, t.BuiltFrom allowed known := fun t member =>
  ⟨fun v occurs => built.1 v (mem_occurrencesList.2 ⟨t, member, occurs⟩), fun symbol inside =>
    built.2 symbol (List.mem_cons_of_mem _ (mem_symbolsList.2 ⟨t, member, inside⟩))⟩

theorem replace {t : Term} {value : Variable → Term} (built : t.BuiltFrom allowed known)
    (values : ∀ v ∈ t.occurrences, (value v).BuiltFrom allowed known) :
    (t.replace value).BuiltFrom allowed known := by
  refine ⟨fun w occurs => ?_, fun symbol inside => ?_⟩
  · obtain ⟨v, here, there⟩ := mem_occurrences_replace.1 occurs
    exact (values v here).1 w there
  · rcases mem_symbols_replace.1 inside with own | ⟨v, here, new⟩
    · exact built.2 symbol own
    · exact (values v here).2 symbol new

theorem ofVariable {v : Variable} (inside : allowed v) :
    (Term.var v).BuiltFrom allowed known :=
  ⟨fun _ occurs => List.mem_singleton.1 occurs ▸ inside, fun _ absent =>
    absurd absent List.not_mem_nil⟩

end Term.BuiltFrom

namespace Substitution

/-- The bound variables are among the given ones, and their terms are built from the given
variables and symbols. -/
def BuiltFrom (allowed : Variable → Prop) (known : Symbol → Prop) (σ : Substitution) : Prop :=
  ∀ entry ∈ σ.bindings, allowed entry.1 ∧ entry.2.BuiltFrom allowed known

theorem builtFrom_empty : (∅ : Substitution).BuiltFrom allowed known :=
  fun _ member => absurd member List.not_mem_nil

namespace BuiltFrom

variable {σ : Substitution}

theorem value (built : σ.BuiltFrom allowed known) {v : Variable} (inside : allowed v) :
    (σ.value v).BuiltFrom allowed known := by
  cases bound : σ.get? v with
  | none =>
    rw [value_of_get?_none bound]
    exact .ofVariable inside
  | some t =>
    rw [value_of_get?_some bound]
    exact (built _ (mem_of_lookup bound)).2

theorem substitute (built : σ.BuiltFrom allowed known) {t : Term}
    (term : t.BuiltFrom allowed known) : (t.substitute σ).BuiltFrom allowed known :=
  term.replace fun v occurs => built.value (term.1 v occurs)

theorem insert (built : σ.BuiltFrom allowed known) {v : Variable} {t : Term}
    (inside : allowed v) (term : t.BuiltFrom allowed known) :
    (σ.insert v t).BuiltFrom allowed known := by
  intro entry member
  rcases mem_place member with rfl | older
  · exact ⟨inside, term⟩
  · exact built entry older

theorem mapRange (built : σ.BuiltFrom allowed known) {change : Term → Term}
    (changed : ∀ t : Term, t.BuiltFrom allowed known →
      (change t).BuiltFrom allowed known) :
    (σ.mapRange change).BuiltFrom allowed known := by
  intro entry member
  obtain ⟨old, older, rfl⟩ := List.mem_map.1 member
  exact ⟨(built old older).1, changed _ (built old older).2⟩

theorem cascade (built : σ.BuiltFrom allowed known) :
    σ.cascade.BuiltFrom allowed known := by
  have within : ∀ (rounds : Nat) (σ : Substitution), σ.BuiltFrom allowed known →
      (cascadeWithin rounds σ).BuiltFrom allowed known := by
    intro rounds
    induction rounds with
    | zero => exact fun σ built => built
    | succ rounds inductionHypothesis =>
      intro σ built
      rw [cascadeWithin]
      split
      · exact built
      · exact inductionHypothesis _ (built.mapRange fun _ term => built.substitute term)
  exact within _ σ built

theorem bind (built : σ.BuiltFrom allowed known) {v : Variable} {t : Term}
    (inside : allowed v) (term : t.BuiltFrom allowed known) :
    (σ.bind v t).BuiltFrom allowed known :=
  (built.insert inside term).cascade

theorem adjoin (built : σ.BuiltFrom allowed known) {later : Substitution}
    (builtLater : later.BuiltFrom allowed known) :
    (σ.adjoin later).BuiltFrom allowed known := by
  have joined : ∀ (entries : List (Variable × Term)) (joined : Substitution),
      (∀ entry ∈ entries, allowed entry.1 ∧ entry.2.BuiltFrom allowed known) →
      joined.BuiltFrom allowed known →
      (entries.foldl (fun joined entry =>
        if σ.binds entry.1 then joined else joined.insert entry.1 entry.2) joined).BuiltFrom
          allowed known := by
    intro entries
    induction entries with
    | nil => exact fun joined _ built => built
    | cons entry rest inductionHypothesis =>
      intro joined each built
      refine inductionHypothesis _ (fun other member =>
        each other (List.mem_cons_of_mem _ member)) ?_
      beta_reduce
      split
      · exact built
      · have first := each entry List.mem_cons_self
        exact built.insert first.1 first.2
  exact joined later.bindings σ builtLater built

theorem compose (built : σ.BuiltFrom allowed known) {later : Substitution}
    (builtLater : later.BuiltFrom allowed known) :
    (σ.compose later).BuiltFrom allowed known :=
  ((built.mapRange fun _ term => builtLater.substitute term).adjoin builtLater).cascade

end BuiltFrom

end Substitution

/-! ### The symbols that a vocabulary knows -/

namespace Vocabulary

/-- Whether a vocabulary knows a symbol. -/
def knows (voc : Vocabulary) : Symbol → Bool
  | .constant name => voc.isConstant name
  | .function name => voc.isFunction name
  | .predicate name => voc.isPredicate name

end Vocabulary

end ClausalReasoner
