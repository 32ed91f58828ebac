/-
This file shows that positions address subterms faithfully. The positions that are listed are those at
which something can be read, each once and in lexicographic order; the positions that stop at variables
are left out of the other list and nothing else is, because only applications are passed on the way.
What was written at a position is read there, and a position that branches off from it reads what it
read before. A position that leaves the term writes nothing.

An atom is read like an application of its arguments, below the root. That is how everything said of
terms is carried over to atoms.
-/

import ClausalReasoner.Position.Walking
import ClausalReasoner.Proofs.Replacement
import Mathlib.Data.List.Lex

namespace ClausalReasoner

variable {enter : Term → Bool} {position other : Position} {new subterm : Term}

namespace Term

variable {t : Term} {ts : List Term} {function : String} {number : Nat}

/-! ### The positions of a term -/

/-- A position in a list of terms begins with the number of a term and goes on in it. -/
theorem mem_positionsWhereFrom : position ∈ positionsWhereFrom enter number ts ↔
    ∃ index rest t, position = (number + index) :: rest ∧ ts[index]? = some t ∧
      rest ∈ positionsWhere enter t := by
  induction ts generalizing number with
  | nil => simp [positionsWhereFrom]
  | cons first ts inductionHypothesis =>
    rw [positionsWhereFrom, List.mem_append, List.mem_map, inductionHypothesis]
    constructor
    · rintro (⟨rest, inside, rfl⟩ | ⟨index, rest, t, rfl, there, inside⟩)
      · exact ⟨0, rest, first, rfl, rfl, inside⟩
      · exact ⟨index + 1, rest, t, by rw [Nat.add_assoc, Nat.add_comm 1], there, inside⟩
    · rintro ⟨index, rest, t, rfl, there, inside⟩
      cases index with
      | zero => exact Or.inl ⟨rest, Option.some.inj there ▸ inside, rfl⟩
      | succ index =>
        exact Or.inr ⟨index, rest, t, by rw [Nat.add_assoc, Nat.add_comm 1], there, inside⟩

/-- When a walk enters every application, the positions where it stops are those of the subterms that
it may enter. -/
theorem mem_positionsWhere (enters : ∀ function ts, enter (.app function ts)) :
    position ∈ positionsWhere enter t ↔ ∃ subterm, t.at? position = some subterm ∧ enter subterm := by
  induction t generalizing position with
  | constant name => cases position <;> simp [positionsWhere, at?, arguments]
  | var v => cases position <;> simp [positionsWhere, at?, arguments]
  | app function ts inductionHypothesis =>
    rw [positionsWhere, if_pos (enters function ts), List.mem_cons, mem_positionsWhereFrom]
    cases position with
    | nil => exact iff_of_true (Or.inl rfl) ⟨_, rfl, enters function ts⟩
    | cons step rest =>
      constructor
      · rintro (isNil | ⟨index, rest', t, same, there, inside⟩)
        · exact absurd isNil nofun
        · obtain ⟨rfl, rfl⟩ := List.cons.inj same
          obtain ⟨subterm, read, entered⟩ :=
            (inductionHypothesis t (List.mem_of_getElem? there)).1 inside
          rw [Nat.zero_add]
          exact ⟨subterm, Option.bind_eq_some_iff.2 ⟨t, there, read⟩, entered⟩
      · rintro ⟨subterm, read, entered⟩
        obtain ⟨t, there, below⟩ := Option.bind_eq_some_iff.1 read
        exact Or.inr ⟨step, rest, t, by rw [Nat.zero_add], there,
          (inductionHypothesis t (List.mem_of_getElem? there)).2 ⟨subterm, below, entered⟩⟩

/-- Positions in the terms of a list are in lexicographic order when those in each term are. -/
theorem pairwise_positionsWhereFrom
    (each : ∀ t ∈ ts, (positionsWhere enter t).Pairwise (· < ·)) :
    (positionsWhereFrom enter number ts).Pairwise (· < ·) := by
  induction ts generalizing number with
  | nil => exact .nil
  | cons first ts inductionHypothesis =>
    obtain ⟨here, later⟩ := List.forall_mem_cons.1 each
    rw [positionsWhereFrom, List.pairwise_append, List.pairwise_map]
    refine ⟨here.imp fun less => List.cons_lt_cons_self.2 less, inductionHypothesis later, ?_⟩
    intro position inside other among
    obtain ⟨rest, _, rfl⟩ := List.mem_map.1 inside
    obtain ⟨index, rest, t, rfl, _, _⟩ := mem_positionsWhereFrom.1 among
    exact List.cons_lt_cons_iff.2 (Or.inl (by omega))

/-- The positions of a term are in lexicographic order, and so none of them comes twice. -/
theorem pairwise_positionsWhere (t : Term) : (positionsWhere enter t).Pairwise (· < ·) := by
  induction t with
  | constant name => rw [positionsWhere]; split <;> simp
  | var v => rw [positionsWhere]; split <;> simp
  | app function ts inductionHypothesis =>
    rw [positionsWhere]
    split
    · refine List.pairwise_cons.2 ⟨fun position inside => ?_,
        pairwise_positionsWhereFrom inductionHypothesis⟩
      obtain ⟨index, rest, t, rfl, _, _⟩ := mem_positionsWhereFrom.1 inside
      exact List.nil_lt_cons _ _
    · exact .nil

/-! ### Reading what was written -/

/-- Below the root one reads in an argument. -/
theorem at?_app_cons {step : Nat} {rest : Position} :
    (app function ts).at? (step :: rest) = ts[step]?.bind fun t => t.at? rest := rfl

theorem at?_replaceAt_self (there : t.at? position = some subterm) :
    (replaceAt new position t).at? position = some new := by
  induction position generalizing t with
  | nil => rfl
  | cons step rest inductionHypothesis =>
    obtain ⟨argument, inside, below⟩ := Option.bind_eq_some_iff.1 there
    cases t with
    | constant name => exact absurd inside nofun
    | var v => exact absurd inside nofun
    | app function ts =>
      have isArgument : ts[step]? = some argument := inside
      rw [replaceAt, at?_app_cons, List.getElem?_modify_eq, isArgument]
      exact inductionHypothesis below

/-- A position that branches off from the one that was written at reads what it read before. -/
theorem at?_replaceAt_of_apart (notBelow : ¬ position <+: other) (notAbove : ¬ other <+: position) :
    (replaceAt new position t).at? other = t.at? other := by
  induction position generalizing t other with
  | nil => exact absurd List.nil_prefix notBelow
  | cons step rest inductionHypothesis =>
    cases other with
    | nil => exact absurd List.nil_prefix notAbove
    | cons otherStep otherRest =>
      cases t with
      | constant name => rfl
      | var v => rfl
      | app function ts =>
        rw [replaceAt, at?_app_cons, at?_app_cons, List.getElem?_modify]
        by_cases same : step = otherStep
        · subst same
          have further : ∀ t : Term, (replaceAt new rest t).at? otherRest = t.at? otherRest :=
            fun t => inductionHypothesis
              (fun below => notBelow (List.cons_prefix_cons.2 ⟨rfl, below⟩))
              (fun above => notAbove (List.cons_prefix_cons.2 ⟨rfl, above⟩))
          cases ts[step]? <;> simp [further]
        · simp [same]

/-- A position that leaves the term writes nothing. -/
theorem replaceAt_eq_self (outside : t.at? position = none) : replaceAt new position t = t := by
  induction position generalizing t with
  | nil => exact absurd outside nofun
  | cons step rest inductionHypothesis =>
    cases t with
    | constant name => rfl
    | var v => rfl
    | app function ts =>
      rw [at?_app_cons, Option.bind_eq_none_iff] at outside
      rw [replaceAt]
      congr 1
      refine List.ext_getElem? fun index => ?_
      rw [List.getElem?_modify]
      by_cases same : step = index
      · subst same
        cases there : ts[step]? with
        | none => rfl
        | some argument => simp [inductionHypothesis (outside argument there)]
      · simp [same]

/-! ### Walking -/

/-- Following a position step by step comes to the subterm there. -/
theorem follow_eq (t : Term) (position : Position) : t.follow position = t.at? position := by
  induction position generalizing t with
  | nil => rfl
  | cons step rest inductionHypothesis =>
    rw [follow, List.foldlM_cons]
    exact congrArg (t.arguments[step]?.bind) (funext inductionHypothesis)

/-- A walk through the terms of a list comes back to where it began and notes down their positions,
when the walks through each of them do so. -/
theorem walkThroughFrom_eq
    (each : ∀ t ∈ ts, ∀ walk : Walk, walkThrough enter t walk =
      ⟨walk.path, walk.noted ++ (positionsWhere enter t).map (walk.path ++ ·)⟩) (walk : Walk) :
    walkThroughFrom enter number ts walk =
      ⟨walk.path, walk.noted ++ (positionsWhereFrom enter number ts).map (walk.path ++ ·)⟩ := by
  induction ts generalizing number walk with
  | nil => simp [walkThroughFrom, positionsWhereFrom]
  | cons first ts inductionHypothesis =>
    obtain ⟨here, later⟩ := List.forall_mem_cons.1 each
    rw [walkThroughFrom, here, inductionHypothesis later, positionsWhereFrom]
    simp [Walk.descend, Walk.ascend, Function.comp_def]

/-- A walk through a term comes back to where it began and notes down the positions of the term. -/
theorem walkThrough_eq (t : Term) (walk : Walk) : walkThrough enter t walk =
    ⟨walk.path, walk.noted ++ (positionsWhere enter t).map (walk.path ++ ·)⟩ := by
  induction t generalizing walk with
  | constant name => rw [walkThrough, positionsWhere]; split <;> simp [Walk.note]
  | var v => rw [walkThrough, positionsWhere]; split <;> simp [Walk.note]
  | app function ts inductionHypothesis =>
    rw [walkThrough, positionsWhere]
    split
    · rw [walkThroughFrom_eq inductionHypothesis]
      simp [Walk.note]
    · simp

theorem walkedPositions_eq (t : Term) : t.walkedPositions enter = t.positionsWhere enter := by
  rw [walkedPositions, walkThrough_eq]
  simp

/-- The positions noted down in each of several terms, with the number of the term before them, are
the positions in the list of the terms. -/
theorem flatMap_walkedPositions_eq (ts : List Term) (number : Nat) :
    (ts.zipIdx number).flatMap (fun (t, number) => (t.walkedPositions enter).map (number :: ·)) =
      positionsWhereFrom enter number ts := by
  induction ts generalizing number with
  | nil => rfl
  | cons first ts inductionHypothesis =>
    rw [List.zipIdx_cons, List.flatMap_cons, inductionHypothesis, positionsWhereFrom]
    exact congrArg (List.map (number :: ·) · ++ _) first.walkedPositions_eq

end Term

namespace Atom

variable {a : Atom}

/-! ### Atoms -/

/-- Below the root an atom is read like an application. -/
theorem at?_cons (function : String) {argument : Nat} {rest : Position} :
    a.at? (argument :: rest) = (Term.app function a.arguments).at? (argument :: rest) := rfl

/-- What is written in an atom is written in an application. -/
theorem app_replaceAt (function : String) {argument : Nat} {rest : Position} :
    Term.app function (a.replaceAt new (argument :: rest)).arguments =
      Term.replaceAt new (argument :: rest) (.app function a.arguments) := by
  rw [replaceAt, arguments_withArguments (List.length_modify _ _ _), Term.replaceAt]

theorem withArguments_arguments (a : Atom) : a.withArguments a.arguments = a := by
  cases a <;> rfl

theorem mem_positionsWhereFrom (enters : ∀ function ts, enter (.app function ts)) :
    position ∈ Term.positionsWhereFrom enter 0 a.arguments ↔
      ∃ subterm, a.at? position = some subterm ∧ enter subterm := by
  cases position with
  | nil =>
    refine iff_of_false (fun inside => ?_) fun ⟨_, read, _⟩ => absurd read nofun
    obtain ⟨_, _, _, same, _⟩ := Term.mem_positionsWhereFrom.1 inside
    exact absurd same nofun
  | cons argument rest =>
    have asTerm : argument :: rest ∈ Term.positionsWhere enter (.app a.symbol a.arguments) ↔ _ :=
      Term.mem_positionsWhere enters
    rw [Term.positionsWhere, if_pos (enters _ _), List.mem_cons] at asTerm
    rw [at?_cons a.symbol, ← asTerm, or_iff_right nofun]

theorem at?_replaceAt_self (there : a.at? position = some subterm) :
    (a.replaceAt new position).at? position = some new := by
  cases position with
  | nil => exact absurd there nofun
  | cons argument rest =>
    rw [at?_cons a.symbol, app_replaceAt]
    exact Term.at?_replaceAt_self there

theorem at?_replaceAt_of_apart (notBelow : ¬ position <+: other) (notAbove : ¬ other <+: position) :
    (a.replaceAt new position).at? other = a.at? other := by
  cases position with
  | nil => exact absurd List.nil_prefix notBelow
  | cons argument rest =>
    cases other with
    | nil => rfl
    | cons otherArgument otherRest =>
      rw [at?_cons a.symbol, app_replaceAt]
      exact Term.at?_replaceAt_of_apart notBelow notAbove

theorem replaceAt_eq_self (outside : a.at? position = none) : a.replaceAt new position = a := by
  cases position with
  | nil => rfl
  | cons argument rest =>
    have unchanged : Term.replaceAt new (argument :: rest) (.app a.symbol a.arguments) =
        .app a.symbol a.arguments := Term.replaceAt_eq_self outside
    rw [Term.replaceAt] at unchanged
    rw [replaceAt, (Term.app.inj unchanged).2, withArguments_arguments]

theorem follow_eq (a : Atom) (position : Position) : a.follow position = a.at? position := by
  cases position with
  | nil => rfl
  | cons argument rest =>
    exact congrArg (a.arguments[argument]?.bind) (funext fun t => t.follow_eq rest)

end Atom

/-! ### Faithful positions -/

/-- What it takes for positions to address the subterms of an expression: how the expression is read
and written at a position fits the positions of all subterms, and those of the subterms that are no
variables. -/
structure AddressesSubterms {Expression : Type} (e : Expression)
    (read : Expression → Position → Option Term) (write : Term → Position → Expression → Expression)
    (all nonVariable : List Position) : Prop where
  mem_all_iff : ∀ position, position ∈ all ↔ (read e position).isSome
  mem_nonVariable_iff : ∀ position, position ∈ nonVariable ↔
    ∃ subterm, read e position = some subterm ∧ subterm.isVariable = false
  ordered_all : all.Pairwise (· < ·)
  ordered_nonVariable : nonVariable.Pairwise (· < ·)
  read_written : ∀ position ∈ all, ∀ new, read (write new position e) position = some new
  read_apart : ∀ position ∈ all, ∀ new other, ¬ position <+: other → ¬ other <+: position →
    read (write new position e) other = read e other
  write_outside : ∀ position, read e position = none → ∀ new, write new position e = e

theorem Term.addressesSubterms (t : Term) :
    AddressesSubterms t Term.at? Term.replaceAt t.positions t.nonVariablePositions where
  mem_all_iff _ := (mem_positionsWhere fun _ _ => rfl).trans (by simp [Option.isSome_iff_exists])
  mem_nonVariable_iff _ := (mem_positionsWhere fun _ _ => rfl).trans (by simp)
  ordered_all := t.pairwise_positionsWhere
  ordered_nonVariable := t.pairwise_positionsWhere
  read_written position inside new := by
    obtain ⟨subterm, there, _⟩ := (mem_positionsWhere fun _ _ => rfl).1 inside
    exact at?_replaceAt_self there
  read_apart _ _ _ _ := at?_replaceAt_of_apart
  write_outside _ outside _ := replaceAt_eq_self outside

theorem Atom.addressesSubterms (a : Atom) :
    AddressesSubterms a Atom.at? Atom.replaceAt a.positions a.nonVariablePositions where
  mem_all_iff _ := (mem_positionsWhereFrom fun _ _ => rfl).trans (by simp [Option.isSome_iff_exists])
  mem_nonVariable_iff _ := (mem_positionsWhereFrom fun _ _ => rfl).trans (by simp)
  ordered_all := Term.pairwise_positionsWhereFrom fun t _ => t.pairwise_positionsWhere
  ordered_nonVariable := Term.pairwise_positionsWhereFrom fun t _ => t.pairwise_positionsWhere
  read_written position inside new := by
    obtain ⟨subterm, there, _⟩ := (mem_positionsWhereFrom fun _ _ => rfl).1 inside
    exact at?_replaceAt_self there
  read_apart _ _ _ _ := at?_replaceAt_of_apart
  write_outside _ outside _ := replaceAt_eq_self outside

/-- The positions of terms and of atoms address their subterms, and walking along a position and
through an expression reads and lists the same. -/
theorem positions_faithful :
    (∀ t : Term, AddressesSubterms t Term.at? Term.replaceAt t.positions t.nonVariablePositions ∧
      t.follow = t.at? ∧
      t.walkedPositions (fun _ => true) = t.positions ∧
      t.walkedPositions (fun subterm => !subterm.isVariable) = t.nonVariablePositions) ∧
    (∀ a : Atom, AddressesSubterms a Atom.at? Atom.replaceAt a.positions a.nonVariablePositions ∧
      a.follow = a.at? ∧
      a.walkedPositions (fun _ => true) = a.positions ∧
      a.walkedPositions (fun subterm => !subterm.isVariable) = a.nonVariablePositions) := by
  constructor
  · intro t
    exact ⟨t.addressesSubterms, funext t.follow_eq, t.walkedPositions_eq, t.walkedPositions_eq⟩
  · intro a
    exact ⟨a.addressesSubterms, funext a.follow_eq, Term.flatMap_walkedPositions_eq a.arguments 0,
      Term.flatMap_walkedPositions_eq a.arguments 0⟩

/-- `P(F(x, A), y, B)`. -/
def nestedAtom : Atom :=
  .predicate "P" [.app "F" [.var ⟨"x", none⟩, .constant "A"], .var ⟨"y", none⟩, .constant "B"]

/-- Writing in the place of `A` leaves `x` beside it alone, and below `y` nothing can be written. -/
theorem positions_faithful_nestedAtom :
    nestedAtom.walkedPositions (fun _ => true) = [[0], [0, 0], [0, 1], [1], [2]] ∧
      nestedAtom.walkedPositions (fun subterm => !subterm.isVariable) = [[0], [0, 1], [2]] ∧
      ∀ new, (nestedAtom.replaceAt new [0, 1]).follow [0, 1] = some new ∧
        (nestedAtom.replaceAt new [0, 1]).follow [0, 0] = some (.var ⟨"x", none⟩) ∧
        nestedAtom.replaceAt new [1, 0] = nestedAtom := by
  obtain ⟨-, atoms⟩ := positions_faithful
  obtain ⟨addressed, -, walked, walkedPastVariables⟩ := atoms nestedAtom
  refine ⟨walked.trans (by decide), walkedPastVariables.trans (by decide), fun new => ⟨?_, ?_, ?_⟩⟩
  · rw [(atoms _).2.1]
    exact addressed.read_written [0, 1] (by decide) new
  · rw [(atoms _).2.1]
    exact addressed.read_apart [0, 1] (by decide) new [0, 0] (by decide) (by decide)
  · exact addressed.write_outside [1, 0] rfl new

end ClausalReasoner
