/-
This file addresses the subterms of terms and atoms by positions. A position is the list of argument
numbers, counted from zero, that lead down to the subterm; the empty position is the term itself. An
atom is no term, so its positions begin with the number of an argument and are never empty.
-/

import ClausalReasoner.Term

namespace ClausalReasoner

/-- The argument numbers on the way down to a subterm. -/
abbrev Position := List Nat

namespace Term

/-- The subterm at a position, if the position does not leave the term. -/
def at? : Term → Position → Option Term
  | t, [] => some t
  | t, step :: rest => t.arguments[step]?.bind fun argument => argument.at? rest

/-- The term with the subterm at a position exchanged for another term. A position that leaves the
term changes nothing. -/
def replaceAt (new : Term) : Position → Term → Term
  | [], _ => new
  | step :: rest, .app function ts => .app function (ts.modify step (replaceAt new rest))
  | _ :: _, t => t

mutual

/-- The positions of the subterms of a term that satisfy the conditions `enter` on the way down, in
the order of reading. -/
def positionsWhere (enter : Term → Bool) : Term → List Position
  | .constant name => if enter (.constant name) then [[]] else []
  | .var v => if enter (.var v) then [[]] else []
  | .app function ts =>
    if enter (.app function ts) then [] :: positionsWhereFrom enter 0 ts else []

/-- The positions in the terms of a list, of which the first has the given number. -/
def positionsWhereFrom (enter : Term → Bool) (number : Nat) : List Term → List Position
  | [] => []
  | t :: ts =>
    (positionsWhere enter t).map (number :: ·) ++ positionsWhereFrom enter (number + 1) ts

end

/-- The positions of all subterms. -/
def positions (t : Term) : List Position :=
  t.positionsWhere fun _ => true

/-- The positions of the subterms that are no variables. -/
def nonVariablePositions (t : Term) : List Position :=
  t.positionsWhere fun subterm => !subterm.isVariable

/-! ### Searching for a subterm -/

mutual

/-- The position of the first subterm, in the order of reading, at which an attempt succeeds, with
what the attempt found. Subterms behind it are not looked at. -/
def search {Found : Type} (attempt : Term → Option Found) : Term → Option (Position × Found)
  | .constant name => (attempt (.constant name)).map fun found => ([], found)
  | .var v => (attempt (.var v)).map fun found => ([], found)
  | .app function ts =>
    match attempt (.app function ts) with
    | some found => some ([], found)
    | none => searchFrom attempt 0 ts

/-- Search the terms of a list, of which the first has the given number. -/
def searchFrom {Found : Type} (attempt : Term → Option Found) (number : Nat) :
    List Term → Option (Position × Found)
  | [] => none
  | t :: ts =>
    match search attempt t with
    | some (position, found) => some (number :: position, found)
    | none => searchFrom attempt (number + 1) ts

end

mutual

/-- What a search returns is what the attempt found in the subterm at the returned position. -/
theorem at?_of_search {Found : Type} (attempt : Term → Option Found) :
    ∀ (t : Term) {position : Position} {found : Found},
      t.search attempt = some (position, found) →
        ∃ subterm, t.at? position = some subterm ∧ attempt subterm = some found
  | .constant name, _, _, result => by
    simp only [search, Option.map_eq_some_iff, Prod.mk.injEq] at result
    obtain ⟨_, success, rfl, rfl⟩ := result
    exact ⟨_, rfl, success⟩
  | .var v, _, _, result => by
    simp only [search, Option.map_eq_some_iff, Prod.mk.injEq] at result
    obtain ⟨_, success, rfl, rfl⟩ := result
    exact ⟨_, rfl, success⟩
  | .app function ts, _, _, result => by
    unfold search at result
    split at result
    · next found success =>
      cases result
      exact ⟨_, rfl, success⟩
    · obtain ⟨index, rest, subterm, rfl, reached, success⟩ :=
        at?_of_searchFrom attempt ts 0 result
      refine ⟨subterm, ?_, success⟩
      rw [Nat.zero_add]
      exact reached

/-- What a search of a list returns is what the attempt found below the term whose number the
position begins with. -/
theorem at?_of_searchFrom {Found : Type} (attempt : Term → Option Found) :
    ∀ (ts : List Term) (number : Nat) {position : Position} {found : Found},
      searchFrom attempt number ts = some (position, found) →
        ∃ index rest subterm, position = (number + index) :: rest ∧
          (ts[index]?.bind fun t => t.at? rest) = some subterm ∧ attempt subterm = some found
  | [], _, _, _, result => by simp [searchFrom] at result
  | t :: ts, number, _, _, result => by
    unfold searchFrom at result
    split at result
    · next position found success =>
      cases result
      obtain ⟨subterm, reached, success⟩ := at?_of_search attempt t success
      exact ⟨0, position, subterm, rfl, reached, success⟩
    · obtain ⟨index, rest, subterm, rfl, reached, success⟩ :=
        at?_of_searchFrom attempt ts (number + 1) result
      refine ⟨index + 1, rest, subterm, ?_, ?_, success⟩
      · rw [Nat.add_assoc, Nat.add_comm 1]
      · rw [List.getElem?_cons_succ]
        exact reached

end

/-- An attempt that is only made on terms which are no variables. -/
def unlessVariable {Found : Type} (attempt : Term → Option Found) (t : Term) : Option Found :=
  if t.isVariable then none else attempt t

end Term

namespace Atom

/-- The subterm of an atom at a position. -/
def at? (a : Atom) : Position → Option Term
  | [] => none
  | argument :: rest => a.arguments[argument]?.bind fun t => t.at? rest

/-- The atom with the subterm at a position exchanged for another term. -/
def replaceAt (new : Term) : Position → Atom → Atom
  | [], a => a
  | argument :: rest, a => a.withArguments (a.arguments.modify argument (Term.replaceAt new rest))

/-- The positions of all subterms of an atom. -/
def positions (a : Atom) : List Position :=
  Term.positionsWhereFrom (fun _ => true) 0 a.arguments

/-- The positions of the subterms of an atom that are no variables. -/
def nonVariablePositions (a : Atom) : List Position :=
  Term.positionsWhereFrom (fun subterm => !subterm.isVariable) 0 a.arguments

/-- The position of the first subterm of an atom at which an attempt succeeds, and what it found. -/
def search {Found : Type} (attempt : Term → Option Found) (a : Atom) : Option (Position × Found) :=
  Term.searchFrom attempt 0 a.arguments

/-- What a search of an atom returns is what the attempt found in the subterm at that position. -/
theorem at?_of_search {Found : Type} (attempt : Term → Option Found) (a : Atom)
    {position : Position} {found : Found} (result : a.search attempt = some (position, found)) :
    ∃ subterm, a.at? position = some subterm ∧ attempt subterm = some found := by
  obtain ⟨index, rest, subterm, rfl, reached, success⟩ :=
    Term.at?_of_searchFrom attempt a.arguments 0 result
  refine ⟨subterm, ?_, success⟩
  rw [Nat.zero_add]
  exact reached

end Atom

end ClausalReasoner
