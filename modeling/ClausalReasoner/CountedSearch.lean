/-
This file decides subsumption by counting. The literals of the subsuming clause are taken kind by
kind, in whatever order the kinds come, and every literal picks one of the literals of its kind in
the other clause. A counter with a digit for each literal goes through the picks. When matching
fails at some literal the counter counts at its digit, which passes over every assignment that
begins with the same picks.
-/

import ClausalReasoner.MixedRadix
import ClausalReasoner.Subsumption

namespace ClausalReasoner

/-! ### Counting comes to an end -/

namespace MixedRadix

/-- A bound on the number of values under some radices. -/
def capacity : (radices : List Nat) → Nat
  | [] => 1
  | radix :: radices => (radix + 1) * capacity radices

/-- A bound on the number of values that come after some digits. -/
def remaining : (radices digits : List Nat) → Nat
  | radix :: radices, digit :: digits =>
    (radix - (digit + 1)) * capacity radices + remaining radices digits
  | _, _ => 0

theorem remaining_lt (radices digits : List Nat) :
    remaining radices digits < capacity radices := by
  induction radices generalizing digits with
  | nil => exact Nat.one_pos
  | cons radix radices inductionHypothesis =>
    cases digits with
    | nil => exact Nat.mul_pos (Nat.succ_pos _) (Nat.zero_lt_of_lt (inductionHypothesis []))
    | cons digit digits =>
      calc (radix - (digit + 1)) * capacity radices + remaining radices digits
          < (radix - (digit + 1)) * capacity radices + capacity radices :=
            Nat.add_lt_add_left (inductionHypothesis digits) _
        _ = (radix - (digit + 1) + 1) * capacity radices := (Nat.succ_mul _ _).symm
        _ ≤ (radix + 1) * capacity radices :=
            Nat.mul_le_mul_right _ (Nat.succ_le_succ (Nat.sub_le _ _))

/-- Counting within the first digits leaves fewer values, even though the digits behind them start
again. -/
theorem remaining_successor_lt {radices digits counted : List Nat} {length : Nat}
    (next : successor (radices.take length) (digits.take length) = some counted) :
    remaining radices (counted ++ (digits.drop length).map fun _ => 0) <
      remaining radices digits := by
  induction length generalizing radices digits counted with
  | zero => cases next
  | succ length inductionHypothesis =>
    cases radices with
    | nil => cases next
    | cons radix radices =>
      cases digits with
      | nil => cases next
      | cons digit digits =>
        rw [List.take_succ_cons, List.take_succ_cons, successor] at next
        split at next
        · next further =>
          obtain rfl := Option.some.inj next
          exact Nat.add_lt_add_left (inductionHypothesis further) _
        · split at next
          · next room =>
            obtain rfl := Option.some.inj next
            rw [List.cons_append, remaining, remaining]
            have restart := remaining_lt radices
              ((digits.take length).map (fun _ => 0) ++ (digits.drop length).map fun _ => 0)
            have step : radix - (digit + 1) = radix - (digit + 1 + 1) + 1 := by omega
            rw [step, Nat.succ_mul]
            exact Nat.lt_of_lt_of_le (Nat.add_lt_add_left restart _) (Nat.le_add_right _ _)
          · cases next

variable {n : MixedRadix} {position : Nat} {counted : List Nat}

theorem countAt_of_some (goesOn : ¬ n.exhausted)
    (next : successor (n.radices.take (position + 1)) (n.digits.take (position + 1)) =
      some counted) :
    n.countAt position =
      (true, { n with digits := counted ++ (n.digits.drop (position + 1)).map fun _ => 0 }) := by
  rw [countAt, if_neg goesOn]
  simp only [next]

theorem countAt_of_none (goesOn : ¬ n.exhausted)
    (atEnd : successor (n.radices.take (position + 1)) (n.digits.take (position + 1)) = none) :
    n.countAt position =
      (false, { n with digits := n.digits.map fun _ => 0, exhausted := true }) := by
  rw [countAt, if_neg goesOn]
  simp only [atEnd]

/-- A bound on how often a counter can still count. -/
def countsLeft (n : MixedRadix) : Nat :=
  if n.exhausted then 0 else remaining n.radices n.digits + 1

theorem countsLeft_countAt_lt (goesOn : ¬ n.exhausted) (position : Nat) :
    (n.countAt position).2.countsLeft < n.countsLeft := by
  cases next : successor (n.radices.take (position + 1)) (n.digits.take (position + 1)) with
  | none =>
    rw [countAt_of_none goesOn next, countsLeft, countsLeft, if_pos rfl, if_neg goesOn]
    exact Nat.succ_pos _
  | some counted =>
    rw [countAt_of_some goesOn next, countsLeft, countsLeft, if_neg goesOn, if_neg goesOn]
    exact Nat.add_lt_add_right (remaining_successor_lt next) 1

end MixedRadix

/-! ### Picking a partner for every literal -/

/-- A literal with the literals that it may be turned into. -/
structure Choice where
  literal : Literal
  candidates : List Literal
  deriving DecidableEq, Inhabited, Repr

/-- The position of the first literal that does not match the candidate picked for it, after the
literals before it were matched. -/
def firstFailure : List Choice → List Nat → Substitution → Option Nat
  | choice :: choices, digit :: digits, σ =>
    match choice.literal.atom.matchWith (choice.candidates.getD digit default).atom σ with
    | some extended => (firstFailure choices digits extended).map (· + 1)
    | none => some 0
  | _, _, _ => none

/-- Whether all literals match the candidates picked for them by the counter's value or by one that
it comes to. -/
def succeedsFrom (choices : List Choice) (n : MixedRadix) : Bool :=
  if n.exhausted then false
  else match firstFailure choices n.digits ∅ with
    | none => true
    | some position => succeedsFrom choices (n.countAt position).2
termination_by n.countsLeft
decreasing_by exact MixedRadix.countsLeft_countAt_lt ‹_› position

/-- Whether all literals match under some way to pick the candidates. -/
def succeeds (choices : List Choice) : Bool :=
  succeedsFrom choices (.start (choices.map fun choice => choice.candidates.length))

/-! ### Subsumption -/

/-- An order for the kinds of some literals, in which each of them comes once. -/
structure KindOrder (ls : List Literal) where
  kinds : List LiteralKind
  distinct : kinds.Nodup
  mem_kinds : ∀ kind, kind ∈ kinds ↔ ∃ l ∈ ls, l.kind = kind

/-- The kinds in the order in which they are first met. -/
def KindOrder.byOccurrence (ls : List Literal) : KindOrder ls where
  kinds := firstOccurrences (ls.map Literal.kind)
  distinct := nodup_firstOccurrences _
  mem_kinds _ := mem_firstOccurrences.trans List.mem_map

instance (ls : List Literal) : Inhabited (KindOrder ls) := ⟨.byOccurrence ls⟩

/-- The choices that literals have among others when they are taken kind by kind. -/
def choicesAmong (targets ls : List Literal) (kinds : List LiteralKind) : List Choice :=
  kinds.flatMap fun kind =>
    (literalsOfKind kind ls).map fun l => ⟨l, literalsOfKind kind targets⟩

/-- Whether the clause subsumes the other one, decided by counting through what its literals can be
turned into. -/
def Clause.subsumesByCounting (c other : Clause) (order : KindOrder (c.literalsApartFrom other)) :
    Bool :=
  let ls := c.literalsApartFrom other
  decide (c.size < other.size) &&
  decide (c.positives.length ≤ other.positives.length) &&
  decide (c.negatives.length ≤ other.negatives.length) &&
  (order.kinds.all fun kind =>
    (literalsOfKind kind ls).length ≤ (literalsOfKind kind other.literals).length) &&
  succeeds (choicesAmong other.literals ls order.kinds)

end ClausalReasoner
