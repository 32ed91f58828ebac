/-
This file says that counting goes through the values in their lexicographic order. Where all values
are compared with digits of the same number, what comes no earlier when one counts is what is not less
in the order of lists. Counting at a position passes over just the values that begin as the current one
does, so it comes to the least of those that are later and differ up to the position, or to the end if
there are none. Counting one by one is counting at the last position, where nothing but the current
value is passed over; hence every value is met once.

A carry runs from the position towards the front, whereas the next value was found from the front. That
both come to the same is seen at the last digit: either it can be raised, or it starts again and the
digits before it are counted.
-/

import ClausalReasoner.MixedRadix.Carrying
import ClausalReasoner.Proofs.CounterOrder
import Mathlib.Data.List.Induction
import Mathlib.Data.List.Lex
import Mathlib.Order.Bounds.Basic

namespace ClausalReasoner

namespace MixedRadix

variable {radices digits other : List Nat} {n : MixedRadix} {position : Nat}

/-! ### Carrying -/

/-- The next value, found from its last digit. -/
theorem successor_concat (same : radices.length = digits.length) (radix digit : Nat) :
    successor (radices ++ [radix]) (digits ++ [digit]) =
      if digit + 1 < radix then some (digits ++ [digit + 1])
      else (successor radices digits).map (· ++ [0]) := by
  induction digits generalizing radices with
  | nil =>
    obtain rfl := List.length_eq_zero_iff.1 same
    rfl
  | cons first digits inductionHypothesis =>
    cases radices with
    | nil => exact absurd same nofun
    | cons firstRadix radices =>
      have behind := inductionHypothesis (Nat.succ.inj same)
      rw [List.cons_append, List.cons_append, successor, behind]
      by_cases room : digit + 1 < radix
      · rw [if_pos room, if_pos room]
        rfl
      · rw [if_neg room, if_neg room, successor]
        cases successor radices digits with
        | some counted => rfl
        | none =>
          rw [Option.map_none, List.map_append]
          dsimp only
          split <;> rfl

theorem getD_append_cons {length : Nat} (same : digits.length = length) (digit : Nat)
    (behind : List Nat) : (digits ++ digit :: behind).getD length 0 = digit := by
  simp [← same]

theorem set_append_cons {length : Nat} (same : digits.length = length) (digit new : Nat)
    (behind : List Nat) : (digits ++ digit :: behind).set length new = digits ++ new :: behind := by
  simp [← same]

theorem exists_eq_concat {length : Nat} (same : digits.length = length + 1) :
    ∃ front last, digits = front ++ [last] ∧ front.length = length :=
  have nonempty := List.ne_nil_of_length_eq_add_one same
  ⟨digits.dropLast, digits.getLast nonempty, (List.dropLast_concat_getLast nonempty).symm,
    by rw [List.length_dropLast, same, Nat.add_sub_cancel]⟩

/-- A carry changes the digits up to its position as counting within them does. -/
theorem carry_append {length : Nat} (sameRadices : radices.length = length)
    (same : digits.length = length) (radix digit : Nat) (radicesBehind behind : List Nat) :
    carry (radices ++ radix :: radicesBehind) length (digits ++ digit :: behind) =
      match successor (radices ++ [radix]) (digits ++ [digit]) with
      | some counted => (true, counted ++ behind)
      | none => (false, (digits ++ [digit]).map (fun _ => 0) ++ behind) := by
  induction length generalizing radices digits radix digit radicesBehind behind with
  | zero =>
    obtain rfl := List.length_eq_zero_iff.1 sameRadices
    obtain rfl := List.length_eq_zero_iff.1 same
    by_cases room : digit + 1 < radix <;> simp [carry, successor, room]
  | succ length inductionHypothesis =>
    rw [successor_concat (sameRadices.trans same.symm), carry]
    simp only [getD_append_cons same, getD_append_cons sameRadices, set_append_cons same]
    by_cases room : digit + 1 < radix
    · simp [room]
    · -- The digit starts again, and the carry goes on at the last of those before it.
      obtain ⟨front, last, rfl, length⟩ := exists_eq_concat same
      obtain ⟨frontRadices, lastRadix, rfl, lengthRadices⟩ := exists_eq_concat sameRadices
      rw [if_neg room, if_neg room, List.append_assoc, List.append_assoc]
      have further := inductionHypothesis lengthRadices length lastRadix last
        (radix :: radicesBehind) (0 :: behind)
      refine further.trans ?_
      cases successor (frontRadices ++ [lastRadix]) (front ++ [last]) with
      | some counted => simp
      | none => simp

/-- Counting in place comes to what counting from the front comes to. -/
theorem countByCarrying_eq (same : n.digits.length = n.radices.length)
    (valid : position < n.radices.length) : n.countByCarrying position = n.countAt position := by
  by_cases ended : n.exhausted
  · rw [countByCarrying, countAt, if_pos ended, if_pos ended]
  have inside : position < n.digits.length := same.symm ▸ valid
  have digits : n.digits.take (position + 1) = n.digits.take position ++ [n.digits[position]] :=
    List.take_succ_eq_append_getElem inside
  have radices : n.radices.take (position + 1) = n.radices.take position ++ [n.radices[position]] :=
    List.take_succ_eq_append_getElem valid
  have whole : n.radices.take position ++ n.radices[position] :: n.radices.drop (position + 1) =
      n.radices := by
    rw [List.append_cons, ← radices, List.take_append_drop]
  have carried := carry_append (List.length_take_of_le (Nat.le_of_lt valid))
    (List.length_take_of_le (Nat.le_of_lt inside)) n.radices[position] n.digits[position]
    (n.radices.drop (position + 1)) ((n.digits.drop (position + 1)).map fun _ => 0)
  rw [whole, List.append_cons, ← digits, ← radices] at carried
  rw [countByCarrying, if_neg ended]
  cases next : successor (n.radices.take (position + 1)) (n.digits.take (position + 1)) with
  | some counted =>
    rw [countAt_of_some ended next]
    simp only [carried, next]
    simp [ended]
  | none =>
    rw [countAt_of_none ended next]
    simp only [carried, next]
    rw [← List.map_append, List.take_append_drop]
    rfl

/-! ### The order of the values -/

/-- Digits come no earlier when one counts just in case they are not less in the order of lists. -/
theorem noEarlier_iff_le (same : digits.length = other.length) :
    NoEarlier digits other ↔ digits ≤ other := by
  induction digits generalizing other with
  | nil =>
    obtain rfl := List.length_eq_zero_iff.1 same.symm
    exact iff_of_true trivial (le_refl _)
  | cons digit digits inductionHypothesis =>
    cases other with
    | nil => exact absurd same nofun
    | cons first others =>
      rw [NoEarlier, inductionHypothesis (Nat.succ.inj same)]
      rw [le_iff_lt_or_eq, le_iff_lt_or_eq, List.cons_lt_cons_iff, List.cons.injEq]
      tauto

theorem take_ne_iff {length : Nat} : other.take (length + 1) ≠ digits.take (length + 1) ↔
    ∃ place ≤ length, other[place]? ≠ digits[place]? := by
  rw [ne_eq, List.ext_getElem?_iff, not_forall]
  refine exists_congr fun place => ?_
  rw [List.getElem?_take, List.getElem?_take]
  by_cases early : place ≤ length
  · rw [if_pos (Nat.lt_succ_of_le early), if_pos (Nat.lt_succ_of_le early)]
    exact ⟨fun differ => ⟨early, differ⟩, fun both => both.2⟩
  · have late : ¬ place < length + 1 := fun less => early (Nat.le_of_lt_succ less)
    rw [if_neg late, if_neg late]
    exact iff_of_false (fun differ => differ rfl) fun both => early both.1

theorem ahead_iff (proper : n.IsProper) (goesOn : ¬ n.exhausted) :
    n.Ahead other ↔ IsValue n.radices other ∧ n.digits ≤ other := by
  rw [Ahead, and_iff_right goesOn]
  refine and_congr_right fun value => noEarlier_iff_le ?_
  exact (proper goesOn).length_eq.trans value.length_eq.symm

/-! ### Counting at a position -/

/-- The values that come after the current one and differ from it in some digit up to a position. -/
def laterFrom (n : MixedRadix) (position : Nat) : Set (List Nat) :=
  {other | IsValue n.radices other ∧ n.digits < other ∧
    ∃ place ≤ position, other[place]? ≠ n.digits[place]?}

/-- These are the values yet to come after counting at the position. -/
theorem mem_laterFrom_iff (proper : n.IsProper) (goesOn : ¬ n.exhausted) :
    other ∈ n.laterFrom position ↔ (n.countAt position).2.Ahead other := by
  rw [ahead_countAt_iff proper goesOn, ahead_iff proper goesOn, take_ne_iff, and_assoc]
  refine and_congr_right fun _ => and_congr_left fun differs => ?_
  obtain ⟨place, _, differ⟩ := differs
  exact ⟨le_of_lt, fun le => lt_of_le_of_ne le fun same => differ (same ▸ rfl)⟩

/-- Counting at a position comes to the least of the later values that differ up to the position, and
reports the end if there are none. -/
theorem countAt_isLeast (proper : n.IsProper) (goesOn : ¬ n.exhausted) (position : Nat) :
    (∃ counted, n.countAt position = (true, { n with digits := counted }) ∧
      IsLeast (n.laterFrom position) counted) ∨
    (∃ last, n.countAt position = (false, last) ∧ last.exhausted ∧ n.laterFrom position = ∅) := by
  have later : ∀ {other}, other ∈ n.laterFrom position ↔ (n.countAt position).2.Ahead other :=
    mem_laterFrom_iff proper goesOn
  have properNext := proper.countAt position
  cases next : successor (n.radices.take (position + 1)) (n.digits.take (position + 1)) with
  | some counted =>
    rw [countAt_of_some goesOn next] at later properNext ⊢
    refine Or.inl ⟨_, rfl, later.2 ?_, fun other member => ?_⟩
    · exact (ahead_iff properNext goesOn).2 ⟨properNext goesOn, le_refl _⟩
    · exact ((ahead_iff properNext goesOn).1 (later.1 member)).2
  | none =>
    rw [countAt_of_none goesOn next] at later ⊢
    refine Or.inr ⟨_, rfl, rfl, Set.eq_empty_of_forall_notMem fun other member => ?_⟩
    exact (later.1 member).1 rfl

/-! ### Counting one by one -/

/-- Counting one by one passes over the current value and nothing else. -/
theorem ahead_count_iff (proper : n.IsProper) (goesOn : ¬ n.exhausted) :
    n.count.2.Ahead other ↔ n.Ahead other ∧ other ≠ n.digits := by
  have value := proper goesOn
  rw [count]
  split
  · next none =>
    rw [none] at value
    obtain none' := List.forall₂_nil_right_iff.1 value
    refine iff_of_false (fun ahead => ahead.1 rfl) fun both => both.2 ?_
    have only := both.1.2.1
    rw [none] at only
    exact (List.forall₂_nil_right_iff.1 only).trans none'.symm
  · next radix radices some =>
    rw [ahead_countAt_iff proper goesOn]
    refine and_congr_right fun ahead => not_congr ?_
    have length : radices.length + 1 = n.radices.length := by rw [some, List.length_cons]
    rw [length, List.take_of_length_le ahead.2.1.length_eq.le, List.take_of_length_le value.length_eq.le]

/-- The current value and those that counting goes on to are the values yet to come. -/
theorem ahead_iff_count (proper : n.IsProper) (goesOn : ¬ n.exhausted) :
    n.Ahead other ↔ other = n.digits ∨ n.count.2.Ahead other := by
  have itself : n.Ahead n.digits := (ahead_iff proper goesOn).2 ⟨proper goesOn, le_refl _⟩
  rw [ahead_count_iff proper goesOn]
  by_cases same : other = n.digits
  · exact iff_of_true (same ▸ itself) (Or.inl same)
  · exact ⟨fun ahead => Or.inr ⟨ahead, same⟩, fun either => (either.resolve_left same).1⟩

theorem lt_of_ahead_count (proper : n.IsProper) (goesOn : ¬ n.exhausted)
    (ahead : n.count.2.Ahead other) : n.digits < other := by
  obtain ⟨ahead, different⟩ := (ahead_count_iff proper goesOn).1 ahead
  exact lt_of_le_of_ne ((ahead_iff proper goesOn).1 ahead).2 (Ne.symm different)

theorem IsProper.count (proper : n.IsProper) : n.count.2.IsProper := by
  rw [MixedRadix.count]
  split
  · exact fun goesOn => absurd rfl goesOn
  · exact proper.countAt _

theorem countAt_fst (n : MixedRadix) (position : Nat) :
    (n.countAt position).1 = !(n.countAt position).2.exhausted := by
  by_cases ended : n.exhausted
  · rw [countAt, if_pos ended, ended]
    rfl
  · cases next : successor (n.radices.take (position + 1)) (n.digits.take (position + 1)) with
    | some counted =>
      rw [countAt_of_some ended next, Bool.eq_false_iff.2 ended]
      rfl
    | none =>
      rw [countAt_of_none ended next]
      rfl

/-- Counting reports the end just when the counter is exhausted. -/
theorem count_fst (n : MixedRadix) : n.count.1 = !n.count.2.exhausted := by
  rw [count]
  split
  · rfl
  · exact n.countAt_fst _

theorem countsLeft_count_lt (goesOn : n.count.1) : n.count.2.countsLeft < n.countsLeft := by
  rw [count] at goesOn ⊢
  split at goesOn
  · exact absurd goesOn Bool.false_ne_true
  · next radix radices some =>
    refine countsLeft_countAt_lt (fun ended => ?_) _
    rw [countAt, if_pos ended] at goesOn
    exact absurd goesOn Bool.false_ne_true

/-- Count one by one as long as counting reports a next value. What comes out are the values that the
counter had on the way, and the counter when the end was reported. -/
def countThrough (n : MixedRadix) : List (List Nat) × MixedRadix :=
  if _goesOn : n.count.1 then
    let (values, last) := n.count.2.countThrough
    (n.digits :: values, last)
  else ([n.digits], n.count.2)
termination_by n.countsLeft
decreasing_by exact countsLeft_count_lt ‹_›

/-- Counting one by one goes through the values yet to come, in their order, and ends. -/
theorem countThrough_eq (proper : n.IsProper) (goesOn : ¬ n.exhausted) :
    n.countThrough.1.Pairwise (· < ·) ∧ (∀ other, other ∈ n.countThrough.1 ↔ n.Ahead other) ∧
      n.countThrough.2.exhausted := by
  fun_induction countThrough n with
  | case1 n further values last through inductionHypothesis =>
    have goesOnNext : ¬ n.count.2.exhausted := by
      rw [count_fst] at further
      simpa using further
    rw [through] at inductionHypothesis
    obtain ⟨ordered, members, ended⟩ := inductionHypothesis proper.count goesOnNext
    refine ⟨List.pairwise_cons.2 ⟨fun other member => ?_, ordered⟩, fun other => ?_, ended⟩
    · exact lt_of_ahead_count proper goesOn ((members other).1 member)
    · rw [List.mem_cons, members, ahead_iff_count proper goesOn]
  | case2 n atEnd =>
    have ended : n.count.2.exhausted := by
      rw [count_fst] at atEnd
      simpa using atEnd
    refine ⟨List.pairwise_singleton _ _, fun other => ?_, ended⟩
    rw [List.mem_singleton, ahead_iff_count proper goesOn, or_iff_left fun ahead => ahead.1 ended]

/-! ### Every value once -/

/-- The counters that counting from a start leads to. -/
inductive IsReached : MixedRadix → Prop
  | start (radices : List Nat) : IsReached (start radices)
  | count {n : MixedRadix} : IsReached n → IsReached n.count.2
  | countAt {n : MixedRadix} {position : Nat} : IsReached n → position < n.radices.length →
      IsReached (n.countAt position).2

theorem IsReached.isProper (reached : n.IsReached) : n.IsProper := by
  induction reached with
  | start radices => exact isProper_start radices
  | count _ inductionHypothesis => exact inductionHypothesis.count
  | countAt _ _ inductionHypothesis => exact inductionHypothesis.countAt _

/-- **Counting goes through all values in order.** Under radices that all leave a choice, counting one
by one from the start meets exactly the values, each once and in lexicographic order, and then reports
that the counter is exhausted. Whatever counter one has got to, counting at a position, which may as
well be done in place, comes to the least value that is larger than the current one and differs from it
in some digit up to the position; if there is no such value, the counter is exhausted. -/
theorem counting_isLexicographic :
    (∀ radices, 0 ∉ radices →
      (start radices).countThrough.1.Pairwise (· < ·) ∧
      (∀ digits, digits ∈ (start radices).countThrough.1 ↔ IsValue radices digits) ∧
      (start radices).countThrough.2.exhausted) ∧
    ∀ n : MixedRadix, n.IsReached → ¬ n.exhausted → ∀ position < n.radices.length,
      n.countByCarrying position = n.countAt position ∧
      ((∃ counted, n.countAt position = (true, { n with digits := counted }) ∧
          IsLeast (n.laterFrom position) counted) ∨
        ∃ last, n.countAt position = (false, last) ∧ last.exhausted ∧
          n.laterFrom position = ∅) := by
  refine ⟨fun radices choices => ?_, fun n reached goesOn position valid => ?_⟩
  · have goesOn : ¬ (start radices).exhausted := fun ended => choices (List.contains_iff_mem.1 ended)
    obtain ⟨ordered, members, ended⟩ := countThrough_eq (isProper_start radices) goesOn
    exact ⟨ordered, fun digits => (members digits).trans (ahead_start_iff radices), ended⟩
  · have proper := reached.isProper
    exact ⟨countByCarrying_eq (proper goesOn).length_eq valid,
      countAt_isLeast proper goesOn position⟩

/-- The last of the values that begin with 0, under the radices 2, 3 and 2. -/
def lastOfZero : MixedRadix :=
  ⟨[2, 3, 2], [0, 2, 1], false⟩

theorem isReached_lastOfZero : lastOfZero.IsReached := by
  have once : ((start [2, 3, 2]).countAt 1).2.IsReached := .countAt (.start _) (by decide)
  have twice : (((start [2, 3, 2]).countAt 1).2.countAt 1).2.IsReached := .countAt once (by decide)
  exact twice.count

/-- The carry out of the last two digits of 0, 2, 1 is taken up by the first one. -/
theorem counting_isLexicographic_lastOfZero :
    0 ∉ [2, 3, 2] ∧ [1, 2, 1] ∈ (start [2, 3, 2]).countThrough.1 ∧
      lastOfZero.IsReached ∧ ¬ lastOfZero.exhausted ∧ 2 < lastOfZero.radices.length ∧
      lastOfZero.countByCarrying 2 = (true, { lastOfZero with digits := [1, 0, 0] }) ∧
      IsLeast (lastOfZero.laterFrom 2) [1, 0, 0] := by
  have choices : 0 ∉ [2, 3, 2] := by decide
  obtain ⟨_, members, _⟩ := counting_isLexicographic.1 _ choices
  obtain ⟨carried, cases⟩ := counting_isLexicographic.2 lastOfZero isReached_lastOfZero (by decide) 2
    (by decide)
  have next : lastOfZero.countAt 2 = (true, { lastOfZero with digits := [1, 0, 0] }) := by decide
  refine ⟨choices, (members _).2 (by unfold IsValue; decide), isReached_lastOfZero, by decide,
    by decide, carried.trans next, ?_⟩
  rw [next] at cases
  rcases cases with ⟨counted, same, least⟩ | ⟨last, same, _⟩
  · cases same
    exact least
  · cases same

end MixedRadix

end ClausalReasoner
