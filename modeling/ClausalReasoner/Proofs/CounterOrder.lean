/-
This file says what counting passes over. The values of a counter come in the order of their first
digit, those with the same first digit in the order of the second one, and so on. Counting at a
position passes over exactly those values yet to come that begin as the current one does, up to and
including the digit at the position. So a search that counts at the position where the current value
failed, and in which the digits behind that position had no part, misses nothing.
-/

import ClausalReasoner.CountedSearch
import Mathlib.Data.List.Forall2

namespace ClausalReasoner

namespace MixedRadix

variable {radices digits counted other : List Nat}

/-! ### Values and their order -/

/-- Whether digits are a value under some radices: one digit for each, and smaller than it. -/
def IsValue (radices digits : List Nat) : Prop :=
  List.Forall₂ (· < ·) digits radices

/-- Whether the second digits come no earlier than the first ones when one counts up. -/
def NoEarlier : List Nat → List Nat → Prop
  | digit :: digits, other :: others => digit < other ∨ digit = other ∧ NoEarlier digits others
  | _, _ => True

theorem noEarlier_refl (digits : List Nat) : NoEarlier digits digits := by
  induction digits with
  | nil => trivial
  | cons digit digits inductionHypothesis => exact Or.inr ⟨rfl, inductionHypothesis⟩

/-- Nothing comes before the value without anything but zeros. -/
theorem noEarlier_zeros (digits other : List Nat) : NoEarlier (digits.map fun _ => 0) other := by
  induction digits generalizing other with
  | nil => trivial
  | cons digit digits inductionHypothesis =>
    cases other with
    | nil => trivial
    | cons first others =>
      rcases Nat.eq_zero_or_pos first with rfl | positive
      · exact Or.inr ⟨rfl, inductionHypothesis others⟩
      · exact Or.inl positive

theorem IsValue.zeros (value : IsValue radices digits) :
    IsValue radices (digits.map fun _ => 0) := by
  refine List.forall₂_map_left_iff.2 (value.imp fun digit radix below => ?_)
  exact Nat.zero_lt_of_lt below

/-! ### Counting within the first digits -/

/-- Counting within the first digits gives a value again. -/
theorem IsValue.successor {length : Nat} (value : IsValue radices digits)
    (next : successor (radices.take length) (digits.take length) = some counted) :
    IsValue radices (counted ++ (digits.drop length).map fun _ => 0) := by
  induction length generalizing radices digits counted with
  | zero => cases next
  | succ length inductionHypothesis =>
    cases value with
    | nil => cases next
    | @cons digit radix digits radices below rest =>
      rw [List.take_succ_cons, List.take_succ_cons, MixedRadix.successor] at next
      split at next
      · next further =>
        obtain rfl := Option.some.inj next
        exact .cons below (inductionHypothesis rest further)
      · split at next
        · next room =>
          obtain rfl := Option.some.inj next
          have restart := IsValue.zeros rest
          rw [← List.take_append_drop length digits, List.map_append] at restart
          exact .cons room restart
        · cases next

/-- When the first digits are as large as they can be, all that comes later begins with them. -/
theorem take_eq_of_successor_none {length : Nat} (value : IsValue radices digits)
    (otherValue : IsValue radices other)
    (atEnd : successor (radices.take length) (digits.take length) = none)
    (later : NoEarlier digits other) : other.take length = digits.take length := by
  induction length generalizing radices digits other with
  | zero => rfl
  | succ length inductionHypothesis =>
    cases value with
    | nil => cases otherValue; rfl
    | @cons digit radix digits radices below rest =>
      cases otherValue with
      | @cons first _ others _ firstBelow othersRest =>
        rw [List.take_succ_cons, List.take_succ_cons, successor] at atEnd
        split at atEnd
        · cases atEnd
        · next stuck =>
          split at atEnd
          · cases atEnd
          · next noRoom =>
            rcases later with less | ⟨rfl, later⟩
            · exact absurd (Nat.lt_of_le_of_lt less firstBelow) noRoom
            · rw [List.take_succ_cons, List.take_succ_cons,
                inductionHypothesis rest othersRest stuck later]

/-- What comes no earlier than the value counted to is what came no earlier than the one before and
begins with other digits. -/
theorem noEarlier_successor_iff {length : Nat} (value : IsValue radices digits)
    (otherValue : IsValue radices other)
    (next : successor (radices.take length) (digits.take length) = some counted) :
    NoEarlier (counted ++ (digits.drop length).map fun _ => 0) other ↔
      NoEarlier digits other ∧ other.take length ≠ digits.take length := by
  induction length generalizing radices digits counted other with
  | zero => cases next
  | succ length inductionHypothesis =>
    cases value with
    | nil => cases next
    | @cons digit radix digits radices below rest =>
      cases otherValue with
      | @cons first _ others _ firstBelow othersRest =>
        rw [List.take_succ_cons, List.take_succ_cons, successor] at next
        rw [List.take_succ_cons, List.take_succ_cons, List.drop_succ_cons]
        split at next
        · next further =>
          obtain rfl := Option.some.inj next
          have behind := inductionHypothesis rest othersRest further
          simp only [List.cons_append, NoEarlier, behind, ne_eq, List.cons.injEq]
          grind
        · next stuck =>
          split at next
          · obtain rfl := Option.some.inj next
            have restart : NoEarlier ((digits.take length).map (fun _ => 0) ++
                (digits.drop length).map fun _ => 0) others := by
              rw [← List.map_append, List.take_append_drop]
              exact noEarlier_zeros digits others
            have behind := take_eq_of_successor_none rest othersRest stuck
            simp only [List.cons_append, NoEarlier, restart, ne_eq, List.cons.injEq]
            grind
          · cases next

/-! ### Counting at a position -/

variable {n : MixedRadix}

/-- Whether the counter stands at a value, if it is not exhausted. -/
def IsProper (n : MixedRadix) : Prop :=
  ¬ n.exhausted → IsValue n.radices n.digits

/-- Whether a value is yet to come: it is the current value of the counter or a later one. -/
def Ahead (n : MixedRadix) (other : List Nat) : Prop :=
  ¬ n.exhausted ∧ IsValue n.radices other ∧ NoEarlier n.digits other

theorem IsProper.countAt (proper : n.IsProper) (position : Nat) :
    (n.countAt position).2.IsProper := by
  intro goesOn
  by_cases ended : n.exhausted
  · rw [MixedRadix.countAt, if_pos ended] at goesOn
    exact absurd ended goesOn
  · cases next : MixedRadix.successor (n.radices.take (position + 1))
        (n.digits.take (position + 1)) with
    | none =>
      rw [countAt_of_none ended next] at goesOn
      exact absurd rfl goesOn
    | some counted =>
      rw [countAt_of_some ended next]
      exact (proper ended).successor next

/-- Counting at a position passes over exactly what begins as the current value does up to that
position. -/
theorem ahead_countAt_iff (proper : n.IsProper) (goesOn : ¬ n.exhausted) (position : Nat) :
    (n.countAt position).2.Ahead other ↔
      n.Ahead other ∧ other.take (position + 1) ≠ n.digits.take (position + 1) := by
  have value := proper goesOn
  cases next : successor (n.radices.take (position + 1)) (n.digits.take (position + 1)) with
  | none =>
    rw [countAt_of_none goesOn next]
    refine iff_of_false (fun ahead => ahead.1 rfl) fun both => both.2 ?_
    exact take_eq_of_successor_none value both.1.2.1 next both.1.2.2
  | some counted =>
    rw [countAt_of_some goesOn next]
    constructor
    · rintro ⟨_, otherValue, later⟩
      obtain ⟨later, differs⟩ := (noEarlier_successor_iff value otherValue next).1 later
      exact ⟨⟨goesOn, otherValue, later⟩, differs⟩
    · rintro ⟨⟨_, otherValue, later⟩, differs⟩
      exact ⟨goesOn, otherValue, (noEarlier_successor_iff value otherValue next).2 ⟨later, differs⟩⟩

/-! ### The start -/

theorem isProper_start (radices : List Nat) : (start radices).IsProper := by
  intro goesOn
  have positive : ∀ radix ∈ radices, 0 < radix := fun radix member =>
    Nat.pos_of_ne_zero fun zero => goesOn (List.contains_iff_mem.2 (zero ▸ member))
  exact List.forall₂_map_left_iff.2 (List.forall₂_same.2 positive)

/-- There is no value when some radix leaves no choice at all. -/
theorem IsValue.pos {radix : Nat} (value : IsValue radices digits) (member : radix ∈ radices) :
    0 < radix := by
  obtain ⟨place, inside, rfl⟩ := List.getElem_of_mem member
  exact Nat.zero_lt_of_lt (List.Forall₂.get value (value.length_eq ▸ inside) inside)

/-- At the start every value is yet to come. -/
theorem ahead_start_iff (radices : List Nat) :
    (start radices).Ahead other ↔ IsValue radices other := by
  refine ⟨fun ahead => ahead.2.1, fun value => ⟨fun ended => ?_, value, noEarlier_zeros _ _⟩⟩
  exact Nat.lt_irrefl 0 (value.pos (List.contains_iff_mem.1 ended))

end MixedRadix

end ClausalReasoner
