/-
This file holds a counter whose digits have a radix each, the first digit being the most
significant. Besides counting one by one it can count at a digit further to the front: then all
digits behind it start again, which passes over everything that begins like the current value up to
that digit. Once the counter has run over it is exhausted and stays so.
-/

namespace ClausalReasoner

/-- A counter. The digits are as many as the radices. -/
structure MixedRadix where
  radices : List Nat
  digits : List Nat
  exhausted : Bool
  deriving DecidableEq, Inhabited, Repr

namespace MixedRadix

/-- The counter at its start, exhausted from the beginning if some radix leaves no choice at all. -/
def start (radices : List Nat) : MixedRadix :=
  ⟨radices, radices.map fun _ => 0, radices.contains 0⟩

/-- Count up by one within the first digits, the last one being the least significant. There is no
next value after the one whose digits are all as large as they can be. -/
def successor : (radices digits : List Nat) → Option (List Nat)
  | radix :: radices, digit :: digits =>
    match successor radices digits with
    | some counted => some (digit :: counted)
    | none => if digit + 1 < radix then some ((digit + 1) :: digits.map fun _ => 0) else none
  | _, _ => none

/-- Count at the digit of a position: the digits behind it start again. Whether there is a next
value is reported with the counter. At the end all digits start again as well. -/
def countAt (n : MixedRadix) (position : Nat) : Bool × MixedRadix :=
  if n.exhausted then (false, n)
  else
    let front := n.digits.take (position + 1)
    let back := (n.digits.drop (position + 1)).map fun _ => 0
    match successor (n.radices.take (position + 1)) front with
    | some counted => (true, { n with digits := counted ++ back })
    | none => (false, { n with digits := n.digits.map fun _ => 0, exhausted := true })

/-- Count at the least significant digit. A counter without digits has only one value. -/
def count (n : MixedRadix) : Bool × MixedRadix :=
  match n.radices with
  | [] => (false, { n with exhausted := true })
  | _ :: radices => n.countAt radices.length

end MixedRadix

end ClausalReasoner
