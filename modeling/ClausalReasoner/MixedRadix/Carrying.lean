/-
This file counts in place, from a position towards the front. The digits behind the position start
again and the digit at the position is raised. A digit that has come to its radix starts again as
well and hands the carry to the digit before it; a carry out of the first digit is the end.
-/

import ClausalReasoner.MixedRadix

namespace ClausalReasoner

namespace MixedRadix

/-- Raise the digit of a position, and while a digit comes to its radix let it start again and raise
the one before it. Whether the carry was taken up is reported with the digits. -/
def carry (radices : List Nat) (position : Nat) (digits : List Nat) : Bool × List Nat :=
  let raised := digits.getD position 0 + 1
  if raised < radices.getD position 0 then (true, digits.set position raised)
  else
    let restarted := digits.set position 0
    match position with
    | 0 => (false, restarted)
    | before + 1 => carry radices before restarted

/-- Count at the digit of a position in place. The counter is exhausted when nothing took up the
carry. -/
def countByCarrying (n : MixedRadix) (position : Nat) : Bool × MixedRadix :=
  if n.exhausted then (false, n)
  else
    let restarted := n.digits.take (position + 1) ++ (n.digits.drop (position + 1)).map fun _ => 0
    let (goesOn, digits) := carry n.radices position restarted
    (goesOn, { n with digits, exhausted := !goesOn })

end MixedRadix

end ClausalReasoner
