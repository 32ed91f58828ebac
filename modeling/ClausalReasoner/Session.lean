/-
This file holds what an inference passes on to the next one: the indices that are still unused and
the derivation so far. Every rule of inference takes a session and hands one back.
-/

import ClausalReasoner.Clause

namespace ClausalReasoner

/-- The state that rules of inference work on. -/
structure Session where
  supply : Supply := {}
  derivation : Derivation := {}
  deriving Inhabited

namespace Session

/-- Record a step; its number is handed out. -/
def record (session : Session) (step : Step) : StepNumber × Session :=
  let ⟨supply, derivation⟩ := session
  let (number, extended) := derivation.record step
  (number, ⟨supply, extended⟩)

/-- Give a clause fresh variables. -/
def rename (session : Session) (c : Clause) : Clause × Session :=
  let ⟨supply, derivation⟩ := session
  let (renamed, rest) := c.renamed supply
  (renamed, ⟨rest, derivation⟩)

/-- Record the step that made a clause and let the clause remember it. -/
def conclude (session : Session) (rule : Rule) (c : Clause) (detail : Detail)
    (sources : List StepNumber) : Clause × Session :=
  let (number, recorded) := session.record ⟨rule, .clause c.literals, detail, sources⟩
  (c.withOrigin (some number), recorded)

/-- Give a clause fresh variables and record that it was renamed. A clause without variables stays
as it is, and nothing is recorded. -/
def standardizeApart (session : Session) (c : Clause) : Clause × Session :=
  match c.vars with
  | [] => (c, session)
  | _ =>
    let (renamed, supplied) := session.rename c
    supplied.conclude .renamed renamed .none c.sources

/-- The second of two clauses, with fresh variables if it shares some with the first. -/
def apartFrom (session : Session) (first second : Clause) : Clause × Session :=
  if first.sharesVariables second then session.rename second else (second, session)

/-- Go through a list with a function that hands the session on. -/
def mapList {Input Output : Type} (step : Session → Input → Output × Session)
    (session : Session) : List Input → List Output × Session
  | [] => ([], session)
  | input :: rest =>
    let (output, between) := step session input
    let (outputs, last) := mapList step between rest
    (output :: outputs, last)

end Session

end ClausalReasoner
