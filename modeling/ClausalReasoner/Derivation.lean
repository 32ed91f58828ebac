/-
This file records how things were derived. A derivation is a growing list of steps; every step names
the rule that was used, what it concluded, and the earlier steps it rests on, so the steps form a
graph without cycles. A step that answers a query is turned into a proof: the steps that it rests
on, directly or not, are listed before it, premises first, then goals, then everything else, and
numbered from one.
-/

import ClausalReasoner.Literal

namespace ClausalReasoner

/-! ### Steps -/

/-- The rules by which steps are made. -/
inductive Rule where
  | premise
  | goal
  | clausified
  | renamed
  | resolution
  | factoring
  | paramodulation
  | demodulation
  | chainOfClause
  | contrapositive
  | reduction
  | cancellation
  | dropping
  | assertedFact
  | knownFact
  | goalReduction
  deriving DecidableEq, Inhabited, Repr

/-- The name of a rule in proofs. -/
def Rule.text : Rule → String
  | .premise => "Premise"
  | .goal => "Goal"
  | .clausified => "Clausified"
  | .renamed => "Renaming"
  | .resolution => "Resolution"
  | .factoring => "Factor"
  | .paramodulation => "Paramodulation"
  | .demodulation => "Demodulation"
  | .chainOfClause => "Chain from Clause"
  | .contrapositive => "Contrapositive"
  | .reduction => "Reduction"
  | .cancellation => "Cancellation"
  | .dropping => "Dropped"
  | .assertedFact => "Assert fact"
  | .knownFact => "Already a known fact"
  | .goalReduction => "Goal reduction"

/-- Premises come before goals and goals before everything that is derived. -/
def Rule.rank : Rule → Nat
  | .premise => 0
  | .goal => 1
  | _ => 2

/-- What a step concludes. -/
inductive Conclusion where
  | text (content : String)
  | sentence (s : Sentence)
  | literal (l : Literal)
  | clause (literals : List Literal)
  | chain (literals : List Literal)
  deriving DecidableEq, Inhabited, Repr

/-- The literals of a clause with the sign of disjunction between them, or the sign of falsity. -/
def clauseText : List Literal → String
  | [] => "⊥"
  | ls => " ∨ ".intercalate (ls.map Literal.text)

/-- The literals of a chain between angle brackets, or the sign of falsity. -/
def chainText : List Literal → String
  | [] => "⊥"
  | ls => "<" ++ commaSeparated (ls.map Literal.text) ++ ">"

/-- The text of a conclusion. -/
def Conclusion.render : Conclusion → String
  | .text content => content
  | .sentence s => s.text
  | .literal l => l.text
  | .clause ls => clauseText ls
  | .chain ls => chainText ls

/-- What else there is to say about a step. -/
inductive Detail where
  | none
  | text (content : String)
  | unifier (θ : Substitution)
  | demodulator (equation : Atom)
  deriving DecidableEq, Inhabited, Repr

/-- The text of a detail. -/
def Detail.render : Detail → String
  | .none => ""
  | .text content => content
  | .unifier θ => θ.text
  | .demodulator equation => "with " ++ equation.text

/-- The number of a step, counted from zero. -/
abbrev StepNumber := Nat

/-- One step: a rule, its conclusion and the steps that it was applied to. -/
structure Step where
  rule : Rule
  conclusion : Conclusion
  detail : Detail := .none
  sources : List StepNumber := []
  deriving DecidableEq, Inhabited, Repr

/-- The steps made so far, in the order in which they were made. -/
structure Derivation where
  steps : Array Step := #[]
  deriving Inhabited

namespace Derivation

/-- The number of steps. -/
def size (d : Derivation) : Nat :=
  d.steps.size

/-- Add a step; its number is handed out with the derivation that has it. -/
def record (d : Derivation) (step : Step) : StepNumber × Derivation :=
  (d.steps.size, ⟨d.steps.push step⟩)

/-! ### The steps that a step rests on -/

/-- The state of a walk over the steps: those that were met, and those that are listed, the last
one first. -/
structure Walk where
  met : List StepNumber := []
  listed : List StepNumber := []
  deriving Inhabited

/-- List a step after the steps that it rests on, leaving out those met before. A walk goes at most
`depth` steps down. -/
def visit (d : Derivation) : (depth : Nat) → StepNumber → Walk → Walk
  | 0, _, walk => walk
  | depth + 1, number, walk =>
    if walk.met.contains number then walk
    else
      let entered : Walk := { walk with met := number :: walk.met }
      match d.steps[number]? with
      | none => entered
      | some step =>
        let below := step.sources.foldl (fun walk source => d.visit depth source walk) entered
        { below with listed := number :: below.listed }

/-- The steps that `last` rests on, each after its own sources, and `last` itself. No way down the
sources meets a step twice, so none is longer than the derivation. -/
def ancestry (d : Derivation) (last : StepNumber) : List StepNumber :=
  (d.visit (d.size + 1) last {}).listed.reverse

/-- The rank of the rule of a step. -/
def rankOf (d : Derivation) (number : StepNumber) : Nat :=
  match d.steps[number]? with
  | none => 2
  | some step => step.rule.rank

/-- Steps with premises moved to the front and goals behind them, otherwise in the given order. -/
def premisesFirst (d : Derivation) (numbers : List StepNumber) : List StepNumber :=
  numbers.filter (d.rankOf · = 0) ++ numbers.filter (d.rankOf · = 1) ++
    numbers.filter (d.rankOf · = 2)

end Derivation

/-! ### Proofs -/

/-- A line of a proof. Lines are numbered from one, and the sources are numbers of lines. -/
structure ProofLine where
  number : Nat
  rule : Rule
  conclusion : Conclusion
  detail : Detail
  sources : List Nat
  deriving DecidableEq, Inhabited, Repr

/-- A proof: its lines, and the values it gives to the variables of the query. -/
structure Proof where
  lines : List ProofLine
  bindings : Substitution
  deriving DecidableEq, Inhabited, Repr

namespace Derivation

/-- The lines for the steps of a list, in which every source is given by its line. -/
def linesOf (d : Derivation) (numbers : List StepNumber) : List ProofLine :=
  numbers.zipIdx.filterMap fun (number, index) =>
    d.steps[number]?.map fun step =>
      { number := index + 1, rule := step.rule, conclusion := step.conclusion,
        detail := step.detail,
        sources := step.sources.filterMap fun source => (numbers.idxOf? source).map (· + 1) }

/-- The proof that ends in a given step. -/
def proof (d : Derivation) (last : StepNumber) (bindings : Substitution) : Proof :=
  ⟨d.linesOf (d.premisesFirst (d.ancestry last)), bindings⟩

end Derivation

namespace ProofLine

/-- The text of the conclusion of a line. -/
def text (line : ProofLine) : String :=
  line.conclusion.render

/-- How a line was derived: the rule, the lines it was applied to, and the detail. -/
def justification (line : ProofLine) : String :=
  let sources :=
    if line.sources.isEmpty then "" else ": " ++ commaSeparated (line.sources.map toString)
  let detail := line.detail.render
  line.rule.text ++ sources ++ (if detail = "" then "" else " " ++ detail)

end ProofLine

/-- A text with blanks put before it until it has the given number of characters. -/
def padLeft (width : Nat) (text : String) : String :=
  "".pushn ' ' (width - text.length) ++ text

/-- A text with blanks put after it until it has the given number of characters. -/
def padRight (width : Nat) (text : String) : String :=
  text.pushn ' ' (width - text.length)

namespace Proof

/-- A proof as a table with the columns number, conclusion and justification. -/
def table (p : Proof) : String :=
  let texts := p.lines.map fun line => (line, line.text)
  let width := texts.foldl (fun width entry => max width entry.2.length) 0
  String.join <| texts.map fun (line, text) =>
    padLeft 4 (toString line.number) ++ "| " ++ padRight width text ++ " | " ++
      line.justification ++ "\n"

/-- A proof as a directed graph in the language of graph drawing tools: a box for each line, and an
arrow from each line to those that rest on it. -/
def graph (p : Proof) : String :=
  let boxes := p.lines.map fun line =>
    let number := toString line.number
    number ++ " [shape=box,label=\"" ++ line.text.replace "\"" "\\\"" ++ "\\ninference: " ++
      line.rule.text ++ " (" ++ number ++ ")\"]\n" ++
      String.join (line.sources.map fun source => toString source ++ " -> " ++ number ++ "\n")
  "digraph proof \x7b\nrankdir = TB\ngraph [splines=true overlap=false];\n" ++
    String.join boxes ++ "\x7d"

/-- The bindings of a proof followed by its table. -/
def text (p : Proof) : String :=
  "Answer bindings: " ++ p.bindings.text ++ "\n" ++ p.table

end Proof

end ClausalReasoner
