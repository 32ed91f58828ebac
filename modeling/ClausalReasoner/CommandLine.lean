/-
This file is the command line of the prover without its input and output: it reads the arguments,
loads the problem, asks its conjectures one after the other, and says what is to be printed and how
the program is to end. What was printed before something goes wrong stays printed.
-/

import ClausalReasoner.Asking
import ClausalReasoner.Problem.FileTree

namespace ClausalReasoner

/-! ### Arguments -/

/-- The procedures by the names that the command line knows them under. -/
inductive ProcedureName where
  | fc
  | bc
  | tfm
  | otter
  | me
  deriving DecidableEq, Inhabited, Repr

/-- The procedure of a name. -/
def ProcedureName.ofText? : String → Option ProcedureName
  | "fc" => some .fc
  | "bc" => some .bc
  | "tfm" => some .tfm
  | "otter" => some .otter
  | "me" => some .me
  | _ => none

/-- What the arguments have said so far. -/
structure Arguments where
  file : Option String := none
  procedure : Option ProcedureName := none
  seconds : Option Nat := none
  paramodulation : Option Bool := none
  proofs : Bool := false
  deriving DecidableEq, Inhabited, Repr

namespace Arguments

/-- The options that take a value. -/
inductive ValueOption where
  | procedure
  | timeout
  | paramodulation
  deriving DecidableEq, Inhabited, Repr

/-- A number of seconds: digits, perhaps after a plus sign, that fit into 64 bits. -/
def seconds? (text : String) : Option Nat :=
  let digits :=
    match text.toList with
    | '+' :: rest => rest
    | all => all
  if digits.isEmpty || !digits.all Char.isDigit then none
  else
    let number := digits.foldl (fun number digit => number * 10 + (digit.toNat - '0'.toNat)) 0
    if number < UInt64.size then some number else none

/-- Truth or falsity. -/
def truth? : String → Option Bool
  | "true" => some true
  | "false" => some false
  | _ => none

/-- Set an option, which must not have been set before, to a value that it knows. -/
def set (given : Arguments) (option : ValueOption) (value : String) : Option Arguments :=
  match option with
  | .procedure =>
    if given.procedure.isSome then none
    else (ProcedureName.ofText? value).map fun name => { given with procedure := some name }
  | .timeout =>
    if given.seconds.isSome then none
    else (seconds? value).map fun number => { given with seconds := some number }
  | .paramodulation =>
    if given.paramodulation.isSome then none
    else (truth? value).map fun on => { given with paramodulation := some on }

/-- Ask for proofs, which may be done once. -/
def setProofs (given : Arguments) : Option Arguments :=
  if given.proofs then none else some { given with proofs := true }

/-- Name the file, which may be done once. -/
def setFile (given : Arguments) (path : String) : Option Arguments :=
  if given.file.isSome then none else some { given with file := some path }

/-- What a single argument is. -/
inductive Kind where
  /-- The mark after which no argument is an option. -/
  | endOfOptions
  | proofs
  | option (option : ValueOption) (value : Option String)
  | file
  | unknown
  deriving DecidableEq, Inhabited, Repr

/-- The option of a letter. -/
def letterOption? : Char → Option ValueOption
  | 'p' => some .procedure
  | 't' => some .timeout
  | _ => none

/-- The option of a long name. -/
def longOption? (name : List Char) : Option ValueOption :=
  if name = "procedure".toList then some .procedure
  else if name = "timeout".toList then some .timeout
  else if name = "paramodulation".toList then some .paramodulation
  else none

/-- Recognise an argument. The value of an option may stand in the same argument: behind an equals
sign, or, after a letter, right behind it. -/
def kind (argument : String) : Kind :=
  match argument.toList with
  | ['-', '-'] => .endOfOptions
  | '-' :: '-' :: long =>
    let name := long.takeWhile (· ≠ '=')
    match long.dropWhile (· ≠ '=') with
    | [] =>
      if name = "proofs".toList then .proofs
      else
        match longOption? name with
        | some option => .option option none
        | none => .unknown
    | _ :: value =>
      match longOption? name with
      | some option => .option option (some (String.ofList value))
      | none => .unknown
  | '-' :: letter :: rest =>
    match letterOption? letter, rest with
    | none, _ => .unknown
    | some option, [] => .option option none
    | some option, '=' :: value => .option option (some (String.ofList value))
    | some option, value => .option option (some (String.ofList value))
  | _ => .file

/-- Whether an argument can be the value of the option before it: it must not look like an option
itself. -/
def isValue (argument : String) : Bool :=
  kind argument = .file

/-- Read arguments on top of those read already. `none` stands for wrong arguments. -/
def readMore : List String → Arguments → Option Arguments
  | [], given => some given
  | argument :: rest, given =>
    match kind argument with
    | .endOfOptions => rest.foldlM setFile given
    | .proofs => given.setProofs.bind (readMore rest)
    | .file => (given.setFile argument).bind (readMore rest)
    | .option option (some value) => (given.set option value).bind (readMore rest)
    | .option option none =>
      match rest with
      | value :: rest =>
        if isValue value then (given.set option value).bind (readMore rest) else none
      | [] => none
    | .unknown => none

/-- The procedure that the arguments ask for. There is a limit of ten seconds unless they say
otherwise. -/
def theProcedure (given : Arguments) : Procedure :=
  let limit := TimeLimit.ofSeconds (given.seconds.getD 10)
  match given.procedure.getD .otter with
  | .fc => .forwardChaining
  | .bc => .backwardChaining
  | .tfm => .saturation limit
  | .otter => .givenClause limit { paramodulation := given.paramodulation.getD true }
  | .me => .modelElimination limit

end Arguments

/-! ### Running -/

/-- What a run of the program leaves behind. -/
structure Report where
  /-- How the program ends: 0 if all went well, 1 if something went wrong, 2 for wrong arguments. -/
  code : Nat
  output : String := ""
  /-- What is written to the log of errors. -/
  errors : List String := []
  deriving DecidableEq, Inhabited, Repr

/-- A line of the log of errors, without the time. -/
def errorLine (failure : Failure) : String :=
  "ERROR  |folprover | " ++ failure.message

/-- The word for the outcome of a conjecture. -/
def Answer.status (answer : Answer) : String :=
  if answer.isPartial then "Theorem (partial, timed out)"
  else if answer.isTrue then "Theorem"
  else if answer.isUnknown then "Timeout"
  else "CounterSatisfiable"

/-- What is printed for a proof: the values of the variables, if there are any, and the proof itself
if it is wanted. -/
def Proof.printed (proofs : Bool) (proof : Proof) : String :=
  (if proof.bindings.isEmpty then "" else "  answer " ++ proof.bindings.text ++ "\n") ++
    (if proofs then proof.table ++ "\n" else "")

/-- What is printed for a conjecture. -/
def Answer.printed (proofs : Bool) (conjecture : Sentence) (answer : Answer) : String :=
  conjecture.text ++ ": " ++ answer.status ++ "\n" ++
    String.join (answer.proofs.map (Proof.printed proofs))

/-- Ask conjectures one after the other, up to the first that fails. -/
def askAll (fuel : Nat) (proofs : Bool) : List Sentence → KnowledgeBase → String → Option Report
  | [], _, output => some { code := 0, output }
  | conjecture :: rest, kb, output =>
    match kb.ask fuel conjecture with
    | none => none
    | some (.error failure, _) => some { code := 1, output, errors := [errorLine failure] }
    | some (.ok answer, kb) =>
      askAll fuel proofs rest kb (output ++ answer.printed proofs conjecture)

/-- Tell a knowledge base what a problem knows and ask what it asks. -/
def Problem.run (fuel : Nat) (given : Arguments) (problem : Problem) : Option Report :=
  let kb : KnowledgeBase := { procedure := given.theProcedure }
  match kb.tellAll (problem.premises ++ problem.negatedConjectures) with
  | (_, some failure) => some { code := 1, errors := [errorLine failure] }
  | (kb, none) => askAll fuel given.proofs problem.conjectures kb ""

/-- Run the program. The fuel bounds every search; `none` stands for a search that met the bound. -/
def runCommand {m : Type → Type} [Monad m] (fuel : Nat) (read : Problem.FileReader m)
    (arguments : List String) : m (Option Report) :=
  match Arguments.readMore arguments {} with
  | none => return some { code := 2 }
  | some given =>
    match given.file with
    | none => return some { code := 2 }
    | some path => do
      match ← Problem.load read path with
      | .error failure => return some { code := 1, errors := [errorLine failure] }
      | .ok problem => return problem.run fuel given

/-- Run the program on files in memory. -/
def runCommandOn (fuel : Nat) (tree : FileTree) (arguments : List String) : Option Report :=
  Id.run (runCommand fuel (fun path => pure (tree.read path)) arguments)

end ClausalReasoner
