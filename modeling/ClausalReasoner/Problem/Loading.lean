/-
This file loads problems: the sentences of a file and of the files that it includes, sorted into
premises, conjectures and conjectures that are negated already. The inputs of a file are taken one
by one, and each is dealt with before the next one is looked at, so the first thing that is wrong is
what is reported.

Files are named by their path. How a file is read is left open, so that problems can be loaded from
a disk as well as from files that are given otherwise.
-/

import ClausalReasoner.Problem.Grammar

namespace ClausalReasoner

/-- A problem: what is known and what is asked. -/
structure Problem where
  premises : List Sentence := []
  conjectures : List Sentence := []
  /-- Conjectures that are negated already, which are known like premises. -/
  negatedConjectures : List Sentence := []
  deriving DecidableEq, Inhabited, Repr

namespace Problem

/-- One problem after another. -/
def append (first second : Problem) : Problem :=
  ⟨first.premises ++ second.premises, first.conjectures ++ second.conjectures,
    first.negatedConjectures ++ second.negatedConjectures⟩

/-- Add a sentence by the role of its formula. Every role but those of conjectures is that of a
premise. -/
def add (problem : Problem) (role : String) (s : Sentence) : Problem :=
  if role = "conjecture" then { problem with conjectures := problem.conjectures ++ [s] }
  else if role = "negated_conjecture" then
    { problem with negatedConjectures := problem.negatedConjectures ++ [s] }
  else { problem with premises := problem.premises ++ [s] }

/-! ### Paths -/

/-- The path of the directory that a file lies in, up to and with the last slash. -/
def directoryOf (path : String) : String :=
  String.ofList (path.toList.reverse.dropWhile (· ≠ '/')).reverse

/-- A path as seen from a directory. An absolute path stays as it is. -/
def resolve (directory name : String) : String :=
  if name.toList.head? = some '/' then name else directory ++ name

/-! ### Inputs -/

/-- What a formula or an inclusion adds to a problem. `includeFile` loads the file of a path, and
without a directory to look from there is no such file. -/
def inputProblem {m : Type → Type} [Monad m] (includeFile : String → m (Except Failure Problem))
    (directory : Option String) : Grammar.ProblemInput → m (Except Failure Problem)
  | .formula role (.ok s) => return .ok (Problem.add {} role s)
  | .formula _ (.error input) => return .error (.unsupported input)
  | .clauseFormula => return .error (.unsupported .clauseFormula)
  | .typedFormula => return .error (.unsupported .typedFormula)
  | .inclusion _ (some names) => return .error (.unsupported (.includeSelection names))
  | .inclusion name none =>
    match directory with
    | none => return .error (.unsupported .includeWithoutDirectory)
    | some directory => includeFile (resolve directory name)

/-- Go through the inputs of a text, at most so many. Reading stops where the text is cut off, and
then nothing may be left but blanks and comments. -/
def readInputs {m : Type → Type} [Monad m] (includeFile : String → m (Except Failure Problem))
    (directory : Option String) (bound : Nat) :
    (inputs : Nat) → List Char → Problem → m (Except Failure Problem)
  | 0, _, _ => return .error (.malformed .trailingInput)
  | inputs + 1, text, problem =>
    match Reader.skip text with
    | ([], false) => return .ok problem
    | (_, false) => return .error (.malformed .trailingInput)
    | (rest, true) =>
      match Grammar.input bound rest with
      | .mismatch => return .error (.malformed .malformed)
      | .cutOff => return .error (.malformed .trailingInput)
      | .done input rest => do
        match ← inputProblem includeFile directory input with
        | .error failure => return .error failure
        | .ok more => readInputs includeFile directory bound inputs rest (problem.append more)

/-- Read a text, looking for included files from a directory if one is given. Every input takes up
some of the text, so there are no more of them than characters. -/
def readText {m : Type → Type} [Monad m] (includeFile : String → m (Except Failure Problem))
    (directory : Option String) (text : List Char) : m (Except Failure Problem) :=
  readInputs includeFile directory (text.length + 1) (text.length + 1) text {}

/-- Read a text that stands for itself: it must not include files. -/
def ofText (text : List Char) : Except Failure Problem :=
  Id.run (readText (fun _ => pure (.error (.file .notFound))) none text)

/-! ### Files -/

/-- How files are read: the bytes of the file of a path, each as one character. -/
abbrev FileReader (m : Type → Type) := String → m (Except FileFault (List Char))

/-- How many files may include one another in a row. -/
def maxInclusions : Nat := 1000000

/-- Load a file that is included by others, of which there may be at most so many more in a row. -/
def loadWithin {m : Type → Type} [Monad m] (read : FileReader m) :
    (inclusions : Nat) → String → m (Except Failure Problem)
  | 0, _ => return .error (.file .tooManyLevels)
  | inclusions + 1, path => do
    match ← read path with
    | .error fault => return .error (.file fault)
    | .ok text => readText (loadWithin read inclusions) (some (directoryOf path)) text

/-- Load the problem of a file. -/
def load {m : Type → Type} [Monad m] (read : FileReader m) (path : String) :
    m (Except Failure Problem) :=
  loadWithin read maxInclusions path

end Problem

end ClausalReasoner
