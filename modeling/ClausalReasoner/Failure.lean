/-
This file names what can go wrong: a query that a procedure cannot answer, an assertion or a set of
premises that contradicts itself, and problem files that cannot be read or say something that has no
meaning here. A search that finds nothing or runs out of time is not among them, since that is an
answer.
-/

import ClausalReasoner.Rendering

namespace ClausalReasoner

/-- Why a file could not be read. -/
inductive FileFault where
  | notFound
  | isDirectory
  | notDirectory
  | tooManyLevels
  | other (description : String)
  deriving DecidableEq, Inhabited, Repr

/-- What a problem may say that has no meaning here. -/
inductive UnsupportedInput where
  | systemPredicate
  | systemTerm
  | definedPredicate
  | definedAtomicTerm
  | clauseFormula
  | typedFormula
  | includeSelection (names : List String)
  | includeWithoutDirectory
  deriving DecidableEq, Inhabited, Repr

/-- What is wrong with the text of a problem. -/
inductive SyntaxFault where
  | malformed
  | trailingInput
  deriving DecidableEq, Inhabited, Repr

/-- What can go wrong. -/
inductive Failure where
  /-- The procedure answers atomic queries only. -/
  | nonAtomicQuery (procedure : String) (query : Sentence)
  /-- The clauses of a sentence contradict each other. -/
  | unsatisfiableAssertion (s : Sentence)
  /-- The premises were found to contradict each other. -/
  | inconsistentPremises
  | file (fault : FileFault)
  | malformed (fault : SyntaxFault)
  | unsupported (input : UnsupportedInput)
  deriving DecidableEq, Inhabited, Repr

/-- The message of the operating system with its number. -/
def FileFault.message : FileFault → String
  | .notFound => "No such file or directory (os error 2)"
  | .isDirectory => "Is a directory (os error 21)"
  | .notDirectory => "Not a directory (os error 20)"
  | .tooManyLevels => "Too many levels of symbolic links (os error 40)"
  | .other description => description

/-- What is not supported. -/
def UnsupportedInput.message : UnsupportedInput → String
  | .systemPredicate => "system predicates"
  | .systemTerm => "system terms"
  | .definedPredicate => "defined predicates other than $true and $false"
  | .definedAtomicTerm => "defined atomic terms"
  | .clauseFormula => "CNF formulas"
  | .typedFormula => "TFF/THF formulas"
  | .includeSelection names => "include selection " ++ ",".intercalate names
  | .includeWithoutDirectory => "include without a base directory"

/-- What is wrong with the text. -/
def SyntaxFault.message : SyntaxFault → String
  | .malformed => "syntax error in TPTP input"
  | .trailingInput => "trailing input after the last formula"

/-- The message for a failure. -/
def Failure.message : Failure → String
  | .nonAtomicQuery procedure query =>
    "only atomic queries are supported by " ++ procedure ++ ", got: " ++ query.text
  | .unsatisfiableAssertion s =>
    "attempted to add an unsatisfiable sentence to the knowledge base: " ++ s.text
  | .inconsistentPremises =>
    "derived the empty clause while looking for an answer, the premises are unsatisfiable"
  | .file fault => "IO error: " ++ fault.message
  | .malformed fault => "Parse error: " ++ fault.message
  | .unsupported input => "Unsupported input: " ++ input.message

end ClausalReasoner
