/-
This file writes terms, atoms, sentences and substitutions as text. The text is meant for people:
an index is written straight after the name of its variable, so different expressions may look
alike, and it is never read back. A connected sentence is put into parentheses wherever it stands
inside a negation or another connected sentence, and the body of a quantifier always is.
-/

import ClausalReasoner.Substitution

namespace ClausalReasoner

/-- A variable is its name followed by its index, if it carries one. -/
def Variable.text (v : Variable) : String :=
  match v.index with
  | none => v.name
  | some index => v.name ++ toString index

/-- Texts with a comma and a blank between them. -/
def commaSeparated (texts : List String) : String :=
  ", ".intercalate texts

mutual

/-- An application always shows its parentheses, even around no arguments. -/
def Term.text : Term → String
  | .constant name => name
  | .var v => v.text
  | .app function ts => function ++ "(" ++ commaSeparated (Term.textList ts) ++ ")"

/-- The texts of the terms of a list. -/
def Term.textList : List Term → List String
  | [] => []
  | t :: ts => Term.text t :: Term.textList ts

end

/-- A predicate without arguments is written without parentheses. -/
def Atom.text : Atom → String
  | .predicate name [] => name
  | .predicate name ts => name ++ "(" ++ commaSeparated (Term.textList ts) ++ ")"
  | .equality left right => left.text ++ " = " ++ right.text

/-- The sign of a connective. -/
def Connective.text : Connective → String
  | .conjunction => "∧"
  | .disjunction => "∨"
  | .implication => "⇒"
  | .biconditional => "⇔"

/-- The sign of a quantifier. -/
def Quantifier.text : Quantifier → String
  | .universal => "∀"
  | .existential => "∃"

/-- Parentheses go around a connected sentence and around nothing else. -/
def Sentence.enclose (s : Sentence) (text : String) : String :=
  match s with
  | .connected _ _ _ => "(" ++ text ++ ")"
  | _ => text

/-- The text of a sentence. -/
def Sentence.text : Sentence → String
  | .atom a => a.text
  | .negation body => "¬" ++ body.enclose body.text
  | .connected connective left right =>
    left.enclose left.text ++ " " ++ connective.text ++ " " ++ right.enclose right.text
  | .quantified quantifier bound body =>
    quantifier.text ++ commaSeparated (bound.map Variable.text) ++ " (" ++ body.text ++ ")"

/-- The bindings of a substitution in the order of their variables, between braces. -/
def Substitution.text (σ : Substitution) : String :=
  "\x7b" ++ commaSeparated (σ.bindings.map fun entry => entry.1.text ++ "=" ++ entry.2.text) ++
    "\x7d"

end ClausalReasoner
