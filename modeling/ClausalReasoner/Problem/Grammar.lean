/-
This file reads the inputs of a problem file: annotated formulas and inclusions of other files. What
is read of a formula is its meaning as a sentence. A formula may be well formed and yet have no
meaning here, because it uses predicates or terms that are reserved for systems or defined
elsewhere; then the meaning is the first such use from the left. Formulas of other kinds are only
read to see where they end.

The grammar nests, so its readers take a bound on the depth and on the length of lists. The length
of the text is enough of a bound for either.
-/

import ClausalReasoner.Failure
import ClausalReasoner.Problem.Reader

namespace ClausalReasoner

/-- The meaning of a part of a formula, or the reason why it has none. -/
abbrev Meaning (Value : Type) := Except UnsupportedInput Value

namespace Grammar

open Reader

/-! ### Words, names and numbers -/

/-- The characters of a word. -/
def isWordCharacter (c : Char) : Bool :=
  c.isAlphanum || c = '_'

/-- A word that begins with letters of one case. -/
def word (begins : Char → Bool) : Reader (List Char) := do
  let first ← someOf begins
  let rest ← manyOf isWordCharacter
  return first ++ rest

/-- A word that begins with a small letter. -/
def lowerWord : Reader (List Char) := word Char.isLower

/-- A word that begins with a capital letter. -/
def upperWord : Reader (List Char) := word Char.isUpper

/-- The characters that stand for themselves between quotes. -/
def isPlain (quote c : Char) : Bool :=
  ' ' ≤ c && c ≤ '~' && c ≠ quote && c ≠ '\\'

/-- The characters up to a closing quote, which is part of what is read. A backslash stands before a
quote or another backslash, and is read with it. -/
def quotedFrom (quote : Char) : List Char → Reading (List Char)
  | [] => .cutOff
  | '\\' :: [] => .cutOff
  | '\\' :: c :: rest =>
    if c = quote || c = '\\' then
      match quotedFrom quote rest with
      | .done more last => .done ('\\' :: c :: more) last
      | reading => reading
    else .mismatch
  | c :: rest =>
    if c = quote then .done [quote] rest
    else if isPlain quote c then
      match quotedFrom quote rest with
      | .done more last => .done (c :: more) last
      | reading => reading
    else .mismatch

/-- A quoted text, its quotes included. -/
def quoted (quote : Char) : Reader (List Char) := do
  exactly [quote]
  let rest ← quotedFrom quote
  return quote :: rest

/-- The name of a function or predicate. -/
def functor : Reader (List Char) :=
  lowerWord <|> quoted '\''

/-- A sign, or nothing. -/
def sign : Reader (List Char) := do
  return (← optional (character fun c => c = '+' || c = '-')).toList

/-- A positive number without leading zeros. -/
def positive : Reader (List Char) := do
  let first ← character fun c => c.isDigit && c ≠ '0'
  let rest ← manyOf Char.isDigit
  return first :: rest

/-- An integer. -/
def integer : Reader (List Char) := do
  let s ← sign
  let digits ← (do exactly ['0']; return ['0']) <|> positive
  return s ++ digits

/-- A fraction whose denominator is not zero. -/
def rational : Reader (List Char) := do
  let numerator ← integer
  exactly ['/']
  let denominator ← positive
  return numerator ++ '/' :: denominator

/-- An exponent. -/
def exponent : Reader (List Char) := do
  let e ← character fun c => c = 'e' || c = 'E'
  let s ← sign
  let digits ← someOf Char.isDigit
  return e :: s ++ digits

/-- A decimal number: it has decimals or an exponent or both. -/
def decimal : Reader (List Char) := do
  let whole ← integer
  let rest ← exponent <|> do
    exactly ['.']
    let digits ← someOf Char.isDigit
    let e ← optional exponent
    return '.' :: digits ++ e.getD []
  return whole ++ rest

/-- A number, in its spelling. -/
def number : Reader (List Char) :=
  decimal <|> rational <|> integer

/-! ### Terms -/

/-- Arguments in parentheses, at least one. -/
def argumentsOf {Value : Type} (bound : Nat) (argument : Reader Value) : Reader (List Value) := do
  skipped
  token "("
  skipped
  let list ← separated bound (around ",") argument
  skipped
  token ")"
  return list

/-- Arguments in parentheses, or none at all. -/
def optionalArguments {Value : Type} (bound : Nat) (argument : Reader Value) :
    Reader (List Value) := do
  return (← optional (argumentsOf bound argument)).getD []

/-- The meaning of a list is the list of meanings. -/
def meanings {Value : Type} (list : List (Meaning Value)) : Meaning (List Value) :=
  list.mapM id

/-- A name that belongs to the system that runs the problem. -/
def systemWord : Reader (List Char) := do
  token "$$"
  lowerWord

/-- A name with a meaning fixed elsewhere. -/
def definedWord : Reader (List Char) := do
  token "$"
  lowerWord

/-- A term. Quoted names keep their quotes, and numbers are constants in their spelling. -/
def term (bound : Nat) : (depth : Nat) → Reader (Meaning Term)
  | 0 => never
  | depth + 1 =>
    (do return .ok (.var ⟨String.ofList (← upperWord), none⟩)) <|>
    (do
      let name := String.ofList (← functor)
      match ← optional (argumentsOf bound (term bound depth)) with
      | none => return .ok (.constant name)
      | some list => return (meanings list).map (Term.app name)) <|>
    (do
      let _ ← systemWord
      let _ ← optionalArguments bound (term bound depth)
      return .error .systemTerm) <|>
    (do return .ok (.constant (String.ofList (← number)))) <|>
    (do return .ok (.constant (String.ofList (← quoted '"')))) <|>
    (do
      let _ ← definedWord
      let _ ← optionalArguments bound (term bound depth)
      return .error .definedAtomicTerm)

/-! ### Formulas -/

/-- The sentence that stands for truth: something equals itself. -/
def truth : Sentence :=
  .atom (.equality (.constant "$true") (.constant "$true"))

/-- The meaning of a name with a fixed meaning as a formula: there is truth and falsity only. -/
def definedMeaning (name : List Char) (list : List (Meaning Term)) : Meaning Sentence :=
  if list.isEmpty && name = "true".toList then .ok truth
  else if list.isEmpty && name = "false".toList then .ok (.negation truth)
  else .error .definedPredicate

/-- The meaning of an equality. -/
def equalityMeaning (left right : Meaning Term) : Meaning Sentence := do
  return .atom (.equality (← left) (← right))

/-- The meaning of a negated formula. -/
def negationMeaning (body : Meaning Sentence) : Meaning Sentence :=
  body.map Sentence.negation

/-- The meaning of two formulas joined by a connective. -/
def connectedMeaning (connective : Connective) (left right : Meaning Sentence) :
    Meaning Sentence := do
  return .connected connective (← left) (← right)

/-- An equation or the negation of one, after its left side. -/
def rightSide (bound : Nat) (left : Meaning Term) : Reader (Meaning Sentence) :=
  (do
    around "="
    return equalityMeaning left (← term bound bound)) <|>
  (do
    around "!="
    return negationMeaning (equalityMeaning left (← term bound bound)))

/-- A predicate, or an equation or negated equation that begins with a constant or a function. -/
def plainUnit (bound : Nat) : Reader (Meaning Sentence) := do
  let name := String.ofList (← functor)
  let list ← optional (argumentsOf bound (term bound bound))
  let left : Meaning Term :=
    match list with
    | none => .ok (.constant name)
    | some list => (meanings list).map (Term.app name)
  match ← optional (rightSide bound left) with
  | some equation => return equation
  | none => return (meanings (list.getD [])).map fun ts => .atom (.predicate name ts)

/-- The negation of an equation, written with the sign of difference. -/
def difference (bound : Nat) : Reader (Meaning Sentence) := do
  let left ← term bound bound
  around "!="
  return negationMeaning (equalityMeaning left (← term bound bound))

/-- The atoms that do not begin with a name: predicates of the system, equations, and names with a
fixed meaning. -/
def otherAtom (bound : Nat) : Reader (Meaning Sentence) :=
  (do
    let _ ← systemWord
    let _ ← optionalArguments bound (term bound bound)
    return .error .systemPredicate) <|>
  (do
    let left ← term bound bound
    around "="
    return equalityMeaning left (← term bound bound)) <|>
  (do
    let name ← definedWord
    let list ← optionalArguments bound (term bound bound)
    return definedMeaning name list)

/-- The connectives that join exactly two formulas, with what they make of them. -/
def pairing : Reader (Meaning Sentence → Meaning Sentence → Meaning Sentence) :=
  (do token "=>"; return connectedMeaning .implication) <|>
  (do token "<=>"; return connectedMeaning .biconditional) <|>
  (do
    token "<="
    return fun left right => do
      let l ← left
      let r ← right
      return .implies r l) <|>
  (do
    token "<~>"
    return fun left right => negationMeaning (connectedMeaning .biconditional left right)) <|>
  (do
    token "~&"
    return fun left right => negationMeaning (connectedMeaning .conjunction left right)) <|>
  (do
    token "~|"
    return fun left right => negationMeaning (connectedMeaning .disjunction left right))

/-- More operands of a connective that joins any number of formulas. -/
def operands (bound : Nat) (connective : Connective) (sign : String)
    (unit : Reader (Meaning Sentence)) (first : Meaning Sentence) : Reader (Meaning Sentence) := do
  let operand : Reader (Meaning Sentence) := do
    around sign
    unit
  let second ← operand
  let rest ← repeatedToEnd operand bound
  return rest.foldl (connectedMeaning connective) (connectedMeaning connective first second)

/-- A formula made of units. -/
def formulaOf (bound : Nat) (unit : Reader (Meaning Sentence)) : Reader (Meaning Sentence) := do
  let first ← unit
  let more : Reader (Meaning Sentence) :=
    operands bound .disjunction "|" unit first <|>
    operands bound .conjunction "&" unit first <|>
    (do
      skipped
      let join ← pairing
      skipped
      return join first (← unit))
  return (← optional more).getD first

/-- A type, of which only the end matters. -/
def type (bound : Nat) : (depth : Nat) → Reader Unit
  | 0 => never
  | depth + 1 => do
    let single : Reader Unit :=
      (do
        let _ ← definedWord
        let _ ← optionalArguments bound (type bound depth)) <|>
      (do
        let _ ← functor
        let _ ← optionalArguments bound (type bound depth)) <|>
      (do let _ ← upperWord) <|>
      (do
        token "("
        skipped
        type bound depth
        skipped
        token ")")
    single
    let _ ← optional (do
      (around "*") <|> (around ">")
      type bound depth)

/-- A variable of a quantifier, followed by its type in a typed formula. -/
def boundVariable (typed : Bool) (bound : Nat) : Reader Variable := do
  let name ← upperWord
  if typed then
    let _ ← optional (do
      around ":"
      type bound bound)
  return ⟨String.ofList name, none⟩

/-- A quantifier with its variables. -/
def quantifier (typed : Bool) (bound : Nat) : Reader (Quantifier × List Variable) := do
  let q ← (do token "!"; return Quantifier.universal) <|>
    (do token "?"; return Quantifier.existential)
  around "["
  let list ← separated bound (around ",") (boundVariable typed bound)
  around "]"
  token ":"
  skipped
  return (q, list)

/-- A unit: an atom, or a negated, quantified or parenthesised formula. A negation or a quantifier
takes the next unit only. -/
def unit (typed : Bool) (bound : Nat) : (depth : Nat) → Reader (Meaning Sentence)
  | 0 => never
  | depth + 1 =>
    plainUnit bound <|>
    (do
      token "~"
      skipped
      return negationMeaning (← unit typed bound depth)) <|>
    difference bound <|>
    (do
      let (q, list) ← quantifier typed bound
      return (← unit typed bound depth).map (Sentence.quantified q list)) <|>
    (do
      token "("
      skipped
      let inner ← formulaOf bound (unit typed bound depth)
      skipped
      token ")"
      return inner) <|>
    otherAtom bound

/-- A formula. -/
def formula (bound : Nat) : Reader (Meaning Sentence) :=
  formulaOf bound (unit false bound bound)

/-- A typed formula, or the declaration of a type. -/
def typedFormula (bound : Nat) : Reader Unit :=
  (do
    let _ ← functor
    around ":"
    type bound bound) <|>
  (do let _ ← formulaOf bound (unit true bound bound))

/-- A clause written as a disjunction of literals, perhaps in parentheses. -/
def clauseFormula (bound : Nat) : Reader Unit :=
  let positive : Reader (Meaning Sentence) :=
    plainUnit bound <|> difference bound <|> otherAtom bound
  let literal : Reader (Meaning Sentence) :=
    (do token "~"; skipped; positive) <|> positive
  let disjunction : Reader Unit := do
    let _ ← separated bound (around "|") literal
  (do
    token "("
    skipped
    disjunction
    skipped
    token ")") <|> disjunction

/-! ### Annotations -/

/-- The name of a formula. -/
def name : Reader (List Char) :=
  functor <|> integer

/-- A general list: general terms in brackets. -/
def generalListOf (bound : Nat) (general : Reader Unit) : Reader Unit := do
  token "["
  skipped
  let _ ← optional (separated bound (around ",") general)
  skipped
  token "]"

/-- Something in parentheses after a keyword. -/
def formulaData (keyword : String) (inner : Reader Unit) : Reader Unit := do
  token keyword
  around "("
  inner
  skipped
  token ")"

/-- A general term, of which only the end matters. -/
def generalTerm (bound : Nat) : (depth : Nat) → Reader Unit
  | 0 => never
  | depth + 1 =>
    let general := generalTerm bound depth
    let data : Reader Unit :=
      (do
        let _ ← functor
        let _ ← optionalArguments bound general) <|>
      (do let _ ← upperWord) <|>
      (do let _ ← number) <|>
      (do let _ ← quoted '"') <|>
      formulaData "$tff" (typedFormula bound) <|>
      formulaData "$fof" (do let _ ← formula bound) <|>
      formulaData "$cnf" (clauseFormula bound) <|>
      formulaData "$fot" (do let _ ← term bound bound)
    generalListOf bound general <|>
    (do
      data
      let _ ← optional (do
        around ":"
        general))

/-- The annotations of a formula, of which only the end matters. -/
def annotations (bound : Nat) : Reader Unit := do
  around ","
  generalTerm bound bound
  let _ ← optional (do
    around ","
    generalListOf bound (generalTerm bound bound))

/-! ### Inputs -/

/-- An input of a problem file. -/
inductive ProblemInput where
  | formula (role : String) (meaning : Meaning Sentence)
  | clauseFormula
  | typedFormula
  | inclusion (file : String) (selection : Option (List String))
  deriving Inhabited

/-- A formula in its frame: a name, a role, the formula itself and perhaps annotations. -/
def annotated {Value : Type} (bound : Nat) (body : Reader Value) : Reader (List Char × Value) := do
  around "("
  let _ ← name
  around ","
  let role ← lowerWord
  around ","
  let value ← body
  let _ ← optional (annotations bound)
  around ")"
  token "."
  return (role, value)

/-- The names that an inclusion selects. -/
def selection (bound : Nat) : Reader (List String) := do
  around ","
  token "["
  skipped
  let names ← separated bound (around ",") name
  around "]"
  return names.map String.ofList

/-- The inclusion of a file. The quotes of its name are all removed. -/
def inclusion (bound : Nat) : Reader ProblemInput := do
  token "include"
  around "("
  let file ← quoted '\''
  let selected ← optional (selection bound)
  around ")"
  token "."
  return .inclusion (String.ofList (file.filter fun c => c ≠ '\'')) selected

/-- One input. -/
def input (bound : Nat) : Reader ProblemInput :=
  (do
    token "tff"
    let _ ← annotated bound (typedFormula bound)
    return .typedFormula) <|>
  (do
    token "fof"
    let (role, meaning) ← annotated bound (formula bound)
    return .formula (String.ofList role) meaning) <|>
  (do
    token "cnf"
    let _ ← annotated bound (clauseFormula bound)
    return .clauseFormula) <|>
  inclusion bound

end Grammar

end ClausalReasoner
