/-
  StackToHack.Name — which words may name a label or a procedure.

  Labels, procedures, return addresses, comparison labels, static variables and the
  assembler's own symbols share one set of assembly symbols. The rules keep the words
  of a source apart from the symbols made for it:
  - `$` joins a procedure and what lies in its scope, so no word holds it;
  - `ret.` and digits, as a label, would be a return address of its procedure;
  - a predefined symbol, `TRUE_` or `DONE_` and digits, or a word that ends in a dot
    and digits, as a procedure, would be a symbol of another kind.
  `labelFault?` and `procedureFault?` name the first rule that a word breaks. That a
  word is an identifier is a rule of the source text alone, `isIdentifier`.
-/

import StackToHack.Text.Line
import StackToHack.Predefined

namespace StackToHack

inductive NameFault
  | separator
  | returnAddress
  | predefined
  | comparison
  | static
  | identifier
  deriving DecidableEq, Repr

namespace NameFault

def message (word : String) : NameFault → String
  | separator => "`" ++ word ++ "`: `$` is reserved for label scoping"
  | returnAddress => "`" ++ word ++ "` is reserved for return addresses"
  | predefined => "`" ++ word ++ "` names a predefined symbol"
  | comparison => "`" ++ word ++ "` is reserved for comparison labels"
  | static => "`" ++ word ++ "` would collide with a static variable"
  | identifier => "`" ++ word ++ "` is not a valid identifier"

end NameFault

namespace Name

def isNumbered (stem word : String) : Bool :=
  ((stem.toList.isPrefixOf? word.toList).map Text.isNumeral).getD false

/-- A numeral after the last dot. -/
def endsInIndex (word : String) : Bool :=
  ((Text.cutLast? '.' word.toList).map fun parts => Text.isNumeral parts.2).getD false

def hasSeparator (word : String) : Bool :=
  word.toList.isEmpty || word.toList.contains '$'

def labelFault? (word : String) : Option NameFault :=
  if hasSeparator word then some .separator
  else if isNumbered "ret." word then some .returnAddress
  else none

def procedureFault? (word : String) : Option NameFault :=
  if hasSeparator word then some .separator
  else if (Predefined.ofName? word).isSome then some .predefined
  else if isNumbered "TRUE_" word || isNumbered "DONE_" word then some .comparison
  else if endsInIndex word then some .static
  else none

def isIdentifierChar (c : Char) : Bool :=
  c.isAlphanum || c == '_' || c == '.' || c == ':'

/-- One character of identifiers or more, the first no digit. -/
def isIdentifier (word : String) : Bool :=
  match word.toList with
  | [] => false
  | c :: rest => !c.isDigit && (c :: rest).all isIdentifierChar

end Name

end StackToHack
