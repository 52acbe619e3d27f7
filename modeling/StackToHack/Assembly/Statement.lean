/-
  StackToHack.Assembly.Statement — one line of assembly.

  `text` is the only place where a statement is written out, and `write` puts statements
  on lines.
  - `write_append`: code put together is written together.
-/

import StackToHack.Assembly.Computation
import StackToHack.Assembly.Symbol

namespace StackToHack

inductive Statement
  | comment (text : String)
  /-- Loads what a symbol stands for into `A`. -/
  | load (s : Symbol)
  /-- Loads a number into `A`. -/
  | loadNumber (n : Nat)
  | compute (t : Destination) (e : Expression) (j : Condition)
  /-- Names the place of the next instruction. -/
  | label (s : Symbol)
  deriving DecidableEq, Repr

namespace Statement

def assign (t : Destination) (e : Expression) : Statement :=
  compute t e .never

def jump (e : Expression) (j : Condition) : Statement :=
  compute .nowhere e j

/-- Loads the address of a predefined symbol. -/
def loadCell (p : Predefined) : Statement :=
  load (.predefined p)

def text : Statement → String
  | comment words => "// " ++ words
  | load s => "@" ++ s.text
  | loadNumber n => "@" ++ n.repr
  | compute t e j =>
    (if t = .nowhere then "" else t.text ++ "=") ++ e.text ++ (if j = .never then "" else ";" ++ j.text)
  | label s => "(" ++ s.text ++ ")"

/-- The assembly of statements, a line feed after each. -/
def write (code : List Statement) : String :=
  String.join (code.map fun s => s.text ++ "\n")

theorem toList_text_load (s : Symbol) : (load s).text.toList = '@' :: s.text.toList := by simp [text]

theorem toList_text_loadNumber (n : Nat) : (loadNumber n).text.toList = '@' :: n.repr.toList := by
  rw [text, String.toList_append]
  rfl

theorem toList_text_label (s : Symbol) : (label s).text.toList = '(' :: (s.text.toList ++ [')']) := by simp [text]

theorem write_append (first second : List Statement) : write (first ++ second) = write first ++ write second := by
  simp [write]

end Statement

end StackToHack
