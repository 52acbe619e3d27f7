/-
  StackToHack.Instruction — the stack machine's instructions and how they are written.

  An instruction is a keyword and its operands: a segment and an index, a label, or a
  procedure and a count. `text` writes it with single spaces.
  - `Segment.ofName?_eq_some`, `Operation.ofName?_eq_some`, `Keyword.ofWord?_eq_some`:
    a word is read as what it is the name of, and as nothing else.
-/

namespace StackToHack

/-! ## Segments -/

inductive Segment
  | constant
  | locals
  | static
  | argument
  | this
  | that
  | pointer
  | temp
  deriving DecidableEq, Repr

namespace Segment

def name : Segment → String
  | constant => "constant"
  | locals => "local"
  | static => "static"
  | argument => "argument"
  | this => "this"
  | that => "that"
  | pointer => "pointer"
  | temp => "temp"

def all : List Segment :=
  [constant, locals, static, argument, this, that, pointer, temp]

def ofName? (word : String) : Option Segment :=
  all.find? (·.name == word)

theorem ofName?_eq_some {word : String} {s : Segment} : ofName? word = some s ↔ s.name = word := by
  constructor
  · intro h
    simpa using List.find?_some h
  · rintro rfl
    cases s <;> rfl

end Segment

/-! ## Operations -/

inductive Unary
  | neg
  | not
  deriving DecidableEq, Repr

inductive Binary
  | add
  | sub
  | and
  | or
  deriving DecidableEq, Repr

inductive Comparison
  | eq
  | gt
  | lt
  deriving DecidableEq, Repr

inductive Operation
  | unary (u : Unary)
  | binary (b : Binary)
  | compare (c : Comparison)
  deriving DecidableEq, Repr

namespace Operation

def name : Operation → String
  | binary .add => "add"
  | binary .sub => "sub"
  | unary .neg => "neg"
  | compare .eq => "eq"
  | compare .gt => "gt"
  | compare .lt => "lt"
  | binary .and => "and"
  | binary .or => "or"
  | unary .not => "not"

def all : List Operation :=
  [binary .add, binary .sub, unary .neg, compare .eq, compare .gt, compare .lt, binary .and, binary .or, unary .not]

def ofName? (word : String) : Option Operation :=
  all.find? (·.name == word)

theorem ofName?_eq_some {word : String} {o : Operation} : ofName? word = some o ↔ o.name = word := by
  constructor
  · intro h
    simpa using List.find?_some h
  · rintro rfl
    rcases o with u | b | c
    · cases u <;> rfl
    · cases b <;> rfl
    · cases c <;> rfl

end Operation

/-! ## Keywords -/

inductive Keyword
  | operation (o : Operation)
  | push
  | pop
  | label
  | goto
  | ifGoto
  | function
  | call
  | ret
  deriving DecidableEq, Repr

namespace Keyword

def name : Keyword → String
  | operation o => o.name
  | push => "push"
  | pop => "pop"
  | label => "label"
  | goto => "goto"
  | ifGoto => "if-goto"
  | function => "function"
  | call => "call"
  | ret => "return"

def all : List Keyword :=
  Operation.all.map operation ++ [push, pop, label, goto, ifGoto, function, call, ret]

def ofWord? (word : String) : Option Keyword :=
  all.find? (·.name == word)

theorem ofWord?_eq_some {word : String} {k : Keyword} : ofWord? word = some k ↔ k.name = word := by
  constructor
  · intro h
    simpa using List.find?_some h
  · rintro rfl
    rcases k with ⟨u | b | c⟩ | _ | _ | _ | _ | _ | _ | _ | _
    · cases u <;> rfl
    · cases b <;> rfl
    · cases c <;> rfl
    all_goals rfl

end Keyword

/-! ## Instructions -/

inductive Instruction
  | operation (o : Operation)
  | push (segment : Segment) (index : Nat)
  | pop (segment : Segment) (index : Nat)
  | label (name : String)
  | goto (name : String)
  | ifGoto (name : String)
  /-- The start of a procedure with so many locals. -/
  | function (name : String) (locals : Nat)
  /-- A call with so many arguments on the stack. -/
  | call (name : String) (arguments : Nat)
  | ret
  deriving DecidableEq, Repr

namespace Instruction

def keyword : Instruction → Keyword
  | operation o => .operation o
  | push _ _ => .push
  | pop _ _ => .pop
  | label _ => .label
  | goto _ => .goto
  | ifGoto _ => .ifGoto
  | function _ _ => .function
  | call _ _ => .call
  | ret => .ret

def operands : Instruction → List String
  | operation _ => []
  | push s i => [s.name, i.repr]
  | pop s i => [s.name, i.repr]
  | label l => [l]
  | goto l => [l]
  | ifGoto l => [l]
  | function f n => [f, n.repr]
  | call f n => [f, n.repr]
  | ret => []

def text (i : Instruction) : String :=
  " ".intercalate (i.keyword.name :: i.operands)

end Instruction

end StackToHack
