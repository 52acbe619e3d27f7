/-
  StackToHack.Proofs.Effects — the cells that pushes, pops and operations write.

  The code of such an instruction is taken on its own: its lines are read by a table of
  symbols, whichever made it, and run from whatever state the machine is in. What is in
  the memory then is stated cell by cell. A pop at an offset has the popped value, the
  address and the stack pointer in three places that may be one, so the order of the
  stores counts: the value is read first, and stored last.
  - `Assembler.tableOrders_text`: lines of code read by a table.
  - `Instruction.effect`: what an instruction writes.
  - `data_effects_exact`: the code writes this and nothing else.
-/

import StackToHack.Proofs.Simulation
import StackToHack.Proofs.Loads

namespace StackToHack

open Processor StackMachine

/-! ## Lines and a table of symbols -/

namespace Assembler

/-- The order that a line gives, none if it is a comment's or a label's. What stands behind
    `@` is a number if it can be read as one, else the table says what it stands for. -/
def tableOrder (table : String → Nat) (line : List Char) : Except Problem (Option Order) :=
  match line with
  | '/' :: '/' :: _ => .ok none
  | '(' :: _ => .ok none
  | '@' :: name => match (Text.unsigned? name).filter (· < 65536) with
    | some n => if n ≤ maxLoad then .ok (some (.load (BitVec.ofNat 16 n))) else .error (.tooLarge n)
    | none => .ok (some (.load (BitVec.ofNat 16 (table (String.ofList name)))))
  | _ => (computation line).map some

def tableOrders (table : String → Nat) : List String → Except Problem (List Order)
  | [] => .ok []
  | line :: rest => match tableOrder table line.toList with
    | .error problem => .error problem
    | .ok order? => (tableOrders table rest).map (order?.toList ++ ·)

end Assembler

namespace Statement

/-- The number can be loaded, and the symbol is no number and has this value in the table. -/
def Tabled (table : String → Nat) (value : Symbol → Nat) : Statement → Prop
  | load s => s.isProcedure = false ∧ table s.text = value s
  | loadNumber n => n ≤ maxLoad
  | _ => True

theorem tableOrder_text {table : String → Nat} {value : Symbol → Nat} {s : Statement} (h : s.Tabled table value) :
    Assembler.tableOrder table s.text.toList = .ok (s.order? value) := by
  cases s with
  | comment words =>
    have e : (comment words).text.toList = '/' :: '/' :: ' ' :: words.toList := by simp [text]
    rw [e]
    rfl
  | load symbol =>
    have hnumber : (Text.unsigned? symbol.text.toList).filter (· < 65536) = none := by
      rw [Symbol.unsigned?_text_eq_none h.1, Option.filter_none]
    rw [toList_text_load, Assembler.tableOrder, hnumber, String.ofList_toList, h.2]
    rfl
  | loadNumber n =>
    have hn : n ≤ maxLoad := h
    rw [toList_text_loadNumber, Assembler.tableOrder, Assembler.filter_unsigned?_repr hn]
    exact if_pos hn
  | compute t e j =>
    have hhead : ∀ c ∈ ['(', '@', '/'], (compute t e j).text.toList.head? ≠ some c := fun c hc =>
      head_text_compute t e j (by simpa using hc)
    have hread := Assembler.computation_text t e j
    unfold Assembler.tableOrder
    split
    · rename_i hline
      exact absurd (congrArg List.head? hline) (hhead '/' (by decide))
    · rename_i hline
      exact absurd (congrArg List.head? hline) (hhead '(' (by decide))
    · rename_i hline
      exact absurd (congrArg List.head? hline) (hhead '@' (by decide))
    · rw [hread]
      rfl
  | label symbol =>
    rw [toList_text_label]
    rfl

end Statement

/-- Code whose symbols the table has is read as if the assembler had linked it. -/
theorem Assembler.tableOrders_text {table : String → Nat} {asm : Assembled} {code : List Statement}
    (h : ∀ s ∈ code, s.Tabled table asm.value) : tableOrders table (code.map Statement.text) = .ok (asm.link code) := by
  induction code with
  | nil => rfl
  | cons s code ih =>
    have hrest := ih fun s hs => h s (List.mem_cons_of_mem _ hs)
    have hlink : asm.link (s :: code) = (s.order? asm.value).toList ++ asm.link code := by
      rw [Assembled.link, List.filterMap_cons]
      cases s.order? asm.value <;> rfl
    rw [List.map_cons, tableOrders, Statement.tableOrder_text (h s List.mem_cons_self), hrest, hlink]
    rfl

/-! ## Effects -/

structure MapsCells (table : String → Nat) : Prop where
  predefined : ∀ p : Predefined, p.address < firstVariable → table p.name = p.address
  statics : ∀ unit i, table (Symbol.static unit i).text < memorySize

namespace Segment

/-- The cell of a segment. An offset is added as a word is, so a pointer may be below zero. -/
def cell (table : String → Nat) (unit : String) (m : Memory) (index : Nat) : Segment → Nat
  | .constant => index
  | .locals => (m.get .lcl + BitVec.ofNat 16 index).toNat
  | .argument => (m.get .arg + BitVec.ofNat 16 index).toNat
  | .this => (m.get .this + BitVec.ofNat 16 index).toNat
  | .that => (m.get .that + BitVec.ofNat 16 index).toNat
  | .pointer => Predefined.this.address + index
  | .temp => 5 + index
  | .static => table (Symbol.static unit index).text

def value (table : String → Nat) (unit : String) (m : Memory) (index : Nat) : Segment → Word
  | .constant => BitVec.ofNat 16 index
  | segment => m (segment.cell table unit m index)

end Segment

namespace Instruction

/-- A push or a pop with an index that can be loaded, or an operation that compares nothing. -/
def IsData : Instruction → Prop
  | push _ index => index ≤ maxLoad
  | pop _ index => index ≤ maxLoad
  | operation (.unary _) => True
  | operation (.binary _) => True
  | _ => False

/-- The cells that the instruction uses are there: those of the stack, and the one at an
    offset. -/
def Room (table : String → Nat) (unit : String) (m : Memory) (i : Instruction) : Prop :=
  let t := (m.get .sp).toNat
  match i with
  | push segment index => InStack t ∧ (segment.isIndirect = true → segment.cell table unit m index < memorySize)
  | pop segment index => InStack (t - 1) ∧ (segment.isIndirect = true → segment.cell table unit m index < memorySize)
  | operation (.unary _) => InStack (t - 1)
  | operation (.binary _) => InStack (t - 1) ∧ InStack (t - 2)
  | _ => False

/-- The memory behind the instruction, if the stack ends below cell `t`. What is stored
    later stands outside. -/
def effect (table : String → Nat) (unit : String) (m : Memory) (i : Instruction) : Memory :=
  let t := (m.get .sp).toNat
  match i with
  | push segment index => store (store m t (segment.value table unit m index)) 0 (BitVec.ofNat 16 (t + 1))
  | pop segment index =>
    let c := segment.cell table unit m index
    let dropped := store m 0 (BitVec.ofNat 16 (t - 1))
    store (if segment.isIndirect then store dropped 13 (BitVec.ofNat 16 c) else dropped) c (m (t - 1))
  | operation (.unary u) => store m (t - 1) (u.apply (m (t - 1)))
  | operation (.binary b) => store (store m 0 (BitVec.ofNat 16 (t - 1))) (t - 2) (b.apply (m (t - 2)) (m (t - 1)))
  | _ => m

end Instruction

/-! ## Words -/

theorem sub_ofNat_eq {w : Word} {i : Nat} (h : i ≤ w.toNat) : w - BitVec.ofNat 16 i = BitVec.ofNat 16 (w.toNat - i) := by
  apply BitVec.eq_of_toNat_eq
  have := w.isLt
  rw [toNat_sub_ofNat h, BitVec.toNat_ofNat, Nat.mod_eq_of_lt (by omega)]

namespace StackMachine.Memory

variable {m : Memory}

theorem push_eq (v : Word) :
    m.push v = store (store m (m.get .sp).toNat v) 0 (BitVec.ofNat 16 ((m.get .sp).toNat + 1)) := by
  rw [BitVec.ofNat_add, BitVec.ofNat_toNat, BitVec.setWidth_eq]
  rfl

theorem drop_eq (h : InStack ((m.get .sp).toNat - 1)) : m.drop = store m 0 (BitVec.ofNat 16 ((m.get .sp).toNat - 1)) := by
  rw [← sub_ofNat_eq h.le]
  rfl

theorem top_eq (h : InStack ((m.get .sp).toNat - 1)) : m.top = m ((m.get .sp).toNat - 1) := by
  rw [← toNat_sub_ofNat h.le]
  rfl

theorem replaceTop_eq (h : InStack ((m.get .sp).toNat - 1)) (v : Word) :
    m.replaceTop v = store m ((m.get .sp).toNat - 1) v := by
  rw [← toNat_sub_ofNat h.le]
  rfl

end StackMachine.Memory

/-! ## Code and the table -/

namespace Statement

variable {table : String → Nat} {value : Symbol → Nat}

@[simp] theorem tabled_assign (t : Destination) (e : Expression) : (assign t e).Tabled table value ↔ True := Iff.rfl

@[simp] theorem tabled_load {s : Symbol} : (load s).Tabled table value ↔ s.isProcedure = false ∧ table s.text = value s :=
  Iff.rfl

@[simp] theorem tabled_loadNumber {n : Nat} : (loadNumber n).Tabled table value ↔ n ≤ maxLoad := Iff.rfl

theorem tabled_loadCell (ht : MapsCells table) {asm : Assembled} {p : Predefined} (hp : p.address < firstVariable) :
    (loadCell p).Tabled table asm.value :=
  ⟨rfl, ht.predefined p hp⟩

end Statement

namespace Fragment

open Statement

variable {table : String → Nat} {asm : Assembled} {scope : Scope} {index : Nat} {segment : Segment} {c : Cell}

def Cell.Tabled (table : String → Nat) (value : Symbol → Nat) : Cell → Prop
  | .offset base index => base.address < firstVariable ∧ index ≤ maxLoad
  | .symbol s => s.isProcedure = false ∧ table s.text = value s

/-- The cell of a segment is the one that the table has for it. Symbols have their cells in
    memory; an offset may lead out of it. -/
theorem tabled_cell (ht : MapsCells table) (hi : index ≤ maxLoad)
    (hasm : asm.value (scope.static index) = table (scope.static index).text) (hc : cell scope index segment = .ok c) :
    c.Tabled table asm.value ∧ (∀ m, c.address asm m = segment.cell table scope.unit m index) ∧
      (segment.isIndirect = false → ∀ m, segment.cell table scope.unit m index < memorySize) := by
  cases segment with
  | constant => cases hc
  | locals | argument | this | that =>
    cases hc
    exact ⟨⟨by decide, hi⟩, fun _ => rfl, fun h => by cases h⟩
  | static =>
    cases hc
    exact ⟨⟨rfl, hasm.symm⟩, fun _ => hasm, fun _ _ => ht.statics _ _⟩
  | temp =>
    simp only [cell, temporary] at hc
    split at hc
    · rename_i hlt
      cases hc
      have hregister : 5 + index < memorySize := Nat.lt_trans (Nat.add_lt_add_left hlt 5) (by decide)
      exact ⟨⟨rfl, ht.predefined (.register _) (Fin.isLt _)⟩, fun _ => rfl, fun _ _ => hregister⟩
    · cases hc
  | pointer =>
    simp only [cell] at hc
    unfold basePointer at hc
    split at hc
    · cases hc
      exact ⟨⟨rfl, ht.predefined .this (by decide)⟩, fun _ => rfl, fun _ _ => address_lt .this⟩
    · cases hc
      exact ⟨⟨rfl, ht.predefined .that (by decide)⟩, fun _ => rfl, fun _ _ => address_lt .that⟩
    · cases hc

theorem tabled_pushD (ht : MapsCells table) : ∀ s ∈ pushD, s.Tabled table asm.value := by
  simpa [pushD] using tabled_loadCell ht (by decide)

theorem tabled_popD (ht : MapsCells table) : ∀ s ∈ popD, s.Tabled table asm.value := by
  simpa [popD] using tabled_loadCell ht (by decide)

theorem tabled_pushCell (ht : MapsCells table) (h : c.Tabled table asm.value) :
    ∀ s ∈ pushCell c, s.Tabled table asm.value := by
  have hpush := @tabled_pushD table asm ht
  cases c with
  | offset base index =>
    have hbase := @tabled_loadCell table ht asm base h.1
    simpa [pushCell, hbase, h.2] using hpush
  | symbol s => simpa [pushCell, pushSymbol, h.1, h.2] using hpush

theorem tabled_popCell (ht : MapsCells table) (h : c.Tabled table asm.value) :
    ∀ s ∈ popCell c, s.Tabled table asm.value := by
  have hpop := @tabled_popD table asm ht
  have hscratch := @tabled_loadCell table ht asm (.register 13) (by decide)
  cases c with
  | offset base index =>
    have hbase := @tabled_loadCell table ht asm base h.1
    simpa [popCell, hbase, hscratch, h.2, or_imp, forall_and] using hpop
  | symbol s => simpa [popCell, h.1, h.2, or_imp, forall_and] using hpop

/-- The cells of a segment are all at offsets, or all those of symbols. -/
theorem cell_cases (hc : cell scope index segment = .ok c) :
    (segment.isIndirect = true ∧ ∃ base, c = .offset base index) ∨ segment.isIndirect = false ∧ ∃ s, c = .symbol s := by
  rcases cell_ok hc with h | ⟨rfl, rfl⟩ | ⟨rfl | rfl, p, rfl⟩
  · exact .inl h
  · exact .inr ⟨rfl, _, rfl⟩
  · exact .inr ⟨rfl, _, rfl⟩
  · exact .inr ⟨rfl, _, rfl⟩

end Fragment

/-! ## Code and effects -/

namespace Instruction

variable {table : String → Nat} {asm : Assembled} {scope : Scope} {i : Instruction} {code : List Statement}

/-- The static variable that the instruction may use has the same cell in the program as in
    the table. -/
def Entered (table : String → Nat) (asm : Assembled) (scope : Scope) (i : Instruction) : Prop :=
  ∀ s ∈ segment? i, asm.value (scope.static s.2) = table (scope.static s.2).text

theorem tabled_code (ht : MapsCells table) (hasm : i.Entered table asm scope) (hi : i.IsData)
    (h : i.code scope = .ok code) : ∀ s ∈ code, s.Tabled table asm.value := by
  have hpop := @Fragment.tabled_popD table asm ht
  have hsp := @Statement.tabled_loadCell table ht asm .sp (by decide)
  match i, hi with
  | push segment index, hi =>
    rcases Fragment.push_ok h with ⟨rfl, -, rfl⟩ | ⟨c, hc, rfl⟩
    · have hindex : index ≤ maxLoad := hi
      simpa [Fragment.pushNumber, hindex] using Fragment.tabled_pushD ht
    · exact Fragment.tabled_pushCell ht (Fragment.tabled_cell ht hi (hasm (segment, index) rfl) hc).1
  | pop segment index, hi =>
    obtain ⟨c, hc, rfl⟩ := Fragment.pop_ok h
    exact Fragment.tabled_popCell ht (Fragment.tabled_cell ht hi (hasm (segment, index) rfl) hc).1
  | operation (.unary u), _ =>
    cases h
    simpa [Fragment.operation, Fragment.unary] using hsp
  | operation (.binary b), _ =>
    cases h
    simpa [Fragment.operation, Fragment.binary, or_imp, forall_and] using hpop

theorem straight_code (asm : Assembled) (hi : i.IsData) (h : i.code scope = .ok code) :
    (asm.link code).all Order.straight = true := by
  match i, hi with
  | push segment index, _ =>
    rcases Fragment.push_ok h with ⟨rfl, -, rfl⟩ | ⟨c, -, rfl⟩
    · rfl
    · exact Fragment.straight_pushCell asm c
  | pop segment index, _ =>
    obtain ⟨c, -, rfl⟩ := Fragment.pop_ok h
    exact Fragment.straight_popCell asm c
  | operation (.unary u), _ =>
    cases h
    rfl
  | operation (.binary b), _ =>
    cases h
    rfl

/-- The cell of an accepted push or pop is there. -/
theorem cell_lt (ht : MapsCells table) {segment : Segment} {index : Nat} {c : Fragment.Cell}
    (hi : index ≤ maxLoad) (hasm : asm.value (scope.static index) = table (scope.static index).text)
    (hc : Fragment.cell scope index segment = .ok c) {m : Memory}
    (hr : segment.isIndirect = true → segment.cell table scope.unit m index < memorySize) :
    c.address asm m < memorySize := by
  obtain ⟨-, haddress, hdirect⟩ := Fragment.tabled_cell ht hi hasm hc
  rw [haddress]
  cases h : segment.isIndirect with
  | true => exact hr h
  | false => exact hdirect h m

theorem execute_push (ht : MapsCells table) {segment : Segment} {index : Nat} (hi : index ≤ maxLoad)
    (hasm : asm.value (scope.static index) = table (scope.static index).text)
    (h : (push segment index).code scope = .ok code) {p : Processor}
    (hr : (push segment index).Room table scope.unit p.memory) :
    ∃ q, execute (asm.link code) p = some q ∧
      q.memory = (push segment index).effect table scope.unit p.memory := by
  obtain ⟨hstack, hcell⟩ := hr
  have heffect : (push segment index).effect table scope.unit p.memory =
    Memory.push p.memory (segment.value table scope.unit p.memory index) := (Memory.push_eq _).symm
  rw [heffect]
  rcases Fragment.push_ok h with ⟨rfl, -, rfl⟩ | ⟨c, hc, rfl⟩
  · exact Fragment.execute_pushNumber asm index hstack
  · obtain ⟨-, haddress, -⟩ := Fragment.tabled_cell ht hi hasm hc
    have hvalue : segment.value table scope.unit p.memory index = p.memory (c.address asm p.memory) := by
      rw [haddress]
      cases segment with
      | constant => cases hc
      | _ => rfl
    rw [hvalue]
    exact Fragment.execute_pushCell asm (cell_lt ht hi hasm hc hcell) hstack

theorem execute_pop (ht : MapsCells table) {segment : Segment} {index : Nat} (hi : index ≤ maxLoad)
    (hasm : asm.value (scope.static index) = table (scope.static index).text)
    (h : (pop segment index).code scope = .ok code) {p : Processor}
    (hr : (pop segment index).Room table scope.unit p.memory) :
    ∃ q, execute (asm.link code) p = some q ∧
      q.memory = (pop segment index).effect table scope.unit p.memory := by
  obtain ⟨hstack, hcell⟩ := hr
  obtain ⟨c, hc, rfl⟩ := Fragment.pop_ok h
  obtain ⟨-, haddress, -⟩ := Fragment.tabled_cell ht hi hasm hc
  have hlt := cell_lt ht hi hasm hc hcell
  have htop : InStack (Memory.get p.memory .sp - 1).toNat := hstack.sub
  rw [effect, ← haddress, ← Memory.drop_eq hstack, ← Memory.top_eq hstack]
  rcases Fragment.cell_cases hc with ⟨hindirect, base, rfl⟩ | ⟨hdirect, s, rfl⟩
  · have hword : BitVec.ofNat 16 (Fragment.Cell.address asm p.memory (.offset base index)) =
        Memory.get p.memory base + BitVec.ofNat 16 index := by
      rw [Fragment.Cell.address, BitVec.ofNat_toNat, BitVec.setWidth_eq]
    rw [if_pos hindirect, hword]
    exact Fragment.execute_popOffset asm hlt htop
  · rw [hdirect]
    exact Fragment.execute_popCell_symbol asm hlt htop

theorem execute_operation {o : Operation} (h : (operation o).code scope = .ok code) {p : Processor}
    (hr : (operation o).Room table scope.unit p.memory) :
    ∃ q, execute (asm.link code) p = some q ∧ q.memory = (operation o).effect table scope.unit p.memory := by
  cases h
  match o, hr with
  | .unary u, hr =>
    rw [effect, ← Memory.replaceTop_eq hr, ← Memory.top_eq hr]
    exact Fragment.execute_unary asm u (InStack.sub hr)
  | .binary b, hr =>
    obtain ⟨hright, hleft⟩ := hr
    have hpred : (Memory.get p.memory .sp - 1).toNat = (Memory.get p.memory .sp).toNat - 1 := toNat_sub_ofNat hright.le
    have hsp : ((Memory.drop p.memory).get .sp).toNat - 1 = (Memory.get p.memory .sp).toNat - 2 := by
      rw [Memory.get_drop, hpred, Nat.sub_sub]
    have hbelow : InStack (((Memory.drop p.memory).get .sp).toNat - 1) := hsp ▸ hleft
    have hoperand : (Memory.drop p.memory).top = p.memory ((Memory.get p.memory .sp).toNat - 2) := by
      rw [Memory.top_eq hbelow, hsp, Memory.drop_eq hright]
      exact store_of_ne _ (hleft.ne (by decide)) _
    rw [effect, ← Memory.drop_eq hright, ← Memory.top_eq hright, ← hoperand, ← hsp, ← Memory.replaceTop_eq hbelow]
    refine Fragment.execute_binary asm b hright.sub ?_
    rw [← Memory.get_drop]
    exact hbelow.sub

theorem execute_code (ht : MapsCells table) (hasm : i.Entered table asm scope) (hi : i.IsData)
    (h : i.code scope = .ok code) {p : Processor} (hr : i.Room table scope.unit p.memory) :
    ∃ q, execute (asm.link code) p = some q ∧ q.memory = i.effect table scope.unit p.memory := by
  cases i with
  | push segment index => exact execute_push ht hi (hasm (segment, index) rfl) h hr
  | pop segment index => exact execute_pop ht hi (hasm (segment, index) rfl) h hr
  | operation o => exact execute_operation h hr
  | _ => cases hi

/-- An instruction uses one static variable at most, so a program with this one will do. -/
theorem exists_entered (table : String → Nat) (scope : Scope) (i : Instruction) : ∃ asm, i.Entered table asm scope := by
  cases hs : segment? i with
  | none =>
    refine ⟨⟨[], [], []⟩, fun s hm => ?_⟩
    rw [hs] at hm
    cases hm
  | some s =>
    refine ⟨⟨[], [((scope.static s.2).text, table (scope.static s.2).text)], []⟩, fun s' hm => ?_⟩
    rw [hs] at hm
    cases hm
    simp [Assembled.value, Scope.static]

end Instruction

/-- The comment above a piece of code is no order. -/
theorem Assembled.link_remark (asm : Assembled) (s : Session) (words : String) (code : List Statement) :
    asm.link (s.remark words ++ code) = asm.link code := by
  unfold Session.remark
  split <;> rfl

/-- Let a session in whatever state accept a push, a pop or an operation. By any table with
    cells for pointers, registers and static variables its lines give orders. These may be a
    program or stand in one. From any state of the machine at the first of them in which the
    cells are there, the machine gets behind the last one. The memory then is the one from
    before but for the effect of the instruction. -/
theorem data_effects_exact {table : String → Nat} (ht : MapsCells table) {s : Session} {l : SourceLine}
    {code : List Statement} (hi : l.instruction.IsData) (h : (s.line l).1 = .ok code) :
    ∃ orders, Assembler.tableOrders table (code.map Statement.text) = .ok orders ∧
      ∀ (program : List Order) (p : Processor), CodeAt program p.pc orders →
        l.instruction.Room table s.scope.unit p.memory →
        ∃ q, run program orders.length p = some q ∧ q.pc = p.pc + orders.length ∧
          q.memory = l.instruction.effect table s.scope.unit p.memory := by
  obtain ⟨hcode, rfl, -⟩ := Session.line_ok (Prod.ext h rfl)
  obtain ⟨asm, hasm⟩ := l.instruction.exists_entered table s.scope
  have htabled := Instruction.tabled_code ht hasm hi hcode
  have hlink : asm.link ((Placed.mk s.scope l).emitted s.options) = asm.link (Placed.mk s.scope l).code :=
    asm.link_remark _ _ _
  refine ⟨asm.link (Placed.mk s.scope l).code, ?_, fun program p hat hroom => ?_⟩
  · rw [← hlink]
    refine Assembler.tableOrders_text fun st hst => ?_
    rcases List.mem_append.mp hst with hst | hst
    · rw [Session.eq_comment_of_mem_remark hst]
      trivial
    · exact htabled st hst
  · obtain ⟨q, hq, hm⟩ := Instruction.execute_code ht hasm hi hcode hroom
    obtain ⟨hrun, hpc⟩ := run_of_codeAt hat (Instruction.straight_code asm hi hcode) hq
    exact ⟨q, hrun, hpc, hm⟩

def oneCell (name : String) : Nat :=
  ((Predefined.ofName? name).map Predefined.address).getD firstVariable

theorem mapsCells_oneCell : MapsCells oneCell where
  predefined p _ := by
    rw [oneCell, Predefined.ofName?_name]
    rfl
  statics unit i := by
    unfold oneCell
    cases Predefined.ofName? (Symbol.static unit i).text with
    | none => decide
    | some p => exact address_lt p

/-- Pointers that lead to the scratch register, the stack pointer and the value on top. -/
def overlapping (c : Nat) : Word :=
  match c with
  | 0 => 300
  | 1 => 11
  | 2 => 65535
  | 3 => 290
  | 16 => 9
  | 298 => 5
  | 299 => 7
  | _ => 0

def GetsTo (unit : String) (i : Instruction) (m : Memory) (post : Memory → Prop) : Prop :=
  ∃ code orders q, ((({} : Session).inUnit unit).line ⟨i, 1, i.text⟩).1 = .ok code ∧
    Assembler.tableOrders oneCell (code.map Statement.text) = .ok orders ∧
    run orders orders.length { a := 5, d := 6, memory := m } = some q ∧ post q.memory

/-- Pops into the scratch register, the stack pointer and the cell of the popped value, a
    push of a static variable, and a difference. -/
theorem data_effects_exact_overlapping :
    GetsTo "A" (.pop .locals 2) overlapping (fun m => m 0 = 299 ∧ m 13 = 7 ∧ m 299 = 7) ∧
      GetsTo "A" (.pop .argument 1) overlapping (fun m => m 0 = 7 ∧ m 13 = 0) ∧
      GetsTo "A" (.pop .this 9) overlapping (fun m => m 0 = 299 ∧ m 13 = 299 ∧ m 299 = 7) ∧
      GetsTo "a/b" (.push .static 3) overlapping (fun m => m 0 = 301 ∧ m 13 = 0 ∧ m 300 = 9) ∧
      GetsTo "A" (.operation (.binary .sub)) overlapping (fun m => m 0 = 299 ∧ m 13 = 0 ∧ m 298 = 65534) := by
  have hgets {unit : String} {i : Instruction} {code : List Statement} {post : Memory → Prop} (hi : i.IsData)
      (h : ((({} : Session).inUnit unit).line ⟨i, 1, i.text⟩).1 = .ok code) (hr : i.Room oneCell unit overlapping)
      (hpost : post (i.effect oneCell unit overlapping)) : GetsTo unit i overlapping post := by
    obtain ⟨orders, ho, hrun⟩ := data_effects_exact mapsCells_oneCell hi h
    have halone : CodeAt orders 0 orders := by simpa using codeAt_of_append [] orders []
    obtain ⟨q, hq, -, hm⟩ := hrun orders { a := 5, d := 6, memory := overlapping } halone hr
    exact ⟨code, orders, q, h, ho, hq, hm ▸ hpost⟩
  have htop : InStack 299 := by decide
  have hbelow : InStack 298 := by decide
  have hnext : InStack 300 := by decide
  refine ⟨?_, ?_, ?_, ?_, ?_⟩
  · refine hgets (show 2 ≤ maxLoad by decide) rfl ?_ ?_
    · exact ⟨htop, fun _ => by decide⟩
    · decide
  · refine hgets (show 1 ≤ maxLoad by decide) rfl ?_ ?_
    · exact ⟨htop, fun _ => by decide⟩
    · decide
  · refine hgets (show 9 ≤ maxLoad by decide) rfl ?_ ?_
    · exact ⟨htop, fun _ => by decide⟩
    · decide
  · refine hgets (show 3 ≤ maxLoad by decide) rfl ?_ ?_
    · exact ⟨hnext, fun h => by cases h⟩
    · decide +kernel
  · refine hgets trivial rfl ?_ ?_
    · exact ⟨htop, hbelow⟩
    · decide

end StackToHack
