/-
  StackToHack.Proofs.Fragments — what each piece of code does to the memory.

  The pieces are executed on their own and their effects are those of the stack machine,
  `StackMachine.Memory`. Only the scratch registers `R13` and `R14` are left different, so
  memories are compared by `Agree`.
  - `execute_pushD`, `execute_popD`, `execute_pushCell`, `execute_popCell`: the stack and
    the segments.
  - `execute_unary`, `execute_binary`, `execute_pushLocals`: straight pieces.
-/

import Mathlib.Data.BitVec
import StackToHack.Proofs.Linking
import StackToHack.Proofs.StackMachine

namespace StackToHack

open Processor StackMachine

/-! ## Words -/

def InStack (a : Nat) : Prop := stackBase ≤ a ∧ a < memorySize

instance (a : Nat) : Decidable (InStack a) :=
  inferInstanceAs (Decidable (_ ∧ _))

theorem InStack.lt {a : Nat} (h : InStack a) : a < memorySize := h.2

theorem InStack.ne {a : Nat} (h : InStack a) {n : Nat} (hn : n < stackBase) : a ≠ n := by
  have := h.1
  omega

theorem InStack.ne_address {a : Nat} (h : InStack a) {p : Predefined} (hp : p.address < stackBase) : a ≠ p.address :=
  h.ne hp

namespace Fragment

/-! ## The stack -/

theorem execute_pushD (asm : Assembled) {p : Processor} (h : InStack (Memory.get p.memory .sp).toNat) :
    execute (asm.link pushD) p =
      some { pc := p.pc + 4, a := Memory.get p.memory .sp, d := p.d, memory := Memory.push p.memory p.d } := by
  have hlt : (p.memory Predefined.sp.address).toNat < memorySize := h.lt
  have hne : Predefined.sp.address ≠ (p.memory Predefined.sp.address).toNat := (h.ne (by decide)).symm
  simp [pushD, hlt, Memory.push, Memory.get, Memory.set, store_comm _ hne]

theorem execute_popD (asm : Assembled) {p : Processor} (h : InStack (Memory.get p.memory .sp - 1).toNat) :
    execute (asm.link popD) p =
      some { pc := p.pc + 3, a := Memory.get p.memory .sp - 1, d := Memory.top p.memory, memory := Memory.drop p.memory } := by
  have hlt : (p.memory Predefined.sp.address - 1#16).toNat < memorySize := h.lt
  have hne : (p.memory Predefined.sp.address - 1#16).toNat ≠ Predefined.sp.address := h.ne (by decide)
  simp [popD, hlt, Memory.top, Memory.drop, Memory.get, Memory.set, store_of_ne _ hne, -BitVec.toNat_sub]

theorem execute_link_append {asm : Assembled} {first second : List Statement} {p q : Processor}
    (h : execute (asm.link first) p = some q) :
    execute (asm.link (first ++ second)) p = execute (asm.link second) q := by
  rw [Assembled.link_append, execute_append, h]
  rfl

theorem execute_pushNumber (asm : Assembled) {p : Processor} (n : Nat) (h : InStack (Memory.get p.memory .sp).toNat) :
    ∃ q, execute (asm.link (pushNumber n)) p = some q ∧ q.memory = Memory.push p.memory (BitVec.ofNat 16 n) := by
  have hload : execute (asm.link [.loadNumber n, .assign .toD .a]) p =
      some { p with pc := p.pc + 2, a := BitVec.ofNat 16 n, d := BitVec.ofNat 16 n } := by
    simp
  exact ⟨_, (execute_link_append hload).trans (execute_pushD asm h), rfl⟩

/-- Pushes the value of the cell that a symbol stands for. -/
theorem execute_pushSymbol (asm : Assembled) {p : Processor} {s : Symbol} (hs : asm.value s < memorySize)
    (h : InStack (Memory.get p.memory .sp).toNat) :
    execute (asm.link (pushSymbol s)) p =
      some { pc := p.pc + 6, a := Memory.get p.memory .sp, d := p.memory (asm.value s),
             memory := Memory.push p.memory (p.memory (asm.value s)) } := by
  have hmod : asm.value s % 65536 = asm.value s := Nat.mod_eq_of_lt (Nat.lt_trans hs (by decide))
  have hload : execute (asm.link [.load s, .assign .toD .m]) p =
      some { p with pc := p.pc + 2, a := BitVec.ofNat 16 (asm.value s), d := p.memory (asm.value s) } := by
    simp [hmod, hs]
  exact (execute_link_append hload).trans (execute_pushD asm h)

/-! ## Segments -/

theorem execute_pushOffset (asm : Assembled) {p : Processor} {base : Predefined} {index : Nat}
    (hc : (Memory.get p.memory base + BitVec.ofNat 16 index).toNat < memorySize)
    (h : InStack (Memory.get p.memory .sp).toNat) :
    ∃ q, execute (asm.link (pushCell (.offset base index))) p = some q ∧
      q.memory = Memory.push p.memory (p.memory (Memory.get p.memory base + BitVec.ofNat 16 index).toNat) := by
  have hlt : (p.memory base.address + BitVec.ofNat 16 index).toNat < memorySize := hc
  have hload : execute (asm.link [.loadCell base, .assign .toD .m, .loadNumber index, .assign .toA .dPlusA,
      .assign .toD .m]) p = some
        { p with
          pc := p.pc + 5
          a := Memory.get p.memory base + BitVec.ofNat 16 index
          d := p.memory (Memory.get p.memory base + BitVec.ofNat 16 index).toNat } := by
    simp [hlt, Memory.get, -BitVec.toNat_add]
  exact ⟨_, (execute_link_append hload).trans (execute_pushD asm h), rfl⟩

end Fragment

/-! ## Scratch -/

namespace StackMachine

/-- The memories are the same but for the scratch registers. -/
def Agree (m m' : Memory) : Prop :=
  ∀ c, c ≠ 13 → c ≠ 14 → m c = m' c

namespace Agree

theorem refl (m : Memory) : Agree m m := fun _ _ _ => rfl

theorem store {m m' : Memory} (h : Agree m m') (c : Nat) (v : Word) :
    Agree (Processor.store m c v) (Processor.store m' c v) := by
  intro d h₁ h₂
  simp only [Processor.store]
  rw [h d h₁ h₂]

theorem scratch {m m' : Memory} (h : Agree m m') {c : Nat} (hc : c = 13 ∨ c = 14) (v : Word) :
    Agree (Processor.store m c v) m' := by
  intro d h₁ h₂
  rw [store_of_ne _ (by rcases hc with rfl | rfl <;> assumption)]
  exact h d h₁ h₂

theorem get {m m' : Memory} (h : Agree m m') {p : Predefined} (h₁ : p.address ≠ 13) (h₂ : p.address ≠ 14) :
    m.get p = m'.get p := h _ h₁ h₂

theorem inStack {m m' : Memory} (h : Agree m m') {c : Nat} (hc : InStack c) : m c = m' c :=
  h c (hc.ne (by decide)) (hc.ne (by decide))

end Agree

end StackMachine

namespace Fragment

/-- The address waits in `R13`, so it is left there. The value is read before that, and the
    address once the stack pointer has moved: the cell may be any, these included. -/
theorem execute_popOffset (asm : Assembled) {p : Processor} {base : Predefined} {index : Nat}
    (hc : (Memory.get p.memory base + BitVec.ofNat 16 index).toNat < memorySize)
    (h : InStack (Memory.get p.memory .sp - 1).toNat) :
    ∃ q, execute (asm.link (popCell (.offset base index))) p = some q ∧
      q.memory = store (Memory.set (Memory.drop p.memory) (.register 13) (Memory.get p.memory base + BitVec.ofNat 16 index))
        (Memory.get p.memory base + BitVec.ofNat 16 index).toNat (Memory.top p.memory) := by
  obtain ⟨address, ha⟩ : ∃ address, address = Memory.get p.memory base + BitVec.ofNat 16 index := ⟨_, rfl⟩
  have hlt : address.toNat < memorySize := ha ▸ hc
  obtain ⟨staged, hstaged⟩ : ∃ staged, staged = Memory.set p.memory (.register 13) address := ⟨_, rfl⟩
  have hne : (Predefined.register 13).address ≠ Predefined.sp.address := by decide
  have hsp : Memory.get staged .sp = Memory.get p.memory .sp := by
    rw [hstaged]
    exact store_of_ne p.memory hne.symm address
  have hload : execute (asm.link [.loadCell base, .assign .toD .m, .loadNumber index, .assign .toD .dPlusA,
      .loadCell (.register 13), .assign .toM .d]) p = some
        { pc := p.pc + 6, a := BitVec.ofNat 16 (Predefined.register 13).address, d := address, memory := staged } := by
    simp [ha, hstaged, Memory.get, Memory.set]
  have hpop := @execute_popD asm ⟨p.pc + 6, BitVec.ofNat 16 (Predefined.register 13).address, address, staged⟩
    (hsp ▸ h)
  have htop : Memory.top staged = Memory.top p.memory := by
    rw [Memory.top, hsp, hstaged]
    exact store_of_ne p.memory (h.ne_address (by decide)) address
  have hdrop : Memory.drop staged = Memory.set (Memory.drop p.memory) (.register 13) address := by
    rw [Memory.drop, hsp, hstaged]
    exact store_comm p.memory hne address _
  have hwait : Memory.drop staged (Predefined.register 13).address = address := by
    rw [hdrop]
    exact store_self _ _ address
  have hstore : execute (asm.link [.loadCell (.register 13), .assign .toA .m, .assign .toM .d])
      ⟨p.pc + 9, Memory.get staged .sp - 1, Memory.top staged, Memory.drop staged⟩ = some
        { pc := p.pc + 12, a := address, d := Memory.top staged,
          memory := store (Memory.drop staged) address.toNat (Memory.top staged) } := by
    simp [hlt, hwait]
  refine ⟨_, (execute_link_append ((execute_link_append hload).trans hpop)).trans hstore, ?_⟩
  rw [htop, hdrop, ← ha]

theorem execute_popCell_symbol (asm : Assembled) {p : Processor} {s : Symbol} (hs : asm.value s < memorySize)
    (h : InStack (Memory.get p.memory .sp - 1).toNat) :
    ∃ q, execute (asm.link (popCell (.symbol s))) p = some q ∧
      q.memory = store (Memory.drop p.memory) (asm.value s) (Memory.top p.memory) := by
  have hmod : asm.value s % 65536 = asm.value s := Nat.mod_eq_of_lt (Nat.lt_trans hs (by decide))
  refine ⟨{ pc := p.pc + 5, a := BitVec.ofNat 16 (asm.value s), d := Memory.top p.memory,
            memory := store (Memory.drop p.memory) (asm.value s) (Memory.top p.memory) }, ?_, rfl⟩
  rw [popCell, execute_link_append (execute_popD asm h)]
  simp [hmod, hs]

def Cell.address (asm : Assembled) (m : Memory) : Cell → Nat
  | .offset base index => (m.get base + BitVec.ofNat 16 index).toNat
  | .symbol s => asm.value s

theorem execute_pushCell (asm : Assembled) {p : Processor} {c : Cell} (hc : c.address asm p.memory < memorySize)
    (h : InStack (Memory.get p.memory .sp).toNat) :
    ∃ q, execute (asm.link (pushCell c)) p = some q ∧
      q.memory = Memory.push p.memory (p.memory (c.address asm p.memory)) := by
  cases c with
  | offset base index => exact execute_pushOffset asm hc h
  | symbol s => exact ⟨_, execute_pushSymbol asm hc h, rfl⟩

theorem execute_popCell (asm : Assembled) {p : Processor} {c : Cell} (hc : c.address asm p.memory < memorySize)
    (h : InStack (Memory.get p.memory .sp - 1).toNat) :
    ∃ q, execute (asm.link (popCell c)) p = some q ∧
      Agree q.memory (store (Memory.drop p.memory) (c.address asm p.memory) (Memory.top p.memory)) := by
  cases c with
  | offset base index =>
    obtain ⟨q, hq, hm⟩ := execute_popOffset asm hc h
    exact ⟨q, hq, hm ▸ ((Agree.refl _).scratch (.inl rfl) _).store _ _⟩
  | symbol s =>
    obtain ⟨q, hq, hm⟩ := execute_popCell_symbol asm hc h
    exact ⟨q, hq, hm ▸ Agree.refl _⟩

/-! ## Operations -/

theorem execute_unary (asm : Assembled) (u : Unary) {p : Processor} (h : InStack (Memory.get p.memory .sp - 1).toNat) :
    ∃ q, execute (asm.link (unary u)) p = some q ∧
      q.memory = Memory.replaceTop p.memory (u.apply (Memory.top p.memory)) := by
  have hlt : (p.memory Predefined.sp.address - 1#16).toNat < memorySize := h.lt
  refine ⟨{ p with
    pc := p.pc + 3
    a := Memory.get p.memory .sp - 1
    memory := Memory.replaceTop p.memory (u.apply (Memory.top p.memory)) }, ?_, rfl⟩
  cases u <;>
    simp [unary, unaryExpression, hlt, Unary.apply, Memory.replaceTop, Memory.top, Memory.get, -BitVec.toNat_sub]

end Fragment

namespace StackMachine.Memory

theorem get_drop (m : Memory) : m.drop.get .sp = m.get .sp - 1 := by
  rw [drop, get, set, store_self]

end StackMachine.Memory

namespace Fragment

/-- The operands of a binary operation: the right one in `D`, the left one addressed. -/
theorem execute_operands (asm : Assembled) {p : Processor} (h : InStack (Memory.get p.memory .sp - 1).toNat)
    (more : List Statement) :
    execute (asm.link (popD ++ .assign .toA .predA :: more)) p = execute (asm.link more)
      { pc := p.pc + 4, a := Memory.get p.memory .sp - 1 - 1, d := Memory.top p.memory,
        memory := Memory.drop p.memory } := by
  rw [execute_link_append (execute_popD asm h)]
  simp

theorem execute_binary (asm : Assembled) (b : Binary) {p : Processor}
    (h₁ : InStack (Memory.get p.memory .sp - 1).toNat) (h₂ : InStack (Memory.get p.memory .sp - 1 - 1).toNat) :
    ∃ q, execute (asm.link (binary b)) p = some q ∧
      q.memory = (Memory.drop p.memory).replaceTop (b.apply (Memory.drop p.memory).top (Memory.top p.memory)) := by
  obtain ⟨a, ha⟩ : ∃ a, a = Memory.get p.memory .sp - 1 - 1 := ⟨_, rfl⟩
  have hlt : a.toNat < memorySize := ha ▸ h₂.lt
  refine ⟨{
    pc := p.pc + 5
    a := a
    d := Memory.top p.memory
    memory := store (Memory.drop p.memory) a.toNat
      (b.apply (Memory.drop p.memory a.toNat) (Memory.top p.memory)) }, ?_, ?_⟩
  · rw [binary, execute_operands asm h₁, ← ha]
    cases b
    · simp [binaryExpression, hlt, Binary.apply, BitVec.add_comm]
    · simp [binaryExpression, hlt, Binary.apply]
    · simp [binaryExpression, hlt, Binary.apply, BitVec.and_comm]
    · simp [binaryExpression, hlt, Binary.apply, BitVec.or_comm]
  · have htop : (Memory.drop p.memory).top = Memory.drop p.memory a.toNat := by rw [Memory.top, Memory.get_drop, ← ha]
    rw [Memory.replaceTop, Memory.get_drop, ← ha, htop]

/-- The end of a comparison: `D` takes the place of the value on top. -/
theorem execute_replaceTop (asm : Assembled) {p : Processor} (h : InStack (Memory.get p.memory .sp - 1).toNat) :
    execute (asm.link [.loadCell .sp, .assign .toA .predM, .assign .toM .d]) p =
      some { pc := p.pc + 3, a := Memory.get p.memory .sp - 1, d := p.d, memory := Memory.replaceTop p.memory p.d } := by
  have hlt : (p.memory Predefined.sp.address - 1#16).toNat < memorySize := h.lt
  simp [hlt, Memory.replaceTop, Memory.get, -BitVec.toNat_sub]

theorem holds_comparisonCondition (c : Comparison) (x y : Word) :
    (comparisonCondition c).holds (x - y) = c.holds x y := by
  cases c
  · simp only [comparisonCondition, Condition.holds, Comparison.holds, decide_eq_decide]
    exact BitVec.toInt_inj (y := 0)
  · rfl
  · rfl

/-! ## Procedures -/

theorem execute_pushZero (asm : Assembled) {p : Processor} (h : InStack (Memory.get p.memory .sp).toNat) :
    execute (asm.link pushZero) p =
      some { pc := p.pc + 4, a := Memory.get p.memory .sp, d := p.d, memory := Memory.push p.memory 0 } := by
  have hlt : (p.memory Predefined.sp.address).toNat < memorySize := h.lt
  have hne : Predefined.sp.address ≠ (p.memory Predefined.sp.address).toNat := (h.ne (by decide)).symm
  simp [pushZero, hlt, Memory.push, Memory.get, Memory.set, store_comm _ hne]

end Fragment

namespace StackMachine.Memory

@[simp] theorem get_set_self (m : Memory) (p : Predefined) (v : Word) : (m.set p v).get p = v := store_self _ _ _

theorem get_set_of_ne (m : Memory) {p q : Predefined} (h : p.address ≠ q.address) (v : Word) :
    (m.set q v).get p = m.get p := store_of_ne _ h v

theorem sp_push (m : Memory) (v : Word) : (m.push v).get .sp = m.get .sp + 1 := by
  rw [push, get_set_self]

/-- The pointer does not wrap while it is in the stack. -/
theorem toNat_succ {w : Word} (h : InStack w.toNat) : (w + 1).toNat = w.toNat + 1 := by
  have : w.toNat < 32768 := h.2
  rw [BitVec.toNat_add]
  exact Nat.mod_eq_of_lt (by simp; omega)

end StackMachine.Memory

/-! ## Pushes -/

namespace StackMachine.Memory

theorem sp_pushAll (m : Memory) (vs : List Word) : (m.pushAll vs).get .sp = m.get .sp + BitVec.ofNat 16 vs.length := by
  induction vs generalizing m with
  | nil => exact (BitVec.add_zero _).symm
  | cons v vs ih =>
    rw [pushAll, ih, sp_push, List.length_cons, BitVec.add_assoc, BitVec.add_comm 1, BitVec.ofNat_add]
    rfl

theorem toNat_sp_push_add {m : Memory} (v : Word) (h : InStack (m.get .sp).toNat) (i : Nat) :
    ((m.push v).get .sp).toNat + i = (m.get .sp).toNat + (i + 1) := by
  rw [sp_push, toNat_succ h]
  omega

/-- Pushes leave all cells but the pushed ones and the stack pointer as they are. -/
theorem pushAll_of_ne {m : Memory} {vs : List Word} (h : ∀ i < vs.length, InStack ((m.get .sp).toNat + i)) {c : Nat}
    (hsp : c ≠ Predefined.sp.address) (hc : ∀ i < vs.length, c ≠ (m.get .sp).toNat + i) : m.pushAll vs c = m c := by
  induction vs generalizing m with
  | nil => rfl
  | cons v vs ih =>
    have h₀ : InStack (m.get .sp).toNat := h 0 (Nat.zero_lt_succ _)
    have hc₀ : c ≠ (m.get .sp).toNat := hc 0 (Nat.zero_lt_succ _)
    rw [pushAll, ih]
    · rw [push, set, store_of_ne _ hsp, store_of_ne _ hc₀]
    · intro i hi
      rw [toNat_sp_push_add v h₀]
      exact h (i + 1) (Nat.succ_lt_succ hi)
    · intro i hi
      rw [toNat_sp_push_add v h₀]
      exact hc (i + 1) (Nat.succ_lt_succ hi)

theorem pushAll_getElem {m : Memory} {vs : List Word} (h : ∀ i < vs.length, InStack ((m.get .sp).toNat + i)) {i : Nat}
    (hi : i < vs.length) : m.pushAll vs ((m.get .sp).toNat + i) = vs[i] := by
  induction vs generalizing m i with
  | nil => cases hi
  | cons v vs ih =>
    have h₀ : InStack (m.get .sp).toNat := h 0 (Nat.zero_lt_succ _)
    have hrest : ∀ i < vs.length, InStack (((m.push v).get .sp).toNat + i) := by
      intro i hi
      rw [toNat_sp_push_add v h₀]
      exact h (i + 1) (Nat.succ_lt_succ hi)
    rw [pushAll]
    cases i with
    | zero =>
      rw [Nat.add_zero, pushAll_of_ne hrest (h₀.ne (by decide))]
      · rw [push, set, store_of_ne _ (h₀.ne (by decide)), store_self]
        rfl
      · intro i _
        rw [toNat_sp_push_add v h₀]
        omega
    | succ i =>
      rw [← toNat_sp_push_add v h₀, ih hrest (Nat.lt_of_succ_lt_succ hi)]
      rfl

end StackMachine.Memory

namespace Fragment

theorem execute_pushLocals (asm : Assembled) (n : Nat) {p : Processor}
    (h : ∀ i < n, InStack ((Memory.get p.memory .sp).toNat + i)) :
    ∃ q, execute (asm.link (List.replicate n pushZero).flatten) p = some q ∧
      q.memory = Memory.pushAll p.memory (List.replicate n 0) := by
  induction n generalizing p with
  | zero => exact ⟨p, rfl, rfl⟩
  | succ n ih =>
    have h₀ : InStack (Memory.get p.memory .sp).toNat := h 0 (Nat.zero_lt_succ n)
    have hstep := execute_pushZero asm h₀
    obtain ⟨q, hq, hm⟩ := @ih ⟨p.pc + 4, Memory.get p.memory .sp, p.d, Memory.push p.memory 0⟩ (by
      intro i hi
      rw [Memory.sp_push, Memory.toNat_succ h₀, Nat.add_right_comm]
      exact h (i + 1) (Nat.succ_lt_succ hi))
    refine ⟨q, ?_, hm⟩
    rw [List.replicate_succ, List.flatten_cons, execute_link_append hstep]
    exact hq

end Fragment

end StackToHack
