/-
  StackToHack.Proofs.Frames — what a call saves and what a return takes back.

  A call pushes a frame of five words and jumps; a return reads the frame from the top
  down through `R13`, with the return address waiting in `R14`. The straight part of each
  has the effect that the stack machine gives it.
  - `execute_saveCaller`: the code of a call up to its jump is `Memory.enter`.
  - `execute_takeBack`: the code of a return up to its jump is `Memory.leave`.
  - `enter_frame`, `enter_of_ne`: the cells of the frame, and all others.
  - `leave_of_ne`: the cells that a return leaves alone.
-/

import StackToHack.Proofs.Fragments
import StackToHack.Proofs.Layout

namespace StackToHack

open Processor StackMachine

/-! ## Calls -/

namespace Fragment

/-- Pushes a pointer that the pushes before have left alone. -/
theorem execute_pushPointer (asm : Assembled) {p : Processor} {m : Memory} {vs : List Word} (pointer : Predefined)
    (hp : pointer.address < stackBase) (hs : pointer.address ≠ Predefined.sp.address) (hm : p.memory = m.pushAll vs)
    (h : ∀ i < frameSize, InStack ((m.get .sp).toNat + i)) (hvs : vs.length < frameSize) :
    ∃ q, execute (asm.link (pushSymbol (.predefined pointer))) p = some q ∧
      q.memory = m.pushAll (vs ++ [m.get pointer]) := by
  have hin : ∀ i < vs.length, InStack ((m.get .sp).toNat + i) := fun i hi => h i (Nat.lt_trans hi hvs)
  have hsp : (Memory.get p.memory .sp).toNat = (m.get .sp).toNat + vs.length := by
    have h₀ := (h vs.length hvs).2
    rw [hm, Memory.sp_pushAll, BitVec.toNat_add, BitVec.toNat_ofNat, Nat.add_mod_mod]
    exact Nat.mod_eq_of_lt (Nat.lt_trans h₀ (by decide))
  have hkeep : p.memory pointer.address = m.get pointer := by
    rw [hm, Memory.pushAll_of_ne hin hs fun i hi => ((hin i hi).ne hp).symm]
    rfl
  have hall : ∀ (ws : List Word) (m : Memory), m.pushAll (ws ++ [p.memory pointer.address]) =
      (m.pushAll ws).push (p.memory pointer.address) := by
    intro ws
    induction ws with
    | nil => exact fun _ => rfl
    | cons w ws ih => exact fun m => ih (m.push w)
  refine ⟨_, execute_pushSymbol asm (s := .predefined pointer) (address_lt pointer) (hsp ▸ h vs.length hvs), ?_⟩
  rw [← hkeep, hall, ← hm]
  rfl

theorem execute_saveCaller (asm : Assembled) (scope : Scope) (arguments : Nat) {p : Processor}
    (h : ∀ i < frameSize, InStack ((Memory.get p.memory .sp).toNat + i)) :
    ∃ q, execute (asm.link (saveCaller scope arguments)) p = some q ∧
      q.memory = Memory.enter p.memory (BitVec.ofNat 16 (asm.value scope.returnAddress)) arguments := by
  obtain ⟨r, hr⟩ : ∃ r, r = BitVec.ofNat 16 (asm.value scope.returnAddress) := ⟨_, rfl⟩
  have hload : execute (asm.link [.load scope.returnAddress, .assign .toD .a]) p =
      some { p with pc := p.pc + 2, a := r, d := r } := by
    simp [hr]
  obtain ⟨q₀, h₀, m₀⟩ : ∃ q, execute (asm.link ([.load scope.returnAddress, .assign .toD .a] ++ pushD)) p = some q ∧
      q.memory = Memory.pushAll p.memory [r] :=
    ⟨_, (execute_link_append hload).trans (execute_pushD asm (h 0 (by decide))), rfl⟩
  obtain ⟨q₁, h₁, m₁⟩ := execute_pushPointer asm .lcl (by decide) (by decide) m₀ h (by simp [frameSize])
  obtain ⟨q₂, h₂, m₂⟩ := execute_pushPointer asm .arg (by decide) (by decide) m₁ h (by simp [frameSize])
  obtain ⟨q₃, h₃, m₃⟩ := execute_pushPointer asm .this (by decide) (by decide) m₂ h (by simp [frameSize])
  obtain ⟨q₄, h₄, m₄⟩ := execute_pushPointer asm .that (by decide) (by decide) m₃ h (by simp [frameSize])
  refine ⟨{
    pc := q₄.pc + 12
    a := BitVec.ofNat 16 Predefined.lcl.address
    d := Memory.get q₄.memory .sp
    memory := (Memory.set q₄.memory .arg
      (Memory.get q₄.memory .sp - BitVec.ofNat 16 frameSize - BitVec.ofNat 16 arguments)).set .lcl
      (Memory.get q₄.memory .sp) }, ?_, ?_⟩
  · have hne : Predefined.sp.address ≠ Predefined.arg.address := by decide
    rw [saveCaller, execute_link_append ((execute_link_append ((execute_link_append ((execute_link_append
      ((execute_link_append h₀).trans h₁)).trans h₂)).trans h₃)).trans h₄)]
    simp [Memory.set, Memory.get, store_of_ne _ hne]
  · rw [← hr]
    simp only [m₄]
    rfl

end Fragment

/-! ## Returns -/

theorem sub_ofNat_sub_one (w : Word) (i : Nat) : w - BitVec.ofNat 16 i - 1 = w - BitVec.ofNat 16 (i + 1) := by
  rw [BitVec.sub_sub, BitVec.ofNat_add]
  rfl

namespace StackMachine

namespace Memory

theorem set_of_ne (m : Memory) {p : Predefined} {c : Nat} (hc : c ≠ p.address) (v : Word) : m.set p v c = m c :=
  store_of_ne _ hc v

theorem set_inStack (m : Memory) {p : Predefined} (hp : p.address < stackBase) (v : Word) {c : Nat} (hc : InStack c) :
    m.set p v c = m c := store_of_ne _ (hc.ne hp) v

end Memory

structure Returning (m v : Memory) (frame target : Word) : Prop where
  agree : Agree m v
  frame : m 13 = frame
  target : m 14 = target

theorem Agree.set {m m' : Memory} (h : Agree m m') (p : Predefined) (v : Word) : Agree (m.set p v) (m'.set p v) :=
  h.store _ _

theorem Agree.top {m m' : Memory} (h : Agree m m') (hs : InStack (m'.get .sp - 1).toNat) : m.top = m'.top := by
  rw [Memory.top, Memory.top, h.get (by decide) (by decide)]
  exact h.inStack hs

theorem Agree.drop {m m' : Memory} (h : Agree m m') : Agree m.drop m'.drop := by
  rw [Memory.drop, Memory.drop, h.get (by decide) (by decide)]
  exact h.set _ _

end StackMachine

namespace Fragment

theorem execute_restore (asm : Assembled) {p : Processor} {v : Memory} {frame target : Word} (pointer : Predefined)
    (hp : pointer.address < 13) (h : Returning p.memory v frame target) (hs : InStack (frame - 1).toNat) :
    ∃ q, execute (asm.link (restore pointer)) p = some q ∧
      Returning q.memory (v.set pointer (v (frame - 1).toNat)) (frame - 1) target := by
  have hlt : (frame - 1#16).toNat < memorySize := hs.lt
  have hframe : p.memory (Predefined.register 13).address = frame := h.frame
  have hread : store p.memory (Predefined.register 13).address (frame - 1#16) (frame - 1#16).toNat =
      v (frame - 1#16).toNat :=
    (store_of_ne _ (hs.ne (by decide)) _).trans (h.agree.inStack hs)
  have h₁₃ : 13 ≠ pointer.address := (Nat.ne_of_lt hp).symm
  have h₁₄ : 14 ≠ pointer.address := (Nat.ne_of_lt (Nat.lt_succ_of_lt hp)).symm
  refine ⟨{
    pc := p.pc + 5
    a := BitVec.ofNat 16 pointer.address
    d := v (frame - 1#16).toNat
    memory := Memory.set (store p.memory (Predefined.register 13).address (frame - 1#16)) pointer
      (v (frame - 1#16).toNat) }, ?_, (h.agree.scratch (.inl rfl) _).set _ _, ?_, ?_⟩
  · simp [restore, hframe, hlt, hread, Memory.set, -BitVec.toNat_sub]
  · exact (store_of_ne _ h₁₃ _).trans (store_self _ _ _)
  · exact (store_of_ne _ h₁₄ _).trans ((store_of_ne _ (by decide) _).trans h.target)

def takeBack : List Statement := ret.dropLast

/-- The frame and the return address are taken down before anything is overwritten. -/
theorem execute_stage (asm : Assembled) {p : Processor}
    (h : InStack (Memory.get p.memory .lcl - BitVec.ofNat 16 frameSize).toNat) :
    ∃ q, execute (asm.link [.loadCell .lcl, .assign .toD .m, .loadCell (.register 13), .assign .toM .d,
        .loadNumber frameSize, .assign .toA .dMinusA, .assign .toD .m, .loadCell (.register 14), .assign .toM .d]) p =
          some q ∧
      Returning q.memory p.memory (Memory.get p.memory .lcl) (Memory.saved p.memory (Memory.get p.memory .lcl) frameSize) := by
  obtain ⟨frame, hf⟩ : ∃ frame, frame = Memory.get p.memory .lcl := ⟨_, rfl⟩
  rw [← hf] at h ⊢
  have hframe : p.memory Predefined.lcl.address = frame := hf.symm
  have hlt : (frame - BitVec.ofNat 16 frameSize).toNat < memorySize := h.lt
  have hread : store p.memory (Predefined.register 13).address frame (frame - BitVec.ofNat 16 frameSize).toNat =
      Memory.saved p.memory frame frameSize := store_of_ne _ (h.ne (by decide)) _
  obtain ⟨m, hm⟩ : ∃ m, m = store (store p.memory (Predefined.register 13).address frame)
    (Predefined.register 14).address (Memory.saved p.memory frame frameSize) := ⟨_, rfl⟩
  refine ⟨{
    pc := p.pc + 9
    a := BitVec.ofNat 16 (Predefined.register 14).address
    d := Memory.saved p.memory frame frameSize
    memory := m }, ?_, ?_, ?_, ?_⟩
  · simp [hframe, hlt, hread, hm, -BitVec.toNat_sub]
  · exact hm ▸ ((Agree.refl p.memory).scratch (.inl rfl) _).scratch (.inr rfl) _
  · have hne : (Predefined.register 13).address ≠ (Predefined.register 14).address := by decide
    show m (Predefined.register 13).address = frame
    rw [hm, store_of_ne _ hne, store_self]
  · show m (Predefined.register 14).address = _
    rw [hm, store_self]

/-- The result takes the place of the first argument and the stack ends behind it. -/
theorem execute_result (asm : Assembled) {p : Processor} {v : Memory} {frame target : Word}
    (h : Returning p.memory v frame target) (ha : InStack (v.get .arg).toNat) (hs : InStack (v.get .sp - 1).toNat) :
    ∃ q, execute (asm.link (popD ++ [.loadCell .arg, .assign .toA .m, .assign .toM .d, .loadCell .arg,
        .assign .toD .succM, .loadCell .sp, .assign .toM .d])) p = some q ∧
      Returning q.memory (Memory.set (store v (v.get .arg).toNat v.top) .sp (v.get .arg + 1)) frame target := by
  have hsp : Memory.get p.memory .sp = v.get .sp := h.agree.get (by decide) (by decide)
  obtain ⟨m, hm⟩ : ∃ m, m = Memory.drop p.memory := ⟨_, rfl⟩
  have harg : m Predefined.arg.address = v.get .arg := by
    have hne : Predefined.arg.address ≠ Predefined.sp.address := by decide
    have hget : Memory.get p.memory .arg = v.get .arg := h.agree.get (by decide) (by decide)
    rw [hm, Memory.drop, Memory.set, store_of_ne _ hne]
    exact hget
  have hlt : (v.get .arg).toNat < memorySize := ha.lt
  have hread : store m (v.get .arg).toNat v.top Predefined.arg.address = v.get .arg :=
    (store_of_ne _ (ha.ne (by decide)).symm _).trans harg
  have hpop : execute (asm.link popD) p =
      some { pc := p.pc + 3, a := Memory.get p.memory .sp - 1, d := v.top, memory := m } := by
    rw [execute_popD asm (hsp ▸ hs), h.agree.top hs, hm]
  have hkeep : ∀ c, c = 13 ∨ c = 14 → Memory.set (store m (v.get .arg).toNat v.top) .sp (v.get .arg + 1) c = p.memory c := by
    intro c hc
    have h₀ : c ≠ Predefined.sp.address := by rcases hc with rfl | rfl <;> decide
    have h₁ : c ≠ (v.get .arg).toNat := by rcases hc with rfl | rfl <;> exact (ha.ne (by decide)).symm
    rw [Memory.set, store_of_ne _ h₀, store_of_ne _ h₁, hm, Memory.drop, Memory.set, store_of_ne _ h₀]
  refine ⟨{
    pc := p.pc + 10
    a := BitVec.ofNat 16 Predefined.sp.address
    d := v.get .arg + 1
    memory := Memory.set (store m (v.get .arg).toNat v.top) .sp (v.get .arg + 1) }, ?_, ?_, ?_, ?_⟩
  · rw [execute_link_append hpop]
    simp [harg, hlt, hread, Memory.set]
  · have hagree : Agree m v.drop := hm ▸ h.agree.drop
    have hsame : Memory.set (store v.drop (v.get .arg).toNat v.top) .sp (v.get .arg + 1) =
        Memory.set (store v (v.get .arg).toNat v.top) .sp (v.get .arg + 1) := by
      rw [Memory.drop, Memory.set, Memory.set, Memory.set, store_comm _ (ha.ne (by decide)).symm, store_store]
    rw [← hsame]
    exact (hagree.store _ _).set _ _
  · exact (hkeep 13 (.inl rfl)).trans h.frame
  · exact (hkeep 14 (.inr rfl)).trans h.target

theorem execute_takeBack (asm : Assembled) {p : Processor}
    (hf : ∀ i, 1 ≤ i → i ≤ frameSize → InStack (Memory.get p.memory .lcl - BitVec.ofNat 16 i).toNat)
    (ha : InStack (Memory.get p.memory .arg).toNat) (hs : InStack (Memory.get p.memory .sp - 1).toNat) :
    ∃ q, execute (asm.link takeBack) p = some q ∧ Agree q.memory (Memory.leave p.memory) ∧
      q.a = Memory.saved p.memory (Memory.get p.memory .lcl) frameSize := by
  obtain ⟨q₁, h₁, r₁⟩ := execute_stage asm (hf frameSize (by decide) (by decide))
  obtain ⟨q₂, h₂, r₂⟩ := execute_result asm r₁ ha hs
  obtain ⟨v, hv⟩ : ∃ v, v = Memory.set (store p.memory (Memory.get p.memory .arg).toNat (Memory.top p.memory)) .sp
    (Memory.get p.memory .arg + 1) := ⟨_, rfl⟩
  obtain ⟨frame, hframe⟩ : ∃ frame, frame = Memory.get p.memory .lcl := ⟨_, rfl⟩
  rw [← hv, ← hframe] at r₂
  rw [← hframe] at hf
  have e₂ : frame - 1 - 1 = frame - BitVec.ofNat 16 2 := sub_ofNat_sub_one frame 1
  have e₃ : frame - 1 - 1 - 1 = frame - BitVec.ofNat 16 3 := by rw [e₂, sub_ofNat_sub_one]
  have e₄ : frame - 1 - 1 - 1 - 1 = frame - BitVec.ofNat 16 4 := by rw [e₃, sub_ofNat_sub_one]
  have s₁ : InStack (frame - 1).toNat := hf 1 (by decide) (by decide)
  have s₂ : InStack (frame - 1 - 1).toNat := e₂ ▸ hf 2 (by decide) (by decide)
  have s₃ : InStack (frame - 1 - 1 - 1).toNat := e₃ ▸ hf 3 (by decide) (by decide)
  have s₄ : InStack (frame - 1 - 1 - 1 - 1).toNat := e₄ ▸ hf 4 (by decide) (by decide)
  -- the pointers are taken back from the top of the frame down
  obtain ⟨q₃, h₃, r₃⟩ := execute_restore asm .that (by decide) r₂ s₁
  obtain ⟨q₄, h₄, r₄⟩ := execute_restore asm .this (by decide) r₃ s₂
  obtain ⟨q₅, h₅, r₅⟩ := execute_restore asm .arg (by decide) r₄ s₃
  obtain ⟨q₆, h₆, r₆⟩ := execute_restore asm .lcl (by decide) r₅ s₄
  have hcode : takeBack = [.loadCell .lcl, .assign .toD .m, .loadCell (.register 13), .assign .toM .d,
      .loadNumber frameSize, .assign .toA .dMinusA, .assign .toD .m, .loadCell (.register 14), .assign .toM .d] ++
      (popD ++ [.loadCell .arg, .assign .toA .m, .assign .toM .d, .loadCell .arg, .assign .toD .succM,
        .loadCell .sp, .assign .toM .d]) ++ restore .that ++ restore .this ++ restore .arg ++ restore .lcl ++
      [.loadCell (.register 14), .assign .toA .m] := rfl
  have htarget : q₆.memory (Predefined.register 14).address = Memory.saved p.memory frame frameSize :=
    r₆.target.trans (hframe ▸ rfl)
  refine ⟨{ q₆ with pc := q₆.pc + 2, a := Memory.saved p.memory frame frameSize }, ?_, ?_, ?_⟩
  · rw [hcode, execute_link_append ((execute_link_append ((execute_link_append ((execute_link_append
      ((execute_link_append ((execute_link_append h₁).trans h₂)).trans h₃)).trans h₄)).trans h₅)).trans h₆)]
    simp [htarget]
  · have hleave : Memory.leave p.memory = (((v.set .that (v (frame - 1).toNat)).set .this (v (frame - 1 - 1).toNat)).set
        .arg (v (frame - 1 - 1 - 1).toNat)).set .lcl (v (frame - 1 - 1 - 1 - 1).toNat) := by
      rw [e₄, e₃, e₂, hv, hframe]
      rfl
    have hagree := r₆.agree
    rw [Memory.set_inStack _ (by decide) _ s₄, Memory.set_inStack _ (by decide) _ s₄, Memory.set_inStack _ (by decide) _ s₄,
      Memory.set_inStack _ (by decide) _ s₃, Memory.set_inStack _ (by decide) _ s₃,
      Memory.set_inStack _ (by decide) _ s₂] at hagree
    rw [hleave]
    exact hagree
  · rw [← hframe]

theorem straight_takeBack (asm : Assembled) : (asm.link takeBack).all Order.straight = true := rfl

/-- A call saves the caller and gets to the procedure. -/
theorem run_call {asm : Assembled} {scope : Scope} {f : String} {n : Nat} {p : Processor}
    (hc : CodeAt asm.orders p.pc (asm.link (call scope f n)))
    (h : ∀ i < frameSize, InStack ((Memory.get p.memory .sp).toNat + i)) :
    ∃ q, run asm.orders (asm.link (call scope f n)).length p = some q ∧
      q.pc = asm.value (.procedure f) % 65536 ∧
      q.memory = Memory.enter p.memory (BitVec.ofNat 16 (asm.value scope.returnAddress)) n := by
  obtain ⟨q, hq, hm⟩ := execute_saveCaller asm scope n h
  have hcode : asm.link (call scope f n) =
      asm.link (saveCaller scope n ++ [.load (.procedure f)]) ++ [.compute .nowhere .zero .always] := by
    rw [call_eq, Assembled.link_append, Assembled.link_append, Assembled.link_append]
    simp [goto]
  have hload := @execute_link_append asm _ [.load (.procedure f)] _ _ hq
  have hstraight : (asm.link (saveCaller scope n ++ [.load (.procedure f)])).all Order.straight = true := rfl
  rw [hcode] at hc ⊢
  rw [List.length_append]
  exact ⟨_, run_jumpAlways hc hstraight hload, by simp, hm⟩

/-- A return takes the caller back and gets to the saved address. -/
theorem run_ret {asm : Assembled} {p : Processor} (hc : CodeAt asm.orders p.pc (asm.link ret))
    (hf : ∀ i, 1 ≤ i → i ≤ frameSize → InStack (Memory.get p.memory .lcl - BitVec.ofNat 16 i).toNat)
    (ha : InStack (Memory.get p.memory .arg).toNat) (hs : InStack (Memory.get p.memory .sp - 1).toNat) :
    ∃ q, run asm.orders (asm.link ret).length p = some q ∧
      q.pc = (Memory.saved p.memory (Memory.get p.memory .lcl) frameSize).toNat ∧
      Agree q.memory (Memory.leave p.memory) := by
  obtain ⟨q, hq, hm, hto⟩ := execute_takeBack asm hf ha hs
  have hcode : asm.link ret = asm.link takeBack ++ [.compute .nowhere .zero .always] := rfl
  rw [hcode] at hc ⊢
  rw [List.length_append]
  exact ⟨_, run_jumpAlways hc (straight_takeBack asm) hq, by simp [hto], hm⟩

end Fragment

/-! ## Cells -/

namespace StackMachine.Memory

variable {m : Memory} {r : Word} {n : Nat}

/-- Behind a call the stack and the callee's locals begin above the frame, and the
    arguments below it. -/
theorem enter_pointers (m : Memory) (r : Word) (n : Nat) :
    (m.enter r n).get .sp = m.get .sp + BitVec.ofNat 16 frameSize ∧
      (m.enter r n).get .lcl = m.get .sp + BitVec.ofNat 16 frameSize ∧
      (m.enter r n).get .arg = m.get .sp - BitVec.ofNat 16 n := by
  have hsp : ∀ vs : List Word, vs.length = frameSize → (m.pushAll vs).get .sp = m.get .sp + BitVec.ofNat 16 frameSize := by
    intro vs hvs
    rw [sp_pushAll, hvs]
  have h₁ : Predefined.sp.address ≠ Predefined.lcl.address := by decide
  have h₂ : Predefined.sp.address ≠ Predefined.arg.address := by decide
  have h₃ : Predefined.arg.address ≠ Predefined.lcl.address := by decide
  refine ⟨?_, ?_, ?_⟩
  · rw [enter, get_set_of_ne _ h₁, get_set_of_ne _ h₂, hsp _ rfl]
  · rw [enter, get_set_self, hsp _ rfl]
  · rw [enter, get_set_of_ne _ h₃, get_set_self, hsp _ rfl]
    rw [BitVec.add_sub_cancel]

/-- The cells of the frame that a call saves. -/
theorem enter_frame (h : ∀ i < frameSize, InStack ((m.get .sp).toNat + i)) {i : Nat} (hi : i < frameSize) :
    m.enter r n ((m.get .sp).toNat + i) = [r, m.get .lcl, m.get .arg, m.get .this, m.get .that][i] := by
  rw [enter, set_inStack _ (by decide) _ (h i hi), set_inStack _ (by decide) _ (h i hi)]
  exact @pushAll_getElem m [r, m.get .lcl, m.get .arg, m.get .this, m.get .that] h i hi

/-- A call changes nothing but three pointers and the frame. -/
theorem enter_of_ne (h : ∀ i < frameSize, InStack ((m.get .sp).toNat + i)) {c : Nat} (h₀ : c ≠ 0) (h₁ : c ≠ 1)
    (h₂ : c ≠ 2) (hc : ∀ i < frameSize, c ≠ (m.get .sp).toNat + i) : m.enter r n c = m c := by
  have hlcl : c ≠ Predefined.lcl.address := h₁
  have harg : c ≠ Predefined.arg.address := h₂
  rw [enter, set_of_ne _ hlcl, set_of_ne _ harg]
  exact @pushAll_of_ne m [r, m.get .lcl, m.get .arg, m.get .this, m.get .that] h c h₀ hc

/-- A return changes nothing but the pointers and the place of the first argument. -/
theorem leave_of_ne {c : Nat} (hc : 4 < c) (ha : c ≠ (m.get .arg).toNat) : m.leave c = m c := by
  have hne : ∀ p : Predefined, p.address ≤ 4 → c ≠ p.address := fun p hp => by omega
  rw [leave, set_of_ne _ (hne .lcl (by decide)), set_of_ne _ (hne .arg (by decide)), set_of_ne _ (hne .this (by decide)),
    set_of_ne _ (hne .that (by decide)), set_of_ne _ (hne .sp (by decide)), store_of_ne _ ha]

/-- Behind a return the pointers are those that the frame holds. -/
theorem leave_pointers {frame : Word} (hf : m.get .lcl = frame)
    (h : ∀ i, 1 ≤ i → i < frameSize →
      InStack (frame - BitVec.ofNat 16 i).toNat ∧ (frame - BitVec.ofNat 16 i).toNat ≠ (m.get .arg).toNat) :
    m.leave.get .sp = m.get .arg + 1 ∧ m.leave.get .lcl = m.saved frame 4 ∧ m.leave.get .arg = m.saved frame 3 ∧
      m.leave.get .this = m.saved frame 2 ∧ m.leave.get .that = m.saved frame 1 := by
  have hsaved : ∀ i, 1 ≤ i → i < frameSize →
      Memory.saved (Memory.set (store m (m.get .arg).toNat m.top) .sp (m.get .arg + 1)) frame i = m.saved frame i := by
    intro i h₁ h₂
    obtain ⟨hin, hne⟩ := h i h₁ h₂
    rw [saved, set_inStack _ (by decide) _ hin, store_of_ne _ hne]
    rfl
  have apart : ∀ {p q : Predefined} {m : Memory} {v : Word}, p.address ≠ q.address → (m.set q v).get p = m.get p :=
    fun h => get_set_of_ne _ h _
  rw [leave, hf, hsaved 1 (by decide) (by decide), hsaved 2 (by decide) (by decide), hsaved 3 (by decide) (by decide),
    hsaved 4 (by decide) (by decide)]
  refine ⟨?_, ?_, ?_, ?_, ?_⟩
  · rw [apart (by decide), apart (by decide), apart (by decide), apart (by decide), get_set_self]
  · rw [get_set_self]
  · rw [apart (by decide), get_set_self]
  · rw [apart (by decide), apart (by decide), get_set_self]
  · rw [apart (by decide), apart (by decide), apart (by decide), get_set_self]

/-- A return leaves its result where the first argument was. -/
theorem leave_result (ha : InStack (m.get .arg).toNat) : m.leave (m.get .arg).toNat = m.top := by
  rw [leave, set_inStack _ (by decide) _ ha, set_inStack _ (by decide) _ ha, set_inStack _ (by decide) _ ha,
    set_inStack _ (by decide) _ ha, set_inStack _ (by decide) _ ha, store_self]

end StackMachine.Memory

end StackToHack
