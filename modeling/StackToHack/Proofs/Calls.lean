/-
  StackToHack.Proofs.Calls — a call and the return that ends it.

  A call leaves a frame below the callee's locals, `Framed`. A return that finds the frame
  as it was goes on behind the call and gives the caller its pointers back, whatever ran
  in between. The place behind a call is what the assembler makes of the label there, and
  it is wrong where the entry of the bootstrap moves the labels, `Options.drift`.
  - `called_of_enter`, `returned_of_leave`: the frame as the stack machine leaves it.
  - `run_call_iff`: a call leaves the right frame unless the labels are moved.
  - `call_linked_iff`: the call and every return that finds its frame.
  - `call_unlinked`: an entry that moves the labels.
-/

import StackToHack.Proofs.Frames

namespace StackToHack

open Processor StackMachine

/-! ## Frames -/

/-- A frame at `s`: the place behind the call, and the caller's pointers. -/
structure Framed (m : Memory) (s returnTo : Nat) (caller : Memory) : Prop where
  returnTo : m s = BitVec.ofNat 16 returnTo
  lcl : m (s + 1) = caller.get .lcl
  arg : m (s + 2) = caller.get .arg
  this : m (s + 3) = caller.get .this
  that : m (s + 4) = caller.get .that

/-- From `p`, a call with `n` arguments below `s` has arrived. -/
structure Called (p q : Processor) (s n returnTo target : Nat) : Prop where
  pc : q.pc = target
  sp : Memory.get q.memory .sp = BitVec.ofNat 16 (s + frameSize)
  lcl : Memory.get q.memory .lcl = BitVec.ofNat 16 (s + frameSize)
  arg : Memory.get q.memory .arg = BitVec.ofNat 16 (s - n)
  frame : Framed q.memory s returnTo p.memory
  rest : ∀ c, c ≠ 0 → c ≠ 1 → c ≠ 2 → c < s ∨ s + frameSize ≤ c → q.memory c = p.memory c

structure Returned (p q : Processor) (s n t returnTo : Nat) (caller : Memory) : Prop where
  pc : q.pc = returnTo
  sp : Memory.get q.memory .sp = BitVec.ofNat 16 (s - n + 1)
  result : q.memory (s - n) = p.memory (t - 1)
  lcl : Memory.get q.memory .lcl = caller.get .lcl
  arg : Memory.get q.memory .arg = caller.get .arg
  this : Memory.get q.memory .this = caller.get .this
  that : Memory.get q.memory .that = caller.get .that
  rest : ∀ c, 4 < c → c ≠ 13 → c ≠ 14 → c ≠ s - n → q.memory c = p.memory c

theorem toNat_ofNat {a : Nat} (h : a < memorySize) : (BitVec.ofNat 16 a).toNat = a :=
  (BitVec.toNat_ofNat a 16).trans (Nat.mod_eq_of_lt (Nat.lt_trans h (by decide)))

theorem ofNat_sub_ofNat {a b : Nat} (h : b ≤ a) (ha : a < memorySize) :
    BitVec.ofNat 16 a - BitVec.ofNat 16 b = BitVec.ofNat 16 (a - b) :=
  BitVec.ofNat_sub_ofNat_of_le a b (Nat.lt_trans (Nat.lt_of_le_of_lt h ha) (by decide)) h

section Arrivals

variable {p q : Processor} {s n : Nat}

/-- The frame of a call fits behind the stack. -/
theorem inStack_frame (hsp : Memory.get p.memory .sp = BitVec.ofNat 16 s) (hlow : stackBase ≤ s) (hhigh : s + 6 < memorySize) :
    ∀ i < frameSize, InStack ((Memory.get p.memory .sp).toNat + i) := by
  intro i hi
  rw [hsp, toNat_ofNat (by omega)]
  unfold frameSize at hi
  exact ⟨by omega, by omega⟩

theorem called_of_enter {r target : Nat} (hsp : Memory.get p.memory .sp = BitVec.ofNat 16 s) (hlow : stackBase + n ≤ s)
    (hhigh : s + 6 < memorySize) (hm : q.memory = Memory.enter p.memory (BitVec.ofNat 16 r) n) (hpc : q.pc = target) :
    Called p q s n r target := by
  have hin := inStack_frame hsp (by omega) hhigh
  have hs : (Memory.get p.memory .sp).toNat = s := by rw [hsp, toNat_ofNat (by omega)]
  have hframe : ∀ i, (hi : i < frameSize) → q.memory (s + i) = [BitVec.ofNat 16 r, Memory.get p.memory .lcl,
      Memory.get p.memory .arg, Memory.get p.memory .this, Memory.get p.memory .that][i] := by
    intro i hi
    have := @Memory.enter_frame p.memory (BitVec.ofNat 16 r) n hin i hi
    rw [hm, ← this, hs]
  obtain ⟨h₀, h₁, h₂⟩ := Memory.enter_pointers p.memory (BitVec.ofNat 16 r) n
  rw [← hm, hsp] at h₀ h₁ h₂
  refine ⟨hpc, ?_, ?_, ?_, ⟨hframe 0 (by decide), hframe 1 (by decide), hframe 2 (by decide), hframe 3 (by decide),
    hframe 4 (by decide)⟩, ?_⟩
  · rw [h₀, BitVec.ofNat_add]
  · rw [h₁, BitVec.ofNat_add]
  · rw [h₂, ofNat_sub_ofNat (by omega) (by omega)]
  · intro c hc₀ hc₁ hc₂ hc
    rw [hm]
    refine Memory.enter_of_ne hin hc₀ hc₁ hc₂ fun i hi => ?_
    rw [hs]
    omega

/-- The frame at `s` as a return sees it, from the callee's locals down. -/
theorem inStack_return (hlow : stackBase + n ≤ s) (hhigh : s + 6 < memorySize) {i : Nat} (h₁ : 1 ≤ i) (h₂ : i ≤ frameSize) :
    (BitVec.ofNat 16 (s + frameSize) - BitVec.ofNat 16 i).toNat = s + frameSize - i ∧
      InStack (BitVec.ofNat 16 (s + frameSize) - BitVec.ofNat 16 i).toNat := by
  unfold frameSize at h₂ ⊢
  have e : (BitVec.ofNat 16 (s + 5) - BitVec.ofNat 16 i).toNat = s + 5 - i := by
    rw [ofNat_sub_ofNat (by omega) (by omega), toNat_ofNat (by omega)]
  rw [e]
  exact ⟨rfl, by omega, by omega⟩

theorem returned_of_leave {t returnTo : Nat} {caller : Memory} (hlow : stackBase + n ≤ s) (hhigh : s + 6 < memorySize)
    (ht : s + 6 ≤ t) (ht' : t < memorySize) (hsp : Memory.get p.memory .sp = BitVec.ofNat 16 t)
    (hlcl : Memory.get p.memory .lcl = BitVec.ofNat 16 (s + frameSize))
    (harg : Memory.get p.memory .arg = BitVec.ofNat 16 (s - n)) (hf : Framed p.memory s returnTo caller)
    (hm : Agree q.memory (Memory.leave p.memory)) (hpc : q.pc = returnTo) : Returned p q s n t returnTo caller := by
  have hs : (Memory.get p.memory .arg).toNat = s - n := by rw [harg, toNat_ofNat (by omega)]
  have ha : InStack (Memory.get p.memory .arg).toNat := by
    rw [hs]
    exact ⟨by omega, by omega⟩
  have hsaved : ∀ i, 1 ≤ i → i ≤ frameSize →
      Memory.saved p.memory (BitVec.ofNat 16 (s + frameSize)) i = p.memory (s + frameSize - i) := by
    intro i h₁ h₂
    rw [Memory.saved, (@inStack_return s n hlow hhigh i h₁ h₂).1]
  obtain ⟨h₀, h₁, h₂, h₃, h₄⟩ := Memory.leave_pointers hlcl (by
    intro i h₁ h₂
    obtain ⟨e, hin⟩ := @inStack_return s n hlow hhigh i h₁ (Nat.le_of_lt h₂)
    refine ⟨hin, ?_⟩
    rw [e, hs]
    unfold frameSize at h₂ ⊢
    omega)
  have htop : Memory.top p.memory = p.memory (t - 1) := by
    rw [Memory.top, hsp]
    have := ofNat_sub_ofNat (a := t) (b := 1) (by omega) ht'
    rw [show (1 : Word) = BitVec.ofNat 16 1 from rfl, this, toNat_ofNat (by omega)]
  refine ⟨hpc, ?_, ?_, ?_, ?_, ?_, ?_, ?_⟩
  · rw [hm.get (by decide) (by decide), h₀, harg, BitVec.ofNat_add]
    rfl
  · have hr := Memory.leave_result ha
    rw [← hm.inStack ha, hs] at hr
    rw [hr, htop]
  · rw [hm.get (by decide) (by decide), h₁, hsaved 4 (by decide) (by decide), ← hf.lcl]
    rfl
  · rw [hm.get (by decide) (by decide), h₂, hsaved 3 (by decide) (by decide), ← hf.arg]
    rfl
  · rw [hm.get (by decide) (by decide), h₃, hsaved 2 (by decide) (by decide), ← hf.this]
    rfl
  · rw [hm.get (by decide) (by decide), h₄, hsaved 1 (by decide) (by decide), ← hf.that]
    rfl
  · intro c hc h₁₃ h₁₄ hn
    rw [hm c h₁₃ h₁₄, Memory.leave_of_ne hc]
    rw [hs]
    exact hn

end Arrivals

/-! ## Programs -/

section Programs

variable {options : Options} {units : List SourceUnit} {asm : Assembled} {before after : List Statement} {scope : Scope}
  {f : String} {p : Processor} {s n target : Nat}

/-- The code of a call whose procedure is defined is that of a source. -/
theorem sound_call_of_lookup (h : Loaded options units asm)
    (hw : (translate options units).written = before ++ Fragment.call scope f n ++ after)
    (hf : asm.labels.lookup f = some target) : ∀ t ∈ Fragment.call scope f n, t.Sound := by
  obtain ⟨summary, hok⟩ := h.accepted
  have hacc := accepted_of_ok hok
  have hmem : ∀ t ∈ Fragment.call scope f n, t ∈ (translate options units).written := by
    intro t ht
    rw [hw]
    exact List.mem_append_left _ (List.mem_append_right _ ht)
  have hload := hmem (.load (.procedure f)) (by simp [Fragment.call, Fragment.goto])
  have hproc : Name.IsProcedure scope.procedure := by
    have hlabel := hmem (.label scope.returnAddress) (by simp [Fragment.call])
    rcases mem_written hacc h.identifiers hlabel with hs | ⟨-, he⟩
    · exact hs
    · cases he
  have hn : n ≤ maxLoad := by
    have hnumber := hmem (.loadNumber n) (by simp [Fragment.call])
    rcases mem_written hacc h.identifiers hnumber with hs | ⟨-, he⟩
    · exact hs
    · cases he
  exact Fragment.sound_call hproc (isProcedure_of_lookup hacc h.identifiers h.assembled hf hload) hn

/-- A call gets to its procedure with the right frame unless the labels are moved. -/
theorem run_call_iff (h : Loaded options units asm)
    (hw : (translate options units).written = before ++ Fragment.call scope f n ++ after)
    (hf : asm.labels.lookup f = some target) (hlow : stackBase + n ≤ s) (hhigh : s + 6 < memorySize)
    (hpc : p.pc = Assembler.size before) (hsp : Memory.get p.memory .sp = BitVec.ofNat 16 s) :
    (∃ q, run asm.orders (Assembler.size (Fragment.call scope f n)) p = some q ∧
        Called p q s n (Assembler.size (before ++ Fragment.call scope f n)) target) ↔
      options.drift % 65536 = 0 ∧ target < 65536 := by
  obtain ⟨summary, hok⟩ := h.accepted
  have hsound := sound_call_of_lookup h hw hf
  have hcode := codeAt_of_written h.assembled hw hsound
  rw [← hpc] at hcode
  have hlen : Assembler.size (Fragment.call scope f n) = (asm.link (Fragment.call scope f n)).length := by
    rw [Assembler.size_of_sound hsound, Assembled.length_link]
  -- the label behind the call is no order
  have hreturn : asm.value scope.returnAddress = Assembler.size (before ++ Fragment.call scope f n) + options.drift := by
    have hw' : (translate options units).written =
        (before ++ (Fragment.saveCaller scope n ++ Fragment.goto (.procedure f))) ++ .label scope.returnAddress :: after := by
      rw [hw, Fragment.call_eq]
      simp
    have hlabel : Assembler.size [.label scope.returnAddress] = 0 := by
      rw [Assembler.size_of_sound fun t ht => hsound t (by rw [Fragment.call_eq]; exact List.mem_append_right _ ht)]
      rfl
    rw [value_of_written (accepted_of_ok hok) h.identifiers h.assembled hw' (by intro _ e; cases e), Fragment.call_eq]
    simp only [Assembler.size_append, hlabel]
    omega
  have htarget : asm.value (.procedure f) = target := value_of_lookup hf (by intro _ e; cases e)
  obtain ⟨q, hq, hto, hm⟩ := Fragment.run_call hcode (inStack_frame hsp (by omega) hhigh)
  rw [hreturn] at hm
  rw [htarget] at hto
  rw [hlen]
  constructor
  · rintro ⟨q', hq', hcalled⟩
    obtain rfl : q' = q := Option.some.inj (hq'.symm.trans hq)
    have hsame := (called_of_enter hsp hlow hhigh hm hto).frame.returnTo.symm.trans hcalled.frame.returnTo
    have hmod := congrArg BitVec.toNat hsame
    rw [BitVec.toNat_ofNat, BitVec.toNat_ofNat] at hmod
    have hpc' := hcalled.pc
    constructor <;> omega
  · rintro ⟨hdrift, hlt⟩
    have hsame : ∀ place : Nat, BitVec.ofNat 16 (place + options.drift) = BitVec.ofNat 16 place := by
      intro place
      apply BitVec.eq_of_toNat_eq
      rw [BitVec.toNat_ofNat, BitVec.toNat_ofNat]
      omega
    rw [hsame] at hm
    exact ⟨q, hq, called_of_enter hsp hlow hhigh hm (by omega)⟩

/-- A return that finds a frame as it was goes on behind the call that left it. -/
theorem run_ret_of_framed (h : Loaded options units asm)
    (hw : (translate options units).written = before ++ Fragment.ret ++ after) (hpc : p.pc = Assembler.size before)
    (hlow : stackBase + n ≤ s) (hhigh : s + 6 < memorySize) {t : Nat} (ht : s + 6 ≤ t) (ht' : t < memorySize)
    (hsp : Memory.get p.memory .sp = BitVec.ofNat 16 t)
    (hlcl : Memory.get p.memory .lcl = BitVec.ofNat 16 (s + frameSize))
    (harg : Memory.get p.memory .arg = BitVec.ofNat 16 (s - n)) {returnTo : Nat} (hr : returnTo ≤ programSize)
    {caller : Memory} (hf : Framed p.memory s returnTo caller) :
    ∃ q, run asm.orders (Assembler.size Fragment.ret) p = some q ∧ Returned p q s n t returnTo caller := by
  have hcode := codeAt_of_written h.assembled hw Fragment.sound_ret
  rw [← hpc] at hcode
  have ha : InStack (Memory.get p.memory .arg).toNat := by
    rw [harg, toNat_ofNat (by omega)]
    exact ⟨by omega, by omega⟩
  have htop : InStack (Memory.get p.memory .sp - 1).toNat := by
    have e : BitVec.ofNat 16 t - 1 = BitVec.ofNat 16 (t - 1) := @ofNat_sub_ofNat t 1 (by omega) ht'
    rw [hsp, e, toNat_ofNat (by omega)]
    exact ⟨by omega, by omega⟩
  obtain ⟨q, hq, hto, hm⟩ := Fragment.run_ret hcode
    (fun i h₁ h₂ => by rw [hlcl]; exact (inStack_return hlow hhigh h₁ h₂).2) ha htop
  have hback : q.pc = returnTo := by
    have hs : Memory.saved p.memory (BitVec.ofNat 16 (s + frameSize)) frameSize = p.memory s := by
      rw [Memory.saved, (inStack_return hlow hhigh (by decide) (Nat.le_refl _)).1, Nat.add_sub_cancel]
    rw [hto, hlcl, hs, hf.returnTo, BitVec.toNat_ofNat]
    unfold programSize at hr
    exact Nat.mod_eq_of_lt (by omega)
  rw [Assembler.size_of_sound Fragment.sound_ret, ← Assembled.length_link asm]
  exact ⟨q, hq, returned_of_leave hlow hhigh ht ht' hsp hlcl harg hf hm hback⟩

/-- A call gets to its procedure with the right frame iff the entry does not move the labels,
    and each return that finds the frame as it was ends the call. -/
theorem call_linked_iff (h : Loaded options units asm)
    (hw : (translate options units).written = before ++ Fragment.call scope f n ++ after)
    (hf : asm.labels.lookup f = some target) (hlow : stackBase + n ≤ s) (hhigh : s + 6 < memorySize)
    (hpc : p.pc = Assembler.size before) (hsp : Memory.get p.memory .sp = BitVec.ofNat 16 s) :
    ((∃ q, run asm.orders (Assembler.size (Fragment.call scope f n)) p = some q ∧
        Called p q s n (Assembler.size (before ++ Fragment.call scope f n)) target) ↔
      options.drift % 65536 = 0 ∧ target < 65536) ∧
    ((options.bootstrap = true → Name.isIdentifier options.entry = true) →
      options.drift % 65536 = 0 ∧ target < 65536) ∧
    ∀ before' after', (translate options units).written = before' ++ Fragment.ret ++ after' →
      ∀ (p' : Processor) (t : Nat), p'.pc = Assembler.size before' → s + 6 ≤ t → t < memorySize →
        Memory.get p'.memory .sp = BitVec.ofNat 16 t → Memory.get p'.memory .lcl = BitVec.ofNat 16 (s + frameSize) →
        Memory.get p'.memory .arg = BitVec.ofNat 16 (s - n) →
        Framed p'.memory s (Assembler.size (before ++ Fragment.call scope f n)) p.memory →
        ∃ q', run asm.orders (Assembler.size Fragment.ret) p' = some q' ∧
          Returned p' q' s n t (Assembler.size (before ++ Fragment.call scope f n)) p.memory := by
  obtain ⟨summary, hok⟩ := h.accepted
  have hacc := accepted_of_ok hok
  have hfits := h.fits
  unfold programSize at hfits
  refine ⟨run_call_iff h hw hf hlow hhigh hpc hsp, fun he => ?_, ?_⟩
  · have hdrift : options.drift = 0 := Options.drift_eq_zero fun hb => ⟨hacc.entry hb, he hb⟩
    have hle := le_of_lookup_written hacc h.identifiers h.assembled hf
    constructor <;> omega
  · intro before' after' hw' p' t hpc' ht ht' hsp' hlcl harg hframe
    have hbehind : Assembler.size (before ++ Fragment.call scope f n) ≤ programSize := by
      have hlen : asm.orders.length = Assembler.size (translate options units).written :=
        length_orders_of_assemble h.assembled
      rw [hw, Assembler.size_append _ after] at hlen
      unfold programSize
      omega
    exact run_ret_of_framed h hw' hpc' hlow hhigh ht ht' hsp' hlcl harg hbehind hframe

end Programs

def selfCall : SourceUnit := ⟨"A", "function F 0\ncall F 0\nreturn\n"⟩

/-- Without arguments the result takes the place of the return address. -/
theorem call_linked_selfCall :
    ∃ asm before after before' after' target, Loaded { entry := "F" } [selfCall] asm ∧
      (translate { entry := "F" } [selfCall]).written = before ++ Fragment.call ⟨0, "F", 0, "A"⟩ "F" 0 ++ after ∧
      (translate { entry := "F" } [selfCall]).written = before' ++ Fragment.ret ++ after' ∧
      asm.labels.lookup "F" = some target ∧
      ∃ p p' : Processor, p.pc = Assembler.size before ∧ Memory.get p.memory .sp = BitVec.ofNat 16 300 ∧
        (∃ q, run asm.orders (Assembler.size (Fragment.call ⟨0, "F", 0, "A"⟩ "F" 0)) p = some q ∧
          Called p q 300 0 (Assembler.size (before ++ Fragment.call ⟨0, "F", 0, "A"⟩ "F" 0)) target) ∧
        p'.pc = Assembler.size before' ∧ Memory.get p'.memory .sp = BitVec.ofNat 16 306 ∧
        ∃ q', run asm.orders (Assembler.size Fragment.ret) p' = some q' ∧
          Returned p' q' 300 0 306 (Assembler.size (before ++ Fragment.call ⟨0, "F", 0, "A"⟩ "F" 0)) p.memory := by
  have hunits : ∀ u ∈ [selfCall], Name.isIdentifier u.name = true := by decide +kernel
  have hentry : Name.IsProcedure "F" := by
    unfold Name.IsProcedure
    decide +kernel
  have hok : (translate { entry := "F" } [selfCall]).outcome = .ok ⟨1, 3, 146⟩ := by decide +kernel
  obtain ⟨asm, h⟩ := @exists_loaded { entry := "F" } [selfCall] ⟨1, 3, 146⟩ hok hunits
    (Options.legible_entryLoad fun _ => hentry) (by decide +kernel) (by decide +kernel)
  obtain ⟨w, hw⟩ : ∃ w, w = (translate { entry := "F" } [selfCall]).written := ⟨_, rfl⟩
  have hcall : (translate { entry := "F" } [selfCall]).written =
      w.take 58 ++ Fragment.call ⟨0, "F", 0, "A"⟩ "F" 0 ++ w.drop 103 := by
    rw [hw]
    decide +kernel
  have hret : (translate { entry := "F" } [selfCall]).written = w.take 104 ++ Fragment.ret ++ [] := by
    rw [hw]
    decide +kernel
  have hlabel : (translate { entry := "F" } [selfCall]).written = w.take 56 ++ .label (.procedure "F") :: w.drop 57 := by
    rw [hw]
    decide +kernel
  have hlookup := lookup_of_written (accepted_of_ok hok) hunits h.assembled hlabel
  obtain ⟨r, hr⟩ : ∃ r, r = Assembler.size (w.take 58 ++ Fragment.call ⟨0, "F", 0, "A"⟩ "F" 0) := ⟨_, rfl⟩
  -- the stack of the caller ends below cell 300, and the callee has pushed a result
  obtain ⟨m, hm⟩ : ∃ m : Memory, m = fun c => if c = 0 then 300 else BitVec.ofNat 16 c := ⟨_, rfl⟩
  obtain ⟨m', hm'⟩ : ∃ m' : Memory, m' = fun c => if c = 0 then 306 else if c = 1 then 305 else if c = 2 then 300
    else if c = 300 then BitVec.ofNat 16 r else BitVec.ofNat 16 (c - 300) := ⟨_, rfl⟩
  have hlinked := @call_linked_iff { entry := "F" } [selfCall] asm (w.take 58) (w.drop 103) ⟨0, "F", 0, "A"⟩ "F"
    ⟨Assembler.size (w.take 58), 0, 0, m⟩ 300 0 _ h hcall hlookup (by decide) (by decide) rfl (by rw [hm]; rfl)
  obtain ⟨hiff, hentry', hreturn⟩ := hlinked
  refine ⟨asm, w.take 58, w.drop 103, w.take 104, [], _, h, hcall, hret, hlookup,
    ⟨Assembler.size (w.take 58), 0, 0, m⟩, ⟨Assembler.size (w.take 104), 0, 0, m'⟩,
    rfl, by rw [hm]; rfl, hiff.mpr (hentry' fun _ => hentry.2), rfl, ?_, ?_⟩
  · rw [hm']
    rfl
  · refine hreturn (w.take 104) [] hret _ 306 rfl (by decide) (by decide) ?_ ?_ ?_ ?_
    · rw [hm']
      rfl
    · rw [hm']
      rfl
    · rw [hm']
      rfl
    · rw [← hr, hm, hm']
      exact ⟨rfl, rfl, rfl, rfl, rfl⟩

/-- An entry that opens a parenthesis on a line of its own: no call is linked. -/
theorem call_unlinked :
    ∃ asm before after target, Loaded { entry := "A\n(B" } [selfCall] asm ∧
      (translate { entry := "A\n(B" } [selfCall]).written = before ++ Fragment.call ⟨0, "F", 0, "A"⟩ "F" 0 ++ after ∧
      asm.labels.lookup "F" = some target ∧
      ∀ (p : Processor) (s : Nat), stackBase ≤ s → s + 6 < memorySize → p.pc = Assembler.size before →
        Memory.get p.memory .sp = BitVec.ofNat 16 s →
        ¬ ∃ q, run asm.orders (Assembler.size (Fragment.call ⟨0, "F", 0, "A"⟩ "F" 0)) p = some q ∧
          Called p q s 0 (Assembler.size (before ++ Fragment.call ⟨0, "F", 0, "A"⟩ "F" 0)) target := by
  have hunits : ∀ u ∈ [selfCall], Name.isIdentifier u.name = true := by decide +kernel
  have hok : (translate { entry := "A\n(B" } [selfCall]).outcome = .ok ⟨1, 3, 146⟩ := by decide +kernel
  have hlines : Assembler.lines (Statement.write ({ entry := "A\n(B" } : Options).entryLoad) = [['@', 'A'], ['(', 'B']] := by
    decide +kernel
  have hlegible : ∀ line ∈ Assembler.lines (Statement.write ({ entry := "A\n(B" } : Options).entryLoad),
      Assembler.Legible line ∧ Assembler.labelOf? line = none := by
    have hword : (Symbol.procedure "A").Sound := by
      show Name.IsProcedure "A"
      unfold Name.IsProcedure
      decide +kernel
    intro line hl
    rw [hlines] at hl
    rcases List.mem_cons.mp hl with rfl | hl
    · exact ⟨@Statement.legible_line (.load (.procedure "A")) hword _ rfl, rfl⟩
    · obtain rfl := List.mem_singleton.mp hl
      refine ⟨⟨?_, ?_⟩, rfl⟩
      · intro _ e
        cases e
      · intro e
        cases e
  obtain ⟨asm, h⟩ := @exists_loaded { entry := "A\n(B" } [selfCall] ⟨1, 3, 146⟩ hok hunits hlegible
    (by decide +kernel) (by decide +kernel)
  obtain ⟨w, hw⟩ : ∃ w, w = (translate { entry := "A\n(B" } [selfCall]).written := ⟨_, rfl⟩
  have hcall : (translate { entry := "A\n(B" } [selfCall]).written =
      w.take 58 ++ Fragment.call ⟨0, "F", 0, "A"⟩ "F" 0 ++ w.drop 103 := by
    rw [hw]
    decide +kernel
  have hlabel : (translate { entry := "A\n(B" } [selfCall]).written =
      w.take 56 ++ .label (.procedure "F") :: w.drop 57 := by
    rw [hw]
    decide +kernel
  have hlookup := lookup_of_written (accepted_of_ok hok) hunits h.assembled hlabel
  refine ⟨asm, w.take 58, w.drop 103, _, h, hcall, hlookup, ?_⟩
  intro p s hlow hhigh hpc hsp hq
  obtain ⟨hdrift, -⟩ := (run_call_iff h hcall hlookup hlow hhigh hpc hsp).mp hq
  revert hdrift
  decide +kernel

end StackToHack
