/-
  StackToHack.Proofs.Startup — how a program begins and where it stops.

  With a bootstrap the machine sets up the stack and calls the entry procedure, and the
  loop that it parks in stands behind that call, so it is where the entry procedure
  returns to. Without one the loop stands behind the code of the last unit.
  - `parked_of_inLoop`: the machine never leaves the loop and changes no cell in it.
  - `run_opening`: from any memory the machine gets to the entry procedure.
  - `starts_and_parks`: the start, the return of the entry procedure, and the end.
-/

import StackToHack.Proofs.Calls
import StackToHack.Proofs.Resolution
import StackToHack.Proofs.Units

namespace StackToHack

open Processor StackMachine

/-! ## The loop -/

namespace Processor

variable {program : List Order} {place : Nat} {p : Processor}

def InLoop (place : Nat) (p : Processor) : Prop :=
  p.pc = place ∨ p.pc = place + 1 ∧ p.a = BitVec.ofNat 16 place

/-- Whatever number of steps is made, the machine is in the loop and no cell has changed. -/
def Parked (program : List Order) (place : Nat) (p : Processor) : Prop :=
  ∀ n, ∃ q, run program n p = some q ∧ (q.pc = place ∨ q.pc = place + 1) ∧ q.memory = p.memory

theorem step_inLoop (hc : CodeAt program place [.load (BitVec.ofNat 16 place), .compute .nowhere .zero .always])
    (hlt : place < 65536) (h : InLoop place p) :
    ∃ q, p.step program = some q ∧ InLoop place q ∧ q.memory = p.memory := by
  rcases h with rfl | ⟨hpc, ha⟩
  · refine ⟨{ p with a := BitVec.ofNat 16 p.pc, pc := p.pc + 1 }, ?_, .inr ⟨rfl, rfl⟩, rfl⟩
    rw [step, hc.head]
    rfl
  · refine ⟨{ p with pc := p.a.toNat }, ?_, .inl ?_, rfl⟩
    · rw [step, hpc, hc.tail.head]
      show p.perform (.compute .nowhere .zero .always) = _
      rw [perform_jump rfl]
      rfl
    · show p.a.toNat = place
      rw [ha, BitVec.toNat_ofNat, Nat.mod_eq_of_lt hlt]

theorem parked_of_inLoop (hc : CodeAt program place [.load (BitVec.ofNat 16 place), .compute .nowhere .zero .always])
    (hlt : place < 65536) (h : InLoop place p) : Parked program place p := by
  intro n
  induction n generalizing p with
  | zero => exact ⟨p, rfl, h.imp_right And.left, rfl⟩
  | succ n ih =>
    obtain ⟨q, hq, hin, hm⟩ := step_inLoop hc hlt h
    obtain ⟨r, hr, hpc, hm'⟩ := ih hin
    refine ⟨r, ?_, hpc, hm'.trans hm⟩
    rw [run, hq]
    exact hr

end Processor

/-! ## Symbols -/

section Programs

variable {options : Options} {units : List SourceUnit} {asm : Assembled}

/-- A program defines each procedure that its units declare. -/
theorem procedure_mem_written (h : Accepted options units) {f : String} (hf : f ∈ procedures (instructions units)) :
    .label (.procedure f) ∈ (translate options units).written := by
  obtain ⟨before, n, after, he⟩ := append_of_mem_procedures hf
  rw [← Statement.mem_symbols_iff, (symbols_written h).mem_iff, he, Scope.symbols_append]
  refine List.mem_cons_of_mem _ (List.mem_append_right _ (List.mem_append_right _ ?_))
  exact List.mem_append_left _ List.mem_cons_self

/-! ## The code before and behind the units -/

/-- The machine parks wherever the loop stands. -/
theorem parked_of_written (h : Loaded options units asm) (hd : options.drift = 0) {before after : List Statement}
    (hw : (translate options units).written = before ++ Fragment.halt ++ after) :
    asm.labels.lookup "$halt" = some (Assembler.size before) ∧
      ∀ p : Processor, p.pc = Assembler.size before → Parked asm.orders (Assembler.size before) p := by
  obtain ⟨summary, hok⟩ := h.accepted
  have hacc := accepted_of_ok hok
  have hw' : (translate options units).written = before ++ .label .halt :: (Fragment.goto .halt ++ after) := by
    rw [hw, List.append_assoc]
    rfl
  have hlookup := lookup_of_written hacc h.identifiers h.assembled hw'
  have hvalue := value_of_written hacc h.identifiers h.assembled hw' (by intro _ e; cases e)
  rw [hd, Nat.add_zero] at hlookup hvalue
  refine ⟨hlookup, fun p hpc => parked_of_inLoop ?_ ?_ (.inl hpc)⟩
  · have hcode := codeAt_of_written h.assembled hw Fragment.sound_halt
    rw [← hvalue]
    rw [← hvalue] at hcode
    exact hcode
  · have hle := le_of_lookup_written hacc h.identifiers h.assembled hlookup
    have hfits := h.fits
    unfold programSize at hfits
    omega

def Options.prelude (options : Options) : List Statement :=
  ({ options } : Session).remark "bootstrap" ++ Fragment.setUp

def Options.entryReturn (options : Options) : Nat :=
  Assembler.size (options.prelude ++ Fragment.call {} options.entry 0)

theorem written_of_bootstrap (h : Accepted options units) (hb : options.bootstrap = true) :
    ∃ after, (translate options units).written =
      options.prelude ++ Fragment.call {} options.entry 0 ++ (Fragment.halt ++ after) := by
  refine ⟨(listing options units).flatMap (Placed.emitted options) ++ options.closing, ?_⟩
  rw [h.written, Options.opening, if_pos hb, Options.prelude]
  simp only [List.append_assoc]

theorem execute_setUp (asm : Assembled) (p : Processor) :
    ∃ q, execute (asm.link Fragment.setUp) p = some q ∧ Memory.get q.memory .sp = BitVec.ofNat 16 stackBase := by
  refine ⟨_, by simp [Fragment.setUp]; rfl, ?_⟩
  simp [Memory.get, store, Predefined.address]

/-- From any memory the machine gets to the entry procedure, with the stack of a call from
    the base. -/
theorem run_opening (h : Loaded options units asm) (hb : options.bootstrap = true)
    (he : options.entry ∈ procedures (instructions units)) {target : Nat}
    (ht : asm.labels.lookup options.entry = some target) {p : Processor} (hpc : p.pc = 0) :
    ∃ caller q : Processor, Reaches asm.orders p q ∧
      Called caller q stackBase 0 options.entryReturn target := by
  obtain ⟨summary, hok⟩ := h.accepted
  have hacc := accepted_of_ok hok
  have hentry := isProcedure_of_mem_procedures hacc he
  have hdrift : options.drift = 0 := Options.drift_eq_zero fun _ => hentry
  obtain ⟨after, hw⟩ := written_of_bootstrap hacc hb
  have hremark : Assembler.size (({ options } : Session).remark "bootstrap") = 0 := size_remark (by decide)
  have hsound := Fragment.sound_setUp
  have hw' : (translate options units).written = ({ options } : Session).remark "bootstrap" ++ Fragment.setUp ++
      (Fragment.call {} options.entry 0 ++ (Fragment.halt ++ after)) := by
    rw [hw, Options.prelude]
    simp only [List.append_assoc]
  have hcode := codeAt_of_written h.assembled hw' hsound
  rw [hremark, ← hpc] at hcode
  obtain ⟨caller, hcaller, hsp⟩ := execute_setUp asm p
  obtain ⟨hrun, hto⟩ := run_of_codeAt hcode rfl hcaller
  have hplace : caller.pc = Assembler.size options.prelude := by
    rw [hto, hpc, Options.prelude, Assembler.size_append, hremark, Assembler.size_of_sound hsound,
      Assembled.length_link]
  have hlt : target < 65536 := by
    have hle := le_of_lookup_written hacc h.identifiers h.assembled ht
    have hfits := h.fits
    unfold programSize at hfits
    omega
  obtain ⟨q, hq, hcalled⟩ := (run_call_iff h hw ht (by decide) (by decide) hplace hsp).mpr ⟨by rw [hdrift], hlt⟩
  exact ⟨caller, q, Reaches.trans ⟨_, hrun⟩ ⟨_, hq⟩, hcalled⟩

/-- The label behind a call is no order. -/
theorem size_call {scope : Scope} (hs : Name.IsProcedure scope.procedure) (f : String) (n : Nat) :
    Assembler.size (Fragment.call scope f n) =
      Assembler.size (Fragment.saveCaller scope n ++ Fragment.goto (.procedure f)) := by
  have hlabel : ∀ s ∈ [Statement.label scope.returnAddress], s.Sound := by
    intro s hm
    obtain rfl := List.mem_singleton.mp hm
    exact hs
  rw [Fragment.call_eq, Assembler.size_append _ [_], Assembler.size_of_sound hlabel]
  exact Nat.add_zero _

/-- The loop stands behind the call of the entry procedure, which returns to it. -/
theorem parked_of_opening (h : Loaded options units asm) (hb : options.bootstrap = true)
    (he : options.entry ∈ procedures (instructions units)) :
    asm.labels.lookup "null$ret.0" = some options.entryReturn ∧ asm.labels.lookup "$halt" = some options.entryReturn ∧
      ∀ p : Processor, p.pc = options.entryReturn → Parked asm.orders options.entryReturn p := by
  obtain ⟨summary, hok⟩ := h.accepted
  have hacc := accepted_of_ok hok
  have hentry := isProcedure_of_mem_procedures hacc he
  have hdrift : options.drift = 0 := Options.drift_eq_zero fun _ => hentry
  obtain ⟨after, hw⟩ := written_of_bootstrap hacc hb
  refine ⟨?_, parked_of_written h hdrift ((hw.trans (List.append_assoc _ _ _).symm))⟩
  have hw' : (translate options units).written =
      (options.prelude ++ (Fragment.saveCaller {} 0 ++ Fragment.goto (.procedure options.entry))) ++
        .label ({} : Scope).returnAddress :: (Fragment.halt ++ after) := by
    rw [hw, Fragment.call_eq]
    simp
  have hlookup := lookup_of_written hacc h.identifiers h.assembled hw'
  rw [hdrift, Assembler.size_append, ← size_call Name.isProcedure_null, ← Assembler.size_append] at hlookup
  exact hlookup

/-- Behind the loop begins the code of the units. -/
theorem size_opening (hb : options.bootstrap = true) : Assembler.size options.opening = options.entryReturn + 2 := by
  rw [Options.opening, if_pos hb, Assembler.size_append _ Fragment.halt, Assembler.size_of_sound Fragment.sound_halt]
  rfl

/-- A program whose units end without a bootstrap ends in the loop. -/
theorem parked_of_closing (h : Loaded options units asm) (hb : options.bootstrap = false) :
    asm.labels.lookup "$halt" = some (Assembler.size (unitCodes options units).flatten) ∧
      ∀ p : Processor, p.pc = Assembler.size (unitCodes options units).flatten →
        Parked asm.orders (Assembler.size (unitCodes options units).flatten) p := by
  obtain ⟨summary, hok⟩ := h.accepted
  have hdrift : options.drift = 0 := Options.drift_eq_zero fun hb' => absurd (hb.symm.trans hb') (by decide)
  have hw : (translate options units).written = (unitCodes options units).flatten ++ Fragment.halt ++ [] := by
    rw [written_eq_unitCodes hok, Options.opening, Options.closing, Session.finish]
    simp [hb]
  exact parked_of_written h hdrift hw

structure Entered (q : Processor) (entry back : Nat) : Prop where
  pc : q.pc = entry
  sp : Memory.get q.memory .sp = 261
  lcl : Memory.get q.memory .lcl = 261
  arg : Memory.get q.memory .arg = 256
  back : q.memory 256 = BitVec.ofNat 16 back

/-- The machine before the `return` of the entry procedure: the frame is as it was in `q`
    and the result lies below cell `t`. -/
structure Returning (q p : Processor) (t : Nat) : Prop where
  lcl : Memory.get p.memory .lcl = 261
  arg : Memory.get p.memory .arg = 256
  frame : ∀ c, 256 ≤ c → c ≤ 260 → p.memory c = q.memory c
  sp : Memory.get p.memory .sp = BitVec.ofNat 16 t
  low : 262 ≤ t
  high : t ≤ 32767

structure Ends (program : List Order) (halt : Nat) (p : Processor) (t : Nat) (r : Processor) : Prop where
  reaches : Reaches program p r
  pc : r.pc = halt
  sp : Memory.get r.memory .sp = 257
  result : r.memory 256 = p.memory (t - 1)
  parked : Parked program halt r

/-- The return of the entry procedure ends the program. -/
theorem ends_of_returning (h : Loaded options units asm) (hb : options.bootstrap = true)
    (he : options.entry ∈ procedures (instructions units)) {caller q p : Processor} {target t : Nat}
    (hcalled : Called caller q stackBase 0 options.entryReturn target) {before after : List Statement}
    (hw : (translate options units).written = before ++ Fragment.ret ++ after) (hpc : p.pc = Assembler.size before)
    (hp : Returning q p t) : ∃ r, Ends asm.orders options.entryReturn p t r := by
  obtain ⟨summary, hok⟩ := h.accepted
  have hacc := accepted_of_ok hok
  obtain ⟨-, hhalt, hpark⟩ := parked_of_opening h hb he
  have hframe : Framed p.memory stackBase options.entryReturn caller.memory := by
    have hf := hcalled.frame
    refine ⟨?_, ?_, ?_, ?_, ?_⟩
    · exact (hp.frame _ (by decide) (by decide)).trans hf.returnTo
    · exact (hp.frame _ (by decide) (by decide)).trans hf.lcl
    · exact (hp.frame _ (by decide) (by decide)).trans hf.arg
    · exact (hp.frame _ (by decide) (by decide)).trans hf.this
    · exact (hp.frame _ (by decide) (by decide)).trans hf.that
  have hle : options.entryReturn ≤ programSize := by
    have hle := le_of_lookup_written hacc h.identifiers h.assembled hhalt
    rw [Options.drift_eq_zero fun _ => isProcedure_of_mem_procedures hacc he] at hle
    exact hle.trans h.fits
  obtain ⟨r, hr, hret⟩ := @run_ret_of_framed options units asm before after p stackBase 0 h hw hpc (by decide)
    (by decide) t hp.low (Nat.lt_succ_of_le hp.high) hp.sp hp.lcl hp.arg _ hle caller.memory hframe
  exact ⟨r, ⟨_, hr⟩, hret.pc, hret.sp, hret.result, hpark r hret.pc⟩

/-- A program with labels that are all different and few enough orders can be loaded. With
    a bootstrap the machine gets from its start to the entry procedure, with an empty stack
    above the frame of the first call; and from whatever `return` finds that frame, it gets
    to the loop behind the call, before the code of any unit, and stays there. Without a
    bootstrap it stays in a loop behind the code of all units. -/
theorem starts_and_parks {summary : Summary} (hok : (translate options units).outcome = .ok summary)
    (hu : ∀ u ∈ units, Name.isIdentifier u.name = true) (hl : (translate options units).LabelLinesUnique)
    (hfits : Assembler.size (translate options units).written ≤ programSize)
    (he : options.bootstrap = true → options.entry ∈ procedures (instructions units)) :
    ∃ asm halt, Assembler.assemble (translate options units).text = .ok asm ∧ asm.labels.lookup "$halt" = some halt ∧
      (options.bootstrap = true → halt + 2 = Assembler.size options.opening ∧
        ∃ entry back, asm.labels.lookup options.entry = some entry ∧ asm.labels.lookup "null$ret.0" = some back ∧
          ∀ p : Processor, p.pc = 0 → ∃ q, Reaches asm.orders p q ∧ Entered q entry back ∧
            ∀ before after, (translate options units).written = before ++ Fragment.ret ++ after →
              ∀ (p' : Processor) (t : Nat), p'.pc = Assembler.size before → Returning q p' t →
                ∃ r, Ends asm.orders halt p' t r) ∧
      (options.bootstrap = false → halt = Assembler.size (unitCodes options units).flatten ∧
        ∀ p : Processor, p.pc = halt → Parked asm.orders halt p) := by
  have hacc := accepted_of_ok hok
  have hentry : options.bootstrap = true → Name.IsProcedure options.entry :=
    fun hb => isProcedure_of_mem_procedures hacc (he hb)
  obtain ⟨asm, ha⟩ := assemble_written hacc hu (Options.legible_entryLoad hentry)
    ((labelLinesUnique_iff_nodup hacc).mp hl)
  have h : Loaded options units asm := ⟨⟨summary, hok⟩, hu, ha, by rwa [length_orders ha]⟩
  by_cases hb : options.bootstrap = true
  · obtain ⟨hback, hhalt, -⟩ := parked_of_opening h hb (he hb)
    obtain ⟨front, back, hw⟩ := List.append_of_mem (procedure_mem_written hacc (he hb))
    have hlookup := lookup_of_written hacc hu ha hw
    refine ⟨asm, options.entryReturn, ha, hhalt, fun _ => ⟨(size_opening hb).symm, _, _, hlookup, hback, ?_⟩,
      fun hb' => absurd (hb.symm.trans hb') (by decide)⟩
    intro p hpc
    obtain ⟨caller, q, hq, hcalled⟩ := run_opening h hb (he hb) hlookup hpc
    refine ⟨q, hq, ⟨hcalled.pc, hcalled.sp, hcalled.lcl, hcalled.arg, hcalled.frame.returnTo⟩, ?_⟩
    intro before after hw p' t hpc' hp'
    exact ends_of_returning h hb (he hb) hcalled hw hpc' hp'
  · have hb' : options.bootstrap = false := by simpa using hb
    obtain ⟨hhalt, hpark⟩ := parked_of_closing h hb'
    exact ⟨asm, _, ha, hhalt, fun hb'' => absurd hb'' hb, fun _ => ⟨rfl, hpark⟩⟩

end Programs

def five : SourceUnit := ⟨"Sys", "function Sys.init 0\npush constant 5\nreturn\n"⟩

/-- The result of the entry procedure ends up at the base of the stack. -/
theorem starts_and_parks_five :
    ∃ asm halt, Assembler.assemble (translate {} [five]).text = .ok asm ∧ asm.labels.lookup "$halt" = some halt ∧
      ∃ p q p' r : Processor, p.pc = 0 ∧ Reaches asm.orders p q ∧ Memory.get q.memory .sp = 261 ∧
        Returning q p' 262 ∧ Ends asm.orders halt p' 262 r ∧ r.memory 256 = 5 := by
  have hlabels : (translate {} [five]).LabelLinesUnique := by
    have hnodup : ((translate {} [five]).lines.filter fun line => line.toList.head? == some '(').Nodup := by
      decide +kernel
    intro name hm
    have hcount := List.count_eq_one_of_mem hnodup (List.mem_filter.mpr ⟨hm, by simp⟩)
    rwa [List.count_filter (by simp)] at hcount
  have hok : (translate {} [five]).outcome = .ok ⟨1, 3, 107⟩ := by decide +kernel
  have hu : ∀ u ∈ [five], Name.isIdentifier u.name = true := by decide +kernel
  have hfits : Assembler.size (translate {} [five]).written ≤ programSize := by
    have hsize := size_written (accepted_of_ok hok) hu
    have horders : (translate {} [five]).written.countP Statement.isOrder +
        Assembler.size ({} : Options).entryLoad ≤ programSize := by decide +kernel
    omega
  obtain ⟨asm, halt, ha, hhalt, hstart, -⟩ := @starts_and_parks {} [five] ⟨1, 3, 107⟩ hok hu hlabels hfits
    (by decide +kernel)
  obtain ⟨-, entry, back, -, -, hrun⟩ := hstart rfl
  obtain ⟨q, hq, hentered, hreturn⟩ := hrun {} rfl
  obtain ⟨w, hw⟩ : ∃ w, w = (translate {} [five]).written := ⟨_, rfl⟩
  have hret : (translate {} [five]).written = w.take 65 ++ Fragment.ret ++ [] := by
    rw [hw]
    decide +kernel
  -- the procedure has pushed its result
  obtain ⟨p', hp'⟩ : ∃ p' : Processor, p' = ⟨Assembler.size (w.take 65), 0, 0,
      store (store q.memory 261 5) 0 262⟩ := ⟨_, rfl⟩
  have hcell : ∀ c, c ≠ 0 → c ≠ 261 → p'.memory c = q.memory c := by
    intro c h₀ h₁
    rw [hp']
    show store (store q.memory 261 5) 0 262 c = _
    rw [store_of_ne _ h₀, store_of_ne _ h₁]
  have hreturning : Returning q p' 262 := by
    refine ⟨?_, ?_, fun c _ _ => hcell c (by omega) (by omega), ?_, by decide, by decide⟩
    · exact (hcell 1 (by decide) (by decide)).trans hentered.lcl
    · exact (hcell 2 (by decide) (by decide)).trans hentered.arg
    · rw [hp']
      show store (store q.memory 261 5) 0 262 0 = 262
      rw [store_self]
  obtain ⟨r, hr⟩ := hreturn _ _ hret p' 262 (by rw [hp']) hreturning
  refine ⟨asm, halt, ha, hhalt, {}, q, p', r, rfl, hq, hentered.sp, hreturning, hr, hr.result.trans ?_⟩
  rw [hp']
  show store (store q.memory 261 5) 0 262 261 = 5
  rw [store_of_ne _ (by decide), store_self]

end StackToHack
