/-
  StackToHack.Proofs.Failures — what is left behind when a step fails.

  The code of an instruction and the scope behind it are two functions, so a fault cannot
  be met half way. Here they are put together again, `Instruction.emit`: names are checked,
  numbers are drawn and scopes entered one after the other, and what has been changed by
  then stays changed when a later part fails. Nothing is, for each instruction is checked
  before it changes anything.
  - `Instruction.emitted_eq`: what comes of the parts is the code and the scope behind, or
    the fault and the scope before.
  - `Session.stops_of_lines_error`: lines that fail stop at the first that does when they
    are translated one by one.
  - `Session.run_withoutFailures`: a session, and what it does without what fails in it.
  - `failures_leave_no_trace`: all of it together.
-/

import StackToHack.Proofs.Streaming

namespace StackToHack

/-! ## Parts of an emission -/

/-- Works on a scope and may fail. A fault does not take back what was done before. -/
abbrev Emission := ExceptT Fault (StateM Scope)

namespace Emission

def check (fault? : String → Option NameFault) (word : String) : Emission Unit :=
  match fault? word with
  | some why => throw (.name word why)
  | none => pure ()

def drawComparison : Emission Nat :=
  modifyGet fun scope => (scope.comparisons, { scope with comparisons := scope.comparisons + 1 })

def drawCall : Emission Scope :=
  modifyGet fun scope => (scope, { scope with calls := scope.calls + 1 })

def enter (procedure : String) : Emission Unit :=
  modify fun scope => { scope with procedure, calls := 0 }

end Emission

namespace Instruction

open Emission

def emit : Instruction → Emission (List Statement)
  | operation (.unary u) => return Fragment.unary u
  | operation (.binary b) => return Fragment.binary b
  | operation (.compare c) => return Fragment.compare (← drawComparison) c
  | push segment index => do MonadExcept.ofExcept (Fragment.push (← get) index segment)
  | pop segment index => do MonadExcept.ofExcept (Fragment.pop (← get) index segment)
  | label l => do
    check Name.labelFault? l
    return [Statement.label ((← get).label l)]
  | goto l => do
    check Name.labelFault? l
    return Fragment.goto ((← get).label l)
  | ifGoto l => do
    check Name.labelFault? l
    return Fragment.ifGoto ((← get).label l)
  | function f n => do
    check Name.procedureFault? f
    enter f
    return Fragment.function f n
  | call f n => do
    check Name.procedureFault? f
    return Fragment.call (← drawCall) f n
  | ret => return Fragment.ret

def emitted (i : Instruction) (scope : Scope) : Except Fault (List Statement) × Scope :=
  (i.emit.run.run scope).run

/-- A word is checked before anything is changed. -/
theorem check_bind_run {fault? : String → Option NameFault} {word : String} {rest : Emission (List Statement)}
    {scope scope' : Scope} {code : List Statement} (h : (rest.run.run scope).run = (.ok code, scope')) :
    ((check fault? word >>= fun _ => rest).run.run scope).run = match named fault? word code with
      | .ok code => (.ok code, scope')
      | .error fault => (.error fault, scope) := by
  unfold check named
  cases fault? word with
  | some why => rfl
  | none => exact h

theorem ofExcept_run (result : Except Fault (List Statement)) (scope : Scope) :
    ((MonadExcept.ofExcept result : Emission (List Statement)).run.run scope).run = (result, scope) := by
  cases result <;> rfl

/-- All parts together give the code and leave the scope behind, or one fails before any
    has changed the scope. -/
theorem emitted_eq (i : Instruction) (scope : Scope) : i.emitted scope = match i.code scope with
    | .ok code => (.ok code, i.after scope)
    | .error fault => (.error fault, scope) := by
  cases i with
  | operation o => rcases o with u | b | c <;> rfl
  | push segment index =>
    refine (ofExcept_run (Fragment.push scope index segment) scope).trans ?_
    rw [code]
    cases Fragment.push scope index segment <;> rfl
  | pop segment index =>
    refine (ofExcept_run (Fragment.pop scope index segment) scope).trans ?_
    rw [code]
    cases Fragment.pop scope index segment <;> rfl
  | label l | goto l | ifGoto l | function f n | call f n => exact check_bind_run rfl
  | ret => rfl

theorem emitted_error {i : Instruction} {scope scope' : Scope} {fault : Fault}
    (h : i.emitted scope = (.error fault, scope')) : scope' = scope := by
  rw [emitted_eq] at h
  split at h
  · cases h
  · exact (Prod.mk.inj h).2.symm

end Instruction

/-! ## Steps that fail -/

namespace Session

/-- A line as its parts come: its place is named when they have been at work. -/
def emittedLine (s : Session) (l : SourceLine) : Reply × Session :=
  match l.instruction.emitted s.scope with
  | (.ok code, scope) => (.ok (s.remark l.text ++ code), { s with scope })
  | (.error fault, scope) => (.error (.instruction ⟨scope.unit, l.line, l.text⟩ fault), { s with scope })

theorem line_eq_emittedLine (s : Session) (l : SourceLine) : s.line l = s.emittedLine l := by
  rw [line, emittedLine, Instruction.emitted_eq]
  cases l.instruction.code s.scope <;> rfl

theorem line_error {s s' : Session} {l : SourceLine} {e : Error} (h : s.line l = (.error e, s')) : s' = s := by
  rw [line_eq_emittedLine, emittedLine] at h
  split at h
  · cases h
  · rename_i fault scope he
    rw [Instruction.emitted_error he] at h
    exact (Prod.mk.inj h).2.symm

/-- A bootstrap leaves the scope that its call of the entry leaves. -/
theorem bootstrap_emitted (s : Session) :
    s.bootstrap.2 = { s with scope := ((Instruction.call s.options.entry 0).emitted s.scope).2 } := by
  rw [Instruction.emitted_eq, Instruction.code, Instruction.named, bootstrap]
  cases Name.procedureFault? s.options.entry <;> rfl

theorem bootstrap_error {s s' : Session} {e : Error} (h : s.bootstrap = (.error e, s')) : s' = s := by
  have hfault : Name.procedureFault? s.options.entry ≠ none := by
    intro hnone
    rw [bootstrap] at h
    simp only [hnone] at h
    cases h
  have hend := s.bootstrap_emitted
  obtain ⟨why, hwhy⟩ := Option.ne_none_iff_exists'.mp hfault
  rw [h, Instruction.emitted_eq, Instruction.code, Instruction.named, hwhy] at hend
  exact hend

/-! ## Lines one by one -/

/-- The lines before the first that fails. -/
def translatable (s : Session) : List SourceLine → List SourceLine
  | [] => []
  | l :: ls => match s.line l with
    | (.error _, _) => []
    | (.ok _, s) => l :: s.translatable ls

theorem gives_cons {s s' : Session} {l : SourceLine} {steps : List Step} {code rest : List Statement}
    (h : s.line l = (.ok code, s')) (hrest : s'.Gives steps rest) :
    s.Gives (.line l :: steps) (code ++ rest) ∧ (s.run (.line l :: steps)).2 = (s'.run steps).2 := by
  obtain ⟨codes, hcodes, rfl⟩ := hrest
  simp only [Gives, run, step, h, hcodes]
  exact ⟨⟨code :: codes, rfl, rfl⟩, trivial⟩

/-- The lines before the first that fails do not fail, together or one by one, and leave
    the session that all lines leave. -/
theorem lines_translatable (s : Session) (ls : List SourceLine) :
    ∃ code, s.lines (s.translatable ls) = (.ok code, (s.lines ls).2) ∧
      s.Gives ((s.translatable ls).map .line) code ∧
      (s.run ((s.translatable ls).map .line)).2 = (s.lines ls).2 := by
  induction ls generalizing s with
  | nil => exact ⟨[], rfl, ⟨[], rfl, rfl⟩, rfl⟩
  | cons l ls ih =>
    rcases hline : s.line l with ⟨e | code, s₁⟩
    · obtain rfl := line_error hline
      simp only [translatable, lines, hline]
      exact ⟨[], rfl, ⟨[], rfl, rfl⟩, rfl⟩
    · obtain ⟨rest, hlines, hgives, hend⟩ := ih s₁
      obtain ⟨hgives', hend'⟩ := gives_cons hline hgives
      simp only [translatable, lines, hline, List.map_cons, hlines]
      refine ⟨code ++ rest, ?_, hgives', ?_⟩
      · rcases s₁.lines ls with ⟨e | rest', s₂⟩ <;> rfl
      · rw [hend', hend]
        rcases s₁.lines ls with ⟨e | rest', s₂⟩ <;> rfl

theorem translatable_of_ok {s s' : Session} {ls : List SourceLine} {code : List Statement}
    (h : s.lines ls = (.ok code, s')) : s.translatable ls = ls := by
  induction ls generalizing s code with
  | nil => rfl
  | cons l ls ih =>
    rcases hline : s.line l with ⟨e | first, s₁⟩
    · simp only [lines, hline] at h
      cases h
    · simp only [lines, hline] at h
      rcases hrest : s₁.lines ls with ⟨e | rest, s₂⟩
      · rw [hrest] at h
        cases h
      · rw [hrest] at h
        cases h
        simp only [translatable, hline, ih hrest]

/-- Lines that fail stop at the first that fails when they come one by one. -/
theorem stops_of_lines_error {s : Session} {ls : List SourceLine} {e : Error} (h : (s.lines ls).1 = .error e) :
    ∃ l after, ls = s.translatable ls ++ l :: after ∧ ((s.lines ls).2.line l).1 = .error e := by
  induction ls generalizing s with
  | nil => cases h
  | cons l ls ih =>
    rcases hline : s.line l with ⟨e' | code, s₁⟩
    · obtain rfl := line_error hline
      simp only [translatable, lines, hline] at h ⊢
      exact ⟨l, ls, rfl, by rw [hline, h]⟩
    · simp only [translatable, lines, hline] at h ⊢
      rcases hrest : s₁.lines ls with ⟨e' | rest, s₂⟩
      · rw [hrest] at h
        obtain ⟨l', after, hsplit, hfault⟩ := ih (s := s₁) (by rw [hrest]; exact h)
        rw [hrest] at hfault
        exact ⟨l', after, by rw [List.cons_append, ← hsplit], hfault⟩
      · rw [hrest] at h
        cases h

/-! ## Sessions without what fails in them -/

/-- What is left of a step without what fails in it: nothing of a line or a bootstrap, and
    of several lines those before the first that fails. -/
def withoutFailure (s : Session) : Step → List Step
  | .bootstrap => match s.bootstrap.1 with
    | .error _ => []
    | .ok _ => [.bootstrap]
  | .line l => match (s.line l).1 with
    | .error _ => []
    | .ok _ => [.line l]
  | .lines ls => [.lines (s.translatable ls)]
  | c => [c]

def withoutFailures (s : Session) : List Step → List Step
  | [] => []
  | c :: cs => s.withoutFailure c ++ (s.step c).2.withoutFailures cs

/-- Every code is answered in both, in the same order. Where the first answers with an
    error, the second may answer with other code. -/
inductive Mended : List Reply → List Reply → Prop
  | nil : Mended [] []
  | same {code : List Statement} {replies mended : List Reply} : Mended replies mended →
    Mended (.ok code :: replies) (.ok code :: mended)
  | failed {e : Error} {codes : List (List Statement)} {replies mended : List Reply} : Mended replies mended →
    Mended (.error e :: replies) (codes.map .ok ++ mended)

/-- What is left of a step does not fail and leaves the session that the step leaves; and it
    is the step itself if that does not fail. -/
theorem run_withoutFailure (s : Session) (c : Step) :
    (∃ code, (s.step c).1 = .ok code ∧ s.withoutFailure c = [c]) ∨
      ∃ (e : Error) (codes : List (List Statement)), (s.step c).1 = .error e ∧
        s.run (s.withoutFailure c) = (codes.map .ok, (s.step c).2) := by
  cases c with
  | inUnit name => exact .inl ⟨[], rfl, rfl⟩
  | bootstrap =>
    rcases hboot : s.bootstrap with ⟨e | code, s'⟩
    · obtain rfl := bootstrap_error hboot
      simp only [step, withoutFailure, hboot]
      exact .inr ⟨e, [], rfl, rfl⟩
    · simp only [step, withoutFailure, hboot]
      exact .inl ⟨code, rfl, trivial⟩
  | line l =>
    rcases hline : s.line l with ⟨e | code, s'⟩
    · obtain rfl := line_error hline
      simp only [step, withoutFailure, hline]
      exact .inr ⟨e, [], rfl, rfl⟩
    · simp only [step, withoutFailure, hline]
      exact .inl ⟨code, rfl, trivial⟩
  | lines ls =>
    rcases hlines : s.lines ls with ⟨e | code, s'⟩
    · obtain ⟨code, hleft, -⟩ := s.lines_translatable ls
      rw [hlines] at hleft
      simp only [step, withoutFailure, hlines, run, hleft]
      exact .inr ⟨e, [code], rfl, rfl⟩
    · simp only [step, withoutFailure, hlines, translatable_of_ok hlines]
      exact .inl ⟨code, rfl, trivial⟩
  | finish => exact .inl ⟨s.finish, rfl, rfl⟩

/-- Without what fails in it, a session ends as it does, answers no error, and its other
    answers are those that it gives. -/
theorem run_withoutFailures (s : Session) (steps : List Step) :
    (s.run (s.withoutFailures steps)).2 = (s.run steps).2 ∧
      (∃ codes : List (List Statement), (s.run (s.withoutFailures steps)).1 = codes.map .ok) ∧
      Mended (s.run steps).1 (s.run (s.withoutFailures steps)).1 := by
  induction steps generalizing s with
  | nil => exact ⟨rfl, ⟨[], rfl⟩, .nil⟩
  | cons c cs ih =>
    obtain ⟨hend, ⟨codes, hcodes⟩, hmended⟩ := ih (s.step c).2
    rcases hstep : s.step c with ⟨reply, s'⟩
    rw [hstep] at hend hcodes hmended
    rcases s.run_withoutFailure c with ⟨code, hok, hleft⟩ | ⟨e, first, herror, hleft⟩
    · rw [hstep] at hok
      obtain rfl : reply = .ok code := hok
      simp only [withoutFailures, hleft, hstep, List.singleton_append, run]
      exact ⟨hend, ⟨code :: codes, congrArg _ hcodes⟩, .same hmended⟩
    · rw [hstep] at herror hleft
      obtain rfl : reply = .error e := herror
      simp only [withoutFailures, hstep, run_append, hleft, run]
      refine ⟨hend, ⟨first ++ codes, ?_⟩, .failed hmended⟩
      rw [hcodes, List.map_append]

end Session

/-- A line is translated as its parts come, one after the other, and if one of them fails
    the session is what it was before the line; so it is when a bootstrap fails, whose only
    part that can is its call. If some lines fail, those before one of them do not when they
    come one by one, and this one then fails with the same error; the session is the one in
    front of it. And in whatever way a session goes on behind an error, it answers as if
    what failed had never been asked for. -/
theorem failures_leave_no_trace (s : Session) :
    (∀ l, s.line l = s.emittedLine l ∧ ∀ e, (s.emittedLine l).1 = .error e → (s.emittedLine l).2 = s) ∧
      (s.bootstrap.2 = { s with scope := ((Instruction.call s.options.entry 0).emitted s.scope).2 } ∧
        ∀ e, s.bootstrap.1 = .error e → s.bootstrap.2 = s) ∧
      (∀ ls e, (s.lines ls).1 = .error e → ∃ before l after, ls = before ++ l :: after ∧
        (∃ code, s.Gives (before.map .line) code) ∧
        ((s.run (before.map .line)).2.line l).1 = .error e ∧
        (s.lines ls).2 = (s.run (before.map .line)).2) ∧
      ∀ steps, (s.run (s.withoutFailures steps)).2 = (s.run steps).2 ∧
        (∃ codes : List (List Statement), (s.run (s.withoutFailures steps)).1 = codes.map .ok) ∧
        Session.Mended (s.run steps).1 (s.run (s.withoutFailures steps)).1 := by
  refine ⟨fun l => ⟨s.line_eq_emittedLine l, fun e he => ?_⟩, ⟨s.bootstrap_emitted, fun e he => ?_⟩, fun ls e he => ?_,
    s.run_withoutFailures⟩
  · rw [← Session.line_eq_emittedLine] at he ⊢
    exact Session.line_error (Prod.ext he rfl)
  · exact Session.bootstrap_error (Prod.ext he rfl)
  · obtain ⟨code, -, hgives, hend⟩ := s.lines_translatable ls
    obtain ⟨l, after, hsplit, hfault⟩ := Session.stops_of_lines_error he
    refine ⟨s.translatable ls, l, after, hsplit, ⟨code, hgives⟩, ?_, hend.symm⟩
    rwa [hend]

def stopping : List SourceLine :=
  [⟨.call "F" 0, 1, "call F 0"⟩, ⟨.operation (.compare .eq), 2, "eq"⟩, ⟨.label "ret.0", 3, "label ret.0"⟩,
    ⟨.operation (.compare .gt), 4, "gt"⟩]

/-- A call that is refused is not counted and an entry that is refused counts no call; lines
    stop at their third, and the comparison behind the error has the next number. -/
theorem failures_leave_no_trace_stopping :
    let s : Session := { options := { entry := "R7" }, scope := ⟨1, "F", 2, "A"⟩ }
    (s.line ⟨.call "TRUE_0" 0, 1, "call TRUE_0 0"⟩).2 = s ∧ s.bootstrap.2 = s ∧
      (∃ before l after, stopping = before ++ l :: after ∧ (∃ code, s.Gives (before.map .line) code) ∧
        (s.lines stopping).2 = (s.run (before.map .line)).2) ∧
      (s.lines stopping).2.scope = ⟨2, "F", 3, "A"⟩ ∧
      s.withoutFailures [.lines stopping, .line ⟨.operation (.compare .lt), 5, "lt"⟩] =
        [.lines (stopping.take 2), .line ⟨.operation (.compare .lt), 5, "lt"⟩] ∧
      (s.run [.lines (stopping.take 2), .line ⟨.operation (.compare .lt), 5, "lt"⟩]).2 =
        (s.run [.lines stopping, .line ⟨.operation (.compare .lt), 5, "lt"⟩]).2 := by
  intro s
  obtain ⟨hline, ⟨-, hbootstrap⟩, hlines, hsession⟩ := failures_leave_no_trace s
  obtain ⟨hsame, hfailed⟩ := hline ⟨.call "TRUE_0" 0, 1, "call TRUE_0 0"⟩
  have hleft : s.withoutFailures [.lines stopping, .line ⟨.operation (.compare .lt), 5, "lt"⟩] =
      [.lines (stopping.take 2), .line ⟨.operation (.compare .lt), 5, "lt"⟩] := by decide +kernel
  obtain ⟨before, l, after, hsplit, hgives, -, hend⟩ := hlines stopping
    (.instruction ⟨"A", 3, "label ret.0"⟩ (.name "ret.0" .returnAddress)) (by decide +kernel)
  obtain ⟨hrun, -, -⟩ := hsession [.lines stopping, .line ⟨.operation (.compare .lt), 5, "lt"⟩]
  rw [hleft] at hrun
  refine ⟨?_, hbootstrap (.usage (.invalidEntry "R7" .predefined)) (by decide +kernel),
    ⟨before, l, after, hsplit, hgives, hend⟩, by decide +kernel, hleft, hrun⟩
  rw [hsame]
  exact hfailed (.instruction ⟨"A", 1, "call TRUE_0 0"⟩ (.name "TRUE_0" .comparison)) (by decide +kernel)

end StackToHack
