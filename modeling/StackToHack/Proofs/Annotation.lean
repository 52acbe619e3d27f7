/-
  StackToHack.Proofs.Annotation — a program with comments and without.

  Two sessions that differ only in whether they comment walk in step: a comment moves no
  scope and stops nothing. What one answers is what the other answers with a comment in
  front of each instruction's code, and since nothing but a comment begins with two slashes
  and a blank, the comments can be told by their lines.
  - `Statement.isRemark_text`: which lines are comments.
  - `Annotates`: code, the comments in it and the code around them.
  - `Session.step_commented`, `Session.run_commented`: a step, and a whole session, with and
    without comments.
  - `translate_commented`: a run over units with and without comments.
  - `annotation_changes_nothing`: all of it, on the lines.
-/

import StackToHack.Proofs.Streaming

namespace StackToHack

/-! ## Comments -/

def isRemark (line : String) : Bool :=
  "// ".toList.isPrefixOf line.toList

theorem isRemark_of_head? {line : String} (h : line.toList.head? ≠ some '/') : isRemark line = false := by
  have hslashes : "// ".toList = ['/', '/', ' '] := rfl
  rw [isRemark, hslashes]
  cases he : line.toList with
  | nil => rfl
  | cons c rest =>
    rw [he] at h
    have hc : ('/' == c) = false := beq_eq_false_iff_ne.mpr fun hc => h (congrArg some hc.symm)
    rw [List.isPrefixOf, hc, Bool.false_and]

namespace Statement

def words? : Statement → Option String
  | comment words => some words
  | _ => none

/-- Whatever names the code holds, only a comment looks like one. -/
theorem isRemark_text (s : Statement) : isRemark s.text = s.words?.isSome := by
  cases s with
  | comment words => simp [isRemark, text, words?]
  | load s | loadNumber n | label s => exact isRemark_of_head? (by simp [text])
  | compute t e j => exact isRemark_of_head? (head_text_compute t e j (.inr (.inr rfl)))

end Statement

/-- Code, what the comments in it say, and the code without them. -/
structure Annotates (texts : List String) (code plain : List Statement) : Prop where
  comments : code.filterMap Statement.words? = texts
  rest : code.filter (·.words?.isNone) = plain

namespace Annotates

variable {texts texts' : List String} {code code' plain plain' : List Statement}

theorem of_plain (h : code.filterMap Statement.words? = []) : Annotates [] code code where
  comments := h
  rest := by
    refine List.filter_eq_self.mpr fun s hs => ?_
    rw [List.filterMap_eq_nil_iff.mp h s hs]
    rfl

theorem append (h : Annotates texts code plain) (h' : Annotates texts' code' plain') :
    Annotates (texts ++ texts') (code ++ code') (plain ++ plain') where
  comments := by rw [List.filterMap_append, h.comments, h'.comments]
  rest := by rw [List.filter_append, h.rest, h'.rest]

/-- A comment in front of code that holds none. -/
theorem of_comment (words : String) (h : code.filterMap Statement.words? = []) :
    Annotates [words] (.comment words :: code) code := by
  have hfirst : Annotates [words] [.comment words] [] := ⟨rfl, rfl⟩
  exact hfirst.append (of_plain h)

theorem length_eq (h : Annotates texts code plain) : code.length = plain.length + texts.length := by
  rw [← h.comments, ← h.rest, List.length_filterMap_eq_countP, ← List.countP_eq_length_filter,
    code.length_eq_countP_add_countP (·.words?.isNone)]
  refine congrArg _ (List.countP_congr fun s _ => ?_)
  cases s.words? <;> simp

/-- The comments are told by how their lines begin. -/
theorem lines (h : Annotates texts code plain) :
    (code.map Statement.text).filter (!isRemark ·) = plain.map Statement.text ∧
      (code.map Statement.text).filter isRemark = texts.map ("// " ++ ·) := by
  rw [← h.comments, ← h.rest]
  clear h
  induction code with
  | nil => exact ⟨rfl, rfl⟩
  | cons s code ih =>
    simp only [List.map_cons, List.filter_cons, List.filterMap_cons, Statement.isRemark_text]
    cases s <;> simp [Statement.words?, ih, Statement.text]

end Annotates

namespace Fragment

theorem words?_pushCell (c : Cell) : (pushCell c).filterMap Statement.words? = [] := by
  cases c <;> rfl

theorem words?_popCell (c : Cell) : (popCell c).filterMap Statement.words? = [] := by
  cases c <;> rfl

theorem words?_function (f : String) (n : Nat) : (function f n).filterMap Statement.words? = [] := by
  refine List.filterMap_eq_nil_iff.mpr fun s hs => ?_
  rcases List.mem_cons.mp hs with rfl | hs
  · rfl
  · obtain ⟨code, hcode, hs⟩ := List.mem_flatten.mp hs
    rw [List.eq_of_mem_replicate hcode] at hs
    exact (by decide : ∀ s ∈ pushZero, s.words? = none) s hs

end Fragment

/-- The code of an instruction holds no comment. -/
theorem Instruction.words?_code {scope : Scope} {i : Instruction} {code : List Statement}
    (h : i.code scope = .ok code) : code.filterMap Statement.words? = [] := by
  cases i with
  | operation o =>
    cases h
    rcases o with u | b | c <;> rfl
  | push segment index =>
    rcases Fragment.push_ok h with ⟨-, -, rfl⟩ | ⟨c, -, rfl⟩
    · rfl
    · exact Fragment.words?_pushCell c
  | pop segment index =>
    obtain ⟨c, -, rfl⟩ := Fragment.pop_ok h
    exact Fragment.words?_popCell c
  | function f n =>
    obtain ⟨-, rfl⟩ := named_ok h
    exact Fragment.words?_function f n
  | label l | goto l | ifGoto l | call f n =>
    obtain ⟨-, rfl⟩ := named_ok h
    rfl
  | ret =>
    cases h
    rfl

/-! ## Deeds -/

namespace Deed

def remark? : Deed → Option String
  | bootstrap _ => some "bootstrap"
  | line l _ => some l.text
  | _ => none

def annotated (d : Deed) : List Statement :=
  (d.remark?.map Statement.comment).toList ++ d.code

end Deed

/-- What the comments in the code of a step say: one for each instruction and for a
    bootstrap. -/
def Step.remarks : Step → List String
  | .bootstrap => ["bootstrap"]
  | .line l => [l.text]
  | .lines ls => ls.map (·.text)
  | _ => []

/-- What is answered with comments and without: one error, or the code of some deeds, and
    the same with each deed's comment in front of its code. -/
inductive SameButComments (texts : List String) (ds : List Deed) : Reply → Reply → Prop
  | failed (e : Error) : SameButComments texts ds (.error e) (.error e)
  | translated (remarks : ds.filterMap Deed.remark? = texts)
    (annotates : Annotates texts (ds.flatMap Deed.annotated) (ds.flatMap Deed.code)) :
    SameButComments texts ds (.ok (ds.flatMap Deed.annotated)) (.ok (ds.flatMap Deed.code))

theorem SameButComments.of_deed {texts : List String} {d : Deed} (h : d.remark?.toList = texts)
    (hplain : d.code.filterMap Statement.words? = []) : SameButComments texts [d] (.ok d.annotated) (.ok d.code) := by
  have hannotates : Annotates texts d.annotated d.code := by
    cases d with
    | inUnit name | finish code =>
      subst h
      exact .of_plain hplain
    | bootstrap code | line l code =>
      subst h
      exact .of_comment _ hplain
  have hremarks : [d].filterMap Deed.remark? = texts := by
    rw [← h]
    cases d <;> rfl
  have hsame := @SameButComments.translated texts [d] hremarks
  rw [List.flatMap_singleton, List.flatMap_singleton] at hsame
  exact hsame hannotates

/-! ## Sessions -/

namespace Session

def commented (s : Session) : Session :=
  { s with options := { s.options with annotate := true } }

def bare (s : Session) : Session :=
  { s with options := { s.options with annotate := false } }

/-- With comments and without, one error comes out, or code that is one comment longer. -/
def RemarkedBy (words : String) (withRemark without : Reply × Session) : Prop :=
  (∃ (e : Error) (s : Session), withRemark = (.error e, s.commented) ∧ without = (.error e, s.bare)) ∨
    ∃ (code : List Statement) (s : Session), code.filterMap Statement.words? = [] ∧
      withRemark = (.ok (.comment words :: code), s.commented) ∧ without = (.ok code, s.bare)

theorem line_commented (s : Session) (l : SourceLine) : RemarkedBy l.text (s.commented.line l) (s.bare.line l) := by
  have hscope : s.commented.scope = s.scope ∧ s.bare.scope = s.scope := ⟨rfl, rfl⟩
  cases hcode : l.instruction.code s.scope with
  | error fault =>
    refine .inl ⟨.instruction ⟨s.scope.unit, l.line, l.text⟩ fault, s, ?_, ?_⟩
    · rw [line, hscope.1, hcode]
    · rw [line, hscope.2, hcode]
  | ok code =>
    refine .inr ⟨code, { s with scope := l.instruction.after s.scope }, Instruction.words?_code hcode, ?_, ?_⟩
    · rw [line, hscope.1, hcode]
      rfl
    · rw [line, hscope.2, hcode]
      rfl

theorem lines_commented (s : Session) (ls : List SourceLine) :
    ∃ s' : Session, (s.commented.lines ls).2 = s'.commented ∧ (s.bare.lines ls).2 = s'.bare ∧
      SameButComments (ls.map (·.text)) (s.bare.deedsOfLines ls) (s.commented.lines ls).1 (s.bare.lines ls).1 := by
  induction ls generalizing s with
  | nil => exact ⟨s, rfl, rfl, .translated rfl (.of_plain rfl)⟩
  | cons l ls ih =>
    rcases s.line_commented l with ⟨e, s₁, hc, hb⟩ | ⟨code, s₁, hplain, hc, hb⟩
    · refine ⟨s₁, ?_, ?_, ?_⟩
      all_goals simp only [lines, hc, hb]
      exact .failed e
    -- the deeds are those of the session without comments, so their code holds none
    · obtain ⟨s₂, hc', hb', hsame⟩ := ih s₁
      simp only [lines, deedsOfLines, hc, hb]
      rcases hcl : s₁.commented.lines ls with ⟨reply, t⟩
      rcases hbl : s₁.bare.lines ls with ⟨reply', t'⟩
      rw [hcl] at hc' hsame
      rw [hbl] at hb' hsame
      refine ⟨s₂, ?_, ?_, ?_⟩
      · cases reply <;> exact hc'
      · cases reply' <;> exact hb'
      · cases hsame with
        | failed e => exact .failed e
        | translated remarks annotates =>
          refine .translated ?_ ?_
          · exact congrArg (l.text :: ·) remarks
          · exact (Annotates.of_comment l.text hplain).append annotates

theorem bootstrap_commented (s : Session) : RemarkedBy "bootstrap" s.commented.bootstrap s.bare.bootstrap := by
  have hentry : s.commented.options.entry = s.options.entry ∧ s.bare.options.entry = s.options.entry := ⟨rfl, rfl⟩
  cases hfault : Name.procedureFault? s.options.entry with
  | some why =>
    refine .inl ⟨.usage (.invalidEntry s.options.entry why), s, ?_, ?_⟩
    · simp only [bootstrap, hentry.1, hfault]
    · simp only [bootstrap, hentry.2, hfault]
  | none =>
    refine .inr ⟨Fragment.setUp ++ Fragment.call s.scope s.options.entry 0 ++ Fragment.halt,
      { s with scope := (Instruction.call s.options.entry 0).after s.scope }, rfl, ?_, ?_⟩
    · simp only [bootstrap, hentry.1, hfault]
      rfl
    · simp only [bootstrap, hentry.2, hfault]
      rfl

theorem words?_finish (s : Session) : s.bare.finish.filterMap Statement.words? = [] := by
  rw [finish]
  split <;> rfl

/-- A step moves both sessions alike, and its answers are the same but for the comments. -/
theorem step_commented (s : Session) (c : Step) :
    ∃ s' : Session, (s.commented.step c).2 = s'.commented ∧ (s.bare.step c).2 = s'.bare ∧
      SameButComments c.remarks (s.bare.deeds c) (s.commented.step c).1 (s.bare.step c).1 := by
  cases c with
  | inUnit name => exact ⟨s.inUnit name, rfl, rfl, @SameButComments.of_deed _ (.inUnit name) rfl rfl⟩
  | bootstrap =>
    rcases s.bootstrap_commented with ⟨e, s', hc, hb⟩ | ⟨code, s', hplain, hc, hb⟩
    · simp only [step, hc, hb]
      exact ⟨s', rfl, rfl, .failed e⟩
    · have hdeeds : s.bare.deeds .bootstrap = [.bootstrap code] := by
        simp only [deeds, hb]
      simp only [step, hc, hb, hdeeds]
      exact ⟨s', rfl, rfl, @SameButComments.of_deed _ (.bootstrap code) rfl hplain⟩
  | line l =>
    obtain ⟨s', hc, hb, hsame⟩ := s.lines_commented [l]
    rw [lines_singleton] at hc hsame
    rw [lines_singleton] at hb hsame
    exact ⟨s', hc, hb, hsame⟩
  | lines ls => exact s.lines_commented ls
  | finish => exact ⟨s, rfl, rfl, @SameButComments.of_deed _ (.finish s.bare.finish) rfl s.words?_finish⟩

/-- After any steps, failing ones included, the sessions differ in their comments alone. -/
theorem run_commented (s : Session) (steps : List Step) :
    ∃ s' : Session, (s.commented.run steps).2 = s'.commented ∧ (s.bare.run steps).2 = s'.bare := by
  induction steps generalizing s with
  | nil => exact ⟨s, rfl, rfl⟩
  | cons c cs ih =>
    obtain ⟨s₁, hc, hb, -⟩ := s.step_commented c
    simp only [run, hc, hb]
    exact ih s₁

/-! ## Runs over units -/

theorem writeLines_commented (s : Session) (ls : List SourceLine) :
    ∃ texts, Annotates texts (s.commented.writeLines ls).1 (s.bare.writeLines ls).1 ∧
      ((∃ e, (s.commented.writeLines ls).2 = .error e ∧ (s.bare.writeLines ls).2 = .error e) ∨
        texts = ls.map (·.text) ∧ ∃ s' : Session,
          (s.commented.writeLines ls).2 = .ok s'.commented ∧ (s.bare.writeLines ls).2 = .ok s'.bare) := by
  induction ls generalizing s with
  | nil => exact ⟨[], .of_plain rfl, .inr ⟨rfl, s, rfl, rfl⟩⟩
  | cons l ls ih =>
    rcases s.line_commented l with ⟨e, s₁, hc, hb⟩ | ⟨code, s₁, hplain, hc, hb⟩
    · simp only [writeLines, hc, hb]
      exact ⟨[], .of_plain rfl, .inl ⟨e, rfl, rfl⟩⟩
    · obtain ⟨texts, hannotates, hends⟩ := ih s₁
      simp only [writeLines, hc, hb]
      refine ⟨l.text :: texts, (Annotates.of_comment l.text hplain).append hannotates, hends.imp_right ?_⟩
      rintro ⟨rfl, hend⟩
      exact ⟨rfl, hend⟩

theorem writeUnits_commented (s : Session) (units : List SourceUnit) :
    ∃ texts, Annotates texts (s.commented.writeUnits units).written (s.bare.writeUnits units).written ∧
      (s.commented.writeUnits units).log = (s.bare.writeUnits units).log ∧
      (s.commented.writeUnits units).outcome = (s.bare.writeUnits units).outcome ∧
      ∀ read, (s.bare.writeUnits units).outcome = .ok read → texts = read.flatten.map (·.text) := by
  induction units generalizing s with
  | nil =>
    refine ⟨[], .of_plain rfl, rfl, rfl, fun read h => ?_⟩
    obtain rfl := Except.ok.inj h
    rfl
  | cons u us ih =>
    cases hls : u.lines with
    | error e =>
      simp only [writeUnits, hls]
      exact ⟨[], .of_plain rfl, trivial, trivial, fun read h => by cases h⟩
    | ok ls =>
      have hunit : s.commented.inUnit u.name = (s.inUnit u.name).commented ∧
          s.bare.inUnit u.name = (s.inUnit u.name).bare := ⟨rfl, rfl⟩
      have hlines := (s.inUnit u.name).writeLines_commented ls
      simp only [writeUnits, hls, hunit.1, hunit.2]
      rcases hcl : (s.inUnit u.name).commented.writeLines ls with ⟨code, ends⟩
      rcases hbl : (s.inUnit u.name).bare.writeLines ls with ⟨plain, ends'⟩
      rw [hcl, hbl] at hlines
      obtain ⟨texts, hannotates, ⟨e, rfl, rfl⟩ | ⟨rfl, s₁, rfl, rfl⟩⟩ := hlines
      · exact ⟨texts, hannotates, rfl, rfl, fun read h => by cases h⟩
      · obtain ⟨texts, hrest, hlog, houtcome, hread⟩ := ih s₁
        refine ⟨_, hannotates.append hrest, ?_, ?_, ?_⟩
        · simp only [hlog]
        · simp only [houtcome]
        · intro read h
          obtain ⟨rest, hok, rfl⟩ := map_eq_ok h
          rw [hread rest hok, List.flatten_cons, List.map_append]

/-- The start of a program with comments and without. -/
theorem start_commented (s : Session) :
    (∃ (e : Error) (s' : Session), s.commented.start = (.error e, s'.commented) ∧ s.bare.start = (.error e, s'.bare)) ∨
      ∃ (code plain : List Statement) (s' : Session),
        Annotates (if s.options.bootstrap then ["bootstrap"] else []) code plain ∧
        s.commented.start = (.ok code, s'.commented) ∧ s.bare.start = (.ok plain, s'.bare) := by
  have hoption : s.commented.options.bootstrap = s.options.bootstrap ∧
      s.bare.options.bootstrap = s.options.bootstrap := ⟨rfl, rfl⟩
  simp only [start, hoption.1, hoption.2]
  split
  · rcases s.bootstrap_commented with hfails | ⟨code, s', hplain, hc, hb⟩
    · exact .inl hfails
    · exact .inr ⟨_, code, s', .of_comment _ hplain, hc, hb⟩
  · exact .inr ⟨[], [], s, .of_plain rfl, rfl, rfl⟩

end Session

section Runs

variable (options : Options) (units : List SourceUnit)

def programRemarks : List String :=
  (if options.bootstrap then ["bootstrap"] else []) ++ (units.flatMap SourceUnit.readLines).map (·.text)

/-- The lines of a program that has comments, if it has these lines without. -/
def Summary.commented (options : Options) (summary : Summary) : Summary :=
  { summary with lines := summary.lines + summary.instructions + if options.bootstrap then 1 else 0 }

theorem translate_commented :
    ∃ texts, Annotates texts (translate { options with annotate := true } units).written
        (translate { options with annotate := false } units).written ∧
      (translate { options with annotate := true } units).log =
        (translate { options with annotate := false } units).log ∧
      (translate { options with annotate := true } units).outcome =
        (translate { options with annotate := false } units).outcome.map (Summary.commented options) ∧
      ∀ summary, (translate { options with annotate := false } units).outcome = .ok summary →
        texts = programRemarks options units := by
  by_cases hn : (units.map (·.name)).Nodup
  · rcases ({ options } : Session).start_commented with ⟨e, s, hc, hb⟩ | ⟨opening, opening', s, hopening, hc, hb⟩
    · rw [translate_of_start_error hn hc, translate_of_start_error hn hb]
      exact ⟨[], .of_plain rfl, rfl, rfl, fun summary h => by cases h⟩
    · obtain ⟨texts, hunits, hlog, houtcome, hread⟩ := s.writeUnits_commented units
      have hwarning : ∀ b read, entryWarning { options with annotate := b } read = entryWarning options read :=
        fun _ _ => rfl
      rw [translate_of_start hn hc, translate_of_start hn hb]
      have hboth := hopening.append hunits
      cases hend : (s.bare.writeUnits units).outcome with
      | error e =>
        rw [Progress.closed_of_error hend, Progress.closed_of_error (houtcome.trans hend)]
        exact ⟨_, hboth, hlog, rfl, fun summary h => by cases h⟩
      | ok read =>
        obtain ⟨-, hunitsRead, -⟩ := Session.writeUnits_ok hend
        have htexts := hread read hend
        have hremarks : (if options.bootstrap then ["bootstrap"] else []) ++ texts = programRemarks options units := by
          rw [htexts, hunitsRead, programRemarks, List.flatMap_def]
        have hall := hboth.append (.of_plain s.words?_finish)
        rw [List.append_nil, hremarks] at hall
        rw [Progress.closed_of_ok hend, Progress.closed_of_ok (houtcome.trans hend)]
        refine ⟨_, hall, ?_, ?_, fun _ _ => ?_⟩
        · simp only [hlog, hwarning]
        · have hcount : (programRemarks options units).length =
              read.flatten.length + if options.bootstrap then 1 else 0 := by
            rw [← hremarks, List.length_append, htexts, List.length_map, Nat.add_comm]
            congr 1
            split <;> rfl
          have hlength := hall.length_eq
          rw [hcount, ← Nat.add_assoc] at hlength
          exact congrArg (fun lines => Except.ok (Summary.mk read.length read.flatten.length lines)) hlength
        · rfl
  · obtain ⟨name, hname⟩ := Option.ne_none_iff_exists'.mp (mt repeatedName?_nil_eq_none_iff.mp hn)
    rw [translate_of_repeated hname, translate_of_repeated hname]
    exact ⟨[], .of_plain rfl, rfl, rfl, fun summary h => by cases h⟩

end Runs

/-- Whether a session comments is of no account to anything else: after any steps, failing
    ones included, two sessions that differ in this alone still do, and the next step either
    fails in both with one error or succeeds in both. Then the lines of the one without
    comments are those of the other that do not begin as a comment does; the rest are one
    for each instruction, in front of its code, and one for a bootstrap. A program of units
    has as many lines more, and ends and reports alike. -/
theorem annotation_changes_nothing (options : Options) (scope : Scope) :
    (∀ steps c, ∃ s : Session, ((⟨options, scope⟩ : Session).commented.run steps).2 = s.commented ∧
        ((⟨options, scope⟩ : Session).bare.run steps).2 = s.bare ∧
        SameButComments c.remarks (s.bare.deeds c) (s.commented.step c).1 (s.bare.step c).1 ∧
        ∀ code, (s.commented.step c).1 = .ok code → ∃ plain, (s.bare.step c).1 = .ok plain ∧
          (code.map Statement.text).filter (!isRemark ·) = plain.map Statement.text ∧
          (code.map Statement.text).filter isRemark = c.remarks.map ("// " ++ ·)) ∧
      ∀ units, (translate { options with annotate := true } units).log =
          (translate { options with annotate := false } units).log ∧
        (translate { options with annotate := true } units).outcome =
          (translate { options with annotate := false } units).outcome.map (Summary.commented options) ∧
        (translate { options with annotate := true } units).lines.filter (!isRemark ·) =
          (translate { options with annotate := false } units).lines ∧
        ∀ summary, (translate { options with annotate := false } units).outcome = .ok summary →
          (translate { options with annotate := true } units).lines.filter isRemark =
            (programRemarks options units).map ("// " ++ ·) := by
  refine ⟨fun steps c => ?_, fun units => ?_⟩
  · obtain ⟨s, hc, hb⟩ := (⟨options, scope⟩ : Session).run_commented steps
    obtain ⟨-, -, -, hsame⟩ := s.step_commented c
    refine ⟨s, hc, hb, hsame, fun code hcode => ?_⟩
    revert hcode
    generalize (s.commented.step c).1 = reply, (s.bare.step c).1 = reply' at hsame
    intro hcode
    cases hsame with
    | failed e => cases hcode
    | translated remarks annotates =>
      obtain rfl := Except.ok.inj hcode
      exact ⟨_, rfl, annotates.lines⟩
  · obtain ⟨texts, hannotates, hlog, houtcome, htexts⟩ := translate_commented options units
    refine ⟨hlog, houtcome, hannotates.lines.1, fun summary hok => ?_⟩
    rw [← htexts summary hok]
    exact hannotates.lines.2

/-- Three instructions and a bootstrap: four lines more. -/
theorem annotation_changes_nothing_counting :
    (translate { annotate := false } [counting]).outcome = .ok ⟨1, 3, 103⟩ ∧
      (translate { annotate := true } [counting]).outcome = .ok ⟨1, 3, 107⟩ ∧
      (translate { annotate := true } [counting]).lines.filter isRemark =
        ["// bootstrap", "// function F 0", "// push constant 1", "// return"] := by
  have hok : (translate { annotate := false } [counting]).outcome = .ok ⟨1, 3, 103⟩ := by decide +kernel
  have hremarks : (programRemarks {} [counting]).map ("// " ++ ·) =
      ["// bootstrap", "// function F 0", "// push constant 1", "// return"] := by decide +kernel
  obtain ⟨-, houtcome, -, hlines⟩ := (annotation_changes_nothing {} {}).2 [counting]
  rw [← hremarks]
  exact ⟨hok, houtcome.trans (congrArg _ hok), hlines _ hok⟩

end StackToHack
