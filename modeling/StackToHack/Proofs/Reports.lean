/-
  StackToHack.Proofs.Reports — which error a run ends with.

  A run is checked four times: the names of all units, the entry procedure, each unit as a
  whole when it is read, and each of its lines when it is translated. The first two come
  before anything else. Units then come in order, and within a unit reading comes before
  translating, so a line outside the grammar is reported before a broken bound on an
  earlier line.
  - `firstRepeated_iff`: the name that is reported when two units share one.
  - `Session.writeUnits_eq_error_iff`: the units alone end with the problem of the first
    one that has any.
  - `problem?_eq_some_iff`: which line of a unit is its problem.
  - `run_reports_first_problem`: the order of all checks.
-/

import StackToHack.Proofs.Sources
import StackToHack.Proofs.Legality
import StackToHack.Proofs.Layout
import StackToHack.Proofs.Units

namespace StackToHack

/-! ## Repeated names -/

theorem repeatedName?_eq_some_iff {seen names : List String} {name : String} :
    repeatedName? seen names = some name ↔
      ∃ before after, names = before ++ name :: after ∧ before.Nodup ∧ (∀ other ∈ before, other ∉ seen) ∧
        (name ∈ seen ∨ name ∈ before) := by
  induction names generalizing seen with
  | nil => simp [repeatedName?]
  | cons first names ih =>
    rw [repeatedName?]
    by_cases hfirst : first ∈ seen
    · rw [if_pos hfirst]
      constructor
      · intro h
        obtain rfl := Option.some.inj h
        exact ⟨[], names, rfl, .nil, fun _ ho => absurd ho List.not_mem_nil, .inl hfirst⟩
      · rintro ⟨before, after, he, -, hunseen, -⟩
        cases before with
        | nil => rw [(List.cons.inj he).1]
        | cons other before =>
          obtain ⟨rfl, -⟩ := List.cons.inj he
          exact absurd hfirst (hunseen _ List.mem_cons_self)
    · rw [if_neg hfirst, ih]
      constructor
      · rintro ⟨before, after, rfl, hnodup, hunseen, hname⟩
        refine ⟨first :: before, after, rfl, List.nodup_cons.mpr ⟨fun hmem => ?_, hnodup⟩, ?_, ?_⟩
        · exact hunseen _ hmem List.mem_cons_self
        · refine List.forall_mem_cons.mpr ⟨hfirst, fun other ho hs => ?_⟩
          exact hunseen _ ho (List.mem_cons_of_mem _ hs)
        · simpa [or_assoc, or_comm, or_left_comm] using hname
      · rintro ⟨before, after, he, hnodup, hunseen, hname⟩
        cases before with
        | nil =>
          obtain ⟨rfl, -⟩ := List.cons.inj he
          exact absurd (hname.resolve_right List.not_mem_nil) hfirst
        | cons other before =>
          obtain ⟨rfl, rfl⟩ := List.cons.inj he
          obtain ⟨hnew, hnodup⟩ := List.nodup_cons.mp hnodup
          refine ⟨before, after, rfl, hnodup, fun other ho => ?_, ?_⟩
          · rw [List.mem_cons, not_or]
            refine ⟨?_, hunseen _ (List.mem_cons_of_mem _ ho)⟩
            rintro rfl
            exact hnew ho
          · simpa [or_assoc, or_comm, or_left_comm] using hname

/-- The name that is reported is the first that an earlier unit has. -/
theorem firstRepeated_iff {names : List String} {name : String} : repeatedName? [] names = some name ↔
    ∃ before after, names = before ++ name :: after ∧ before.Nodup ∧ name ∈ before := by
  simp [repeatedName?_eq_some_iff]

/-! ## The problem of a unit -/

def OutOfBounds (text : String) : Prop :=
  ∃ i, Writes text i ∧ i.OutOfRange

theorem outOfBounds_iff {l : SourceLine} (h : Writes l.text l.instruction) (unit : String) :
    OutOfBounds l.text ↔ ∃ e, l.rangeError? unit = some e := by
  rw [SourceLine.exists_rangeError?_iff]
  constructor
  · rintro ⟨i, hi, hout⟩
    rwa [h.unique hi]
  · intro hout
    exact ⟨_, h, hout⟩

theorem rangeError?_eq_none_iff {l : SourceLine} (h : Writes l.text l.instruction) (unit : String) :
    l.rangeError? unit = none ↔ ¬ OutOfBounds l.text := by
  rw [outOfBounds_iff h unit, ← Option.isSome_iff_exists]
  simp

namespace SourceUnit

/-- What ends a run when this unit's turn comes. -/
def problem? (u : SourceUnit) : Option Error :=
  match u.lines with
  | .error e => some e
  | .ok ls => ls.findSome? (·.rangeError? u.name)

/-- A unit fails on its first line outside the grammar, wherever bounds are broken. If all
    lines are instructions, it fails on the first that breaks a bound. -/
inductive Fails (u : SourceUnit) : Error → Prop
  | reading {n : Nat} {text : String} {fault : Fault} (first : u.First Unreadable n text)
    (reason : Instruction.ofWords (Text.words text.toList) = .error fault) : u.Fails (.instruction ⟨u.name, n, text⟩ fault)
  | translating {n : Nat} {text : String} {i : Instruction} {fault : Fault} (read : ∀ m t, u.Holds m t → ¬ Unreadable t)
    (first : u.First OutOfBounds n text) (here : Writes text i) (reason : i.rangeFault? = some fault) :
    u.Fails (.instruction ⟨u.name, n, text⟩ fault)

def Sound (u : SourceUnit) : Prop :=
  ∀ n text, u.Holds n text → ¬ Unreadable text ∧ ¬ OutOfBounds text

variable {u : SourceUnit}

theorem Fails.unique {e e' : Error} (h : u.Fails e) (h' : u.Fails e') : e = e' := by
  cases h with
  | reading first reason =>
    cases h' with
    | reading first' reason' =>
      obtain ⟨rfl, rfl⟩ := first.unique first'
      rw [Except.error.inj (reason.symm.trans reason')]
    | translating read _ _ _ => exact absurd first.here (read _ _ first.holds)
  | translating read first here reason =>
    cases h' with
    | reading first' _ => exact absurd first'.here (read _ _ first'.holds)
    | translating _ first' here' reason' =>
      obtain ⟨rfl, rfl⟩ := first.unique first'
      obtain rfl := here.unique here'
      rw [Option.some.inj (reason.symm.trans reason')]

theorem Fails.not_sound {e : Error} (h : u.Fails e) : ¬ u.Sound := by
  intro hsound
  cases h with
  | reading first _ => exact (hsound _ _ first.holds).1 first.here
  | translating _ first _ _ => exact (hsound _ _ first.holds).2 first.here

/-- A unit that is not sound has a line that says so. -/
theorem not_sound_iff : ¬ u.Sound ↔ ∃ n text, u.Holds n text ∧ (Unreadable text ∨ OutOfBounds text) := by
  simp only [Sound, not_forall, exists_prop, not_and_or, not_not]

/-- Among lines that are numbered upward, those before a line have the lower numbers. -/
theorem mem_before_of_line_lt {before after : List SourceLine} {l l' : SourceLine}
    (hnumbers : ((before ++ l :: after).map (·.line)).Pairwise (· < ·)) (hmem : l' ∈ before ++ l :: after)
    (hlt : l'.line < l.line) : l' ∈ before := by
  rw [List.map_append, List.map_cons, List.pairwise_append, List.pairwise_cons] at hnumbers
  obtain ⟨-, ⟨hafter, -⟩, -⟩ := hnumbers
  rcases List.mem_append.mp hmem with hin | hin
  · exact hin
  · rcases List.mem_cons.mp hin with rfl | hin
    · exact absurd hlt (Nat.lt_irrefl _)
    · exact absurd hlt (Nat.lt_asymm (hafter _ (List.mem_map_of_mem hin)))

theorem fails_of_lines_error {e : Error} (h : u.lines = .error e) : u.Fails e := by
  obtain ⟨n, text, fault, rfl, hfirst, hfault⟩ := first_of_lines_error h
  exact .reading hfirst hfault

theorem fails_of_rangeError? {ls : List SourceLine} (hls : u.lines = .ok ls) {e : Error}
    (h : ls.findSome? (·.rangeError? u.name) = some e) : u.Fails e := by
  have hread := lines_isOk_iff.mp ⟨ls, hls⟩
  obtain ⟨before, l, after, rfl, hl, hbefore⟩ := List.findSome?_eq_some_iff.mp h
  obtain ⟨hholds, hwrites⟩ := (mem_lines_iff hls).mp (List.mem_append_right before List.mem_cons_self)
  obtain ⟨fault, hfault, rfl⟩ := SourceLine.rangeError?_eq_some hl
  refine .translating (fun m t ht hno => ?_) ⟨hholds, (outOfBounds_iff hwrites _).mpr ⟨_, hl⟩, ?_⟩ hwrites hfault
  · obtain ⟨i, hi⟩ := hread m t ht
    exact hno i hi
  · -- a line out of bounds before this one would have been reported
    intro m hm t ht
    obtain ⟨i, hi⟩ := hread m t ht
    have hmem : (⟨i, m, t⟩ : SourceLine) ∈ before :=
      mem_before_of_line_lt (pairwise_lines hls) ((mem_lines_iff hls).mpr ⟨ht, hi⟩) hm
    exact (rangeError?_eq_none_iff (l := ⟨i, m, t⟩) hi _).mp (hbefore _ hmem)

theorem problem?_eq_none_iff : u.problem? = none ↔ u.Sound := by
  unfold problem? Sound
  cases hls : u.lines with
  | error e =>
    obtain ⟨n, text, -, -, hfirst, -⟩ := first_of_lines_error hls
    simp only [reduceCtorEq, false_iff]
    exact fun h => (h n text hfirst.holds).1 hfirst.here
  | ok ls =>
    simp only [List.findSome?_eq_none_iff]
    constructor
    · intro h n text hholds
      obtain ⟨i, hi⟩ := lines_isOk_iff.mp ⟨ls, hls⟩ n text hholds
      have hnone := h ⟨i, n, text⟩ ((mem_lines_iff hls).mpr ⟨hholds, hi⟩)
      exact ⟨fun hno => hno i hi, (rangeError?_eq_none_iff (l := ⟨i, n, text⟩) hi _).mp hnone⟩
    · intro h l hl
      obtain ⟨hholds, hwrites⟩ := (mem_lines_iff hls).mp hl
      exact (rangeError?_eq_none_iff hwrites _).mpr (h _ _ hholds).2

theorem problem?_eq_some_iff {e : Error} : u.problem? = some e ↔ u.Fails e := by
  have hfails : ∀ {e}, u.problem? = some e → u.Fails e := by
    intro e h
    unfold problem? at h
    split at h
    · rename_i e' hls
      obtain rfl := Option.some.inj h
      exact fails_of_lines_error hls
    · rename_i ls hls
      exact fails_of_rangeError? hls h
  refine ⟨hfails, fun h => ?_⟩
  cases hp : u.problem? with
  | some e' => rw [(hfails hp).unique h]
  | none => exact absurd (problem?_eq_none_iff.mp hp) h.not_sound

end SourceUnit

/-! ## Units in order -/

/-- Where errors are the ones foretold, an end without one was not foretold any. -/
theorem eq_none_of_eq_ok {ε α : Type} {x : Except ε α} {e? : Option ε} (h : ∀ e, x = .error e ↔ e? = some e) {a : α}
    (hx : x = .ok a) : e? = none := by
  refine Option.eq_none_iff_forall_ne_some.mpr fun e he => ?_
  have herror := (h e).mpr he
  rw [hx] at herror
  cases herror

namespace Session

theorem writeLines_eq_error_iff {ls : List SourceLine} (h : ∀ l ∈ ls, l.instruction.Readable) (s : Session) (e : Error) :
    (s.writeLines ls).2 = .error e ↔ ls.findSome? (·.rangeError? s.scope.unit) = some e := by
  induction ls generalizing s with
  | nil => simp [writeLines]
  | cons l ls ih =>
    obtain ⟨hl, hls⟩ := List.forall_mem_cons.mp h
    have hline (e : Error) : (s.line l).1 = .error e ↔ l.rangeError? s.scope.unit = some e := s.line_eq_error_iff hl
    unfold writeLines
    rw [List.findSome?_cons]
    split
    · rename_i e' s' hstep
      rw [(hline e').mp (by rw [hstep])]
      simp
    · rename_i code s' hstep
      have hnone := eq_none_of_eq_ok hline (congrArg Prod.fst hstep)
      obtain ⟨-, -, rfl⟩ := line_ok hstep
      simp only [hnone, ih hls, Scope.unit_after]

/-- Units end with the problem of the first that has one. -/
theorem writeUnits_eq_error_iff (units : List SourceUnit) (s : Session) (e : Error) :
    (s.writeUnits units).outcome = .error e ↔ units.findSome? SourceUnit.problem? = some e := by
  induction units generalizing s with
  | nil => simp [writeUnits]
  | cons u units ih =>
    unfold writeUnits
    rw [List.findSome?_cons, SourceUnit.problem?]
    cases hls : u.lines with
    | error e' => simp
    | ok ls =>
      have hwrite : ∀ e, ((s.inUnit u.name).writeLines ls).2 = .error e ↔
          ls.findSome? (·.rangeError? u.name) = some e :=
        writeLines_eq_error_iff (fun l hl => SourceUnit.mem_lines_readable hls hl) (s.inUnit u.name)
      simp only
      rcases hcode : (s.inUnit u.name).writeLines ls with ⟨code, e' | s'⟩
      · rw [(hwrite e').mp (by rw [hcode])]
        simp
      · have hnone := eq_none_of_eq_ok hwrite (congrArg Prod.snd hcode)
        simp only [hnone, map_eq_error_iff, ih]

end Session

theorem findSome?_problem?_eq_some_iff {units : List SourceUnit} {e : Error} :
    units.findSome? SourceUnit.problem? = some e ↔
      ∃ before u after, units = before ++ u :: after ∧ (∀ v ∈ before, v.Sound) ∧ u.Fails e := by
  rw [List.findSome?_eq_some_iff]
  simp only [SourceUnit.problem?_eq_some_iff, SourceUnit.problem?_eq_none_iff, and_comm]

/-! ## Runs -/

inductive Reports (options : Options) (units : List SourceUnit) : Error → Prop
  | repeated {before after : List String} {name : String} (names : units.map (·.name) = before ++ name :: after)
    (distinct : before.Nodup) (again : name ∈ before) : Reports options units (.usage (.repeatedUnit name))
  | entry {why : NameFault} (names : (units.map (·.name)).Nodup) (bootstrap : options.bootstrap = true)
    (refused : Name.procedureFault? options.entry = some why) :
    Reports options units (.usage (.invalidEntry options.entry why))
  | unit {before after : List SourceUnit} {u : SourceUnit} {e : Error} (names : (units.map (·.name)).Nodup)
    (entry : options.bootstrap = true → Name.procedureFault? options.entry = none)
    (first : units = before ++ u :: after) (sound : ∀ v ∈ before, v.Sound) (fails : u.Fails e) : Reports options units e

section Runs

variable {options : Options} {units : List SourceUnit}

theorem translate_of_repeated {name : String} (h : repeatedName? [] (units.map (·.name)) = some name) :
    translate options units = ⟨[], [], .error (.usage (.repeatedUnit name))⟩ := by
  rw [translate, h]

theorem translate_of_refused {why : NameFault} (hnames : (units.map (·.name)).Nodup) (hb : options.bootstrap = true)
    (h : Name.procedureFault? options.entry = some why) :
    translate options units = ⟨[], [], .error (.usage (.invalidEntry options.entry why))⟩ := by
  have hstart : ({ options } : Session).start = (.error (.usage (.invalidEntry options.entry why)), { options }) := by
    simp only [Session.start, hb, if_true, Session.bootstrap, h]
  rw [translate, repeatedName?_nil_eq_none_iff.mpr hnames]
  simp only [hstart]

/-- Once names and entry are accepted, only the units can end the run. -/
theorem outcome_eq_error_iff (hnames : (units.map (·.name)).Nodup)
    (hentry : options.bootstrap = true → Name.procedureFault? options.entry = none) {e : Error} :
    (translate options units).outcome = .error e ↔ units.findSome? SourceUnit.problem? = some e := by
  rw [← Session.writeUnits_eq_error_iff units { options, scope := options.startScope }, translate,
    repeatedName?_nil_eq_none_iff.mpr hnames]
  simp only [Session.start_eq hentry]
  cases (({ options, scope := options.startScope } : Session).writeUnits units).outcome <;> simp

theorem reports_iff {e : Error} : (translate options units).outcome = .error e ↔ Reports options units e := by
  constructor
  · intro h
    by_cases hnames : (units.map (·.name)).Nodup
    · by_cases hentry : options.bootstrap = true → Name.procedureFault? options.entry = none
      · obtain ⟨before, u, after, hunits, hsound, hfails⟩ :=
          findSome?_problem?_eq_some_iff.mp ((outcome_eq_error_iff hnames hentry).mp h)
        exact .unit hnames hentry hunits hsound hfails
      · obtain ⟨hb, hrefused⟩ := Classical.not_imp.mp hentry
        obtain ⟨why, hwhy⟩ := Option.ne_none_iff_exists'.mp hrefused
        rw [translate_of_refused hnames hb hwhy] at h
        cases h
        exact .entry hnames hb hwhy
    · obtain ⟨name, hname⟩ := Option.ne_none_iff_exists'.mp (mt repeatedName?_nil_eq_none_iff.mp hnames)
      rw [translate_of_repeated hname] at h
      cases h
      obtain ⟨before, after, hbefore, hdistinct, hagain⟩ := firstRepeated_iff.mp hname
      exact .repeated hbefore hdistinct hagain
  · intro h
    cases h with
    | repeated names distinct again => rw [translate_of_repeated (firstRepeated_iff.mpr ⟨_, _, names, distinct, again⟩)]
    | entry names bootstrap refused => rw [translate_of_refused names bootstrap refused]
    | unit names entry first sound fails =>
      exact (outcome_eq_error_iff names entry).mpr (findSome?_problem?_eq_some_iff.mpr ⟨_, _, _, first, sound, fails⟩)

/-- A run that does not fail has made all checks. -/
theorem sound_of_ok {summary : Summary} (h : (translate options units).outcome = .ok summary) :
    (units.map (·.name)).Nodup ∧ (options.bootstrap = true → Name.procedureFault? options.entry = none) ∧
      ∀ u ∈ units, u.Sound := by
  have haccepted := accepted_of_ok h
  have hnone := eq_none_of_eq_ok (fun e => outcome_eq_error_iff haccepted.names haccepted.entry) h
  refine ⟨haccepted.names, haccepted.entry, fun u hu => ?_⟩
  exact SourceUnit.problem?_eq_none_iff.mp (List.findSome?_eq_none_iff.mp hnone u hu)

/-- Usage is checked before anything is written. -/
theorem nothing_of_usage {fault : UsageFault} (h : (translate options units).outcome = .error (.usage fault)) :
    (translate options units).written = [] ∧ (translate options units).log = [] := by
  generalize he : Error.usage fault = e at h
  cases reports_iff.mp h with
  | repeated names distinct again =>
    rw [translate_of_repeated (firstRepeated_iff.mpr ⟨_, _, names, distinct, again⟩)]
    exact ⟨rfl, rfl⟩
  | entry names bootstrap refused =>
    rw [translate_of_refused names bootstrap refused]
    exact ⟨rfl, rfl⟩
  | unit names entry first sound fails => cases fails <;> cases he

/-- The errors of instructions and files are of other sorts. -/
theorem exists_usage_of_category {e : Error} (h : e.diagnostic.category = "usage") : ∃ fault, e = .usage fault := by
  cases e with
  | instruction place fault =>
    change fault.category.name = "usage" at h
    cases hc : fault.category <;> rw [hc] at h <;> exact absurd h (by decide)
  | file context fault =>
    change "io" = "usage" at h
    exact absurd h (by decide)
  | usage fault => exact ⟨fault, rfl⟩

/-- A run fails just if two units share a name, or it is to start with an entry that is
    refused, or some line of a unit is no instruction or goes behind the end of `pointer`
    or `temp`. The error is that of the first name that an earlier unit has, else that of
    the entry, and then nothing was written or reported; else it is that of the first
    unit with such a line. This is the unit's first line that is no instruction, even if
    an earlier line breaks a bound, or else its first line that breaks one. -/
theorem run_reports_first_problem (options : Options) (units : List SourceUnit) :
    ((∃ e, (translate options units).outcome = .error e) ↔
        ¬ (units.map (·.name)).Nodup ∨
          (options.bootstrap = true ∧ ∃ why, Name.procedureFault? options.entry = some why) ∨
          ∃ u ∈ units, ∃ n text, u.Holds n text ∧ (Unreadable text ∨ OutOfBounds text)) ∧
      (∀ e, (translate options units).outcome = .error e ↔ Reports options units e) ∧
      ∀ e, (translate options units).outcome = .error e → e.diagnostic.category = "usage" →
        e.diagnostic.location? = none ∧ (translate options units).written = [] ∧ (translate options units).log = [] := by
  refine ⟨⟨?_, fun h => ?_⟩, fun e => reports_iff, fun e he hc => ?_⟩
  · rintro ⟨e, he⟩
    cases reports_iff.mp he with
    | repeated names distinct again =>
      have hname := firstRepeated_iff.mpr ⟨_, _, names, distinct, again⟩
      exact .inl fun hnodup => Option.some_ne_none _ (hname.symm.trans (repeatedName?_nil_eq_none_iff.mpr hnodup))
    | entry names bootstrap refused => exact .inr (.inl ⟨bootstrap, _, refused⟩)
    | unit names entry first sound fails =>
      refine .inr (.inr ⟨_, ?_, SourceUnit.not_sound_iff.mp fails.not_sound⟩)
      rw [first]
      exact List.mem_append_right _ List.mem_cons_self
  · cases hrun : (translate options units).outcome with
    | error e => exact ⟨e, rfl⟩
    | ok summary =>
      exfalso
      obtain ⟨hnames, hentry, hsound⟩ := sound_of_ok hrun
      rcases h with hshared | ⟨hb, why, hwhy⟩ | ⟨u, hu, hbad⟩
      · exact hshared hnames
      · exact Option.some_ne_none _ (hwhy.symm.trans (hentry hb))
      · exact SourceUnit.not_sound_iff.mpr hbad (hsound u hu)
  · obtain ⟨fault, rfl⟩ := exists_usage_of_category hc
    exact ⟨rfl, nothing_of_usage he⟩

end Runs

def mixed : SourceUnit := ⟨"B", "push temp 7\npop temp 8\n\n  mul // no operation\n"⟩

def overrun : SourceUnit := ⟨"C", "add\npush pointer 2 // bare\npop temp 9"⟩

/-- The same units, first with a name that repeats and an entry that is refused, then with
    this entry alone, then with neither; and the second of them alone. -/
theorem run_reports_first_problem_in_turn :
    (∃ e, (translate { entry := "THAT" } [mixed, overrun, mixed]).outcome = .error e ∧ e.diagnostic.location? = none ∧
        (translate { entry := "THAT" } [mixed, overrun, mixed]).written = []) ∧
      Reports { entry := "THAT" } [mixed, overrun, mixed] (.usage (.repeatedUnit "B")) ∧
      Reports { entry := "THAT" } [mixed, overrun] (.usage (.invalidEntry "THAT" .predefined)) ∧
      Reports {} [mixed, overrun] (.instruction ⟨"B", 4, "mul"⟩ (.unknownKeyword "mul")) ∧
      Reports {} [overrun] (.instruction ⟨"C", 2, "push pointer 2"⟩ (.pointerRange 2)) := by
  have hshared : (translate { entry := "THAT" } [mixed, overrun, mixed]).outcome =
      .error (.usage (.repeatedUnit "B")) := by decide +kernel
  have hentry : (translate { entry := "THAT" } [mixed, overrun]).outcome =
      .error (.usage (.invalidEntry "THAT" .predefined)) := by decide +kernel
  have hmixed : (translate {} [mixed, overrun]).outcome =
      .error (.instruction ⟨"B", 4, "mul"⟩ (.unknownKeyword "mul")) := by decide +kernel
  have hoverrun : (translate {} [overrun]).outcome =
      .error (.instruction ⟨"C", 2, "push pointer 2"⟩ (.pointerRange 2)) := by decide +kernel
  obtain ⟨-, hreports, hnothing⟩ := run_reports_first_problem { entry := "THAT" } [mixed, overrun, mixed]
  obtain ⟨hlocation, hwritten, -⟩ := hnothing _ hshared rfl
  exact ⟨⟨_, hshared, hlocation, hwritten⟩, (hreports _).mp hshared, ((run_reports_first_problem _ _).2.1 _).mp hentry,
    ((run_reports_first_problem _ _).2.1 _).mp hmixed, ((run_reports_first_problem _ _).2.1 _).mp hoverrun⟩

end StackToHack
