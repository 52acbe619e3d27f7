/-
  StackToHack.Proofs.History — what a session remembers of what it did.

  The history of a session lists its deeds: the unit that was set, and each bootstrap, line
  and end that was translated, with its code. A step that fails adds nothing but the lines
  before the one that failed. The scope is a function of the history, `Scope.ofHistory`:
  comparisons are counted over all of it, calls behind the last `function`. So no number
  comes twice where it must not.
  - `foldl_after`: the scope behind some deeds.
  - `Session.step_deeds`, `Session.run_history`: a step, and a whole session, does what its
    deeds do.
  - `session_history`: the scope of a session, the lines of its comparisons and calls.
-/

import Mathlib.Data.List.DropRight
import StackToHack.Proofs.Variables

namespace StackToHack

/-! ## Deeds -/

inductive Deed
  | inUnit (name : String)
  | bootstrap (code : List Statement)
  | line (l : SourceLine) (code : List Statement)
  | finish (code : List Statement)

namespace Deed

def code : Deed → List Statement
  | inUnit _ => []
  | bootstrap code => code
  | line _ code => code
  | finish code => code

def lines (d : Deed) : List String :=
  d.code.map Statement.text

def isComparison : Deed → Bool
  | line l _ => l.instruction.isComparison
  | _ => false

/-- The bootstrap calls the entry procedure. -/
def isCall : Deed → Bool
  | bootstrap _ => true
  | line l _ => l.instruction.isCall
  | _ => false

def procedure? : Deed → Option String
  | line l _ => l.instruction.procedure?
  | _ => none

def unit? : Deed → Option String
  | inUnit name => some name
  | _ => none

def after (scope : Scope) : Deed → Scope
  | inUnit name => scope.inUnit name
  | bootstrap _ => { scope with calls := scope.calls + 1 }
  | line l _ => l.instruction.after scope
  | finish _ => scope

def MadeIn (options : Options) (scope : Scope) : Deed → Prop
  | inUnit _ => True
  | bootstrap code => Name.procedureFault? options.entry = none ∧
      code = ({ options } : Session).remark "bootstrap" ++ Fragment.setUp ++
        Fragment.call scope options.entry 0 ++ Fragment.halt
  | line l code => ∃ fragment, l.instruction.code scope = .ok fragment ∧
      code = ({ options } : Session).remark l.text ++ fragment
  | finish code => code = ({ options } : Session).finish

end Deed

/-- Each deed has the code of the scope that the deeds before it leave. -/
def Genuine (options : Options) : Scope → List Deed → Prop
  | _, [] => True
  | scope, d :: ds => d.MadeIn options scope ∧ Genuine options (d.after scope) ds

theorem genuine_append {options : Options} {scope : Scope} {first second : List Deed} :
    Genuine options scope (first ++ second) ↔
      Genuine options scope first ∧ Genuine options (first.foldl Deed.after scope) second := by
  induction first generalizing scope with
  | nil => simp [Genuine]
  | cons d first ih => simp only [List.cons_append, Genuine, ih, List.foldl_cons, and_assoc]

/-! ## The scope of a history -/

def Scope.ofHistory (h : List Deed) : Scope where
  comparisons := h.countP Deed.isComparison
  procedure := (h.filterMap Deed.procedure?).getLast?.getD "null"
  calls := (h.rtakeWhile fun d => d.procedure?.isNone).countP Deed.isCall
  unit := (h.filterMap Deed.unit?).getLast?.getD ""

theorem Scope.ofHistory_concat (h : List Deed) (d : Deed) : ofHistory (h ++ [d]) = d.after (ofHistory h) := by
  rcases d with name | code | ⟨⟨(u | b | c) | _ | _ | _ | _ | _ | _ | _ | _, number, text⟩, code⟩ | code
  all_goals
    simp [ofHistory, Deed.after, inUnit, Deed.isComparison, Deed.isCall, Deed.procedure?, Deed.unit?,
      Instruction.isComparison, Instruction.isCall, Instruction.procedure?, Instruction.after]

theorem foldl_after (h : List Deed) : h.foldl Deed.after {} = Scope.ofHistory h := by
  induction h using List.reverseRecOn with
  | nil => rfl
  | append_singleton h d ih =>
    rw [List.foldl_append, ih, Scope.ofHistory_concat]
    rfl

/-! ## Sessions -/

namespace Session

/-- The lines that are translated, up to the first that fails. -/
def deedsOfLines (s : Session) : List SourceLine → List Deed
  | [] => []
  | l :: ls => match s.line l with
    | (.error _, _) => []
    | (.ok code, s) => .line l code :: s.deedsOfLines ls

def deeds (s : Session) : Step → List Deed
  | .inUnit name => [.inUnit name]
  | .bootstrap => match s.bootstrap.1 with
    | .error _ => []
    | .ok code => [.bootstrap code]
  | .line l => s.deedsOfLines [l]
  | .lines ls => s.deedsOfLines ls
  | .finish => [.finish s.finish]

def log (s : Session) : List Step → List (List Deed)
  | [] => []
  | c :: cs => s.deeds c :: (s.step c).2.log cs

def history (s : Session) (steps : List Step) : List Deed :=
  (s.log steps).flatten

theorem history_cons (s : Session) (c : Step) (cs : List Step) :
    s.history (c :: cs) = s.deeds c ++ (s.step c).2.history cs := rfl

structure Accounts (s : Session) (ds : List Deed) (reply : Reply) (s' : Session) : Prop where
  scope : s' = { s with scope := ds.foldl Deed.after s.scope }
  genuine : Genuine s.options s.scope ds
  code : ∀ code, reply = .ok code → code = ds.flatMap Deed.code

theorem lines_deeds (s : Session) (ls : List SourceLine) :
    Accounts s (s.deedsOfLines ls) (s.lines ls).1 (s.lines ls).2 := by
  induction ls generalizing s with
  | nil => exact ⟨rfl, trivial, fun _ h => (Except.ok.inj h).symm⟩
  | cons l ls ih =>
    cases hcode : l.instruction.code s.scope with
    | error fault =>
      have hline : s.line l = (.error (.instruction ⟨s.scope.unit, l.line, l.text⟩ fault), s) := by
        rw [line, hcode]
      simp only [lines, deedsOfLines, hline]
      exact ⟨rfl, trivial, fun _ h => by cases h⟩
    | ok fragment =>
      have hline : s.line l = (.ok (s.remark l.text ++ fragment), { s with scope := l.instruction.after s.scope }) := by
        rw [line, hcode]
      have hrest := ih { s with scope := l.instruction.after s.scope }
      have hmade : (Deed.line l (s.remark l.text ++ fragment)).MadeIn s.options s.scope := ⟨fragment, hcode, rfl⟩
      simp only [lines, deedsOfLines, hline]
      rcases hls : ({ s with scope := l.instruction.after s.scope } : Session).lines ls with ⟨e | rest, s'⟩
      · rw [hls] at hrest
        exact ⟨hrest.scope, ⟨hmade, hrest.genuine⟩, fun _ h => by cases h⟩
      · rw [hls] at hrest
        refine ⟨hrest.scope, ⟨hmade, hrest.genuine⟩, fun code h => ?_⟩
        obtain rfl := Except.ok.inj h
        rw [hrest.code rest rfl]
        rfl

theorem lines_singleton (s : Session) (l : SourceLine) : s.lines [l] = s.line l := by
  simp only [lines]
  rcases s.line l with ⟨e | code, s'⟩
  · rfl
  · simp

theorem step_deeds (s : Session) (c : Step) : Accounts s (s.deeds c) (s.step c).1 (s.step c).2 := by
  cases c with
  | inUnit name => exact ⟨rfl, ⟨trivial, trivial⟩, fun _ h => (Except.ok.inj h).symm⟩
  | bootstrap =>
    cases hfault : Name.procedureFault? s.options.entry with
    | some why =>
      have hboot : s.bootstrap = (.error (.usage (.invalidEntry s.options.entry why)), s) := by
        simp only [bootstrap, hfault]
      simp only [step, deeds, hboot]
      exact ⟨rfl, trivial, fun _ h => by cases h⟩
    | none =>
      have hboot : s.bootstrap = (.ok (s.remark "bootstrap" ++ Fragment.setUp ++
          Fragment.call s.scope s.options.entry 0 ++ Fragment.halt),
          { s with scope := (Instruction.call s.options.entry 0).after s.scope }) := by
        simp only [bootstrap, hfault]
      simp only [step, deeds, hboot]
      refine ⟨rfl, ⟨⟨hfault, rfl⟩, trivial⟩, fun _ h => ?_⟩
      rw [List.flatMap_singleton]
      exact (Except.ok.inj h).symm
  | line l =>
    have h := s.lines_deeds [l]
    rw [lines_singleton] at h
    exact h
  | lines ls => exact s.lines_deeds ls
  | finish =>
    refine ⟨rfl, ⟨rfl, trivial⟩, fun _ h => ?_⟩
    rw [deeds, List.flatMap_singleton]
    exact (Except.ok.inj h).symm

/-- A session does what its deeds do. -/
theorem run_history (s : Session) (steps : List Step) :
    (s.run steps).2 = { s with scope := (s.history steps).foldl Deed.after s.scope } ∧
      Genuine s.options s.scope (s.history steps) ∧
      List.Forall₂ (fun reply ds => ∀ code, reply = .ok code → code = ds.flatMap Deed.code)
        (s.run steps).1 (s.log steps) := by
  induction steps generalizing s with
  | nil => exact ⟨rfl, trivial, .nil⟩
  | cons c cs ih =>
    obtain ⟨hscope, hgenuine, hcode⟩ := s.step_deeds c
    obtain ⟨hend, hrest, hreplies⟩ := ih (s.step c).2
    have hoptions : (s.step c).2.options = s.options := by rw [hscope]
    -- the rest goes on from the scope that the deeds of this step leave
    have hbehind : (s.step c).2.scope = (s.deeds c).foldl Deed.after s.scope := by rw [hscope]
    rw [hoptions, hbehind] at hend hrest
    refine ⟨?_, ?_, ?_⟩
    · show ((s.step c).2.run cs).2 = _
      rw [hend, history_cons, List.foldl_append, hscope]
    · rw [history_cons, genuine_append]
      exact ⟨hgenuine, hrest⟩
    · exact .cons hcode hreplies

end Session

/-! ## Symbols of a deed -/

def Statement.Allowed : Statement → Prop
  | load s => s.Allowed
  | label s => s.Allowed ∧ s.isStatic = false
  | _ => True

def Symbol.comparison? : Symbol → Option Nat
  | holds n => some n
  | done n => some n
  | _ => none

def Statement.comparison? : Statement → Option Nat
  | load s => s.comparison?
  | label s => s.comparison?
  | _ => none

namespace Instruction

variable {scope : Scope} {i : Instruction} {code : List Statement}

theorem allowed_of_mem_symbols (h : i.code scope = .ok code) (hs : Name.procedureFault? scope.procedure = none)
    {s : Symbol} (hm : s ∈ i.symbols scope) : s.Allowed ∧ s.isStatic = false := by
  cases i with
  | operation o =>
    rcases o with u | b | c
    · cases hm
    · cases hm
    · simp only [symbols, List.mem_cons, List.not_mem_nil, or_false] at hm
      rcases hm with rfl | rfl <;> exact ⟨trivial, rfl⟩
  | label l =>
    obtain rfl := List.mem_singleton.mp hm
    exact ⟨⟨hs, (named_ok h).1⟩, rfl⟩
  | function f n =>
    obtain rfl := List.mem_singleton.mp hm
    exact ⟨(named_ok h).1, rfl⟩
  | call f n =>
    obtain rfl := List.mem_singleton.mp hm
    exact ⟨hs, rfl⟩
  | push _ _ | pop _ _ | goto _ | ifGoto _ | ret => cases hm

/-- The rules hold of the words in the code of an instruction that is not faulty. -/
theorem allowed_code (h : i.code scope = .ok code) (hs : Name.procedureFault? scope.procedure = none) :
    ∀ s ∈ code, s.Allowed := by
  have hdefined : ∀ s : Symbol, .label s ∈ code → s.Allowed ∧ s.isStatic = false := by
    intro s hm
    rw [← Statement.mem_symbols_iff, symbol?_code h] at hm
    exact allowed_of_mem_symbols h hs hm
  intro s hm
  cases s with
  | label s => exact hdefined s hm
  | load s =>
    rcases knownIn_code h (List.mem_filterMap.mpr ⟨_, hm, rfl⟩) with hk | ht
    · cases s with
      | procedure f => exact (hdefined _ hk).1
      | label p l => exact (hdefined _ hk).1
      | returnAddress p n => exact (hdefined _ hk).1
      | predefined _ | holds _ | done _ | halt | static _ _ => trivial
    · cases i with
      | goto l | ifGoto l =>
        obtain rfl := List.mem_singleton.mp ht
        exact ⟨hs, (named_ok h).1⟩
      | call f n =>
        obtain rfl := List.mem_singleton.mp ht
        exact (named_ok h).1
      | operation _ | push _ _ | pop _ _ | label _ | function _ _ | ret => cases ht
  | comment _ | loadNumber _ | compute _ _ _ => trivial

/-- Only a comparison mentions symbols of comparisons, and only its own. -/
theorem comparison?_code (h : i.code scope = .ok code) {s : Statement} (hm : s ∈ code) {n : Nat}
    (hn : s.comparison? = some n) : i.isComparison = true ∧ n = scope.comparisons := by
  have hdefined : ∀ s : Symbol, .label s ∈ code → s.comparison? = some n →
      i.isComparison = true ∧ n = scope.comparisons := by
    intro s hm hn
    rw [← Statement.mem_symbols_iff, symbol?_code h] at hm
    cases i with
    | operation o =>
      rcases o with u | b | c
      · cases hm
      · cases hm
      · simp only [symbols, List.mem_cons, List.not_mem_nil, or_false] at hm
        rcases hm with rfl | rfl <;> exact ⟨rfl, (Option.some.inj hn).symm⟩
    | label _ | function _ _ | call _ _ =>
      obtain rfl := List.mem_singleton.mp hm
      cases hn
    | push _ _ | pop _ _ | goto _ | ifGoto _ | ret => cases hm
  cases s with
  | label s => exact hdefined s hm hn
  | load s =>
    rcases knownIn_code h (List.mem_filterMap.mpr ⟨_, hm, rfl⟩) with hk | ht
    · cases s with
      | holds k | done k => exact hdefined _ hk hn
      | _ => cases hn
    · cases i with
      | goto _ | ifGoto _ | call _ _ =>
        obtain rfl := List.mem_singleton.mp ht
        cases hn
      | operation _ | push _ _ | pop _ _ | label _ | function _ _ | ret => cases ht
  | comment _ | loadNumber _ | compute _ _ _ => cases hn

end Instruction

namespace Deed

variable {options : Options} {scope : Scope} {d : Deed} {s st : Statement} {n : Nat}

/-- The code of a deed is that of an instruction, but for the comment, the set-up and the
    loop. -/
theorem mem_code (h : d.MadeIn options scope) (hm : s ∈ d.code) :
    (∃ words, s = .comment words) ∨ s ∈ Fragment.setUp ++ Fragment.halt ∨
      ∃ i fragment, Instruction.code scope i = .ok fragment ∧ s ∈ fragment ∧ i.isComparison = d.isComparison := by
  cases d with
  | inUnit name => cases hm
  | bootstrap code =>
    obtain ⟨hfault, rfl⟩ := h
    have hcall : Instruction.code scope (.call options.entry 0) = .ok (Fragment.call scope options.entry 0) := by
      simp only [Instruction.code, Instruction.named, hfault]
    simp only [code, List.mem_append] at hm
    rcases hm with ((hm | hm) | hm) | hm
    · exact .inl ⟨_, Session.eq_comment_of_mem_remark hm⟩
    · exact .inr (.inl (List.mem_append_left _ hm))
    · exact .inr (.inr ⟨_, _, hcall, hm, rfl⟩)
    · exact .inr (.inl (List.mem_append_right _ hm))
  | line l code =>
    obtain ⟨fragment, hcode, rfl⟩ := h
    rcases List.mem_append.mp hm with hm | hm
    · exact .inl ⟨_, Session.eq_comment_of_mem_remark hm⟩
    · exact .inr (.inr ⟨_, _, hcode, hm, rfl⟩)
  | finish code =>
    obtain rfl := h
    simp only [Deed.code, Session.finish] at hm
    split at hm
    · cases hm
    · exact .inr (.inl (List.mem_append_right _ hm))

theorem allowed_code (h : d.MadeIn options scope) (hs : Name.procedureFault? scope.procedure = none) :
    ∀ s ∈ d.code, s.Allowed := by
  have hfixed : ∀ s ∈ Fragment.setUp ++ Fragment.halt, s.Allowed := by
    simp [Fragment.setUp, Fragment.halt, Fragment.goto, Statement.loadCell, Statement.assign, Statement.jump,
      Statement.Allowed, Symbol.Allowed, Symbol.isStatic]
  intro s hm
  rcases mem_code h hm with ⟨words, rfl⟩ | hm | ⟨i, fragment, hcode, hm, -⟩
  · trivial
  · exact hfixed s hm
  · exact Instruction.allowed_code hcode hs s hm

theorem comparison?_code (h : d.MadeIn options scope) (hm : s ∈ d.code) (hn : s.comparison? = some n) :
    d.isComparison = true ∧ n = scope.comparisons := by
  have hfixed : ∀ s ∈ Fragment.setUp ++ Fragment.halt, s.comparison? = none := by decide
  rcases mem_code h hm with ⟨words, rfl⟩ | hm | ⟨i, fragment, hcode, hm, hi⟩
  · cases hn
  · rw [hfixed s hm] at hn
    cases hn
  · rw [← hi]
    exact Instruction.comparison?_code hcode hm hn

end Deed

/-! ## Lines of a deed -/

/-- A line behind `@` loads a symbol or a number. -/
theorem Statement.text_eq_at {s : Statement} {name : String} :
    s.text = "@" ++ name ↔
      (∃ symbol, s = .load symbol ∧ symbol.text = name) ∨ ∃ n, s = .loadNumber n ∧ n.repr = name := by
  have hhead : ("@" ++ name).toList.head? = some '@' := by simp
  have hinj : ∀ word : String, "@" ++ word = "@" ++ name → word = name := by
    intro word h
    have := congrArg String.toList h
    exact String.toList_injective (by simpa using this)
  constructor
  · intro h
    rw [← h] at hhead
    cases s with
    | comment words => simp [text] at hhead
    | load symbol => exact .inl ⟨symbol, rfl, hinj _ h⟩
    | loadNumber n => exact .inr ⟨n, rfl, hinj _ h⟩
    | compute t e j => exact absurd hhead (head_text_compute t e j (.inr (.inl rfl)))
    | label symbol => simp [text] at hhead
  · rintro (⟨symbol, rfl, rfl⟩ | ⟨n, rfl, rfl⟩) <;> rfl

namespace Symbol

/-- The symbols of comparisons have names of their own. -/
theorem eq_of_comparison {s symbol : Symbol} {n : Nat} (hs : s.Allowed) (hn : symbol.comparison? = some n)
    (h : s.text = symbol.text) : s = symbol := by
  have hsymbol : symbol.Allowed ∧ symbol.isStatic = false ∧ symbol.isScoped = false := by
    cases symbol with
    | holds k | done k => exact ⟨trivial, rfl, rfl⟩
    | _ => cases hn
  cases hstatic : s.isStatic with
  | false => exact text_injective hs hsymbol.1 hstatic hsymbol.2.1 h
  | true =>
    cases s with
    | static u i => exact absurd h (static_text_ne u i hsymbol.1 hsymbol.2.1 hsymbol.2.2)
    | _ => cases hstatic

theorem repr_ne_of_mem {s : Symbol} {c : Char} (hm : c ∈ s.text.toList) (hc : c.isDigit = false) (n : Nat) :
    n.repr ≠ s.text := by
  intro h
  rw [← h] at hm
  exact notMem_repr hc n hm

end Symbol

/-- The statements that mention a comparison have lines of their own. -/
theorem Statement.text_eq_comparison {s st : Statement} {n : Nat} (hs : s.Allowed) (hn : st.comparison? = some n) :
    s.text = st.text ↔ s = st := by
  refine ⟨fun h => ?_, congrArg _⟩
  cases st with
  | load symbol =>
    rcases text_eq_at.mp h with ⟨symbol', rfl, he⟩ | ⟨k, rfl, he⟩
    · rw [Symbol.eq_of_comparison hs hn he]
    · have hunderscore : '_' ∈ symbol.text.toList := by
        cases symbol with
        | holds k | done k => simp [Symbol.text]
        | _ => cases hn
      exact absurd he (Symbol.repr_ne_of_mem hunderscore rfl k)
  | label symbol =>
    obtain ⟨symbol', hsymbol, he⟩ := text_eq_parenthesised.mp h
    cases s with
    | label t =>
      cases hsymbol
      rw [Symbol.eq_of_comparison hs.1 hn he]
    | _ => cases hsymbol
  | _ => cases hn

theorem Statement.count_map_text {code : List Statement} {st : Statement} (h : ∀ s ∈ code, s.text = st.text ↔ s = st) :
    (code.map Statement.text).count st.text = code.count st := by
  rw [List.count_eq_countP, List.countP_map, List.count_eq_countP]
  refine List.countP_congr fun s hs => ?_
  simp only [Function.comp, beq_iff_eq]
  exact h s hs

theorem Fragment.count_compare (n : Nat) (c : Comparison) {st : Statement} (hn : st.comparison? = some n) :
    (compare n c).count st = 1 := by
  cases st with
  | load symbol | label symbol =>
    cases symbol with
    | holds k | done k =>
      obtain rfl : k = n := Option.some.inj hn
      simp [compare, popD, Statement.loadCell, Statement.assign, Statement.jump]
    | _ => cases hn
  | _ => cases hn

def comparisonLines (n : Nat) : List String :=
  ["(TRUE_" ++ n.repr ++ ")", "@TRUE_" ++ n.repr, "(DONE_" ++ n.repr ++ ")", "@DONE_" ++ n.repr]

theorem exists_of_mem_comparisonLines {n : Nat} {line : String} (h : line ∈ comparisonLines n) :
    ∃ st : Statement, st.comparison? = some n ∧ st.text = line := by
  simp only [comparisonLines, List.mem_cons, List.not_mem_nil, or_false] at h
  have hopen : ∀ stem : String, "(" ++ (stem ++ n.repr) ++ ")" = "(" ++ stem ++ n.repr ++ ")" := by
    intro stem
    simp only [String.append_assoc]
  have hat : ∀ stem : String, "@" ++ (stem ++ n.repr) = "@" ++ stem ++ n.repr := by
    intro stem
    simp only [String.append_assoc]
  rcases h with rfl | rfl | rfl | rfl
  · exact ⟨.label (.holds n), rfl, hopen _⟩
  · exact ⟨.load (.holds n), rfl, hat _⟩
  · exact ⟨.label (.done n), rfl, hopen _⟩
  · exact ⟨.load (.done n), rfl, hat _⟩

def labelLines (lines : List String) : List String :=
  lines.filter fun line => line.toList.head? == some '('

theorem labelLines_map_text (code : List Statement) :
    labelLines (code.map Statement.text) = (code.filterMap Statement.symbol?).map fun s => "(" ++ s.text ++ ")" := by
  have hhead : ∀ s : Statement, (s.text.toList.head? == some '(') = s.symbol?.isSome := by
    intro s
    cases s with
    | comment _ | load _ | loadNumber _ | label _ => simp [Statement.text, Statement.symbol?]
    | compute t e j =>
      rw [beq_eq_false_iff_ne.mpr (Statement.head_text_compute t e j (.inl rfl))]
      rfl
  induction code with
  | nil => rfl
  | cons s code ih =>
    rw [List.map_cons, labelLines, List.filter_cons, hhead, ← labelLines, ih]
    cases s <;> rfl

/-- The code loads `name`, then defines it, and defines nothing else but the loop. -/
def Deed.ReturnsTo (d : Deed) (name : String) : Prop :=
  (∃ front middle back, d.lines = front ++ ("@" ++ name) :: (middle ++ ("(" ++ name ++ ")") :: back)) ∧
    d.lines.count ("@" ++ name) = 1 ∧
    (labelLines d.lines = ["(" ++ name ++ ")"] ∨ labelLines d.lines = ["(" ++ name ++ ")", "($halt)"])

namespace Fragment

/-- The code of a call between the load of the return address and its definition. -/
def callTail (scope : Scope) (name : String) (arguments : Nat) : List Statement :=
  (saveCaller scope arguments).tail ++ goto (.procedure name)

theorem call_cons (scope : Scope) (name : String) (arguments : Nat) :
    call scope name arguments =
      .load scope.returnAddress :: (callTail scope name arguments ++ [.label scope.returnAddress]) := rfl

theorem plain_of_mem_callTail {scope : Scope} {name : String} {arguments : Nat} {s : Symbol}
    (h : .load s ∈ callTail scope name arguments) : s.isScoped = false ∧ s.isStatic = false := by
  have hloads : (callTail scope name arguments).filterMap Statement.load? =
      ([.sp, .lcl, .sp, .arg, .sp, .this, .sp, .that, .sp, .sp, .arg, .sp, .lcl] : List Predefined).map
        Symbol.predefined ++ [.procedure name] := rfl
  have hmem : s ∈ (callTail scope name arguments).filterMap Statement.load? := List.mem_filterMap.mpr ⟨_, h, rfl⟩
  rw [hloads] at hmem
  rcases List.mem_append.mp hmem with hmem | hmem
  · obtain ⟨p, -, rfl⟩ := List.mem_map.mp hmem
    exact ⟨rfl, rfl⟩
  · obtain rfl := List.mem_singleton.mp hmem
    exact ⟨rfl, rfl⟩

/-- A call loads its return address once. -/
theorem count_call (scope : Scope) (name : String) (arguments : Nat) :
    (call scope name arguments).count (.load scope.returnAddress) = 1 := by
  rw [call_cons, List.count_cons_self, Nat.add_eq_right, List.count_eq_zero]
  intro hm
  rcases List.mem_append.mp hm with hm | hm
  · cases (plain_of_mem_callTail hm).1
  · cases List.mem_singleton.mp hm

end Fragment

namespace Deed

variable {options : Options} {scope : Scope} {d : Deed}

theorem count_comparison (h : d.MadeIn options scope) (hs : Name.procedureFault? scope.procedure = none)
    (hd : d.isComparison = true) {line : String} (hl : line ∈ comparisonLines scope.comparisons) :
    d.lines.count line = 1 := by
  obtain ⟨st, hn, rfl⟩ := exists_of_mem_comparisonLines hl
  have hallowed := allowed_code h hs
  rw [lines, Statement.count_map_text fun s hm => Statement.text_eq_comparison (hallowed s hm) hn]
  cases d with
  | line l code =>
    obtain ⟨fragment, hcode, rfl⟩ := h
    have hremark : (({ options } : Session).remark l.text).count st = 0 := by
      rw [List.count_eq_zero]
      intro hm
      rw [Session.eq_comment_of_mem_remark hm] at hn
      cases hn
    obtain ⟨i, number, text⟩ := l
    cases i with
    | operation o =>
      rcases o with u | b | c
      · cases hd
      · cases hd
      · cases hcode
        rw [code, List.count_append, hremark, Nat.zero_add]
        exact Fragment.count_compare _ c hn
    | _ => cases hd
  | _ => cases hd

theorem notMem_lines (h : d.MadeIn options scope) (hs : Name.procedureFault? scope.procedure = none) {n : Nat}
    (hd : d.isComparison = true → n ≠ scope.comparisons) {line : String} (hl : line ∈ comparisonLines n) :
    line ∉ d.lines := by
  obtain ⟨st, hn, rfl⟩ := exists_of_mem_comparisonLines hl
  intro hm
  obtain ⟨s, hcode, he⟩ := List.mem_map.mp hm
  rw [(Statement.text_eq_comparison (allowed_code h hs s hcode) hn).mp he] at hcode
  obtain ⟨hcomparison, hnumber⟩ := comparison?_code h hcode hn
  exact hd hcomparison hnumber

/-- The code of a call, but for what stands around it: a comment, or the code of a
    bootstrap. -/
theorem exists_call (h : d.MadeIn options scope) (hd : d.isCall = true) :
    ∃ front f n back, d.code = front ++ Fragment.call scope f n ++ back ∧ front.filterMap Statement.symbol? = [] ∧
      (back = [] ∨ back = Fragment.halt) ∧
      ∀ symbol, .load symbol ∈ front ++ back → symbol.isScoped = false ∧ symbol.isStatic = false := by
  have hremark : ∀ words, (({ options } : Session).remark words).filterMap Statement.symbol? = [] ∧
      ∀ symbol, .load symbol ∉ ({ options } : Session).remark words := by
    refine fun words => ⟨List.filterMap_eq_nil_iff.mpr fun st hm => ?_, fun symbol hm => ?_⟩
    · rw [Session.eq_comment_of_mem_remark hm]
      rfl
    · cases Session.eq_comment_of_mem_remark hm
  cases d with
  | bootstrap code =>
    obtain ⟨-, rfl⟩ := h
    refine ⟨_, options.entry, 0, Fragment.halt, rfl, ?_, .inr rfl, ?_⟩
    · rw [List.filterMap_append, (hremark _).1]
      rfl
    · intro symbol hm
      rw [List.append_assoc] at hm
      rcases List.mem_append.mp hm with hm | hm
      · exact absurd hm ((hremark _).2 symbol)
      · simp only [Fragment.setUp, Fragment.halt, Fragment.goto, Statement.loadCell, Statement.assign, Statement.jump,
          List.mem_append, List.mem_cons, List.not_mem_nil, Statement.load.injEq, reduceCtorEq, or_false,
          false_or] at hm
        rcases hm with (rfl | rfl) | rfl <;> exact ⟨rfl, rfl⟩
  | line l code =>
    obtain ⟨fragment, hcode, rfl⟩ := h
    obtain ⟨i, number, text⟩ := l
    cases i with
    | call f n =>
      obtain ⟨-, rfl⟩ := Instruction.named_ok hcode
      refine ⟨_, f, n, [], (List.append_nil _).symm, (hremark text).1, .inl rfl, fun symbol hm => ?_⟩
      rw [List.append_nil] at hm
      exact absurd hm ((hremark text).2 symbol)
    | _ => cases hd
  | _ => cases hd

theorem returnsTo (h : d.MadeIn options scope) (hs : Name.procedureFault? scope.procedure = none)
    (hd : d.isCall = true) : d.ReturnsTo scope.returnAddress.text := by
  have hallowed := allowed_code h hs
  obtain ⟨front, f, n, back, hcode, hfront, hback, hplain⟩ := exists_call h hd
  refine ⟨⟨front.map Statement.text, (Fragment.callTail scope f n).map Statement.text, back.map Statement.text, ?_⟩,
    ?_, ?_⟩
  · rw [lines, hcode, Fragment.call_cons]
    simp only [List.map_append, List.map_cons, List.append_assoc, List.cons_append, List.nil_append]
    rfl
  -- a static variable could have the name of a return address, but no call touches one
  · have hstatic : ∀ symbol, .load symbol ∈ d.code → symbol.isStatic = false := by
      intro symbol hm
      simp only [hcode, Fragment.call_cons, List.mem_append, List.mem_cons] at hm
      rcases hm with (hm | hm | hm | hm) | hm
      · exact (hplain symbol (List.mem_append_left _ hm)).2
      · obtain rfl := Statement.load.inj hm
        rfl
      · exact (Fragment.plain_of_mem_callTail hm).2
      · simp at hm
      · exact (hplain symbol (List.mem_append_right _ hm)).2
    have hline : ∀ s ∈ d.code, s.text = (Statement.load scope.returnAddress).text ↔ s = .load scope.returnAddress := by
      have haddress : scope.returnAddress.Allowed := hs
      have hdollar : '$' ∈ scope.returnAddress.text.toList := by simp [Scope.returnAddress, Symbol.text]
      refine fun s hm => ⟨fun he => ?_, congrArg _⟩
      rcases Statement.text_eq_at.mp he with ⟨symbol, rfl, hname⟩ | ⟨k, rfl, hname⟩
      · rw [Symbol.text_injective (hallowed _ hm) haddress (hstatic symbol hm) rfl hname]
      · exact absurd hname (Symbol.repr_ne_of_mem hdollar rfl k)
    have hnone : ∀ code : List Statement, (∀ symbol, .load symbol ∈ code → symbol.isScoped = false) →
        code.count (.load scope.returnAddress) = 0 := by
      intro code hc
      rw [List.count_eq_zero]
      intro hm
      cases hc _ hm
    show d.lines.count (Statement.load scope.returnAddress).text = 1
    rw [lines, Statement.count_map_text hline, hcode, List.count_append, List.count_append, Fragment.count_call,
      hnone front fun symbol hm => (hplain symbol (List.mem_append_left _ hm)).1,
      hnone back fun symbol hm => (hplain symbol (List.mem_append_right _ hm)).1]
  · have hcall : (Fragment.call scope f n).filterMap Statement.symbol? = [scope.returnAddress] := rfl
    rw [lines, labelLines_map_text, hcode, List.filterMap_append, List.filterMap_append, hfront, hcall]
    rcases hback with rfl | rfl
    · exact .inl rfl
    · exact .inr rfl

end Deed

/-! ## Histories -/

namespace Deed

theorem procedureFault?_after {options : Options} {scope : Scope} {d : Deed} (h : d.MadeIn options scope)
    (hs : Name.procedureFault? scope.procedure = none) : Name.procedureFault? (d.after scope).procedure = none := by
  cases d with
  | line l code =>
    obtain ⟨fragment, hcode, -⟩ := h
    obtain ⟨i, number, text⟩ := l
    cases i with
    | function f n => exact (Instruction.named_ok hcode).1
    | operation o => rcases o with u | b | c <;> exact hs
    | _ => exact hs
  | _ => exact hs

theorem after_of_procedure? {d : Deed} {f : String} (h : d.procedure? = some f) (scope : Scope) :
    (d.after scope).procedure = f ∧ (d.after scope).calls = 0 := by
  cases d with
  | line l code =>
    obtain ⟨i, number, text⟩ := l
    cases i with
    | function g n =>
      obtain rfl : g = f := Option.some.inj h
      exact ⟨rfl, rfl⟩
    | _ => cases h
  | _ => cases h

theorem after_of_procedure?_none {d : Deed} (h : d.procedure? = none) (scope : Scope) :
    (d.after scope).procedure = scope.procedure ∧
      (d.after scope).calls = scope.calls + if d.isCall then 1 else 0 := by
  cases d with
  | line l code =>
    obtain ⟨i, number, text⟩ := l
    cases i with
    | function g n => cases h
    | operation o => rcases o with u | b | c <;> exact ⟨rfl, rfl⟩
    | _ => exact ⟨rfl, rfl⟩
  | _ => exact ⟨rfl, rfl⟩

end Deed

section Histories

variable {options : Options} {history before after block : List Deed} {d : Deed}

theorem procedureFault?_ofHistory (h : Genuine options {} history) :
    Name.procedureFault? (Scope.ofHistory history).procedure = none := by
  induction history using List.reverseRecOn with
  | nil => exact Name.procedureFault?_null
  | append_singleton ds d ih =>
    rw [genuine_append, foldl_after] at h
    rw [Scope.ofHistory_concat]
    exact Deed.procedureFault?_after h.2.1 (ih h.1)

/-- Each deed of a history has the code of the scope that the deeds before it leave. -/
theorem madeIn_of_split (h : Genuine options {} history) (he : history = before ++ d :: after) :
    d.MadeIn options (Scope.ofHistory before) ∧ Name.procedureFault? (Scope.ofHistory before).procedure = none := by
  rw [he, genuine_append, foldl_after] at h
  exact ⟨h.2.1, procedureFault?_ofHistory h.1⟩

/-- No other deed has a line of a comparison. -/
theorem notMem_lines_of_split (h : Genuine options {} history) (he : history = before ++ d :: after)
    (hd : d.isComparison = true) {line : String} (hl : line ∈ comparisonLines (before.countP Deed.isComparison))
    {d' : Deed} (hm : d' ∈ before ++ after) : line ∉ d'.lines := by
  rcases List.mem_append.mp hm with hm | hm
  -- before it numbers are smaller, behind it they are larger
  · obtain ⟨front, back, rfl⟩ := List.append_of_mem hm
    obtain ⟨hmade, hs⟩ := @madeIn_of_split options history front (back ++ d :: after) d' h (by rw [he]; simp)
    refine Deed.notMem_lines hmade hs (fun hd' => ?_) hl
    simp only [Scope.ofHistory, List.countP_append, List.countP_cons, hd', if_true]
    omega
  · obtain ⟨front, back, rfl⟩ := List.append_of_mem hm
    obtain ⟨hmade, hs⟩ := @madeIn_of_split options history (before ++ d :: front) back d' h (by rw [he]; simp)
    refine Deed.notMem_lines hmade hs (fun _ => ?_) hl
    simp only [Scope.ofHistory, List.countP_append, List.countP_cons, hd, if_true]
    omega

/-- Behind a `function`, the calls are counted from 0. -/
theorem ofHistory_block {f : String} (hd : d.procedure? = some f) (hblock : ∀ d' ∈ block, d'.procedure? = none) :
    (Scope.ofHistory (before ++ d :: block)).procedure = f ∧
      (Scope.ofHistory (before ++ d :: block)).calls = block.countP Deed.isCall := by
  induction block using List.reverseRecOn with
  | nil =>
    rw [Scope.ofHistory_concat]
    exact Deed.after_of_procedure? hd _
  | append_singleton ds d' ih =>
    obtain ⟨hprocedure, hcalls⟩ := ih fun e he => hblock e (List.mem_append_left _ he)
    obtain ⟨hp, hc⟩ := Deed.after_of_procedure?_none (hblock d' (List.mem_append_right _ List.mem_cons_self))
      (Scope.ofHistory (before ++ d :: ds))
    have hsplit : before ++ d :: (ds ++ [d']) = (before ++ d :: ds) ++ [d'] := by simp
    rw [hsplit, Scope.ofHistory_concat, hp, hc, hprocedure, hcalls, List.countP_append, List.countP_singleton]
    exact ⟨rfl, rfl⟩

/-- The calls behind a `function` return to one address after the other. -/
theorem returnAddresses_of_block (h : Genuine options {} history) {f : String} (hd : d.procedure? = some f)
    (he : history = before ++ d :: (block ++ after)) (hblock : ∀ d' ∈ block, d'.procedure? = none) :
    (block.filter Deed.isCall).map (fun d' => (labelLines d'.lines).head?) =
      (List.range (block.countP Deed.isCall)).map fun j => some ("(" ++ (Symbol.returnAddress f j).text ++ ")") := by
  induction block using List.reverseRecOn generalizing after with
  | nil => rfl
  | append_singleton ds d' ih =>
    have hds : ∀ e ∈ ds, e.procedure? = none := fun e hm => hblock e (List.mem_append_left _ hm)
    have hrest := @ih (d' :: after) (by rw [he]; simp) hds
    rw [List.filter_append, List.map_append, hrest, List.countP_append]
    cases hcall : d'.isCall with
    | false => simp [hcall]
    | true =>
      obtain ⟨hmade, hs⟩ := @madeIn_of_split options history (before ++ d :: ds) after d' h (by rw [he]; simp)
      obtain ⟨hprocedure, hcalls⟩ := @ofHistory_block before ds d f hd hds
      obtain ⟨-, -, hlabels⟩ := Deed.returnsTo hmade hs hcall
      rw [Scope.returnAddress, hprocedure, hcalls] at hlabels
      have hhead : (labelLines d'.lines).head? =
          some ("(" ++ (Symbol.returnAddress f (ds.countP Deed.isCall)).text ++ ")") := by
        rcases hlabels with hl | hl <;> rw [hl] <;> rfl
      simp [hcall, List.range_succ, hhead]

end Histories

/-- After any steps the scope of a new session is that of its history, and each reply is the
    code of what the step did. The lines of a comparison stand in its code once and in no
    other; a call loads and then defines the return address that the history says; and the
    calls behind a `function` return to the addresses 0, 1, 2 and so on of the procedure. -/
theorem session_history (options : Options) (steps : List Step) :
    (({ options } : Session).run steps).2 = ⟨options, Scope.ofHistory (({ options } : Session).history steps)⟩ ∧
    List.Forall₂ (fun reply ds => ∀ code, reply = .ok code → code = ds.flatMap Deed.code)
      (({ options } : Session).run steps).1 (({ options } : Session).log steps) ∧
    ∀ before d after, ({ options } : Session).history steps = before ++ d :: after →
      (d.isComparison = true → ∀ line ∈ comparisonLines (before.countP Deed.isComparison),
        d.lines.count line = 1 ∧ ∀ d' ∈ before ++ after, line ∉ d'.lines) ∧
      (d.isCall = true → d.ReturnsTo (Scope.ofHistory before).returnAddress.text) ∧
      (∀ f, d.procedure? = some f → ∀ block rest, after = block ++ rest → (∀ d' ∈ block, d'.procedure? = none) →
        (block.filter Deed.isCall).map (fun d' => (labelLines d'.lines).head?) =
          (List.range (block.countP Deed.isCall)).map fun j => some ("(" ++ (Symbol.returnAddress f j).text ++ ")")) := by
  obtain ⟨hend, hgenuine, hreplies⟩ := ({ options } : Session).run_history steps
  rw [foldl_after] at hend
  refine ⟨hend, hreplies, fun before d after he => ?_⟩
  obtain ⟨hmade, hs⟩ := madeIn_of_split hgenuine he
  refine ⟨fun hd line hl => ⟨Deed.count_comparison hmade hs hd hl, ?_⟩, Deed.returnsTo hmade hs, ?_⟩
  · intro d' hm
    exact notMem_lines_of_split hgenuine he hd hl hm
  · rintro f hd block rest rfl hblock
    exact returnAddresses_of_block hgenuine hd he hblock

def interrupted : List Step :=
  [.inUnit "A", .line ⟨.function "F" 0, 1, "function F 0"⟩, .line ⟨.operation (.compare .eq), 2, "eq"⟩,
    .lines [⟨.call "F" 0, 3, "call F 0"⟩, ⟨.label "a$b", 4, "label a$b"⟩, ⟨.operation (.compare .gt), 5, "gt"⟩],
    .line ⟨.operation (.compare .lt), 6, "lt"⟩]

/-- The line behind the one that fails is not translated, so the last comparison is the
    second. -/
theorem session_history_interrupted :
    (({} : Session).run interrupted).2.scope = ⟨2, "F", 1, "A"⟩ ∧
      ∃ before d after, ({} : Session).history interrupted = before ++ d :: after ∧ d.isComparison = true ∧
        before.countP Deed.isComparison = 1 ∧ d.lines.count "(TRUE_1)" = 1 ∧
        (∀ d' ∈ before ++ after, "(TRUE_1)" ∉ d'.lines) ∧
        ∃ first call last, ({} : Session).history interrupted = first ++ call :: last ∧ call.isCall = true ∧
          call.ReturnsTo "F$ret.0" := by
  obtain ⟨hscope, -, hdeeds⟩ := session_history {} interrupted
  have hsplit : ∀ {k : Nat} {d : Deed}, (({} : Session).history interrupted)[k]? = some d →
      ({} : Session).history interrupted =
        (({} : Session).history interrupted).take k ++ d :: (({} : Session).history interrupted).drop (k + 1) := by
    intro k d hk
    obtain ⟨hlt, rfl⟩ := List.getElem?_eq_some_iff.mp hk
    rw [← List.drop_eq_getElem_cons hlt, List.take_append_drop]
  obtain ⟨call, hcall, hiscall⟩ : ∃ d, (({} : Session).history interrupted)[3]? = some d ∧ d.isCall = true :=
    ⟨_, rfl, rfl⟩
  obtain ⟨last, hlast, hcomparison⟩ : ∃ d, (({} : Session).history interrupted)[4]? = some d ∧ d.isComparison = true :=
    ⟨_, rfl, rfl⟩
  have hnumber : ((({} : Session).history interrupted).take 4).countP Deed.isComparison = 1 := by decide +kernel
  have haddress : (Scope.ofHistory ((({} : Session).history interrupted).take 3)).returnAddress.text = "F$ret.0" := by
    decide +kernel
  obtain ⟨hcount, hother⟩ := (hdeeds _ _ _ (hsplit hlast)).1 hcomparison "(TRUE_1)" (by rw [hnumber]; decide)
  have hreturns := (hdeeds _ _ _ (hsplit hcall)).2.1 hiscall
  rw [haddress] at hreturns
  refine ⟨?_, _, last, _, hsplit hlast, hcomparison, hnumber, hcount, hother, _, call, _, hsplit hcall, hiscall,
    hreturns⟩
  rw [hscope]
  decide +kernel

end StackToHack
