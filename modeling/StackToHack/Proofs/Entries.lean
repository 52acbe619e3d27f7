/-
  StackToHack.Proofs.Entries — the procedure that a program starts with.

  The entry is named by an option and not by a source. The bootstrap holds it to the rules
  that keep symbols apart, `Name.EntryWord`; that a procedure's name is an identifier is a
  rule of the reader alone. So an entry can be accepted that no source can declare, and
  the jump to it goes to no symbol of the assembly.
  - `Name.procedureFault?_eq_none_iff`: the words that the bootstrap accepts.
  - `declarable_iff`: the words that a source can declare.
  - `jumpsToSymbols_bootstrap`: where the jumps of a bootstrap go.
  - `bootstrap_accepts_iff`: the accepted entries against those that can be declared.
-/

import Mathlib.Data.List.Chain
import StackToHack.Proofs.Printing
import StackToHack.Proofs.Vocabulary

namespace StackToHack

/-! ## Words -/

namespace Name

structure EntryWord (word : String) : Prop where
  nonempty : word ≠ ""
  notScoped : '$' ∉ word.toList
  notPredefined : ∀ p ∈ Predefined.named, p.name ≠ word
  notRegister : ∀ digits, Text.Digits digits → word.toList = 'R' :: digits ∨ word.toList = 'R' :: '+' :: digits →
    16 ≤ Text.value digits
  notComparison : ¬ Numbered "TRUE_" word ∧ ¬ Numbered "DONE_" word
  notStatic : ∀ stem, ¬ Numbered (stem ++ ".") word

theorem procedureFault?_eq_none_iff {word : String} : procedureFault? word = none ↔ EntryWord word := by
  rw [procedureFault?_eq_none, hasSeparator_eq_false, ofName?_eq_none_iff]
  simp only [← Bool.not_eq_true, isNumbered_iff, endsInIndex_iff, not_exists, ne_eq, String.toList_eq_nil_iff]
  constructor
  · rintro ⟨⟨hne, hs⟩, ⟨hn, hr⟩, ht, hd, hi⟩
    exact ⟨hne, hs, hn, hr, ⟨ht, hd⟩, hi⟩
  · rintro ⟨hne, hs, hn, hr, ⟨ht, hd⟩, hi⟩
    exact ⟨⟨hne, hs⟩, ⟨hn, hr⟩, ht, hd, hi⟩

theorem isProcedure_iff_entryWord {word : String} : IsProcedure word ↔ EntryWord word ∧ Identifier word := by
  rw [IsProcedure, procedureFault?_eq_none_iff, isIdentifier_iff]

/-- The name can be declared: some source has a procedure of this name. -/
def Declarable (name : String) : Prop :=
  ∃ (u : SourceUnit) (ls : List SourceLine), u.lines = .ok ls ∧ ∃ l ∈ ls, ∃ n, l.instruction = .function name n

theorem declarable_iff {name : String} : Declarable name ↔ EntryWord name ∧ Identifier name := by
  rw [← isProcedure_iff_entryWord]
  constructor
  · rintro ⟨u, ls, hread, l, hl, n, hi⟩
    have hreadable := SourceUnit.mem_lines_readable hread hl
    rw [hi] at hreadable
    exact hreadable.1
  · intro h
    have hreadable : (Instruction.function name 0).Readable := ⟨h, Nat.zero_le _⟩
    have hread := read_printed (List.forall_mem_singleton.mpr hreadable) ""
    exact ⟨_, _, hread, _, List.mem_cons_self, 0, rfl⟩

/-- A symbol of the assembler without a `$` is an identifier. -/
theorem isSymbolWord_iff {word : String} (hs : '$' ∉ word.toList) : IsSymbolWord word ↔ Identifier word := by
  refine exists_congr fun c => exists_congr fun rest => ?_
  refine and_congr_right fun he => and_congr_right fun _ => forall₂_congr fun d hm => ?_
  have hne : d ≠ '$' := by
    rintro rfl
    exact hs (he ▸ hm)
  simp [hne]

end Name

/-! ## Jumps -/

/-- Of two lines in a row, if the second jumps the first loads a symbol. -/
def LoadsTarget (line next : String) : Prop :=
  next = "0;JMP" → ∃ name, IsSymbolWord name ∧ line = "@" ++ name

def JumpsToSymbols (lines : List String) : Prop :=
  lines.IsChain LoadsTarget

theorem loadsTarget_of_head {line next : String} (h : next.toList.head? ≠ some '0') : LoadsTarget line next := by
  rintro rfl
  exact absurd rfl h

theorem loadsTarget_at {name : String} : LoadsTarget ("@" ++ name) "0;JMP" ↔ IsSymbolWord name := by
  constructor
  · intro h
    obtain ⟨name', hword, he⟩ := h rfl
    obtain rfl := String.append_right_inj _ |>.mp he
    exact hword
  · intro hword _
    exact ⟨name, hword, rfl⟩

theorem jumpsToSymbols_of_notMem {lines : List String} (h : "0;JMP" ∉ lines) : JumpsToSymbols lines := by
  refine List.isChain_iff_forall_rel_of_append_cons_cons.mpr fun line next before after he => ?_
  rintro rfl
  exact absurd (by simp [he]) h

/-- Only a jump is written like one. -/
theorem Statement.text_eq_jump {s : Statement} (h : s.text = "0;JMP") : s = jump .zero .always := by
  have hhead : s.text.toList.head? = some '0' := by rw [h]; rfl
  cases s with
  | comment words => simp [text] at hhead
  | load symbol => simp [text] at hhead
  | loadNumber n => simp [text] at hhead
  | compute t e j =>
    have hread := Assembler.computation_text t e j
    rw [h] at hread
    have hjump : Assembler.computation "0;JMP".toList = .ok (.compute .nowhere .zero .always) := rfl
    rw [hjump] at hread
    cases hread
    rfl
  | label symbol => simp [text] at hhead

namespace Session

def bootstrapCode (s : Session) : List Statement :=
  s.remark "bootstrap" ++ Fragment.setUp ++ Fragment.call s.scope s.options.entry 0 ++ Fragment.halt

/-- The bootstrap asks nothing but the rules that keep symbols apart. -/
theorem bootstrap_reply (s : Session) : s.bootstrap.1 =
    match Name.procedureFault? s.options.entry with
    | some why => .error (.usage (.invalidEntry s.options.entry why))
    | none => .ok s.bootstrapCode := by
  rw [bootstrap]
  cases Name.procedureFault? s.options.entry <;> rfl

theorem bootstrap_eq_ok {s : Session} {code : List Statement} :
    s.bootstrap.1 = .ok code ↔ Name.EntryWord s.options.entry ∧ code = s.bootstrapCode := by
  rw [bootstrap_reply, ← Name.procedureFault?_eq_none_iff]
  cases Name.procedureFault? s.options.entry <;> simp [eq_comm]

theorem bootstrap_eq_error {s : Session} {e : Error} (h : s.bootstrap.1 = .error e) :
    ∃ why, e = .usage (.invalidEntry s.options.entry why) := by
  rw [bootstrap_reply] at h
  split at h
  · cases h
    exact ⟨_, rfl⟩
  · cases h

/-! ## The lines of a bootstrap -/

def beforeEntry (s : Session) : List Statement :=
  s.remark "bootstrap" ++ Fragment.setUp ++ Fragment.saveCaller s.scope 0

theorem text_bootstrapCode (s : Session) : s.bootstrapCode.map Statement.text =
    s.beforeEntry.map Statement.text ++ ("@" ++ s.options.entry) :: "0;JMP" ::
      ["(" ++ s.scope.returnAddress.text ++ ")", "($halt)", "@$halt", "0;JMP"] := by
  rw [bootstrapCode, Fragment.call_eq]
  simp only [beforeEntry, List.map_append, List.append_assoc]
  rfl

/-- The jump to the entry comes first. -/
theorem notMem_beforeEntry (s : Session) : "0;JMP" ∉ s.beforeEntry.map Statement.text := by
  rw [List.mem_map]
  rintro ⟨st, hst, htext⟩
  obtain rfl := Statement.text_eq_jump htext
  simp only [beforeEntry, List.mem_append] at hst
  rcases hst with (hst | hst) | hst
  · cases eq_comment_of_mem_remark hst
  · exact absurd hst (by decide)
  · simp [Fragment.saveCaller, Fragment.pushD, Fragment.pushSymbol, Statement.jump, Statement.assign,
      Statement.loadCell] at hst

/-- Of the jumps only the one to the entry depends on the entry. -/
theorem jumpsToSymbols_bootstrapCode (s : Session) :
    JumpsToSymbols (s.bootstrapCode.map Statement.text) ↔ IsSymbolWord s.options.entry := by
  have hbefore : JumpsToSymbols (s.beforeEntry.map Statement.text ++ ["@" ++ s.options.entry]) := by
    refine jumpsToSymbols_of_notMem fun hm => ?_
    rcases List.mem_append.mp hm with hm | hm
    · exact s.notMem_beforeEntry hm
    · simpa using congrArg (·.toList.head?) (List.mem_singleton.mp hm)
  have hhalt : IsSymbolWord "$halt" := Symbol.isSymbolWord_text (s := .halt) trivial
  have hafter : JumpsToSymbols ["0;JMP", "(" ++ s.scope.returnAddress.text ++ ")", "($halt)", "@$halt", "0;JMP"] :=
    .cons_cons (loadsTarget_of_head (by simp)) <| .cons_cons (loadsTarget_of_head (by decide)) <|
      .cons_cons (loadsTarget_of_head (by decide)) <| .cons_cons (loadsTarget_at.mpr hhalt) (.singleton _)
  rw [text_bootstrapCode, JumpsToSymbols, List.isChain_append_cons_cons, loadsTarget_at]
  exact ⟨fun h => h.2.1, fun h => ⟨hbefore, h, hafter⟩⟩

/-- All lines of a bootstrap belong to the assembler's vocabulary if the entry and the
    procedure at work are procedures of a source. -/
theorem assemblyLine_bootstrapCode {s : Session} (he : Name.IsProcedure s.options.entry)
    (hs : Name.IsProcedure s.scope.procedure) : ∀ line ∈ s.bootstrapCode.map Statement.text, AssemblyLine line := by
  have hsplit : s.bootstrapCode = s.remark "bootstrap" ++
      (Fragment.setUp ++ Fragment.call s.scope s.options.entry 0 ++ Fragment.halt) := by
    simp only [bootstrapCode, List.append_assoc]
  have hsound : ∀ st ∈ Fragment.setUp ++ Fragment.call s.scope s.options.entry 0 ++ Fragment.halt, st.Sound := by
    rw [Statement.sound_append, Statement.sound_append]
    exact ⟨⟨Fragment.sound_setUp, Fragment.sound_call hs he (Nat.zero_le _)⟩, Fragment.sound_halt⟩
  have hplain : (Fragment.setUp ++ Fragment.call s.scope s.options.entry 0 ++ Fragment.halt).filterMap
      Statement.words? = [] := rfl
  intro line hline
  obtain ⟨st, hst, rfl⟩ := List.mem_map.mp hline
  rw [hsplit] at hst
  rcases List.mem_append.mp hst with hst | hst
  · rw [eq_comment_of_mem_remark hst]
    exact .comment (by decide)
  · refine Statement.assemblyLine_text (hsound st hst) fun words hwords => ?_
    rw [List.filterMap_eq_nil_iff.mp hplain st hst] at hwords
    cases hwords

end Session

/-- The bootstrap accepts an entry just if the entry keeps the rules that hold symbols apart,
    and it refuses any other as a use that is not allowed. A source can declare those of the
    accepted entries that are identifiers. For these alone all lines of the bootstrap belong
    to the assembler's vocabulary and all jumps go to symbols, if it stands in a procedure of
    a source or before the first one. -/
theorem bootstrap_accepts_iff (s : Session) :
    ((∃ code, s.bootstrap.1 = .ok code) ↔ Name.EntryWord s.options.entry) ∧
      (∀ e, s.bootstrap.1 = .error e → e.diagnostic.category = "usage" ∧ e.diagnostic.location? = none) ∧
      (Name.Declarable s.options.entry ↔ Name.EntryWord s.options.entry ∧ Name.Identifier s.options.entry) ∧
      (Name.IsProcedure s.scope.procedure → ∀ code, s.bootstrap.1 = .ok code →
        (((∀ line ∈ code.map Statement.text, AssemblyLine line) ∧ JumpsToSymbols (code.map Statement.text)) ↔
          Name.Declarable s.options.entry)) := by
  refine ⟨?_, fun e he => ?_, Name.declarable_iff, fun hs code hcode => ?_⟩
  · simp [Session.bootstrap_eq_ok]
  · obtain ⟨why, rfl⟩ := Session.bootstrap_eq_error he
    exact ⟨rfl, rfl⟩
  · obtain ⟨hword, rfl⟩ := Session.bootstrap_eq_ok.mp hcode
    rw [s.jumpsToSymbols_bootstrapCode, Name.isSymbolWord_iff hword.notScoped, Name.declarable_iff]
    constructor
    · rintro ⟨-, hi⟩
      exact ⟨hword, hi⟩
    · rintro ⟨-, hi⟩
      exact ⟨Session.assemblyLine_bootstrapCode (Name.isProcedure_iff_entryWord.mpr ⟨hword, hi⟩) hs, hi⟩

/-- A register in another spelling is refused; an entry that a source can declare is called
    by a symbol; and a number is accepted though no source can declare it. -/
theorem bootstrap_accepts_iff_apart :
    (¬ ∃ code, (({ options := { entry := "R+15" } } : Session).bootstrap).1 = .ok code) ∧
      (∃ code, (({} : Session).bootstrap).1 = .ok code ∧ (∀ line ∈ code.map Statement.text, AssemblyLine line) ∧
        JumpsToSymbols (code.map Statement.text)) ∧
      (∃ code, (({ options := { entry := "16" } } : Session).bootstrap).1 = .ok code) ∧ ¬ Name.Declarable "16" := by
  obtain ⟨hregister, -, -, -⟩ := bootstrap_accepts_iff { options := { entry := "R+15" } }
  obtain ⟨hdefault, -, hdeclarable, hlines⟩ := bootstrap_accepts_iff {}
  obtain ⟨hnumber, -, hundeclarable, -⟩ := bootstrap_accepts_iff { options := { entry := "16" } }
  have hsixteen : Name.procedureFault? "16" = none := by decide
  refine ⟨fun h => ?_, ?_, hnumber.mpr (Name.procedureFault?_eq_none_iff.mp hsixteen), fun h => ?_⟩
  · have hword : Name.EntryWord "R+15" := hregister.mp h
    have hspelled : "R+15".toList = 'R' :: '+' :: ['1', '5'] := by decide
    have hdigits : Text.Digits ['1', '5'] := Text.isNumeral_iff.mp (by decide)
    exact absurd (hword.notRegister _ hdigits (.inr hspelled)) (by decide)
  · have hword : Name.EntryWord "Sys.init" := Name.procedureFault?_eq_none_iff.mp (by decide)
    obtain ⟨code, hcode⟩ := hdefault.mpr hword
    have hname : Name.Declarable "Sys.init" := hdeclarable.mpr ⟨hword, Name.isIdentifier_iff.mp (by decide)⟩
    exact ⟨code, hcode, (hlines Name.isProcedure_null code hcode).mpr hname⟩
  · exact absurd (Name.isIdentifier_iff.mpr (hundeclarable.mp h).2) (by decide)

/-- The entry `123` is accepted, no source can declare it, and the jump goes to the number. -/
theorem entry_undeclarable :
    ∃ code, (({ options := { entry := "123" } } : Session).bootstrap).1 = .ok code ∧
      ["@123", "0;JMP"] <:+: code.map Statement.text ∧ ¬ Name.Declarable "123" := by
  refine ⟨_, rfl, by decide +kernel, fun h => ?_⟩
  exact absurd (Name.isIdentifier_iff.mpr (Name.declarable_iff.mp h).2) (by decide)

end StackToHack
