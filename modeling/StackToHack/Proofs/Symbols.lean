/-
  StackToHack.Proofs.Symbols — which symbols the code of a program defines.

  Which symbols the code of an instruction defines depends on its scope. Over a program
  the scopes number the comparisons, and the calls of each procedure, without a repeat,
  so the symbols that are made are apart as long as the names of the source are. The
  sentinel `null` is the exception: it owns the code before the first procedure and may
  be declared, and then what it owns lies in two places.
  - `made_of_mem_symbols`: what a symbol of the program says about the source.
  - `nodup_symbols`: where no declared procedure is the one at work at the start, names
    that do not repeat give symbols that do not repeat.
  - `nodup_bootAddress_append_iff`: the start of a program is such a place, unless the
    code before the first procedure and a procedure `null` share a symbol, `Shared`.
-/

import Mathlib.Data.List.Basic
import Mathlib.Data.List.TakeWhile
import Mathlib.Order.Defs.PartialOrder
import StackToHack.Proofs.Listing

namespace StackToHack

/-! ## What a source declares -/

namespace Instruction

def isFunction : Instruction → Bool
  | function _ _ => true
  | _ => false

def isCall : Instruction → Bool
  | call _ _ => true
  | _ => false

def isComparison : Instruction → Bool
  | operation (.compare _) => true
  | _ => false

def procedure? : Instruction → Option String
  | function f _ => some f
  | _ => none

def label? : Instruction → Option String
  | label l => some l
  | _ => none

end Instruction

def procedures (is : List Instruction) : List String :=
  is.filterMap Instruction.procedure?

/-- The instructions before the first `function` and behind each one. -/
def stretches (is : List Instruction) : List (List Instruction) :=
  is.splitOnP Instruction.isFunction

def firstStretch (is : List Instruction) : List Instruction :=
  is.takeWhile (!·.isFunction)

def body (procedure : String) (is : List Instruction) : List Instruction :=
  firstStretch ((is.dropWhile fun i => i.procedure? != some procedure).drop 1)

/-- No procedure is declared twice, and no label twice in a stretch. -/
structure DeclaredOnce (is : List Instruction) : Prop where
  procedures : (procedures is).Nodup
  labels : ∀ stretch ∈ stretches is, (stretch.filterMap Instruction.label?).Nodup

/-- The code before the first procedure and the procedure `null` both hold a call, or
    both declare one label. -/
def Shared (options : Options) (is : List Instruction) : Prop :=
  ((options.bootstrap = true ∨ ∃ i ∈ firstStretch is, i.isCall = true) ∧ ∃ i ∈ body "null" is, i.isCall = true) ∨
    ∃ i ∈ firstStretch is, i.label?.isSome ∧ i ∈ body "null" is

instance (options : Options) (is : List Instruction) : Decidable (Shared options is) :=
  inferInstanceAs (Decidable (_ ∨ _))

theorem Instruction.eq_label_of_isSome {i : Instruction} (h : i.label?.isSome) : ∃ l, i = .label l := by
  cases i with
  | label l => exact ⟨l, rfl⟩
  | _ => cases h

theorem mem_procedures_iff {f : String} {is : List Instruction} : f ∈ procedures is ↔ ∃ n, .function f n ∈ is := by
  rw [procedures, List.mem_filterMap]
  constructor
  · rintro ⟨i, hi, he⟩
    cases i with
    | function g n =>
      obtain rfl := Option.some.inj he
      exact ⟨n, hi⟩
    | _ => cases he
  · rintro ⟨n, hm⟩
    exact ⟨_, hm, rfl⟩

theorem procedures_append (first second : List Instruction) :
    procedures (first ++ second) = procedures first ++ procedures second :=
  List.filterMap_append

theorem procedures_function (f : String) (n : Nat) (is : List Instruction) :
    procedures (.function f n :: is) = f :: procedures is := rfl

theorem procedures_cons {i : Instruction} (h : i.isFunction = false) (is : List Instruction) :
    procedures (i :: is) = procedures is := by
  cases i with
  | function f n => cases h
  | _ => rfl

theorem mem_firstStretch_cons {i j : Instruction} {is : List Instruction} (h : i.isFunction = false) :
    j ∈ firstStretch (i :: is) ↔ j = i ∨ j ∈ firstStretch is := by
  rw [firstStretch, List.takeWhile_cons, h]
  exact List.mem_cons

theorem firstStretch_append_function (is : List Instruction) (f : String) (n : Nat) (after : List Instruction) :
    firstStretch (is ++ .function f n :: after) = firstStretch is := by
  induction is with
  | nil => rfl
  | cons i is ih =>
    rw [firstStretch, firstStretch, List.cons_append, List.takeWhile_cons, List.takeWhile_cons]
    split
    · exact congrArg _ ih
    · rfl

namespace DeclaredOnce

theorem left {first second : List Instruction} {f : String} {n : Nat}
    (h : DeclaredOnce (first ++ .function f n :: second)) : DeclaredOnce first := by
  refine ⟨?_, fun stretch hs => h.labels stretch ?_⟩
  · have := h.procedures
    rw [procedures_append] at this
    exact (List.nodup_append.mp this).1
  · rw [stretches, List.splitOnP_append_cons _ _ rfl]
    exact List.mem_append_left _ hs

theorem right {first second : List Instruction} {f : String} {n : Nat}
    (h : DeclaredOnce (first ++ .function f n :: second)) : DeclaredOnce second := by
  refine ⟨?_, fun stretch hs => h.labels stretch ?_⟩
  · have := h.procedures
    rw [procedures_append, procedures_function] at this
    exact (List.nodup_cons.mp (List.nodup_append.mp this).2.1).2
  · rw [stretches, List.splitOnP_append_cons _ _ rfl]
    exact List.mem_append_right _ hs

theorem tail {i : Instruction} {is : List Instruction} (hi : i.isFunction = false) (h : DeclaredOnce (i :: is)) :
    DeclaredOnce is := by
  refine ⟨procedures_cons hi is ▸ h.procedures, fun stretch hs => ?_⟩
  have hl := h.labels
  rw [stretches, List.splitOnP_cons_eq_if_modifyHead, hi] at hl
  cases hsplit : is.splitOnP Instruction.isFunction with
  | nil => exact absurd hsplit (List.splitOnP_ne_nil _ _)
  | cons first rest =>
    rw [stretches, hsplit] at hs
    rw [hsplit] at hl
    rcases List.mem_cons.mp hs with rfl | hs
    · have hnodup := hl (i :: stretch) List.mem_cons_self
      exact ((List.sublist_cons_self i stretch).filterMap _).nodup hnodup
    · exact hl stretch (List.mem_cons_of_mem _ hs)

/-- A label does not come again before the next `function`. -/
theorem label_notMem {l : String} {is : List Instruction} (h : DeclaredOnce (.label l :: is)) :
    .label l ∉ firstStretch is := by
  intro hm
  have hl := h.labels
  rw [stretches, List.splitOnP_cons_eq_if_modifyHead] at hl
  have hfirst : ∀ is : List Instruction, ∃ rest, is.splitOnP Instruction.isFunction = firstStretch is :: rest := by
    intro is
    induction is with
    | nil => exact ⟨[], rfl⟩
    | cons i is ih =>
      obtain ⟨rest, hrest⟩ := ih
      rw [List.splitOnP_cons_eq_if_modifyHead, firstStretch, List.takeWhile_cons]
      cases hi : i.isFunction with
      | true => exact ⟨_, rfl⟩
      | false =>
        rw [hrest]
        exact ⟨rest, rfl⟩
  obtain ⟨rest, hrest⟩ := hfirst is
  rw [hrest] at hl
  have hnodup := hl (.label l :: firstStretch is) List.mem_cons_self
  exact (List.nodup_cons.mp hnodup).1 (List.mem_filterMap.mpr ⟨_, hm, rfl⟩)

end DeclaredOnce

/-- The procedures on both sides of a declaration are others. -/
theorem procedures_apart {first second : List Instruction} {f : String} {n : Nat}
    (h : DeclaredOnce (first ++ .function f n :: second)) :
    f ∉ procedures first ∧ f ∉ procedures second ∧ ∀ g ∈ procedures first, g ∉ procedures second := by
  have hprocs := h.procedures
  rw [procedures_append, procedures_function, List.nodup_append] at hprocs
  obtain ⟨-, hsecond, hdisj⟩ := hprocs
  refine ⟨?_, (List.nodup_cons.mp hsecond).1, ?_⟩
  · intro hm
    exact hdisj f hm f List.mem_cons_self rfl
  · intro g hg hm
    exact hdisj g hg g (List.mem_cons_of_mem _ hm) rfl

/-! ## The symbols of a program -/

def Statement.symbol? : Statement → Option Symbol
  | label s => some s
  | _ => none

/-- The symbols that the code of an instruction defines. -/
def Instruction.symbols (scope : Scope) : Instruction → List Symbol
  | operation (.compare _) => [.holds scope.comparisons, .done scope.comparisons]
  | label l => [scope.label l]
  | function f _ => [.procedure f]
  | call _ _ => [scope.returnAddress]
  | _ => []

namespace Statement

theorem eq_label_of_symbol? {st : Statement} {s : Symbol} (h : st.symbol? = some s) : st = .label s := by
  cases st with
  | label _ => exact congrArg _ (Option.some.inj h)
  | _ => cases h

theorem mem_symbols_iff {code : List Statement} {s : Symbol} : s ∈ code.filterMap symbol? ↔ .label s ∈ code := by
  refine ⟨fun h => ?_, fun h => List.mem_filterMap.mpr ⟨_, h, rfl⟩⟩
  obtain ⟨st, hst, he⟩ := List.mem_filterMap.mp h
  exact eq_label_of_symbol? he ▸ hst

end Statement

theorem Fragment.symbol?_pushCell (c : Cell) : (pushCell c).filterMap Statement.symbol? = [] := by
  cases c <;> rfl

theorem Fragment.symbol?_popCell (c : Cell) : (popCell c).filterMap Statement.symbol? = [] := by
  cases c <;> rfl

theorem Fragment.symbol?_function (f : String) (n : Nat) :
    (function f n).filterMap Statement.symbol? = [.procedure f] := by
  have h : ∀ n : Nat, (List.replicate n pushZero).flatten.filterMap Statement.symbol? = [] := by
    intro n
    induction n with
    | zero => rfl
    | succ n ih =>
      rw [List.replicate_succ, List.flatten_cons, List.filterMap_append, ih]
      rfl
  exact congrArg (Symbol.procedure f :: ·) (h n)

namespace Instruction

theorem symbol?_code {scope : Scope} {i : Instruction} {code : List Statement} (h : i.code scope = .ok code) :
    code.filterMap Statement.symbol? = i.symbols scope := by
  cases i with
  | operation o =>
    cases h
    rcases o with u | b | c <;> rfl
  | push segment index =>
    rcases Fragment.push_ok h with ⟨-, -, rfl⟩ | ⟨c, -, rfl⟩
    · rfl
    · exact Fragment.symbol?_pushCell c
  | pop segment index =>
    obtain ⟨c, -, rfl⟩ := Fragment.pop_ok h
    exact Fragment.symbol?_popCell c
  | label l | goto l | ifGoto l =>
    obtain ⟨-, rfl⟩ := named_ok h
    rfl
  | function f n =>
    obtain ⟨-, rfl⟩ := named_ok h
    exact Fragment.symbol?_function f n
  | call f n =>
    obtain ⟨-, rfl⟩ := named_ok h
    rfl
  | ret =>
    cases h
    rfl

/-- What an instruction other than `function` does to a scope. -/
theorem after_mono {i : Instruction} (h : i.isFunction = false) (scope : Scope) :
    (i.after scope).procedure = scope.procedure ∧ scope.calls ≤ (i.after scope).calls := by
  cases i with
  | operation o => rcases o with u | b | c <;> exact ⟨rfl, Nat.le_refl _⟩
  | function f n => cases h
  | call f n => exact ⟨rfl, Nat.le_succ _⟩
  | _ => exact ⟨rfl, Nat.le_refl _⟩

theorem comparisons_after (i : Instruction) (scope : Scope) : scope.comparisons ≤ (i.after scope).comparisons := by
  cases i with
  | operation o =>
    rcases o with u | b | c
    · exact Nat.le_refl _
    · exact Nat.le_refl _
    · exact Nat.le_succ _
  | _ => exact Nat.le_refl _

end Instruction

theorem getLast?_procedures_cons (scope : Scope) (i : Instruction) (is : List Instruction) :
    (procedures (i :: is)).getLast?.getD scope.procedure = (procedures is).getLast?.getD (i.after scope).procedure := by
  cases hi : i.isFunction with
  | false => rw [procedures_cons hi, (Instruction.after_mono hi scope).1]
  | true =>
    cases i with
    | function f n =>
      rw [procedures_function, List.getLast?_cons]
      rfl
    | _ => cases hi

namespace Scope

/-- The procedure behind instructions is the last that they declare. -/
theorem procedure_behind (scope : Scope) (is : List Instruction) :
    (scope.behind is).procedure = (procedures is).getLast?.getD scope.procedure := by
  induction is generalizing scope with
  | nil => rfl
  | cons i is ih =>
    rw [getLast?_procedures_cons, ← ih]
    rfl

def symbols (scope : Scope) : List Instruction → List Symbol
  | [] => []
  | i :: is => i.symbols scope ++ (i.after scope).symbols is

theorem symbols_append (scope : Scope) (first second : List Instruction) :
    scope.symbols (first ++ second) = scope.symbols first ++ (scope.behind first).symbols second := by
  induction first generalizing scope with
  | nil => rfl
  | cons i first ih => rw [List.cons_append, symbols, symbols, ih, List.append_assoc, behind, behind, List.foldl_cons]

theorem comparisons_behind (scope : Scope) (is : List Instruction) :
    scope.comparisons ≤ (scope.behind is).comparisons := by
  induction is generalizing scope with
  | nil => exact Nat.le_refl _
  | cons i is ih => exact (i.comparisons_after scope).trans (ih _)

theorem after_inUnit (scope : Scope) (unit : String) (i : Instruction) :
    i.after (scope.inUnit unit) = (i.after scope).inUnit unit := by
  cases i with
  | operation o => rcases o with u | b | c <;> rfl
  | _ => rfl

theorem symbols_inUnit (scope : Scope) (unit : String) (is : List Instruction) :
    (scope.inUnit unit).symbols is = scope.symbols is := by
  induction is generalizing scope with
  | nil => rfl
  | cons i is ih =>
    rw [symbols, symbols, after_inUnit, ih]
    cases i with
    | operation o => rcases o with u | b | c <;> rfl
    | _ => rfl

/-! ## What a symbol says -/

/-- What the source says of a symbol that the code of instructions defines: comparisons
    have numbers of this code, and scoped symbols belong to the procedure at work or to
    one that is declared here. -/
def Made (scope : Scope) (is : List Instruction) : Symbol → Prop
  | .holds n => scope.comparisons ≤ n ∧ n < (scope.behind is).comparisons
  | .done n => scope.comparisons ≤ n ∧ n < (scope.behind is).comparisons
  | .procedure f => f ∈ procedures is
  | .label p l => .label l ∈ is ∧ (p = scope.procedure ∧ .label l ∈ firstStretch is ∨ p ∈ procedures is)
  | .returnAddress p n =>
    p = scope.procedure ∧ scope.calls ≤ n ∧ (∃ i ∈ firstStretch is, i.isCall = true) ∨ p ∈ procedures is
  | _ => False

theorem made_head {scope : Scope} {i : Instruction} {s : Symbol} (h : s ∈ i.symbols scope) (is : List Instruction) :
    Made scope (i :: is) s := by
  cases i with
  | operation o =>
    rcases o with u | b | c
    · cases h
    · cases h
    · have hb : scope.comparisons < (scope.behind (.operation (.compare c) :: is)).comparisons :=
        comparisons_behind { scope with comparisons := scope.comparisons + 1 } is
      simp only [Instruction.symbols, List.mem_cons, List.not_mem_nil, or_false] at h
      rcases h with rfl | rfl <;> exact ⟨Nat.le_refl _, hb⟩
  | label l =>
    obtain rfl := List.mem_singleton.mp h
    exact ⟨List.mem_cons_self, .inl ⟨rfl, List.mem_cons_self⟩⟩
  | function f n =>
    obtain rfl := List.mem_singleton.mp h
    exact List.mem_cons_self
  | call f n =>
    obtain rfl := List.mem_singleton.mp h
    exact .inl ⟨rfl, Nat.le_refl _, _, List.mem_cons_self, rfl⟩
  | push _ _ | pop _ _ | goto _ | ifGoto _ | ret => cases h

theorem made_tail {scope : Scope} {i : Instruction} {is : List Instruction} {s : Symbol}
    (h : Made (i.after scope) is s) : Made scope (i :: is) s := by
  have hc := i.comparisons_after scope
  cases hi : i.isFunction with
  | false =>
    obtain ⟨hp, hn⟩ := Instruction.after_mono hi scope
    have hprocs := procedures_cons hi is
    cases s with
    | holds n | done n => exact ⟨hc.trans h.1, h.2⟩
    | procedure f =>
      show f ∈ procedures (i :: is)
      rw [hprocs]
      exact h
    | label p l =>
      obtain ⟨hm, h⟩ := h
      refine ⟨List.mem_cons_of_mem _ hm, ?_⟩
      rw [hprocs, mem_firstStretch_cons hi]
      exact h.imp (fun h => ⟨h.1.trans hp, .inr h.2⟩) id
    | returnAddress p n =>
      rw [Made, hprocs]
      rcases h with ⟨h, hle, j, hj, hcall⟩ | h
      · exact .inl ⟨h.trans hp, hn.trans hle, j, (mem_firstStretch_cons hi).mpr (.inr hj), hcall⟩
      · exact .inr h
    | predefined _ | halt | static _ _ => exact h
  | true =>
    cases i with
    | function f k =>
      cases s with
      | holds n | done n => exact ⟨hc.trans h.1, h.2⟩
      | procedure g => exact List.mem_cons_of_mem _ h
      | label p l =>
        refine ⟨List.mem_cons_of_mem _ h.1, .inr ?_⟩
        rcases h.2 with ⟨rfl, -⟩ | h
        · exact List.mem_cons_self
        · exact List.mem_cons_of_mem _ h
      | returnAddress p n =>
        refine .inr ?_
        rcases h with ⟨rfl, -⟩ | h
        · exact List.mem_cons_self
        · exact List.mem_cons_of_mem _ h
      | predefined _ | halt | static _ _ => exact h
    | _ => cases hi

theorem made_of_mem_symbols {scope : Scope} {is : List Instruction} {s : Symbol} (h : s ∈ scope.symbols is) :
    Made scope is s := by
  induction is generalizing scope with
  | nil => cases h
  | cons i is ih =>
    rcases List.mem_append.mp h with h | h
    · exact made_head h is
    · exact made_tail (ih h)

theorem label_mem_symbols (scope : Scope) {is : List Instruction} {l : String} (h : .label l ∈ firstStretch is) :
    .label scope.procedure l ∈ scope.symbols is := by
  induction is generalizing scope with
  | nil => cases h
  | cons i is ih =>
    cases hi : i.isFunction with
    | true =>
      rw [firstStretch, List.takeWhile_cons, hi] at h
      cases h
    | false =>
      rcases (mem_firstStretch_cons hi).mp h with rfl | h
      · exact List.mem_append_left _ List.mem_cons_self
      · rw [← (Instruction.after_mono hi scope).1]
        exact List.mem_append_right _ (ih _ h)

theorem returnAddress_mem_symbols (scope : Scope) {is : List Instruction} {i : Instruction}
    (h : i ∈ firstStretch is) (hcall : i.isCall = true) : scope.returnAddress ∈ scope.symbols is := by
  induction is generalizing scope with
  | nil => cases h
  | cons j is ih =>
    cases j with
    | call f n => exact List.mem_append_left _ List.mem_cons_self
    | function f n => cases h
    | operation o =>
      rcases (mem_firstStretch_cons rfl).mp h with rfl | hm
      · cases hcall
      · rcases o with u | b | c <;> exact List.mem_append_right _ (ih _ hm)
    | push _ _ | pop _ _ | label _ | goto _ | ifGoto _ | ret =>
      rcases (mem_firstStretch_cons rfl).mp h with rfl | h
      · cases hcall
      · exact List.mem_append_right _ (ih _ h)

/-! ## Symbols do not repeat -/

theorem nodup_symbols {scope : Scope} {is : List Instruction} (h : DeclaredOnce is)
    (hs : scope.procedure ∉ procedures is) : (scope.symbols is).Nodup := by
  induction is generalizing scope with
  | nil => exact List.nodup_nil
  | cons i is ih =>
    have made : ∀ s ∈ (i.after scope).symbols is, Made (i.after scope) is s := fun s hm => made_of_mem_symbols hm
    cases i with
    | function f n =>
      obtain ⟨hf, -⟩ := List.nodup_cons.mp h.procedures
      refine List.nodup_cons.mpr ⟨fun hm => hf (made _ hm), ih (@DeclaredOnce.right [] is f n h) hf⟩
    | operation o =>
      have hrest := @ih ((Instruction.operation o).after scope) (h.tail rfl) (by rcases o with u | b | c <;> exact hs)
      rcases o with u | b | c
      · exact hrest
      · exact hrest
      · have hfresh : ∀ s ∈ ({ scope with comparisons := scope.comparisons + 1 } : Scope).symbols is,
            s ≠ .holds scope.comparisons ∧ s ≠ .done scope.comparisons := by
          intro s hm
          have := made s hm
          constructor <;>
          · rintro rfl
            exact absurd this.1 (Nat.not_succ_le_self _)
        refine List.nodup_cons.mpr ⟨?_, List.nodup_cons.mpr ⟨fun hm => (hfresh _ hm).2 rfl, hrest⟩⟩
        intro hm
        rcases List.mem_cons.mp hm with hm | hm
        · cases hm
        · exact (hfresh _ hm).1 rfl
    | label l =>
      refine List.nodup_cons.mpr ⟨fun hm => ?_, ih (h.tail rfl) hs⟩
      rcases (made _ hm).2 with ⟨-, hl⟩ | hp
      · exact h.label_notMem hl
      · exact hs hp
    | call f n =>
      refine List.nodup_cons.mpr ⟨fun hm => ?_, ih (h.tail rfl) hs⟩
      rcases made _ hm with ⟨-, hle, -⟩ | hp
      · exact Nat.not_succ_le_self _ hle
      · exact hs hp
    | push _ _ | pop _ _ | goto _ | ifGoto _ | ret => exact ih (h.tail rfl) hs

end Scope

/-! ## The sentinel -/

theorem body_of_notMem {f : String} {is : List Instruction} (h : f ∉ procedures is) : body f is = [] := by
  have hd : is.dropWhile (fun i => i.procedure? != some f) = [] := by
    rw [List.dropWhile_eq_nil_iff]
    intro i hi
    rw [bne_iff_ne]
    intro he
    exact h (List.mem_filterMap.mpr ⟨i, hi, he⟩)
  rw [body, hd]
  rfl

theorem not_shared_of_notMem (options : Options) {is : List Instruction} (h : "null" ∉ procedures is) :
    ¬ Shared options is := by
  rw [Shared, body_of_notMem h]
  rintro (⟨-, i, hi, -⟩ | ⟨i, -, -, hi⟩) <;> cases hi

theorem body_append {f : String} {before : List Instruction} (h : f ∉ procedures before) (n : Nat)
    (after : List Instruction) : body f (before ++ .function f n :: after) = firstStretch after := by
  have hp : ∀ i ∈ before, (i.procedure? != some f) = true := by
    intro i hi
    rw [bne_iff_ne]
    intro he
    exact h (List.mem_filterMap.mpr ⟨i, hi, he⟩)
  rw [body, List.dropWhile_append_of_pos hp, List.dropWhile_cons]
  simp [Instruction.procedure?]

/-- The code before the declaration of a procedure and behind it. -/
theorem append_of_mem_procedures {f : String} {is : List Instruction} (h : f ∈ procedures is) :
    ∃ before n after, is = before ++ .function f n :: after := by
  obtain ⟨n, hm⟩ := mem_procedures_iff.mp h
  obtain ⟨before, after, rfl⟩ := List.append_of_mem hm
  exact ⟨before, n, after, rfl⟩

namespace Options

def bootAddress (options : Options) : List Symbol :=
  if options.bootstrap then [.returnAddress "null" 0] else []

theorem startScope_procedure (options : Options) : options.startScope.procedure = "null" := by
  unfold startScope
  split <;> rfl

theorem mem_bootAddress {options : Options} {s : Symbol} (h : s ∈ options.bootAddress) :
    s = .returnAddress "null" 0 ∧ options.bootstrap = true ∧ options.startScope.calls = 1 := by
  unfold bootAddress at h
  split at h
  · rename_i hb
    refine ⟨List.mem_singleton.mp h, hb, ?_⟩
    rw [startScope, if_pos hb]
    rfl
  · cases h

theorem nodup_bootAddress_append {options : Options} {is : List Instruction} (h : DeclaredOnce is)
    (hs : "null" ∉ procedures is) : (options.bootAddress ++ options.startScope.symbols is).Nodup := by
  rw [List.nodup_append]
  refine ⟨?_, Scope.nodup_symbols h (by rwa [startScope_procedure]), ?_⟩
  · unfold bootAddress
    split
    · exact List.nodup_cons.mpr ⟨List.not_mem_nil, List.nodup_nil⟩
    · exact List.nodup_nil
  · rintro s hb _ hm rfl
    obtain ⟨rfl, -, hcalls⟩ := mem_bootAddress hb
    rcases Scope.made_of_mem_symbols hm with ⟨-, hle, -⟩ | hp
    · omega
    · exact hs hp

section Sentinel

variable {options : Options} {before after : List Instruction} {n : Nat}

/-- The scope in which the code of a procedure `null` is made. -/
def sentinelScope (options : Options) (before : List Instruction) : Scope :=
  (Instruction.function "null" 0).after (options.startScope.behind before)

theorem symbols_sentinel : options.startScope.symbols (before ++ .function "null" n :: after) =
    options.startScope.symbols before ++ .procedure "null" :: (options.sentinelScope before).symbols after := by
  rw [Scope.symbols_append, Scope.symbols]
  rfl

/-- The first return address of the sentinel is made for the bootstrap or for the first
    call before any procedure. -/
theorem returnAddress_mem_start {is : List Instruction}
    (h : options.bootstrap = true ∨ ∃ i ∈ firstStretch is, i.isCall = true) :
    .returnAddress "null" 0 ∈ options.bootAddress ++ options.startScope.symbols is := by
  by_cases hb : options.bootstrap = true
  · refine List.mem_append_left _ ?_
    rw [bootAddress, if_pos hb]
    exact List.mem_cons_self
  · obtain ⟨i, hi, hcall⟩ := h.resolve_left hb
    have hm := Scope.returnAddress_mem_symbols options.startScope hi hcall
    rw [Scope.returnAddress, startScope_procedure] at hm
    have hcalls : options.startScope.calls = 0 := by
      rw [startScope, if_neg hb]
    rw [hcalls] at hm
    exact List.mem_append_right _ hm

theorem exists_mem_of_shared (hn : "null" ∉ procedures before)
    (h : Shared options (before ++ .function "null" n :: after)) :
    ∃ s ∈ options.bootAddress ++ options.startScope.symbols before, s ∈ (options.sentinelScope before).symbols after := by
  rw [Shared, body_append hn, firstStretch_append_function] at h
  rcases h with ⟨hcall, i, hi, hic⟩ | ⟨i, hi, hlabel, hi'⟩
  · exact ⟨_, returnAddress_mem_start hcall, Scope.returnAddress_mem_symbols _ hi hic⟩
  · obtain ⟨l, rfl⟩ := Instruction.eq_label_of_isSome hlabel
    have hfirst := Scope.label_mem_symbols options.startScope hi
    rw [startScope_procedure] at hfirst
    exact ⟨_, List.mem_append_right _ hfirst, Scope.label_mem_symbols (options.sentinelScope before) hi'⟩

theorem shared_of_mem (h : DeclaredOnce (before ++ .function "null" n :: after)) {s : Symbol}
    (hfirst : s ∈ options.bootAddress ++ options.startScope.symbols before)
    (hlast : s ∈ (options.sentinelScope before).symbols after) :
    Shared options (before ++ .function "null" n :: after) := by
  obtain ⟨hbefore, hafter, hapart⟩ := procedures_apart h
  have hstart := options.startScope_procedure
  have hmade' := Scope.made_of_mem_symbols hlast
  rw [Shared, body_append hbefore, firstStretch_append_function]
  rcases List.mem_append.mp hfirst with hboot | hfirst
  · obtain ⟨rfl, hb, -⟩ := mem_bootAddress hboot
    rcases hmade' with ⟨-, -, hcall⟩ | hm
    · exact .inl ⟨.inl hb, hcall⟩
    · exact absurd hm hafter
  have hmade := Scope.made_of_mem_symbols hfirst
  cases s with
  | holds k | done k => exact absurd hmade'.1 (Nat.not_le_of_lt hmade.2)
  | procedure f => exact absurd hmade' (hapart f hmade)
  | label p l =>
    rcases hmade.2 with ⟨rfl, hl⟩ | hm
    · rcases hmade'.2 with ⟨-, hl'⟩ | hm'
      · exact .inr ⟨_, hl, rfl, hl'⟩
      · exact absurd (hstart ▸ hm') hafter
    · rcases hmade'.2 with ⟨rfl, -⟩ | hm'
      · exact absurd hm hbefore
      · exact absurd hm' (hapart p hm)
  | returnAddress p k =>
    rcases hmade with ⟨rfl, -, hcall⟩ | hm
    · rcases hmade' with ⟨-, -, hcall'⟩ | hm'
      · exact .inl ⟨.inr hcall, hcall'⟩
      · exact absurd (hstart ▸ hm') hafter
    · rcases hmade' with ⟨rfl, -⟩ | hm'
      · exact absurd hm hbefore
      · exact absurd hm' (hapart p hm)
  | predefined _ | halt | static _ _ => exact hmade.elim

end Sentinel

/-- The symbols at the start do not repeat, unless a procedure `null` shares one. -/
theorem nodup_bootAddress_append_iff {options : Options} {is : List Instruction} (h : DeclaredOnce is) :
    (options.bootAddress ++ options.startScope.symbols is).Nodup ↔ ¬ Shared options is := by
  by_cases hnull : "null" ∈ procedures is
  · obtain ⟨before, n, after, rfl⟩ := append_of_mem_procedures hnull
    obtain ⟨hbefore, hafter, -⟩ := procedures_apart h
    rw [symbols_sentinel, ← List.append_assoc, List.nodup_append]
    constructor
    · rintro ⟨-, -, hapart⟩ hshared
      obtain ⟨s, hfirst, hlast⟩ := exists_mem_of_shared hbefore hshared
      exact hapart s hfirst s (List.mem_cons_of_mem _ hlast) rfl
    · intro hshared
      refine ⟨nodup_bootAddress_append h.left hbefore, ?_, ?_⟩
      · exact List.nodup_cons.mpr ⟨fun hm => hafter (Scope.made_of_mem_symbols hm), Scope.nodup_symbols h.right hafter⟩
      · rintro s hfirst _ hlast rfl
        rcases List.mem_cons.mp hlast with rfl | hlast
        · rcases List.mem_append.mp hfirst with hfirst | hfirst
          · cases (mem_bootAddress hfirst).1
          · exact hbefore (Scope.made_of_mem_symbols hfirst)
        · exact hshared (shared_of_mem h hfirst hlast)
  · exact iff_of_true (nodup_bootAddress_append h hnull) (not_shared_of_notMem options hnull)

end Options

end StackToHack
