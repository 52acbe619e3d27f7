/-
  StackToHack.Proofs.Collisions — which lines two units of a program both write.

  The scope runs through all units, so what stands before a unit's first `function` belongs
  to the procedure in which the units before it ended, or to `null`. A unit reaches the
  names of another one only there: of two units that declare no procedure in common, both
  define a symbol only if one of them declares a label or makes a call before its first
  `function`, `Carries`.
  - `label_mem_symbols_iff`: the labels that instructions define are those they declare,
    each for the procedure that owns it.
  - `count_returnAddress_le`: a procedure that is declared once has each return address
    once, in however many units its code goes on.
  - `shared_lines_of_units`: the lines `(name)` that two units both write.
  - `label_line_of_both`: two units that declare one label and nothing else.
-/

import StackToHack.Proofs.Units

namespace StackToHack

/-! ## Owners -/

def currentProcedure (is : List Instruction) : String :=
  (procedures is).getLast?.getD "null"

/-- Instructions with the procedures that they belong to; `procedure` owns those before the
    first `function`. -/
def owned (procedure : String) : List Instruction → List (String × Instruction)
  | [] => []
  | i :: is => (i.procedure?.getD procedure, i) :: owned (i.procedure?.getD procedure) is

def SourceUnit.owned (u : SourceUnit) (before : List SourceUnit) : List (String × Instruction) :=
  StackToHack.owned (currentProcedure (StackToHack.instructions before)) u.instructions

/-- A label or a call stands before the first `function`. -/
def Carries (is : List Instruction) : Prop :=
  ∃ i ∈ firstStretch is, i.isCall = true ∨ i.label?.isSome

instance (is : List Instruction) : Decidable (Carries is) :=
  inferInstanceAs (Decidable (∃ i ∈ firstStretch is, i.isCall = true ∨ i.label?.isSome))

namespace Scope

theorem procedure_after (scope : Scope) (i : Instruction) :
    (i.after scope).procedure = i.procedure?.getD scope.procedure := by
  cases i with
  | operation o => rcases o with u | b | c <;> rfl
  | _ => rfl

theorem label_mem_symbols_iff {scope : Scope} {is : List Instruction} {p l : String} :
    .label p l ∈ scope.symbols is ↔ (p, .label l) ∈ owned scope.procedure is := by
  induction is generalizing scope with
  | nil => simp [symbols, owned]
  | cons i is ih =>
    rw [symbols, owned, List.mem_append, ih, procedure_after, List.mem_cons]
    refine or_congr ?_ Iff.rfl
    cases i with
    | operation o => rcases o with u | b | c <;> simp [Instruction.symbols]
    | label l' => simp [Instruction.symbols, Scope.label, Instruction.procedure?]
    | _ => simp [Instruction.symbols, returnAddress]

/-! ## Return addresses -/

/-- The number of a procedure's calls starts anew only where the procedure is declared. -/
theorem count_returnAddress_le {scope : Scope} {is : List Instruction} {p : String}
    (h : (procedures is).count p + (if scope.procedure = p then 1 else 0) ≤ 1) (n : Nat) :
    (scope.symbols is).count (.returnAddress p n) ≤ 1 := by
  induction is generalizing scope with
  | nil => simp [symbols]
  | cons i is ih =>
    cases i with
    | function f k =>
      rw [procedures_function, List.count_cons] at h
      have hrest : (procedures is).count p + (if f = p then 1 else 0) ≤ 1 := by
        simp only [beq_iff_eq] at h
        omega
      rw [symbols, List.count_append]
      simpa [Instruction.symbols] using @ih ((Instruction.function f k).after scope) hrest
    | call f k =>
      have hrest := @ih ((Instruction.call f k).after scope) h
      rw [symbols, List.count_append]
      by_cases he : scope.returnAddress = .returnAddress p n
      · obtain ⟨rfl, rfl⟩ : scope.procedure = p ∧ scope.calls = n := Symbol.returnAddress.inj he
        -- the calls behind this one have larger numbers
        have hnew : Symbol.returnAddress scope.procedure scope.calls ∉
            ((Instruction.call f k).after scope).symbols is := by
          intro hm
          rcases made_of_mem_symbols hm with ⟨-, hle, -⟩ | hp
          · exact Nat.not_succ_le_self _ hle
          · have := List.count_pos_iff.mpr hp
            rw [if_pos rfl, procedures_cons rfl] at h
            omega
        rw [List.count_eq_zero.mpr hnew, Instruction.symbols, he, List.count_singleton_self]
      · have hhead : ((Instruction.call f k).symbols scope).count (.returnAddress p n) = 0 := by
          rw [List.count_eq_zero]
          intro hm
          exact he (List.mem_singleton.mp hm).symm
        omega
    | operation o =>
      have hrest := @ih ((Instruction.operation o).after scope) (by rcases o with u | b | c <;> exact h)
      rw [symbols, List.count_append]
      rcases o with u | b | c <;> simpa [Instruction.symbols] using hrest
    | push _ _ | pop _ _ | label _ | goto _ | ifGoto _ | ret =>
      have hrest := @ih scope h
      rw [symbols, List.count_append]
      simpa [Instruction.symbols, Instruction.after, Scope.label] using hrest

/-! ## Symbols of two stretches -/

/-- Instructions that declare other procedures meet only in what one of them carries. -/
theorem carries_of_shared {scope scope' : Scope} {a b : List Instruction} {s : Symbol}
    (hapart : ∀ f ∈ procedures a, f ∉ procedures b) (ha : s ∈ scope.symbols a) (hb : s ∈ scope'.symbols b)
    (hle : (scope.behind a).comparisons ≤ scope'.comparisons) :
    (Carries a ∨ Carries b) ∧ ((∃ p l, s = .label p l) ∨ ∃ p n, s = .returnAddress p n) := by
  have hmade := made_of_mem_symbols ha
  have hmade' := made_of_mem_symbols hb
  cases s with
  | holds n | done n =>
    have := hmade.2
    have := hmade'.1
    omega
  | procedure f => exact absurd hmade' (hapart f hmade)
  | label p l =>
    refine ⟨?_, .inl ⟨p, l, rfl⟩⟩
    rcases hmade.2 with ⟨-, hl⟩ | hp
    · exact .inl ⟨_, hl, .inr rfl⟩
    · rcases hmade'.2 with ⟨-, hl⟩ | hp'
      · exact .inr ⟨_, hl, .inr rfl⟩
      · exact absurd hp' (hapart p hp)
  | returnAddress p n =>
    refine ⟨?_, .inr ⟨p, n, rfl⟩⟩
    rcases hmade with ⟨-, -, i, hi, hc⟩ | hp
    · exact .inl ⟨i, hi, .inl hc⟩
    · rcases hmade' with ⟨-, -, i, hi, hc⟩ | hp'
      · exact .inr ⟨i, hi, .inl hc⟩
      · exact absurd hp' (hapart p hp)
  | predefined _ | halt | static _ _ => cases hmade

end Scope

/-! ## Two units of a program -/

theorem scopeBehind_procedure (options : Options) (before : List SourceUnit) :
    (options.scopeBehind before).procedure = currentProcedure (instructions before) := by
  rw [Options.scopeBehind, Scope.procedure_behind, Options.startScope_procedure, currentProcedure]

section Units

variable {options : Options} {units : List SourceUnit} {i j : Nat} {first second u : SourceUnit} {s : Symbol}

theorem instructions_eq_of_getElem? (h : units[i]? = some u) :
    ∃ rest, instructions units = instructions (units.take i) ++ (u.instructions ++ rest) := by
  obtain ⟨hi, rfl⟩ := List.getElem?_eq_some_iff.mp h
  refine ⟨instructions (units.drop (i + 1)), ?_⟩
  rw [← instructions_cons, ← instructions_append, List.getElem_cons_drop, List.take_append_drop]

/-- What stands before a unit, taken apart at a unit before it. -/
theorem instructions_take_of_lt (hij : i < j) (h : units[i]? = some u) :
    ∃ mid, instructions (units.take j) = instructions (units.take i) ++ (u.instructions ++ mid) := by
  obtain ⟨mid, hmid⟩ := @instructions_eq_of_getElem? (units.take j) i u (by rwa [List.getElem?_take_of_lt hij])
  rw [List.take_take, Nat.min_eq_left (Nat.le_of_lt hij)] at hmid
  exact ⟨mid, hmid⟩

/-- A procedure that goes on in several units has each return address in one of them,
    unless it is declared again. -/
theorem declared_again (hij : i < j) (hi : units[i]? = some first) (hj : units[j]? = some second) {p : String} {n : Nat}
    (ha : .returnAddress p n ∈ (options.scopeBehind (units.take i)).symbols first.instructions)
    (hb : .returnAddress p n ∈ (options.scopeBehind (units.take j)).symbols second.instructions) :
    2 ≤ (procedures (instructions units)).count p ∨ p = "null" ∧ "null" ∈ procedures (instructions units) := by
  obtain ⟨mid, hmid⟩ := instructions_take_of_lt hij hi
  obtain ⟨rest, hrest⟩ := instructions_eq_of_getElem? hj
  have htwice : 2 ≤ (options.startScope.symbols (instructions units)).count (.returnAddress p n) := by
    rw [hrest, Scope.symbols_append, List.count_append, Scope.symbols_append, List.count_append]
    have hsecond := List.count_pos_iff.mpr hb
    have hfirst : 0 < (options.startScope.symbols (instructions (units.take j))).count (.returnAddress p n) := by
      rw [hmid, Scope.symbols_append, Scope.symbols_append]
      exact List.count_pos_iff.mpr (List.mem_append_right _ (List.mem_append_left _ ha))
    rw [Options.scopeBehind] at hsecond
    omega
  by_contra hno
  rw [not_or] at hno
  have honce : (procedures (instructions units)).count p + (if options.startScope.procedure = p then 1 else 0) ≤ 1 := by
    rw [options.startScope_procedure]
    by_cases hp : "null" = p
    · subst hp
      have : (procedures (instructions units)).count "null" = 0 := List.count_eq_zero.mpr fun hm => hno.2 ⟨rfl, hm⟩
      rw [if_pos rfl]
      omega
    · rw [if_neg hp]
      omega
  have := Scope.count_returnAddress_le honce n
  omega

structure SharedSymbol (units : List SourceUnit) (first second : SourceUnit) (s : Symbol) : Prop where
  carries : Carries first.instructions ∨ Carries second.instructions
  kind : (∃ p l, s = .label p l) ∨ ∃ p n, s = .returnAddress p n ∧
    (2 ≤ (procedures (instructions units)).count p ∨ p = "null" ∧ "null" ∈ procedures (instructions units))

theorem sharedSymbol_of_lt (hij : i < j) (hi : units[i]? = some first) (hj : units[j]? = some second)
    (hapart : ∀ f ∈ procedures first.instructions, f ∉ procedures second.instructions)
    (ha : s ∈ (options.scopeBehind (units.take i)).symbols first.instructions)
    (hb : s ∈ (options.scopeBehind (units.take j)).symbols second.instructions) :
    SharedSymbol units first second s := by
  obtain ⟨mid, hmid⟩ := instructions_take_of_lt hij hi
  have hle : ((options.scopeBehind (units.take i)).behind first.instructions).comparisons ≤
      (options.scopeBehind (units.take j)).comparisons := by
    rw [Options.scopeBehind, Options.scopeBehind, hmid, Scope.behind_append, Scope.behind_append]
    exact Scope.comparisons_behind _ _
  obtain ⟨hcarries, hkind⟩ := Scope.carries_of_shared hapart ha hb hle
  refine ⟨hcarries, hkind.imp_right ?_⟩
  rintro ⟨p, n, rfl⟩
  exact ⟨p, n, rfl, declared_again hij hi hj ha hb⟩

theorem SharedSymbol.swap (h : SharedSymbol units first second s) : SharedSymbol units second first s :=
  ⟨h.carries.symm, h.kind⟩

theorem sharedSymbol (hne : i ≠ j) (hi : units[i]? = some first) (hj : units[j]? = some second)
    (hapart : ∀ f ∈ procedures first.instructions, f ∉ procedures second.instructions)
    (ha : s ∈ (options.scopeBehind (units.take i)).symbols first.instructions)
    (hb : s ∈ (options.scopeBehind (units.take j)).symbols second.instructions) :
    SharedSymbol units first second s := by
  rcases Nat.lt_or_gt_of_ne hne with hij | hij
  · exact sharedSymbol_of_lt hij hi hj hapart ha hb
  · exact (sharedSymbol_of_lt hij hj hi (fun f hf hm => hapart f hm hf) hb ha).swap

/-- The lines `(name)` in the code of a unit are those of the symbols it defines. -/
theorem label_line_mem_unitCode (h : Accepted options units) (hu : u ∈ units) {before : List SourceUnit}
    {name : String} :
    "(" ++ name ++ ")" ∈ (unitCode options before u).map Statement.text ↔
      ∃ s ∈ (options.scopeBehind before).symbols u.instructions, s.text = name := by
  rw [← symbol?_unitCode h hu before, List.mem_map]
  simp only [Statement.text_eq_parenthesised, List.mem_filterMap]
  grind

theorem allowed_of_unit (h : Accepted options units) (hi : units[i]? = some u)
    (hs : s ∈ (options.scopeBehind (units.take i)).symbols u.instructions) : s.Allowed ∧ s.isStatic = false := by
  obtain ⟨rest, hrest⟩ := instructions_eq_of_getElem? hi
  have hstart : Name.procedureFault? options.startScope.procedure = none := by
    rw [options.startScope_procedure]
    exact Name.procedureFault?_null
  have hmem : s ∈ options.startScope.symbols (instructions units) := by
    rw [hrest, Scope.symbols_append, Scope.symbols_append]
    exact List.mem_append_right _ (List.mem_append_left _ hs)
  exact Scope.allowed_of_mem_symbols (fun k hk => mem_instructions h.read hk) hstart hmem

/-- Of two units that declare no procedure in common, no line `(name)` stands in the code
    of both if neither declares a label or makes a call before its first `function`. Else
    it is that of a label which both declare in code that belongs to one procedure, or a
    return address of a procedure that is declared more than once. What a procedure `null`
    owns is left aside where one is declared. -/
theorem shared_lines_of_units {summary : Summary} (h : (translate options units).outcome = .ok summary) (hne : i ≠ j)
    (hi : units[i]? = some first) (hj : units[j]? = some second)
    (hapart : ∀ f ∈ procedures first.instructions, f ∉ procedures second.instructions) :
    ∃ code code', (unitCodes options units)[i]? = some code ∧ (unitCodes options units)[j]? = some code' ∧
      (¬ Carries first.instructions → ¬ Carries second.instructions → ∀ name : String,
        "(" ++ name ++ ")" ∈ code.map Statement.text → "(" ++ name ++ ")" ∉ code'.map Statement.text) ∧
      (∀ p l, (p, .label l) ∈ first.owned (units.take i) → (p, .label l) ∈ second.owned (units.take j) →
        (p = "null" → "null" ∉ procedures (instructions units)) →
        "(" ++ (Symbol.label p l).text ++ ")" ∈ code.map Statement.text ∧
          "(" ++ (Symbol.label p l).text ++ ")" ∈ code'.map Statement.text) ∧
      (∀ name : String, "(" ++ name ++ ")" ∈ code.map Statement.text → "(" ++ name ++ ")" ∈ code'.map Statement.text →
        (∃ p l, name = (Symbol.label p l).text ∧
          (p, .label l) ∈ first.owned (units.take i) ∧ (p, .label l) ∈ second.owned (units.take j)) ∨
        (∃ p n, name = (Symbol.returnAddress p n).text ∧ 2 ≤ (procedures (instructions units)).count p) ∨
        ("null" ∈ procedures (instructions units) ∧ ∃ rest, name = "null$" ++ rest)) := by
  have ha := accepted_of_ok h
  have howned : ∀ {k : Nat} {u : SourceUnit} {p l : String},
      .label p l ∈ (options.scopeBehind (units.take k)).symbols u.instructions ↔
        (p, .label l) ∈ u.owned (units.take k) := by
    intro k u p l
    rw [Scope.label_mem_symbols_iff, scopeBehind_procedure, SourceUnit.owned]
  have hfirst := @label_line_mem_unitCode options units first ha (List.mem_of_getElem? hi) (units.take i)
  have hsecond := @label_line_mem_unitCode options units second ha (List.mem_of_getElem? hj) (units.take j)
  -- a line in both is that of one symbol, since no two symbols have one name
  have hshared : ∀ {name : String}, "(" ++ name ++ ")" ∈ (unitCode options (units.take i) first).map Statement.text →
      "(" ++ name ++ ")" ∈ (unitCode options (units.take j) second).map Statement.text →
      ∃ s, s.text = name ∧ s ∈ (options.scopeBehind (units.take i)).symbols first.instructions ∧
        s ∈ (options.scopeBehind (units.take j)).symbols second.instructions := by
    intro name hc hc'
    obtain ⟨s, hs, rfl⟩ := hfirst.mp hc
    obtain ⟨s', hs', he⟩ := hsecond.mp hc'
    have hal := allowed_of_unit ha hi hs
    have hal' := allowed_of_unit ha hj hs'
    obtain rfl := Symbol.text_injective hal'.1 hal.1 hal'.2 hal.2 he
    exact ⟨s', rfl, hs, hs'⟩
  refine ⟨_, _, (getElem?_unitCodes ha i).trans (congrArg _ hi), (getElem?_unitCodes ha j).trans (congrArg _ hj),
    ?_, ?_, ?_⟩
  · intro hno hno' name hc hc'
    obtain ⟨s, -, hs, hs'⟩ := hshared hc hc'
    exact (sharedSymbol hne hi hj hapart hs hs').carries.elim hno hno'
  · intro p l hp hp' _
    exact ⟨hfirst.mpr ⟨_, howned.mpr hp, rfl⟩, hsecond.mpr ⟨_, howned.mpr hp', rfl⟩⟩
  · intro name hc hc'
    obtain ⟨s, rfl, hs, hs'⟩ := hshared hc hc'
    rcases (sharedSymbol hne hi hj hapart hs hs').kind with ⟨p, l, rfl⟩ | ⟨p, n, rfl, hagain | ⟨rfl, hnull⟩⟩
    · exact .inl ⟨p, l, rfl, howned.mp hs, howned.mp hs'⟩
    · exact .inr (.inl ⟨p, n, rfl, hagain⟩)
    · refine .inr (.inr ⟨hnull, "ret." ++ n.repr, ?_⟩)
      show "null" ++ "$ret." ++ n.repr = _
      rw [← String.append_assoc]
      rfl

end Units

/-- A procedure that goes on in the next unit, which declares the same label. -/
def continued : List SourceUnit :=
  [⟨"A", "function F 0\nlabel X\n"⟩, ⟨"B", "label X\nfunction G 0\nreturn\n"⟩]

theorem shared_lines_of_units_continued :
    ∃ code code', (unitCodes {} continued)[0]? = some code ∧ (unitCodes {} continued)[1]? = some code' ∧
      "(F$X)" ∈ code.map Statement.text ∧ "(F$X)" ∈ code'.map Statement.text := by
  have hok : (translate {} continued).outcome = .ok ⟨2, 5, 106⟩ := by decide +kernel
  obtain ⟨code, code', hc, hc', -, hlabel, -⟩ := @shared_lines_of_units {} continued 0 1 _ _ ⟨2, 5, 106⟩ hok (by decide)
    rfl rfl (by decide +kernel)
  exact ⟨code, code', hc, hc', hlabel "F" "X" (by decide +kernel) (by decide +kernel) (by decide)⟩

/-- Two units that declare one label, and no procedure at all. -/
theorem label_line_of_both :
    ∃ units summary code code', (translate {} units).outcome = .ok summary ∧ procedures (instructions units) = [] ∧
      (unitCodes {} units)[0]? = some code ∧ (unitCodes {} units)[1]? = some code' ∧
      "(null$X)" ∈ code.map Statement.text ∧ "(null$X)" ∈ code'.map Statement.text := by
  refine ⟨[⟨"A", "label X\n"⟩, ⟨"B", "label X\n"⟩], ⟨2, 2, 59⟩, _, _, ?_, ?_, rfl, rfl, ?_, ?_⟩ <;> decide +kernel

end StackToHack
