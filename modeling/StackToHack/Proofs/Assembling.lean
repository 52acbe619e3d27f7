/-
  StackToHack.Proofs.Assembling — what the two passes of the assembler find in lines.

  The passes agree on a line if it is a label's line or does not start like one. A line
  that opens a parenthesis and does not close it is `unclosed`: the first pass counts it
  and the second skips it, so every label behind it lies one place too far.
  - `lookup_of_mem`, `mem_of_lookup`: the first pass gives a label the number of lines
    before it that are no labels.
  - `labels_ok`: the first pass ends well if no label is repeated.
  - `orders_map`: the second pass reads each line on its own, with all variables known.
  - `assemble_of_legible`: both passes end well if no label is repeated and each line can
    be read on its own.
-/

import Mathlib.Data.List.Basic
import Mathlib.Data.List.Infix
import StackToHack.Machine.Assembler
import StackToHack.Proofs.Reading

namespace StackToHack

namespace Assembler

/-! ## Kinds of lines -/

def opens (line : List Char) : Bool :=
  line.head? == some '('

/-- The line starts like a label's line and is none. -/
def unclosed (line : List Char) : Bool :=
  opens line && (labelOf? line).isNone

theorem opens_of_labelOf? {line : List Char} {name : String} (h : labelOf? line = some name) : opens line = true := by
  unfold labelOf? at h
  split at h
  · rfl
  · cases h

/-- Of the lines that the first pass counts, the second skips those that are unclosed. -/
theorem countP_unlabelled (ls : List (List Char)) :
    ls.countP (fun line => (labelOf? line).isNone) = ls.countP (fun line => !opens line) + ls.countP unclosed := by
  induction ls with
  | nil => rfl
  | cons line ls ih =>
    rw [List.countP_cons, List.countP_cons, List.countP_cons, ih]
    cases hl : labelOf? line with
    | some name =>
      have := opens_of_labelOf? hl
      simp [unclosed, hl, this]
    | none =>
      cases ho : opens line
      · simp [unclosed, hl, ho]
        omega
      · simp [unclosed, hl, ho]
        omega

/-- A line is a part of the text. -/
theorem sublist_of_mem_lines {source : String} {line : List Char} (h : line ∈ lines source) :
    line.Sublist source.toList := by
  obtain ⟨raw, hraw, rfl⟩ := List.mem_map.mp (List.mem_of_mem_filter h)
  exact ((Text.trim_sublist _).trans (Text.beforeComment_sublist raw)).trans (Text.sublist_of_mem_lines hraw)

theorem length_of_labelOf? {line : List Char} {name : String} (h : labelOf? line = some name) :
    line.length = name.toList.length + 2 := by
  unfold labelOf? at h
  split at h
  · rename_i rest
    split at h
    · rename_i hlast
      obtain rfl := Option.some.inj h
      cases rest with
      | nil => cases hlast
      | cons c rest => simp
    · cases h
  · cases h

/-! ## First pass -/

theorem labels_cons (next : Nat) (known : List (String × Nat)) (line : List Char) (rest : List (List Char)) :
    labels next known (line :: rest) = match labelOf? line with
      | none => labels (next + 1) known rest
      | some name =>
        if (known.lookup name).isSome then .error (.repeatedLabel name)
        else labels next ((name, next) :: known) rest := rfl

/-- A place that is known stays. -/
theorem lookup_of_known {next : Nat} {known places : List (String × Nat)} {ls : List (List Char)}
    (h : labels next known ls = .ok places) {name : String} {place : Nat} (hk : known.lookup name = some place) :
    places.lookup name = some place := by
  induction ls generalizing next known with
  | nil =>
    cases h
    exact hk
  | cons line ls ih =>
    rw [labels_cons] at h
    cases hl : labelOf? line with
    | none =>
      simp only [hl] at h
      exact ih h hk
    | some other =>
      simp only [hl] at h
      split at h
      · cases h
      · rename_i hnew
        refine ih h ?_
        have hne : name ≠ other := by
          rintro rfl
          simp [hk] at hnew
        rw [List.lookup_cons, beq_eq_false_iff_ne.mpr hne]
        exact hk

theorem lookup_append {next : Nat} {known places : List (String × Nat)} {before after : List (List Char)}
    {line : List Char} (h : labels next known (before ++ line :: after) = .ok places) {name : String}
    (hl : labelOf? line = some name) :
    places.lookup name = some (next + before.countP fun line => (labelOf? line).isNone) := by
  induction before generalizing next known with
  | nil =>
    rw [List.nil_append, labels_cons, hl] at h
    simp only at h
    split at h
    · cases h
    · exact lookup_of_known h (by simp)
  | cons first before ih =>
    rw [List.cons_append, labels_cons] at h
    rw [List.countP_cons]
    cases hf : labelOf? first with
    | none =>
      simp only [hf] at h
      rw [ih h]
      simp
      omega
    | some other =>
      simp only [hf] at h
      split at h
      · cases h
      · rw [ih h]
        simp

/-- A label lies behind the lines before it that are no labels. -/
theorem lookup_of_mem {before after : List (List Char)} {line : List Char} {places : List (String × Nat)}
    (h : labels 0 [] (before ++ line :: after) = .ok places) {name : String} (hl : labelOf? line = some name) :
    places.lookup name = some (before.countP fun line => (labelOf? line).isNone) := by
  rw [lookup_append h hl, Nat.zero_add]

theorem mem_or_known_of_lookup {next : Nat} {known places : List (String × Nat)} {ls : List (List Char)}
    (h : labels next known ls = .ok places) {name : String} {place : Nat} (hp : places.lookup name = some place) :
    known.lookup name = some place ∨
      (∃ line ∈ ls, labelOf? line = some name) ∧ place ≤ next + ls.countP fun line => (labelOf? line).isNone := by
  induction ls generalizing next known with
  | nil =>
    cases h
    exact .inl hp
  | cons line ls ih =>
    rw [labels_cons] at h
    rw [List.countP_cons]
    cases hl : labelOf? line with
    | none =>
      simp only [hl] at h
      rcases ih h with hk | ⟨⟨l, hm, he⟩, hle⟩
      · exact .inl hk
      · exact .inr ⟨⟨l, List.mem_cons_of_mem _ hm, he⟩, by simp; omega⟩
    | some other =>
      simp only [hl] at h
      split at h
      · cases h
      · have hmem : ∃ l ∈ line :: ls, labelOf? l = some other := ⟨line, List.mem_cons_self, hl⟩
        rcases ih h with hk | ⟨⟨l, hm, he⟩, hle⟩
        · rw [List.lookup_cons] at hk
          by_cases hne : name = other
          · subst hne
            rw [beq_self_eq_true] at hk
            obtain rfl := Option.some.inj hk
            exact .inr ⟨hmem, Nat.le_add_right _ _⟩
          · rw [beq_eq_false_iff_ne.mpr hne] at hk
            exact .inl hk
        · exact .inr ⟨⟨l, List.mem_cons_of_mem _ hm, he⟩, by simp; omega⟩

/-- A label has a line, and its place is none behind the program. -/
theorem mem_of_lookup {ls : List (List Char)} {places : List (String × Nat)} (h : labels 0 [] ls = .ok places)
    {name : String} {place : Nat} (hp : places.lookup name = some place) :
    (∃ line ∈ ls, labelOf? line = some name) ∧ place ≤ ls.countP fun line => (labelOf? line).isNone := by
  rcases mem_or_known_of_lookup h hp with hk | ⟨hm, hle⟩
  · cases hk
  · exact ⟨hm, by omega⟩

theorem labels_isOk {next : Nat} {known : List (String × Nat)} {ls : List (List Char)}
    (hn : (ls.filterMap labelOf?).Nodup) (hk : ∀ name ∈ ls.filterMap labelOf?, known.lookup name = none) :
    ∃ places, labels next known ls = .ok places := by
  induction ls generalizing next known with
  | nil => exact ⟨known, rfl⟩
  | cons line ls ih =>
    rw [labels_cons]
    cases hl : labelOf? line with
    | none =>
      rw [List.filterMap_cons_none hl] at hn hk
      exact ih hn hk
    | some name =>
      rw [List.filterMap_cons_some hl] at hn hk
      obtain ⟨hnew, hn⟩ := List.nodup_cons.mp hn
      simp only [hk name List.mem_cons_self, Option.isSome_none, Bool.false_eq_true, if_false]
      refine ih hn fun other ho => ?_
      have hne : other ≠ name := by
        rintro rfl
        exact hnew ho
      rw [List.lookup_cons, beq_eq_false_iff_ne.mpr hne]
      exact hk other (List.mem_cons_of_mem _ ho)

theorem labels_ok {ls : List (List Char)} (hn : (ls.filterMap labelOf?).Nodup) :
    ∃ places, labels 0 [] ls = .ok places :=
  labels_isOk hn fun _ _ => rfl

/-! ## Second pass -/

/-- The order of a line that is no label, with the variables in `met`. -/
def order (places : List (String × Nat)) (met : List String) (line : List Char) : Except Problem Order :=
  match line with
  | '@' :: name => (resolve places met (String.ofList name)).map fun r => .load (BitVec.ofNat 16 r.1)
  | _ => computation line

theorem resolve_cases {places : List (String × Nat)} {met met' : List String} {name : String} {n : Nat}
    (h : resolve places met name = .ok (n, met')) :
    (met' = met ∧ ∀ later, met <+: later → resolve places later name = .ok (n, later)) ∨
      (name ∉ met ∧ met' = met ++ [name] ∧ ∀ later, met' <+: later → resolve places later name = .ok (n, later)) := by
  unfold resolve at h
  cases hu : (Text.unsigned? name.toList).filter (· < 65536) with
  | some k =>
    simp only [hu] at h
    split at h
    · rename_i hk
      cases h
      exact .inl ⟨rfl, fun later _ => by simp only [resolve, hu, if_pos hk]⟩
    · cases h
  | none =>
    simp only [hu] at h
    cases hp : Predefined.ofName? name with
    | some p =>
      simp only [hp] at h
      cases h
      exact .inl ⟨rfl, fun later _ => by simp only [resolve, hu, hp]⟩
    | none =>
      simp only [hp] at h
      cases hl : places.lookup name with
      | some place =>
        simp only [hl] at h
        cases h
        exact .inl ⟨rfl, fun later _ => by simp only [resolve, hu, hp, hl]⟩
      | none =>
        simp only [hl] at h
        cases hi : met.idxOf? name with
        | some i =>
          simp only [hi] at h
          cases h
          refine .inl ⟨rfl, ?_⟩
          rintro _ ⟨ext, rfl⟩
          have : (met ++ ext).idxOf? name = some i := by
            rw [List.idxOf?, List.findIdx?_append, ← List.idxOf?, hi]
            rfl
          simp only [resolve, hu, hp, hl, this]
        | none =>
          simp only [hi] at h
          cases h
          refine .inr ⟨List.idxOf?_eq_none_iff.mp hi, rfl, ?_⟩
          rintro _ ⟨ext, rfl⟩
          have : (met ++ [name] ++ ext).idxOf? name = some met.length := by
            rw [List.append_assoc, List.idxOf?, List.findIdx?_append, ← List.idxOf?, hi]
            simp [List.idxOf?_cons]
          simp only [resolve, hu, hp, hl, this]

theorem resolve_prefix {places : List (String × Nat)} {met met' : List String} {name : String} {n : Nat}
    (h : resolve places met name = .ok (n, met')) :
    met <+: met' ∧ ∀ later, met' <+: later → resolve places later name = .ok (n, later) := by
  rcases resolve_cases h with ⟨rfl, hl⟩ | ⟨-, rfl, hl⟩
  · exact ⟨List.prefix_refl _, hl⟩
  · exact ⟨List.prefix_append _ _, hl⟩

def meet (places : List (String × Nat)) (met : List String) (line : List Char) : List String :=
  match line with
  | '@' :: name => match resolve places met (String.ofList name) with
    | .ok (_, met') => met'
    | .error _ => met
  | _ => met

theorem orders_opens {line : List Char} (ho : opens line = true) (places : List (String × Nat)) (met : List String)
    (rest : List (List Char)) : orders places met (line :: rest) = orders places met rest := by
  cases line with
  | nil => cases ho
  | cons c line =>
    obtain rfl : c = '(' := by simpa [opens] using ho
    rfl

theorem orders_address (name : List Char) (places : List (String × Nat)) (met : List String)
    (rest : List (List Char)) :
    orders places met (('@' :: name) :: rest) = do
      let (n, met) ← resolve places met (String.ofList name)
      let (code, met) ← orders places met rest
      return (.load (BitVec.ofNat 16 n) :: code, met) := rfl

theorem orders_computation {line : List Char} (ho : opens line = false) (ha : line.head? ≠ some '@')
    (places : List (String × Nat)) (met : List String) (rest : List (List Char)) :
    order places met line = computation line ∧ meet places met line = met ∧
      orders places met (line :: rest) = do
        let order ← computation line
        let (code, met) ← orders places met rest
        return (order :: code, met) := by
  rw [order.eq_def, meet.eq_def, orders.eq_def]
  cases line with
  | nil => exact ⟨rfl, rfl, rfl⟩
  | cons c line =>
    have hp : c ≠ '(' := by
      rintro rfl
      cases ho
    have ht : c ≠ '@' := by
      rintro rfl
      exact ha rfl
    refine ⟨?_, ?_, ?_⟩
    · split
      · rename_i he
        exact absurd (List.cons.inj he).1 ht
      · rfl
    · split
      · rename_i he
        exact absurd (List.cons.inj he).1 ht
      · rfl
    · split
      · rename_i he
        cases he
      · rename_i he
        cases he
        split
        · rename_i he
          exact absurd (List.cons.inj he).1 hp
        · rename_i he
          exact absurd (List.cons.inj he).1 ht
        · rfl

/-- Each line gives its order, with the variables known that are known in the end. -/
theorem orders_map {places : List (String × Nat)} {met met' : List String} {ls : List (List Char)} {code : List Order}
    (h : orders places met ls = .ok (code, met')) :
    met <+: met' ∧ met' = (ls.filter (!opens ·)).foldl (meet places) met ∧
      (ls.filter (!opens ·)).map (order places met') = code.map .ok := by
  induction ls generalizing met code with
  | nil =>
    cases h
    exact ⟨List.prefix_refl _, rfl, rfl⟩
  | cons line ls ih =>
    cases ho : opens line with
    | true =>
      rw [orders_opens ho] at h
      rw [List.filter_cons_of_neg (by simp [ho])]
      exact ih h
    | false =>
      rw [List.filter_cons_of_pos (by simp [ho]), List.foldl_cons, List.map_cons]
      by_cases ha : line.head? = some '@'
      · obtain ⟨name, rfl⟩ := List.head?_eq_some_iff.mp ha
        rw [orders_address] at h
        obtain ⟨⟨n, met₁⟩, hr, h⟩ := bind_eq_ok h
        obtain ⟨⟨code₁, met₂⟩, hrest, h⟩ := bind_eq_ok h
        cases h
        obtain ⟨hpre, hmeet, hmap⟩ := ih hrest
        obtain ⟨hpre₁, hlater⟩ := resolve_prefix hr
        refine ⟨hpre₁.trans hpre, ?_, ?_⟩
        · simp only [meet, hr]
          exact hmeet
        · rw [hmap, List.map_cons]
          simp only [order, hlater _ hpre]
          rfl
      · obtain ⟨horder, hmet, hcons⟩ := orders_computation ho ha places met ls
        rw [hcons] at h
        obtain ⟨first, hc, h⟩ := bind_eq_ok h
        obtain ⟨⟨code₁, met₂⟩, hrest, h⟩ := bind_eq_ok h
        cases h
        obtain ⟨hpre, hmeet, hmap⟩ := ih hrest
        refine ⟨hpre, ?_, ?_⟩
        · rw [hmet]
          exact hmeet
        · rw [hmap, List.map_cons, (orders_computation ho ha places met' ls).1, hc]

structure Legible (line : List Char) : Prop where
  address : ∀ name, line = '@' :: name → ∀ places met, ∃ r, resolve places met (String.ofList name) = .ok r
  computation : opens line = false → line.head? ≠ some '@' → ∃ o, computation line = .ok o

/-- The second pass ends well if it can read each line. -/
theorem orders_ok {places : List (String × Nat)} {ls : List (List Char)} (met : List String)
    (h : ∀ line ∈ ls, Legible line) : ∃ r, orders places met ls = .ok r := by
  induction ls generalizing met with
  | nil => exact ⟨_, rfl⟩
  | cons line ls ih =>
    have hrest : ∀ met, ∃ r, orders places met ls = .ok r := fun met =>
      ih met fun l hl => h l (List.mem_cons_of_mem _ hl)
    have hline := h line List.mem_cons_self
    cases ho : opens line with
    | true =>
      rw [orders_opens ho]
      exact hrest met
    | false =>
      by_cases ha : line.head? = some '@'
      · obtain ⟨name, rfl⟩ := List.head?_eq_some_iff.mp ha
        obtain ⟨r, hname⟩ := hline.address name rfl places met
        obtain ⟨s, hs⟩ := hrest r.2
        refine ⟨(.load (BitVec.ofNat 16 r.1) :: s.1, s.2), ?_⟩
        rw [orders_address, hname]
        show (orders places r.2 ls >>= _) = _
        rw [hs]
        rfl
      · obtain ⟨o, hread⟩ := hline.computation ho ha
        obtain ⟨s, hs⟩ := hrest met
        refine ⟨(o :: s.1, s.2), ?_⟩
        rw [(orders_computation ho ha places met ls).2.2, hread]
        show (orders places met ls >>= _) = _
        rw [hs]
        rfl

/-! ## Both passes -/

theorem assemble_ok {source : String} {asm : Assembled} (h : assemble source = .ok asm) :
    labels 0 [] (lines source) = .ok asm.labels ∧ orders asm.labels [] (lines source) = .ok (asm.orders, asm.cells) := by
  obtain ⟨places, hl, h⟩ := bind_eq_ok h
  obtain ⟨⟨code, met⟩, ho, h⟩ := bind_eq_ok h
  cases h
  exact ⟨hl, ho⟩

theorem assemble_of_legible {source : String} (hl : ∀ line ∈ lines source, Legible line)
    (hn : ((lines source).filterMap labelOf?).Nodup) : ∃ asm, assemble source = .ok asm := by
  obtain ⟨places, hp⟩ := labels_ok hn
  obtain ⟨⟨code, met⟩, ho⟩ := @orders_ok places (lines source) [] hl
  refine ⟨⟨code, places, met⟩, ?_⟩
  rw [assemble, hp]
  show (orders places [] (lines source) >>= _) = _
  rw [ho]
  rfl

end Assembler

end StackToHack
