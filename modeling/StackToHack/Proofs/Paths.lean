/-
  StackToHack.Proofs.Paths — the steps, the name and the extension of a path.

  Steps hold no slash, and a path is its steps with a slash between two, so paths put
  together have the steps of both. What follows the last step that moves stays there. The
  name of a path is that step, unless it leads up.
  - `steps_append`, `steps_intercalate`: the steps of what is put together.
  - `steps_cases`: the last step that moves.
  - `name?_eq_some_iff`, `name?_eq_none_iff`: when a path has a name.
  - `IsName`, `steps_join_name`, `name?_join`: a name behind a directory.
  - `eq_of_extension?_withExtension`: no other extension than the one that is put on.
-/

import Mathlib.Data.List.TakeWhile
import StackToHack.Files.Path
import StackToHack.Proofs.Reading

namespace StackToHack.Path

/-! ## Steps -/

theorem steps_ne_nil (path : String) : steps path ≠ [] := by
  rw [steps, Ne, List.map_eq_nil_iff, List.splitOn_eq_splitOnP]
  exact List.splitOnP_ne_nil _ _

/-- No step holds a slash. -/
theorem notMem_of_mem_steps {path step : String} (h : step ∈ steps path) : '/' ∉ step.toList := by
  obtain ⟨piece, hp, rfl⟩ := List.mem_map.mp h
  rw [String.toList_ofList]
  exact Text.notMem_of_mem_splitOn hp

/-- A path is its steps with a slash between two. -/
theorem intercalate_steps (path : String) : "/".intercalate (steps path) = path := by
  apply String.toList_injective
  have hpieces : (steps path).map String.toList = path.toList.splitOn '/' := by
    rw [steps, List.map_map]
    have hid : String.toList ∘ String.ofList = id := funext fun _ => String.toList_ofList
    rw [hid, List.map_id]
  rw [String.toList_intercalate, hpieces]
  exact List.intercalate_splitOn '/'

theorem steps_intercalate {ss : List String} (hne : ss ≠ []) (h : ∀ s ∈ ss, '/' ∉ s.toList) :
    steps ("/".intercalate ss) = ss := by
  have hpieces : ("/".intercalate ss).toList.splitOn '/' = ss.map String.toList := by
    rw [String.toList_intercalate]
    apply List.splitOn_intercalate
    · intro piece hp
      obtain ⟨s, hs, rfl⟩ := List.mem_map.mp hp
      exact h s hs
    · simpa using hne
  have hid : String.ofList ∘ String.toList = id := funext fun _ => String.ofList_toList
  rw [steps, hpieces, List.map_map, hid, List.map_id]

theorem steps_of_notMem {step : String} (h : '/' ∉ step.toList) : steps step = [step] := by
  have := @steps_intercalate [step] (by simp) (by simpa using h)
  simpa using this

theorem steps_append (first second : String) : steps (first ++ "/" ++ second) = steps first ++ steps second := by
  have e : (first ++ "/" ++ second).toList = first.toList ++ '/' :: second.toList := by simp
  rw [steps, steps, steps, e, List.splitOn_eq_splitOnP, List.splitOnP_append_cons _ _ (by rfl), List.map_append]
  rfl

/-- Paths with the same steps are the same. -/
theorem eq_of_steps {first second : String} (h : steps first = steps second) : first = second := by
  rw [← intercalate_steps first, h, intercalate_steps]

/-- The last step is empty only behind a slash. -/
theorem endsInSlash_of_steps {path : String} (hne : path ≠ "") (h : (steps path).getLast? = some "") :
    endsInSlash path = true := by
  obtain ⟨front, hfront⟩ := List.getLast?_eq_some_iff.mp h
  have hpieces : front ≠ [] := by
    rintro rfl
    exact hne (eq_of_steps hfront)
  have hslash : ∀ s ∈ front, '/' ∉ s.toList := by
    intro s hs
    apply @notMem_of_mem_steps path
    rw [hfront]
    exact List.mem_append_left _ hs
  have hsame : path = "/".intercalate front ++ "/" ++ "" := by
    apply eq_of_steps
    rw [steps_append, steps_intercalate hpieces hslash, hfront]
    rfl
  rw [hsame]
  simp [endsInSlash]

theorem withoutSlashes_eq_steps {path : String} (hne : path ≠ "") (h : endsInSlash path = false) :
    withoutSlashes path = steps path := by
  have hlast : ∀ s, (steps path).reverse.head? = some s → (s == "") = false := by
    intro s hs
    rw [List.head?_reverse] at hs
    rw [beq_eq_false_iff_ne]
    rintro rfl
    rw [endsInSlash_of_steps hne hs] at h
    cases h
  have hkeep : (steps path).reverse.dropWhile (· == "") = (steps path).reverse := by
    cases hr : (steps path).reverse with
    | nil => rfl
    | cons s rest => exact List.dropWhile_cons_of_neg (by simp [hlast s (by rw [hr]; rfl)])
  rw [withoutSlashes, hkeep, List.reverse_reverse]

/-! ## Names -/

/-- What follows the last step that moves stays there. -/
theorem steps_cases (path : String) :
    ((∀ s ∈ steps path, stays s = true) ∧ movingSteps path = []) ∨
      ∃ front last back, steps path = front ++ last :: back ∧ stays last = false ∧ (∀ s ∈ back, stays s = true) ∧
        movingSteps path = front ++ [last] := by
  have hsplit := List.takeWhile_append_dropWhile (p := stays) (l := (steps path).reverse)
  have hback : ∀ s ∈ (steps path).reverse.takeWhile stays, stays s = true := fun s hs => List.mem_takeWhile_imp hs
  rw [movingSteps]
  cases hd : (steps path).reverse.dropWhile stays with
  | nil =>
    left
    rw [hd, List.append_nil] at hsplit
    refine ⟨fun s hs => ?_, rfl⟩
    apply hback
    rw [hsplit]
    exact List.mem_reverse.mpr hs
  | cons last front =>
    right
    obtain ⟨back, hb⟩ : ∃ back, back = (steps path).reverse.takeWhile stays := ⟨_, rfl⟩
    rw [← hb] at hback hsplit
    refine ⟨front.reverse, last, back.reverse, ?_, ?_, ?_, ?_⟩
    · rw [← List.reverse_reverse (steps path), ← hsplit, hd]
      simp
    · have := List.head?_dropWhile_not stays (steps path).reverse
      rw [hd] at this
      simpa using this
    · intro s hs
      exact hback s (List.mem_reverse.mp hs)
    · simp

theorem movingSteps_of_split {path : String} {front back : List String} {last : String}
    (h : steps path = front ++ last :: back) (hl : stays last = false) (hb : ∀ s ∈ back, stays s = true) :
    movingSteps path = front ++ [last] := by
  have hr : (steps path).reverse = back.reverse ++ last :: front.reverse := by
    rw [h]
    simp
  have hdrop : (steps path).reverse.dropWhile stays = last :: front.reverse := by
    rw [hr, List.dropWhile_append_of_pos (fun s hs => hb s (List.mem_reverse.mp hs)),
      List.dropWhile_cons_of_neg (by simp [hl])]
  rw [movingSteps, hdrop]
  simp

theorem name?_of_movingSteps {path last : String} {front : List String} (h : movingSteps path = front ++ [last]) :
    name? path = if last = ".." then none else some last := by
  rw [name?, h, List.getLast?_concat]
  split
  · rename_i he
    rw [if_pos (Option.some.inj he)]
  · rename_i he
    rw [if_neg fun e => he (congrArg some e)]

/-- The name is the last step that moves, unless it leads up. -/
theorem name?_eq_some_iff {path name : String} :
    name? path = some name ↔ name ≠ ".." ∧ stays name = false ∧
      ∃ front back, steps path = front ++ name :: back ∧ ∀ s ∈ back, stays s = true := by
  constructor
  · intro h
    rcases steps_cases path with ⟨-, hm⟩ | ⟨front, last, back, hs, hl, hb, hm⟩
    · rw [name?, hm] at h
      cases h
    · rw [name?_of_movingSteps hm] at h
      split at h
      · cases h
      · rename_i hup
        obtain rfl := Option.some.inj h
        exact ⟨hup, hl, front, back, hs, hb⟩
  · rintro ⟨hup, hl, front, back, hs, hb⟩
    rw [name?_of_movingSteps (movingSteps_of_split hs hl hb), if_neg hup]

/-- A path without a name stays where it starts, or leads up at last. -/
theorem name?_eq_none_iff {path : String} :
    name? path = none ↔ (∀ s ∈ steps path, stays s = true) ∨
      ∃ front back, steps path = front ++ ".." :: back ∧ ∀ s ∈ back, stays s = true := by
  constructor
  · intro h
    rcases steps_cases path with ⟨hall, -⟩ | ⟨front, last, back, hs, hl, hb, hm⟩
    · exact .inl hall
    · rw [name?_of_movingSteps hm] at h
      split at h
      · rename_i hup
        exact .inr ⟨front, back, hup ▸ hs, hb⟩
      · cases h
  · intro h
    cases hn : name? path with
    | none => rfl
    | some name =>
      obtain ⟨hup, hl, front, back, hs, hb⟩ := name?_eq_some_iff.mp hn
      rcases h with hall | ⟨front', back', hs', hb'⟩
      · have := hall name (by rw [hs]; simp)
        rw [this] at hl
        cases hl
      · have hm := movingSteps_of_split hs' (by decide) hb'
        rw [name?_of_movingSteps hm] at hn
        simp at hn

theorem name?_of_notMem {name : String} (h : '/' ∉ name.toList) (hup : name ≠ "..") (hl : stays name = false) :
    name? name = some name :=
  name?_eq_some_iff.mpr ⟨hup, hl, [], [], steps_of_notMem h, by simp⟩

/-- A name is a step, so it is its own name. -/
theorem name?_name {path name : String} (h : name? path = some name) : '/' ∉ name.toList ∧ name? name = some name := by
  obtain ⟨hup, hl, front, back, hs, -⟩ := name?_eq_some_iff.mp h
  have hslash : '/' ∉ name.toList := @notMem_of_mem_steps path name (by rw [hs]; simp)
  exact ⟨hslash, name?_of_notMem hslash hup hl⟩

def IsName (name : String) : Prop :=
  '/' ∉ name.toList ∧ name ≠ "" ∧ name ≠ "." ∧ name ≠ ".."

instance (name : String) : Decidable (IsName name) := by
  unfold IsName
  infer_instance

theorem IsName.stays {name : String} (h : IsName name) : stays name = false := by
  simp [Path.stays, h.2.1, h.2.2.1]

/-- A name is its own name. -/
theorem IsName.name? {name : String} (h : IsName name) : name? name = some name :=
  name?_of_notMem h.1 h.2.2.2 h.stays

theorem steps_join (directory name : String) :
    ∃ front, steps (join directory name) = front ++ steps name := by
  unfold join
  split
  · rename_i h
    simp only [Bool.or_eq_true, decide_eq_true_eq] at h
    rcases h with rfl | h
    · exact ⟨[], by simp⟩
    · obtain ⟨above, habove⟩ := List.getLast?_eq_some_iff.mp (of_decide_eq_true h)
      have hcut : directory = String.ofList above ++ "/" := by
        apply String.toList_injective
        simp [habove]
      rw [hcut]
      exact ⟨steps (String.ofList above), steps_append _ name⟩
  · exact ⟨steps directory, steps_append directory name⟩

/-- A name in a directory is the step behind those of the directory, where a slash at the end
    makes no step of its own. -/
theorem steps_join_name {directory : String} (hd : directory ≠ "") :
    ∃ front, (steps directory = front ∨ steps directory = front ++ [""]) ∧
      ∀ name : String, '/' ∉ name.toList → steps (join directory name) = front ++ [name] := by
  by_cases hslash : endsInSlash directory = true
  · obtain ⟨above, habove⟩ := List.getLast?_eq_some_iff.mp (of_decide_eq_true hslash)
    have hcut : directory = String.ofList above ++ "/" := by
      apply String.toList_injective
      simp [habove]
    refine ⟨steps (String.ofList above), .inr ?_, fun name h => ?_⟩
    · rw [hcut, ← String.append_empty (s := String.ofList above ++ "/"), steps_append]
      rfl
    · rw [join, if_pos (by simp [hslash]), hcut, steps_append, steps_of_notMem h]
  · refine ⟨steps directory, .inl rfl, fun name h => ?_⟩
    rw [join, if_neg (by simp [hd, hslash]), steps_append, steps_of_notMem h]

/-- A path with a name keeps it in a directory. -/
theorem name?_join {directory path name : String} (h : name? path = some name) :
    name? (join directory path) = some name := by
  obtain ⟨hup, hl, front, back, hs, hb⟩ := name?_eq_some_iff.mp h
  obtain ⟨above, hjoin⟩ := steps_join directory path
  refine name?_eq_some_iff.mpr ⟨hup, hl, above ++ front, back, ?_, hb⟩
  rw [hjoin, hs, List.append_assoc]

/-! ## Extensions -/

/-- An extension stands behind the last dot, and a stem before that dot. -/
theorem splitName_eq_some_iff {name stem extension : String} :
    splitName name = (stem, some extension) ↔
      stem ≠ "" ∧ '.' ∉ extension.toList ∧ name = stem ++ "." ++ extension := by
  have hdot : (stem ++ "." ++ extension).toList = stem.toList ++ '.' :: extension.toList := by simp
  constructor
  · intro h
    unfold splitName at h
    split at h
    · cases h
    · cases h
    · rename_i before after hne hcut
      obtain ⟨hname, hafter⟩ := Text.cutLast?_eq_some.mp hcut
      obtain ⟨rfl, hext⟩ := Prod.mk.inj h
      obtain rfl := Option.some.inj hext
      refine ⟨fun e => hne (by simpa using congrArg String.toList e), by simpa using hafter, ?_⟩
      apply String.toList_injective
      rw [hdot, hname, String.toList_ofList, String.toList_ofList]
  · rintro ⟨hne, hext, rfl⟩
    have hcut : Text.cutLast? '.' (stem ++ "." ++ extension).toList = some (stem.toList, extension.toList) := by
      rw [hdot]
      exact Text.cutLast?_append _ hext
    unfold splitName
    rw [hcut]
    split
    · rename_i hnone
      cases hnone
    · rename_i hnil
      have hstem : stem.toList = [] := (Prod.mk.inj (Option.some.inj hnil)).1
      exact absurd (String.toList_injective hstem) hne
    · rename_i hsome
      obtain ⟨rfl, rfl⟩ := Prod.mk.inj (Option.some.inj hsome)
      rw [String.ofList_toList, String.ofList_toList]

/-- A name has no extension if it holds no dot but at the front, and is all stem then. -/
theorem splitName_eq_none_iff {name : String} : splitName name = (name, none) ↔ '.' ∉ name.toList.tail := by
  unfold splitName
  cases hcut : Text.cutLast? '.' name.toList with
  | none =>
    have hnone := Text.cutLast?_eq_none.mp hcut
    exact iff_of_true rfl fun h => hnone (List.mem_of_mem_tail h)
  | some parts =>
    obtain ⟨before, after⟩ := parts
    obtain ⟨hname, hafter⟩ := Text.cutLast?_eq_some.mp hcut
    rw [hname]
    cases before with
    | nil => simpa using hafter
    | cons c before => simp

/-- Only an extension that holds no dot can be put on. -/
theorem eq_of_splitName {stem extension other : String} (h : '.' ∉ extension.toList)
    (he : (splitName (stem ++ "." ++ extension)).2 = some other) : other = extension := by
  have hcut : Text.cutLast? '.' (stem ++ "." ++ extension).toList = some (stem.toList, extension.toList) := by
    have e : (stem ++ "." ++ extension).toList = stem.toList ++ '.' :: extension.toList := by simp
    rw [e]
    exact Text.cutLast?_append stem.toList h
  unfold splitName at he
  rw [hcut] at he
  split at he
  · cases he
  · cases he
  · rename_i hne hsome
    obtain ⟨rfl, rfl⟩ := Prod.mk.inj (Option.some.inj hsome)
    rw [← Option.some.inj he, String.ofList_toList]

/-- The stem of a name is a part of it. -/
theorem notMem_stem {name : String} {c : Char} (h : c ∉ name.toList) : c ∉ (splitName name).1.toList := by
  unfold splitName
  split
  · exact h
  · exact h
  · rename_i hcut
    obtain ⟨hname, -⟩ := Text.cutLast?_eq_some.mp hcut
    rw [String.toList_ofList]
    intro hc
    apply h
    rw [hname]
    exact List.mem_append_left _ hc

/-- A path with a name gets the extension behind the stem of its name. -/
theorem steps_extend {path name extension : String} (h : name? path = some name) (hslash : '/' ∉ extension.toList) :
    ∃ front back, steps path = front ++ name :: back ∧ (∀ s ∈ back, stays s = true) ∧
      steps (extend path extension) = front ++ [(splitName name).1 ++ "." ++ extension] := by
  obtain ⟨hup, hl, front, back, hs, hb⟩ := name?_eq_some_iff.mp h
  refine ⟨front, back, hs, hb, ?_⟩
  have hstem : stem? path = some (splitName name).1 := by rw [stem?, h]; rfl
  rw [extend, hstem]
  simp only
  rw [movingSteps_of_split hs hl hb, List.dropLast_concat]
  apply steps_intercalate (by simp)
  intro s hmem
  rcases List.mem_append.mp hmem with hmem | hmem
  · exact @notMem_of_mem_steps path s (by rw [hs]; exact List.mem_append_left _ hmem)
  · obtain rfl := List.mem_singleton.mp hmem
    simp [notMem_stem (name?_name h).1, hslash]

theorem stays_extended {stem extension : String} (h : extension ≠ "") : stays (stem ++ "." ++ extension) = false := by
  have hpos : 0 < extension.toList.length := by
    rw [List.length_pos_iff]
    exact fun e => h (String.toList_injective e)
  have hlen : (stem ++ "." ++ extension).toList.length = stem.toList.length + 1 + extension.toList.length := by
    simp
    omega
  have hne : ∀ s : String, s.toList.length ≤ 1 → stem ++ "." ++ extension ≠ s := by
    rintro s hs rfl
    omega
  rw [stays, decide_eq_false (hne "" (by decide)), decide_eq_false (hne "." (by decide))]
  rfl

/-- No other extension than the one that was put on. -/
theorem eq_of_extension?_extend {path extension other : String} (hne : extension ≠ "") (hdot : '.' ∉ extension.toList)
    (hslash : '/' ∉ extension.toList) (he : extension? (extend path extension) = some other) : other = extension := by
  obtain ⟨last, hlast, hsplit⟩ := Option.bind_eq_some_iff.mp he
  cases hn : name? path with
  | none =>
    have hstem : stem? path = none := by rw [stem?, hn]; rfl
    rw [extend, hstem] at hlast
    rw [hn] at hlast
    cases hlast
  | some name =>
    obtain ⟨front, -, -, -, hsteps⟩ := steps_extend hn hslash
    have hm := @movingSteps_of_split _ _ [] _ hsteps (stays_extended hne) (List.forall_mem_nil _)
    rw [name?_of_movingSteps hm] at hlast
    split at hlast
    · cases hlast
    · obtain rfl := Option.some.inj hlast
      exact eq_of_splitName hdot hsplit

theorem eq_of_extension?_withExtension {path extension other : String} (hne : extension ≠ "")
    (hdot : '.' ∉ extension.toList) (hslash : '/' ∉ extension.toList)
    (he : extension? (withExtension path extension) = some other) : other = extension :=
  eq_of_extension?_extend hne hdot hslash he

end StackToHack.Path
