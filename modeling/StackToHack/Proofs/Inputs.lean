/-
  StackToHack.Proofs.Inputs — which units the paths of a command stand for.

  A path that leads to a directory stands for the units directly in it, in the order of the
  bytes of their names; any other path stands for itself if it has the extension of units.
  What a path stands for is told by what stands where, so it is the same in whatever order a
  directory is listed.
  - `Text.bytes_lt_iff`: texts are in the order of their bytes.
  - `isUnitPath_iff`: the extension of units.
  - `mem_unitNames_iff`, `pairwise_unitNames`: the units of a directory.
  - `StandsFor`, `Refused`: what a path stands for, or why it stands for nothing.
  - `inputs_discovered`: the units of a whole command, or its first path without any.
-/

import Mathlib.Data.String.Basic
import StackToHack.Proofs.Rebuilds

namespace StackToHack

/-! ## The order of texts -/

namespace Text

def bytes (text : String) : List UInt8 :=
  text.toUTF8.data.toList

theorem bytes_eq (text : String) : bytes text = text.toList.flatMap String.utf8EncodeChar := by
  rw [bytes, String.toUTF8, ← String.utf8Encode_toList, List.utf8Encode, List.toList_data_toByteArray]

/-- Bytes are compared as the numbers that they hold. -/
theorem ofNat_cons_lt_iff {m n : Nat} (hm : m < 256) (hn : n < 256) {rest other : List UInt8} :
    UInt8.ofNat m :: rest < UInt8.ofNat n :: other ↔ m < n ∨ m = n ∧ rest < other := by
  have hvalue : ∀ k, k < 256 → (UInt8.ofNat k).toNat = k := by
    intro k hk
    rw [UInt8.toNat_ofNat']
    exact Nat.mod_eq_of_lt hk
  rw [List.cons_lt_cons_iff, UInt8.lt_iff_toNat_lt, ← UInt8.toNat_inj, hvalue m hm, hvalue n hn]

/-- Numbers are in the order of their digits in base 64, the highest ones first. -/
theorem digits_lt {m n : Nat} (h : m < n) :
    m / 262144 < n / 262144 ∨ m / 262144 = n / 262144 ∧
      (m / 4096 % 64 < n / 4096 % 64 ∨ m / 4096 % 64 = n / 4096 % 64 ∧
        (m / 64 % 64 < n / 64 % 64 ∨ m / 64 % 64 = n / 64 % 64 ∧ m % 64 < n % 64)) := by
  have hdigits : ∀ k, ∃ a b c d, k = 262144 * a + 4096 * b + 64 * c + d ∧ b < 64 ∧ c < 64 ∧ d < 64 ∧
      a = k / 262144 ∧ b = k / 4096 % 64 ∧ c = k / 64 % 64 ∧ d = k % 64 := by
    intro k
    exact ⟨_, _, _, _, by omega, Nat.mod_lt _ (by decide), Nat.mod_lt _ (by decide), Nat.mod_lt _ (by decide),
      rfl, rfl, rfl, rfl⟩
  obtain ⟨a, b, c, d, hm, hb, hc, hd, rfl, rfl, rfl, rfl⟩ := hdigits m
  obtain ⟨a', b', c', d', hn, hb', hc', hd', ha', hb'', hc'', hd''⟩ := hdigits n
  rw [← ha', ← hb'', ← hc'', ← hd'']
  omega

/-- A smaller character has smaller bytes, whatever follows. -/
theorem utf8EncodeChar_lt {c d : Char} (h : c < d) (rest other : List UInt8) :
    String.utf8EncodeChar c ++ rest < String.utf8EncodeChar d ++ other := by
  have hlt : c.val.toNat < d.val.toNat := h
  have hd : d.val.toNat < 1114112 := by
    rcases d.valid with h | h
    · exact Nat.lt_trans h (by decide)
    · exact h.2
  obtain ⟨m, hm⟩ : ∃ m, c.val.toNat = m := ⟨_, rfl⟩
  obtain ⟨n, hn⟩ : ∃ n, d.val.toNat = n := ⟨_, rfl⟩
  rw [hm, hn] at hlt
  rw [hn] at hd
  have hdigits := digits_lt hlt
  have hhigh : m / 262144 % 8 = m / 262144 ∧ n / 262144 % 8 = n / 262144 := by omega
  simp only [String.utf8EncodeChar, hm, hn, hhigh]
  -- a longer code starts with a greater byte, and codes of one length hold the digits
  repeat' split
  all_goals
    simp (disch := omega) only [List.cons_append, List.nil_append, ofNat_cons_lt_iff]
    omega

theorem flatMap_utf8EncodeChar_lt {first second : List Char} (h : first < second) :
    first.flatMap String.utf8EncodeChar < second.flatMap String.utf8EncodeChar := by
  induction first generalizing second with
  | nil =>
    cases second with
    | nil => exact absurd h (List.lt_irrefl _)
    | cons d second =>
      rw [List.flatMap_cons]
      cases hd : String.utf8EncodeChar d with
      | nil => exact absurd hd String.utf8EncodeChar_ne_nil
      | cons b bs => exact List.nil_lt_cons _ _
  | cons c first ih =>
    cases second with
    | nil => cases h
    | cons d second =>
      rw [List.flatMap_cons, List.flatMap_cons]
      rcases List.cons_lt_cons_iff.mp h with h | ⟨rfl, hrest⟩
      · exact utf8EncodeChar_lt h _ _
      · exact List.append_left_lt (ih hrest)

/-- Texts are in the order of their bytes. -/
theorem bytes_lt_iff {first second : String} : bytes first < bytes second ↔ first < second := by
  rw [bytes_eq, bytes_eq, String.lt_iff_toList_lt]
  refine ⟨fun h => ?_, flatMap_utf8EncodeChar_lt⟩
  rcases lt_trichotomy first.toList second.toList with hlt | heq | hgt
  · exact hlt
  · rw [heq] at h
    exact absurd h (List.lt_irrefl _)
  · exact absurd (flatMap_utf8EncodeChar_lt hgt) (List.lt_asymm h)

end Text

/-! ## The extension of units -/

def UnitName (name : String) : Prop :=
  ∃ stem, stem ≠ "" ∧ name = stem ++ ".vm"

theorem unitName_iff {name : String} : UnitName name ↔ (Path.splitName name).2 = some unitExtension := by
  have hdot : ∀ stem : String, stem ++ ".vm" = stem ++ "." ++ unitExtension := by
    intro stem
    rw [String.append_assoc]
    rfl
  constructor
  · rintro ⟨stem, hne, rfl⟩
    exact congrArg Prod.snd (Path.splitName_eq_some_iff.mpr ⟨hne, by decide, hdot stem⟩)
  · intro h
    obtain ⟨hne, -, hname⟩ := Path.splitName_eq_some_iff.mp (Prod.ext rfl h)
    exact ⟨_, hne, hname.trans (hdot _).symm⟩

theorem isUnitPath_iff {path : String} : isUnitPath path = true ↔ ∃ name, Path.name? path = some name ∧ UnitName name := by
  rw [isUnitPath_eq_true_iff]
  simp only [unitName_iff]

theorem isUnitPath_iff_of_isName {name : String} (h : Path.IsName name) : isUnitPath name = true ↔ UnitName name := by
  rw [isUnitPath_iff]
  constructor
  · rintro ⟨other, ho, hu⟩
    rw [h.name?] at ho
    exact Option.some.inj ho ▸ hu
  · exact fun hu => ⟨name, h.name?, hu⟩

/-! ## Directories -/

section Directories

variable {directory : Place}

/-- A plain file directly in a directory, with the extension of units. -/
def UnitIn (fs : FileSystem) (directory : Place) (name : String) : Prop :=
  UnitName name ∧ ∃ content, fs.node? (directory ++ [name]) = some (.file content)

theorem unitOf?_eq_some_iff {place : Place} {node : Node} {name : String} :
    unitOf? directory (place, node) = some name ↔
      place = directory ++ [name] ∧ isUnitPath name = true ∧ ∃ content, node = .file content := by
  cases node with
  | directory => simp [unitOf?]
  | file content =>
    rw [unitOf?, Option.filter_eq_some_iff, List.getLast?_eq_some_iff]
    simp only [Bool.and_eq_true, decide_eq_true_eq, Node.file.injEq, exists_eq', and_true]
    constructor
    · rintro ⟨⟨above, rfl⟩, rfl, hu⟩
      exact ⟨by rw [List.dropLast_concat], hu⟩
    · rintro ⟨rfl, hu⟩
      exact ⟨⟨directory, rfl⟩, List.dropLast_concat, hu⟩

theorem mem_unitNames_iff {fs : FileSystem.Volume} {name : String} : name ∈ unitNames fs directory ↔ UnitIn fs directory name := by
  have hplace : directory ++ [name] ≠ [] := by simp
  rw [unitNames_eq, List.mem_mergeSort, List.mem_filterMap]
  constructor
  · rintro ⟨⟨place, node⟩, hm, hunit⟩
    obtain ⟨rfl, hu, content, rfl⟩ := unitOf?_eq_some_iff.mp hunit
    have hname : Path.IsName name := fs.wellFormed.named _ hm name (List.mem_append_right _ (List.mem_singleton.mpr rfl))
    exact ⟨(isUnitPath_iff_of_isName hname).mp hu, content, (fs.wellFormed.node?_eq_some_iff hplace).mpr hm⟩
  · rintro ⟨hu, content, hn⟩
    have hm := (fs.wellFormed.node?_eq_some_iff hplace).mp hn
    have hname : Path.IsName name := fs.wellFormed.named _ hm name (List.mem_append_right _ (List.mem_singleton.mpr rfl))
    exact ⟨_, hm, unitOf?_eq_some_iff.mpr ⟨rfl, (isUnitPath_iff_of_isName hname).mpr hu, content, rfl⟩⟩

theorem nodup_unitNames (fs : FileSystem.Volume) (directory : Place) : (unitNames fs directory).Nodup := by
  rw [unitNames_eq, (List.mergeSort_perm _ _).nodup_iff]
  refine List.Pairwise.filterMap _ ?_ (List.pairwise_map.mp fs.wellFormed.once)
  rintro ⟨place, node⟩ ⟨place', node'⟩ hne name hname name' hname' rfl
  obtain ⟨rfl, -, -⟩ := unitOf?_eq_some_iff.mp hname
  obtain ⟨rfl, -, -⟩ := unitOf?_eq_some_iff.mp hname'
  exact hne rfl

/-- The units of a directory are in the order of the bytes of their names. -/
theorem pairwise_unitNames (fs : FileSystem.Volume) (directory : Place) :
    (unitNames fs directory).Pairwise fun first second => Text.bytes first < Text.bytes second := by
  have hsorted : (unitNames fs directory).Pairwise (· ≤ ·) := by
    refine (List.pairwise_mergeSort ?_ ?_ _).imp of_decide_eq_true
    · intro a b c hab hbc
      exact decide_eq_true (le_trans (of_decide_eq_true hab) (of_decide_eq_true hbc))
    · intro a b
      simpa using le_total a b
  refine (hsorted.and (nodup_unitNames fs directory)).imp ?_
  rintro a b ⟨hle, hne⟩
  exact Text.bytes_lt_iff.mpr (lt_of_le_of_ne hle hne)

/-- Names in order are the units of a directory if they are those that it lists. -/
theorem unitNames_eq_of_perm {fs : FileSystem.Volume} {names : List String}
    (hp : (fs.nodes.filterMap (unitOf? directory)).Perm names)
    (ho : names.Pairwise fun first second => Text.bytes first < Text.bytes second) : unitNames fs directory = names := by
  have hperm : (unitNames fs directory).Perm names := by
    rw [unitNames_eq]
    exact (List.mergeSort_perm _ _).trans hp
  refine hperm.eq_of_pairwise (fun a b _ _ hab hba => ?_) (pairwise_unitNames fs directory) ho
  exact absurd (Text.bytes_lt_iff.mp hab) (lt_asymm (Text.bytes_lt_iff.mp hba))

end Directories

/-! ## What a path stands for -/

variable {fs fs' : FileSystem} {path : String}

inductive StandsFor (fs : FileSystem) (path : String) : List String → Prop
  | directory {place : Place} {names : List String} (stands : fs.directory? path = some place)
    (nonempty : names ≠ []) (units : ∀ name, name ∈ names ↔ UnitIn fs place name)
    (ordered : names.Pairwise fun first second => Text.bytes first < Text.bytes second)
    (lead : ∀ name ∈ names, ∃ content, fs.find (Path.join path name) = .ok (place ++ [name], .file content)) :
      StandsFor fs path (names.map (Path.join path))
  | unit {name : String} (stands : fs.directory? path = none) (named : Path.name? path = some name)
    (unit : UnitName name) : StandsFor fs path [path]

inductive Refused (fs : FileSystem) (path : String) : Error → Prop
  | empty {place : Place} (stands : fs.directory? path = some place) (lacking : ∀ name, ¬ UnitIn fs place name) :
      Refused fs path (.usage (.noUnitsIn path))
  | other (stands : fs.directory? path = none) (lacking : ∀ name, Path.name? path = some name → ¬ UnitName name) :
      Refused fs path (.usage (.notAUnit path))

def Stands (fs : FileSystem) (path : String) : Prop :=
  (∃ place, fs.directory? path = some place ∧ ∃ name, UnitIn fs place name) ∨
    fs.directory? path = none ∧ ∃ name, Path.name? path = some name ∧ UnitName name

theorem StandsFor.stands {files : List String} (h : StandsFor fs path files) : Stands fs path := by
  cases h with
  | directory stands nonempty units =>
    obtain ⟨name, hname⟩ := List.exists_mem_of_ne_nil _ nonempty
    exact .inl ⟨_, stands, name, (units name).mp hname⟩
  | unit stands named unit => exact .inr ⟨stands, _, named, unit⟩

theorem Refused.not_stands {e : Error} (h : Refused fs path e) : ¬ Stands fs path := by
  rintro (⟨place, hd, name, hu⟩ | ⟨hd, name, hname, hu⟩)
  · cases h with
    | empty stands lacking =>
      rw [hd] at stands
      exact lacking name (Option.some.inj stands ▸ hu)
    | other stands lacking =>
      rw [hd] at stands
      cases stands
  · cases h with
    | empty stands lacking =>
      rw [hd] at stands
      cases stands
    | other stands lacking => exact lacking name hname hu

/-- Every path stands for some units or is refused. -/
theorem inputsOf_spec (fs : FileSystem.Volume) (path : String) :
    (∃ files, inputsOf fs path = .ok files ∧ StandsFor fs path files) ∨
      ∃ e, inputsOf fs path = .error e ∧ Refused fs path e := by
  cases hd : fs.directory? path with
  | none =>
    cases hu : isUnitPath path with
    | true =>
      obtain ⟨name, hname, hunit⟩ := isUnitPath_iff.mp hu
      exact .inl ⟨[path], by simp only [inputsOf, hd, hu, if_true], .unit hd hname hunit⟩
    | false =>
      refine .inr ⟨_, by simp only [inputsOf, hd, hu]; rfl, .other hd fun name hname hunit => ?_⟩
      rw [isUnitPath_iff.mpr ⟨name, hname, hunit⟩] at hu
      cases hu
  | some place =>
    have hmem : ∀ name, name ∈ unitNames fs place ↔ UnitIn fs place name := fun name => mem_unitNames_iff
    have hlead : ∀ name ∈ unitNames fs place,
        ∃ content, fs.find (Path.join path name) = .ok (place ++ [name], .file content) := by
      intro name hm
      obtain ⟨-, content, hn⟩ := (hmem name).mp hm
      have hlisted := (fs.wellFormed.node?_eq_some_iff (by simp)).mp hn
      have hname := fs.wellFormed.named _ hlisted name (List.mem_append_right _ (List.mem_singleton.mpr rfl))
      exact ⟨content, FileSystem.find_join hd hname hn⟩
    have hordered := pairwise_unitNames fs place
    cases hnames : unitNames fs place with
    | nil =>
      refine .inr ⟨_, by simp only [inputsOf, hd, hnames], .empty hd fun name hu => ?_⟩
      have := (hmem name).mpr hu
      rw [hnames] at this
      cases this
    | cons first rest =>
      rw [hnames] at hmem hlead hordered
      exact .inl ⟨_, by simp only [inputsOf, hd, hnames], .directory hd (List.cons_ne_nil _ _) hmem hordered hlead⟩

theorem StandsFor.unique {files files' : List String} (h : StandsFor fs path files) (h' : StandsFor fs path files') :
    files = files' := by
  cases h with
  | @directory place names stands _ units ordered =>
    cases h' with
    | @directory place' names' stands' _ units' ordered' =>
      obtain rfl : place = place' := Option.some.inj (stands.symm.trans stands')
      have hperm : names.Perm names' := by
        have hnodup : ∀ l : List String, (l.Pairwise fun first second => Text.bytes first < Text.bytes second) → l.Nodup := by
          intro l hl
          refine hl.imp ?_
          rintro a b hlt rfl
          exact List.lt_irrefl _ hlt
        rw [List.perm_ext_iff_of_nodup (hnodup _ ordered) (hnodup _ ordered')]
        exact fun name => (units name).trans (units' name).symm
      have hsame : names = names' := by
        refine hperm.eq_of_pairwise (fun a b _ _ hab hba => ?_) ordered ordered'
        exact absurd hba (List.lt_asymm hab)
      rw [hsame]
    | unit stands' =>
      rw [stands] at stands'
      cases stands'
  | unit stands =>
    cases h' with
    | directory stands' =>
      rw [stands] at stands'
      cases stands'
    | unit => rfl

theorem Refused.unique {e e' : Error} (h : Refused fs path e) (h' : Refused fs path e') : e = e' := by
  cases h with
  | empty stands =>
    cases h' with
    | empty => rfl
    | other stands' =>
      rw [stands] at stands'
      cases stands'
  | other stands =>
    cases h' with
    | empty stands' =>
      rw [stands] at stands'
      cases stands'
    | other => rfl

section Volumes

variable {fs : FileSystem.Volume}

theorem inputsOf_eq_ok_iff {files : List String} :
    inputsOf fs path = .ok files ↔ StandsFor fs path files := by
  rcases inputsOf_spec fs path with ⟨files', hok, hs⟩ | ⟨e, herror, hr⟩
  · rw [hok]
    exact ⟨fun he => Except.ok.inj he ▸ hs, fun hs' => congrArg _ (hs.unique hs')⟩
  · rw [herror]
    exact ⟨fun he => (by cases he), fun hs => absurd hs.stands hr.not_stands⟩

theorem inputsOf_eq_error_iff {e : Error} : inputsOf fs path = .error e ↔ Refused fs path e := by
  rcases inputsOf_spec fs path with ⟨files, hok, hs⟩ | ⟨e', herror, hr⟩
  · rw [hok]
    exact ⟨fun he => (by cases he), fun hr => absurd hs.stands hr.not_stands⟩
  · rw [herror]
    exact ⟨fun he => Except.error.inj he ▸ hr, fun hr' => congrArg _ (hr.unique hr')⟩

/-! ## All paths -/

/-- The units of all paths are those of each, in turn. -/
theorem inputFiles_eq_ok_iff {paths files : List String} :
    inputFiles fs paths = .ok files ↔ ∃ groups, List.Forall₂ (StandsFor fs) paths groups ∧ files = groups.flatten := by
  induction paths generalizing files with
  | nil =>
    simp only [inputFiles, List.forall₂_nil_left_iff, Except.ok.injEq, exists_eq_left, List.flatten_nil, eq_comm]
  | cons path paths ih =>
    rw [inputFiles]
    simp only [List.forall₂_cons_left_iff]
    constructor
    · intro hok
      split at hok
      · cases hok
      · rename_i first hfirst
        split at hok
        · cases hok
        · rename_i others hothers
          obtain ⟨groups, hgroups, rfl⟩ := ih.mp hothers
          cases hok
          exact ⟨first :: groups, ⟨first, groups, inputsOf_eq_ok_iff.mp hfirst, hgroups, rfl⟩, rfl⟩
    · rintro ⟨_, ⟨first, groups, hfirst, hgroups, rfl⟩, rfl⟩
      have hothers := ih.mpr ⟨groups, hgroups, rfl⟩
      simp only [inputsOf_eq_ok_iff.mpr hfirst, hothers, List.flatten_cons]

/-- The first path that stands for no unit is reported. -/
theorem inputFiles_eq_error_iff {paths : List String} {e : Error} :
    inputFiles fs paths = .error e ↔
      ∃ before path after, paths = before ++ path :: after ∧ (∀ p ∈ before, Stands fs p) ∧ Refused fs path e := by
  induction paths with
  | nil => simp [inputFiles]
  | cons path paths ih =>
    rcases inputsOf_spec fs path with ⟨files, hok, hs⟩ | ⟨e', herror, hr⟩
    · have hrest : inputFiles fs (path :: paths) = .error e ↔ inputFiles fs paths = .error e := by
        simp only [inputFiles, hok]
        cases inputFiles fs paths <;> simp
      rw [hrest, ih]
      constructor
      · rintro ⟨before, other, after, rfl, hbefore, hr⟩
        exact ⟨path :: before, other, after, rfl, List.forall_mem_cons.mpr ⟨hs.stands, hbefore⟩, hr⟩
      · rintro ⟨before, other, after, hpaths, hbefore, hr⟩
        cases before with
        | nil =>
          obtain ⟨rfl, rfl⟩ := List.cons.inj hpaths
          exact absurd hs.stands hr.not_stands
        | cons first before =>
          obtain ⟨rfl, rfl⟩ := List.cons.inj hpaths
          exact ⟨before, other, after, rfl, (List.forall_mem_cons.mp hbefore).2, hr⟩
    · have hfirst : inputFiles fs (path :: paths) = .error e' := by simp only [inputFiles, herror]
      rw [hfirst]
      constructor
      · intro he
        exact ⟨[], path, paths, rfl, List.forall_mem_nil _, Except.error.inj he ▸ hr⟩
      · rintro ⟨before, other, after, hpaths, hbefore, hr'⟩
        cases before with
        | nil =>
          obtain ⟨rfl, rfl⟩ := List.cons.inj hpaths
          exact congrArg _ (hr.unique hr')
        | cons first before =>
          obtain ⟨rfl, rfl⟩ := List.cons.inj hpaths
          exact absurd (hbefore path List.mem_cons_self) hr.not_stands

/-- A command has units if each of its paths stands for some. -/
theorem inputFiles_isOk_iff {paths : List String} :
    (∃ files, inputFiles fs paths = .ok files) ↔ ∀ path ∈ paths, Stands fs path := by
  cases hi : inputFiles fs paths with
  | ok files =>
    obtain ⟨groups, hgroups, -⟩ := inputFiles_eq_ok_iff.mp hi
    refine iff_of_true ⟨files, rfl⟩ fun path hm => ?_
    obtain ⟨k, hk, rfl⟩ := List.mem_iff_getElem.mp hm
    exact (List.forall₂_iff_get.mp hgroups).2 k hk (hgroups.length_eq ▸ hk) |>.stands
  | error e =>
    obtain ⟨before, path, after, rfl, -, hr⟩ := inputFiles_eq_error_iff.mp hi
    refine iff_of_false (by simp) fun hall => hr.not_stands (hall path ?_)
    exact List.mem_append_right _ List.mem_cons_self

/-! ## Any order -/

section Perm

variable (hhere : fs'.here = fs.here) (hp : fs'.nodes.Perm fs.nodes)
include hhere hp

theorem unitIn_perm (directory : Place) (name : String) : UnitIn fs' directory name ↔ UnitIn fs directory name := by
  rw [UnitIn, UnitIn, fs.node?_perm hhere hp]

theorem inputsOf_perm (path : String) : inputsOf fs' path = inputsOf fs path := by
  have hnode := fs.node?_perm hhere hp
  have hdirectory := FileSystem.directory?_congr hhere hnode path
  rcases inputsOf_spec fs path with ⟨files, hok, hs⟩ | ⟨e, herror, hr⟩
  · rw [hok]
    refine (@inputsOf_eq_ok_iff path (fs.reordered hhere hp) files).mpr ?_
    cases hs with
    | directory stands nonempty units ordered lead =>
      refine .directory (hdirectory.trans stands) nonempty (fun name => ?_) ordered fun name hm => ?_
      · exact (units name).trans (unitIn_perm hhere hp _ name).symm
      · obtain ⟨content, hf⟩ := lead name hm
        exact ⟨content, (FileSystem.find_congr hhere hnode).mpr hf⟩
    | unit stands named unit => exact .unit (hdirectory.trans stands) named unit
  · rw [herror]
    refine (@inputsOf_eq_error_iff path (fs.reordered hhere hp) e).mpr ?_
    cases hr with
    | empty stands lacking =>
      exact .empty (hdirectory.trans stands) fun name hu => lacking name ((unitIn_perm hhere hp _ name).mp hu)
    | other stands lacking => exact .other (hdirectory.trans stands) lacking

theorem inputFiles_perm (paths : List String) : inputFiles fs' paths = inputFiles fs paths := by
  induction paths with
  | nil => rfl
  | cons path paths ih => rw [inputFiles, inputFiles, inputsOf_perm hhere hp, ih]

end Perm

/-- A command has units if each of its paths stands for some: a directory for the units
    directly in it, by the bytes of their names, any other path with the extension of units
    for itself. They are taken in the order of the paths. Otherwise the first path that
    stands for none is reported. The order in which directories are listed does not
    matter. -/
theorem inputs_discovered (fs : FileSystem.Volume) (paths : List String) :
    ((∃ files, inputFiles fs paths = .ok files) ↔ ∀ path ∈ paths, Stands fs path) ∧
      (∀ files, inputFiles fs paths = .ok files ↔
        ∃ groups, List.Forall₂ (StandsFor fs) paths groups ∧ files = groups.flatten) ∧
      (∀ e, inputFiles fs paths = .error e ↔
        ∃ before path after, paths = before ++ path :: after ∧ (∀ p ∈ before, Stands fs p) ∧ Refused fs path e) ∧
      ∀ fs' : FileSystem, fs'.here = fs.here → fs'.nodes.Perm fs.nodes → inputFiles fs' paths = inputFiles fs paths :=
  ⟨inputFiles_isOk_iff, fun _ => inputFiles_eq_ok_iff, fun _ => inputFiles_eq_error_iff,
    fun _ hhere hp => inputFiles_perm hhere hp paths⟩

end Volumes

/-- A directory with units, a directory that is named like one, and names that are only
    nearly those of units. -/
def assorted : FileSystem.Volume where
  here := ["home"]
  nodes :=
    [(["home"], .directory), (["home", "D.vm"], .directory), (["home", "D.vm", "é.vm"], .file "".toUTF8),
      (["home", "D.vm", "x.vm"], .directory), (["home", "D.vm", "x.vm", "y.vm"], .file "".toUTF8),
      (["home", "D.vm", "b.vm"], .file "".toUTF8), (["home", "D.vm", ".vm"], .file "".toUTF8),
      (["home", "D.vm", "..vm"], .file "".toUTF8), (["home", "D.vm", "B.vm"], .file "".toUTF8),
      (["home", "D.vm", "b.vmx"], .file "".toUTF8), (["home", "E"], .directory)]
  wellFormed := ⟨by decide +kernel, by decide +kernel, by decide +kernel⟩

theorem standsFor_assorted : StandsFor assorted "../home/D.vm/"
    ["../home/D.vm/..vm", "../home/D.vm/B.vm", "../home/D.vm/b.vm", "../home/D.vm/é.vm"] := by
  have hdirectory : assorted.directory? "../home/D.vm/" = some ["home", "D.vm"] := by decide +kernel
  have hlisted : assorted.nodes.filterMap (unitOf? ["home", "D.vm"]) = ["é.vm", "b.vm", "..vm", "B.vm"] := by
    decide +kernel
  have hnames : unitNames assorted ["home", "D.vm"] = ["..vm", "B.vm", "b.vm", "é.vm"] := by
    refine unitNames_eq_of_perm ?_ (by decide +kernel)
    rw [hlisted]
    decide
  refine inputsOf_eq_ok_iff.mp ?_
  simp only [inputsOf, hdirectory, hnames]
  decide +kernel

/-- The units of a directory by the bytes of their names, in whatever order they are listed,
    and a path that leads nowhere; a directory without units is reported before a path that
    is not one. -/
theorem inputs_discovered_assorted :
    assorted.WellFormed ∧
      inputFiles assorted ["../home/D.vm/", "Missing.vm"] =
        .ok ["../home/D.vm/..vm", "../home/D.vm/B.vm", "../home/D.vm/b.vm", "../home/D.vm/é.vm", "Missing.vm"] ∧
      inputFiles { assorted.toFileSystem with nodes := assorted.nodes.reverse } ["../home/D.vm/", "Missing.vm"] =
        inputFiles assorted ["../home/D.vm/", "Missing.vm"] ∧
      inputFiles assorted ["Missing.vm", "E", ".vm"] = .error (.usage (.noUnitsIn "E")) := by
  obtain ⟨-, hok, -, hperm⟩ := inputs_discovered assorted ["../home/D.vm/", "Missing.vm"]
  obtain ⟨-, -, herror, -⟩ := inputs_discovered assorted ["Missing.vm", "E", ".vm"]
  have hmissing : ∀ fs : FileSystem, fs.directory? "Missing.vm" = none → StandsFor fs "Missing.vm" ["Missing.vm"] :=
    fun fs hd => .unit hd (by decide +kernel) ⟨"Missing", by decide, rfl⟩
  refine ⟨assorted.wellFormed, (hok _).mpr ⟨[_, _], .cons standsFor_assorted (.cons (hmissing _ ?_) .nil), rfl⟩,
    hperm _ rfl (List.reverse_perm _), (herror _).mpr ⟨["Missing.vm"], "E", [".vm"], rfl, ?_, ?_⟩⟩
  · decide +kernel
  · exact List.forall_mem_singleton.mpr (hmissing _ (by decide +kernel)).stands
  · exact inputsOf_eq_error_iff.mp (by decide +kernel)

end StackToHack
