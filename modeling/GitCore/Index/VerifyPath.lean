import GitCore.Index.AddEntry

/-! # What `verify_path` accepts

The scanner of `verify_path_internal` looks at a component when it has read the slash before it, and
passes over the rest of it. Without the protection of the two file systems this decides whether the
components of a path are clean. -/

namespace GitCore.Index

open List
open GitCore.Ctype (tolower)

/-- `".git"` -/
def dotGitText : Name := [46, 103, 105, 116]

/-- **A clean component**: not empty, `.` or `..`, not `.git` in any case, and in the name of a
symbolic link not `.gitmodules` in any case. -/
def CleanComponent (mode : UInt32) (c : Name) : Prop :=
  c ≠ [] ∧ c ≠ [46] ∧ c ≠ [46, 46] ∧ c.map tolower ≠ dotGitText ∧
    (isLink mode = true → c.map tolower ≠ dotGitText ++ modulesText)

/-- A path whose components are clean. -/
def CleanPath (mode : UInt32) (path : Name) : Prop := ∀ c ∈ path.splitOn 47, CleanComponent mode c

/-- Nothing, or a clean path with a slash at its end, as the name of a directory. -/
def CleanDirectory (mode : UInt32) (path : Name) : Prop :=
  isDir mode = true ∧ (path = [] ∨ ∃ p, path = p ++ [47] ∧ CleanPath mode p)

/-- The settings with both protections off. -/
def Protection.off (protection : Protection) : Protection :=
  { protection with protectHfs := false, protectNtfs := false }

variable {mode : UInt32} {comp tail : Name} {c : UInt8} {protection : Protection}

/-! ## Components -/

theorem tolower_eq_dot : tolower c = 46 ↔ c = 46 := by
  refine forall_byte ?_ c
  decide +kernel

section

variable (hcomp : 47 ∉ comp) (htail : endsComponent tail = true)
include hcomp htail

/-- A component goes on unless there is nothing left of it. -/
theorem endsComponent_append : endsComponent (comp ++ tail) = true ↔ comp = [] := by
  cases comp with
  | nil => simp [htail]
  | cons c comp => simpa [endsComponent, eq_comm] using ne_of_not_mem_cons hcomp

/-- Whether the rest of a component is some text up to case. -/
theorem skipIPre_append {pre : Name} (hpre : tolower 47 ∉ pre.map tolower) :
    (skipIPre (comp ++ tail) pre).any endsComponent = true ↔
      comp.map tolower = pre.map tolower := by
  induction pre generalizing comp with
  | nil => simp [skipIPre, endsComponent_append hcomp htail]
  | cons p pre ih =>
    rw [map_cons, mem_cons, not_or] at hpre
    cases comp with
    | nil =>
      -- the slash behind the component is not part of the text
      cases tail with
      | nil => simp [skipIPre]
      | cons c tail => simp [skipIPre, of_decide_eq_true htail, hpre.1]
    | cons c comp =>
      by_cases hc : tolower c = tolower p
      · simp [skipIPre, hc, ih (not_mem_of_not_mem_cons hcomp) hpre.2]
      · simp [skipIPre, hc]

/-- The test for `.git` and `.gitmodules`, the dot and a letter G having been read. -/
theorem verifyDotfile_git (hc : tolower c = 103) :
    verifyDotfile (c :: (comp ++ tail)) mode = true ↔ CleanComponent mode (46 :: c :: comp) := by
  have hdot : c ≠ 46 := fun h => by simp [h, (by decide : tolower 46 = 46)] at hc
  have hslash : c ≠ 47 := fun h => by simp [h, (by decide : tolower 47 = 47)] at hc
  have hclean : CleanComponent mode (46 :: c :: comp) ↔ comp.map tolower ≠ [105, 116] ∧
      (isLink mode = true → comp.map tolower ≠ [105, 116] ++ modulesText) := by
    simp [CleanComponent, dotGitText, hdot, hc, (by decide : tolower 46 = 46)]
  rw [hclean]
  match comp, tail, hcomp, htail with
  | [], [], _, _ | [], [_], _, _ | [_], [], _, _ => simp [verifyDotfile, hc, hslash]
  | [], s :: _ :: _, _, hs | [_], s :: _, _, hs =>
    simp [verifyDotfile, hc, hslash, of_decide_eq_true hs, (by decide : tolower 47 = 47)]
  | i :: t :: comp, tail, hcomp, htail =>
    simp only [mem_cons, not_or] at hcomp
    have hend := endsComponent_append hcomp.2.2 htail
    have hskip := @skipIPre_append comp tail hcomp.2.2 htail modulesText (by decide)
    rw [(by decide : modulesText.map tolower = modulesText)] at hskip
    cases hrest : skipIPre (comp ++ tail) modulesText <;>
      simp [verifyDotfile, hc, hslash, hrest] <;> grind

/-- **`verify_dotfile`** refuses the components that start with a dot and are not clean. -/
theorem verifyDotfile_iff :
    verifyDotfile (comp ++ tail) mode = true ↔ CleanComponent mode (46 :: comp) := by
  cases comp with
  | nil =>
    cases tail with
    | nil => simp [verifyDotfile, CleanComponent]
    | cons c tail => simp [verifyDotfile, CleanComponent, of_decide_eq_true htail]
  | cons c comp =>
    rw [mem_cons, not_or] at hcomp
    by_cases hg : tolower c = 103
    · exact verifyDotfile_git hcomp.2 htail hg
    by_cases hd : c = 46
    · simp [verifyDotfile, CleanComponent, hd, (by decide : tolower 46 = 46), dotGitText,
        ← endsComponent_append hcomp.2 htail]
    · simp [verifyDotfile, CleanComponent, Ne.symm hcomp.1, hg, hd, dotGitText]

/-! ## Paths -/

omit htail

theorem cleanPath_comp : CleanPath mode comp ↔ CleanComponent mode comp := by
  simp [CleanPath, splitOn_eq_singleton hcomp]

theorem cleanPath_append (rest : Name) :
    CleanPath mode (comp ++ 47 :: rest) ↔ CleanComponent mode comp ∧ CleanPath mode rest := by
  simp [CleanPath, splitOn_append_cons_self_of_not_mem hcomp]

theorem cleanDirectory_append (rest : Name) :
    CleanDirectory mode (comp ++ 47 :: rest) ↔
      CleanComponent mode comp ∧ CleanDirectory mode rest := by
  have hlast : (∃ p, comp ++ 47 :: rest = p ++ [47] ∧ CleanPath mode p) ↔
      CleanComponent mode comp ∧ (rest = [] ∨ ∃ p, rest = p ++ [47] ∧ CleanPath mode p) := by
    rcases eq_nil_or_concat' rest with rfl | ⟨rest, c, rfl⟩
    · simp [cleanPath_comp hcomp]
    have hconcat : ∀ {a b : Name}, a ++ [c] = b ++ [47] ↔ a = b ∧ c = 47 := by
      simp [← concat_eq_append, concat_inj]
    rw [← cons_append, ← append_assoc]
    simp only [hconcat]
    simp [cleanPath_append hcomp, and_left_comm]
  simp [CleanDirectory, hlast, and_left_comm]

/-- The rest of a component is passed over. -/
theorem verifyComponents_append : verifyComponents protection.off mode
    (comp ++ tail) = verifyComponents protection.off mode tail := by
  induction comp with
  | nil => rfl
  | cons c comp ih =>
    rw [mem_cons, not_or] at hcomp
    rw [cons_append, verifyComponents.eq_def]
    simpa [Protection.off, Ne.symm hcomp.1] using ih hcomp.2

include htail

/-- **The scanner at a component.** -/
theorem verifyPathInternal_append (hne : comp ++ tail ≠ []) :
    (CleanComponent mode comp → verifyPathInternal protection.off mode (comp ++ tail) =
        verifyComponents protection.off mode tail) ∧
      (¬ CleanComponent mode comp →
        verifyPathInternal protection.off mode (comp ++ tail) = .pathInvalid) := by
  rw [verifyPathInternal, verifyComponents.eq_def]
  cases comp with
  | nil =>
    obtain ⟨c, tail, rfl⟩ := exists_cons_of_ne_nil hne
    simp [CleanComponent, of_decide_eq_true htail]
  | cons d comp =>
    rw [mem_cons, not_or] at hcomp
    have hclean : CleanComponent mode (d :: comp) ↔
        ((d = 46 && !verifyDotfile (comp ++ tail) mode) || d = 47) = false := by
      by_cases hd : d = 46
      · simp [hd, verifyDotfile_iff hcomp.2 htail]
      · simp [hd, Ne.symm hcomp.1, CleanComponent, dotGitText, tolower_eq_dot]
    rw [hclean]
    refine ⟨fun h => ?_, fun h => ?_⟩
    · simpa [h, isProtected, Protection.off] using
        @verifyComponents_append mode comp tail protection hcomp.2
    · simp [Bool.eq_true_of_not_eq_false h]

end

/-- **`verify_path_internal` accepts exactly the clean paths** when the protection of the two file
systems is off. -/
theorem verifyPathInternal_iff (protection : Protection) (mode : UInt32) (path : Name) :
    (verifyPathInternal protection.off mode path = .pathOk ↔ CleanPath mode path) ∧
      (verifyPathInternal protection.off mode path = .pathDirWithSep ↔ CleanDirectory mode path) ∧
      (verifyPathInternal protection.off mode path = .pathInvalid ↔
        ¬ CleanPath mode path ∧ ¬ CleanDirectory mode path) := by
  induction hlen : path.length using Nat.strong_induction_on generalizing path with
  | _ n ih =>
    by_cases hslash : 47 ∈ path
    · obtain ⟨comp, rest, rfl, hcomp⟩ := eq_append_cons_of_mem hslash
      have hrest := ih rest.length (by simp at hlen; omega) rest rfl
      obtain ⟨hgood, hbad⟩ := @verifyPathInternal_append mode comp (47 :: rest) protection hcomp rfl
        (by simp)
      rw [cleanPath_append hcomp, cleanDirectory_append hcomp]
      by_cases hclean : CleanComponent mode comp
      · rw [hgood hclean]
        simp only [hclean, true_and]
        exact hrest
      · simp [hbad hclean, hclean]
    · have hdir : CleanDirectory mode path ↔ isDir mode = true ∧ path = [] := by
        refine and_congr_right fun _ => ⟨?_, .inl⟩
        grind
      rw [cleanPath_comp hslash, hdir]
      cases path with
      | nil =>
        cases hmode : isDir mode <;> simp [verifyPathInternal, verifyComponents, hmode, isProtected,
          Protection.off, CleanComponent]
      | cons d comp =>
        obtain ⟨hgood, hbad⟩ := @verifyPathInternal_append mode (d :: comp) [] protection hslash rfl
          (by simp)
        rw [append_nil] at hgood hbad
        by_cases hclean : CleanComponent mode (d :: comp)
        · simp [hgood hclean, hclean, verifyComponents]
        · simp [hbad hclean, hclean]

/-! ## NTFS -/

/-- The loop at the end of `is_ntfs_dotgit`. -/
def isNtfsEnd : Name → Bool
  | [] => true
  | c :: name =>
    if c = 47 ∨ c = 92 ∨ c = 58 then true
    else if c ≠ 46 ∧ c ≠ 32 then false
    else isNtfsEnd name

/-- `is_ntfs_dotgit`: `.git` or `git~1`, with dots and spaces, up to a separator or a colon. -/
def isNtfsDotgit : Name → Bool
  | 46 :: g :: i :: t :: name =>
    (g = 103 || g = 71) && (i = 105 || i = 73) && (t = 116 || t = 84) && isNtfsEnd name
  | g :: i :: t :: 126 :: 49 :: name =>
    (g = 103 || g = 71) && (i = 105 || i = 73) && (t = 116 || t = 84) && isNtfsEnd name
  | _ => false

/-- `q` is the rest of the path from the start of a piece on, the path being split at the slashes
and the backslashes. -/
def StartsPiece (path q : Name) : Prop := ∃ c, (c = 47 ∨ c = 92) ∧ c :: q <:+ 47 :: path

/-- What NTFS takes for `.git`, or for `.gitmodules` when it is the name of a symbolic link. -/
def Protection.isNtfsGit (protection : Protection) (mode : UInt32) (q : Name) : Bool :=
  protection.isNtfsDotgit q || (isLink mode && protection.isNtfsDotgitmodules q)

/-- A piece that is refused on its own is only passed over behind a backslash that is the first byte
of a component. -/
theorem suffix_of_verifyComponents (hntfs : protection.protectNtfs = true) {path q : Name}
    (hpath : verifyComponents protection mode path ≠ .pathInvalid) (hc : c = 47 ∨ c = 92)
    (hq : c :: q <:+ path) (hbad : protection.isNtfsGit mode q = true) :
    47 :: 92 :: q <:+ path := by
  have hseen : ∀ {l}, ¬ isProtected protection mode l = true → q ≠ l := by
    rintro _ h rfl
    exact h (Bool.or_eq_true_iff.mpr (.inr (by rw [hntfs]; exact hbad)))
  fun_induction verifyComponents protection mode path with
  | case1 => simp at hq
  | case2 | case4 | case5 | case7 => exact absurd rfl hpath
  | case3 _ h => simp [suffix_cons_iff, hseen h] at hq
  | case6 d rest hd h ih =>
    rw [suffix_cons_iff, suffix_cons_iff] at hq
    rcases hq with hq | hq | hq
    · exact absurd (List.cons.inj hq).2 (hseen h)
    · -- the first byte of a component is a backslash
      obtain ⟨rfl, rfl⟩ := List.cons.inj hq
      simp_all
    · exact (ih hpath hq).trans ((suffix_cons _ _).trans (suffix_cons _ _))
  | case8 d rest hd h ih =>
    rcases suffix_cons_iff.mp hq with hq | hq
    · obtain ⟨rfl, rfl⟩ := List.cons.inj hq
      simp_all [Protection.isNtfsGit]
    · exact (ih hpath hq).trans (suffix_cons _ _)

/-- **The pieces of an accepted path.** The protection of NTFS keeps out every piece that it takes
for `.git`, unless a component starts with a backslash and such a piece follows. -/
theorem verifyPathInternal_ntfs (hntfs : protection.protectNtfs = true) {path : Name}
    (hpath : verifyPathInternal protection mode path ≠ .pathInvalid) :
    (∀ q, StartsPiece path q → protection.isNtfsGit mode q = false) ↔
      ∀ q, 47 :: 92 :: q <:+ 47 :: path → protection.isNtfsGit mode q = false := by
  refine ⟨fun h q hq => h q ⟨92, .inr rfl, (suffix_cons _ _).trans hq⟩, fun h q hstart => ?_⟩
  obtain ⟨c, hc, hq⟩ := hstart
  by_contra hbad
  rw [Bool.not_eq_false] at hbad
  simp [h q (suffix_of_verifyComponents hntfs hpath hc hq hbad)] at hbad

/-- NTFS alone, where `.gitmodules` is not looked at unless the entry is a symbolic link. -/
def ntfsProtection : Protection :=
  ⟨false, true, fun _ => false, fun _ => false, isNtfsDotgit, fun _ => false⟩

theorem verifyPathInternal_ntfs_plain :
    verifyPathInternal ntfsProtection 0o100644 [97, 92, 98] ≠ .pathInvalid ∧
      ((∀ q, StartsPiece [97, 92, 98] q → ntfsProtection.isNtfsGit 0o100644 q = false) ↔
        ∀ q, 47 :: 92 :: q <:+ [47, 97, 92, 98] → ntfsProtection.isNtfsGit 0o100644 q = false) :=
  ⟨by decide, verifyPathInternal_ntfs rfl (by decide)⟩

/-- `\.git` is accepted: its first byte is consumed as the start of a component, so that what
follows the backslash is not looked at. -/
theorem verifyPathInternal_backslash :
    verifyPathInternal ntfsProtection 0o100644 [92, 46, 103, 105, 116] = .pathOk ∧
      StartsPiece [92, 46, 103, 105, 116] dotGitText ∧
      ntfsProtection.isNtfsGit 0o100644 dotGitText = true :=
  ⟨rfl, ⟨92, .inr rfl, by decide⟩, rfl⟩

end GitCore.Index
