import GitCore.Wildmatch.Correct

/-! # Matching of pathspecs

`git_fnmatch` compares the part of a pattern before the first wildcard as a string, and so what follows
if there is only one star. Behind that part two stars stand at the start of a pattern, where they match
slashes, even if the byte before them was not a slash. -/

namespace GitCore.Wildmatch

open List Ctype

/-- `simple_length` -/
def simpleLength (pattern : List UInt8) : Nat := (pattern.takeWhile fun c => !isGlobSpecial c).length

/-- `no_wildcard` -/
def noWildcard (string : List UInt8) : Bool := simpleLength string = string.length

/-- `struct pathspec_item` -/
structure PathspecItem where
  /-- `match` -/
  pattern : List UInt8
  /-- `PATHSPEC_GLOB` -/
  glob : Bool
  /-- `PATHSPEC_ICASE` -/
  icase : Bool
  nowildcardLen : Nat
  /-- `PATHSPEC_ONESTAR` -/
  onestar : Bool

/-- What `init_pathspec_item` finds in a pattern, for an item that is not literal and has no prefix. -/
def initPathspecItem (glob icase : Bool) (pattern : List UInt8) : PathspecItem where
  pattern := pattern
  glob := glob
  icase := icase
  nowildcardLen := simpleLength pattern
  onestar := !glob && pattern[simpleLength pattern]? = some 42 &&
    noWildcard (pattern.drop (simpleLength pattern + 1))

/-- Whether `ps_strcmp` is zero; for some bytes at the start it is `ps_strncmp`. -/
def psStrcmp (icase : Bool) (s1 s2 : List UInt8) : Bool :=
  if icase then s1.map tolower = s2.map tolower else s1 = s2

/-- Whether `git_fnmatch` is zero. -/
def gitFnmatch (item : PathspecItem) (pattern string : List UInt8) (prefixLen : Nat) : Bool :=
  if prefixLen > 0 ∧ !psStrcmp item.icase (pattern.take prefixLen) (string.take prefixLen) then false
  else
    let pattern := pattern.drop prefixLen
    let string := string.drop prefixLen
    if item.onestar then
      let pattern := pattern.drop 1
      pattern.length ≤ string.length ∧
        psStrcmp item.icase pattern (string.drop (string.length - pattern.length))
    else wildmatch ⟨item.icase, item.glob⟩ pattern string

/-- The call of `git_fnmatch` for an item. -/
def PathspecItem.fnmatch (item : PathspecItem) (name : List UInt8) : Bool :=
  gitFnmatch item item.pattern name item.nowildcardLen

variable {flags : Flags} {prev : Option UInt8} {lit p text : List UInt8}

/-- Strings are compared as bytes of a pattern are. -/
theorem psStrcmp_iff {icase pathname : Bool} {s1 s2 : List UInt8} : psStrcmp icase s1 s2 = true ↔
    s1.map (foldCase ⟨icase, pathname⟩) = s2.map (foldCase ⟨icase, pathname⟩) := by
  have hfold : foldCase ⟨icase, pathname⟩ = if icase then tolower else id := by
    funext c
    cases icase with
    | false => rfl
    | true =>
      refine forall_byte ?_ c
      cases pathname <;> decide +kernel
  rw [hfold, psStrcmp]
  cases icase <;> simp

/-- **The bytes before a wildcard** match themselves. -/
theorem matches_literal_iff (hlit : ∀ c ∈ lit, isGlobSpecial c = false) :
    Matches flags prev (lit ++ p) text ↔
      lit.map (foldCase flags) = (text.take lit.length).map (foldCase flags) ∧
        Matches flags (lit.getLast?.or prev) p (text.drop lit.length) := by
  induction lit generalizing prev text with
  | nil => simp
  | cons c lit ih =>
    obtain ⟨hc, hlit⟩ := forall_mem_cons.mp hlit
    obtain ⟨hne, hitem⟩ := @parseItem_literal flags c hc (lit ++ p)
    cases text with
    | nil => exact iff_of_false (not_matches_nil hne) (by simp)
    | cons t text =>
      have hlast : (c :: lit).getLast?.or prev = lit.getLast?.or (some c) := by
        rw [getLast?_cons]
        cases lit.getLast? <;> rfl
      rw [hlast, length_cons, take_succ_cons, drop_succ_cons, map_cons, map_cons, cons.injEq,
        and_assoc, ← ih hlit]
      constructor
      · intro h
        obtain ⟨t', text', htext, htest, hrest⟩ := h.item_inv hne hitem
        grind
      · rintro ⟨hfold, hrest⟩
        exact .item hne hitem (decide_eq_true hfold.symm) hrest

/-- **One star and bytes that are not special** match what ends in these bytes. -/
theorem matches_star_literal_iff (hlit : ∀ c ∈ lit, isGlobSpecial c = false)
    (hpathname : flags.pathname = false) : Matches flags prev (42 :: lit) text ↔
      lit.length ≤ text.length ∧ lit.map (foldCase flags) =
        (text.drop (text.length - lit.length)).map (foldCase flags) := by
  have hafter : afterStars lit = lit := by
    cases lit with
    | nil => rfl
    | cons c lit =>
      obtain ⟨hne, -⟩ := @parseItem_literal flags c (hlit c mem_cons_self) lit
      exact dropWhile_cons_of_neg (by simpa using hne)
  have hbehind := fun text' => @matches_literal_iff flags none lit [] text' hlit
  simp only [append_nil, matches_nil_iff, drop_eq_nil_iff] at hbehind
  rw [matches_star_iff, mayBeEmpty, matchSlash, hpathname, hafter]
  simp only [Bool.false_and, Bool.false_eq_true, false_and, false_or, Bool.not_false, Bool.true_or,
    true_or, true_and, hbehind]
  constructor
  · rintro ⟨run, text', rfl, h, hle⟩
    rw [take_of_length_le hle] at h
    have hlength : lit.length = text'.length := by simpa using congrArg List.length h
    rw [length_append, hlength, Nat.add_sub_cancel, drop_left]
    exact ⟨Nat.le_add_left _ _, h⟩
  · rintro ⟨hle, h⟩
    have hlength : (text.drop (text.length - lit.length)).length ≤ lit.length := by
      rw [length_drop]
      omega
    refine ⟨_, _, (take_append_drop _ _).symm, ?_, hlength⟩
    rwa [take_of_length_le hlength]

/-- A pattern up to its first wildcard. -/
theorem exists_simpleLength (pattern : List UInt8) : ∃ lit rest, pattern = lit ++ rest ∧
    simpleLength pattern = lit.length ∧ ∀ c ∈ lit, isGlobSpecial c = false := by
  refine ⟨_, _, takeWhile_append_dropWhile.symm, rfl, fun c hc => ?_⟩
  simpa using all_eq_true.mp all_takeWhile c hc

section

variable {icase : Bool} {rest name : List UInt8}

/-- **What `git_fnmatch` matches**: the part before the first wildcard is compared, and the rest is
matched as if it was the whole pattern. -/
theorem fnmatch_iff (hlength : simpleLength (lit ++ rest) = lit.length) (glob : Bool) :
    (initPathspecItem glob icase (lit ++ rest)).fnmatch name = true ↔
    psStrcmp icase lit (name.take lit.length) = true ∧
      Matches ⟨icase, glob⟩ none rest (name.drop lit.length) := by
  rw [PathspecItem.fnmatch, gitFnmatch]
  simp only [initPathspecItem, hlength, take_left, drop_left, getElem?_append_right le_rfl, Nat.sub_self,
    ← drop_drop]
  cases hsame : psStrcmp icase lit (name.take lit.length) with
  | false =>
    have hpos : lit.length > 0 := by
      refine length_pos_iff.mpr ?_
      rintro rfl
      cases icase <;> cases hsame
    simp [hpos]
  | true =>
    rw [if_neg fun hcon => absurd hcon.2 (by decide), and_iff_right rfl]
    split
    · rename_i honestar
      simp only [Bool.and_eq_true, Bool.not_eq_true', decide_eq_true_eq] at honestar
      obtain ⟨⟨rfl, hstar⟩, hliteral⟩ := honestar
      obtain ⟨rest, rfl⟩ := head?_eq_some_iff.mp (head?_eq_getElem?.trans hstar)
      obtain ⟨lit', rest', rfl, hlength', hlit'⟩ := exists_simpleLength rest
      rw [drop_succ_cons, drop_zero, noWildcard, hlength', length_append, decide_eq_true_eq] at hliteral
      obtain rfl : rest' = [] := length_eq_zero_iff.mp (by omega)
      rw [append_nil, matches_star_literal_iff hlit' rfl, ← psStrcmp_iff, decide_eq_true_eq]
      rfl
    · exact wildmatch_iff _ _ _

/-- What the whole pattern matches. -/
theorem wildmatch_literal_iff (hlit : ∀ c ∈ lit, isGlobSpecial c = false) (glob : Bool) :
    wildmatch ⟨icase, glob⟩ (lit ++ rest) name = true ↔
    psStrcmp icase lit (name.take lit.length) = true ∧
      Matches ⟨icase, glob⟩ lit.getLast? rest (name.drop lit.length) := by
  rw [wildmatch_iff, matches_literal_iff hlit, Option.or_none, ← psStrcmp_iff]

end

/-- Two stars or more up to a slash or the end, the first of them before `q`, match a text only if
they may pass its first slash. -/
def NeedsSlash (flags : Flags) (q text : List UInt8) : Prop :=
  q.head? = some 42 ∧ (afterStars q = [] ∧ 47 ∈ text ∨
    ∃ r, (afterStars q = 47 :: r ∨ afterStars q = 92 :: 47 :: r) ∧
      (∀ run text', text = run ++ 47 :: text' → 47 ∉ run → wildmatch flags r text' = false) ∧
      (afterStars q = 47 :: r ∧ wildmatch flags r text = true ∨
        ∃ run text', text = run ++ 47 :: text' ∧ wildmatch flags r text' = true))

section NeedsSlash

variable {q r : List UInt8} {last : Option UInt8}

/-- A slash behind a backslash is one, too. -/
theorem matches_rest_iff (h : p = 47 :: r ∨ p = 92 :: 47 :: r) : Matches flags prev p text ↔
    ∃ text', text = 47 :: text' ∧ wildmatch flags r text' = true := by
  simp only [wildmatch_iff]
  rcases h with rfl | rfl
  · exact matches_slash_iff
  have hitem : parseItem flags 92 (47 :: r) = some ⟨fun t => t = 47, 47, r⟩ := rfl
  constructor
  · intro h
    obtain ⟨t, text', rfl, htest, hrest⟩ := h.item_inv (by decide) hitem
    rw [foldCase_eq_slash.mp (of_decide_eq_true htest)]
    exact ⟨text', rfl, matches_none_iff.mpr hrest⟩
  · rintro ⟨text', rfl, hrest⟩
    exact .item (by decide) hitem (decide_eq_true (foldCase_eq_slash.mpr rfl))
      (matches_none_iff.mp hrest)

/-- The stars and what is behind them, where slashes cannot be passed. -/
theorem matches_star_behind (hpathname : flags.pathname = true)
    (hlast : ¬ (last = none ∨ last = some 47)) : Matches flags last (42 :: q) text ↔
      ∃ run text', text = run ++ text' ∧ 47 ∉ run ∧ Matches flags none (afterStars q) text' := by
  have hslash : matchSlash flags last q = false := by simp [matchSlash, betweenSlashes, hpathname, hlast]
  constructor
  · exact fun h => h.star_inv hslash
  · rintro ⟨run, text', rfl, hrun, hrest⟩
    exact .star (.inr hrun) hrest

/-- Stars between slashes, where slashes can be passed. -/
theorem matches_star_between (hbetween : betweenSlashes none q = true)
    (hr : afterStars q = 47 :: r ∨ afterStars q = 92 :: 47 :: r) :
    Matches flags none (42 :: q) text ↔
      (flags.pathname = true ∧ afterStars q = 47 :: r ∧ wildmatch flags r text = true) ∨
        ∃ run text', text = run ++ 47 :: text' ∧ wildmatch flags r text' = true := by
  have hslash : matchSlash flags none q = true := by simp [matchSlash, hbetween]
  rw [matches_star_iff]
  refine or_congr ?_ ?_
  · rcases hr with hr | hr <;> simp [mayBeEmpty, hbetween, hr, wildmatch_iff]
  · simp only [hslash, true_or, true_and, matches_rest_iff hr]
    simp

/-- **Where the byte before the stars matters.** -/
theorem needsSlash_iff (hpathname : flags.pathname = true)
    (hlast : ¬ (last = none ∨ last = some 47)) : NeedsSlash flags q text ↔
      Matches flags none (42 :: q) text ∧ ¬ Matches flags last (42 :: q) text := by
  by_cases hbetween : betweenSlashes none q = true
  · have hbetween' := hbetween
    simp only [betweenSlashes, decide_eq_true_eq] at hbetween'
    obtain ⟨hhead, -, hnil | hshape⟩ := hbetween'
    · -- stars at the end
      have hall : Matches flags none (42 :: q) text := by
        have hmatches := @Matches.star flags none q text [] (.inl (by simp [matchSlash, hbetween]))
          (by rw [hnil]; exact .nil)
        rwa [append_nil] at hmatches
      simp [NeedsSlash, hhead, hnil, hall, matches_star_behind hpathname hlast, matches_nil_iff]
    obtain ⟨r, hr⟩ : ∃ r, afterStars q = 47 :: r ∨ afterStars q = 92 :: 47 :: r := by
      rcases hshape with hhead | htwo
      · exact (head?_eq_some_iff.mp hhead).imp fun r => .inl
      · exact ⟨(afterStars q).drop 2, .inr (by rw [← take_append_drop 2 (afterStars q), htwo]; rfl)⟩
    rw [matches_star_between hbetween hr, matches_star_behind hpathname hlast]
    constructor
    · rintro ⟨-, ⟨hnil, -⟩ | ⟨r', hr', hfirst, hcut⟩⟩
      · simp [hnil] at hr
      obtain rfl : r = r' := by grind
      refine ⟨hcut.imp_left fun h => ⟨hpathname, h⟩, ?_⟩
      rintro ⟨run, _, htext, hrun, hrest⟩
      obtain ⟨text', rfl, hmatch⟩ := (matches_rest_iff hr).mp hrest
      grind
    · rintro ⟨hcut, hfull⟩
      refine ⟨hhead, .inr ⟨r, hr, fun run text' htext hrun => ?_, hcut.imp_left And.right⟩⟩
      refine Bool.eq_false_of_not_eq_true fun hmatch => hfull ⟨run, _, htext, hrun, ?_⟩
      exact (matches_rest_iff hr).mpr ⟨text', rfl, hmatch⟩
  · have hsame : Matches flags none (42 :: q) text ↔ Matches flags last (42 :: q) text := by
      refine matches_prev_iff fun _ q' hq => ?_
      obtain rfl := (List.cons.inj hq).2
      simp_all [betweenSlashes]
    refine iff_of_false ?_ fun h => h.2 (hsame.mp h.1)
    rintro ⟨hhead, ⟨hnil, -⟩ | ⟨r, hr, -⟩⟩
    · simp [betweenSlashes, hhead, hnil] at hbetween
    · rcases hr with hr | hr <;> simp [betweenSlashes, hhead, hr] at hbetween

end NeedsSlash

/-- Cutting off the literal part of a pattern matters: the name begins with it, it ends in another
byte than a slash, and stars behind it match the rest of the name only if they may pass a slash. -/
def CutMatters (icase : Bool) (lit rest name : List UInt8) : Prop :=
  psStrcmp icase lit (name.take lit.length) = true ∧
    ¬ (lit.getLast? = none ∨ lit.getLast? = some 47) ∧
    ∃ q, rest = 42 :: q ∧ NeedsSlash ⟨icase, true⟩ q (name.drop lit.length)

end GitCore.Wildmatch
