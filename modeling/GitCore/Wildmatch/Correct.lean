import GitCore.Wildmatch.Dowild
import Mathlib.Data.List.TakeWhile

/-! # What a pattern matches

`Matches` says what a pattern matches, with a plain choice for every star: it stands for some run of
characters, and the rest of the pattern matches what follows. `dowild` decides this. The argument is
about the meaning of its two other results: which positions of the text behind the current one have
been ruled out as well. -/

namespace GitCore.Wildmatch

open List Ctype

variable {flags : Flags} {prev : Option UInt8} {pCh t : UInt8} {p text rest : List UInt8} {result : WM}

/-! ## The meaning of a pattern -/

/-- The pattern, behind the byte `prev`, matches the text. -/
inductive Matches (flags : Flags) : Option UInt8 → List UInt8 → List UInt8 → Prop
  /-- Nothing matches nothing. -/
  | nil {prev : Option UInt8} : Matches flags prev [] []
  /-- An item matches a character. -/
  | item {prev : Option UInt8} {pCh t : UInt8} {p text : List UInt8} {item : Item} (hpCh : pCh ≠ 42)
    (hitem : parseItem flags pCh p = some item) (htest : item.test (foldCase flags t) = true)
    (hrest : Matches flags (some item.last) item.rest text) :
    Matches flags prev (pCh :: p) (t :: text)
  /-- A star, or several, match a run of characters, without a slash unless that is allowed. -/
  | star {prev : Option UInt8} {p run text : List UInt8}
    (hrun : matchSlash flags prev p = true ∨ 47 ∉ run)
    (hrest : Matches flags none (afterStars p) text) : Matches flags prev (42 :: p) (run ++ text)
  /-- Two stars and a slash match nothing. -/
  | empty {prev : Option UInt8} {p text : List UInt8} (hempty : mayBeEmpty flags prev p = true)
    (hrest : Matches flags none ((afterStars p).drop 1) text) : Matches flags prev (42 :: p) text

theorem matches_nil_iff : Matches flags prev [] text ↔ text = [] := by
  constructor
  · intro h
    cases h
    rfl
  · rintro rfl
    exact .nil

theorem matches_item_iff (hpCh : pCh ≠ 42) : Matches flags prev (pCh :: p) text ↔
    ∃ t text' item, text = t :: text' ∧ parseItem flags pCh p = some item ∧
      item.test (foldCase flags t) = true ∧ Matches flags (some item.last) item.rest text' := by
  constructor
  · intro h
    cases h with
    | item _ hitem htest hrest => exact ⟨_, _, _, rfl, hitem, htest, hrest⟩
    | star | empty => exact absurd rfl hpCh
  · rintro ⟨t, text', item, rfl, hitem, htest, hrest⟩
    exact .item hpCh hitem htest hrest

theorem matches_star_iff : Matches flags prev (42 :: p) text ↔
    (mayBeEmpty flags prev p = true ∧ Matches flags none ((afterStars p).drop 1) text) ∨
      ∃ run text', text = run ++ text' ∧ (matchSlash flags prev p = true ∨ 47 ∉ run) ∧
        Matches flags none (afterStars p) text' := by
  constructor
  · intro h
    cases h with
    | item hpCh => exact absurd rfl hpCh
    | star hrun hrest => exact .inr ⟨_, _, rfl, hrun, hrest⟩
    | empty hempty hrest => exact .inl ⟨hempty, hrest⟩
  · rintro (⟨hempty, hrest⟩ | ⟨run, text', rfl, hrun, hrest⟩)
    · exact .empty hempty hrest
    · exact .star hrun hrest

/-- The byte before a pattern only matters for stars at its start. -/
theorem matches_prev_iff {prev' : Option UInt8} (h : flags.pathname = true → ∀ q, p = 42 :: q →
      betweenSlashes prev q = betweenSlashes prev' q) :
    Matches flags prev p text ↔ Matches flags prev' p text := by
  cases p with
  | nil => rw [matches_nil_iff, matches_nil_iff]
  | cons pCh p =>
    by_cases hpCh : pCh = 42
    · subst hpCh
      rw [matches_star_iff, matches_star_iff, mayBeEmpty, mayBeEmpty, matchSlash, matchSlash]
      grind
    · rw [matches_item_iff hpCh, matches_item_iff hpCh]

/-- The start of a pattern is like a place behind a slash. -/
theorem matches_none_iff : Matches flags none p text ↔ Matches flags (some 47) p text :=
  matches_prev_iff fun _ q _ => by simp [betweenSlashes]

/-! ## Items -/

section Items

variable {prevCh : UInt8} {item : Item}

/-- Changing the case does not make a slash. -/
theorem foldCase_eq_slash : foldCase flags t = 47 ↔ t = 47 := by
  obtain ⟨casefold, pathname⟩ := flags
  refine forall_byte ?_ t
  cases casefold <;> cases pathname <;> decide +kernel

/-- The pattern behind a named class or a normal character is not longer. -/
theorem length_bracketRound {test : UInt8 → Bool} {prevCh' : UInt8}
    (h : bracketRound flags pCh p prevCh = some (test, prevCh', rest)) : rest.length ≤ p.length := by
  unfold bracketRound at h
  split at h
  · grind
  split at h
  · split at h
    · split at h
      · cases h
      rename_i hdrop
      cases h
      have hlen := congrArg List.length hdrop
      rw [length_drop, length_cons] at hlen
      omega
    · cases h
      rw [length_drop]
      omega
  · split at h
    · dsimp only at h
      split at h
      · cases h
      rename_i hdrop
      split at h
      · cases h
        exact le_rfl
      obtain ⟨test', -, hpair⟩ := Option.map_eq_some_iff.mp h
      cases hpair
      have hlen := (dropWhile_sublist (· ≠ 93) (l := p.drop 1)).length_le
      rw [hdrop, length_cons, length_drop] at hlen
      omega
    · cases h
      exact le_rfl

theorem length_bracketLoop {fuel : Nat} {isMatched test : UInt8 → Bool}
    (h : bracketLoop flags fuel pCh p prevCh isMatched = some (test, rest)) :
    rest.length < p.length := by
  induction fuel generalizing pCh p prevCh isMatched with
  | zero => cases h
  | succ fuel ih =>
    rw [bracketLoop] at h
    split at h
    · cases h
    split at h
    · cases h
    rename_i test' prevCh' p' hround
    have hle := length_bracketRound hround
    split at h
    · cases h
    split at h
    · obtain ⟨-, rfl⟩ := Prod.mk.inj (Option.some.inj h)
      rw [length_cons] at hle
      omega
    · have := ih h
      rw [length_cons] at hle
      omega

/-- A bracket expression ends in a bracket, and does not match a slash in a path name. -/
theorem parseBracket_eq_some (h : parseBracket flags p = some item) :
    item.last = 93 ∧ (flags.pathname = true → item.test 47 = false) ∧ item.rest.length ≤ p.length := by
  obtain ⟨⟨isMatched, rest⟩, hloop, rfl⟩ := Option.map_eq_some_iff.mp h
  refine ⟨rfl, fun hpathname => by simp [hpathname], ?_⟩
  have hlt := length_bracketLoop hloop
  change rest.length ≤ p.length
  grind

/-- **What an item can be**: one that stands for a single character, or else one that neither ends in
a slash nor, in a path name, matches one. The pattern behind it is shorter. -/
theorem parseItem_eq_some (h : parseItem flags pCh p = some item) :
    item.rest.length ≤ p.length ∧
      ((∃ c, (∀ t, item.test t = true → t = c) ∧ (item.last = 47 → c = 47)) ∨
        (item.last ≠ 47 ∧ (flags.pathname = true → item.test 47 = false))) := by
  unfold parseItem at h
  split at h
  · split at h
    · cases h
      exact ⟨le_rfl, .inr ⟨by decide, fun _ => rfl⟩⟩
    · cases h
      exact ⟨Nat.le_succ _, .inl ⟨_, fun t => of_decide_eq_true, id⟩⟩
  · split at h
    · cases h
      exact ⟨le_rfl, .inr ⟨(by decide : (63 : UInt8) ≠ 47), fun hpathname => by simp [hpathname]⟩⟩
    split at h
    · obtain ⟨hlast, htest, hlength⟩ := parseBracket_eq_some h
      exact ⟨hlength, .inr ⟨by rw [hlast]; decide, htest⟩⟩
    · cases h
      exact ⟨le_rfl, .inl ⟨_, fun t => of_decide_eq_true, foldCase_eq_slash.mpr⟩⟩

/-- An item that ends in a slash is that slash. -/
theorem test_of_last_slash (h : parseItem flags pCh p = some item) (hlast : item.last = 47)
    (htest : item.test (foldCase flags t) = true) : t = 47 := by
  obtain ⟨-, ⟨c, hc, hslash⟩ | ⟨hne, -⟩⟩ := parseItem_eq_some h
  · exact foldCase_eq_slash.mp ((hc _ htest).trans (hslash hlast))
  · exact absurd hlast hne

/-- In a path name only a slash matches a slash. -/
theorem test_slash (hpathname : flags.pathname = true) (h : parseItem flags pCh p = some item)
    (hslash : item.test (foldCase flags 47) = true) (htest : item.test (foldCase flags t) = true) :
    t = 47 := by
  rw [foldCase_eq_slash.mpr rfl] at hslash
  obtain ⟨-, ⟨c, hc, -⟩ | ⟨-, hnot⟩⟩ := parseItem_eq_some h
  · exact foldCase_eq_slash.mp ((hc _ htest).trans (hc _ hslash).symm)
  · exact absurd (hslash.symm.trans (hnot hpathname)) (by decide)

/-- A character that is not special stands for itself. -/
theorem parseItem_literal (h : isGlobSpecial pCh = false) (p : List UInt8) :
    pCh ≠ 42 ∧ parseItem flags pCh p = some ⟨fun t => t = foldCase flags pCh, pCh, p⟩ := by
  obtain ⟨hstar, hbackslash, hany, hbracket⟩ : pCh ≠ 42 ∧ pCh ≠ 92 ∧ pCh ≠ 63 ∧ pCh ≠ 91 := by
    revert h
    refine forall_byte ?_ pCh
    decide +kernel
  refine ⟨hstar, ?_⟩
  unfold parseItem
  rw [if_neg hbackslash, if_neg hany, if_neg hbracket]

end Items

/-! ## The results -/

section Results

variable (flags)

/-- The texts at which the pattern is ruled out with `text` when no later position can succeed. If the
pattern starts with a star, that only concerns positions behind a character that the byte before the
star may have matched, since two stars behind a slash may stand for nothing. -/
def Later (prev : Option UInt8) (p text text' : List UInt8) : Prop :=
  text' = text ∨ ∃ u c, text = u ++ c :: text' ∧
    (p.head? = some 42 → ∃ b, prev = some b ∧ (b = 47 → c = 47))

/-- The texts up to the next slash. -/
def BeforeSlash (text text' : List UInt8) : Prop := ∃ u, text = u ++ text' ∧ 47 ∉ u

omit flags in
theorem BeforeSlash.cons_cases {text' : List UInt8}
    (h : BeforeSlash (t :: text) text') : text' = t :: text ∨ t ≠ 47 ∧ BeforeSlash text text' := by
  obtain ⟨_ | ⟨a, u⟩, hsplit, hu⟩ := h
  · exact .inl hsplit.symm
  obtain ⟨rfl, htext⟩ := List.cons.inj hsplit
  obtain ⟨ht, hu⟩ := not_or.mp (mt mem_cons.mpr hu)
  exact .inr ⟨Ne.symm ht, u, htext, hu⟩

/-- **What the results of `dowild` mean.** -/
def Means (prev : Option UInt8) (p text : List UInt8) : WM → Prop
  | .match => Matches flags prev p text
  | .noMatch => ¬ Matches flags prev p text
  | .abortAll => ∀ text', Later prev p text text' → ¬ Matches flags prev p text'
  | .abortToStarstar => flags.pathname = true ∧
      ∀ text', BeforeSlash text text' → ¬ Matches flags prev p text'

variable {flags}

/-- Every result but success rules out the text itself. -/
theorem Means.not_matches (h : Means flags prev p text result) (hresult : result ≠ .match) :
    ¬ Matches flags prev p text := by
  cases result with
  | «match» => exact absurd rfl hresult
  | noMatch => exact h
  | abortAll => exact h text (.inl rfl)
  | abortToStarstar => exact h.2 text ⟨[], rfl, not_mem_nil⟩

/-- What an item matches. -/
theorem Matches.item_inv {item : Item} (h : Matches flags prev (pCh :: p) text)
    (hpCh : pCh ≠ 42) (hitem : parseItem flags pCh p = some item) :
    ∃ t text', text = t :: text' ∧ item.test (foldCase flags t) = true ∧
      Matches flags (some item.last) item.rest text' := by
  obtain ⟨t, text', item', htext, hitem', htest, hrest⟩ := (matches_item_iff hpCh).mp h
  grind

/-- The step for an item. -/
theorem Means.item {item : Item} (hpCh : pCh ≠ 42)
    (hitem : parseItem flags pCh p = some item) (htest : item.test (foldCase flags t) = true)
    (h : Means flags (some item.last) item.rest text result) :
    Means flags prev (pCh :: p) (t :: text) result := by
  cases result with
  | «match» => exact .item hpCh hitem htest h
  | noMatch =>
    intro hmatches
    obtain ⟨t', text', htext, -, hrest⟩ := hmatches.item_inv hpCh hitem
    obtain ⟨-, rfl⟩ := List.cons.inj htext
    exact h hrest
  | abortAll =>
    intro text' hlater hmatches
    obtain ⟨t', text'', rfl, htest', hrest⟩ := hmatches.item_inv hpCh hitem
    refine h text'' ?_ hrest
    rcases hlater with heq | ⟨u, c, hsplit, -⟩
    · exact .inl (List.cons.inj heq).2
    -- the item would match a character behind the one that it has matched
    refine .inr ⟨(u ++ [c]).tail, t', ?_, fun _ => ⟨item.last, rfl, fun hlast =>
      test_of_last_slash hitem hlast htest'⟩⟩
    cases u with
    | nil => exact (List.cons.inj hsplit).2
    | cons a u =>
      grind
  | abortToStarstar =>
    obtain ⟨hpathname, h⟩ := h
    refine ⟨hpathname, ?_⟩
    intro text' hbefore hmatches
    obtain ⟨t', text'', rfl, htest', hrest⟩ := hmatches.item_inv hpCh hitem
    refine h text'' ?_ hrest
    rcases hbefore.cons_cases with heq | ⟨ht, u, htext, hu⟩
    · obtain ⟨-, rfl⟩ := List.cons.inj heq
      exact ⟨[], rfl, not_mem_nil⟩
    -- the item cannot match a slash now that it has matched a character before it
    have ht' : t' ≠ 47 := by
      rintro rfl
      exact ht (test_slash hpathname hitem htest' htest)
    refine ⟨u ++ [t'], by rw [htext, append_assoc]; rfl, ?_⟩
    grind

end Results

/-! ## Stars -/

section Stars

variable {slash : Bool}

theorem head_afterStars (p : List UInt8) : (afterStars p).head? ≠ some 42 := by
  intro h
  have hhead := head?_dropWhile_not (fun c : UInt8 => decide (c = 42)) p
  rw [afterStars] at h
  rw [h] at hhead
  simp at hhead

/-- The characters that the search for a literal passes are neither the literal nor, if a slash stops
it, a slash. -/
theorem skipToLiteral_spec (flags : Flags) (slash : Bool) (pCh : UInt8) (text : List UInt8) :
    ∃ run, text = run ++ skipToLiteral flags slash pCh text ∧
      (∀ t ∈ run, foldCase flags t ≠ pCh) ∧ (slash = true ∨ 47 ∉ run) ∧
      ∀ t ∈ (skipToLiteral flags slash pCh text).head?, foldCase flags t = pCh ∨
        (slash = false ∧ t = 47) := by
  induction text with
  | nil => exact ⟨[], rfl, nofun, .inr not_mem_nil, fun t ht => by cases ht⟩
  | cons t text ih =>
    rw [skipToLiteral]
    split
    · rename_i hstop
      simp only [Bool.and_eq_true, Bool.not_eq_true', decide_eq_true_eq] at hstop
      refine ⟨[], rfl, nofun, .inr not_mem_nil, ?_⟩
      grind
    · rename_i hgo
      split
      · rename_i hfound
        refine ⟨[], rfl, nofun, .inr not_mem_nil, ?_⟩
        grind
      rename_i hother
      obtain ⟨run, htext, hrun, hslash, hhead⟩ := ih
      refine ⟨t :: run, by rw [cons_append, ← htext], forall_mem_cons.mpr ⟨hother, hrun⟩,
        ?_, hhead⟩
      simp only [Bool.and_eq_true, Bool.not_eq_true', decide_eq_true_eq, not_and] at hgo
      cases slash with
      | true => exact .inl rfl
      | false =>
        rw [mem_cons, not_or]
        exact .inr ⟨fun heq => hgo rfl heq.symm, hslash.resolve_left (by decide)⟩

/-- What the results of the loop over the positions mean for the pattern behind the star. -/
def LoopMeans (flags : Flags) (slash : Bool) (p text : List UInt8) : WM → Prop
  | .match => ∃ run text', text = run ++ text' ∧ (slash = true ∨ 47 ∉ run) ∧
      Matches flags none p text'
  | .noMatch => False
  | .abortAll => ∀ text', text' <:+ text → ¬ Matches flags none p text'
  | .abortToStarstar => slash = false ∧
      ∀ text', BeforeSlash text text' → ¬ Matches flags none p text'

/-- A pattern that starts with an item does not match nothing. -/
theorem not_matches_nil (hpCh : pCh ≠ 42) : ¬ Matches flags prev (pCh :: p) [] := by
  intro h
  obtain ⟨t, text', item, htext, -⟩ := (matches_item_iff hpCh).mp h
  cases htext

/-- A position that is ruled out before the others. -/
theorem LoopMeans.cons (h : LoopMeans flags slash p text result)
    (hnot : ¬ Matches flags none p (t :: text)) (hslash : slash = true ∨ t ≠ 47) :
    LoopMeans flags slash p (t :: text) result := by
  cases result with
  | «match» =>
    obtain ⟨run, text', rfl, hrun, hmatches⟩ := h
    refine ⟨t :: run, text', rfl, ?_, hmatches⟩
    grind
  | noMatch => exact h
  | abortAll =>
    intro text' hsuffix
    rcases suffix_cons_iff.mp hsuffix with rfl | hsuffix
    · exact hnot
    · exact h text' hsuffix
  | abortToStarstar =>
    refine ⟨h.1, ?_⟩
    intro text' hbefore
    rcases hbefore.cons_cases with rfl | ⟨-, hbefore⟩
    · exact hnot
    · exact h.2 text' hbefore

variable {u : List UInt8}

/-- Positions that are passed since the literal behind the star is not there. -/
theorem LoopMeans.skip {run : List UInt8} (h : LoopMeans flags slash (pCh :: p) text result)
    (hliteral : isGlobSpecial pCh = false)
    (hrun : ∀ t ∈ run, foldCase flags t ≠ foldCase flags pCh) (hslash : slash = true ∨ 47 ∉ run) :
    LoopMeans flags slash (pCh :: p) (run ++ text) result := by
  induction run with
  | nil => exact h
  | cons t run ih =>
    obtain ⟨ht, hrun⟩ := forall_mem_cons.mp hrun
    obtain ⟨hpCh, hitem⟩ := parseItem_literal hliteral p
    refine (ih hrun (hslash.imp_right fun hmem h => hmem (mem_cons_of_mem _ h))).cons ?_
      (hslash.imp_right fun hmem heq => hmem (heq ▸ mem_cons_self))
    intro hmatches
    obtain ⟨t', text', htext, htest, -⟩ := hmatches.item_inv hpCh hitem
    grind

/-- A result of `dowild` that the loop hands on. -/
theorem Means.loopMeans (hpCh : pCh ≠ 42) (h : Means flags none (pCh :: p) text result)
    (hne : result ≠ .noMatch) (hslash : slash = false ∨ result ≠ .abortToStarstar) :
    LoopMeans flags slash (pCh :: p) text result := by
  cases result with
  | «match» => exact ⟨[], text, rfl, .inr not_mem_nil, h⟩
  | noMatch => exact absurd rfl hne
  | abortAll =>
    rintro text' ⟨u, rfl⟩
    refine h text' ?_
    have hhead : (pCh :: p).head? ≠ some 42 := fun heq => hpCh (Option.some.inj heq)
    rcases eq_nil_or_concat' u with rfl | ⟨u, c, rfl⟩
    · exact .inl rfl
    · exact .inr ⟨u, c, by rw [append_assoc]; rfl, fun heq => absurd heq hhead⟩
  | abortToStarstar => exact ⟨hslash.resolve_right (absurd rfl), h.2⟩

/-- A slash that must not be passed. -/
theorem LoopMeans.at_slash (hslash : slash = false) (hnot : ¬ Matches flags none p (47 :: text)) :
    LoopMeans flags slash p (47 :: text) .abortToStarstar := by
  refine ⟨hslash, ?_⟩
  intro text' hbefore
  rcases hbefore.cons_cases with rfl | ⟨hne, -⟩
  · exact hnot
  · exact absurd rfl hne

/-- Where the loop goes on when the pattern starts with a literal. -/
theorem passes_spec
    (hrest : (if (!isGlobSpecial pCh) = true then skipToLiteral flags slash (foldCase flags pCh) text
      else text) = rest) :
    (∀ {result}, LoopMeans flags slash (pCh :: p) rest result →
      LoopMeans flags slash (pCh :: p) text result) ∧ rest.length ≤ text.length ∧
    (isGlobSpecial pCh = false → ∀ t ∈ rest.head?,
      foldCase flags t = foldCase flags pCh ∨ (slash = false ∧ t = 47)) := by
  cases hliteral : isGlobSpecial pCh with
  | true =>
    grind
  | false =>
    obtain rfl : skipToLiteral flags slash (foldCase flags pCh) text = rest := by
      simpa [hliteral] using hrest
    obtain ⟨run, htext, hrun, hslash, hhead⟩ :=
      skipToLiteral_spec flags slash (foldCase flags pCh) text
    refine ⟨fun h => ?_, ?_, fun _ => hhead⟩
    · rw [htext]
      exact h.skip hliteral hrun hslash
    grind

/-- **The loop over the positions.** -/
theorem starLoop_means {dw : List UInt8 → WM} (hpCh : pCh ≠ 42)
    (hdw : ∀ text, Means flags none (pCh :: p) text (dw text)) {fuel : Nat}
    (hfuel : text.length < fuel) :
    LoopMeans flags slash (pCh :: p) text (starLoop flags slash (pCh :: p) dw fuel text) := by
  induction fuel generalizing text with
  | zero => exact absurd hfuel (Nat.not_lt_zero _)
  | succ fuel ih =>
    rw [starLoop]
    split
    · rename_i hnil
      subst hnil
      intro text' hsuffix
      rw [suffix_nil.mp hsuffix]
      exact not_matches_nil hpCh
    rename_i hne
    simp only [getD_cons_zero]
    -- the positions before the one that is tried have been ruled out
    generalize hrest : (if (!isGlobSpecial pCh) = true then
      skipToLiteral flags slash (foldCase flags pCh) text else text) = rest
    obtain ⟨hskip, hlength, hhead⟩ := passes_spec hrest
    refine hskip ?_
    cases rest with
    | nil =>
      dsimp only
      split
      · intro text' hsuffix
        rw [suffix_nil.mp hsuffix]
        exact not_matches_nil hpCh
      · rename_i hslash
        refine ⟨Bool.eq_false_of_not_eq_true hslash, ?_⟩
        rintro text' ⟨u, hsplit, -⟩
        rw [(append_eq_nil_iff.mp hsplit.symm).2]
        exact not_matches_nil hpCh
    | cons t text' =>
      dsimp only
      have hrec := @ih text' (by rw [length_cons] at hlength; omega)
      split
      · -- the search has ended at a slash
        rename_i hmismatch
        have hliteral : isGlobSpecial pCh = false := by simpa using hmismatch.1
        obtain ⟨hslash, rfl⟩ := (hhead hliteral t rfl).resolve_left hmismatch.2
        rw [hslash, if_neg (by decide)]
        refine LoopMeans.at_slash rfl fun hmatches => ?_
        obtain ⟨hpCh, hitem⟩ := parseItem_literal hliteral p
        obtain ⟨t', text'', htext, htest, -⟩ := hmatches.item_inv hpCh hitem
        obtain ⟨rfl, -⟩ := List.cons.inj htext
        exact hmismatch.2 (of_decide_eq_true htest)
      · have hmeans := hdw (t :: text')
        split
        · rename_i hresult
          have hnot := hmeans.not_matches (by rw [hresult]; decide)
          split
          · rename_i hstop
            simp only [Bool.and_eq_true, Bool.not_eq_true', decide_eq_true_eq] at hstop
            obtain ⟨rfl, rfl⟩ := hstop
            exact LoopMeans.at_slash rfl hnot
          · rename_i hgo
            refine hrec.cons hnot ?_
            grind
        · rename_i hresult
          split
          · rename_i hreturn
            refine hmeans.loopMeans hpCh hresult ?_
            simpa using hreturn
          · rename_i hgo
            simp only [Bool.or_eq_true, Bool.not_eq_true', decide_eq_true_eq, not_or,
              Bool.not_eq_false, not_not] at hgo
            exact hrec.cons (hmeans.not_matches (by rw [hgo.2]; decide)) (.inl hgo.1)

/-! ## The star -/

/-- A slash in the pattern matches a slash. -/
theorem matches_slash_iff :
    Matches flags prev (47 :: p) text ↔ ∃ text', text = 47 :: text' ∧ Matches flags none p text' := by
  obtain ⟨hne, hitem⟩ := @parseItem_literal flags 47 (by decide) p
  constructor
  · intro h
    obtain ⟨t, text', rfl, htest, hrest⟩ := h.item_inv hne hitem
    have ht : foldCase flags t = 47 := (of_decide_eq_true htest).trans (foldCase_eq_slash.mpr rfl)
    exact ⟨text', by rw [foldCase_eq_slash.mp ht], matches_none_iff.mpr hrest⟩
  · rintro ⟨text', rfl, hrest⟩
    exact .item hne hitem (decide_eq_true rfl) (matches_none_iff.mp hrest)

/-- A slash of a text is the first one or stands behind it. -/
theorem eq_or_behind_slash {w a b : List UInt8} (h : u ++ 47 :: a = w ++ 47 :: b) (hu : 47 ∉ u) :
    b = a ∨ ∃ v, a = v ++ 47 :: b := by
  rcases append_eq_append_iff.mp h with ⟨v, -, hv⟩ | ⟨v, rfl, hv⟩
  · cases v with
    | nil => exact .inl (List.cons.inj hv).2.symm
    | cons c v => exact .inr ⟨v, (List.cons.inj hv).2⟩
  · cases v with
    | nil => exact .inl (List.cons.inj hv).2
    | cons c v =>
      grind

/-- Without the right to pass a slash, slashes are special and the star does not stand for nothing. -/
theorem of_matchSlash_eq_false (h : matchSlash flags prev p = false) :
    flags.pathname = true ∧ mayBeEmpty flags prev p = false := by
  rw [matchSlash, Bool.or_eq_false_iff, Bool.not_eq_false'] at h
  exact ⟨h.1, by rw [mayBeEmpty, h.2, Bool.and_false, Bool.false_and]⟩

/-- What a star that must not pass a slash matches. -/
theorem Matches.star_inv (h : Matches flags prev (42 :: p) text)
    (hslash : matchSlash flags prev p = false) :
    ∃ run text', text = run ++ text' ∧ 47 ∉ run ∧ Matches flags none (afterStars p) text' := by
  rcases matches_star_iff.mp h with ⟨hmay, -⟩ | ⟨run, text', htext, hrun, hrest⟩
  · rw [(of_matchSlash_eq_false hslash).2] at hmay
    cases hmay
  · exact ⟨run, text', htext, hrun.resolve_left (by rw [hslash]; decide), hrest⟩

/-- Where the stars and the slash behind them may stand for nothing. -/
theorem of_mayBeEmpty (h : mayBeEmpty flags prev p = true) :
    (∀ b, prev = some b → b = 47) ∧ ∃ rest, afterStars p = 47 :: rest := by
  simp only [mayBeEmpty, betweenSlashes, Bool.and_eq_true, decide_eq_true_eq] at h
  obtain ⟨⟨-, -, hprev, -⟩, hhead⟩ := h
  refine ⟨?_, head?_eq_some_iff.mp hhead⟩
  grind

/-- A star before a pattern that is looked for at every position. -/
theorem LoopMeans.star
    (h : LoopMeans flags (matchSlash flags prev p) (afterStars p) text result)
    (hempty : mayBeEmpty flags prev p = true → ¬ Matches flags none ((afterStars p).drop 1) text) :
    Means flags prev (42 :: p) text result := by
  cases result with
  | «match» =>
    obtain ⟨run, text', rfl, hrun, hmatches⟩ := h
    exact .star hrun hmatches
  | noMatch => exact absurd h id
  | abortAll =>
    intro text' hlater hmatches
    rcases matches_star_iff.mp hmatches with ⟨hmay, hrest⟩ | ⟨run, text'', rfl, -, hrest⟩
    · rcases hlater with rfl | ⟨u, c, rfl, hprev⟩
      · exact hempty hmay hrest
      -- the character before is a slash, which the rest of the pattern starts with
      obtain ⟨b, hb, hc⟩ := hprev rfl
      obtain ⟨hslash, rest, hafter⟩ := of_mayBeEmpty hmay
      obtain rfl := hc (hslash b hb)
      refine h (47 :: text') ⟨u, rfl⟩ ?_
      rw [hafter] at hrest ⊢
      exact matches_slash_iff.mpr ⟨text', rfl, hrest⟩
    · refine h text'' ?_ hrest
      rcases hlater with rfl | ⟨u, c, rfl, -⟩
      · exact ⟨run, rfl⟩
      · exact ⟨u ++ c :: run, by rw [append_assoc, cons_append]⟩
  | abortToStarstar =>
    refine ⟨(of_matchSlash_eq_false h.1).1, ?_⟩
    rintro text' ⟨u, rfl, hu⟩ hmatches
    obtain ⟨run, text'', rfl, hrun, hrest⟩ := hmatches.star_inv h.1
    refine h.2 text'' ⟨u ++ run, (append_assoc _ _ _).symm, ?_⟩ hrest
    rw [mem_append, not_or]
    exact ⟨hu, hrun⟩

/-- Stars at the end of the pattern. -/
theorem means_trailing (hrest : afterStars p = []) :
    Means flags prev (42 :: p) text
      (if !matchSlash flags prev p && text.contains 47 then .abortToStarstar else .match) := by
  split
  · rename_i hstop
    simp only [Bool.and_eq_true, Bool.not_eq_true', contains_iff_mem] at hstop
    obtain ⟨hslash, hmem⟩ := hstop
    refine ⟨(of_matchSlash_eq_false hslash).1, ?_⟩
    rintro text' ⟨u, rfl, hu⟩ hmatches
    obtain ⟨run, text'', rfl, hrun, hmatches⟩ := hmatches.star_inv hslash
    rw [hrest, matches_nil_iff] at hmatches
    grind
  · rename_i hgo
    have hrun : matchSlash flags prev p = true ∨ 47 ∉ text := by
      simpa [or_iff_not_imp_left] using hgo
    have hmatches := @Matches.star flags prev p text [] hrun (by rw [hrest]; exact .nil)
    rwa [append_nil] at hmatches

/-- One star before a slash: there is only the next slash to go on from. -/
theorem means_star_slash {text' : List UInt8} (hslash : matchSlash flags prev p = false)
    (hrest : afterStars p = 47 :: rest) (hu : 47 ∉ u)
    (h : Means flags (some 47) rest text' result) :
    Means flags prev (42 :: p) (u ++ 47 :: text') result := by
  -- a match goes on behind some slash
  have hinv : ∀ {text}, Matches flags prev (42 :: p) text → ∃ run text'', text = run ++ 47 :: text'' ∧
      47 ∉ run ∧ Matches flags (some 47) rest text'' := by
    intro text hmatches
    obtain ⟨run, text'', rfl, hrun, hbehind⟩ := hmatches.star_inv hslash
    rw [hrest, matches_slash_iff] at hbehind
    obtain ⟨tail, rfl, hbehind⟩ := hbehind
    exact ⟨run, tail, rfl, hrun, matches_none_iff.mp hbehind⟩
  -- which is the next one, if no slash is passed
  have hunique : ∀ {run text'' : List UInt8}, u ++ 47 :: text' = run ++ 47 :: text'' → 47 ∉ run →
      text'' = text' := by
    intro run text'' heq hrun
    rcases eq_or_behind_slash heq hu with rfl | ⟨v, rfl⟩
    · rfl
    rcases eq_or_behind_slash heq.symm hrun with hself | ⟨v', hself⟩
    · exact hself.symm
    have hlength := congrArg List.length hself
    simp only [length_append, length_cons] at hlength
    omega
  cases result with
  | «match» =>
    refine .star (.inr hu) ?_
    rw [hrest, matches_slash_iff]
    exact ⟨text', rfl, matches_none_iff.mpr h⟩
  | noMatch =>
    intro hmatches
    obtain ⟨run, text'', heq, hrun, hbehind⟩ := hinv hmatches
    obtain rfl := hunique heq hrun
    exact h hbehind
  | abortAll =>
    intro text hlater hmatches
    obtain ⟨run, text'', rfl, -, hmatches⟩ := hinv hmatches
    obtain ⟨w, heq⟩ : ∃ w, u ++ 47 :: text' = w ++ 47 :: text'' := by
      rcases hlater with heq | ⟨w, c, heq, -⟩
      · exact ⟨run, heq.symm⟩
      · exact ⟨w ++ c :: run, by rw [heq, append_assoc, cons_append]⟩
    refine h text'' ?_ hmatches
    rcases eq_or_behind_slash heq hu with rfl | ⟨v, rfl⟩
    · exact .inl rfl
    · exact .inr ⟨v, 47, rfl, fun _ => ⟨47, rfl, fun _ => rfl⟩⟩
  | abortToStarstar =>
    refine ⟨(of_matchSlash_eq_false hslash).1, ?_⟩
    rintro text ⟨w, heq, hw⟩ hmatches
    obtain ⟨run, text'', rfl, hrun, hmatches⟩ := hinv hmatches
    rw [← append_assoc] at heq
    obtain rfl := hunique heq (by rw [mem_append, not_or]; exact ⟨hw, hrun⟩)
    exact h.2 text'' ⟨[], rfl, not_mem_nil⟩ hmatches

/-- One star before a slash, in a text without one. -/
theorem means_no_slash (hslash : matchSlash flags prev p = false)
    (hrest : afterStars p = 47 :: rest) (htext : 47 ∉ text) :
    Means flags prev (42 :: p) text .abortAll := by
  intro text' hlater hmatches
  obtain ⟨run, text'', rfl, -, hmatches⟩ := hmatches.star_inv hslash
  rw [hrest, matches_slash_iff] at hmatches
  obtain ⟨tail, rfl, -⟩ := hmatches
  have hmem : 47 ∈ run ++ 47 :: tail := mem_append_right _ mem_cons_self
  rcases hlater with rfl | ⟨u, c, rfl, -⟩
  · exact htext hmem
  · exact htext (mem_append_right _ (mem_cons_of_mem _ hmem))

end Stars

/-! ## The matcher -/

section Matcher

variable {fuel : Nat}

/-- What `dowild` takes from a text before a slash. -/
theorem dropWhile_slash (text : List UInt8) :
    (text.dropWhile (· ≠ 47) = [] ∧ 47 ∉ text) ∨
      ∃ u text', text.dropWhile (· ≠ 47) = 47 :: text' ∧ text = u ++ 47 :: text' ∧ 47 ∉ u := by
  cases h : text.dropWhile (· ≠ 47) with
  | nil => exact .inl ⟨rfl, fun hmem => by simpa using dropWhile_eq_nil_iff.mp h 47 hmem⟩
  | cons c text' =>
    have hhead := head?_dropWhile_not (· ≠ 47) text
    rw [h] at hhead
    obtain rfl : c = 47 := by simpa using hhead
    refine .inr ⟨text.takeWhile (· ≠ 47), text', rfl, ?_, fun hmem => ?_⟩
    · rw [← h, takeWhile_append_dropWhile]
    · simpa using mem_takeWhile_imp hmem

theorem length_afterStars (p : List UInt8) : (afterStars p).length ≤ p.length :=
  (dropWhile_sublist _).length_le

/-- **What the matcher returns.** By induction on the fuel, of which there is more than there are
bytes in the pattern. -/
theorem dowild_means (hfuel : p.length < fuel) :
    Means flags prev p text (dowild flags fuel prev p text) := by
  induction fuel generalizing prev p text with
  | zero => exact absurd hfuel (Nat.not_lt_zero _)
  | succ fuel ih =>
    cases p with
    | nil =>
      unfold dowild
      split
      · exact matches_nil_iff.mpr ‹_›
      · exact fun h => absurd (matches_nil_iff.mp h) ‹_›
    | cons pCh p =>
      have hp : p.length < fuel := Nat.lt_of_succ_lt_succ hfuel
      have hafter := length_afterStars p
      unfold dowild
      split
      · rename_i hstar
        subst hstar
        dsimp only
        have hdrop : ((afterStars p).drop 1).length < fuel := by
          rw [length_drop]
          omega
        split
        · rename_i hempty
          have hmatches := @ih none _ text hdrop
          rw [hempty.2] at hmatches
          exact .empty hempty.1 hmatches
        rename_i hnot
        have hempty : mayBeEmpty flags prev p = true →
            ¬ Matches flags none ((afterStars p).drop 1) text := fun hmay =>
          (ih hdrop).not_matches fun hmatch => hnot ⟨hmay, hmatch⟩
        split
        · exact means_trailing ‹_›
        rename_i hne
        split
        · rename_i hslash
          simp only [Bool.and_eq_true, Bool.not_eq_true', decide_eq_true_eq] at hslash
          obtain ⟨rest, hrest⟩ := head?_eq_some_iff.mp hslash.2
          rcases dropWhile_slash text with ⟨hdropped, htext⟩ | ⟨u, text', hdropped, rfl, hu⟩
          · rw [hdropped]
            exact means_no_slash hslash.1 hrest htext
          rw [hdropped]
          refine means_star_slash hslash.1 hrest hu ?_
          rw [hrest] at hdrop ⊢
          exact ih hdrop
        · obtain ⟨c, rest, hrest⟩ := exists_cons_of_ne_nil hne
          have hc : c ≠ 42 := by
            rintro rfl
            exact head_afterStars p (by rw [hrest]; rfl)
          refine LoopMeans.star ?_ hempty
          rw [hrest] at hafter ⊢
          exact starLoop_means hc (fun text => ih (by omega)) (Nat.lt_succ_self _)
      · rename_i hpCh
        cases text with
        | nil =>
          intro text' hlater hmatches
          obtain rfl : text' = [] := by
            rcases hlater with rfl | ⟨u, c, hsplit, -⟩
            · rfl
            · exact absurd hsplit.symm (by simp)
          exact not_matches_nil hpCh hmatches
        | cons t text =>
          cases hitem : parseItem flags pCh p with
          | none =>
            intro text' _ hmatches
            obtain ⟨t, text'', item, -, hsome, -⟩ := (matches_item_iff hpCh).mp hmatches
            exact absurd (hitem.symm.trans hsome) (by simp)
          | some item =>
            dsimp only
            split
            · rename_i htest
              have hlength := (parseItem_eq_some hitem).1
              exact .item hpCh hitem htest (ih (by omega))
            · rename_i htest
              intro hmatches
              obtain ⟨t', text', htext, htest', -⟩ := hmatches.item_inv hpCh hitem
              grind

theorem dowild_eq_match_iff (hfuel : p.length < fuel) :
    dowild flags fuel prev p text = .match ↔ Matches flags prev p text := by
  have hmeans := @dowild_means flags prev p text _ hfuel
  constructor
  · intro h
    rwa [h] at hmeans
  · intro h
    by_contra hne
    exact hmeans.not_matches hne h

/-- **The matcher decides what a pattern matches.** The positions that a failure deeper in the
pattern lets it pass over hold no match. -/
theorem wildmatch_iff (flags : Flags) (pattern text : List UInt8) :
    wildmatch flags pattern text = true ↔ Matches flags none pattern text := by
  rw [wildmatch, decide_eq_true_eq, dowild_eq_match_iff (Nat.lt_succ_self _)]

end Matcher

end GitCore.Wildmatch
