import GitCore.Lib.Bytes
import GitCore.Lib.CInt

/-! # The format of reference names

`check_refname_format` scans a name component by component. A table says what to do with each
character; the scanner keeps the character before it, and takes the permission for an asterisk away
once it was used. The lengths of components and their number are kept in an `int`. -/

namespace GitCore.Refs

open List

/-! ## The code -/

/-- `refname_disposition`, without the zeros at its end. -/
def refnameDispositionTable : List Nat := [
  1, 4, 4, 4, 4, 4, 4, 4, 4, 4, 4, 4, 4, 4, 4, 4,
  4, 4, 4, 4, 4, 4, 4, 4, 4, 4, 4, 4, 4, 4, 4, 4,
  4, 0, 0, 0, 0, 0, 0, 0, 0, 0, 5, 0, 0, 0, 2, 1,
  0, 0, 0, 0, 0, 0, 0, 0, 0, 0, 4, 0, 0, 0, 0, 4,
  0, 0, 0, 0, 0, 0, 0, 0, 0, 0, 0, 0, 0, 0, 0, 0,
  0, 0, 0, 0, 0, 0, 0, 0, 0, 0, 0, 4, 4, 0, 4, 0,
  0, 0, 0, 0, 0, 0, 0, 0, 0, 0, 0, 0, 0, 0, 0, 0,
  0, 0, 0, 0, 0, 0, 0, 0, 0, 0, 0, 3, 0, 0, 4, 4]

/-- `refname_disposition[ch]` -/
def refnameDisposition (ch : UInt8) : Nat := refnameDispositionTable.getD ch.toNat 0

/-- The flags of `check_refname_format`. -/
structure RefnameFlags where
  /-- `REFNAME_ALLOW_ONELEVEL` -/
  allowOnelevel : Bool
  /-- `REFNAME_REFSPEC_PATTERN` -/
  refspecPattern : Bool
deriving DecidableEq, Repr

/-- `'/'` -/
def slash : UInt8 := 47

/-- `'.'` -/
def dot : UInt8 := 46

/-- `'@'` -/
def atSign : UInt8 := 64

/-- `'{'` -/
def brace : UInt8 := 123

/-- `'*'` -/
def star : UInt8 := 42

/-- `LOCK_SUFFIX` -/
def lockSuffix : List UInt8 := [46, 108, 111, 99, 107]

/-- The `switch` on a character that does not end the component: nothing if the name is bad, or else
whether an asterisk may still follow. -/
def componentStep (ch last : UInt8) (pattern : Bool) : Option Bool :=
  match refnameDisposition ch with
  | 2 => if last = dot then none else some pattern
  | 3 => if last = atSign then none else some pattern
  | 4 => none
  | 5 => if pattern then some false else none
  | _ => some pattern

/-- The loop of `check_refname_component`: the length of the component, and whether an asterisk may
still follow. The list ends where the string has its NUL. -/
def componentLoop : List UInt8 → UInt8 → Bool → Option (Nat × Bool)
  | [], _, pattern => some (0, pattern)
  | ch :: rest, last, pattern =>
    if refnameDisposition ch = 1 then some (0, pattern)
    else
      match componentStep ch last pattern with
      | none => none
      | some pattern =>
        match componentLoop rest ch pattern with
        | none => none
        | some (n, pattern) => some (n + 1, pattern)

/-- `check_refname_component`: its value, and whether an asterisk may still follow. -/
def checkRefnameComponent (refname : List UInt8) (pattern : Bool) : Int × Bool :=
  match componentLoop refname 0 pattern with
  | none => (-1, pattern)
  | some (len, pattern) =>
    if len = 0 then (0, pattern)
    else if refname.head? = some dot then (-1, pattern)
    else if 5 ≤ len ∧ (refname.take len).drop (len - 5) = lockSuffix then (-1, pattern)
    else (toInt32 len, pattern)

/-- The loop of `check_or_sanitize_refname`, where `componentCount` components were found. The sum
`component_len + 1` has no bound here; in C it is undefined for a component of 2^31 - 1 bytes that is
not the last. -/
def refnameLoop : Nat → List UInt8 → RefnameFlags → Nat → Option Int
  | 0, _, _, _ => none
  | fuel + 1, refname, flags, componentCount =>
    let out := checkRefnameComponent refname flags.refspecPattern
    if out.1 ≤ 0 then some (-1)
    else
      let len := out.1.toNat
      if refname[len]? = none then
        if refname[len - 1]? = some dot then some (-1)
        else if flags.allowOnelevel = false ∧ toInt32 (componentCount + 1) < 2 then some (-1)
        else some 0
      else
        refnameLoop fuel (refname.drop (len + 1)) { flags with refspecPattern := out.2 }
          (componentCount + 1)

/-- `check_refname_format` -/
def checkRefnameFormat (refname : List UInt8) (flags : RefnameFlags) : Option Int :=
  if refname = [atSign] then some (-1) else refnameLoop (refname.length + 1) refname flags 0

/-! ## The documented rules -/

/-- Control characters, `DEL`, space, tilde, caret, colon, question mark, open bracket and
backslash. -/
def BadChar (ch : UInt8) : Prop :=
  ch < 32 ∨ ch = 127 ∨ ch ∈ ([32, 126, 94, 58, 63, 91, 92] : List UInt8)

/-- The first character is never followed by the second one. -/
def NoPair (a b : UInt8) (s : List UInt8) : Prop := ¬ [a, b] <:+: s

/-- The documented rules for a name. -/
structure Documented (s : List UInt8) (flags : RefnameFlags) : Prop where
  not_at : s ≠ [atSign]
  nonempty : ∀ c ∈ s.splitOn slash, c ≠ []
  levels : flags.allowOnelevel = true ∨ 2 ≤ (s.splitOn slash).length
  no_dot : ∀ c ∈ s.splitOn slash, c.head? ≠ some dot
  no_lock : ∀ c ∈ s.splitOn slash, ¬ lockSuffix <:+ c
  no_dots : NoPair dot dot s
  no_at_brace : NoPair atSign brace s
  no_bad : ∀ ch ∈ s, ¬ BadChar ch
  no_last_dot : s.getLast? ≠ some dot
  stars : s.count star ≤ if flags.refspecPattern then 1 else 0

/-- The numbers of a name that are kept in an `int` fit. This admits a component of 2^31 - 1 bytes
before the last, where the model goes on and the behaviour of C is undefined. -/
structure FitsInt (s : List UInt8) (flags : RefnameFlags) : Prop where
  length : ∀ c ∈ s.splitOn slash, c.length < 2 ^ 31
  count : flags.allowOnelevel = true ∨ 2 ≤ toInt32 (s.splitOn slash).length

/-! ## Characters -/

instance : DecidablePred BadChar := fun ch =>
  inferInstanceAs (Decidable (ch < 32 ∨ ch = 127 ∨ ch ∈ ([32, 126, 94, 58, 63, 91, 92] : List UInt8)))

/-- What the table says about a character. -/
theorem disposition_cases (ch : UInt8) :
    refnameDisposition ch = 1 ∧ (ch = 0 ∨ ch = slash) ∨
      refnameDisposition ch = 2 ∧ ch = dot ∨ refnameDisposition ch = 3 ∧ ch = brace ∨
      refnameDisposition ch = 4 ∧ BadChar ch ∨ refnameDisposition ch = 5 ∧ ch = star ∨
      refnameDisposition ch = 0 ∧ ¬ BadChar ch ∧ ch ≠ dot ∧ ch ≠ brace ∧ ch ≠ star ∧
        ch ≠ slash := by
  induction ch using forall_byte with
  | h n => revert n; decide +kernel

/-- The characters with a meaning of their own are not bad. -/
theorem not_badChar_special : ¬ BadChar dot ∧ ¬ BadChar brace ∧ ¬ BadChar star ∧ ¬ BadChar slash := by
  decide

/-! ## Pairs of characters -/

variable {s : List UInt8} {ch a b c : UInt8}

/-- A pair is at the front or further on. -/
theorem noPair_cons {x y : UInt8} :
    NoPair a b (x :: y :: s) ↔ ¬ (x = a ∧ y = b) ∧ NoPair a b (y :: s) := by
  unfold NoPair
  rw [infix_cons_iff, not_or]
  grind

/-- There is no pair in less than two characters. -/
theorem noPair_of_length_lt (a b : UInt8) (h : s.length < 2) : NoPair a b s :=
  fun hpair => absurd hpair.length_le (Nat.not_le.mpr h)

/-- A character that is not the first one of the pair makes none. -/
theorem noPair_cons_of_ne (h : a ≠ c) (s : List UInt8) :
    NoPair a b (c :: s) ↔ NoPair a b s := by
  cases s with
  | nil => exact iff_of_true (noPair_of_length_lt a b (by simp)) (noPair_of_length_lt a b (by simp))
  | cons x s =>
    rw [noPair_cons]
    exact and_iff_right fun hc => h hc.1.symm

/-- A pair does not go over a separator. -/
theorem noPair_append (ha : a ≠ c) (hb : b ≠ c) (s t : List UInt8) :
    NoPair a b (s ++ c :: t) ↔ NoPair a b s ∧ NoPair a b t := by
  induction s with
  | nil =>
    rw [nil_append, noPair_cons_of_ne ha]
    exact (and_iff_right (noPair_of_length_lt a b (by simp))).symm
  | cons x s ih =>
    cases s with
    | nil =>
      rw [singleton_append, noPair_cons, noPair_cons_of_ne ha]
      exact and_congr_left fun _ =>
        iff_of_true (fun hxy => hb hxy.2.symm) (noPair_of_length_lt a b (by simp))
    | cons y s =>
      rw [cons_append, cons_append, noPair_cons, noPair_cons, and_assoc]
      exact and_congr_right fun _ => ih

/-! ## One component -/

/-- The characters of a component are fine, given the one before it. -/
@[mk_iff]
structure CharsOk (last : UInt8) (pattern : Bool) (comp : List UInt8) : Prop where
  no_bad : ∀ ch ∈ comp, ¬ BadChar ch
  no_dots : NoPair dot dot (last :: comp)
  no_at_brace : NoPair atSign brace (last :: comp)
  stars : comp.count star ≤ if pattern then 1 else 0

/-- A character is fine after the one before it. -/
def CharOk (ch last : UInt8) (pattern : Bool) : Prop :=
  ¬ BadChar ch ∧ ¬ (last = dot ∧ ch = dot) ∧ ¬ (last = atSign ∧ ch = brace) ∧
    (ch = star → pattern = true)

instance (ch last : UInt8) (pattern : Bool) : Decidable (CharOk ch last pattern) :=
  inferInstanceAs (Decidable (_ ∧ _))

/-- The `switch` lets the characters pass that are fine. -/
theorem componentStep_eq (hch : refnameDisposition ch ≠ 1) (last : UInt8)
    (pattern : Bool) :
    componentStep ch last pattern =
      if CharOk ch last pattern then some (pattern && !decide (ch = star)) else none := by
  obtain ⟨hdot, hbrace, hstar, -⟩ := not_badChar_special
  unfold componentStep CharOk
  rcases disposition_cases ch with ⟨hd, -⟩ | ⟨hd, rfl⟩ | ⟨hd, rfl⟩ | ⟨hd, h⟩ | ⟨hd, rfl⟩ | ⟨hd, h⟩
  · exact absurd hd hch
  · by_cases hlast : last = dot <;>
      simp [hd, hlast, hdot, show dot ≠ star by decide, show dot ≠ brace by decide]
  · by_cases hlast : last = atSign <;>
      simp [hd, hlast, hbrace, show brace ≠ star by decide, show brace ≠ dot by decide]
  · simp [hd, h]
  · cases pattern <;> simp [hd, hstar, show star ≠ dot by decide, show star ≠ brace by decide]
  · simp [hd, h.1, h.2.1, h.2.2.1, h.2.2.2.1]

variable {comp : List UInt8} {pattern : Bool} {flags : RefnameFlags} {count : Nat}

/-- One character more. -/
theorem charsOk_cons {last : UInt8} :
    CharsOk last pattern (ch :: comp) ↔
      CharOk ch last pattern ∧ CharsOk ch (pattern && !decide (ch = star)) comp := by
  have hstars : (ch :: comp).count star ≤ (if pattern then 1 else 0) ↔ (ch = star → pattern = true) ∧
      comp.count star ≤ if (pattern && !decide (ch = star)) then 1 else 0 := by grind
  rw [charsOk_iff, charsOk_iff, CharOk, forall_mem_cons, noPair_cons, noPair_cons, hstars]
  tauto

/-- What a component has to satisfy. -/
@[mk_iff]
structure ComponentOk (pattern : Bool) (comp : List UInt8) : Prop where
  nonempty : comp ≠ []
  no_dot : comp.head? ≠ some dot
  no_lock : ¬ lockSuffix <:+ comp
  chars : CharsOk 0 pattern comp

/-- The test for `.lock` at the end of a component. -/
theorem lock_iff (comp tail : List UInt8) :
    5 ≤ comp.length ∧ ((comp ++ tail).take comp.length).drop (comp.length - 5) = lockSuffix ↔
      lockSuffix <:+ comp := by
  rw [take_left, suffix_iff_eq_drop]
  constructor
  · rintro ⟨-, h⟩
    exact h.symm
  intro h
  refine ⟨?_, h.symm⟩
  have := congrArg List.length h
  rw [length_drop] at this
  change 5 = comp.length - (comp.length - 5) at this
  omega

section

variable (comp tail : List UInt8) (htail : tail.head?.all (· == slash)) (hcomp : slash ∉ comp)
  (h0 : 0 ∉ comp)

include htail hcomp h0

open Classical in
/-- **The scan of a component** stops at its end, if its characters are fine. -/
theorem componentLoop_eq (last : UInt8) (pattern : Bool) :
    componentLoop (comp ++ tail) last pattern =
      if CharsOk last pattern comp then some (comp.length, pattern && !comp.contains star)
      else none := by
  induction comp generalizing last pattern with
  | nil =>
    rw [if_pos ⟨nofun, noPair_of_length_lt _ _ (by simp), noPair_of_length_lt _ _ (by simp),
      Nat.zero_le _⟩]
    cases tail with
    | nil => simp [componentLoop]
    | cons ch tail =>
      obtain rfl : ch = slash := by simpa using htail
      simp [componentLoop, show refnameDisposition slash = 1 by decide]
  | cons ch comp ih =>
    rw [mem_cons, not_or] at hcomp h0
    have hdisp : refnameDisposition ch ≠ 1 := by
      have := disposition_cases ch
      grind
    rw [cons_append, componentLoop, if_neg hdisp, componentStep_eq hdisp, charsOk_cons]
    by_cases hch : CharOk ch last pattern
    · rw [if_pos hch]
      dsimp only
      rw [ih hcomp.2 h0.2]
      by_cases hok : CharsOk ch (pattern && !decide (ch = star)) comp
      · rw [if_pos hok, if_pos ⟨hch, hok⟩]
        by_cases hstar : ch = star
        · simp [hstar]
        · simp [hstar, Ne.symm hstar]
      · rw [if_neg hok, if_neg fun h => hok h.2]
    · rw [if_neg hch, if_neg fun h => hch h.1]

/-- **`check_refname_component`** gives the length of a good component as an `int`, and nothing
positive for a bad one. -/
theorem checkRefnameComponent_spec (pattern : Bool) :
    (ComponentOk pattern comp → checkRefnameComponent (comp ++ tail) pattern =
        (toInt32 comp.length, pattern && !comp.contains star)) ∧
      (¬ ComponentOk pattern comp → (checkRefnameComponent (comp ++ tail) pattern).1 ≤ 0) := by
  unfold checkRefnameComponent
  rw [componentLoop_eq comp tail htail hcomp h0]
  by_cases hchars : CharsOk 0 pattern comp
  · rw [if_pos hchars]
    simp only [lock_iff]
    by_cases hempty : comp = []
    · refine ⟨fun h => absurd hempty h.nonempty, fun _ => ?_⟩
      simp [hempty]
    have hlen : comp.length ≠ 0 := fun h => hempty (length_eq_zero_iff.mp h)
    have hhead : (comp ++ tail).head? = comp.head? := head?_append_of_ne_nil _ hempty
    rw [if_neg hlen, hhead]
    by_cases hdot : comp.head? = some dot
    · refine ⟨fun h => absurd hdot h.no_dot, fun _ => ?_⟩
      simp [hdot]
    rw [if_neg hdot]
    by_cases hlock : lockSuffix <:+ comp
    · refine ⟨fun h => absurd hlock h.no_lock, fun _ => ?_⟩
      simp [hlock]
    · rw [if_neg hlock]
      exact ⟨fun _ => rfl, fun h => absurd ⟨hempty, hdot, hlock, hchars⟩ h⟩
  · rw [if_neg hchars]
    exact ⟨fun h => absurd h.chars hchars, fun _ => by simp⟩

/-! ## The whole name -/

/-- A component that does not fit in an `int` is rejected: its length becomes negative or zero, or
the scan goes on in its middle and finds a rest whose length becomes `-1`. -/
theorem refnameLoop_long (hlen : 2 ^ 31 ≤ comp.length) (fuel : Nat) (flags : RefnameFlags)
    (count : Nat) :
    refnameLoop (fuel + 2) (comp ++ tail) flags count = some (-1) := by
  have hspec := checkRefnameComponent_spec comp tail htail hcomp h0 flags.refspecPattern
  rw [refnameLoop]
  by_cases hok : ComponentOk flags.refspecPattern comp
  · rw [hspec.1 hok]
    by_cases hneg : toInt32 comp.length ≤ 0
    · rw [if_pos hneg]
    -- the rest of the component after what was taken for its length
    have hsmall : comp.length % 2 ^ 32 < 2 ^ 31 := by
      by_contra hbig
      rw [toInt32, if_neg hbig] at hneg
      omega
    have hval : (toInt32 comp.length).toNat = comp.length % 2 ^ 32 := by
      rw [toInt32, if_pos hsmall]
      omega
    rw [if_neg hneg, hval]
    have hin : (comp ++ tail)[comp.length % 2 ^ 32]? ≠ none := by grind
    rw [if_neg hin]
    have hdrop : (comp ++ tail).drop (comp.length % 2 ^ 32 + 1) =
        comp.drop (comp.length % 2 ^ 32 + 1) ++ tail := drop_append_of_le_length (by omega)
    rw [hdrop]
    have hspec' := checkRefnameComponent_spec (comp.drop (comp.length % 2 ^ 32 + 1)) tail htail
      (fun h => hcomp (mem_of_mem_drop h)) (fun h => h0 (mem_of_mem_drop h))
      (flags.refspecPattern && !comp.contains star)
    rw [refnameLoop]
    have hle : (checkRefnameComponent (comp.drop (comp.length % 2 ^ 32 + 1) ++ tail)
        (flags.refspecPattern && !comp.contains star)).1 ≤ 0 := by
      by_cases hok' : ComponentOk (flags.refspecPattern && !comp.contains star)
          (comp.drop (comp.length % 2 ^ 32 + 1))
      · rw [hspec'.1 hok', length_drop]
        have hmod : (comp.length - (comp.length % 2 ^ 32 + 1)) % 2 ^ 32 = 2 ^ 32 - 1 := by omega
        change toInt32 _ ≤ 0
        rw [toInt32, hmod]
        decide
      · exact hspec'.2 hok'
    rw [if_pos hle]
  · rw [if_pos (hspec.2 hok)]

end

/-- What the loop asks of a name, when it has found some components already. -/
@[mk_iff accepted_def]
structure Accepted (s : List UInt8) (flags : RefnameFlags) (count : Nat) : Prop where
  comps : ∀ c ∈ s.splitOn slash, c ≠ [] ∧ c.head? ≠ some dot ∧ ¬ lockSuffix <:+ c ∧
    c.length < 2 ^ 31
  no_bad : ∀ ch ∈ s, ¬ BadChar ch
  no_dots : NoPair dot dot s
  no_at_brace : NoPair atSign brace s
  stars : s.count star ≤ if flags.refspecPattern then 1 else 0
  no_last_dot : s.getLast? ≠ some dot
  levels : flags.allowOnelevel = true ∨ 2 ≤ toInt32 (count + (s.splitOn slash).length)

/-- The characters of a component: the NUL that stands for the one before it makes no pair. -/
theorem charsOk_zero :
    CharsOk 0 pattern comp ↔ (∀ ch ∈ comp, ¬ BadChar ch) ∧ NoPair dot dot comp ∧
      NoPair atSign brace comp ∧ comp.count star ≤ if pattern then 1 else 0 := by
  rw [charsOk_iff, noPair_cons_of_ne (by decide), noPair_cons_of_ne (by decide)]

/-- A name of one component. -/
theorem accepted_single (hcomp : slash ∉ comp) :
    Accepted comp flags count ↔ ComponentOk flags.refspecPattern comp ∧ comp.length < 2 ^ 31 ∧
      comp.getLast? ≠ some dot ∧ (flags.allowOnelevel = true ∨ 2 ≤ toInt32 (count + 1)) := by
  rw [accepted_def, componentOk_iff, charsOk_zero, splitOn_eq_singleton hcomp,
    forall_mem_singleton, length_singleton]
  tauto

/-- The asterisks of two parts, where the first part takes the permission away. -/
theorem stars_append {m n : Nat} {used : Bool} (hused : used = true ↔ 0 < m) :
    m + n ≤ (if pattern then 1 else 0) ↔
      m ≤ (if pattern then 1 else 0) ∧ n ≤ if (pattern && !used) then 1 else 0 := by
  cases pattern <;> cases used <;> simp at hused ⊢ <;> omega

/-- A name of a first component and more of them. -/
theorem accepted_append {rest : List UInt8} (hcomp : slash ∉ comp) :
    Accepted (comp ++ slash :: rest) flags count ↔
      ComponentOk flags.refspecPattern comp ∧ comp.length < 2 ^ 31 ∧
        Accepted rest { flags with refspecPattern := flags.refspecPattern && !comp.contains star }
          (count + 1) := by
  have hstars := @stars_append flags.refspecPattern (comp.count star) (rest.count star)
    (comp.contains star) (by rw [contains_iff_mem, count_pos_iff])
  have hcount : (comp ++ slash :: rest).count star = comp.count star + rest.count star := by
    rw [count_append, count_cons_of_ne (by decide)]
  have hbad : (∀ ch ∈ comp ++ slash :: rest, ¬ BadChar ch) ↔
      (∀ ch ∈ comp, ¬ BadChar ch) ∧ ∀ ch ∈ rest, ¬ BadChar ch := by
    rw [forall_mem_append, forall_mem_cons, and_iff_right not_badChar_special.2.2.2]
  have hlevels : count + (comp :: rest.splitOn slash).length =
      count + 1 + (rest.splitOn slash).length := by
    rw [length_cons]
    omega
  -- an empty rest has an empty component
  have hlast : (∀ c ∈ rest.splitOn slash, c ≠ [] ∧ c.head? ≠ some dot ∧ ¬ lockSuffix <:+ c ∧
      c.length < 2 ^ 31) → (comp ++ slash :: rest).getLast? = rest.getLast? := by
    intro hcomps
    have hrest : rest ≠ [] := by
      rintro rfl
      exact (hcomps [] (by simp)).1 rfl
    rw [getLast?_append_of_ne_nil _ (by simp), getLast?_cons_of_ne_nil hrest]
  rw [accepted_def, accepted_def, componentOk_iff, charsOk_zero,
    splitOn_append_cons_self_of_not_mem hcomp, forall_mem_cons, hbad,
    noPair_append (by decide) (by decide), noPair_append (by decide) (by decide), hcount, hstars,
    hlevels]
  grind

open Classical in
/-- **The loop** accepts what it should and rejects the rest. -/
theorem refnameLoop_eq (fuel : Nat) (s : List UInt8) (hfuel : s.length + 1 ≤ fuel) (h0 : 0 ∉ s)
    (flags : RefnameFlags) (count : Nat) :
    refnameLoop fuel s flags count = if Accepted s flags count then some 0 else some (-1) := by
  induction fuel generalizing s flags count with
  | zero => omega
  | succ fuel ih =>
    -- the first component and what follows it
    obtain ⟨comp, tail, rfl, hcomp, htail⟩ : ∃ comp tail, s = comp ++ tail ∧ slash ∉ comp ∧
        (tail = [] ∨ ∃ rest, tail = slash :: rest) := by
      by_cases hslash : slash ∈ s
      · obtain ⟨comp, rest, hs, hcomp⟩ := eq_append_cons_of_mem hslash
        exact ⟨comp, slash :: rest, hs, hcomp, .inr ⟨rest, rfl⟩⟩
      · exact ⟨s, [], (append_nil s).symm, hslash, .inl rfl⟩
    have hhead : tail.head?.all (· == slash) := by
      rcases htail with rfl | ⟨rest, rfl⟩ <;> simp
    rw [mem_append, not_or] at h0
    have haccept : Accepted (comp ++ tail) flags count →
        ComponentOk flags.refspecPattern comp ∧ comp.length < 2 ^ 31 := by
      intro h
      rcases htail with rfl | ⟨rest, rfl⟩
      · rw [append_nil, accepted_single hcomp] at h
        exact ⟨h.1, h.2.1⟩
      · rw [accepted_append hcomp] at h
        exact ⟨h.1, h.2.1⟩
    have hspec := checkRefnameComponent_spec comp tail hhead hcomp h0.1 flags.refspecPattern
    by_cases hlen : comp.length < 2 ^ 31
    · by_cases hok : ComponentOk flags.refspecPattern comp
      · have hpos : 0 < comp.length := length_pos_iff.mpr hok.nonempty
        rw [refnameLoop, hspec.1 hok, toInt32_of_lt hlen, if_neg (by omega), Int.toNat_natCast]
        rcases htail with rfl | ⟨rest, rfl⟩
        · rw [append_nil, if_pos (by simp), ← getLast?_eq_getElem?]
          by_cases hdot : comp.getLast? = some dot
          · simp [accepted_single hcomp, hdot]
          · simp [accepted_single hcomp, hdot, hok]
            grind
        · have hdrop : (comp ++ slash :: rest).drop (comp.length + 1) = rest := by simp
          simp only [length_append, length_cons, mem_cons, not_or] at hfuel h0
          rw [if_neg (by simp), hdrop, ih rest (by omega) h0.2.2]
          simp only [accepted_append hcomp, hok, hlen, true_and]
      · rw [refnameLoop, if_pos (hspec.2 hok), if_neg fun h => hok (haccept h).1]
    · rw [length_append] at hfuel
      obtain ⟨k, rfl⟩ : ∃ k, fuel = k + 1 := ⟨fuel - 1, by omega⟩
      rw [if_neg fun h => hlen (haccept h).2]
      exact refnameLoop_long comp tail hhead hcomp h0.1 (Nat.le_of_not_lt hlen) k flags count

/-- What the loop asks of a whole name is what is documented, with the numbers that fit. -/
theorem accepted_iff (s : List UInt8) (flags : RefnameFlags) :
    s ≠ [atSign] ∧ Accepted s flags 0 ↔ Documented s flags ∧ FitsInt s flags := by
  constructor
  · rintro ⟨hat, hcomps, hbad, hdots, hbrace, hstars, hlast, hlevels⟩
    rw [Nat.zero_add] at hlevels
    have hlevels' : flags.allowOnelevel = true ∨ 2 ≤ (s.splitOn slash).length := by
      refine hlevels.imp_right fun htwo => ?_
      by_contra hone
      rw [toInt32_of_lt (by omega)] at htwo
      omega
    exact ⟨⟨hat, fun c hc => (hcomps c hc).1, hlevels', fun c hc => (hcomps c hc).2.1,
      fun c hc => (hcomps c hc).2.2.1, hdots, hbrace, hbad, hlast, hstars⟩,
      fun c hc => (hcomps c hc).2.2.2, hlevels⟩
  · rintro ⟨h, hlen, hcount⟩
    refine ⟨h.not_at, fun c hc => ⟨h.nonempty c hc, h.no_dot c hc, h.no_lock c hc, hlen c hc⟩,
      h.no_bad, h.no_dots, h.no_at_brace, h.stars, h.no_last_dot, ?_⟩
    rwa [Nat.zero_add]

/-- The bytes of a string before its NUL. -/
abbrev CString := { s : List UInt8 // 0 ∉ s }

open Classical in
/-- **`check_refname_format` decides**: it accepts the documented names whose numbers fit, and
rejects every other name. -/
theorem checkRefnameFormat_eq (s : CString) (flags : RefnameFlags) :
    checkRefnameFormat s.1 flags =
      if Documented s.1 flags ∧ FitsInt s.1 flags then some 0 else some (-1) := by
  unfold checkRefnameFormat
  rw [refnameLoop_eq (s.1.length + 1) s.1 (Nat.le_refl _) s.2]
  simp only [← accepted_iff]
  by_cases hat : s.1 = [atSign] <;> simp [hat]

/-- **Exactly the documented names are accepted**, but for a documented name that has a component of
`2 ^ 31` bytes or more, or so many components that their number does not fit. -/
theorem checkRefnameFormat_iff_documented (s : CString) (flags : RefnameFlags) :
    (checkRefnameFormat s.1 flags = some 0 ↔ Documented s.1 flags) ↔
      (Documented s.1 flags → FitsInt s.1 flags) := by
  have haccepts : checkRefnameFormat s.1 flags = some 0 ↔
      Documented s.1 flags ∧ FitsInt s.1 flags := by
    rw [checkRefnameFormat_eq]
    split <;> simp_all
  rw [haccepts]
  tauto

/-- A character that does not occur makes no pair. -/
theorem noPair_of_not_mem (h : a ∉ s) : NoPair a b s :=
  fun hpair => h (hpair.subset (by simp))

/-- The name `a/aaa…`, with `n` letters after the slash. -/
def longName (n : Nat) : List UInt8 := 97 :: slash :: List.replicate n 97

theorem mem_longName {n : Nat} (h : ch ∈ longName n) : ch = 97 ∨ ch = slash := by
  rcases mem_cons.mp h with h | h
  · exact .inl h
  grind

theorem splitOn_longName (n : Nat) : (longName n).splitOn slash = [[97], List.replicate n 97] := by
  have h97 : slash ∉ [(97 : UInt8)] := by decide
  have hrest : slash ∉ List.replicate n (97 : UInt8) := fun h =>
    absurd (eq_of_mem_replicate h) (by decide)
  change ([97] ++ slash :: List.replicate n 97).splitOn slash = _
  rw [splitOn_append_cons_self_of_not_mem h97, splitOn_eq_singleton hrest]

/-- Such a name is documented. -/
theorem documented_longName (n : Nat) (hn : n ≠ 0) : Documented (longName n) ⟨false, false⟩ := by
  have hletters : ∀ c ∈ (longName n).splitOn slash, c ≠ [] ∧ ∀ ch ∈ c, ch = 97 := by
    rw [splitOn_longName]
    intro c hc
    rcases mem_cons.mp hc with rfl | hc
    · simp
    · rw [mem_singleton.mp hc]
      exact ⟨by simp [hn], fun ch h => eq_of_mem_replicate h⟩
  have hnot : ∀ ch : UInt8, ch ≠ 97 → ch ≠ slash → ch ∉ longName n := fun ch h h' hmem =>
    (mem_longName hmem).elim h h'
  refine ⟨by simp [longName, atSign], fun c hc => (hletters c hc).1, .inr ?_, ?_, ?_,
    noPair_of_not_mem (hnot _ (by decide) (by decide)),
    noPair_of_not_mem (hnot _ (by decide) (by decide)), ?_, ?_, ?_⟩
  · rw [splitOn_longName]
    rfl
  · intro c hc hdot
    exact absurd ((hletters c hc).2 _ (mem_of_mem_head? hdot)) (by decide)
  · intro c hc hlock
    exact absurd ((hletters c hc).2 dot (hlock.subset (by decide))) (by decide)
  · intro ch hch
    rcases mem_longName hch with rfl | rfl
    · decide
    · exact not_badChar_special.2.2.2
  · intro hdot
    exact hnot _ (by decide) (by decide) (mem_of_getLast? hdot)
  · rw [count_eq_zero.mpr (hnot _ (by decide) (by decide))]
    exact Nat.zero_le _

/-- From `2 ^ 31` letters on, the name is rejected. -/
theorem checkRefnameFormat_longName {n : Nat} (hn : 2 ^ 31 ≤ n) :
    checkRefnameFormat (longName n) ⟨false, false⟩ = some (-1) := by
  have h0 : 0 ∉ longName n := fun h => (mem_longName h).elim (by decide) (by decide)
  refine (checkRefnameFormat_eq ⟨longName n, h0⟩ _).trans (if_neg fun h => ?_)
  have hlen := h.2.length (List.replicate n 97) (by simp [splitOn_longName])
  rw [length_replicate] at hlen
  omega

/-- **A documented name that is rejected**: its second component has `2 ^ 31` bytes, and its length
becomes negative. -/
theorem checkRefnameFormat_rejects_long :
    Documented (longName (2 ^ 31)) ⟨false, false⟩ ∧
      checkRefnameFormat (longName (2 ^ 31)) ⟨false, false⟩ = some (-1) :=
  ⟨documented_longName _ (Nat.two_pow_pos 31).ne', checkRefnameFormat_longName le_rfl⟩

end GitCore.Refs
