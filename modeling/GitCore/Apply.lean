import GitCore.Lib.CInt
import Mathlib.Algebra.BigOperators.Group.List.Basic
import Mathlib.Data.Nat.Dist

/-! # Where a hunk applies

`find_pos` of `apply.c` looks for a line of the image at which `match_fragment` succeeds. From the
line where the hunk should be it goes outwards, in turns forwards and backwards, with a cursor for
each direction. Its line numbers are `int`s, and an image counts its lines in a `size_t`. -/

namespace GitCore.Apply

open List

/-- What must not happen. -/
inductive SearchFailure
  | outOfBounds
  | overflow
  | outOfFuel
deriving DecidableEq, Repr

/-- The variables of the loop. -/
structure Cursors where
  i : Int
  backwards : Nat
  backwardsLno : Int
  forwards : Nat
  forwardsLno : Int
  current : Nat
  currentLno : Int

/-- An unsigned difference that is stored in an `int`. -/
def wrap (i : Int) : Int := toInt32 (toULong i)

/-- The result of an operation on `int`s, which is undefined beyond 31 bits and a sign. -/
def inRange : Int → Except SearchFailure Int
  | .ofNat n => if n < 2 ^ 31 then .ok n else .error .overflow
  | .negSucc n => if n < 2 ^ 31 then .ok (.negSucc n) else .error .overflow

section Code

-- the lengths of the lines of the image
variable (lens : List Nat)

/-- `img->line[lno].len` -/
def lineLen (lno : Int) : Except SearchFailure Nat :=
  match lno with
  | .ofNat n => (lens[n]?).elim (.error .outOfBounds) .ok
  | .negSucc _ => .error .outOfBounds

/-- `i++` -/
def Cursors.count (c : Cursors) : Except SearchFailure Cursors := do
  let i ← inRange (c.i + 1)
  return { c with i }

/-- The turn of the cursor that goes backwards, up to the next round. -/
def goBackwards (c : Cursors) : Except SearchFailure Cursors := do
  let lno ← inRange (c.backwardsLno - 1)
  let len ← lineLen lens lno
  { c with
    backwards := c.backwards - len, backwardsLno := lno
    current := c.backwards - len, currentLno := lno : Cursors }.count

/-- The turn of the cursor that goes forwards, up to the next round. -/
def goForwards (c : Cursors) : Except SearchFailure Cursors := do
  let len ← lineLen lens c.forwardsLno
  let lno ← inRange (c.forwardsLno + 1)
  { c with
    forwards := c.forwards + len, forwardsLno := lno
    current := c.forwards + len, currentLno := lno : Cursors }.count

/-- From the label `again` to the next round, or the `break`. The jump back to the label, with `i`
one higher, leads to the other cursor. -/
def again (c : Cursors) : Except SearchFailure (Option Cursors) :=
  if c.backwardsLno = 0 ∧ toULong c.forwardsLno = lens.length then .ok none
  else if c.i % 2 = 1 then
    if c.backwardsLno = 0 then some <$> (c.count >>= goForwards lens)
    else some <$> goBackwards lens c
  else if toULong c.forwardsLno = lens.length then some <$> (c.count >>= goBackwards lens)
  else some <$> goForwards lens c

/-- The loop: the result, and the offsets and lines that `match_fragment` was called with. -/
def searchLoop (matchFragment : Nat → Int → Bool) :
    Nat → Cursors → Except SearchFailure (Int × List (Nat × Int))
  | 0, _ => .error .outOfFuel
  | fuel + 1, c =>
    Except.map (fun result => (result.1, (c.current, c.currentLno) :: result.2))
      (if matchFragment c.current c.currentLno then .ok (c.currentLno, [])
      else
        match again lens c with
        | .error e => .error e
        | .ok none => .ok (-1, [])
        | .ok (some c') => searchLoop matchFragment fuel c')

/-- Whether the match has to be at the beginning, as `match_end` is trusted more. -/
def overlapRule (preimageNr : Nat) (allowOverlap matchBeginning matchEnd : Bool) : Bool :=
  matchBeginning && !(allowOverlap && matchEnd && lens.length != preimageNr)

/-- The line where the search starts. -/
def startLine (preimageNr : Nat) (line : Int32) (matchBeginning matchEnd : Bool) : Int :=
  let line := if matchBeginning then 0
    else if matchEnd then wrap (lens.length - preimageNr) else line.toInt
  if lens.length < toULong line then toInt32 lens.length else line

/-- `find_pos` -/
def findPos (matchFragment : Nat → Int → Bool → Bool → Bool) (preimageNr : Nat) (line : Int32)
    (allowOverlap matchBeginning matchEnd : Bool) :
    Except SearchFailure (Int × List (Nat × Int)) :=
  let matchBeginning := overlapRule lens preimageNr allowOverlap matchBeginning matchEnd
  let line := startLine lens preimageNr line matchBeginning matchEnd
  let current := (lens.take line.toNat).sum
  searchLoop lens (fun off lno => matchFragment off lno matchBeginning matchEnd)
    (2 * lens.length + 1) ⟨0, current, line, current, line, current, line⟩

end Code

/-! ## The purpose -/

/-- The number of bytes before a line. -/
def offset (lens : List Nat) (n : Nat) : Nat := (lens.take n).sum

/-- The line to start from, in an image of that many lines. -/
def effectiveLine (lines preimageNr : Nat) (line : Int) (matchBeginning matchEnd : Bool) : Nat :=
  let line : Int := if matchBeginning then 0 else if matchEnd then lines - preimageNr else line
  if 0 ≤ line ∧ line ≤ lines then line.toNat else lines

/-- The line `p` is tried before `q`: it is nearer to the start, or as near and behind it. -/
def Before (start p q : Nat) : Prop :=
  p.dist start < q.dist start ∨ p.dist start = q.dist start ∧ q ≤ p

/-- **The nearest match**, or −1 when there is none. -/
def Nearest (Matches : Nat → Prop) (lines start : Nat) (pos : Int) : Prop :=
  (pos = -1 ∧ ∀ q ≤ lines, ¬ Matches q) ∨
    ∃ p ≤ lines, pos = p ∧ Matches p ∧ ∀ q ≤ lines, Matches q → Before start p q

/-- What `find_pos` is for: it returns the nearest match and calls `match_fragment` with lines of
the image and the offset of each. -/
def FindsNearest (lens : List Nat) (Matches : Nat → Prop) (start : Nat)
    (result : Except SearchFailure (Int × List (Nat × Int))) : Prop :=
  ∃ pos calls, result = .ok (pos, calls) ∧
    (∀ call ∈ calls, ∃ q ≤ lens.length, call = (offset lens q, (q : Int))) ∧
    Nearest Matches lens.length start pos

/-! ## The order of the search -/

/-- The value of `i` with which a line is tried. -/
def turn (start q : Nat) : Nat := if start < q then 2 * (q - start) - 1 else 2 * (start - q)

/-- The line and its turn are `int`s. -/
def Reachable (start q : Nat) : Prop := q < 2 ^ 31 ∧ q ≤ start + 2 ^ 30 ∧ start < q + 2 ^ 30

/-- A line at which `match_fragment` is called: no match comes before it. -/
def Tried (Matches : Nat → Prop) (lines start q : Nat) : Prop :=
  ∀ p ≤ lines, Matches p → Before start q p

section Order

variable {start p q lines : Nat} {Matches : Nat → Prop}

/-- The odd turns go forwards. -/
theorem turn_cases (start q : Nat) : start < q ∧ turn start q + 1 = 2 * (q - start) ∨
    q ≤ start ∧ turn start q = 2 * (start - q) := by
  unfold turn
  split_ifs <;> omega

theorem turn_injective (start : Nat) : Function.Injective (turn start) := by
  intro p q h
  have := turn_cases start p
  have := turn_cases start q
  omega

theorem before_iff_turn_le : Before start p q ↔ turn start p ≤ turn start q := by
  have := turn_cases start p
  have := turn_cases start q
  unfold Before Nat.dist
  omega

theorem reachable_iff : Reachable start q ↔ q < 2 ^ 31 ∧ turn start q < 2 ^ 31 := by
  have := turn_cases start q
  unfold Reachable
  omega

/-- There is one nearest match. -/
theorem Nearest.unique {pos pos' : Int} (h : Nearest Matches lines start pos)
    (h' : Nearest Matches lines start pos') : pos = pos' := by
  obtain ⟨rfl, hnone⟩ | ⟨p, hp, rfl, hmatch, hfirst⟩ := h
  · obtain ⟨rfl, -⟩ | ⟨p, hp, rfl, hmatch, -⟩ := h'
    · rfl
    · exact absurd hmatch (hnone p hp)
  · obtain ⟨rfl, hnone⟩ | ⟨q, hq, rfl, hmatch', hfirst'⟩ := h'
    · exact absurd hmatch (hnone p hp)
    have hpq := hfirst q hq hmatch'
    have hqp := hfirst' p hp hmatch
    unfold Before Nat.dist at hpq hqp
    omega

end Order

/-! ## The search -/

variable {lens : List Nat} {start i b f p q : Nat}

theorem lineLen_of_lt (h : b < lens.length) : lineLen lens b = .ok lens[b] := by
  change (lens[b]?).elim _ _ = _
  rw [getElem?_eq_getElem h, Option.elim_some]

/-- The variables when the lines from `b` to `f` were reached and `p` is tried next. -/
def cursors (lens : List Nat) (i b f p : Nat) : Cursors :=
  ⟨i, offset lens b, b, offset lens f, f, offset lens p, p⟩

theorem inRange_succ (n : Nat) :
    inRange (n + 1) = if n + 1 < 2 ^ 31 then .ok ((n + 1 : Nat) : Int) else .error .overflow :=
  rfl

theorem count_cursors : (cursors lens i b f p).count =
    if i + 1 < 2 ^ 31 then .ok (cursors lens (i + 1) b f p) else .error .overflow := by
  simp only [Cursors.count, cursors, inRange_succ]
  split_ifs <;> rfl

theorem count_bind (k : Cursors → Except SearchFailure Cursors) :
    (cursors lens i b f p).count >>= k =
      if i + 1 < 2 ^ 31 then k (cursors lens (i + 1) b f p) else .error .overflow := by
  rw [count_cursors]
  split_ifs <;> rfl

theorem goBackwards_cursors (hb : b ≠ 0) (hle : b ≤ lens.length) (hint : b < 2 ^ 31) :
    goBackwards lens (cursors lens i b f p) = (cursors lens i (b - 1) f (b - 1)).count := by
  obtain ⟨b, rfl⟩ := Nat.exists_eq_succ_of_ne_zero hb
  have hlno : inRange b = .ok (b : Int) := if_pos (by omega)
  have hoff : offset lens (b + 1) - lens[b] = offset lens b := by
    rw [offset, sum_take_succ lens b hle, Nat.add_sub_cancel, offset]
  simp [goBackwards, cursors, hlno, lineLen_of_lt hle, hoff, bind, Except.bind]

/-- A step forwards is undefined if its line is no `int`. -/
theorem goForwards_cursors (hf : f < lens.length) : goForwards lens (cursors lens i b f p) =
    if f + 1 < 2 ^ 31 then (cursors lens i b (f + 1) (f + 1)).count else .error .overflow := by
  have hoff : offset lens f + lens[f] = offset lens (f + 1) := (sum_take_succ lens f hf).symm
  simp only [goForwards, cursors, lineLen_of_lt hf, inRange_succ, ← hoff]
  split_ifs <;> rfl

/-- **What a round can do**: end, or go to the line before `b` or to the one behind `f`, with a
count that is undefined beyond the range of an `int`. -/
theorem again_cases (i p : Nat) (hb : b ≤ lens.length) (hint : b < 2 ^ 31) (hf : f ≤ lens.length)
    (hlong : f < 2 ^ 32) :
    (b = 0 ∧ f = lens.length ∧ again lens (cursors lens i b f p) = .ok none) ∨
    (∃ j, b ≠ 0 ∧ (i % 2 = 1 ∧ j = i + 1 ∨ i % 2 = 0 ∧ f = lens.length ∧ j = i + 2) ∧
      again lens (cursors lens i b f p) =
        if j < 2 ^ 31 then .ok (some (cursors lens j (b - 1) f (b - 1))) else .error .overflow) ∨
    ∃ j, f < lens.length ∧ (i % 2 = 0 ∧ j = i + 1 ∨ i % 2 = 1 ∧ b = 0 ∧ j = i + 2) ∧
      again lens (cursors lens i b f p) =
        if f + 1 < 2 ^ 31 ∧ j < 2 ^ 31 then .ok (some (cursors lens j b (f + 1) (f + 1)))
        else .error .overflow := by
  have hlno : (cursors lens i b f p).backwardsLno = 0 ↔ b = 0 := Int.natCast_eq_zero
  have hend : toULong (cursors lens i b f p).forwardsLno = lens.length ↔ f = lens.length := by
    change ((f : Int) % _).toNat = _ ↔ _
    omega
  have hodd : (cursors lens i b f p).i % 2 = 1 ↔ i % 2 = 1 := by
    change (i : Int) % 2 = 1 ↔ _
    omega
  unfold again
  simp only [hlno, hend, hodd]
  split_ifs with hdone hodd hzero hlast
  · exact .inl ⟨hdone.1, hdone.2, rfl⟩
  · refine .inr (.inr ⟨i + 2, by omega, .inr ⟨hodd, hzero, rfl⟩, ?_⟩)
    rw [count_bind, goForwards_cursors (by omega), count_cursors]
    split_ifs <;> first | rfl | omega
  · refine .inr (.inl ⟨i + 1, hzero, .inl ⟨hodd, rfl⟩, ?_⟩)
    rw [goBackwards_cursors hzero hb hint, count_cursors]
    split_ifs <;> rfl
  · refine .inr (.inl ⟨i + 2, by omega, .inr ⟨by omega, hlast, rfl⟩, ?_⟩)
    rw [count_bind, goBackwards_cursors (by omega) hb hint, count_cursors]
    split_ifs <;> first | rfl | omega
  · refine .inr (.inr ⟨i + 1, by omega, .inl ⟨by omega, rfl⟩, ?_⟩)
    rw [goForwards_cursors (by omega), count_cursors]
    split_ifs <;> first | rfl | omega

/-- The variables when a line is tried: how far the two cursors went is a function of `i`. -/
def tryLine (lens : List Nat) (start q : Nat) : Cursors :=
  cursors lens (turn start q) (start - turn start q / 2)
    (min lens.length (start + (turn start q + 1) / 2)) q

/-- **A round goes to the next line**, if there is one and it is within reach. -/
theorem again_tryLine (hstart : start ≤ lens.length) (hint : start < 2 ^ 31) (hq : q ≤ lens.length)
    (hturn : turn start q < 2 ^ 31) :
    (again lens (tryLine lens start q) = .ok none ∧ ∀ r ≤ lens.length, turn start r ≤ turn start q) ∨
    ∃ r ≤ lens.length, turn start q < turn start r ∧
      (∀ p ≤ lens.length, turn start q < turn start p → turn start r ≤ turn start p) ∧
      again lens (tryLine lens start q) =
        if r < 2 ^ 31 ∧ turn start r < 2 ^ 31 then .ok (some (tryLine lens start r))
        else .error .overflow := by
  have hq' := turn_cases start q
  obtain ⟨hb, hf, hnone⟩ | ⟨j, hb, hj, hback⟩ | ⟨j, hf, hj, hforth⟩ :=
    @again_cases lens (start - turn start q / 2) (min lens.length (start + (turn start q + 1) / 2))
      (turn start q) q (by omega) (by omega) (by omega) (by omega)
  · refine .inl ⟨hnone, fun r hr => ?_⟩
    have := turn_cases start r
    omega
  · generalize hr : start - turn start q / 2 - 1 = r at hback
    have hr' := turn_cases start r
    obtain rfl : turn start r = j := by omega
    refine .inr ⟨r, by omega, by omega, fun p hp hlt => ?_, ?_⟩
    · have := turn_cases start p
      omega
    · have hb' : start - turn start r / 2 = r := by omega
      have hf' : min lens.length (start + (turn start r + 1) / 2) =
        min lens.length (start + (turn start q + 1) / 2) := by omega
      rw [tryLine, hback, tryLine, hb', hf']
      exact if_congr (by omega) rfl rfl
  · generalize hr : min lens.length (start + (turn start q + 1) / 2) + 1 = r at hforth
    have hr' := turn_cases start r
    obtain rfl : turn start r = j := by omega
    refine .inr ⟨r, by omega, by omega, fun p hp hlt => ?_, ?_⟩
    · have := turn_cases start p
      omega
    · have hb' : start - turn start r / 2 = start - turn start q / 2 := by omega
      have hf' : min lens.length (start + (turn start r + 1) / 2) = r := by omega
      rw [tryLine, hforth, tryLine, hb', hf']

section

variable (matchFragment : Nat → Int → Bool) {fuel : Nat} {Matches : Nat → Prop}
  (hmatches : ∀ q : Nat, Matches q ↔ matchFragment (offset lens q) q = true)

include hmatches

/-- **What the loop can do**: it finds the nearest match, or a line that is tried is out of reach.
The lines with an earlier turn than `q` do not match. -/
theorem searchLoop_cases (hstart : start ≤ lens.length) (hint : start < 2 ^ 31)
    (hq : q ≤ lens.length)
    (hno : ∀ r ≤ lens.length, turn start r < turn start q → ¬ Matches r)
    (hreach : ∀ r ≤ lens.length, turn start r ≤ turn start q → Reachable start r)
    (hfuel : 2 * lens.length < turn start q + fuel) :
    (FindsNearest lens Matches start (searchLoop lens matchFragment fuel (tryLine lens start q)) ∧
      ∀ r ≤ lens.length, Tried Matches lens.length start r → Reachable start r) ∨
    searchLoop lens matchFragment fuel (tryLine lens start q) = .error .overflow ∧
      ∃ r ≤ lens.length, Tried Matches lens.length start r ∧ ¬ Reachable start r := by
  induction fuel generalizing q with
  | zero =>
    have := turn_cases start q
    omega
  | succ fuel ih =>
    have hcall : ∃ r ≤ lens.length, (offset lens q, (q : Int)) = (offset lens r, (r : Int)) :=
      ⟨q, hq, rfl⟩
    have heq : searchLoop lens matchFragment (fuel + 1) (tryLine lens start q) =
        Except.map (fun result => (result.1, (offset lens q, (q : Int)) :: result.2))
          (if matchFragment (offset lens q) q then .ok ((q : Int), [])
          else
            match again lens (tryLine lens start q) with
            | .error e => .error e
            | .ok none => .ok (-1, [])
            | .ok (some c) => searchLoop lens matchFragment fuel c) := rfl
    rw [heq]
    by_cases hmatch : Matches q
    · rw [if_pos ((hmatches q).mp hmatch)]
      refine .inl ⟨⟨q, _, rfl, forall_mem_cons.mpr ⟨hcall, nofun⟩, .inr ⟨q, hq, rfl, hmatch, ?_⟩⟩, ?_⟩
      · intro r hr hrmatch
        exact before_iff_turn_le.mpr (not_lt.mp fun hlt => hno r hr hlt hrmatch)
      · intro r hr htried
        exact hreach r hr (before_iff_turn_le.mp (htried q hq hmatch))
    rw [if_neg (mt (hmatches q).mpr hmatch)]
    have hno' : ∀ r ≤ lens.length, Matches r → turn start q < turn start r := by
      intro r hr hrmatch
      refine lt_of_le_of_ne (not_lt.mp fun hlt => hno r hr hlt hrmatch) fun hturn => hmatch ?_
      rwa [turn_injective start hturn]
    have hturn := (reachable_iff.mp (hreach q hq le_rfl)).2
    obtain ⟨hagain, hlast⟩ | ⟨r, hr, hlt, hnext, hagain⟩ := again_tryLine hstart hint hq hturn
    · rw [hagain]
      refine .inl ⟨⟨-1, _, rfl, forall_mem_cons.mpr ⟨hcall, nofun⟩, .inl ⟨rfl, ?_⟩⟩, ?_⟩
      · exact fun r hr hrmatch => (hno' r hr hrmatch).not_ge (hlast r hr)
      · exact fun r hr _ => hreach r hr (hlast r hr)
    by_cases hrr : Reachable start r
    · rw [hagain, if_pos (reachable_iff.mp hrr)]
      have hno'' : ∀ p ≤ lens.length, turn start p < turn start r → ¬ Matches p :=
        fun p hp hpr hpm => (hnext p hp (hno' p hp hpm)).not_gt hpr
      have hreach' : ∀ p ≤ lens.length, turn start p ≤ turn start r → Reachable start p := by
        intro p hp hpr
        by_cases hpq : turn start p ≤ turn start q
        · exact hreach p hp hpq
        · rwa [turn_injective start (hpr.antisymm (hnext p hp (not_le.mp hpq)))]
      rcases ih hr hno'' hreach' (by omega) with
        ⟨⟨pos, calls, hloop, hcalls, hnear⟩, hall⟩ | ⟨hloop, hex⟩
      · exact .inl ⟨⟨pos, _, congrArg (Except.map _) hloop,
          forall_mem_cons.mpr ⟨hcall, hcalls⟩, hnear⟩, hall⟩
      · exact .inr ⟨congrArg (Except.map _) hloop, hex⟩
    · rw [hagain, if_neg (mt reachable_iff.mpr hrr)]
      refine .inr ⟨rfl, r, hr, fun p hp hpm => ?_, hrr⟩
      exact before_iff_turn_le.mpr (hnext p hp (hno' p hp hpm))

end

/-- The line where the search starts is one of the image, if it is not negative. -/
theorem startLine_le {preimageNr : Nat} {line : Int32} {matchBeginning matchEnd : Bool}
    (h : startLine lens preimageNr line matchBeginning matchEnd = start) :
    start ≤ lens.length ∧ start < 2 ^ 31 := by
  have hlt := line.toInt_lt
  have hwrap := toInt32_lt (toULong (lens.length - preimageNr))
  have hclamp := toInt32_lt lens.length
  have hclamp' := toInt32_le lens.length
  unfold startLine wrap at h
  dsimp only at h
  split_ifs at h <;> (try simp only [toULong] at *) <;> omega

/-- The first line that is tried is the one to start from. -/
theorem first_call {matchFragment : Nat → Int → Bool} {fuel : Nat} {c : Cursors} {pos : Int}
    {calls : List (Nat × Int)} (h : searchLoop lens matchFragment fuel c = .ok (pos, calls)) :
    (c.current, c.currentLno) ∈ calls := by
  cases fuel with
  | zero => cases h
  | succ fuel =>
    unfold searchLoop Except.map at h
    split at h <;> cases h
    exact mem_cons_self

section

variable {matchFragment : Nat → Int → Bool → Bool → Bool} {preimageNr : Nat} {line : Int32}
  {allowOverlap matchBeginning matchEnd atStart : Bool}
  (hrule : overlapRule lens preimageNr allowOverlap matchBeginning matchEnd = atStart)
  {Matches : Nat → Prop}
  (hmatches : ∀ q : Nat, Matches q ↔ matchFragment (offset lens q) q atStart matchEnd = true)

include hrule hmatches

/-- The search from a line of the image. -/
theorem findPos_cases (hs : startLine lens preimageNr line atStart matchEnd = start) :
    (FindsNearest lens Matches start
        (findPos lens matchFragment preimageNr line allowOverlap matchBeginning matchEnd) ∧
      ∀ r ≤ lens.length, Tried Matches lens.length start r → Reachable start r) ∨
    findPos lens matchFragment preimageNr line allowOverlap matchBeginning matchEnd =
        .error .overflow ∧
      ∃ r ≤ lens.length, Tried Matches lens.length start r ∧ ¬ Reachable start r := by
  obtain ⟨hle, hint⟩ := startLine_le hs
  have hzero : turn start start = 0 := by simp [turn]
  have hfirst : tryLine lens start start = cursors lens 0 start start start := by
    simp [tryLine, hzero, hle]
  have hfind : findPos lens matchFragment preimageNr line allowOverlap matchBeginning matchEnd =
      searchLoop lens (fun off lno => matchFragment off lno atStart matchEnd)
        (2 * lens.length + 1) (tryLine lens start start) := by
    unfold findPos
    dsimp only
    rw [hrule, hs, hfirst]
    rfl
  rw [hfind]
  refine searchLoop_cases _ hmatches hle hint hle (fun r _ hlt => by omega) (fun r hr hturn => ?_)
    (by omega)
  obtain rfl := turn_injective start (show turn start r = turn start start by omega)
  unfold Reachable
  omega

end

/-- With 2³¹ lines the number of the last line becomes negative. -/
theorem findPos_of_length (h : lens.length = 2 ^ 31) :
    findPos lens (fun _ _ _ _ => false) 1 (-1) false false false = .error .outOfBounds := by
  have hstart : startLine lens 1 (-1) false false = Int.negSucc (2 ^ 31 - 1) := by
    rw [startLine, h]
    decide
  have hlong : toULong (Int.negSucc (2 ^ 31 - 1)) ≠ lens.length := by
    rw [h]
    decide
  generalize 2 ^ 31 - 1 = k at hstart hlong
  simp [findPos, overlapRule, hstart, searchLoop, again, hlong, goForwards, lineLen, bind, Except.bind,
    Except.map]

end GitCore.Apply
