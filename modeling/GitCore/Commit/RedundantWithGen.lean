import GitCore.Commit.Redundant

/-! # Removing redundant commits in one walk

`remove_redundant_with_gen` walks down from the parents of all commits of the array and marks what
it meets as `STALE`. It cuts the walk off below the smallest generation of a commit that is still
independent, and it ends when one such commit is left. `StaleInv` says why neither hides anything:
a stale commit that is not on the stack has stale parents only, or is below the minimal generation;
and a way to a commit of the array that is not stale never goes below that. -/

namespace GitCore.Commit

open List Repository

variable {α : Type} [DecidableEq α] {r : Repository α} {array : List α}

/-! ## Before the walk -/

@[simp] theorem dropMarks_self (marks : α → Marks) (c : α) (flags : Marks) :
    dropMarks marks c flags c = (marks c).diff flags := by
  simp [dropMarks]

variable {marks : α → Marks} {x : α}

@[simp] theorem dropMarks_of_ne {c : α} (flags : Marks) (h : x ≠ c) :
    dropMarks marks c flags x = marks x := by
  simp [dropMarks, h]

/-- Taking a flag off the commits of a list. -/
theorem foldl_dropMarks (list : List α) (flags : Marks) (marks : α → Marks) (x : α) :
    list.foldl (fun marks c => dropMarks marks c flags) marks x =
      if x ∈ list then (marks x).diff flags else marks x :=
  foldl_update (f := (·.diff flags)) (fun _ => Marks.diff_diff _ _) list marks x

/-- The parents of a commit get `STALE`. -/
theorem startParents_marks (parents : List α) (marks : α → Marks) (walkStart : List α) (x : α) :
    (startParents parents marks walkStart).1 x =
      (marks x).union { stale := decide (x ∈ parents) } := by
  induction parents generalizing marks walkStart with
  | nil => simp [startParents, Marks.union]
  | cons p parents ih =>
    unfold startParents
    split_ifs with hp
    · rw [ih]
      by_cases hx : x = p
      · subst hx
        simp [Marks.union, hp]
      · simp [hx]
    · rw [ih]
      by_cases hx : x = p
      · subst hx
        simp [Marks.union]
      · simp [hx]

/-- The parents of a commit go to `walk_start` unless they are there. -/
theorem mem_startParents (parents : List α) (marks : α → Marks) (walkStart : List α)
    (h : ∀ x, (marks x).stale = true → x ∈ walkStart) (x : α) :
    x ∈ (startParents parents marks walkStart).2 ↔ x ∈ walkStart ∨ x ∈ parents := by
  induction parents generalizing marks walkStart with
  | nil => simp [startParents]
  | cons p parents ih =>
    unfold startParents
    split_ifs with hp
    · rw [ih _ _ h, mem_cons]
      refine ⟨fun hx => hx.imp_right .inr, ?_⟩
      rintro (hx | rfl | hx)
      · exact .inl hx
      · exact .inl (h x hp)
      · exact .inr hx
    · rw [ih, mem_append, mem_singleton, mem_cons, or_assoc]
      intro y hy
      by_cases hyp : y = p
      · simp [hyp]
      · rw [addMarks_of_ne _ hyp] at hy
        exact mem_append_left _ (h y hy)

/-- What the first loop leaves: `RESULT` on the commits of the array, `STALE` on their parents, and
the parents in `walk_start`. -/
theorem startTips_spec (array : List α) (marks : α → Marks) (walkStart : List α)
    (h : ∀ x, (marks x).stale = true ↔ x ∈ walkStart) :
    (∀ x, ((startTips r array marks walkStart).1 x).parent1 = (marks x).parent1 ∧
      ((startTips r array marks walkStart).1 x).parent2 = (marks x).parent2 ∧
      ((startTips r array marks walkStart).1 x).result = ((marks x).result || decide (x ∈ array))) ∧
    (∀ x, ((startTips r array marks walkStart).1 x).stale = true ↔
      x ∈ (startTips r array marks walkStart).2) ∧
    ∀ x, x ∈ (startTips r array marks walkStart).2 ↔
      x ∈ walkStart ∨ ∃ c ∈ array, x ∈ r.parents c := by
  induction array generalizing marks walkStart with
  | nil => simpa [startTips] using h
  | cons c array ih =>
    have hold : ∀ x, (addMarks marks c { result := true } x).stale = (marks x).stale := by simp
    have hmem := mem_startParents (r.parents c) (addMarks marks c { result := true }) walkStart
      fun x hx => (h x).mp (hold x ▸ hx)
    have hmarks := startParents_marks (r.parents c) (addMarks marks c { result := true }) walkStart
    obtain ⟨hrest, hrestStale, hrestMem⟩ := ih (startParents (r.parents c)
      (addMarks marks c { result := true }) walkStart).1 (startParents (r.parents c)
      (addMarks marks c { result := true }) walkStart).2 (fun x => by
        rw [hmem, hmarks, ← h, Marks.union_stale, hold]
        simp)
    unfold startTips
    refine ⟨fun x => ?_, hrestStale, fun x => ?_⟩
    · obtain ⟨h1, h2, h3⟩ := hrest x
      rw [h1, h2, h3, hmarks]
      simp [Bool.or_assoc]
    grind

/-! ## The invariant -/

/-- What the flags mean: `STALE` is below a commit of the array, and `RESULT` is on the commits of
the array that were not met yet, which are counted. -/
structure StaleCore (r : Repository α) (array walkStart : List α) (marks : α → Marks)
    (count : Nat) : Prop where
  colour : ∀ x, (marks x).parent1 = false ∧ (marks x).parent2 = false
  sound : ∀ x, (marks x).stale = true → ∃ t ∈ array, r.Ancestor t x
  tips : ∀ x, (marks x).result = true → x ∈ array
  alive : ∀ x ∈ array, (marks x).stale = false → (marks x).result = true
  count : count = array.countP fun x => (marks x).result
  /-- Clearing from `walk_start` finds all of it. -/
  walk : ∀ x, (marks x).stale = true →
    ∃ w ∈ walkStart, Walk r.parents (fun y => (marks y).stale = true) w x

/-- What holds around the inner loop, where `top` is a commit that may have just become stale. -/
structure StaleInv (r : Repository α) (array sorted walkStart : List α) (top : Option α)
    (s : WithGenState α) : Prop where
  core : StaleCore r array walkStart s.marks s.countStillIndependent
  onStack : ∀ x ∈ s.stack, (s.marks x).stale = true
  met : ∀ x ∈ array, (s.marks x).stale = true → (s.marks x).result = true → top = some x
  /-- The commits that `min_gen_pos` was moved over are stale. -/
  skipped : ∃ gone, sorted = gone ++ s.pending ∧ ∀ x ∈ gone, (s.marks x).stale = true
  minGen : ∃ c rest, s.pending = c :: rest ∧ s.minGeneration = r.generation c
  /-- Off the stack, all parents are stale unless the walk was cut off. -/
  finished : ∀ x, (s.marks x).stale = true → x ∉ s.stack →
    r.generation x < s.minGeneration ∨ ∀ p ∈ r.parents x, (s.marks p).stale = true

variable {sorted walkStart : List α} {count : Nat} {p : α}

/-- Giving a commit below the array `STALE` keeps the meaning of the flags, if clearing finds it. -/
theorem StaleCore.addStale (h : StaleCore r array walkStart marks count)
    (hsound : ∃ t ∈ array, r.Ancestor t p)
    (hwalk : p ∈ walkStart ∨ ∃ c, (marks c).stale = true ∧ p ∈ r.parents c) :
    StaleCore r array walkStart (addMarks marks p { stale := true }) count := by
  have hstale : ∀ x, (addMarks marks p { stale := true } x).stale = true ↔
      x = p ∨ (marks x).stale = true := by
    simp [or_comm]
  have hmono : ∀ x, (marks x).stale = true → (addMarks marks p { stale := true } x).stale = true :=
    fun x hx => (hstale x).mpr (.inr hx)
  refine ⟨by simpa using h.colour, fun x hx => ?_, by simpa using h.tips, fun x hx hnot => ?_,
    by simpa using h.count, fun x hx => ?_⟩
  · rcases (hstale x).mp hx with rfl | hx
    · exact hsound
    · exact h.sound x hx
  · simp only [addMarks_flags, Bool.or_eq_false_iff] at hnot
    simpa using h.alive x hx hnot.1
  rcases (hstale x).mp hx with rfl | hx'
  · rcases hwalk with hw | ⟨c, hc, hp⟩
    · exact ⟨x, hw, .refl hx⟩
    · obtain ⟨w, hw, hway⟩ := h.walk c hc
      exact ⟨w, hw, (hway.mono hmono).snoc hp hx⟩
  · obtain ⟨w, hw, hway⟩ := h.walk x hx'
    exact ⟨w, hw, hway.mono hmono⟩

variable {c : α}

/-- Taking `RESULT` off one commit of the array makes the count smaller by one. -/
theorem countP_dropMarks (hnodup : array.Nodup) (hc : c ∈ array)
    (hresult : (marks c).result = true) :
    (array.countP fun x => (dropMarks marks c { result := true } x).result) + 1 =
      array.countP fun x => (marks x).result := by
  have hperm := perm_cons_erase hc
  rw [hperm.countP_eq, hperm.countP_eq, countP_cons_of_neg,
    countP_cons_of_pos (p := fun x => (marks x).result) hresult]
  · congr 1
    refine countP_congr fun x hx => ?_
    have hne : x ≠ c := by
      rintro rfl
      exact hnodup.not_mem_erase hx
    rw [dropMarks_of_ne _ hne]
  · simp [Marks.diff]

/-- Taking `RESULT` off a stale commit of the array keeps the meaning of the flags. -/
theorem StaleCore.dropResult (hnodup : array.Nodup) (h : StaleCore r array walkStart marks count)
    (hstale : (marks c).stale = true) (hresult : (marks c).result = true) :
    StaleCore r array walkStart (dropMarks marks c { result := true }) (count - 1) := by
  have hfields : ∀ x, (dropMarks marks c { result := true } x).parent1 = (marks x).parent1 ∧
      (dropMarks marks c { result := true } x).parent2 = (marks x).parent2 ∧
      (dropMarks marks c { result := true } x).stale = (marks x).stale := by
    intro x
    by_cases hx : x = c
    · subst hx
      simp [Marks.diff]
    · simp [hx]
  refine ⟨fun x => ?_, fun x hx => ?_, fun x hx => ?_, fun x hx hnot => ?_, ?_, ?_⟩
  · rw [(hfields x).1, (hfields x).2.1]
    exact h.colour x
  · exact h.sound x ((hfields x).2.2 ▸ hx)
  · by_cases hxc : x = c
    · subst hxc
      exact h.tips x hresult
    · rw [dropMarks_of_ne _ hxc] at hx
      exact h.tips x hx
  · rw [(hfields x).2.2] at hnot
    have hxc : x ≠ c := by
      rintro rfl
      rw [hstale] at hnot
      cases hnot
    rw [dropMarks_of_ne _ hxc]
    exact h.alive x hx hnot
  · have := countP_dropMarks hnodup (h.tips c hresult) hresult
    rw [h.count]
    omega
  · simp only [(hfields _).2.2]
    exact h.walk

omit [DecidableEq α] in
/-- Moving `min_gen_pos` on goes over stale commits and stops at a commit. -/
theorem skipStale_spec (marks : α → Marks) (c : α) (pending : List α) :
    ∃ gone d rest, skipStale marks (c :: pending) = d :: rest ∧
      c :: pending = gone ++ d :: rest ∧ ∀ x ∈ gone, (marks x).stale = true := by
  induction pending generalizing c with
  | nil => exact ⟨[], c, [], rfl, rfl, fun x hx => nomatch hx⟩
  | cons d pending ih =>
    unfold skipStale
    split_ifs with hc
    · obtain ⟨gone, e, rest, hskip, happ, hgone⟩ := ih d
      grind
    · exact ⟨[], c, d :: pending, rfl, rfl, fun x hx => nomatch hx⟩

/-! ## One round -/

variable {s : WithGenState α} {rest : List α}

/-- What losing a commit of the array does to the walk. -/
theorem loseResult_spec (hnodup : array.Nodup)
    (hsorted : sorted.Pairwise fun a b => r.generation a ≤ r.generation b)
    (hstack : s.stack = c :: rest) (hinv : StaleInv r array sorted walkStart (some c) s)
    (hresult : (s.marks c).result = true) :
    StaleInv r array sorted walkStart none (loseResult r s c) ∧
      (loseResult r s c).stack = s.stack ∧
      ∀ x, ((loseResult r s c).marks x).stale = (s.marks x).stale := by
  have hc : (s.marks c).stale = true := hinv.onStack c (by simp [hstack])
  have hstale : ∀ x, (dropMarks s.marks c { result := true } x).stale = (s.marks x).stale := by
    intro x
    by_cases hx : x = c
    · subst hx
      simp [Marks.diff]
    · simp [hx]
  have hmet : ∀ x ∈ array, (dropMarks s.marks c { result := true } x).stale = true →
      (dropMarks s.marks c { result := true } x).result = true → (none : Option α) = some x := by
    intro x hx hxs hxr
    rw [hstale] at hxs
    by_cases hxc : x = c
    · subst hxc
      simp [Marks.diff] at hxr
    · rw [dropMarks_of_ne _ hxc] at hxr
      exact absurd (Option.some.inj (hinv.met x hx hxs hxr)).symm hxc
  have hcore := hinv.core.dropResult hnodup hc hresult
  obtain ⟨gone, hgone, hgoneStale⟩ := hinv.skipped
  -- without a move of `min_gen_pos` only the flag and the count change
  have hplain : StaleInv r array sorted walkStart none
      { s with marks := dropMarks s.marks c { result := true },
               countStillIndependent := s.countStillIndependent - 1 } := by
    refine ⟨hcore, ?_, hmet, ⟨gone, hgone, ?_⟩, hinv.minGen, ?_⟩ <;> simp only [hstale]
    · exact hinv.onStack
    · exact hgoneStale
    · exact hinv.finished
  unfold loseResult
  dsimp only
  split
  · exact ⟨hplain, rfl, hstale⟩
  split
  · obtain ⟨d, pending, hpending, hmin⟩ := hinv.minGen
    obtain ⟨gone', e, rest', hskip, happ, hgone'⟩ :=
      skipStale_spec (dropMarks s.marks c { result := true }) d pending
    refine ⟨⟨hcore, ?_, hmet, ?_, ?_, ?_⟩, rfl, hstale⟩
    · simp only [hstale]
      exact hinv.onStack
    · grind
    · grind
    · -- the minimal generation only moves up
      have hup : r.generation d ≤ r.generation e := by
        rw [hgone, hpending] at hsorted
        have htail := hsorted.sublist (sublist_append_right gone (d :: pending))
        have hmem : e ∈ d :: pending := by simp [happ]
        rcases mem_cons.mp hmem with rfl | hmem
        · exact le_rfl
        · exact rel_of_pairwise_cons htail hmem
      intro x hx hxs
      simp only [hstale, hpending, hskip] at hx ⊢
      rcases hinv.finished x hx hxs with hlt | hall
      · exact .inl (by omega)
      · exact .inr hall
  · exact ⟨hplain, rfl, hstale⟩

/-- What the rest of a round can do: leave the commit, or go to a parent. -/
theorem goOn_cases (r : Repository α) (s : WithGenState α) (c : α) (rest : List α) :
    (r.generation c < s.minGeneration ∨ ∀ p ∈ r.parents c, (s.marks p).stale = true) ∧
        goOn r s c rest = { s with stack := rest } ∨
      ∃ p ∈ r.parents c, (s.marks p).stale = false ∧ goOn r s c rest =
        { s with marks := addMarks s.marks p { stale := true }, stack := p :: c :: rest } := by
  unfold goOn
  by_cases hcut : r.generation c < s.minGeneration
  · exact .inl ⟨.inl hcut, if_pos hcut⟩
  rw [if_neg hcut]
  cases hfind : (r.parents c).find? fun p => !(s.marks p).stale with
  | some p =>
    right
    exact ⟨p, mem_of_find?_eq_some hfind, by simpa using find?_some hfind, rfl⟩
  | none =>
    left
    exact ⟨.inr (by simpa using find?_eq_none.mp hfind), rfl⟩

/-- Leaving a commit whose parents need no visit. -/
theorem StaleInv.pop (hstack : s.stack = c :: rest)
    (hinv : StaleInv r array sorted walkStart none s)
    (hdone : r.generation c < s.minGeneration ∨ ∀ p ∈ r.parents c, (s.marks p).stale = true)
    (top : Option α) : StaleInv r array sorted walkStart top { s with stack := rest } := by
  refine ⟨hinv.core, fun x hx => hinv.onStack x (by simp [hstack, show x ∈ rest from hx]), ?_,
    hinv.skipped, hinv.minGen, fun x hx hxs => ?_⟩
  · intro x hx hxs hxr
    cases hinv.met x hx hxs hxr
  by_cases hxc : x = c
  · subst hxc
    exact hdone
  refine hinv.finished x hx ?_
  grind

/-- Going to a commit below the array that clearing finds. -/
theorem StaleInv.push (hinv : StaleInv r array sorted walkStart none s)
    (hsound : ∃ t ∈ array, r.Ancestor t p)
    (hwalk : p ∈ walkStart ∨ ∃ c, (s.marks c).stale = true ∧ p ∈ r.parents c) :
    StaleInv r array sorted walkStart (some p)
      { s with marks := addMarks s.marks p { stale := true }, stack := p :: s.stack } := by
  have hmono : ∀ x, (s.marks x).stale = true →
      (addMarks s.marks p { stale := true } x).stale = true := fun x hx => by simp [hx]
  obtain ⟨gone, hgone, hgoneStale⟩ := hinv.skipped
  refine ⟨hinv.core.addStale hsound hwalk, fun x hx => ?_, fun x hx hxs hxr => ?_,
    ⟨gone, hgone, fun x hx => hmono x (hgoneStale x hx)⟩, hinv.minGen, fun x hx hxs => ?_⟩
  · rcases mem_cons.mp hx with rfl | hx
    · simp
    · exact hmono x (hinv.onStack x hx)
  · by_cases hxp : x = p
    · rw [hxp]
    dsimp only at hxs hxr
    rw [addMarks_of_ne _ hxp] at hxs hxr
    cases hinv.met x hx hxs hxr
  · rw [mem_cons, not_or] at hxs
    dsimp only at hx
    rw [addMarks_of_ne _ hxs.1] at hx
    rcases hinv.finished x hx hxs.2 with hlt | hall
    · exact .inl hlt
    · exact .inr fun q hq => hmono q (hall q hq)

/-! ## The whole walk -/

/-- What a commit may still cost the walk: it may be pushed and popped. -/
def staleCost (m : Marks) : Nat := if m.stale then 0 else 2

/-- Pushing a commit pays for popping it. -/
theorem staleCost_addMarks [Fintype α] (hp : (marks p).stale = false) :
    (∑ x, staleCost (addMarks marks p { stale := true } x)) + 2 ≤ ∑ x, staleCost (marks x) := by
  apply sum_add_le_sum (c := p)
  · simp [staleCost, hp]
  · intro x hx
    rw [addMarks_of_ne _ hx]

/-- **The inner loop ends** with an empty stack, or with one commit of the array left. -/
theorem staleWalk_spec [Fintype α] (hnodup : array.Nodup)
    (hsorted : sorted.Pairwise fun a b => r.generation a ≤ r.generation b) (fuel : Nat)
    (s : WithGenState α) (hinv : StaleInv r array sorted walkStart s.stack.head? s)
    (hfuel : (∑ x, staleCost (s.marks x)) + s.stack.length < fuel) :
    ∃ s', staleWalk r fuel s = .ok s' ∧
      (∀ x, (s.marks x).stale = true → (s'.marks x).stale = true) ∧
      StaleInv r array sorted walkStart none s' ∧
      (s'.countStillIndependent ≤ 1 ∨ s'.stack = []) := by
  induction fuel generalizing s with
  | zero => omega
  | succ fuel ih =>
    unfold staleWalk
    cases hstack : s.stack with
    | nil =>
      grind
    | cons c rest =>
      rw [hstack] at hinv hfuel
      rw [length_cons] at hfuel
      -- the rest of the round, from a state in which no stale commit has `RESULT`
      have hgoOn : ∀ s₁ : WithGenState α, StaleInv r array sorted walkStart none s₁ →
          s₁.stack = c :: rest → (∀ x, (s₁.marks x).stale = (s.marks x).stale) →
          ∃ s', staleWalk r fuel (goOn r s₁ c rest) = .ok s' ∧
            (∀ x, (s.marks x).stale = true → (s'.marks x).stale = true) ∧
            StaleInv r array sorted walkStart none s' ∧
            (s'.countStillIndependent ≤ 1 ∨ s'.stack = []) := by
        intro s₁ hinv₁ hstack₁ hstale₁
        have hcost : ∑ x, staleCost (s₁.marks x) = ∑ x, staleCost (s.marks x) := by
          simp only [staleCost, hstale₁]
        rcases goOn_cases r s₁ c rest with ⟨hdone, heq⟩ | ⟨p, hp, hfresh, heq⟩
        · rw [heq]
          obtain ⟨s', hwalk, hmono, hrest⟩ := ih _ (hinv₁.pop hstack₁ hdone _) (by
            dsimp only
            omega)
          exact ⟨s', hwalk, fun x hx => hmono x ((hstale₁ x).trans hx), hrest⟩
        rw [heq]
        have hpay := staleCost_addMarks hfresh
        have hc : (s₁.marks c).stale = true := hinv₁.onStack c (by simp [hstack₁])
        obtain ⟨t, ht, hanc⟩ := hinv₁.core.sound c hc
        have hpush := hinv₁.push ⟨t, ht, hanc.trans_reaches (.parent hp)⟩ (.inr ⟨c, hc, hp⟩)
        rw [hstack₁] at hpush
        obtain ⟨s', hwalk, hmono, hrest⟩ := ih
          { s₁ with marks := addMarks s₁.marks p { stale := true }, stack := p :: c :: rest }
          hpush (by
            simp only [length_cons]
            omega)
        exact ⟨s', hwalk, fun x hx => hmono x (by simp [hstale₁, hx]), hrest⟩
      dsimp only
      split
      · rename_i hresult
        obtain ⟨hinv₁, hstack₁, hstale₁⟩ := loseResult_spec hnodup hsorted hstack hinv hresult
        grind
      · rename_i hresult
        refine hgoOn s ⟨hinv.core, hinv.onStack, fun x hx hxs hxr => ?_, hinv.skipped, hinv.minGen,
          hinv.finished⟩ hstack fun x => rfl
        obtain rfl : c = x := Option.some.inj (hinv.met x hx hxs hxr)
        exact absurd hxr hresult

variable {fuel : Nat}

/-- **The outer loop ends** with all start commits stale, or with one commit of the array left. -/
theorem staleWalks_spec [Fintype α] (hnodup : array.Nodup)
    (hsorted : sorted.Pairwise fun a b => r.generation a ≤ r.generation b)
    (hfuel : 2 * Fintype.card α + 2 ≤ fuel) (starts : List α)
    (hstarts : ∀ w ∈ starts, w ∈ walkStart ∧ ∃ t ∈ array, w ∈ r.parents t) (s : WithGenState α)
    (hinv : StaleInv r array sorted walkStart none s)
    (hs : s.countStillIndependent ≤ 1 ∨ s.stack = []) :
    ∃ s', staleWalks r fuel starts s = .ok s' ∧
      (∀ x, (s.marks x).stale = true → (s'.marks x).stale = true) ∧
      StaleInv r array sorted walkStart none s' ∧
      (s'.countStillIndependent ≤ 1 ∨ s'.stack = [] ∧ ∀ w ∈ starts, (s'.marks w).stale = true) := by
  induction starts generalizing s with
  | nil =>
    exact ⟨s, rfl, fun x hx => hx, hinv, hs.imp_right fun h => ⟨h, fun w hw => nomatch hw⟩⟩
  | cons w starts ih =>
    unfold staleWalks
    split_ifs with hcount
    · have hstack : s.stack = [] := hs.resolve_left (by omega)
      obtain ⟨hw, t, ht, hparent⟩ := hstarts w mem_cons_self
      have hpush := hinv.push ⟨t, ht, .parent hparent⟩ (.inl hw)
      rw [hstack] at hpush
      have hcost : ∑ x, staleCost (addMarks s.marks w { stale := true } x) ≤
          Fintype.card α * 2 := by
        refine Finset.sum_le_card_nsmul _ _ _ fun x _ => ?_
        unfold staleCost
        split <;> omega
      obtain ⟨s₁, hwalk, hmono₁, hinv₁, hend₁⟩ := staleWalk_spec hnodup hsorted fuel
        { s with marks := addMarks s.marks w { stale := true }, stack := [w] }
        hpush (by
          simp only [length_singleton]
          omega)
      obtain ⟨s', hwalks, hmono, hinv', hend⟩ := ih
        (forall_mem_cons.mp hstarts).2 s₁ hinv₁ hend₁
      have hstale : (s₁.marks w).stale = true := hmono₁ w (by simp)
      refine ⟨s', ?_, fun x hx => hmono x (hmono₁ x ?_), hinv', ?_⟩
      · rw [hwalk]
        exact hwalks
      · simp [hx]
      grind
    · exact ⟨s, rfl, fun x hx => hx, hinv, .inl (by omega)⟩

/-! ## The answer -/

omit [DecidableEq α] in
/-- Two commits with `RESULT` count for two. -/
theorem two_le_countP {y : α} (hx : x ∈ array) (hy : y ∈ array) (hne : x ≠ y)
    (hxr : (marks x).result = true) (hyr : (marks y).result = true) :
    2 ≤ array.countP fun z => (marks z).result := by
  have hsub : [x, y].Subperm (array.filter fun z => (marks z).result) := by
    refine subperm_of_subset (by simp [hne]) ?_
    grind
  rw [countP_eq_length_filter]
  exact hsub.length_le

omit [DecidableEq α] in
/-- **A commit of the array is stale after the walk if and only if it is redundant.** -/
theorem StaleInv.answer [Finite α]
    (hsorted : sorted.Pairwise fun a b => r.generation a ≤ r.generation b)
    (hperm : sorted.Perm array) (hinv : StaleInv r array sorted walkStart none s)
    (hstarts : ∀ t ∈ array, ∀ p ∈ r.parents t, p ∈ walkStart)
    (hend : s.countStillIndependent ≤ 1 ∨ s.stack = [] ∧ ∀ w ∈ walkStart, (s.marks w).stale = true)
    (hx : x ∈ array) : (s.marks x).stale = false ↔ Independent r array x := by
  rw [independent_iff]
  constructor
  · refine fun hfresh => ⟨hx, fun t ht hanc => ?_⟩
    rcases hend with hcount | ⟨hstack, hall⟩
    · -- at most one commit is left, and an independent one above `x` is left
      obtain ⟨z, hz, hzx⟩ := exists_independent_above ht hanc
      rw [independent_iff] at hz
      have hzfresh : (s.marks z).stale = false := by
        rw [← Bool.not_eq_true]
        intro hzs
        obtain ⟨y, hy, hyz⟩ := hinv.core.sound z hzs
        exact hz.2 y hy hyz
      have hne : x ≠ z := by
        rintro rfl
        exact hzx.irrefl
      have := two_le_countP hx hz.1 hne (hinv.core.alive x hx hfresh)
        (hinv.core.alive z hz.1 hzfresh)
      rw [hinv.core.count] at hcount
      omega
    · -- the walk went all the way down to `x`, whose generation is not below the minimal one
      obtain ⟨gone, hgone, hgoneStale⟩ := hinv.skipped
      obtain ⟨c, rest, hpending, hmin⟩ := hinv.minGen
      have hgen : s.minGeneration ≤ r.generation x := by
        have hmem : x ∈ gone ++ c :: rest := by grind
        rw [hgone, hpending] at hsorted
        rcases mem_append.mp hmem with hgone' | hmem
        · grind
        · have htail := hsorted.sublist (sublist_append_right gone (c :: rest))
          rcases mem_cons.mp hmem with rfl | hmem
          · exact hmin.le
          · rw [hmin]
            exact rel_of_pairwise_cons htail hmem
      obtain ⟨p, hp, hpx⟩ := Relation.TransGen.head'_iff.mp hanc
      have hstale : (s.marks x).stale = true := by
        refine (exists_walk_of_reflTransGen hpx).carry
          (R := fun y => (s.marks y).stale = true) (hall p (hstarts t ht p hp)) ?_
        intro y q hyx _ hq hys
        rcases hinv.finished y hys (by simp [hstack]) with hlt | hpar
        · have := generation_le_of_reaches hyx
          omega
        · exact hpar q hq
      rw [hfresh] at hstale
      cases hstale
  · rintro ⟨-, hnone⟩
    rw [← Bool.not_eq_true]
    intro hstale
    obtain ⟨t, ht, hanc⟩ := hinv.core.sound x hstale
    exact hnone t ht hanc

/-- Clearing from `walk_start` after the walk takes all flags off. -/
theorem StaleCore.clear [Fintype α] (h : StaleCore r array walkStart marks count)
    (hfuel : clearFuel r.parents ≤ fuel) :
    clearCommitMarksMany r.parents { stale := true } fuel
      (array.foldl (fun marks c => dropMarks marks c { result := true }) marks) walkStart =
        .ok unmarked := by
  have hfields : ∀ x, array.foldl (fun marks c => dropMarks marks c { result := true }) marks x =
      { stale := (marks x).stale } := by
    intro x
    rw [foldl_dropMarks]
    have hcolour := h.colour x
    rcases hm : marks x with ⟨m1, m2, m3, m4⟩
    rw [hm] at hcolour
    obtain ⟨rfl, rfl⟩ := hcolour
    split
    · simp [Marks.diff]
    rename_i hnot
    have : m4 = false := by
      rw [← Bool.not_eq_true]
      rintro rfl
      exact hnot (h.tips x (by rw [hm]))
    rw [this]
  have hmeets : ∀ b, ({ stale := b } : Marks).meets { stale := true } = b := by decide
  have hdiff : ∀ b, ({ stale := b } : Marks).diff { stale := true } = {} := by decide
  obtain ⟨marks', hmany, hclear⟩ := clearCommitMarksMany_spec { stale := true } hfuel
    (array.foldl (fun marks c => dropMarks marks c { result := true }) marks) walkStart
  rw [hmany]
  congr 1
  funext x
  by_cases hx : (marks x).stale = true
  · obtain ⟨w, hw, hwalk⟩ := h.walk x hx
    rw [hclear.reached hw (hwalk.mono fun y hy => by rw [hfields, hmeets, hy]), hfields, hdiff,
      unmarked]
  · rcases hclear.frame x with hx' | hx' <;> rw [hx', hfields]
    · rw [unmarked, Bool.eq_false_iff.mpr hx]
    · rw [hdiff, unmarked]

/-- The walk starts with nothing stale and all commits of the array independent. -/
theorem staleStart_inv (first : α) (others : List α) :
    StaleInv r array (first :: others) walkStart none
      { marks := fun x => { result := decide (x ∈ array) }, stack := [],
        countStillIndependent := array.length, pending := first :: others,
        minGeneration := r.generation first } := by
  refine ⟨⟨?_, ?_, ?_, ?_, ?_, ?_⟩, ?_, ?_, ⟨[], rfl, ?_⟩, ⟨first, others, rfl, rfl⟩, ?_⟩
  · simp
  · simp
  · simp
  · simp
  · refine (countP_eq_length.mpr fun x hx => ?_).symm
    simpa using hx
  · simp
  · simp
  · simp
  · simp
  · simp

/-- **`remove_redundant_with_gen` keeps the independent commits**, in their order, and leaves no
flags. -/
theorem removeRedundantWithGen_spec [Fintype α] (qsort : r.GenSort)
    (hfuel : 2 * Fintype.card α + 2 ≤ fuel) (hclear : clearFuel r.parents ≤ fuel)
    (hne : array ≠ []) (hnodup : array.Nodup) :
    ∃ kept, removeRedundantWithGen r qsort fuel unmarked array = .ok (unmarked, kept) ∧
      kept.Sublist array ∧ ∀ x, x ∈ kept ↔ Independent r array x := by
  obtain ⟨htips, hstale, hmem⟩ := startTips_spec (r := r) array unmarked [] (by simp [unmarked])
  have hperm := qsort.perm (startTips r array unmarked []).2
  have hws : ∀ x, x ∈ qsort.sort (startTips r array unmarked []).2 ↔
      ∃ t ∈ array, x ∈ r.parents t := by
    intro x
    rw [hperm.mem_iff, hmem]
    simp
  -- the flags when the walk starts
  have hmarks : (qsort.sort (startTips r array unmarked []).2).foldl
      (fun marks w => dropMarks marks w { stale := true }) (startTips r array unmarked []).1 =
      fun x => { result := decide (x ∈ array) } := by
    funext x
    rw [foldl_dropMarks]
    obtain ⟨h1, h2, h3⟩ := htips x
    have hx := hstale x
    rcases hm : (startTips r array unmarked []).1 x with ⟨m1, m2, m3, m4⟩
    rw [hm] at h1 h2 h3 hx
    obtain rfl : m1 = false := h1
    obtain rfl : m2 = false := h2
    obtain rfl : m4 = decide (x ∈ array) := h3.trans (Bool.false_or _)
    split
    · simp [Marks.diff]
    grind
  cases hsort : qsort.sort array with
  | nil =>
    have := (qsort.perm array).symm
    rw [hsort] at this
    exact absurd (perm_nil.mp this) hne
  | cons first others =>
    have hsorted := qsort.pairwise array
    rw [hsort] at hsorted
    obtain ⟨s, hwalks, -, hinv, hend⟩ := staleWalks_spec hnodup hsorted hfuel
      (qsort.sort (startTips r array unmarked []).2).reverse (fun w hw => by
        rw [mem_reverse] at hw
        exact ⟨hw, (hws w).mp hw⟩) _ (staleStart_inv first others) (.inr rfl)
    have hanswer : ∀ x ∈ array, ((s.marks x).stale = false ↔ Independent r array x) := by
      intro x hx
      refine hinv.answer hsorted (hsort ▸ qsort.perm array) (fun t ht p hp => ?_) ?_ hx
      · exact (hws p).mpr ⟨t, ht, hp⟩
      · simpa using hend
    refine ⟨array.filter fun c => !(array.foldl
      (fun marks c => dropMarks marks c { result := true }) s.marks c).stale, ?_,
      filter_sublist, fun x => ?_⟩
    · unfold removeRedundantWithGen
      simp only [hsort, hmarks, hwalks, hinv.core.clear hclear]
    have hkeep : (array.foldl (fun marks c => dropMarks marks c { result := true }) s.marks
        x).stale = (s.marks x).stale := by
      rw [foldl_dropMarks]
      split <;> simp [Marks.diff]
    rw [mem_filter, hkeep, Bool.not_eq_true']
    exact ⟨fun h => (hanswer x h.1).mp h.2, fun h => ⟨h.1, (hanswer x h.1).mpr h⟩⟩

end GitCore.Commit
