import GitCore.Commit.Descendant

/-! # The depth-first search is right

The search of `can_all_from_reach_with_flag` keeps a path on its stack. A commit that was seen and is
off the stack is reached, or below the minimal generation, or has only such parents that were seen,
are off the stack and are not reached; the last is final, since a commit goes on the stack only
once and only commits on the stack get `RESULT`. -/

namespace GitCore.Commit

open List Repository

variable {α : Type} [DecidableEq α] {r : Repository α}

theorem meets_reachedFlags {m : Marks} :
    m.meets reachedFlags = true ↔ m.parent2 = true ∨ m.result = true := by
  rcases m with ⟨m1, m2, m3, m4⟩
  revert m1 m2 m3 m4
  decide

/-! ## The loop over the parents -/

/-- What the loop over the parents of `top` does: it marks parents as seen and may give `top` its
`RESULT`; `next` is the parent to go to, and the other ones that were not seen are cut off. -/
structure Scan (r : Repository α) (minGeneration : Nat) (top : α) (parents : List α)
    (marks marks' : α → Marks) (next : Option α) : Prop where
  parent2 : ∀ x, (marks' x).parent2 = (marks x).parent2
  stale : ∀ x, (marks' x).stale = (marks x).stale
  result : ∀ x, x ≠ top → (marks' x).result = (marks x).result
  top_result : (marks' top).result = true → (marks top).result = true ∨
    ∃ p ∈ parents, (marks p).meets reachedFlags = true
  top_keeps : (marks top).result = true → (marks' top).result = true
  mono : ∀ x, (marks x).parent1 = true → (marks' x).parent1 = true
  seen : ∀ x, (marks' x).parent1 = true → (marks x).parent1 = true ∨
    x ∈ parents ∧ (next = some x ∨ r.generation x < minGeneration)
  next_spec : ∀ p, next = some p → p ∈ parents ∧ (marks p).parent1 = false ∧
    (marks' p).parent1 = true
  none_spec : next = none → ∀ p ∈ parents, (marks' p).parent1 = true ∧
    ((marks p).meets reachedFlags = true → (marks' top).result = true)

/-- The flags after one parent `p` of `top` was looked at and seen. -/
structure ScanOne (top p : α) (marks marks' : α → Marks) : Prop where
  other : ∀ x, x ≠ top → x ≠ p → marks' x = marks x
  top : marks' top = if (marks p).meets reachedFlags then (marks top).union { result := true }
    else marks top
  parent : marks' p = (marks p).union { parent1 := true }

section One

variable {minGeneration : Nat} {top p : α} {parents : List α} {marks marks₁ marks₂ : α → Marks}
  {next : Option α}

/-- The flags after one parent, flag by flag. -/
theorem ScanOne.fields (h : ScanOne top p marks marks₁) (hp : p ≠ top) (x : α) :
    (marks₁ x).parent2 = (marks x).parent2 ∧ (marks₁ x).stale = (marks x).stale ∧
      (x ≠ top → (marks₁ x).result = (marks x).result) ∧
      (x ≠ p → (marks₁ x).parent1 = (marks x).parent1) := by
  by_cases hx : x = top
  · rw [hx, h.top]
    split <;> simp [Ne.symm hp]
  by_cases hxp : x = p
  · rw [hxp, h.parent]
    simp
  · simp [h.other x hx hxp]

omit [DecidableEq α] in
/-- When `top` has its `RESULT` after one parent. -/
theorem ScanOne.result_iff (h : ScanOne top p marks marks₁) : (marks₁ top).result = true ↔
    (marks top).result = true ∨ (marks p).meets reachedFlags = true := by
  rw [h.top]
  split
  · rename_i hmeet
    simp [hmeet]
  · rename_i hmeet
    simp [hmeet]

/-- One parent and then the others. -/
theorem ScanOne.cons (h₁ : ScanOne top p marks marks₁) (hp : p ≠ top)
    (hcut : (marks p).parent1 = true ∨ r.generation p < minGeneration)
    (hfree : top ∉ parents) (h : Scan r minGeneration top parents marks₁ marks₂ next) :
    Scan r minGeneration top (p :: parents) marks marks₂ next := by
  have hfields := h₁.fields hp
  have hseen : (marks₁ p).parent1 = true := by simp [h₁.parent]
  have hmeets : ∀ x, x ≠ top → (marks₁ x).meets reachedFlags = (marks x).meets reachedFlags := by
    intro x hx
    rw [Bool.eq_iff_iff, meets_reachedFlags, meets_reachedFlags, (hfields x).1,
      (hfields x).2.2.1 hx]
  refine ⟨fun x => (h.parent2 x).trans (hfields x).1, fun x => (h.stale x).trans (hfields x).2.1,
    fun x hx => (h.result x hx).trans ((hfields x).2.2.1 hx), fun hx => ?_, fun hx => ?_,
    fun x hx => ?_, fun x hx => ?_, fun q hq => ?_, fun hnone q hq => ?_⟩
  · rcases h.top_result hx with hx | ⟨q, hq, hqm⟩
    · rcases h₁.result_iff.mp hx with hx | hx
      · exact .inl hx
      · exact .inr ⟨p, mem_cons_self, hx⟩
    grind
  · exact h.top_keeps (h₁.result_iff.mpr (.inl hx))
  · refine h.mono x ?_
    grind
  · rcases h.seen x hx with hx' | ⟨hx', hx''⟩
    · grind
    · exact .inr ⟨mem_cons_of_mem _ hx', hx''⟩
  · obtain ⟨hmem, hfresh, hseen'⟩ := h.next_spec q hq
    grind
  · rcases mem_cons.mp hq with rfl | hq
    · exact ⟨h.mono q hseen, fun hmeet => h.top_keeps (h₁.result_iff.mpr (.inr hmeet))⟩
    obtain ⟨hseen', hres⟩ := h.none_spec hnone q hq
    grind

/-- The parent to go to ends the loop. -/
theorem ScanOne.stop (h : ScanOne top p marks marks₁) (hp : p ≠ top)
    (hfresh : (marks p).parent1 = false) :
    Scan r minGeneration top (p :: parents) marks marks₁ (some p) := by
  have hfields := h.fields hp
  have hseen : (marks₁ p).parent1 = true := by simp [h.parent]
  refine ⟨fun x => (hfields x).1, fun x => (hfields x).2.1, fun x => (hfields x).2.2.1,
    fun hx => ?_, fun hx => h.result_iff.mpr (.inl hx), fun x hx => ?_, fun x hx => ?_,
    fun q hq => ?_, fun hnone => ?_⟩
  · rcases h.result_iff.mp hx with hx | hmeet
    · exact .inl hx
    · exact .inr ⟨p, mem_cons_self, hmeet⟩
  · grind
  · grind
  · cases hq
    exact ⟨mem_cons_self, hfresh, hseen⟩
  · cases hnone

end One

/-- The loop over the parents, when dates do not matter. -/
theorem scanParents_spec (r : Repository α) (minGeneration : Nat) (top : α) (parents : List α)
    (hfree : top ∉ parents) (marks : α → Marks) :
    Scan r minGeneration top parents marks (scanParents r 0 minGeneration top parents marks).1
      (scanParents r 0 minGeneration top parents marks).2 := by
  induction parents generalizing marks with
  | nil =>
    refine ⟨fun x => rfl, fun x => rfl, fun x _ => rfl, .inl, fun h => h, fun x h => h,
      fun x h => .inl h, fun p h => ?_, fun _ p h => ?_⟩
    · cases h
    · cases h
  | cons p parents ih =>
    obtain ⟨hp, hrest⟩ : p ≠ top ∧ top ∉ parents := by grind
    unfold scanParents
    -- the flags after `top` may have got its `RESULT`
    obtain ⟨marks₁, hmarks₁⟩ : ∃ m, m = if (marks p).meets reachedFlags then
        addMarks marks top { result := true } else marks := ⟨_, rfl⟩
    rw [← hmarks₁]
    have hother : ∀ x, x ≠ top → marks₁ x = marks x := by
      intro x hx
      rw [hmarks₁]
      split
      · exact addMarks_of_ne _ hx
      · rfl
    have htop : marks₁ top = if (marks p).meets reachedFlags then
        (marks top).union { result := true } else marks top := by
      rw [hmarks₁]
      split
      · exact addMarks_self _ _ _
      · rfl
    by_cases hseen : (marks₁ p).parent1 = true
    · rw [if_pos hseen]
      rw [hother p hp] at hseen
      have hone : ScanOne top p marks marks₁ := by
        refine ⟨fun x hx _ => hother x hx, htop, ?_⟩
        rw [hother p hp, Marks.union_of_contains (Marks.contains_iff.mpr (by simp [hseen]))]
      exact hone.cons hp (.inl hseen) hrest (ih hrest marks₁)
    · rw [if_neg hseen]
      have hone : ScanOne top p marks (addMarks marks₁ p { parent1 := true }) := by
        refine ⟨fun x hx hxp => (addMarks_of_ne _ hxp).trans (hother x hx),
          (addMarks_of_ne _ (Ne.symm hp)).trans htop, ?_⟩
        rw [addMarks_self, hother p hp]
      split_ifs with hcut
      · exact hone.cons hp (.inr (hcut.resolve_left (Nat.not_lt_zero _))) hrest (ih hrest _)
      · rw [hother p hp] at hseen
        exact hone.stop hp (by simpa using hseen)

/-! ## The search -/

/-- What holds around the loop of the search from `start` for a commit of `toList`. -/
structure ReachInv (r : Repository α) (minGeneration : Nat) (start : α) (toList : List α)
    (marks : α → Marks) (stack : List α) : Prop where
  parent2 : ∀ x, (marks x).parent2 = true ↔ x ∈ toList
  stale : ∀ x, (marks x).stale = false
  start_seen : (marks start).parent1 = true
  onStack : ∀ x ∈ stack, (marks x).parent1 = true
  /-- The stack is a way down. -/
  chain : stack.Pairwise fun a b => r.Ancestor b a
  sound : ∀ x, (marks x).result = true → ∃ w ∈ toList, r.Reaches x w
  result_seen : ∀ x, (marks x).result = true → (marks x).parent1 = true
  walk : ∀ x, (marks x).parent1 = true →
    Walk r.parents (fun y => (marks y).parent1 = true) start x
  finished : ∀ x, (marks x).parent1 = true → x ∉ stack →
    (marks x).meets reachedFlags = true ∨ r.generation x < minGeneration ∨
      ∀ p ∈ r.parents x, (marks p).parent1 = true ∧ p ∉ stack ∧
        (marks p).meets reachedFlags = false

section Search

variable {minGeneration : Nat} {start top : α} {toList stack : List α} {marks : α → Marks}

section

omit [DecidableEq α]

/-- What is reached reaches a commit of `toList`. -/
theorem ReachInv.reached (h : ReachInv r minGeneration start toList marks stack) {x : α}
    (hx : (marks x).meets reachedFlags = true) : ∃ w ∈ toList, r.Reaches x w := by
  rcases meets_reachedFlags.mp hx with hx | hx
  · exact ⟨x, (h.parent2 x).mp hx, .refl x⟩
  · exact h.sound x hx

/-- A parent of the commit on top is not on the stack. -/
theorem ReachInv.parent_not_mem (h : ReachInv r minGeneration start toList marks (top :: stack))
    {p : α} (hp : p ∈ r.parents top) : p ∉ top :: stack := by
  intro hmem
  rcases mem_cons.mp hmem with rfl | hmem
  · exact not_mem_parents p hp
  · have habove := rel_of_pairwise_cons h.chain hmem
    exact (habove.trans_reaches (.parent hp)).irrefl

/-- What is finished stays so, if nothing seen and off the stack changes. -/
theorem ReachInv.finished_mono {marks' : α → Marks} {stack' : List α}
    (h : ReachInv r minGeneration start toList marks stack)
    (hkeep : ∀ q, (marks q).parent1 = true → q ∉ stack → (marks' q).parent1 = true ∧ q ∉ stack' ∧
      (marks' q).meets reachedFlags = (marks q).meets reachedFlags) {x : α}
    (hx : (marks x).parent1 = true) (hxs : x ∉ stack) :
    (marks' x).meets reachedFlags = true ∨ r.generation x < minGeneration ∨
      ∀ p ∈ r.parents x, (marks' p).parent1 = true ∧ p ∉ stack' ∧
        (marks' p).meets reachedFlags = false := by
  rw [(hkeep x hx hxs).2.2]
  refine (h.finished x hx hxs).imp_right (.imp_right fun hall p hp => ?_)
  grind

/-- Dropping a reached commit when nothing is left below it. -/
theorem ReachInv.popLast (h : ReachInv r minGeneration start toList marks [top])
    (hmeet : (marks top).meets reachedFlags = true) :
    ReachInv r minGeneration start toList marks [] := by
  refine { h with onStack := nofun, chain := .nil, finished := fun x hx _ => ?_ }
  by_cases hxt : x = top
  · exact .inl (hxt ▸ hmeet)
  · exact h.finished_mono (fun q hq _ => ⟨hq, not_mem_nil, rfl⟩) hx (by simpa using hxt)

end

/-- Dropping a reached commit: the one below it is reached, too. -/
theorem ReachInv.popReached {below : α}
    (h : ReachInv r minGeneration start toList marks (top :: below :: stack))
    (hmeet : (marks top).meets reachedFlags = true) :
    ReachInv r minGeneration start toList (addMarks marks below { result := true })
      (below :: stack) := by
  have hsame : ∀ x, x ∉ top :: below :: stack →
      addMarks marks below { result := true } x = marks x := fun x hx =>
    addMarks_of_ne _ (fun heq => hx (by simp [heq]))
  have hbelow : r.Ancestor below top := rel_of_pairwise_cons h.chain mem_cons_self
  have hseen : ∀ x, (addMarks marks below { result := true } x).parent1 = (marks x).parent1 := by
    simp
  refine ⟨by simpa using h.parent2, by simpa using h.stale, by simpa using h.start_seen,
    fun x hx => ?_, h.chain.of_cons, fun x hx => ?_, fun x hx => ?_, by simpa using h.walk,
    fun x hx hxs => ?_⟩
  · rw [hseen]
    exact h.onStack x (mem_cons_of_mem _ hx)
  · by_cases hxb : x = below
    · obtain ⟨w, hw, hreach⟩ := h.reached hmeet
      exact ⟨w, hw, hxb ▸ hbelow.reaches.trans hreach⟩
    · rw [addMarks_of_ne _ hxb] at hx
      exact h.sound x hx
  · rw [hseen]
    by_cases hxb : x = below
    · exact h.onStack x (by simp [hxb])
    · rw [addMarks_of_ne _ hxb] at hx
      exact h.result_seen x hx
  rw [hseen] at hx
  by_cases hxt : x = top
  · left
    have hne : top ≠ below := by
      rintro rfl
      exact hbelow.irrefl
    rw [hxt, addMarks_of_ne _ hne]
    exact hmeet
  · refine h.finished_mono (fun q hq hoff => ?_) hx (not_mem_cons_of_ne_of_not_mem hxt hxs)
    grind

variable {marks' : α → Marks} {next : Option α}

section

omit [DecidableEq α]

/-- What a scan keeps whatever it finds. -/
theorem ReachInv.scanSound (h : ReachInv r minGeneration start toList marks (top :: stack))
    (hscan : Scan r minGeneration top (r.parents top) marks marks' next) :
    (∀ x, (marks' x).result = true → ∃ w ∈ toList, r.Reaches x w) ∧
    (∀ x, (marks' x).result = true → (marks' x).parent1 = true) ∧
    ∀ x, (marks' x).parent1 = true →
      Walk r.parents (fun y => (marks' y).parent1 = true) start x := by
  have htop := h.onStack top mem_cons_self
  refine ⟨fun x hx => ?_, fun x hx => ?_, fun x hx => ?_⟩
  · by_cases hxt : x = top
    · subst hxt
      rcases hscan.top_result hx with hx | ⟨p, hp, hmeet⟩
      · exact h.sound x hx
      · obtain ⟨w, hw, hreach⟩ := h.reached hmeet
        exact ⟨w, hw, (History.Reaches.parent hp).trans hreach⟩
    · rw [hscan.result x hxt] at hx
      exact h.sound x hx
  · by_cases hxt : x = top
    · exact hscan.mono x (hxt ▸ htop)
    · rw [hscan.result x hxt] at hx
      exact hscan.mono x (h.result_seen x hx)
  · rcases hscan.seen x hx with hx' | ⟨hp, -⟩
    · exact (h.walk x hx').mono hscan.mono
    · exact ((h.walk top htop).mono hscan.mono).snoc hp hx

/-- A scan does not touch what is off the stack, but for what it sees for the first time. -/
theorem Scan.off (hscan : Scan r minGeneration top (r.parents top) marks marks' next) {x : α}
    (hx : x ≠ top) : (marks' x).meets reachedFlags = (marks x).meets reachedFlags := by
  rw [Bool.eq_iff_iff, meets_reachedFlags, meets_reachedFlags, hscan.parent2, hscan.result x hx]

/-- Going to a parent. -/
theorem ReachInv.push (h : ReachInv r minGeneration start toList marks (top :: stack)) {p : α}
    (hscan : Scan r minGeneration top (r.parents top) marks marks' (some p)) :
    ReachInv r minGeneration start toList marks' (p :: top :: stack) := by
  obtain ⟨hsound, hseen, hwalk⟩ := h.scanSound hscan
  obtain ⟨hp, hfresh, hpseen⟩ := hscan.next_spec p rfl
  refine ⟨fun x => by rw [hscan.parent2, h.parent2], fun x => by rw [hscan.stale, h.stale],
    hscan.mono start h.start_seen, fun x hx => ?_, pairwise_cons.mpr ⟨fun x hx => ?_, h.chain⟩,
    hsound, hseen, hwalk, fun x hx hxs => ?_⟩
  · rcases mem_cons.mp hx with rfl | hx
    · exact hpseen
    · exact hscan.mono x (h.onStack x hx)
  · rcases mem_cons.mp hx with rfl | hx
    · exact .parent hp
    · exact (rel_of_pairwise_cons h.chain hx).trans_reaches (.parent hp)
  rw [mem_cons, not_or] at hxs
  rcases hscan.seen x hx with hx' | ⟨-, hnext | hlt⟩
  · refine h.finished_mono (fun q hq hoff => ?_) hx' hxs.2
    have hqp : q ≠ p := by
      rintro rfl
      rw [hfresh] at hq
      cases hq
    refine ⟨hscan.mono q hq, ?_, hscan.off fun heq => hoff (by simp [heq])⟩
    rw [mem_cons, not_or]
    exact ⟨hqp, hoff⟩
  · exact absurd (Option.some.inj hnext).symm hxs.1
  · exact .inr (.inl hlt)

/-- Leaving a commit all of whose parents were seen. -/
theorem ReachInv.popSeen (h : ReachInv r minGeneration start toList marks (top :: stack))
    (hscan : Scan r minGeneration top (r.parents top) marks marks' none) :
    ReachInv r minGeneration start toList marks' stack := by
  obtain ⟨hsound, hseen, hwalk⟩ := h.scanSound hscan
  refine ⟨fun x => by rw [hscan.parent2, h.parent2], fun x => by rw [hscan.stale, h.stale],
    hscan.mono start h.start_seen, fun x hx => hscan.mono x (h.onStack x (mem_cons_of_mem _ hx)),
    h.chain.of_cons, hsound, hseen, hwalk, fun x hx hxs => ?_⟩
  by_cases hxt : x = top
  · subst hxt
    by_cases hmeet : (marks' x).meets reachedFlags = true
    · exact .inl hmeet
    refine .inr (.inr fun p hp => ?_)
    obtain ⟨hpseen, hres⟩ := hscan.none_spec rfl p hp
    have hoff := h.parent_not_mem hp
    refine ⟨hpseen, fun hmem => hoff (mem_cons_of_mem _ hmem), ?_⟩
    rw [hscan.off (fun heq => hoff (by simp [heq])), Bool.eq_false_iff]
    exact fun hpm => hmeet (meets_reachedFlags.mpr (.inr (hres hpm)))
  · rcases hscan.seen x hx with hx' | ⟨-, hnext | hlt⟩
    · refine h.finished_mono (fun q hq hoff => ?_) hx' (by simp [hxt, hxs])
      exact ⟨hscan.mono q hq, fun hmem => hoff (mem_cons_of_mem _ hmem),
        hscan.off fun heq => hoff (by simp [heq])⟩
    · cases hnext
    · exact .inr (.inl hlt)

end

/-- What a commit may still cost the search: it may be pushed and popped. -/
def reachCost (m : Marks) : Nat := if m.parent1 then 0 else 2

/-- A scan makes nothing more expensive, and the parent to go to pays for its place. -/
theorem Scan.cost [Fintype α] (hscan : Scan r minGeneration top (r.parents top) marks marks' next) :
    (∑ x, reachCost (marks' x)) + (if next.isSome then 2 else 0) ≤ ∑ x, reachCost (marks x) := by
  have hle : ∀ x, reachCost (marks' x) ≤ reachCost (marks x) := by
    intro x
    unfold reachCost
    have := hscan.mono x
    grind
  cases hn : next with
  | none => simpa using Finset.sum_le_sum fun x _ => hle x
  | some p =>
    obtain ⟨-, hfresh, hseen⟩ := hscan.next_spec p hn
    apply sum_add_le_sum (c := p)
    · simp [reachCost, hfresh, hseen]
    · exact fun x _ => hle x

/-- **The search ends with an empty stack.** -/
theorem reachLoop_spec [Fintype α] (fuel : Nat) (marks : α → Marks) (stack : List α)
    (h : ReachInv r minGeneration start toList marks stack)
    (hfuel : (∑ x, reachCost (marks x)) + stack.length < fuel) :
    ∃ marks', reachLoop r 0 minGeneration fuel marks stack = .ok marks' ∧
      ReachInv r minGeneration start toList marks' [] := by
  induction fuel generalizing marks stack with
  | zero => omega
  | succ fuel ih =>
    cases stack with
    | nil => exact ⟨marks, rfl, h⟩
    | cons top stack =>
      rw [length_cons] at hfuel
      unfold reachLoop
      split_ifs with hmeet
      · cases stack with
        | nil => exact ih marks [] (h.popLast hmeet) (by simpa using hfuel)
        | cons below stack =>
          refine ih _ _ (h.popReached hmeet) ?_
          have hcost : ∀ x, reachCost (addMarks marks below { result := true } x) =
              reachCost (marks x) := by
            simp [reachCost]
          simp only [hcost]
          omega
      · have hscan := scanParents_spec r minGeneration top (r.parents top) (not_mem_parents top)
          marks
        have hcost := hscan.cost
        rcases hout : scanParents r 0 minGeneration top (r.parents top) marks with ⟨marks₁, next⟩
        rw [hout] at hscan hcost
        cases next with
        | none =>
          refine ih _ _ (h.popSeen hscan) ?_
          grind
        | some p =>
          refine ih _ _ (h.push hscan) ?_
          grind

omit [DecidableEq α] in
/-- **After the search the start is reached if and only if it reaches one of the commits.** -/
theorem ReachInv.answer (h : ReachInv r minGeneration start toList marks [])
    (hgen : ∀ w ∈ toList, minGeneration ≤ r.generation w) :
    (marks start).meets reachedFlags = true ↔ ∃ w ∈ toList, r.Reaches start w := by
  refine ⟨h.reached, ?_⟩
  rintro ⟨w, hw, hreach⟩
  by_contra hnot
  -- a way to `w` stays within what was seen and not reached, but `w` itself is reached
  have hend := (exists_walk_of_reflTransGen hreach).carry
    (R := fun x => (marks x).parent1 = true ∧ (marks x).meets reachedFlags = false)
    ⟨h.start_seen, Bool.eq_false_iff.mpr hnot⟩ (by
      rintro x p hxw - hp ⟨hx, hxm⟩
      rcases h.finished x hx not_mem_nil with hm | hlt | hall
      · rw [hxm] at hm
        cases hm
      · have h₁ := generation_le_of_reaches hxw
        have h₂ := hgen w hw
        omega
      · exact ⟨(hall p hp).1, (hall p hp).2.2⟩)
  rw [Bool.eq_false_iff] at hend
  exact hend.2 (meets_reachedFlags.mpr (.inl ((h.parent2 w).mpr hw)))

end Search

/-! ## Around the search -/

section Around

variable {toList : List α}

omit [DecidableEq α] in
/-- Dates do not cut off a search that was not asked to. -/
theorem foldl_date_zero (list : List α) :
    list.foldl (fun m c => if r.date c < m then r.date c else m) 0 = 0 := by
  induction list with
  | nil => rfl
  | cons c list ih => simpa using ih

omit [DecidableEq α] in
/-- The minimal generation is not above the one of any commit. -/
theorem minGenerationOf_le_mem {work : List α} {x : α} (hx : x ∈ work) (generation : Nat) :
    minGenerationOf r generation work ≤ r.generation x :=
  (foldl_greatest (κ := ℕᵒᵈ) r.generation work generation).2.1 x hx

/-- The flags when the search starts. -/
def wantedMarks (toList : List α) : α → Marks := fun x => { parent2 := decide (x ∈ toList) }

theorem foldl_addMarks_parent2 (toList : List α) :
    toList.foldl (fun marks c => addMarks marks c { parent2 := true }) unmarked =
      wantedMarks toList := by
  funext x
  refine (foldl_update (f := (·.union { parent2 := true })) (fun _ => Marks.union_union _ _)
    toList unmarked x).trans ?_
  by_cases hx : x ∈ toList <;> simp [hx, unmarked, wantedMarks, Marks.union]

/-- The invariant when the search starts. -/
theorem reachStart_inv (minGeneration : Nat) (start : α) (toList : List α) :
    ReachInv r minGeneration start toList
      (addMarks (wantedMarks toList) start { parent1 := true }) [start] := by
  have hmarks : ∀ x, addMarks (wantedMarks toList) start { parent1 := true } x =
      { parent1 := decide (x = start), parent2 := decide (x ∈ toList) } := by
    intro x
    by_cases hx : x = start
    · rw [hx, addMarks_self]
      simp [wantedMarks, Marks.union]
    · rw [addMarks_of_ne _ hx]
      simp [wantedMarks, hx]
  refine ⟨?_, ?_, ?_, ?_, pairwise_singleton _ _, ?_, ?_, ?_, ?_⟩ <;> simp only [hmarks]
  · simp
  · simp
  · simp
  · simp
  · simp
  · simp
  · intro x hx
    rw [of_decide_eq_true hx]
    exact .refl (by simp)
  simp

variable {fuel : Nat}

/-- After the search its flags are cleared, those of the commits to reach apart. -/
theorem ReachInv.clear [Fintype α] {minGeneration : Nat} {start : α} {marks : α → Marks}
    (h : ReachInv r minGeneration start toList marks []) (hfuel : clearFuel r.parents ≤ fuel) :
    clearCommitMarksMany r.parents { parent1 := true, result := true } fuel marks [start] =
      .ok (wantedMarks toList) := by
  obtain ⟨marks', hmany, hclear⟩ :=
    clearCommitMarksMany_spec { parent1 := true, result := true } hfuel marks [start]
  rw [hmany]
  congr 1
  have hmeets : ∀ m : Marks, m.meets { parent1 := true, result := true } = true ↔
      m.parent1 = true ∨ m.result = true := by
    rintro ⟨m1, m2, m3, m4⟩
    revert m1 m2 m3 m4
    decide
  have hdiff : ∀ m : Marks, m.stale = false →
      m.diff { parent1 := true, result := true } = { parent2 := m.parent2 } := by
    rintro ⟨m1, m2, m3, m4⟩
    revert m1 m2 m3 m4
    decide
  funext x
  have hwanted : ({ parent2 := (marks x).parent2 } : Marks) = wantedMarks toList x := by
    congr 1
    rw [Bool.eq_iff_iff, h.parent2, decide_eq_true_iff]
  rw [← hwanted, ← hdiff _ (h.stale x)]
  by_cases hx : (marks x).meets { parent1 := true, result := true } = true
  · have hseen : (marks x).parent1 = true := by
      rcases (hmeets _).mp hx with hx | hx
      · exact hx
      · exact h.result_seen x hx
    exact hclear.reached mem_cons_self ((h.walk x hseen).mono fun y hy => (hmeets _).mpr (.inl hy))
  · rw [Marks.diff_of_not_meets (Bool.eq_false_iff.mpr hx)]
    rcases hclear.frame x with hx' | hx'
    · exact hx'
    · rw [hx', Marks.diff_of_not_meets (Bool.eq_false_iff.mpr hx)]

/-- The last flags are cleared. -/
theorem clear_wantedMarks [Fintype α] (start : α) (toList : List α)
    (hfuel : clearFuel r.parents ≤ fuel) :
    clearCommitMarksMany r.parents { parent1 := true } fuel (wantedMarks toList) [start] =
        .ok (wantedMarks toList) ∧
      clearCommitMarksMany r.parents { parent2 := true } fuel (wantedMarks toList) toList =
        .ok unmarked := by
  constructor
  · obtain ⟨marks', hmany, hclear⟩ :=
      clearCommitMarksMany_spec { parent1 := true } hfuel (wantedMarks toList) [start]
    rw [hmany]
    congr 1
    funext x
    rcases hclear.frame x with hx | hx
    · exact hx
    · rw [hx]
      simp [wantedMarks, Marks.diff]
  · obtain ⟨marks', hmany, hclear⟩ :=
      clearCommitMarksMany_spec { parent2 := true } hfuel (wantedMarks toList) toList
    rw [hmany]
    congr 1
    funext x
    by_cases hx : x ∈ toList
    · have hoff := hclear.start x hx
      rcases hclear.frame x with hx' | hx'
      · rw [hx'] at hoff
        simp [wantedMarks, hx, Marks.meets, Marks.inter] at hoff
      · rw [hx']
        simp [wantedMarks, Marks.diff, unmarked]
    · rcases hclear.frame x with hx' | hx' <;> rw [hx']
      · simp [wantedMarks, hx, unmarked]
      · simp [wantedMarks, Marks.diff, unmarked]

/-- **`can_all_from_reach` answers whether a commit reaches one of several others.** -/
theorem canAllFromReach_spec [Fintype α] (r : Repository α) (qsort : r.GenSort)
    (hfuel : 2 * Fintype.card α + 2 ≤ fuel) (hclearFuel : clearFuel r.parents ≤ fuel) (start : α)
    (toList : List α) :
    ∃ answer, canAllFromReach r qsort fuel unmarked [start] toList false =
        .ok (unmarked, answer) ∧
      (answer = true ↔ ∃ w ∈ toList, r.Reaches start w) := by
  obtain ⟨minGeneration, hmin⟩ : ∃ m, m =
    minGenerationOf r generationNumberInfinity ([start] ++ toList) := ⟨_, rfl⟩
  have hgen : ∀ x ∈ [start] ++ toList, minGeneration ≤ r.generation x := fun x hx =>
    hmin ▸ minGenerationOf_le_mem hx _
  have hcost : ∑ x, reachCost (addMarks (wantedMarks toList) start { parent1 := true } x) ≤
      Fintype.card α * 2 := by
    refine Finset.sum_le_card_nsmul _ _ _ fun x _ => ?_
    unfold reachCost
    split <;> omega
  obtain ⟨marks, hloop, hinv⟩ := reachLoop_spec fuel _ [start]
    (reachStart_inv (r := r) minGeneration start toList) (by
      simp only [length_singleton]
      omega)
  have hanswer := hinv.answer fun w hw => hgen w (by simp [hw])
  have hcollect : collectFrom r minGeneration (wantedMarks toList) [start] = ([start], true) := by
    have hstart := hgen start (by simp)
    simp [collectFrom, wantedMarks, Nat.not_lt.mpr hstart]
  have hsort : qsort.sort [start] = [start] := perm_singleton.mp (qsort.perm [start])
  have hsearch : reachAll r fuel 0 minGeneration (wantedMarks toList) [start] =
      .ok (marks, (marks start).meets reachedFlags) := by
    simp only [reachAll, hloop]
    grind
  refine ⟨(marks start).meets reachedFlags, ?_, hanswer⟩
  obtain ⟨hclear₁, hclear₂⟩ := clear_wantedMarks (r := r) start toList hclearFuel
  have hdrop : dropMarks (wantedMarks toList) start { parent1 := true } = wantedMarks toList := by
    funext x
    by_cases hx : x = start
    · rw [hx, dropMarks_self]
      simp [wantedMarks, Marks.diff]
    · rw [dropMarks_of_ne _ hx]
  have hflag : canAllFromReachWithFlag r qsort fuel (wantedMarks toList) [start] 0 minGeneration =
      .ok (wantedMarks toList, (marks start).meets reachedFlags) := by
    simp only [canAllFromReachWithFlag, hcollect, if_true, hsort, hsearch, hinv.clear hclearFuel,
      foldl_cons, foldl_nil, hdrop]
  simp only [canAllFromReach, Bool.false_eq_true, if_false, foldl_date_zero,
    foldl_addMarks_parent2, ← hmin, hflag, hclear₁, hclear₂]

/-- **`repo_is_descendant_of` answers whether the commit reaches one of the others**, whichever way
it takes. -/
theorem repoIsDescendantOf_spec [Fintype α] (r : Repository α) (qsort : r.GenSort)
    (hfuel : walkFuel r 1 ≤ fuel) (commit : α) (withCommit : List α) :
    ∃ answer, repoIsDescendantOf r qsort fuel unmarked commit withCommit = .ok (unmarked, answer) ∧
      (answer = true ↔ withCommit = [] ∨ ∃ w ∈ withCommit, r.Reaches commit w) := by
  obtain ⟨hsearchFuel, hclearFuel, -⟩ := walkFuel_bounds hfuel
  unfold repoIsDescendantOf
  by_cases hempty : withCommit = []
  · exact ⟨true, if_pos hempty, by simp [hempty]⟩
  rw [if_neg hempty]
  simp only [hempty, false_or]
  split
  · exact canAllFromReach_spec r qsort hsearchFuel hclearFuel commit withCommit
  · exact descendantLoop_spec hfuel commit withCommit

end Around

end GitCore.Commit
