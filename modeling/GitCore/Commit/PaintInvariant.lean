import GitCore.Commit.Paint

/-! # What the paint means

`PaintInv` is what holds around the loop of `paint_down_to_common`. Its core is `settled`: a commit
outside of the queue has handed its paint on to its parents. `PaintSpec` is what is left of it when
the loop ends, where commits may have been left in the queue because they are stale or below the
minimal generation. -/

namespace GitCore.Commit

open List Repository

variable {α : Type} [DecidableEq α] (r : Repository α) (one : α) (twos : List α)

/-- `x` is an ancestor of `one` and of one of `twos`, or one of them itself. -/
def Common (x : α) : Prop := r.Reaches one x ∧ ∃ two ∈ twos, r.Reaches two x

/-- The paint is where it may be, and the commits it started from have it. -/
structure PaintSound (marks : α → Marks) : Prop where
  parent1 : ∀ x, (marks x).parent1 = true → r.Reaches one x
  parent2 : ∀ x, (marks x).parent2 = true → ∃ two ∈ twos, r.Reaches two x
  stale : ∀ x, (marks x).stale = true → ∃ b, Common r one twos b ∧ r.Ancestor b x
  both : ∀ x, (marks x).stale = true → (marks x).parent1 = true ∧ (marks x).parent2 = true
  start1 : (marks one).parent1 = true
  start2 : ∀ two ∈ twos, (marks two).parent2 = true
  /-- Clearing from the commits it started from finds all of it. -/
  walk : ∀ x, marks x ≠ {} → ∃ s ∈ one :: twos, Walk r.parents (fun y => marks y ≠ {}) s x

/-- The result holds merges, each one once, and says so in the flags. -/
structure ResultOk (marks : α → Marks) (result : List α) : Prop where
  mem_iff : ∀ x, x ∈ result ↔ (marks x).result = true
  merge : ∀ x, (marks x).result = true → (marks x).parent1 = true ∧ (marks x).parent2 = true
  nodup : result.Nodup

variable {cmp : α → α → Ordering}

/-- What holds around the loop. -/
structure PaintInv (minGeneration : Nat) (s : PaintState cmp) : Prop where
  sound : PaintSound r one twos s.marks
  resultOk : ResultOk s.marks s.result
  /-- Outside of the queue the paint was handed on. -/
  settled : ∀ c, c ∉ s.queue.items → ∀ p ∈ r.parents c,
    (s.marks p).contains (spread (s.marks c)) = true
  /-- Outside of the queue merges were found. -/
  listed : ∀ c, c ∉ s.queue.items → (s.marks c).parent1 = true → (s.marks c).parent2 = true →
    (s.marks c).stale = false → c ∈ s.result
  /-- The generations come down. -/
  lastGen : minGeneration ≠ 0 → ∀ c ∈ s.queue.items, r.generation c ≤ s.lastGen

/-- What holds of the flags and the result in the end. -/
structure PaintSpec (minGeneration : Nat) (marks : α → Marks) (result : List α) : Prop where
  sound : PaintSound r one twos marks
  resultOk : ResultOk marks result
  settled : ∀ c, (marks c).stale = false → minGeneration ≤ r.generation c →
    ∀ p ∈ r.parents c, (marks p).contains (spread (marks c)) = true
  listed : ∀ c, (marks c).parent1 = true → (marks c).parent2 = true → (marks c).stale = false →
    minGeneration ≤ r.generation c → c ∈ result

/-- The flags after a round: the commit at hand has the paint it had, its parents may have got what
it hands on, and are in the queue then. -/
structure Round (marks : α → Marks) (c : α) (marks' : α → Marks) (queue' : List α) : Prop where
  frame : ∀ x, x ≠ c → marks' x = marks x ∨
    x ∈ r.parents c ∧ marks' x = (marks x).union (spread (marks c)) ∧ x ∈ queue'
  self : marks' c = (marks c).union { result := newMerge (marks c) }
  painted : ∀ p ∈ r.parents c, (marks' p).contains (spread (marks c)) = true

variable {r one twos} [Std.TransCmp cmp] {minGeneration : Nat}

/-! ## One round -/

omit [DecidableEq α] in
/-- No commit is its own parent. -/
theorem not_mem_parents (c : α) : c ∉ r.parents c := fun h =>
  (History.Ancestor.parent h).irrefl

/-- One round of the loop. -/
theorem paintCommit_round (s : PaintState cmp) (c : α) (queue : PrioQueue cmp) :
    Round r s.marks c (paintCommit r s c queue).marks
      (paintCommit r s c queue).queue.items := by
  have h := paintParents_spec (spread (s.marks c)) (r.parents c)
    (noteMerge s.marks s.result c).1 queue
  have hnote : ∀ x, x ≠ c → (noteMerge s.marks s.result c).1 x = s.marks x := by
    intro x hx
    unfold noteMerge
    split
    · exact addMarks_of_ne _ hx
    · rfl
  refine ⟨fun x hx => ?_, ?_, h.painted⟩
  · have hframe := h.frame x
    rw [hnote x hx] at hframe
    exact hframe
  rcases h.frame c with hc | ⟨hc, -⟩
  · refine hc.trans ?_
    unfold noteMerge
    split
    · rename_i hnew
      rw [hnew]
      exact addMarks_self _ _ _
    · rename_i hold
      simp [hold, Marks.union]
  · exact absurd hc (not_mem_parents c)

theorem Marks.contains_union_left (a b : Marks) : (a.union b).contains a = true := by
  rw [Marks.contains_iff]
  simp +contextual

section Round

variable {marks marks' : α → Marks} {c : α} {queue' : List α}

/-- A round takes no paint off. -/
theorem Round.mono (h : Round r marks c marks' queue') (x : α) :
    (marks' x).contains (marks x) = true := by
  by_cases hx : x = c
  · subst hx
    rw [h.self]
    exact Marks.contains_union_left _ _
  · rcases h.frame x hx with hx | ⟨-, hx, -⟩ <;> rw [hx]
    · exact Marks.contains_iff.mpr (by simp)
    · exact Marks.contains_union_left _ _

/-- Where the paint after a round is from. -/
theorem Round.origin (h : Round r marks c marks' queue') (x : α) :
    ((marks' x).parent1 = true → (marks x).parent1 = true ∨
        x ∈ r.parents c ∧ (marks c).parent1 = true) ∧
      ((marks' x).parent2 = true → (marks x).parent2 = true ∨
        x ∈ r.parents c ∧ (marks c).parent2 = true) ∧
      ((marks' x).stale = true → (marks x).stale = true ∨
        x ∈ r.parents c ∧ ((marks c).stale = true ∨
          (marks c).parent1 = true ∧ (marks c).parent2 = true)) := by
  by_cases hx : x = c
  · subst hx
    simp +contextual [h.self]
  · rcases h.frame x hx with hx | ⟨hp, hx, -⟩
    · simp +contextual [hx]
    · simp [hx, hp, spread_eq]

/-- Flags are nowhere but on marked commits and their parents. -/
theorem Round.marked (h : Round r marks c marks' queue') {x : α} (hx : marks' x ≠ {}) :
    marks x ≠ {} ∨ x ∈ r.parents c ∧ marks c ≠ {} := by
  by_cases hxc : x = c
  · subst hxc
    left
    intro hempty
    rw [h.self, hempty] at hx
    exact hx (by decide)
  rcases h.frame x hxc with hsame | ⟨hp, hunion, -⟩
  · exact .inl (hsame ▸ hx)
  by_cases hc : marks c = {}
  · rw [hunion, hc] at hx
    left
    intro hempty
    apply hx
    rw [hempty]
    decide
  · exact .inr ⟨hp, hc⟩

theorem Marks.ne_empty_of_contains {a b : Marks} (h : a.contains b = true) (hb : b ≠ {}) :
    a ≠ {} := by
  rintro rfl
  rw [Marks.contains_iff] at h
  rcases b with ⟨b1, b2, b3, b4⟩
  simp_all

/-- **A round keeps the meaning of the paint.** -/
theorem PaintSound.round (hs : PaintSound r one twos marks) (h : Round r marks c marks' queue') :
    PaintSound r one twos marks' := by
  have hmono := fun x => Marks.contains_iff.mp (h.mono x)
  refine ⟨fun x hx => ?_, fun x hx => ?_, fun x hx => ?_, fun x hx => ?_, (hmono one).1 hs.start1,
    fun two htwo => (hmono two).2.1 (hs.start2 two htwo), fun x hx => ?_⟩
  · rcases (h.origin x).1 hx with hx | ⟨hp, hc⟩
    · exact hs.parent1 x hx
    · exact (hs.parent1 c hc).trans (.parent hp)
  · rcases (h.origin x).2.1 hx with hx | ⟨hp, hc⟩
    · exact hs.parent2 x hx
    · obtain ⟨two, htwo, hreach⟩ := hs.parent2 c hc
      exact ⟨two, htwo, hreach.trans (.parent hp)⟩
  · rcases (h.origin x).2.2 hx with hx | ⟨hp, hc | ⟨hc1, hc2⟩⟩
    · exact hs.stale x hx
    · obtain ⟨b, hb, hanc⟩ := hs.stale c hc
      exact ⟨b, hb, hanc.trans_reaches (.parent hp)⟩
    · exact ⟨c, ⟨hs.parent1 c hc1, hs.parent2 c hc2⟩, .parent hp⟩
  · rcases (h.origin x).2.2 hx with hx | ⟨hp, hc⟩
    · exact ⟨(hmono x).1 (hs.both x hx).1, (hmono x).2.1 (hs.both x hx).2⟩
    have hboth : (marks c).parent1 = true ∧ (marks c).parent2 = true := by
      rcases hc with hc | hc
      · exact hs.both c hc
      · exact hc
    have hpainted := contains_spread.mp (h.painted x hp)
    exact ⟨hpainted.1 hboth.1, hpainted.2.1 hboth.2⟩
  · have hgrow : ∀ y, marks y ≠ {} → marks' y ≠ {} := fun y =>
      Marks.ne_empty_of_contains (h.mono y)
    rcases h.marked hx with hx' | ⟨hp, hc⟩
    · obtain ⟨s, hmem, hwalk⟩ := hs.walk x hx'
      exact ⟨s, hmem, hwalk.mono hgrow⟩
    · obtain ⟨s, hmem, hwalk⟩ := hs.walk c hc
      exact ⟨s, hmem, (hwalk.mono hgrow).snoc hp hx⟩

/-- A round changes the `RESULT` flag of a new merge only. -/
theorem Round.result (h : Round r marks c marks' queue') (x : α) :
    (marks' x).result = true ↔ (marks x).result = true ∨ x = c ∧ newMerge (marks c) = true := by
  by_cases hx : x = c
  · subst hx
    simp [h.self]
  · rcases h.frame x hx with hsame | ⟨-, hunion, -⟩
    · simp [hsame, hx]
    · simp [hunion, hx, spread_eq]

end Round

section Invariant

variable {s : PaintState cmp}

theorem paintCommit_result (s : PaintState cmp) (c : α) (queue : PrioQueue cmp) :
    (paintCommit r s c queue).result =
      if newMerge (s.marks c) then s.result ++ [c] else s.result := by
  simp only [paintCommit, noteMerge]
  split <;> rfl

/-- A round keeps the result and the flags together. -/
theorem ResultOk.round (h : ResultOk s.marks s.result) (c : α) (queue : PrioQueue cmp) :
    ResultOk (paintCommit r s c queue).marks (paintCommit r s c queue).result := by
  have hround := paintCommit_round (r := r) s c queue
  have hmono := fun x => Marks.contains_iff.mp (hround.mono x)
  refine ⟨fun x => ?_, fun x hx => ?_, ?_⟩
  · rw [hround.result, ← h.mem_iff, paintCommit_result]
    grind
  · rcases (hround.result x).mp hx with hx | ⟨rfl, hnew⟩
    · exact ⟨(hmono x).1 (h.merge x hx).1, (hmono x).2.1 (h.merge x hx).2⟩
    · rw [newMerge_iff] at hnew
      exact ⟨(hmono x).1 hnew.1, (hmono x).2.1 hnew.2.1⟩
  · rw [paintCommit_result]
    split
    · rename_i hnew
      refine h.nodup.append (nodup_singleton c) ?_
      rw [disjoint_singleton]
      intro hmem
      rw [h.mem_iff, (newMerge_iff.mp hnew).2.2.2] at hmem
      cases hmem
    · exact h.nodup

end Invariant

/-! ## The whole loop -/

section Loop

variable {s : PaintState (paintCompare r minGeneration)} {c : α}
  {queue : PrioQueue (paintCompare r minGeneration)}

omit [DecidableEq α] in
/-- What is taken from the queue has the largest generation, if there is a minimal one. -/
theorem generation_le_of_get {queue' : PrioQueue (paintCompare r minGeneration)}
    (hget : queue.get = some (c, queue')) (hmin : minGeneration ≠ 0) {x : α}
    (hx : x ∈ queue.items) : r.generation x ≤ r.generation c := by
  have hle := (PrioQueue.get_eq_some hget).2 x hx
  unfold paintCompare at hle
  rw [if_neg (fun h => hmin h.1)] at hle
  exact generation_le_of_isLE hle

/-- **A round keeps the invariant.** -/
theorem PaintInv.round (h : PaintInv r one twos minGeneration s)
    (hget : s.queue.get = some (c, queue)) :
    PaintInv r one twos minGeneration (paintCommit r s c queue) := by
  have hround := paintCommit_round (r := r) s c queue
  have hparents := paintParents_spec (spread (s.marks c)) (r.parents c)
    (noteMerge s.marks s.result c).1 queue
  have hmem : ∀ x, x ∈ s.queue.items ↔ x = c ∨ x ∈ queue.items := fun x => by
    rw [(PrioQueue.get_eq_some hget).1.mem_iff, mem_cons]
  -- a commit that is not in the queue after the round, and not the one at hand, kept its flags
  have hkeep : ∀ x, x ∉ (paintCommit r s c queue).queue.items → x ≠ c →
      x ∉ s.queue.items ∧ (paintCommit r s c queue).marks x = s.marks x := by
    intro x hx hxc
    refine ⟨fun hold => ?_, ?_⟩
    · rcases (hmem x).mp hold with hold | hold
      · exact hxc hold
      · exact hx (hparents.queue_mono x hold)
    · rcases hround.frame x hxc with hsame | ⟨-, -, hin⟩
      · exact hsame
      · exact absurd hin hx
  refine ⟨h.sound.round hround, h.resultOk.round c queue, fun x hx p hp => ?_,
    fun x hx h1 h2 hstale => ?_, fun hmin x hx => ?_⟩
  · by_cases hxc : x = c
    · subst hxc
      have hself : spread ((paintCommit r s x queue).marks x) = spread (s.marks x) := by
        simp [spread_eq, hround.self]
      rw [hself]
      exact hround.painted p hp
    · obtain ⟨hold, hsame⟩ := hkeep x hx hxc
      have hsettled := contains_spread.mp (h.settled x hold p hp)
      have hmono := Marks.contains_iff.mp (hround.mono p)
      rw [hsame, contains_spread]
      grind
  · rw [(h.resultOk.round c queue).mem_iff, hround.result]
    by_cases hxc : x = c
    · subst hxc
      rw [hround.self] at h1 h2 hstale
      simp only [Marks.union_parent1, Marks.union_parent2, Marks.union_stale, Bool.or_false]
        at h1 h2 hstale
      by_cases hres : (s.marks x).result = true
      · exact .inl hres
      · exact .inr ⟨rfl, newMerge_iff.mpr ⟨h1, h2, hstale, by simpa using hres⟩⟩
    · obtain ⟨hold, hsame⟩ := hkeep x hx hxc
      rw [hsame] at h1 h2 hstale
      exact .inl ((h.resultOk.mem_iff x).mp (h.listed x hold h1 h2 hstale))
  · rcases hparents.queue_new x hx with hx | hx
    · exact generation_le_of_get hget hmin ((hmem x).mpr (.inr hx))
    · exact r.generation_parent c x hx

omit [DecidableEq α] in
/-- What the invariant says when the commits left in the queue need no handling. -/
theorem PaintInv.spec (h : PaintInv r one twos minGeneration s)
    (hqueue : ∀ c ∈ s.queue.items, (s.marks c).stale = false → r.generation c < minGeneration) :
    PaintSpec r one twos minGeneration s.marks s.result where
  sound := h.sound
  resultOk := h.resultOk
  settled := fun c hstale hgen => h.settled c fun hc => by
    have := hqueue c hc hstale
    omega
  listed := fun c h1 h2 hstale hgen => h.listed c (fun hc => by
    have := hqueue c hc hstale
    omega) h1 h2 hstale

variable [Fintype α]

/-- **The loop ends without the `BUG`, and the paint is as specified.** A round takes a commit from
the queue, and puts one there only for a colour that it lacked. -/
theorem paintLoop_spec (fuel : Nat) (s : PaintState (paintCompare r minGeneration))
    (h : PaintInv r one twos minGeneration s)
    (hfuel : (∑ x, lacking (s.marks x)) + s.queue.items.length < fuel) :
    ∃ s', paintLoop r minGeneration fuel s = .ok s' ∧
      PaintSpec r one twos minGeneration s'.marks s'.result := by
  induction fuel generalizing s with
  | zero => omega
  | succ fuel ih =>
    unfold paintLoop
    split_ifs with hnonstale
    · cases hget : s.queue.get with
      | none =>
        obtain ⟨c, hc, -⟩ := queueHasNonstale_iff.mp hnonstale
        rw [PrioQueue.get_eq_none hget] at hc
        cases hc
      | some out =>
        obtain ⟨c, queue⟩ := out
        have hperm := (PrioQueue.get_eq_some hget).1
        have hc : c ∈ s.queue.items := hperm.mem_iff.mpr mem_cons_self
        have hbug : ¬ (minGeneration ≠ 0 ∧ s.lastGen < r.generation c) := by
          rintro ⟨hmin, hlt⟩
          have := h.lastGen hmin c hc
          omega
        dsimp only
        rw [if_neg hbug]
        by_cases hcut : r.generation c < minGeneration
        · -- all that is left in the queue is below the minimal generation, too
          rw [if_pos hcut]
          refine ⟨_, rfl, h.spec fun x hx _ => ?_⟩
          have := generation_le_of_get hget (by omega) hx
          omega
        rw [if_neg hcut]
        refine ih _ (h.round hget) ?_
        have hmeasure := paintParents_measure (spread (s.marks c)) (by simp [spread_eq])
          (r.parents c) (noteMerge s.marks s.result c).1 queue
        simp only [lacking_noteMerge] at hmeasure
        have hlen := hperm.length_eq
        rw [length_cons] at hlen
        change (∑ x, lacking ((paintParents _ _ _ _).1 x)) +
          (paintParents _ _ _ _).2.items.length < fuel
        omega
    · refine ⟨s, rfl, h.spec fun c hc hstale => ?_⟩
      exact absurd (queueHasNonstale_iff.mpr ⟨c, hc, hstale⟩) hnonstale

end Loop

/-! ## From the start -/

/-- The flags after the loop over `twos`. -/
theorem paintTwos_marks (twos : List α) (marks : α → Marks) (queue : PrioQueue cmp) (x : α) :
    (paintTwos twos marks queue).1 x =
      if x ∈ twos then (marks x).union { parent2 := true } else marks x := by
  induction twos generalizing marks queue with
  | nil => rfl
  | cons two twos ih =>
    change (paintTwos twos (addMarks marks two { parent2 := true }) (queue.put two)).1 x = _
    rw [ih]
    by_cases hx : x = two
    · subst hx
      simp [Marks.union_union]
    · simp [hx]

/-- The queue after the loop over `twos`. -/
theorem paintTwos_queue (twos : List α) (marks : α → Marks) (queue : PrioQueue cmp) :
    (paintTwos twos marks queue).2.items.Perm (twos.reverse ++ queue.items) := by
  induction twos generalizing marks queue with
  | nil => exact List.Perm.refl _
  | cons two twos ih =>
    refine (ih (addMarks marks two { parent2 := true }) (queue.put two)).trans ?_
    rw [reverse_cons, append_assoc]
    exact (queue.put_items two).append_left _

/-- The flags of a repository in which nothing is being walked. -/
def unmarked : α → Marks := fun _ => {}

/-- The flags before the loop. -/
theorem paintStart_marks (one : α) (twos : List α) (queue : PrioQueue cmp) (x : α) :
    (paintTwos twos (addMarks unmarked one { parent1 := true }) queue).1 x =
      { parent1 := decide (x = one), parent2 := decide (x ∈ twos) } := by
  rw [paintTwos_marks]
  by_cases hx : x = one
  · subst hx
    by_cases hx' : x ∈ twos <;> simp [hx', unmarked, Marks.union]
  · by_cases hx' : x ∈ twos <;> simp [hx, hx', unmarked, Marks.union]

/-- The invariant holds before the loop. -/
theorem paintStart_inv (r : Repository α) (one : α) (twos : List α) (minGeneration : Nat) :
    PaintInv r one twos minGeneration
      { marks := (paintTwos twos (addMarks unmarked one { parent1 := true })
          ((PrioQueue.empty (paintCompare r minGeneration)).put one)).1
        queue := (paintTwos twos (addMarks unmarked one { parent1 := true })
          ((PrioQueue.empty (paintCompare r minGeneration)).put one)).2
        result := []
        lastGen := generationNumberInfinity } := by
  have hmarks := fun x => paintStart_marks one twos
    ((PrioQueue.empty (paintCompare r minGeneration)).put one) x
  have hmem : ∀ x, x ∈ (paintTwos twos (addMarks unmarked one { parent1 := true })
      ((PrioQueue.empty (paintCompare r minGeneration)).put one)).2.items ↔
      x = one ∨ x ∈ twos := by
    intro x
    rw [(paintTwos_queue _ _ _).mem_iff, mem_append, mem_reverse, PrioQueue.mem_put]
    simp [or_comm]
  -- outside of the queue there is no paint at all
  have hclean : ∀ x, ¬ (x = one ∨ x ∈ twos) →
      ({ parent1 := decide (x = one), parent2 := decide (x ∈ twos) } : Marks) = {} := by
    intro x hx
    rw [not_or] at hx
    simp [hx.1, hx.2]
  refine ⟨⟨?_, ?_, ?_, ?_, ?_, ?_, ?_⟩, ⟨?_, ?_, nodup_nil⟩, ?_, ?_, ?_⟩ <;>
    simp only [hmarks, hmem]
  · intro x hx
    rw [of_decide_eq_true hx]
    exact .refl one
  · intro x hx
    exact ⟨x, of_decide_eq_true hx, .refl x⟩
  · simp
  · simp
  · simp
  · simp
  · intro x hx
    refine ⟨x, ?_, .refl hx⟩
    grind
  · simp
  · simp
  · intro c hc p _
    rw [hclean c hc]
    simp [contains_spread]
  · intro c hc h1
    rw [not_or] at hc
    simp [hc.1] at h1
  · exact fun _ c _ => r.generation_le c

/-- The rounds that `paint_down_to_common` takes at most. -/
def paintFuel (α : Type) [Fintype α] (twos : List α) : Nat := 3 * Fintype.card α + twos.length + 2

omit [DecidableEq α] in
theorem PaintSpec.sort {marks : α → Marks} {result : List α}
    (h : PaintSpec r one twos minGeneration marks result) :
    PaintSpec r one twos minGeneration marks (r.commitListSortByDate result) where
  sound := h.sound
  resultOk := {
    mem_iff := fun x => mem_commitListSortByDate.trans (h.resultOk.mem_iff x)
    merge := h.resultOk.merge
    nodup := (mergeSort_perm result _).nodup_iff.mpr h.resultOk.nodup }
  settled := h.settled
  listed := fun c h1 h2 hstale hgen =>
    mem_commitListSortByDate.mpr (h.listed c h1 h2 hstale hgen)

/-- **`paint_down_to_common` paints as specified** when it starts from unmarked commits. -/
theorem paintDownToCommon_spec [Fintype α] (r : Repository α) {fuel : Nat} (one : α)
    (minGeneration : Nat) (htwos : twos ≠ []) (hfuel : paintFuel α twos ≤ fuel) :
    ∃ marks result, paintDownToCommon r fuel one twos minGeneration unmarked = .ok (marks, result) ∧
      PaintSpec r one twos minGeneration marks result := by
  cases twos with
  | nil => exact absurd rfl htwos
  | cons two twos =>
    have hlacking : ∀ m : Marks, lacking m ≤ 3 := by
      intro m
      unfold lacking
      split <;> split <;> split <;> omega
    obtain ⟨s, hloop, hspec⟩ := paintLoop_spec fuel _
      (paintStart_inv r one (two :: twos) minGeneration) (by
        have hsum : ∀ marks : α → Marks, (∑ x, lacking (marks x)) ≤ Fintype.card α * 3 := by
          intro marks
          exact Finset.sum_le_card_nsmul _ _ _ fun x _ => hlacking (marks x)
        have hlen := (paintTwos_queue (two :: twos) (addMarks unmarked one { parent1 := true })
          ((PrioQueue.empty (paintCompare r minGeneration)).put one)).length_eq
        have hone := ((PrioQueue.empty (paintCompare r minGeneration)).put_items one).length_eq
        rw [length_append, length_reverse, hone] at hlen
        simp only [length_singleton, PrioQueue.items_empty] at hlen
        unfold paintFuel at hfuel
        have := hsum (paintTwos (two :: twos) (addMarks unmarked one { parent1 := true })
          ((PrioQueue.empty (paintCompare r minGeneration)).put one)).1
        simp only
        omega)
    refine ⟨s.marks, r.commitListSortByDate s.result, ?_, hspec.sort⟩
    unfold paintDownToCommon
    dsimp only
    rw [hloop]

/-! ## What the paint answers -/

section Answer

variable {marks : α → Marks} {result : List α} {b : α}

section

omit [DecidableEq α]

variable (h : PaintSpec r one twos minGeneration marks result)

include h

section

variable (hgen : minGeneration ≤ r.generation b)
  (hbest : ∀ b', Common r one twos b' → ¬ r.Ancestor b' b)

include hgen hbest

/-- No commit on a way to `b` is left in the queue, unless `b` is below a common ancestor. -/
theorem PaintSpec.settled_of_reaches {x : α} (hx : r.Reaches x b) {p : α} (hp : p ∈ r.parents x) :
    (marks p).contains (spread (marks x)) = true := by
  refine h.settled x ?_ (hgen.trans (generation_le_of_reaches hx)) p hp
  rw [← Bool.not_eq_true]
  intro hstale
  obtain ⟨b', hb', hanc⟩ := h.sound.stale x hstale
  exact hbest b' hb' (hanc.trans_reaches hx)

/-- The first colour comes down to an ancestor that is not below a common one. -/
theorem PaintSpec.parent1_of_reaches (hreach : r.Reaches one b) : (marks b).parent1 = true :=
  (exists_walk_of_reflTransGen hreach).carry h.sound.start1 fun _ _ hx _ hp hx1 =>
    (contains_spread.mp (h.settled_of_reaches hgen hbest hx hp)).1 hx1

/-- The second colour comes down to an ancestor that is not below a common one. -/
theorem PaintSpec.parent2_of_reaches
    {two : α} (htwo : two ∈ twos) (hreach : r.Reaches two b) : (marks b).parent2 = true :=
  (exists_walk_of_reflTransGen hreach).carry (h.sound.start2 two htwo) fun _ _ hx _ hp hx2 =>
    (contains_spread.mp (h.settled_of_reaches hgen hbest hx hp)).2.1 hx2

end

/-- **`one` has the second colour if and only if one of the others reaches it.** -/
theorem PaintSpec.parent2_one_iff (hgen : minGeneration ≤ r.generation one) :
    (marks one).parent2 = true ↔ ∃ two ∈ twos, r.Reaches two one := by
  refine ⟨h.sound.parent2 one, ?_⟩
  rintro ⟨two, htwo, hreach⟩
  -- nothing that `one` reaches is above it
  refine h.parent2_of_reaches hgen (fun b' hb' hanc => ?_) htwo hreach
  exact (hb'.1.trans_ancestor hanc).irrefl

end

/-- **Clearing from the commits that the paint started from takes all of it off.** -/
theorem PaintSound.clear [Fintype α] (h : PaintSound r one twos marks) {fuel : Nat}
    (hfuel : clearFuel r.parents ≤ fuel) :
    ∃ marks₁, clearCommitMarks r.parents .all fuel marks one = .ok marks₁ ∧
      clearCommitMarksMany r.parents .all fuel marks₁ twos = .ok unmarked := by
  obtain ⟨marks₁, hone, hclear₁⟩ := clearCommitMarks_spec .all hfuel marks one
  obtain ⟨marks₂, hmany, hclear₂⟩ := clearCommitMarksMany_spec .all hfuel marks₁ twos
  have hclear := hclear₁.trans hclear₂
  have hempty : marks₂ = unmarked := by
    funext x
    by_cases hx : marks x = {}
    · rcases hclear.frame x with hx' | hx'
      · rw [hx', hx, unmarked]
      · rw [hx', Marks.diff_all, unmarked]
    · obtain ⟨s, hs, hwalk⟩ := h.walk x hx
      rw [hclear.reached (by simpa using hs) (hwalk.mono fun y => Marks.meets_all.mpr),
        Marks.diff_all, unmarked]
  exact ⟨marks₁, hone, hempty ▸ hmany⟩

end Answer

end GitCore.Commit
