import GitCore.LineLog.RangeSet

/-! # Mapping ranges across a diff

The lines that are looked for in a commit become lines of its parent: the hunks that touch them are
taken out, what is left is shifted, and the parent's side of the touched hunks is added. -/

namespace GitCore.LineLog

open List
open GitCore.Interval (points Canonical)

/-! ## The code -/

/-- `struct diff_ranges` -/
structure DiffRanges where
  parent : RangeSet
  target : RangeSet

/-- The ranges of a hunk, at one index of the two sets. -/
structure Hunk where
  parent : Range
  target : Range

/-- The hunks of a diff. -/
def DiffRanges.hunks (diff : DiffRanges) : List Hunk := List.zipWith Hunk.mk diff.parent diff.target

/-- `ranges_overlap` -/
def rangesOverlap (a b : Range) : Bool := !(decide (a.stop ≤ b.start) || decide (b.stop ≤ a.start))

/-- The loop of `diff_ranges_filter_touched`, with the ranges of `rs` from the cursor on. -/
def filterTouchedLoop : List Hunk → RangeSet → DiffRanges → Option DiffRanges
  | [], _, out => some out
  | h :: hunks, rs, out =>
    match rs.dropWhile fun r => decide (h.target.start ≥ r.stop) with
    | [] => some out
    | r :: rs =>
      if rangesOverlap h.target r then
        match rangeSetAppend out.parent h.parent.start h.parent.stop with
        | none => none
        | some parent =>
          match rangeSetAppend out.target h.target.start h.target.stop with
          | none => none
          | some target => filterTouchedLoop hunks (r :: rs) ⟨parent, target⟩
      else filterTouchedLoop hunks (r :: rs) out

/-- `diff_ranges_filter_touched`: the first range of `rs` is read without a look at `rs->nr`. -/
def diffRangesFilterTouched (diff : DiffRanges) (rs : RangeSet) : Option DiffRanges :=
  match diff.hunks, rs with
  | _ :: _, [] => none
  | hunks, rs => filterTouchedLoop hunks rs ⟨[], []⟩

/-- How many lines more the parent has in a hunk. -/
def Hunk.growth (h : Hunk) : Int :=
  (h.parent.stop - h.parent.start) - (h.target.stop - h.target.start)

/-- The inner loop of `range_set_shift_diff`: the hunks from the cursor on, and the offset. -/
def advance (start : Int) : List Hunk → Int → List Hunk × Int
  | [], offset => ([], offset)
  | h :: hunks, offset =>
    if start ≥ h.target.start then advance start hunks (offset + h.growth)
    else (h :: hunks, offset)

/-- The loop of `range_set_shift_diff`. -/
def shiftLoop : RangeSet → List Hunk → Int → RangeSet → Option RangeSet
  | [], _, _, out => some out
  | src :: rs, hunks, offset, out =>
    let next := advance src.start hunks offset
    match rangeSetAppend out (src.start + next.2) (src.stop + next.2) with
    | none => none
    | some out => shiftLoop rs next.1 next.2 out

/-- `range_set_shift_diff` -/
def rangeSetShiftDiff (rs : RangeSet) (diff : DiffRanges) : Option RangeSet :=
  shiftLoop rs diff.hunks 0 []

/-- `range_set_map_across_diff`: the set and the touched hunks. -/
def rangeSetMapAcrossDiff (rs : RangeSet) (diff : DiffRanges) : Option (RangeSet × DiffRanges) :=
  match diffRangesFilterTouched diff rs with
  | none => none
  | some touched =>
    match rangeSetDifference rs touched.target with
    | none => none
    | some tmp1 =>
      match rangeSetShiftDiff tmp1 diff with
      | none => none
      | some tmp2 => some (rangeSetUnion tmp2 touched.parent, touched)

/-! ## Diffs -/

/-- **Parallel hunks**: the lines before the first hunk are the same on both sides, and between two
hunks there is an unchanged gap that is not empty and equally long on both sides. -/
structure Parallel (diff : DiffRanges) : Prop where
  length_eq : diff.parent.length = diff.target.length
  valid : ∀ h ∈ diff.hunks, h.parent.start ≤ h.parent.stop ∧ h.target.start ≤ h.target.stop
  first : ∀ h ∈ diff.hunks.head?, h.parent.start = h.target.start
  gaps : diff.hunks.IsChain fun h h' => h.target.stop < h'.target.start ∧
    h'.target.start - h.target.stop = h'.parent.start - h.parent.stop

/-- The hunk touches a range set: it shares a line with it, or it has no lines in the target and
lies strictly inside a range. -/
def Touches (target : Range) (rs : RangeSet) : Prop :=
  (∃ x ∈ target.toSet, x ∈ points rs) ∨
    target.start = target.stop ∧ ∃ r ∈ rs, r.start < target.start ∧ target.start < r.stop

/-- **Line `t` of the target is unchanged and is line `u` of the parent**: it lies between two
hunks, as far behind the first one on both sides. -/
def Unchanged (hunks : List Hunk) (t u : Int) : Prop :=
  ∃ before after, hunks = before ++ after ∧ (∀ h ∈ before, h.target.stop ≤ t) ∧
    (∀ h ∈ after, t < h.target.start) ∧
    t - (before.getLast?.elim 0 fun h => h.target.stop) =
      u - (before.getLast?.elim 0 fun h => h.parent.stop)

/-- Hunks behind an offset: each hunk is where the offset says, and the next one lies behind it. -/
inductive Aligned : Int → List Hunk → Prop
  | nil (offset : Int) : Aligned offset []
  | cons {offset : Int} {h : Hunk} {hunks : List Hunk}
      (start_eq : h.parent.start = h.target.start + offset)
      (valid : h.parent.start ≤ h.parent.stop ∧ h.target.start ≤ h.target.stop)
      (behind : ∀ h' ∈ hunks, h.target.stop < h'.target.start)
      (rest : Aligned (offset + h.growth) hunks) : Aligned offset (h :: hunks)

/-- The offset after some hunks. -/
def totalGrowth (hunks : List Hunk) : Int := (hunks.map Hunk.growth).sum

@[simp] theorem totalGrowth_nil : totalGrowth [] = 0 := rfl

@[simp] theorem totalGrowth_cons (h : Hunk) (hunks : List Hunk) :
    totalGrowth (h :: hunks) = h.growth + totalGrowth hunks := rfl

theorem totalGrowth_append (l l' : List Hunk) :
    totalGrowth (l ++ l') = totalGrowth l + totalGrowth l' := by
  rw [totalGrowth, map_append, sum_append]
  rfl

variable {hunks : List Hunk} {offset : Int}

/-- Hunks with equal gaps are aligned. -/
theorem aligned_of_chain
    (hvalid : ∀ h ∈ hunks, h.parent.start ≤ h.parent.stop ∧ h.target.start ≤ h.target.stop)
    (hfirst : ∀ h ∈ hunks.head?, h.parent.start = h.target.start + offset)
    (hgaps : hunks.IsChain fun h h' => h.target.stop < h'.target.start ∧
      h'.target.start - h.target.stop = h'.parent.start - h.parent.stop) :
    Aligned offset hunks := by
  induction hunks generalizing offset with
  | nil => exact .nil offset
  | cons h hunks ih =>
    have hstart := hfirst h rfl
    have hh := hvalid h mem_cons_self
    cases hunks with
    | nil => exact .cons hstart hh (by simp) (.nil _)
    | cons h' hunks =>
      obtain ⟨⟨hgap, hequal⟩, hgaps⟩ := isChain_cons_cons.mp hgaps
      have hrest : Aligned (offset + h.growth) (h' :: hunks) := by
        refine ih (forall_mem_cons.mp hvalid).2 (fun x hx => ?_) hgaps
        obtain rfl : h' = x := Option.some.inj hx
        unfold Hunk.growth
        omega
      refine .cons hstart hh (fun x hx => ?_) hrest
      rcases mem_cons.mp hx with rfl | hx
      · exact hgap
      cases hrest with
      | cons start_eq valid behind rest =>
        have := behind x hx
        omega

variable {diff : DiffRanges}

theorem Parallel.aligned (h : Parallel diff) : Aligned 0 diff.hunks :=
  aligned_of_chain h.valid (fun x hx => by rw [h.first x hx, add_zero]) h.gaps

variable {before after : List Hunk} {t u : Int}

theorem Aligned.append (h : Aligned offset (before ++ after)) :
    Aligned (offset + totalGrowth before) after := by
  induction before generalizing offset with
  | nil => simpa using h
  | cons x before ih =>
    cases h with
    | cons start_eq valid behind rest =>
      rw [totalGrowth_cons, ← add_assoc]
      exact ih rest

theorem Aligned.valid (h : Aligned offset hunks) {x : Hunk} (hx : x ∈ hunks) :
    x.parent.start ≤ x.parent.stop ∧ x.target.start ≤ x.target.stop := by
  induction h with
  | nil => cases hx
  | cons start_eq valid behind rest ih =>
    rcases mem_cons.mp hx with rfl | hx
    · exact valid
    · exact ih hx

/-- The hunks lie one behind the other, on both sides. -/
theorem Aligned.pairwise (h : Aligned offset hunks) :
    hunks.Pairwise fun x y => x.target.stop < y.target.start ∧ x.parent.stop ≤ y.parent.start := by
  -- a parent's start is not before any bound that the offset gives
  have hbound : ∀ {offset : Int} {hunks : List Hunk}, Aligned offset hunks → ∀ {x : Int},
      (∀ y ∈ hunks, x < y.target.start) → ∀ y ∈ hunks, x + offset ≤ y.parent.start := by
    intro offset hunks h
    induction h with
    | nil => exact fun _ y hy => absurd hy not_mem_nil
    | @cons offset h hunks start_eq valid behind rest ih =>
      intro x hx y hy
      have hxh := hx h mem_cons_self
      rcases mem_cons.mp hy with rfl | hy
      · omega
      have := ih behind y hy
      unfold Hunk.growth at this
      omega
  induction h with
  | nil => exact .nil
  | @cons offset h hunks start_eq valid behind rest ih =>
    refine pairwise_cons.mpr ⟨fun y hy => ⟨behind y hy, ?_⟩, ih⟩
    have := hbound rest behind y hy
    unfold Hunk.growth at this
    omega

/-- **The offset of an unchanged line** is the growth of the hunks before it. -/
theorem unchanged_iff (h : Aligned 0 hunks) :
    Unchanged hunks t u ↔ ∃ before after, hunks = before ++ after ∧
      (∀ x ∈ before, x.target.stop ≤ t) ∧ (∀ x ∈ after, t < x.target.start) ∧
      u = t + totalGrowth before := by
  have hlast : ∀ {before after : List Hunk}, hunks = before ++ after →
      (before.getLast?.elim 0 fun x => x.parent.stop) =
        (before.getLast?.elim 0 fun x => x.target.stop) + totalGrowth before := by
    intro before after heq
    rcases eq_nil_or_concat' before with rfl | ⟨init, x, rfl⟩
    · simp
    rw [heq, append_assoc] at h
    have hx := h.append
    cases hx with
    | cons start_eq valid behind rest =>
      rw [getLast?_concat, totalGrowth_append, totalGrowth_cons, totalGrowth_nil]
      change x.parent.stop = x.target.stop + _
      unfold Hunk.growth
      omega
  refine exists_congr fun before => exists_congr fun after => and_congr_right fun heq =>
    and_congr_right fun _ => and_congr_right fun _ => ?_
  have := hlast heq
  omega

/-! ## Shifting -/

/-- **The cursor of the shift** passes the hunks before a piece. -/
theorem advance_spec {src : Range} (hsrc : src.start < src.stop) (h : Aligned offset hunks)
    (hbeside : ∀ x ∈ hunks, Beside src x.target) :
    ∃ passed, hunks = passed ++ (advance src.start hunks offset).1 ∧
      (advance src.start hunks offset).2 = offset + totalGrowth passed ∧
      (∀ x ∈ passed, x.target.stop ≤ src.start) ∧
      (∀ x ∈ (advance src.start hunks offset).1, src.stop ≤ x.target.start) ∧
      ∀ y, y ≤ src.start → (∀ x ∈ hunks, y ≤ x.target.start) →
        y + offset ≤ src.start + (advance src.start hunks offset).2 := by
  induction h with
  | nil offset =>
    refine ⟨[], rfl, by simp [advance], by simp, by simp [advance], fun y hy _ => ?_⟩
    exact add_le_add_left hy _
  | @cons offset h hunks start_eq valid behind rest ih =>
    rw [advance]
    have hh := hbeside h mem_cons_self
    by_cases hpass : src.start ≥ h.target.start
    · -- the hunk starts before the piece, so it lies before it
      have hstop : h.target.stop ≤ src.start := by
        rcases hh with hh | hh
        · exact hh
        · omega
      rw [if_pos hpass]
      obtain ⟨passed, hsplit, hoffset, hbefore, hafter, hmono⟩ := ih fun x hx =>
        hbeside x (mem_cons_of_mem _ hx)
      refine ⟨h :: passed, by rw [cons_append, ← hsplit], ?_, fun x hx => ?_, hafter,
        fun y hy hall => ?_⟩
      · rw [hoffset, totalGrowth_cons, add_assoc]
      · grind
      · have hnext := hmono h.target.stop hstop fun x hx => (behind x hx).le
        have hstart := hall h mem_cons_self
        refine le_trans ?_ hnext
        unfold Hunk.growth
        omega
    · rw [if_neg hpass]
      refine ⟨[], rfl, by simp, by simp, fun x hx => ?_, fun y hy _ => add_le_add_left hy _⟩
      have hstop : src.stop ≤ h.target.start := by
        rcases hh with hh | hh
        · omega
        · exact hh
      grind

/-- The hunks before a line, when it lies between hunks. -/
theorem takeWhile_eq_before (h : Aligned offset (before ++ after))
    (hbefore : ∀ x ∈ before, x.target.stop ≤ t) (hafter : ∀ x ∈ after, t < x.target.start) :
    (before ++ after).takeWhile (fun x => decide (x.target.start ≤ t)) = before := by
  rw [takeWhile_append_of_pos fun x hx => ?_]
  · cases after with
    | nil => simp
    | cons x after =>
      have := hafter x mem_cons_self
      rw [takeWhile_cons_of_neg (by simpa using this), append_nil]
  · have hvalid := h.valid (mem_append_left _ hx)
    grind

/-- An unchanged line that is known to lie between hunks. -/
theorem unchanged_iff_of_split (h : Aligned 0 (before ++ after))
    (hbefore : ∀ x ∈ before, x.target.stop ≤ t) (hafter : ∀ x ∈ after, t < x.target.start) :
    Unchanged (before ++ after) t u ↔ u = t + totalGrowth before := by
  rw [unchanged_iff h]
  constructor
  · rintro ⟨before', after', heq, hbefore', hafter', rfl⟩
    have htake := takeWhile_eq_before h hbefore hafter
    rw [heq] at h htake
    rw [← htake, takeWhile_eq_before h hbefore' hafter']
  · exact fun hu => ⟨before, after, rfl, hbefore, hafter, hu⟩

/-- **The shift** moves every piece to the parent's lines. -/
theorem shiftLoop_spec {rs out : RangeSet} {done hunks : List Hunk} (hpieces : Pieces rs)
    (h : Aligned 0 (done ++ hunks)) (hbeside : ∀ p ∈ rs, ∀ x ∈ done ++ hunks, Beside p x.target)
    (hdone : ∀ p ∈ rs, ∀ x ∈ done, x.target.stop ≤ p.start) (hout : Pieces out)
    (hbound : ∀ p ∈ out, ∃ y, p.stop ≤ y + totalGrowth done ∧ (∀ q ∈ rs, y ≤ q.start) ∧
      ∀ x ∈ hunks, y ≤ x.target.start) :
    ∃ new, shiftLoop rs hunks (totalGrowth done) out = some (out ++ new) ∧ Pieces (out ++ new) ∧
      ∀ u, u ∈ points new ↔ ∃ t ∈ points rs, Unchanged (done ++ hunks) t u := by
  induction rs generalizing done hunks out with
  | nil => exact ⟨[], by rw [shiftLoop, append_nil], by rwa [append_nil], by simp⟩
  | cons src rs ih =>
    have hsrc := hpieces.nonempty src mem_cons_self
    obtain ⟨hbehind, horder⟩ := pairwise_cons.mp hpieces.order
    have hrest : Aligned (totalGrowth done) hunks := by simpa using h.append
    obtain ⟨passed, hsplit, hoffset, hbefore, hafter, hmono⟩ := advance_spec hsrc hrest fun x hx =>
      hbeside src mem_cons_self x (mem_append_right _ hx)
    rw [shiftLoop]
    generalize advance src.start hunks (totalGrowth done) = next at hsplit hoffset hafter hmono
    obtain ⟨hunks', offset'⟩ := next
    dsimp only at hsplit hoffset hafter hmono ⊢
    rw [← totalGrowth_append] at hoffset
    have hlt : src.start + offset' < src.stop + offset' := by omega
    have hstops : ∀ p ∈ out, p.stop ≤ src.start + offset' := by grind
    rw [rangeSetAppend_eq hlt.le hstops]
    have hall : done ++ hunks = done ++ passed ++ hunks' := by rw [append_assoc, ← hsplit]
    have hbefore' : ∀ x ∈ done ++ passed, x.target.stop ≤ src.start := fun x hx =>
      (mem_append.mp hx).elim (hdone src mem_cons_self x) (hbefore x)
    rw [hall] at h hbeside ⊢
    obtain ⟨new, hsome, hnew, hpoints⟩ := @ih (out ++ [⟨src.start + offset', src.stop + offset'⟩])
      (done ++ passed) hunks' ⟨(forall_mem_cons.mp hpieces.nonempty).2, horder⟩ h
      (forall_mem_cons.mp hbeside).2
      (fun p hp x hx => (hbefore' x hx).trans (hsrc.le.trans (hbehind p hp)))
      (hout.append hlt hstops) fun p hp => by
        refine ⟨src.stop, ?_, hbehind, hafter⟩
        grind
    rw [← hoffset, append_assoc] at hsome
    rw [append_assoc] at hnew
    refine ⟨_, hsome, hnew, fun u => ?_⟩
    have hsrcUnchanged : ∀ t ∈ src.toSet, (Unchanged (done ++ passed ++ hunks') t u ↔
        u = t + offset') := by
      intro t ht
      rw [unchanged_iff_of_split h (fun x hx => (hbefore' x hx).trans ht.1)
        (fun x hx => ht.2.trans_le (hafter x hx)), hoffset]
    rw [Interval.points_append, Set.mem_union, hpoints, Interval.points_cons, Interval.points_nil,
      Set.union_empty, Interval.points_cons]
    constructor
    · rintro (hu | ⟨t, ht, hu⟩)
      · have ht : u - offset' ∈ src.toSet := by
          rw [Interval.mem_toSet] at hu ⊢
          dsimp only at hu
          omega
        exact ⟨u - offset', .inl ht, (hsrcUnchanged _ ht).mpr (by omega)⟩
      · exact ⟨t, .inr ht, hu⟩
    · rintro ⟨t, ht | ht, hu⟩
      · rw [hsrcUnchanged t ht] at hu
        refine .inl ?_
        rw [Interval.mem_toSet] at ht ⊢
        dsimp only
        omega
      · exact .inr ⟨t, ht, hu⟩

/-! ## Touched hunks -/

/-- The code's test for an overlap with a range set. -/
def overlapsSet (rs : RangeSet) (target : Range) : Prop :=
  ∃ r ∈ rs, r.start < target.stop ∧ target.start < r.stop

variable {rs : RangeSet} {target : Range}

/-- The test is right for ranges that are not empty. -/
theorem overlapsSet_iff_touches (hrs : ∀ r ∈ rs, r.start < r.stop)
    (htarget : target.start ≤ target.stop) : overlapsSet rs target ↔ Touches target rs := by
  constructor
  · rintro ⟨r, hr, hstart, hstop⟩
    by_cases hempty : target.start = target.stop
    · exact .inr ⟨hempty, r, hr, by omega, hstop⟩
    have hlt := hrs r hr
    refine .inl ⟨max r.start target.start, ⟨le_max_right _ _, ?_⟩, r, hr, le_max_left _ _, ?_⟩ <;>
      omega
  · rintro (⟨x, hx, r, hr, hxr⟩ | ⟨hempty, r, hr, hstart, hstop⟩)
    · exact ⟨r, hr, hxr.1.trans_lt hx.2, hx.1.trans_lt hxr.2⟩
    · exact ⟨r, hr, by omega, hstop⟩

open Classical in
/-- The hunks that touch a range set. -/
noncomputable def touchedHunks (rs : RangeSet) (hunks : List Hunk) : List Hunk :=
  hunks.filter fun h => decide (overlapsSet rs h.target)

open Classical in
theorem mem_touchedHunks {h : Hunk} :
    h ∈ touchedHunks rs hunks ↔ h ∈ hunks ∧ overlapsSet rs h.target := by
  simp [touchedHunks]

/-- Only the first range behind the start of a hunk can be the first one to overlap it. -/
theorem overlapsSet_iff_rangesOverlap {dropped rs : RangeSet} {r : Range}
    (hdropped : ∀ s ∈ dropped, s.stop ≤ target.start) (hr : r.start ≤ r.stop)
    (hbehind : ∀ s ∈ rs, r.stop ≤ s.start) (hstop : target.start < r.stop) :
    overlapsSet (dropped ++ r :: rs) target ↔ rangesOverlap target r = true := by
  have htest : rangesOverlap target r = true ↔ r.start < target.stop := by
    simp [rangesOverlap, hstop]
  rw [htest]
  constructor
  · rintro ⟨s, hs, hstart, hs'⟩
    grind
  · exact fun hstart => ⟨r, by simp, hstart, hstop⟩

/-- **The filter** keeps the hunks that overlap the set, when the cursor went over ranges that stop
before all of them. -/
theorem filterTouchedLoop_spec {hunks : List Hunk} {dropped rs : RangeSet} {out : DiffRanges}
    (hvalid : ∀ x ∈ hunks, x.parent.start ≤ x.parent.stop ∧ x.target.start ≤ x.target.stop)
    (hpair : hunks.Pairwise fun x y => x.target.stop < y.target.start ∧
      x.parent.stop ≤ y.parent.start) (hcanon : Canonical (dropped ++ rs))
    (hdropped : ∀ r ∈ dropped, ∀ x ∈ hunks, r.stop ≤ x.target.start)
    (hparent : ∀ p ∈ out.parent, ∀ x ∈ hunks, p.stop ≤ x.parent.start)
    (htarget : ∀ p ∈ out.target, ∀ x ∈ hunks, p.stop ≤ x.target.start) :
    filterTouchedLoop hunks rs out =
      some ⟨out.parent ++ (touchedHunks (dropped ++ rs) hunks).map Hunk.parent,
        out.target ++ (touchedHunks (dropped ++ rs) hunks).map Hunk.target⟩ := by
  induction hunks generalizing dropped rs out with
  | nil => simp [filterTouchedLoop, touchedHunks]
  | cons h hunks ih =>
    obtain ⟨hbehind, hpair⟩ := pairwise_cons.mp hpair
    have hh := hvalid h mem_cons_self
    have hlater : ∀ x ∈ h :: hunks, h.target.start ≤ x.target.start := by
      exact forall_mem_cons.mpr ⟨le_rfl, fun x hx => hh.2.trans (hbehind x hx).1.le⟩
    obtain ⟨skipped, hsplit, hskipped, hhead⟩ := exists_dropped rs h.target.start
    have hdropped' : ∀ r ∈ dropped ++ skipped, r.stop ≤ h.target.start := fun r hr =>
      (mem_append.mp hr).elim (fun hr => hdropped r hr h mem_cons_self) (hskipped r)
    rw [filterTouchedLoop]
    generalize rs.dropWhile (fun r => decide (h.target.start ≥ r.stop)) = rest at hsplit hhead
    subst hsplit
    rw [← append_assoc] at hcanon ⊢
    cases rest with
    | nil =>
      -- the set is exhausted: no further hunk overlaps it
      have hnone : touchedHunks (dropped ++ skipped ++ []) (h :: hunks) = [] := by
        refine eq_nil_iff_forall_not_mem.mpr fun x hx => ?_
        obtain ⟨hx, r, hr, -, hstop⟩ := mem_touchedHunks.mp hx
        grind
      rw [hnone]
      simp
    | cons r rest =>
      have hrstop := hhead r rfl
      have hr := hcanon.nonempty r (by simp)
      have hrbehind : ∀ s ∈ rest, r.stop ≤ s.start := by
        have hrest := (pairwise_append.mp hcanon.apart).2.1
        exact fun s hs => ((pairwise_cons.mp hrest).1 s hs).le
      have htest := overlapsSet_iff_rangesOverlap hdropped' hr.le hrbehind hrstop
      dsimp only
      have hvalid' := (forall_mem_cons.mp hvalid).2
      have hskip : ∀ s ∈ dropped ++ skipped, ∀ x ∈ hunks, s.stop ≤ x.target.start :=
        fun s hs x hx => (hdropped' s hs).trans (hlater x (mem_cons_of_mem _ hx))
      split_ifs with hoverlap
      · rw [rangeSetAppend_eq hh.1 fun p hp => hparent p hp h mem_cons_self]
        rw [rangeSetAppend_eq hh.2 fun p hp => htarget p hp h mem_cons_self]
        dsimp only
        rw [ih hvalid' hpair hcanon hskip ?_ ?_, touchedHunks, touchedHunks,
          filter_cons_of_pos (by simpa using htest.mpr hoverlap)]
        · simp
        · grind
        grind
      · rw [ih hvalid' hpair hcanon hskip
          (fun p hp x hx => hparent p hp x (mem_cons_of_mem _ hx))
          (fun p hp x hx => htarget p hp x (mem_cons_of_mem _ hx)), touchedHunks, touchedHunks,
          filter_cons_of_neg (by simpa using fun h => hoverlap (htest.mp h))]

/-- **The touched hunks** of a diff. -/
theorem diffRangesFilterTouched_eq (hdiff : Parallel diff) (hcanon : Canonical rs) (hne : rs ≠ []) :
    diffRangesFilterTouched diff rs =
      some ⟨(touchedHunks rs diff.hunks).map Hunk.parent,
        (touchedHunks rs diff.hunks).map Hunk.target⟩ := by
  have hloop := @filterTouchedLoop_spec diff.hunks [] rs ⟨[], []⟩ hdiff.valid
    hdiff.aligned.pairwise hcanon (by simp) (by simp) (by simp)
  unfold diffRangesFilterTouched
  split
  · exact absurd rfl hne
  · simpa using hloop

/-- Either side of the touched hunks is sorted. -/
theorem sorted_map_of_pairwise {side : Hunk → Range}
    (hvalid : ∀ x ∈ hunks, (side x).start ≤ (side x).stop)
    (hpair : hunks.Pairwise fun x y => (side x).stop ≤ (side y).start) :
    Sorted (hunks.map side) := by
  constructor
  · simpa using hvalid
  refine pairwise_map.mpr (hpair.imp_of_mem fun {x y} hx hy hxy => ⟨?_, ?_⟩)
  · exact (hvalid x hx).trans hxy
  · exact fun t ht ht' =>
      absurd (ht.2.trans_le (hxy.trans ht'.1)) (lt_irrefl t)

/-! ## Mapping -/

/-- **The parent's lines for a set of lines**: the parents of its lines in no hunk that touches the
set, and all lines of the parent in the hunks that touch it. -/
def ParentLines (diff : DiffRanges) (rs : RangeSet) : Set Int :=
  { u | ∃ t ∈ points rs, (∀ h ∈ diff.hunks, Touches h.target rs → t ∉ h.target.toSet) ∧
      Unchanged diff.hunks t u } ∪
  { u | ∃ h ∈ diff.hunks, Touches h.target rs ∧ u ∈ h.parent.toSet }

/-- **Mapping across a diff**: no assertion fails, and the result is canonical with the parent's
lines. -/
theorem rangeSetMapAcrossDiff_spec (hdiff : Parallel diff) (hcanon : Canonical rs) (hne : rs ≠ []) :
    ∃ out touched, rangeSetMapAcrossDiff rs diff = some (out, touched) ∧ Canonical out ∧
      points out = ParentLines diff rs := by
  have haligned := hdiff.aligned
  have hmem : ∀ {x}, x ∈ touchedHunks rs diff.hunks ↔ x ∈ diff.hunks ∧ Touches x.target rs := by
    intro x
    rw [mem_touchedHunks]
    exact and_congr_right fun hx =>
      overlapsSet_iff_touches hcanon.nonempty (haligned.valid hx).2
  have hpair : (touchedHunks rs diff.hunks).Pairwise fun x y =>
      x.target.stop < y.target.start ∧ x.parent.stop ≤ y.parent.start :=
    haligned.pairwise.sublist filter_sublist
  have hparent : Sorted ((touchedHunks rs diff.hunks).map Hunk.parent) :=
    sorted_map_of_pairwise (fun x hx => (haligned.valid (hmem.mp hx).1).1) (hpair.imp And.right)
  have htarget : Sorted ((touchedHunks rs diff.hunks).map Hunk.target) :=
    sorted_map_of_pairwise (fun x hx => (haligned.valid (hmem.mp hx).1).2)
      (hpair.imp fun h => h.1.le)
  have hrs : Sorted rs := Pieces.sorted ⟨hcanon.nonempty, hcanon.apart.imp le_of_lt⟩
  obtain ⟨tmp1, hdifference, hpieces, hcut, hlines⟩ := rangeSetDifference_spec hrs htarget
  -- a piece lies beside the touched hunks by the difference, beside the others as it is in `rs`
  have hbeside : ∀ p ∈ tmp1, ∀ x ∈ diff.hunks, Beside p x.target := by
    intro p hp x hx
    by_cases htouched : x ∈ touchedHunks rs diff.hunks
    · exact hcut.beside p hp _ (mem_map_of_mem htouched)
    obtain ⟨r, hr, hpr⟩ := hcut.within p hp
    by_contra hnot
    refine htouched (mem_touchedHunks.mpr ⟨hx, r, hr, ?_, ?_⟩) <;> unfold Beside at hnot <;> omega
  obtain ⟨tmp2, hshift, hpieces2, hshifted⟩ := @shiftLoop_spec tmp1 [] [] diff.hunks hpieces
    haligned hbeside (by simp) ⟨by simp, .nil⟩ (by simp)
  rw [nil_append] at hshift hpieces2
  obtain ⟨hunion, hunionLines⟩ := rangeSetUnion_spec hpieces2.sorted hparent
  refine ⟨_, ⟨(touchedHunks rs diff.hunks).map Hunk.parent,
    (touchedHunks rs diff.hunks).map Hunk.target⟩, ?_, hunion, ?_⟩
  · rw [rangeSetMapAcrossDiff, diffRangesFilterTouched_eq hdiff hcanon hne]
    dsimp only
    rw [hdifference]
    dsimp only
    rw [rangeSetShiftDiff, show shiftLoop tmp1 diff.hunks 0 [] = some tmp2 from hshift]
  · rw [hunionLines]
    refine congrArg₂ (· ∪ ·) (Set.ext fun u => ?_) (Set.ext fun u => ?_)
    · rw [hshifted]
      refine exists_congr fun t => ?_
      have houtside : t ∉ points ((touchedHunks rs diff.hunks).map Hunk.target) ↔
          ∀ h ∈ diff.hunks, Touches h.target rs → t ∉ h.target.toSet := by
        simp [points, hmem]
      rw [hlines, Set.mem_sdiff, houtside, and_assoc, nil_append]
    · simp [points, hmem, and_assoc]

/-! ## Range arithmetic -/

/-- A range set that is sorted and disjoint. -/
structure SortedSet where
  ranges : RangeSet
  sorted : Sorted ranges

/-- Any list of ranges. -/
structure RangeList where
  ranges : RangeSet
  valid : ∀ r ∈ ranges, r.start ≤ r.stop

/-- The lines of a file that are looked for. -/
structure TrackedSet where
  ranges : RangeSet
  canonical : Canonical ranges
  nonempty : ranges ≠ []

/-- A diff with parallel hunks. -/
structure ParallelDiff where
  diff : DiffRanges
  parallel : Parallel diff

/-- **Range arithmetic is set arithmetic**: union, difference, sorting with merging, and mapping
across a diff; none of them fails an assertion. -/
theorem range_arithmetic_is_set_arithmetic (a b : SortedSet) (list : RangeList) (rs : TrackedSet)
    (diff : ParallelDiff) :
    (Canonical (rangeSetUnion a.ranges b.ranges) ∧
      points (rangeSetUnion a.ranges b.ranges) = points a.ranges ∪ points b.ranges) ∧
    (∃ out, rangeSetDifference a.ranges b.ranges = some out ∧ Sorted out ∧
      points out = points a.ranges \ points b.ranges) ∧
    (∀ sorted : RangeSet, sorted.Perm list.ranges →
      sorted.Pairwise (fun r s => r.start ≤ s.start) →
      ∃ out, mergeSorted sorted = some out ∧ Canonical out ∧ points out = points list.ranges) ∧
    ∃ out touched, rangeSetMapAcrossDiff rs.ranges diff.diff = some (out, touched) ∧
      Canonical out ∧ points out = ParentLines diff.diff rs.ranges := by
  refine ⟨rangeSetUnion_spec a.sorted b.sorted, ?_, fun sorted hperm hsorted => ?_, ?_⟩
  · obtain ⟨out, hout, hpieces, -, hlines⟩ := rangeSetDifference_spec a.sorted b.sorted
    exact ⟨out, hout, hpieces.sorted, hlines⟩
  · exact mergeSorted_spec list.valid hperm hsorted
  · exact rangeSetMapAcrossDiff_spec diff.parallel rs.canonical rs.nonempty

/-- Ranges that touch, one of them empty. -/
def touchingRanges : SortedSet where
  ranges := [⟨1, 4⟩, ⟨4, 4⟩, ⟨4, 9⟩]
  sorted := ⟨by simp, by simp +contextual [Interval.mem_toSet]⟩

/-- A range across two of them. -/
def acrossRange : SortedSet where
  ranges := [⟨3, 6⟩]
  sorted := ⟨by simp, pairwise_singleton _ _⟩

/-- What a user may give: out of order and overlapping. -/
def userRanges : RangeList where
  ranges := [⟨8, 12⟩, ⟨1, 4⟩, ⟨3, 9⟩]
  valid := by simp

/-- Lines before and behind the hunks, and inside one. -/
def trackedLines : TrackedSet where
  ranges := [⟨0, 2⟩, ⟨5, 8⟩, ⟨20, 25⟩]
  canonical := ⟨by simp, by simp⟩
  nonempty := by simp

/-- Line 6 becomes three lines and two lines go away. -/
def twoHunks : ParallelDiff where
  diff := ⟨[⟨6, 7⟩, ⟨10, 12⟩], [⟨6, 9⟩, ⟨12, 12⟩]⟩
  parallel := ⟨rfl, by simp [DiffRanges.hunks], by simp [DiffRanges.hunks],
    by simp [DiffRanges.hunks]⟩

/-- The arithmetic at several ranges. -/
theorem range_arithmetic_userRanges :
    points (rangeSetUnion touchingRanges.ranges acrossRange.ranges) =
      points touchingRanges.ranges ∪ points acrossRange.ranges ∧
    (∃ out, rangeSetDifference touchingRanges.ranges acrossRange.ranges = some out ∧
      points out = points touchingRanges.ranges \ points acrossRange.ranges) ∧
    (∃ out, mergeSorted [⟨1, 4⟩, ⟨3, 9⟩, ⟨8, 12⟩] = some out ∧ points out = points userRanges.ranges) ∧
    ∃ out touched, rangeSetMapAcrossDiff trackedLines.ranges twoHunks.diff = some (out, touched) ∧
      points out = ParentLines twoHunks.diff trackedLines.ranges := by
  obtain ⟨⟨-, hunion⟩, ⟨out, hout, -, hlines⟩, hmerge, mapped, touched, hmap, -, hparent⟩ :=
    range_arithmetic_is_set_arithmetic touchingRanges acrossRange userRanges trackedLines twoHunks
  obtain ⟨merged, hmerged, -, hpoints⟩ := hmerge [⟨1, 4⟩, ⟨3, 9⟩, ⟨8, 12⟩] (by decide) (by simp)
  exact ⟨hunion, ⟨out, hout, hlines⟩, ⟨merged, hmerged, hpoints⟩, mapped, touched, hmap, hparent⟩

end GitCore.LineLog
