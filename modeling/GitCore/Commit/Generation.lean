import GitCore.Commit.History
import GitCore.Lib.PostOrder
import GitCore.Lib.Slice
import Mathlib.Algebra.Ring.Nat
import Mathlib.Order.MinMax

/-! # Generation numbers

`compute_reachable_generation_numbers` computes the topological levels (version 1) or the corrected
commit dates (version 2) of the commits of a list and of their ancestors, with an explicit stack. The
maximum over the parents is kept in 32 bits. That is enough for topological levels, but a corrected
commit date needs more from the year 2106 on; `DatesFit` says for which dates this does not matter. -/

namespace GitCore.Commit

open List

universe u

/-! ## The code -/

/-- `GENERATION_NUMBER_ZERO`: the generation is not known. -/
def generationNumberZero : Nat := 0

/-- `GENERATION_NUMBER_INFINITY`: the commit is not in a commit-graph. -/
def generationNumberInfinity : Nat := 2 ^ 63 - 1

/-- `GENERATION_NUMBER_V1_MAX` -/
def generationNumberV1Max : Nat := 0x3FFFFFFF

/-- `generation_version` -/
inductive GenerationVersion
  /-- version 1, topological levels -/
  | topologicalLevels
  /-- version 2, corrected commit dates -/
  | correctedCommitDates
  deriving DecidableEq, Repr

/-- `compute_generation_from_max` -/
def computeGenerationFromMax (date maxGen : Nat) : GenerationVersion → Nat
  | .topologicalLevels =>
    let maxGen := if maxGen > generationNumberV1Max - 1 then generationNumberV1Max - 1 else maxGen
    maxGen + 1
  | .correctedCommitDates =>
    let maxGen := if date ≠ 0 ∧ date > maxGen then date - 1 else maxGen
    maxGen + 1

/-- `set_topo_level` and `set_generation_v2`: a topological level is stored in 32 bits. -/
def setGeneration (t : Nat) : GenerationVersion → Nat
  | .topologicalLevels => t % 2 ^ 32
  | .correctedCommitDates => t

variable {α : Type u} {h : History α} {version : GenerationVersion} {gen gen' : α → Nat}

section Compute

/-- The loop over the parents: the first one without a generation, or the maximum, which is kept in
an `uint32_t`. -/
def maxOfParents (gen : α → Nat) : Nat → List α → α ⊕ Nat
  | maxGen, [] => .inr maxGen
  | maxGen, p :: parents =>
    if gen p = generationNumberZero then .inl p
    else maxOfParents gen (if gen p > maxGen then gen p % 2 ^ 32 else maxGen) parents

/-- The body of the loop over the stack: a parent that comes first, or the generation of the
commit. -/
def visitCommit (h : History α) (version : GenerationVersion) (gen : α → Nat) (current : α) :
    α ⊕ Nat :=
  match maxOfParents gen 0 (h.parents current) with
  | .inl p => .inl p
  | .inr maxGen =>
    .inr (setGeneration (computeGenerationFromMax (h.date current) maxGen version) version)

variable [DecidableEq α] (h : History α) (version : GenerationVersion) (fuel : Nat)

/-- `compute_reachable_generation_numbers`, with fuel for each run of the loop over the stack. -/
def computeReachableGenerationNumbers : List α → (α → Nat) → Option (α → Nat)
  | [], gen => some gen
  | c :: commits, gen =>
    if gen c ≠ generationNumberZero ∧ gen c ≠ generationNumberInfinity then
      computeReachableGenerationNumbers commits gen
    else
      match PostOrder.drain (visitCommit h version) fuel [c] gen with
      | none => none
      | some gen => computeReachableGenerationNumbers commits gen

end Compute

/-! ## What the numbers are for -/

section Spec

variable (h) {commits : List α}

/-- The maximum of the generations of some commits. -/
def maxGeneration (gen : α → Nat) (commits : List α) : Nat := (commits.map gen).foldr max 0

/-- The generation of a commit, from those of its parents. -/
def generationOf (version : GenerationVersion) (gen : α → Nat) (c : α) : Nat :=
  match version with
  | .topologicalLevels => min generationNumberV1Max (1 + maxGeneration gen (h.parents c))
  | .correctedCommitDates => max (h.date c) (1 + maxGeneration gen (h.parents c))

/-- The generations that are known are right, and with that of a commit those of its parents are
known. -/
def ValidGenerations (version : GenerationVersion) (gen : α → Nat) : Prop :=
  ∀ c, gen c = generationNumberZero ∨ (gen c = generationOf h version gen c ∧
    gen c ≠ generationNumberInfinity ∧ ∀ p ∈ h.parents c, gen p ≠ generationNumberZero)

/-- **When 32 bits are enough** for the corrected date of a commit: the dates of all ancestors, with
the number of parents on the way to them added, fit, or the commit is later than all that. -/
def DatesFit (c : α) : Prop :=
  (∀ n a, h.Path (n + 1) c a → max (h.date a) 1 + n < 2 ^ 32) ∨
    ∀ n a, h.Path (n + 1) c a → max (h.date a) 1 + n < h.date c

theorem le_maxGeneration {p : α} (hp : p ∈ commits) :
    gen p ≤ maxGeneration gen commits :=
  le_foldr_max gen hp

theorem maxGeneration_lt_iff {n : Nat} (hn : 0 < n) :
    maxGeneration gen commits < n ↔ ∀ p ∈ commits, gen p < n := by
  induction commits with
  | nil => simpa [maxGeneration] using hn
  | cons c commits ih =>
    rw [maxGeneration, map_cons, foldr_cons, max_lt_iff, forall_mem_cons]
    exact and_congr_right fun _ => ih

end Spec

/-! ## One commit -/

/-- The maximum as the code has it. -/
def truncatedMax (gen : α → Nat) : Nat → List α → Nat
  | maxGen, [] => maxGen
  | maxGen, p :: parents =>
    truncatedMax gen (if gen p > maxGen then gen p % 2 ^ 32 else maxGen) parents

/-- The loop over the parents ends at one without a generation or with the maximum. -/
theorem maxOfParents_cases (gen : α → Nat) (maxGen : Nat) (parents : List α) :
    (∃ p ∈ parents, gen p = generationNumberZero ∧ maxOfParents gen maxGen parents = .inl p) ∨
      (∀ p ∈ parents, gen p ≠ generationNumberZero) ∧
        maxOfParents gen maxGen parents = .inr (truncatedMax gen maxGen parents) := by
  fun_induction maxOfParents gen maxGen parents with
  | case1 => exact .inr ⟨nofun, rfl⟩
  | case2 maxGen p parents hp => exact .inl ⟨p, mem_cons_self, hp, rfl⟩
  | case3 maxGen p parents hp ih =>
    rcases ih with ⟨q, hq, hzero, heq⟩ | ⟨hall, heq⟩
    · exact .inl ⟨q, mem_cons_of_mem _ hq, hzero, heq⟩
    · exact .inr ⟨forall_mem_cons.mpr ⟨hp, hall⟩, heq⟩

theorem maxOfParents_congr {parents : List α} (heq : ∀ p ∈ parents, gen p = gen' p) (maxGen : Nat) :
    maxOfParents gen maxGen parents = maxOfParents gen' maxGen parents := by
  induction parents generalizing maxGen with
  | nil => rfl
  | cons p parents ih =>
    obtain ⟨hp, hall⟩ := forall_mem_cons.mp heq
    rw [maxOfParents, maxOfParents, hp, ih hall]

/-- The generation that the code stores. -/
def storedGeneration (h : History α) (version : GenerationVersion) (gen : α → Nat) (c : α) : Nat :=
  setGeneration (computeGenerationFromMax (h.date c) (truncatedMax gen 0 (h.parents c)) version)
    version

theorem visitCommit_cases (h : History α) (version : GenerationVersion) (gen : α → Nat) (c : α) :
    (∃ p ∈ h.parents c, gen p = generationNumberZero ∧ visitCommit h version gen c = .inl p) ∨
      (∀ p ∈ h.parents c, gen p ≠ generationNumberZero) ∧
        visitCommit h version gen c = .inr (storedGeneration h version gen c) := by
  rw [visitCommit, storedGeneration]
  rcases maxOfParents_cases gen 0 (h.parents c) with ⟨p, hp, hzero, heq⟩ | ⟨hall, heq⟩
  · exact .inl ⟨p, hp, hzero, by rw [heq]⟩
  · exact .inr ⟨hall, by rw [heq]⟩

/-- A topological level is computed from the maximum as it is meant to be. -/
theorem storedGeneration_topologicalLevels (c : α) :
    storedGeneration h .topologicalLevels gen c =
      min generationNumberV1Max (1 + truncatedMax gen 0 (h.parents c)) := by
  simp only [storedGeneration, setGeneration, computeGenerationFromMax]
  generalize truncatedMax gen 0 (h.parents c) = maxGen
  split_ifs with hmax
  · rw [generationNumberV1Max] at hmax ⊢
    omega
  · rw [generationNumberV1Max] at hmax ⊢
    omega

/-- So is a corrected commit date. -/
theorem storedGeneration_correctedCommitDates (c : α) :
    storedGeneration h .correctedCommitDates gen c =
      max (h.date c) (1 + truncatedMax gen 0 (h.parents c)) := by
  simp only [storedGeneration, setGeneration, computeGenerationFromMax]
  grind

/-- A stored generation is not the mark for an unknown one. -/
theorem storedGeneration_ne_zero (c : α) :
    storedGeneration h version gen c ≠ generationNumberZero := by
  rw [generationNumberZero]
  cases version with
  | topologicalLevels =>
    rw [storedGeneration_topologicalLevels, generationNumberV1Max]
    omega
  | correctedCommitDates =>
    rw [storedGeneration_correctedCommitDates]
    omega

/-- The maximum of the code fits into 32 bits. -/
theorem truncatedMax_lt {maxGen : Nat} {parents : List α} (hmax : maxGen < 2 ^ 32) :
    truncatedMax gen maxGen parents < 2 ^ 32 := by
  induction parents generalizing maxGen with
  | nil => exact hmax
  | cons p parents ih =>
    apply ih
    grind

/-- The maximum of the code is not too high. -/
theorem truncatedMax_le (maxGen : Nat) (parents : List α) :
    truncatedMax gen maxGen parents ≤ max maxGen (maxGeneration gen parents) := by
  induction parents generalizing maxGen with
  | nil => exact le_max_left _ _
  | cons p parents ih =>
    rw [truncatedMax, maxGeneration, map_cons, foldr_cons]
    have hstep : (if gen p > maxGen then gen p % 2 ^ 32 else maxGen) ≤ max maxGen (gen p) := by
      split
      · exact le_max_of_le_right (Nat.mod_le _ _)
      · exact le_max_left _ _
    have hle := ih (if gen p > maxGen then gen p % 2 ^ 32 else maxGen)
    rw [maxGeneration] at hle
    omega

/-- The maximum of the code is right if it fits. -/
theorem truncatedMax_eq {parents : List α} (hlt : ∀ p ∈ parents, gen p < 2 ^ 32) (maxGen : Nat) :
    truncatedMax gen maxGen parents = max maxGen (maxGeneration gen parents) := by
  induction parents generalizing maxGen with
  | nil => exact (max_eq_left (Nat.zero_le _)).symm
  | cons p parents ih =>
    obtain ⟨hp, hall⟩ := forall_mem_cons.mp hlt
    have hstep : (if gen p > maxGen then gen p % 2 ^ 32 else maxGen) = max maxGen (gen p) := by
      split <;> omega
    rw [truncatedMax, hstep, ih hall, maxGeneration, maxGeneration, map_cons, foldr_cons, max_assoc]

/-- The computation of generations is an evaluation in post-order. -/
def generations (h : History α) (version : GenerationVersion) : PostOrder α Nat where
  below := h.parents
  acyclic := h.acyclic
  done t := t ≠ generationNumberZero
  visit := visitCommit h version
  of_visit_inl := by
    intro gen c p hvisit
    rcases visitCommit_cases h version gen c with ⟨q, hq, hzero, heq⟩ | ⟨-, heq⟩
    · obtain rfl := Sum.inl.inj (heq.symm.trans hvisit)
      exact ⟨hq, not_not.mpr hzero⟩
    · cases heq.symm.trans hvisit
  of_visit_inr := by
    intro gen c t hvisit
    rcases visitCommit_cases h version gen c with ⟨q, -, -, heq⟩ | ⟨hall, heq⟩
    · cases heq.symm.trans hvisit
    · obtain rfl := Sum.inr.inj (heq.symm.trans hvisit)
      exact ⟨hall, storedGeneration_ne_zero c⟩
  visit_congr := by
    intro gen gen' c heq
    rw [visitCommit, visitCommit, maxOfParents_congr heq]

/-! ## The whole run -/

/-- Nothing is stored that looks like a commit outside of the commit-graph. -/
theorem storedGeneration_lt_infinity (hdate : ∀ c, h.date c < 2 ^ 34) (c : α) :
    storedGeneration h version gen c < generationNumberInfinity := by
  have hmax := @truncatedMax_lt _ gen 0 (h.parents c) (by decide)
  rw [generationNumberInfinity]
  cases version with
  | topologicalLevels =>
    rw [storedGeneration_topologicalLevels, generationNumberV1Max]
    omega
  | correctedCommitDates =>
    have hc := hdate c
    rw [storedGeneration_correctedCommitDates]
    omega

/-- A generation that has been added is the stored one. -/
theorem computed_eq {c : α}
    (hext : (generations h version).Extends gen gen') (hne : gen' c ≠ gen c) :
    gen' c = storedGeneration h version gen' c ∧ ∀ p ∈ h.parents c, gen' p ≠ 0 := by
  have hvisit : visitCommit h version gen' c = .inr (gen' c) := (hext.computed c).resolve_left hne
  rcases visitCommit_cases h version gen' c with ⟨p, -, -, heq⟩ | ⟨hall, heq⟩
  · cases heq.symm.trans hvisit
  · exact ⟨(Sum.inr.inj (heq.symm.trans hvisit)).symm, hall⟩

/-- **The run ends**, and every commit of the list has a generation then. -/
theorem exists_compute [DecidableEq α] (hdate : ∀ c, h.date c < 2 ^ 34) (commits : List α)
    (gen : α → Nat) (hfinite : ∀ c, gen c ≠ generationNumberInfinity) :
    ∃ n gen', (generations h version).Extends gen gen' ∧
      (∀ c ∈ commits, gen' c ≠ generationNumberZero) ∧
      ∀ fuel, n ≤ fuel → computeReachableGenerationNumbers h version fuel commits gen = some gen' := by
  induction commits generalizing gen with
  | nil => exact ⟨0, gen, .refl gen, nofun, fun _ _ => rfl⟩
  | cons c commits ih =>
    by_cases hc : gen c = generationNumberZero
    · obtain ⟨n, gen₁, hext, hdone, hdrain⟩ :=
        (generations h version).exists_drain c gen (not_not.mpr hc)
      have hfinite₁ : ∀ d, gen₁ d ≠ generationNumberInfinity := by
        intro d
        by_cases hd : gen₁ d = gen d
        · rw [hd]
          exact hfinite d
        · rw [(computed_eq hext hd).1]
          exact (storedGeneration_lt_infinity hdate d).ne
      obtain ⟨n', gen', hext', hall, hrun⟩ := ih gen₁ hfinite₁
      refine ⟨max n n', gen', hext.trans hext', ?_, fun fuel hfuel => ?_⟩
      · refine forall_mem_cons.mpr ⟨?_, hall⟩
        rw [hext'.kept c hdone]
        exact hdone
      · have hfirst := hdrain fuel (le_of_max_le_left hfuel)
        rw [computeReachableGenerationNumbers, if_neg fun hknown => hknown.1 hc]
        change PostOrder.drain (visitCommit h version) fuel [c] gen = some gen₁ at hfirst
        grind
    · obtain ⟨n', gen', hext', hall, hrun⟩ := ih gen hfinite
      refine ⟨n', gen', hext', ?_, fun fuel hfuel => ?_⟩
      · refine forall_mem_cons.mpr ⟨?_, hall⟩
        rw [hext'.kept c hc]
        exact hc
      · rw [computeReachableGenerationNumbers, if_pos ⟨hc, hfinite c⟩]
        exact hrun fuel hfuel

/-! ## The numbers are right -/

variable {c : α}

/-- What the reachability code relies on: the generation of a commit is the one that its parents give
it, and a corrected commit date is not below the date and above those of the parents. -/
def HasGeneration (h : History α) (version : GenerationVersion) (gen : α → Nat) (c : α) : Prop :=
  gen c = generationOf h version gen c ∧ (version = .correctedCommitDates →
    h.date c ≤ gen c ∧ ∀ p ∈ h.parents c, gen p < gen c)

/-- The inequalities follow from the value. -/
theorem hasGeneration_iff :
    HasGeneration h version gen c ↔ gen c = generationOf h version gen c := by
  refine ⟨fun hc => hc.1, fun hc => ⟨hc, ?_⟩⟩
  rintro rfl
  rw [generationOf] at hc
  refine ⟨by omega, fun p hp => ?_⟩
  have hle := @le_maxGeneration _ gen _ _ hp
  omega

/-- A corrected commit date is not below what any ancestor asks for. -/
theorem path_le {n : Nat} {a : α} (hpath : h.Path n c a)
    (hexact : ∀ a, h.Reaches c a → gen a = generationOf h .correctedCommitDates gen a) :
    max (h.date a) 1 + n ≤ gen c := by
  induction hpath with
  | refl =>
    rw [hexact _ (.refl _), generationOf]
    omega
  | step hp hpath ih =>
    have hle := ih fun a ha => hexact a (.trans (.parent hp) ha)
    have hmax := @le_maxGeneration _ gen _ _ hp
    rw [hexact _ (.refl _), generationOf]
    omega

theorem maxGeneration_eq (gen : α → Nat) (commits : List α) :
    maxGeneration gen commits = 0 ∨ ∃ p ∈ commits, gen p = maxGeneration gen commits := by
  induction commits with
  | nil => exact .inl rfl
  | cons c commits ih =>
    rw [maxGeneration, map_cons, foldr_cons]
    rcases le_total (gen c) ((commits.map gen).foldr max 0) with hle | hle
    · rw [max_eq_right hle]
      exact ih.imp_right fun ⟨p, hp, heq⟩ => ⟨p, mem_cons_of_mem _ hp, heq⟩
    grind

/-- It is what some ancestor asks for. -/
theorem exists_path (c : α)
    (hexact : ∀ a, h.Reaches c a → gen a = generationOf h .correctedCommitDates gen a) :
    ∃ n a, h.Path n c a ∧ gen c = max (h.date a) 1 + n := by
  induction c using h.acyclic.induction with
  | _ c ih =>
    have hc := hexact c (.refl c)
    rw [generationOf] at hc
    rcases maxGeneration_eq gen (h.parents c) with hzero | ⟨p, hp, heq⟩
    · rw [hzero] at hc
      exact ⟨0, c, .refl, hc⟩
    rcases le_total (1 + maxGeneration gen (h.parents c)) (h.date c) with hle | hle
    · exact ⟨0, c, .refl, by omega⟩
    · obtain ⟨n, a, hpath, hgen⟩ := ih p hp fun a ha => hexact a (.trans (.parent hp) ha)
      exact ⟨n + 1, a, .step hp hpath, by omega⟩

section

variable (hexact : ∀ p ∈ h.parents c, ∀ a, h.Reaches p a →
  gen a = generationOf h .correctedCommitDates gen a)
include hexact

/-- The maximum over the parents, in terms of the dates. -/
theorem maxGeneration_lt_iff_path {bound : Nat} (hbound : 0 < bound) :
    maxGeneration gen (h.parents c) < bound ↔
      ∀ n a, h.Path (n + 1) c a → max (h.date a) 1 + n < bound := by
  rw [maxGeneration_lt_iff hbound]
  constructor
  · intro hlt n a hpath
    obtain ⟨p, hp, hpath⟩ := History.path_succ_iff.mp hpath
    exact (path_le hpath (hexact p hp)).trans_lt (hlt p hp)
  · intro hpaths p hp
    obtain ⟨n, a, hpath, hgen⟩ := exists_path p (hexact p hp)
    rw [hgen]
    exact hpaths n a (.step hp hpath)

/-- The condition on the dates, in terms of the maximum over the parents. -/
theorem datesFit_iff : DatesFit h c ↔ maxGeneration gen (h.parents c) < 2 ^ 32 ∨
      maxGeneration gen (h.parents c) < h.date c := by
  rw [DatesFit, ← maxGeneration_lt_iff_path hexact (by decide)]
  rcases Nat.eq_zero_or_pos (h.date c) with hzero | hpos
  · -- nothing is below the date zero, so a commit that is later than all ancestors has no parents
    rw [hzero]
    constructor
    · rintro (hlt | hnone)
      · exact .inl hlt
      · refine .inl ((maxGeneration_lt_iff (by decide)).mpr fun p hp => ?_)
        exact absurd (hnone 0 p (.step hp .refl)) (Nat.not_lt_zero _)
    · rintro (hlt | hlt)
      · exact .inl hlt
      · exact absurd hlt (Nat.not_lt_zero _)
  · rw [← maxGeneration_lt_iff_path hexact hpos]

end

/-- **When the stored corrected date is the right one**, given those of the parents. -/
theorem storedGeneration_eq_iff (c : α) :
    storedGeneration h .correctedCommitDates gen c = generationOf h .correctedCommitDates gen c ↔
      maxGeneration gen (h.parents c) < 2 ^ 32 ∨ maxGeneration gen (h.parents c) < h.date c := by
  rw [storedGeneration_correctedCommitDates, generationOf]
  have hle := @truncatedMax_le _ gen 0 (h.parents c)
  have hlt := @truncatedMax_lt _ gen 0 (h.parents c) (by decide)
  constructor
  · intro heq
    omega
  rintro (hfits | hlate)
  · have heq := truncatedMax_eq ((maxGeneration_lt_iff (by decide)).mp hfits) 0
    rw [heq, Nat.zero_max]
  · omega

/-- Topological levels always fit. -/
theorem storedGeneration_eq_of_levels (hlevels : ∀ p ∈ h.parents c, gen p ≤ generationNumberV1Max) :
    storedGeneration h .topologicalLevels gen c = generationOf h .topologicalLevels gen c := by
  have heq := @truncatedMax_eq _ gen (h.parents c) (fun p hp => (hlevels p hp).trans_lt (by decide)) 0
  rw [storedGeneration_topologicalLevels, generationOf, heq, Nat.zero_max]

theorem generationOf_congr (heq : ∀ p ∈ h.parents c, gen p = gen' p) :
    generationOf h version gen c = generationOf h version gen' c := by
  have hmax : maxGeneration gen (h.parents c) = maxGeneration gen' (h.parents c) := by
    rw [maxGeneration, maxGeneration, map_congr_left heq]
  cases version with
  | topologicalLevels | correctedCommitDates => rw [generationOf, generationOf, hmax]

/-- **The generations of a part of the history that is closed under parents**, by induction on the
graph: the ones that were known stay right, so it is enough that those that are added are. -/
theorem eq_generationOf (hvalid : ValidGenerations h version gen)
    (hext : (generations h version).Extends gen gen') {part : α → Prop}
    (hclosed : ∀ c, part c → ∀ p ∈ h.parents c, part p) (hdone : ∀ c, part c → gen' c ≠ 0)
    (hadded : ∀ c, part c → gen c = generationNumberZero →
      (∀ p ∈ h.parents c, ∀ a, h.Reaches p a → gen' a = generationOf h version gen' a) →
      storedGeneration h version gen' c = generationOf h version gen' c) (c : α) (hc : part c) :
    ∀ a, h.Reaches c a → gen' a = generationOf h version gen' a := by
  induction c using h.acyclic.induction with
  | _ c ih =>
    have hparents : ∀ p ∈ h.parents c, ∀ a, h.Reaches p a → gen' a = generationOf h version gen' a :=
      fun p hp => ih p hp (hclosed c hc p hp)
    intro a hreach
    rcases hreach.cases_head with rfl | ⟨p, hp, hreach⟩
    · by_cases hzero : gen c = generationNumberZero
      · have hne : gen' c ≠ gen c := fun heq => hdone c hc (heq.trans hzero)
        rw [(computed_eq hext hne).1]
        exact hadded c hc hzero hparents
      · obtain ⟨hgen, -, hknown⟩ := (hvalid c).resolve_left hzero
        rw [hext.kept c hzero, hgen]
        exact generationOf_congr fun p hp => (hext.kept p (hknown p hp)).symm
    · exact hparents p hp a hreach

/-- **Generation numbers.** The computation ends for any list of commits and any generations that are
known before. Topological levels are always right. Corrected commit dates are right, and with that
increase from the parents to a commit, exactly if 32 bits are enough for the dates below every commit
that had none. -/
theorem computeReachableGenerationNumbers_correct [DecidableEq α] (h : History α)
    (version : GenerationVersion) (commits : List α) (gen : α → Nat)
    (hdate : ∀ c, h.date c < 2 ^ 34) (hvalid : ValidGenerations h version gen) :
    ∃ n gen',
      (∀ fuel, n ≤ fuel → computeReachableGenerationNumbers h version fuel commits gen = some gen') ∧
      (version = .topologicalLevels →
        ∀ r ∈ commits, ∀ c, h.Reaches r c → HasGeneration h version gen' c) ∧
      (version = .correctedCommitDates →
        ((∀ r ∈ commits, ∀ c, h.Reaches r c → HasGeneration h version gen' c) ↔
          ∀ r ∈ commits, ∀ c, h.Reaches r c → gen c = generationNumberZero → DatesFit h c)) := by
  have hfinite : ∀ c, gen c ≠ generationNumberInfinity := by
    intro c
    rcases hvalid c with hzero | ⟨-, hne, -⟩
    · rw [hzero]
      decide
    · exact hne
  obtain ⟨n, gen', hext, hall, hrun⟩ := @exists_compute _ h version _ hdate commits gen hfinite
  refine ⟨n, gen', hrun, ?_⟩
  -- the commits that are reached from the list
  let part : α → Prop := fun c => ∃ r ∈ commits, h.Reaches r c
  have hclosed : ∀ c, part c → ∀ p ∈ h.parents c, part p := by
    rintro c ⟨r, hr, hreach⟩ p hp
    exact ⟨r, hr, hreach.trans (.parent hp)⟩
  have hknown : (generations h version).Closed gen := by
    intro c hc
    exact ((hvalid c).resolve_left hc).2.2
  have hdone : ∀ c, part c → gen' c ≠ 0 := by
    rintro c ⟨r, hr, hreach⟩
    exact (hknown.extends hext).done_of_reach hreach (hall r hr)
  constructor
  · rintro rfl r hr c hreach
    refine hasGeneration_iff.mpr (eq_generationOf hvalid hext hclosed hdone ?_ r ⟨r, hr, .refl r⟩ c
      hreach)
    intro c _ _ hexact
    refine storedGeneration_eq_of_levels fun p hp => ?_
    rw [hexact p hp p (.refl p), generationOf]
    exact min_le_left _ _
  · rintro rfl
    constructor
    · intro hright r hr c hreach hzero
      have hexact : ∀ a, h.Reaches c a → gen' a = generationOf h .correctedCommitDates gen' a :=
        fun a ha => (hright r hr a (hreach.trans ha)).1
      have hne : gen' c ≠ gen c := fun heq => hdone c ⟨r, hr, hreach⟩ (heq.trans hzero)
      rw [datesFit_iff fun p hp a ha => hexact a (.trans (.parent hp) ha), ← storedGeneration_eq_iff,
        ← (computed_eq hext hne).1]
      exact hexact c (.refl c)
    · intro hfit r hr c hreach
      refine hasGeneration_iff.mpr (eq_generationOf hvalid hext hclosed hdone ?_ r ⟨r, hr, .refl r⟩ c
        hreach)
      rintro a ⟨r, hr, hreach⟩ hzero hexact
      rw [storedGeneration_eq_iff, ← datesFit_iff hexact]
      exact hfit r hr a hreach hzero

/-- A commit with one parent, with these dates. -/
def twoCommits (parentDate date : Nat) : History Bool where
  parents c := if c then [false] else []
  date c := if c then date else parentDate
  acyclic := by
    refine Subrelation.wf ?_ (measure fun c : Bool => if c then 1 else 0).wf
    intro p c hp
    cases c with
    | false => cases hp
    | true =>
      obtain rfl := mem_singleton.mp hp
      exact Nat.zero_lt_one

/-- A commit with an older date than its parent. -/
theorem computeReachableGenerationNumbers_correct_twoCommits :
    ValidGenerations (twoCommits 5 3) .correctedCommitDates (fun _ => 0) ∧
      ∃ n gen', (∀ fuel, n ≤ fuel → computeReachableGenerationNumbers (twoCommits 5 3)
        .correctedCommitDates fuel [true] (fun _ => 0) = some gen') ∧
        HasGeneration (twoCommits 5 3) .correctedCommitDates gen' true := by
  have hvalid : ValidGenerations (twoCommits 5 3) .correctedCommitDates (fun _ => 0) :=
    fun _ => .inl rfl
  refine ⟨hvalid, ?_⟩
  obtain ⟨n, gen', hrun, -, hright⟩ := computeReachableGenerationNumbers_correct (twoCommits 5 3)
    .correctedCommitDates [true] (fun _ => 0) (by decide) hvalid
  refine ⟨n, gen', hrun, (hright rfl).mpr ?_ true mem_cons_self true (.refl true)⟩
  -- the only way down is the one to the parent
  rintro r - c - -
  refine .inl fun n a hpath => ?_
  obtain ⟨p, hp, hpath⟩ := History.path_succ_iff.mp hpath
  cases c with
  | false => cases hp
  | true =>
    obtain rfl := mem_singleton.mp hp
    cases hpath with
    | refl => decide
    | step hp _ => cases hp

/-- **A commit on top of one with the date `2 ^ 32`** gets the generation 1, which is below that of
its parent. -/
theorem computeReachableGenerationNumbers_late :
    (∀ c, (twoCommits (2 ^ 32) 0).date c < 2 ^ 34) ∧
      ValidGenerations (twoCommits (2 ^ 32) 0) .correctedCommitDates (fun _ => 0) ∧
      ∃ gen, computeReachableGenerationNumbers (twoCommits (2 ^ 32) 0) .correctedCommitDates 3 [true]
          (fun _ => 0) = some gen ∧ gen false = 2 ^ 32 ∧ gen true = 1 ∧
        ¬ HasGeneration (twoCommits (2 ^ 32) 0) .correctedCommitDates gen true := by
  refine ⟨by decide, fun _ => .inl rfl, _, rfl, rfl, rfl, ?_⟩
  intro hright
  have hlt := (hright.2 rfl).2 false mem_cons_self
  exact absurd hlt (by decide)

end GitCore.Commit
