import GitCore.Commit.DescendantSearch

/-! # Which commits contain others?

`contains_tag_algo` answers for one candidate after another whether it reaches a commit of a fixed
list. It keeps its answers in a cache that the calls share, and its stack remembers for each commit
which parents are still to be asked. An answer is put in the cache only when it is final, so that
the cache never holds a wrong one. -/

namespace GitCore.Commit

open List
open Function (update update_of_ne update_self)
open Repository

variable {α : Type} [DecidableEq α]

/-! ## The code -/

/-- `enum contains_result` -/
inductive ContainsResult
  /-- `CONTAINS_UNKNOWN` -/
  | unknown
  /-- `CONTAINS_NO` -/
  | no
  /-- `CONTAINS_YES` -/
  | yes
deriving DecidableEq, Repr

/-- `contains_test`: the answer if it is known, and the cache after it. -/
def containsTest (r : Repository α) (want : List α) (cutoff : Nat) (cache : α → ContainsResult)
    (candidate : α) : ContainsResult × (α → ContainsResult) :=
  if cache candidate ≠ .unknown then (cache candidate, cache)
  else if want.contains candidate then (.yes, update cache candidate .yes)
  else if r.generation candidate < cutoff then (.no, cache)
  else (.unknown, cache)

/-- The loop of `contains_tag_algo`. -/
def containsLoop (r : Repository α) (want : List α) (cutoff : Nat) :
    Nat → (α → ContainsResult) → List (α × List α) → Except Halt (α → ContainsResult)
  | 0, _, _ => .error .fuel
  | _ + 1, cache, [] => .ok cache
  | fuel + 1, cache, (commit, []) :: stack =>
    containsLoop r want cutoff fuel (update cache commit .no) stack
  | fuel + 1, cache, (commit, p :: parents) :: stack =>
    match containsTest r want cutoff cache p with
    | (.yes, cache) =>
      containsLoop r want cutoff fuel (update cache commit .yes) stack
    | (.no, cache) => containsLoop r want cutoff fuel cache ((commit, parents) :: stack)
    | (.unknown, cache) =>
      containsLoop r want cutoff fuel cache ((p, r.parents p) :: (commit, p :: parents) :: stack)

/-- `contains_tag_algo`: the answer and the cache after it. -/
def containsTagAlgo (r : Repository α) (want : List α) (fuel : Nat) (cache : α → ContainsResult)
    (candidate : α) : Except Halt (ContainsResult × (α → ContainsResult)) :=
  let cutoff := minGenerationOf r generationNumberInfinity want
  match containsTest r want cutoff cache candidate with
  | (.unknown, cache) =>
    match containsLoop r want cutoff fuel cache [(candidate, r.parents candidate)] with
    | .error e => .error e
    | .ok cache => .ok (containsTest r want cutoff cache candidate)
  | out => .ok out

/-- `contains_tag_algo` for one candidate after another with one cache. -/
def containsTagAlgoAll (r : Repository α) (want : List α) (fuel : Nat) :
    (α → ContainsResult) → List α → Except Halt (List ContainsResult)
  | _, [] => .ok []
  | cache, candidate :: candidates =>
    match containsTagAlgo r want fuel cache candidate with
    | .error e => .error e
    | .ok (answer, cache) =>
      match containsTagAlgoAll r want fuel cache candidates with
      | .error e => .error e
      | .ok answers => .ok (answer :: answers)

/-! ## Answers are final -/

variable {r : Repository α} {want : List α} {cutoff fuel : Nat}

/-- The commit reaches one of the wanted ones. -/
def ReachesAny (r : Repository α) (want : List α) (x : α) : Prop := ∃ w ∈ want, r.Reaches x w

/-- An answer that is given is right. -/
def RightAnswer (r : Repository α) (want : List α) (x : α) (answer : ContainsResult) : Prop :=
  (answer = .yes → ReachesAny r want x) ∧ (answer = .no → ¬ ReachesAny r want x)

omit [DecidableEq α] in
/-- A commit that is not wanted reaches what its parents reach. -/
theorem reachesAny_iff {x : α} (hx : x ∉ want) :
    ReachesAny r want x ↔ ∃ p ∈ r.parents x, ReachesAny r want p := by
  constructor
  · rintro ⟨w, hw, hreach⟩
    rcases Relation.ReflTransGen.cases_head hreach with rfl | ⟨p, hp, hreach⟩
    · exact absurd hw hx
    · exact ⟨p, hp, w, hw, hreach⟩
  · rintro ⟨p, hp, w, hw, hreach⟩
    exact ⟨w, hw, (History.Reaches.parent hp).trans hreach⟩

/-- What `contains_test` can do. -/
theorem containsTest_cases (hcutoff : ∀ w ∈ want, cutoff ≤ r.generation w)
    {cache : α → ContainsResult} (hcache : ∀ x, RightAnswer r want x (cache x)) (p : α) :
    (∃ cache', containsTest r want cutoff cache p = (.yes, cache') ∧ ReachesAny r want p ∧
        (cache' = cache ∨ p ∈ want ∧ cache' = update cache p .yes)) ∨
      containsTest r want cutoff cache p = (.no, cache) ∧ ¬ ReachesAny r want p ∨
      containsTest r want cutoff cache p = (.unknown, cache) ∧ cache p = .unknown ∧ p ∉ want := by
  unfold containsTest
  split
  · rename_i hknown
    cases hp : cache p with
    | unknown => exact absurd hp hknown
    | no => exact .inr (.inl ⟨rfl, (hcache p).2 hp⟩)
    | yes => exact .inl ⟨cache, rfl, (hcache p).1 hp, .inl rfl⟩
  rename_i hknown
  by_cases hwant : p ∈ want
  · rw [if_pos (contains_iff_mem.mpr hwant)]
    exact .inl ⟨_, rfl, ⟨p, hwant, .refl p⟩, .inr ⟨hwant, rfl⟩⟩
  rw [if_neg (fun h => hwant (contains_iff_mem.mp h))]
  split_ifs with hgen
  · refine .inr (.inl ⟨rfl, ?_⟩)
    rintro ⟨w, hw, hreach⟩
    have h₁ := generation_le_of_reaches hreach
    have h₂ := hcutoff w hw
    omega
  · exact .inr (.inr ⟨rfl, not_not.mp hknown, hwant⟩)

/-! ## The loop -/

/-- What holds around the loop for a candidate. -/
structure ContainsInv (r : Repository α) (want : List α) (candidate : α)
    (cache : α → ContainsResult) (stack : List (α × List α)) : Prop where
  right : ∀ x, RightAnswer r want x (cache x)
  /-- A commit on the stack has no answer, and its parents before the ones left reach nothing. -/
  open_entry : ∀ e ∈ stack, cache e.1 = .unknown ∧ e.1 ∉ want ∧
    ∃ asked, r.parents e.1 = asked ++ e.2 ∧ ∀ p ∈ asked, ¬ ReachesAny r want p
  chain : stack.Pairwise fun a b => r.Ancestor b.1 a.1
  candidate_known : cache candidate ≠ .unknown ∨ candidate ∈ stack.map Prod.fst

section Loop

variable {candidate commit : α} {cache : α → ContainsResult} {stack : List (α × List α)}
  {parents : List α} {p : α}

section

variable (h : ContainsInv r want candidate cache ((commit, parents) :: stack))

include h

omit [DecidableEq α] in
/-- A commit on the stack is there once. -/
theorem ContainsInv.top_ne {e : α × List α} (he : e ∈ stack) : e.1 ≠ commit := by
  intro heq
  have habove := rel_of_pairwise_cons h.chain he
  rw [heq] at habove
  exact habove.irrefl

omit [DecidableEq α] in
/-- A parent of the commit on top is not on the stack. -/
theorem ContainsInv.parent_not_mem
    (hp : p ∈ r.parents commit) : p ∉ ((commit, parents) :: stack).map Prod.fst := by
  intro hmem
  obtain ⟨e, he, rfl⟩ := mem_map.mp hmem
  rcases mem_cons.mp he with rfl | he
  · exact not_mem_parents _ hp
  · exact ((rel_of_pairwise_cons h.chain he).trans_reaches (.parent hp)).irrefl

/-- The commit on top gets its answer and leaves the stack. -/
theorem ContainsInv.pop {answer : ContainsResult} (hknown : answer ≠ .unknown)
    (hright : RightAnswer r want commit answer) :
    ContainsInv r want candidate (update cache commit answer) stack := by
  refine ⟨fun x => ?_, fun e he => ?_, h.chain.of_cons, ?_⟩
  · by_cases hx : x = commit
    · rw [hx, update_self]
      exact hright
    · rw [update_of_ne hx]
      exact h.right x
  · rw [update_of_ne (h.top_ne he)]
    exact h.open_entry e (mem_cons_of_mem _ he)
  · by_cases hc : candidate = commit
    · left
      rw [hc, update_self]
      exact hknown
    · rw [update_of_ne hc]
      refine h.candidate_known.imp_right fun hmem => ?_
      exact (mem_cons.mp hmem).resolve_left hc

end

/-- A wanted commit that was asked is put in the cache. -/
theorem ContainsInv.cacheYes (h : ContainsInv r want candidate cache stack)
    (hp : p ∈ want) : ContainsInv r want candidate (update cache p .yes) stack := by
  refine ⟨fun x => ?_, fun e he => ?_, h.chain, ?_⟩
  · by_cases hx : x = p
    · rw [hx, update_self]
      exact ⟨fun _ => ⟨p, hp, .refl p⟩, fun hno => by cases hno⟩
    · rw [update_of_ne hx]
      exact h.right x
  · obtain ⟨hunknown, hnot, hasked⟩ := h.open_entry e he
    grind
  · by_cases hc : candidate = p
    · grind
    · rw [update_of_ne hc]
      exact h.candidate_known

section

variable (h : ContainsInv r want candidate cache ((commit, p :: parents) :: stack))

include h

omit [DecidableEq α] in
/-- The next parent of the commit on top reaches nothing. -/
theorem ContainsInv.next (hp : ¬ ReachesAny r want p) :
    ContainsInv r want candidate cache ((commit, parents) :: stack) := by
  refine ⟨h.right, fun e he => ?_, ?_, h.candidate_known⟩
  · rcases mem_cons.mp he with rfl | he
    · obtain ⟨hunknown, hnot, asked, happ, hasked⟩ := h.open_entry _ mem_cons_self
      exact ⟨hunknown, hnot, asked ++ [p], by simpa using happ,
        forall_mem_append.mpr ⟨hasked, forall_mem_singleton.mpr hp⟩⟩
    · exact h.open_entry e (mem_cons_of_mem _ he)
  · exact pairwise_cons.mpr (pairwise_cons.mp h.chain)

omit [DecidableEq α] in
/-- The next parent of the commit on top has to be asked. -/
theorem ContainsInv.push
    (hunknown : cache p = .unknown) (hnot : p ∉ want) (hp : p ∈ r.parents commit) :
    ContainsInv r want candidate cache
      ((p, r.parents p) :: (commit, p :: parents) :: stack) := by
  refine ⟨h.right, fun e he => ?_, pairwise_cons.mpr ⟨fun e he => ?_, h.chain⟩, ?_⟩
  · rcases mem_cons.mp he with rfl | he
    · exact ⟨hunknown, hnot, [], rfl, fun q hq => nomatch hq⟩
    · exact h.open_entry e he
  · rcases mem_cons.mp he with rfl | he
    · exact .parent hp
    · exact (rel_of_pairwise_cons h.chain he).trans_reaches (.parent hp)
  · exact h.candidate_known.imp_right (mem_cons_of_mem _)

/-- What a commit may still cost the loop: one round to push it, one for each parent and one to pop
it. -/
def containsCost (r : Repository α) (cache : α → ContainsResult) (stack : List (α × List α))
    (x : α) : Nat :=
  if cache x ≠ .unknown ∨ x ∈ stack.map Prod.fst then 0 else (r.parents x).length + 2

/-- The rounds that the entries of the stack may take. -/
def stackCost (stack : List (α × List α)) : Nat := (stack.map fun e => e.2.length + 1).sum

omit [DecidableEq α] in
/-- The remaining parents of the commit on top are parents of it. -/
theorem ContainsInv.mem_parents : p ∈ r.parents commit := by
  obtain ⟨-, -, asked, happ, -⟩ := h.open_entry _ mem_cons_self
  simp [happ]

end

/-- Giving the commit on top its answer costs nothing. -/
theorem containsCost_pop (answer : ContainsResult) (hknown : answer ≠ .unknown) (x : α) :
    containsCost r (update cache commit answer) stack x ≤
      containsCost r cache ((commit, parents) :: stack) x := by
  unfold containsCost
  grind

/-- Putting a commit in the cache costs nothing. -/
theorem containsCost_cacheYes (x : α) :
    containsCost r (update cache p .yes) stack x ≤ containsCost r cache stack x := by
  unfold containsCost
  grind

/-- A commit that is pushed pays for its rounds. -/
theorem sum_containsCost_push [Fintype α] (hunknown : cache p = .unknown)
    (hoff : p ∉ stack.map Prod.fst) :
    (∑ x, containsCost r cache ((p, r.parents p) :: stack) x) + ((r.parents p).length + 2) ≤
      ∑ x, containsCost r cache stack x := by
  apply sum_add_le_sum (c := p)
  · have hzero : containsCost r cache ((p, r.parents p) :: stack) p = 0 := if_pos (.inr (by simp))
    have hfull : containsCost r cache stack p = (r.parents p).length + 2 :=
      if_neg (not_or.mpr ⟨not_not.mpr hunknown, hoff⟩)
    rw [hzero, hfull, Nat.zero_add]
  · intro x hx
    exact (if_congr (by simp [hx]) rfl rfl).le

omit [DecidableEq α] in
/-- A commit whose parents have all been asked reaches nothing. -/
theorem ContainsInv.right_no (h : ContainsInv r want candidate cache ((commit, []) :: stack)) :
    RightAnswer r want commit .no := by
  refine ⟨fun hyes => ContainsResult.noConfusion hyes, fun _ => ?_⟩
  obtain ⟨-, hnot, asked, happ, hasked⟩ := h.open_entry _ mem_cons_self
  rw [reachesAny_iff hnot]
  grind

/-- **The loop ends**, and the candidate has its answer. -/
theorem containsLoop_spec [Fintype α] (hcutoff : ∀ w ∈ want, cutoff ≤ r.generation w) (fuel : Nat)
    (cache : α → ContainsResult) (stack : List (α × List α))
    (h : ContainsInv r want candidate cache stack)
    (hfuel : (∑ x, containsCost r cache stack x) + stackCost stack < fuel) :
    ∃ cache', containsLoop r want cutoff fuel cache stack = .ok cache' ∧
      ContainsInv r want candidate cache' [] := by
  induction fuel generalizing cache stack with
  | zero => omega
  | succ fuel ih =>
    match stack with
    | [] => exact ⟨cache, rfl, h⟩
    | (commit, []) :: stack =>
      refine ih _ stack (h.pop (by simp) h.right_no) ?_
      have hle : ∑ x, containsCost r (update cache commit .no) stack x ≤
          ∑ x, containsCost r cache ((commit, []) :: stack) x :=
        Finset.sum_le_sum fun x _ => containsCost_pop .no (by simp) x
      simp only [stackCost, map_cons, sum_cons, length_nil] at hfuel ⊢
      omega
    | (commit, p :: parents) :: stack =>
      have hp := h.mem_parents
      unfold containsLoop
      rcases containsTest_cases hcutoff h.right p with ⟨cache', htest, ⟨w, hw, hreach⟩, hcache'⟩ |
        ⟨htest, hnot⟩ | ⟨htest, hunknown, hnot⟩
      · -- a parent reaches a wanted commit, so the commit on top does
        obtain ⟨hinv', hcost⟩ : ContainsInv r want candidate cache' ((commit, p :: parents) :: stack) ∧
            ∀ x, containsCost r cache' ((commit, p :: parents) :: stack) x ≤
              containsCost r cache ((commit, p :: parents) :: stack) x := by
          rcases hcache' with rfl | ⟨hwant, rfl⟩
          · exact ⟨h, fun _ => le_rfl⟩
          · exact ⟨h.cacheYes hwant, containsCost_cacheYes⟩
        have hright : RightAnswer r want commit .yes :=
          ⟨fun _ => ⟨w, hw, (History.Reaches.parent hp).trans hreach⟩, fun hno => by cases hno⟩
        rw [htest]
        refine ih _ stack (hinv'.pop (by simp) hright) ?_
        have hle : ∑ x, containsCost r (update cache' commit .yes) stack x ≤
            ∑ x, containsCost r cache ((commit, p :: parents) :: stack) x :=
          Finset.sum_le_sum fun x _ => (containsCost_pop .yes (by simp) x).trans (hcost x)
        simp only [stackCost, map_cons, sum_cons, length_cons] at hfuel ⊢
        omega
      · rw [htest]
        refine ih cache ((commit, parents) :: stack) (h.next hnot) ?_
        have hsame : ∀ x, containsCost r cache ((commit, parents) :: stack) x =
            containsCost r cache ((commit, p :: parents) :: stack) x := fun x => rfl
        simp only [hsame]
        simp only [stackCost, map_cons, sum_cons, length_cons] at hfuel ⊢
        omega
      · rw [htest]
        refine ih cache _ (h.push hunknown hnot hp) ?_
        have hdrop := sum_containsCost_push (r := r) hunknown (h.parent_not_mem hp)
        simp only [stackCost, map_cons, sum_cons, length_cons] at hfuel ⊢
        omega

end Loop

/-! ## All candidates -/

/-- The rounds that `contains_tag_algo` takes at most for one candidate. -/
def containsFuel [Fintype α] (r : Repository α) : Nat := (∑ x, ((r.parents x).length + 2)) + 1

/-- `contains_tag_algo` gives a right answer and keeps the cache right. -/
theorem containsTagAlgo_spec [Fintype α] (hfuel : containsFuel r ≤ fuel)
    {cache : α → ContainsResult} (hcache : ∀ x, RightAnswer r want x (cache x)) (candidate : α) :
    ∃ answer cache', containsTagAlgo r want fuel cache candidate = .ok (answer, cache') ∧
      (∀ x, RightAnswer r want x (cache' x)) ∧ answer ≠ .unknown ∧
      (answer = .yes ↔ ReachesAny r want candidate) := by
  have hcutoff : ∀ w ∈ want, minGenerationOf r generationNumberInfinity want ≤ r.generation w :=
    fun w hw => minGenerationOf_le_mem hw _
  -- a test that gives an answer gives a right one and keeps the cache right
  have hfinal : ∀ cache₁ : α → ContainsResult, (∀ x, RightAnswer r want x (cache₁ x)) →
      ∀ answer cache₂, containsTest r want (minGenerationOf r generationNumberInfinity want) cache₁
        candidate = (answer, cache₂) → answer ≠ .unknown →
      (∀ x, RightAnswer r want x (cache₂ x)) ∧ (answer = .yes ↔ ReachesAny r want candidate) := by
    intro cache₁ hcache₁ answer cache₂ htest hknown
    rcases containsTest_cases hcutoff hcache₁ candidate with ⟨cache', heq, hreach, hcache'⟩ |
      ⟨heq, hnot⟩ | ⟨heq, -⟩
    · rw [htest] at heq
      obtain ⟨rfl, rfl⟩ := Prod.mk.inj heq
      refine ⟨fun x => ?_, by simp [hreach]⟩
      rcases hcache' with rfl | ⟨hwant, rfl⟩
      · exact hcache₁ x
      by_cases hx : x = candidate
      · rw [hx, update_self]
        exact ⟨fun _ => hreach, fun hno => ContainsResult.noConfusion hno⟩
      · rw [update_of_ne hx]
        exact hcache₁ x
    · rw [htest] at heq
      obtain ⟨rfl, rfl⟩ := Prod.mk.inj heq
      exact ⟨hcache₁, by simp [hnot]⟩
    grind
  unfold containsTagAlgo
  dsimp only
  rcases htest : containsTest r want (minGenerationOf r generationNumberInfinity want) cache
    candidate with ⟨answer, cache₁⟩
  by_cases hknown : answer = .unknown
  · subst hknown
    rcases containsTest_cases hcutoff hcache candidate with ⟨_, heq, -⟩ | ⟨heq, -⟩ |
      ⟨heq, hunknown, hnot⟩
    · rw [htest] at heq
      cases (Prod.mk.inj heq).1
    · rw [htest] at heq
      cases (Prod.mk.inj heq).1
    rw [htest] at heq
    obtain ⟨-, rfl⟩ := Prod.mk.inj heq
    have hstart : ContainsInv r want candidate cache₁ [(candidate, r.parents candidate)] := by
      refine ⟨hcache, fun e he => ?_, pairwise_singleton _ _, .inr (by simp)⟩
      rw [mem_singleton.mp he]
      exact ⟨hunknown, hnot, [], rfl, fun p hp => nomatch hp⟩
    have hcost : (∑ x, containsCost r cache₁ [(candidate, r.parents candidate)] x) +
        ((r.parents candidate).length + 2) ≤ ∑ x, ((r.parents x).length + 2) := by
      apply sum_add_le_sum (c := candidate)
      · simp [containsCost]
      intro x _
      unfold containsCost
      split <;> omega
    obtain ⟨cache₂, hloop, hinv⟩ := containsLoop_spec hcutoff fuel _ _ hstart (by
      unfold containsFuel at hfuel
      simp only [stackCost, map_cons, map_nil, sum_cons, sum_nil]
      omega)
    have hcandidate : cache₂ candidate ≠ .unknown := by
      simpa using hinv.candidate_known
    refine ⟨cache₂ candidate, cache₂, ?_, hinv.right, hcandidate, ?_⟩
    · simp only [hloop]
      unfold containsTest
      rw [if_pos hcandidate]
    · exact (hfinal cache₂ hinv.right (cache₂ candidate) cache₂ (by
        unfold containsTest
        rw [if_pos hcandidate]) hcandidate).2
  · obtain ⟨hright, hiff⟩ := hfinal cache hcache answer cache₁ htest hknown
    grind

/-- A run of `contains_tag_algo` over candidates with one cache gives right answers. -/
theorem containsTagAlgoAll_spec [Fintype α] (hfuel : containsFuel r ≤ fuel)
    (candidates : List α) (cache : α → ContainsResult)
    (hcache : ∀ x, RightAnswer r want x (cache x)) :
    ∃ answers, containsTagAlgoAll r want fuel cache candidates = .ok answers ∧
      List.Forall₂ (fun c answer => answer ≠ .unknown ∧
        (answer = .yes ↔ ReachesAny r want c)) candidates answers := by
  induction candidates generalizing cache with
  | nil => exact ⟨[], rfl, .nil⟩
  | cons c candidates ih =>
    obtain ⟨answer, cache', halgo, hcache', hknown, hiff⟩ := containsTagAlgo_spec hfuel hcache c
    obtain ⟨answers, hall, hright⟩ := ih cache' hcache'
    exact ⟨answer :: answers, by simp only [containsTagAlgoAll, halgo, hall],
      .cons ⟨hknown, hiff⟩ hright⟩

/-- **All reachability queries agree with the history.** The two ways of `repo_is_descendant_of`
give the same answer for a list that is not empty, `repo_is_descendant_of` itself is also true for
an empty list, and `contains_tag_algo` with a shared cache answers every candidate by whether it
reaches one of the wanted commits. -/
theorem reachability_queries_agree [Fintype α] (r : Repository α) (qsort : r.GenSort) :
    ∃ bound, ∀ fuel, bound ≤ fuel → ∀ (c : α) (withCommit : List α),
      (∃ answer, repoIsDescendantOf r qsort fuel unmarked c withCommit = .ok (unmarked, answer) ∧
        (answer = true ↔ withCommit = [] ∨ ReachesAny r withCommit c)) ∧
      (∃ answer, canAllFromReach r qsort fuel unmarked [c] withCommit false =
          .ok (unmarked, answer) ∧
        descendantLoop r fuel c unmarked withCommit = .ok (unmarked, answer) ∧
        (answer = true ↔ ReachesAny r withCommit c)) ∧
      ∀ candidates, ∃ answers,
        containsTagAlgoAll r withCommit fuel (fun _ => .unknown) candidates = .ok answers ∧
        List.Forall₂ (fun x answer => answer ≠ .unknown ∧
          (answer = .yes ↔ ReachesAny r withCommit x)) candidates answers := by
  refine ⟨walkFuel r 1 + containsFuel r, fun fuel hfuel c withCommit => ⟨?_, ?_, ?_⟩⟩
  · exact repoIsDescendantOf_spec r qsort (by omega) c withCommit
  · have hwalkFuel : walkFuel r 1 ≤ fuel := by omega
    obtain ⟨hsearchFuel, hclearFuel, -⟩ := walkFuel_bounds hwalkFuel
    obtain ⟨answer, hsearch, hanswer⟩ :=
      canAllFromReach_spec r qsort hsearchFuel hclearFuel c withCommit
    obtain ⟨answer', hpaint, hanswer'⟩ := descendantLoop_spec hwalkFuel c withCommit
    have hsame : answer' = answer := by
      rw [Bool.eq_iff_iff, hanswer, hanswer']
    exact ⟨answer, hsearch, hsame ▸ hpaint, hanswer⟩
  · intro candidates
    exact containsTagAlgoAll_spec (by omega) candidates _ fun x =>
      ⟨fun hyes => ContainsResult.noConfusion hyes, fun hno => ContainsResult.noConfusion hno⟩

/-- With nothing wanted, `repo_is_descendant_of` says yes and `contains_tag_algo` says no. -/
theorem reachability_queries_empty :
    repoIsDescendantOf forkRepository (.merge _) 20 unmarked 1 [] = .ok (unmarked, true) ∧
      containsTagAlgoAll forkRepository [] 20 (fun _ => .unknown) [1] = .ok [.no] :=
  ⟨rfl, by decide⟩

end GitCore.Commit
