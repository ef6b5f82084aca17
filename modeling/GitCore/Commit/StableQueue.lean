import GitCore.Commit.PrioQueue

/-! # The priority queue over whole runs

Read as the list of its things in the order they were put in, a `prio_queue` is stable: a `get`
takes out the first of the smallest things, and a `replace` is a `get` followed by a `put`. Without
a comparison it is a stack. Both hold for every sequence of calls, by simulation of that list. The
counters are plain numbers, as the `size_t` ones are until they wrap around. -/

namespace GitCore.Commit.StableQueue

open List BinaryHeap PrioQueue

variable {α : Type}

/-! ## The calls -/

/-- A call on a queue. -/
inductive Op (α : Type)
  /-- `prio_queue_put` -/
  | put (thing : α)
  /-- `prio_queue_get` -/
  | get
  /-- `prio_queue_replace` -/
  | replace (thing : α)

/-- What the calls return, one after the other. -/
def run {σ : Type} (step : σ → Op α → Option α × σ) : σ → List (Op α) → List (Option α)
  | _, [] => []
  | s, op :: ops => (step s op).1 :: run step (step s op).2 ops

/-- What a call may return and leave, if a queue is the list of its things in the order they were
put in and `take` says which one comes out. -/
inductive Step (take : List α → α → List α → Prop) : List α → Op α → Option α → List α → Prop
  | put (l : List α) (x : α) : Step take l (.put x) none (l ++ [x])
  | getNone : Step take [] .get none []
  | get {l l' : List α} {x : α} (h : take l x l') : Step take l .get (some x) l'
  | replace {l l' : List α} {out : Option α} (x : α) (h : Step take l .get out l') :
    Step take l (.replace x) none (l' ++ [x])

/-- What a sequence of calls may return. -/
inductive Run (take : List α → α → List α → Prop) : List α → List (Op α) → List (Option α) → Prop
  | nil (l : List α) : Run take l [] []
  | cons {l l' : List α} {op : Op α} {out : Option α} {ops : List (Op α)} {outs : List (Option α)}
    (hstep : Step take l op out l') (hrun : Run take l' ops outs) :
    Run take l (op :: ops) (out :: outs)

/-- The first of the smallest things comes out. -/
def TakesFirst (cmp : α → α → Ordering) (l : List α) (x : α) (l' : List α) : Prop :=
  ∃ before after, l = before ++ x :: after ∧ l' = before ++ after ∧
    (∀ y ∈ before, cmp x y = .lt) ∧ ∀ y ∈ after, (cmp x y).isLE

/-- The thing put in last comes out. -/
def TakesLast (l : List α) (x : α) (l' : List α) : Prop := l = l' ++ [x]

/-- If every call does what it may, every sequence of calls does. -/
theorem Run.of_step {σ : Type} {take : List α → α → List α → Prop}
    {step : σ → Op α → Option α × σ} {holds : σ → List α → Prop}
    (hstep : ∀ s l op, holds s l → ∃ l', Step take l op (step s op).1 l' ∧ holds (step s op).2 l')
    (ops : List (Op α)) {s : σ} {l : List α} (h : holds s l) : Run take l ops (run step s ops) := by
  induction ops generalizing s l with
  | nil => exact .nil l
  | cons op ops ih =>
    obtain ⟨l', hone, hnext⟩ := hstep s l op h
    exact .cons hone (ih hnext)

/-! ## Entries with counters -/

/-- The entries, sorted by their counters, which are below `ctr`, carry the things. -/
def Holds (entries : List (Nat × α)) (ctr : Nat) (l : List α) : Prop :=
  ∃ sorted, entries.Perm sorted ∧ sorted.Pairwise (fun a b => a.1 < b.1) ∧
    (∀ e ∈ sorted, e.1 < ctr) ∧ sorted.map Prod.snd = l

section Entries

variable {cmp : α → α → Ordering} {entries entries' : List (Nat × α)} {ctr : Nat} {l : List α}

theorem Holds.perm (h : Holds entries ctr l) (hperm : entries'.Perm entries) :
    Holds entries' ctr l := by
  obtain ⟨sorted, hsorted, hrest⟩ := h
  exact ⟨sorted, hperm.trans hsorted, hrest⟩

/-- A new entry gets the last place. -/
theorem Holds.add (h : Holds entries ctr l) (x : α) :
    Holds ((ctr, x) :: entries) (ctr + 1) (l ++ [x]) := by
  obtain ⟨sorted, hperm, hasc, hctr, rfl⟩ := h
  refine ⟨sorted ++ [(ctr, x)], ?_, ?_, ?_, by simp⟩
  · exact (hperm.cons _).trans (perm_append_singleton _ _).symm
  · exact pairwise_append.mpr ⟨hasc, pairwise_singleton _ _, by simpa using hctr⟩
  grind

/-- An entry put in later that comes first has a smaller thing. -/
theorem lt_of_entryLe {a b : Nat × α} (h : EntryLe cmp a b) (hctr : b.1 < a.1) :
    cmp a.2 b.2 = .lt := by
  change ((cmp a.2 b.2).then (compare a.1 b.1)).isLE at h
  rw [compare_gt_iff_gt.mpr hctr] at h
  revert h
  cases cmp a.2 b.2 <;> simp

/-- **An entry that comes before all others carries the first of the smallest things.** -/
theorem Holds.takesFirst {e : Nat × α} (h : Holds (e :: entries) ctr l)
    (hle : ∀ y ∈ e :: entries, EntryLe cmp e y) :
    ∃ l', TakesFirst cmp l e.2 l' ∧ Holds entries ctr l' := by
  obtain ⟨sorted, hperm, hasc, hctr, rfl⟩ := h
  obtain ⟨before, after, rfl⟩ := append_of_mem (hperm.mem_iff.mp mem_cons_self)
  have hsub : (before ++ after).Sublist (before ++ e :: after) := by simp
  refine ⟨(before ++ after).map Prod.snd,
    ⟨before.map Prod.snd, after.map Prod.snd, by simp, by simp, ?_, ?_⟩, before ++ after,
    (hperm.trans perm_middle).cons_inv, hasc.sublist hsub, fun y hy => hctr y (hsub.subset hy), rfl⟩
  · rw [forall_mem_map]
    intro y hy
    -- an entry before `e` has a smaller counter, so it is the thing that decides
    have hbefore := (pairwise_append.mp hasc).2.2 y hy e mem_cons_self
    exact lt_of_entryLe (hle y (hperm.mem_iff.mpr (mem_append_left _ hy))) hbefore
  · rw [forall_mem_map]
    intro y hy
    exact (hle y (hperm.mem_iff.mpr (mem_append_right _ (mem_cons_of_mem _ hy)))).data

end Entries

/-! ## A queue with a comparison -/

section Compare

variable {cmp : α → α → Ordering} [Std.TransCmp cmp]

/-- The array after `prio_queue_replace` overwrote its root. -/
def replaceArray (cmp : α → α → Ordering) (a : Array (Nat × α)) (e : Nat × α) : Array (Nat × α) :=
  siftDown (siftPick cmp) a.size (a.setIfInBounds 0 e) 0

/-- Overwriting the root leaves the array in order. -/
theorem replaceArray_ordered {a : Array (Nat × α)} (h : Ordered (EntryLe cmp) a) (e : Nat × α) :
    Ordered (EntryLe cmp) (replaceArray cmp a e) := by
  refine siftDown_ordered siftPick_spec _ _ _ (by simp) (h.changeRoot fun i y hi hy => ?_)
  rwa [Array.getElem?_setIfInBounds_ne (Ne.symm hi)] at hy

/-- `prio_queue_replace` -/
def replace (q : PrioQueue cmp) (thing : α) : PrioQueue cmp :=
  if q.array.size = 0 then q.put thing
  else
    { array := replaceArray cmp q.array (q.insertionCtr, thing)
      insertionCtr := q.insertionCtr + 1
      ordered := replaceArray_ordered q.ordered _ }

/-- A call on a queue with a comparison. -/
def step (q : PrioQueue cmp) : Op α → Option α × PrioQueue cmp
  | .put x => (none, q.put x)
  | .get => match q.get with
    | none => (none, q)
    | some (x, q') => (some x, q')
  | .replace x => (none, replace q x)

/-- Every call on a queue with a comparison does what it may. -/
theorem step_spec (q : PrioQueue cmp) (l : List α) (op : Op α)
    (h : Holds q.array.toList q.insertionCtr l) :
    ∃ l', Step (TakesFirst cmp) l op (step q op).1 l' ∧
      Holds (step q op).2.array.toList (step q op).2.insertionCtr l' := by
  have hput : ∀ x, Holds (q.put x).array.toList (q.insertionCtr + 1) (l ++ [x]) := by
    intro x
    refine (h.add x).perm ((siftUp_perm _ _ _ _).trans ?_)
    rw [Array.toList_push]
    exact perm_append_singleton _ _
  obtain ⟨⟨_ | ⟨e, entries⟩⟩, ctr, hord⟩ := q
  · obtain rfl : l = [] := by
      obtain ⟨sorted, hperm, -, -, rfl⟩ := h
      rw [nil_perm.mp hperm, map_nil]
    cases op with
    | put x => exact ⟨_, .put _ x, hput x⟩
    | get => exact ⟨_, .getNone, h⟩
    | replace x => exact ⟨_, .replace x .getNone, hput x⟩
  · obtain ⟨l', htake, hrest⟩ := h.takesFirst fun y hy => hord.root rfl hy
    cases op with
    | put x => exact ⟨_, .put _ x, hput x⟩
    | get => exact ⟨l', .get htake, hrest.perm (getArray_spec hord rfl).2.cons_inv.symm⟩
    | replace x => exact ⟨_, .replace x (.get htake), (hrest.add x).perm (siftDown_perm _ _ _ _)⟩

end Compare

/-! ## A queue without a comparison -/

/-- `struct prio_queue` with a `compare` that is NULL. -/
structure LifoQueue (α : Type) where
  /-- The entries, each with the counter it got when it was put in. -/
  array : Array (Nat × α) := #[]
  /-- `insertion_ctr` -/
  insertionCtr : Nat := 0

/-- A call on a queue without a comparison: the three functions work on the last slot. -/
def lifoStep (q : LifoQueue α) : Op α → Option α × LifoQueue α
  | .put x => (none, ⟨q.array.push (q.insertionCtr, x), q.insertionCtr + 1⟩)
  | .get => match q.array.back? with
    | none => (none, q)
    | some e => (some e.2, ⟨q.array.pop, q.insertionCtr⟩)
  | .replace x =>
    (none,
      ⟨if q.array.size = 0 then q.array.push (q.insertionCtr, x)
        else q.array.setIfInBounds (q.array.size - 1) (q.insertionCtr, x), q.insertionCtr + 1⟩)

/-- Every call on a queue without a comparison does what it may. -/
theorem lifoStep_spec (q : LifoQueue α) (l : List α) (op : Op α)
    (h : q.array.toList.map Prod.snd = l) :
    ∃ l', Step TakesLast l op (lifoStep q op).1 l' ∧
      (lifoStep q op).2.array.toList.map Prod.snd = l' := by
  obtain ⟨⟨entries⟩, ctr⟩ := q
  subst h
  rcases eq_nil_or_concat' entries with rfl | ⟨entries, e, rfl⟩
  · cases op with
    | put x => exact ⟨_, .put _ x, rfl⟩
    | get => exact ⟨_, .getNone, rfl⟩
    | replace x => exact ⟨_, .replace x .getNone, rfl⟩
  have htake : TakesLast ((entries ++ [e]).map Prod.snd) e.2 (entries.map Prod.snd) := by
    rw [TakesLast, map_append, map_singleton]
  have hback : (⟨entries ++ [e]⟩ : Array (Nat × α)).back? = some e := by simp
  cases op with
  | put x => exact ⟨_, .put _ x, by simp [lifoStep]⟩
  | get =>
    simp only [lifoStep, hback]
    exact ⟨_, .get htake, by simp⟩
  | replace x => exact ⟨_, .replace x (.get htake), by simp [lifoStep]⟩

/-- **`prio_queue` is a stable queue.** Over every sequence of calls on an empty queue, a `get`
returns the first of the smallest things in it, or the last one put in if there is no comparison,
and a `replace` does the same as a `get` followed by a `put`. -/
theorem prioQueue_stable (cmp : α → α → Ordering) [Std.TransCmp cmp] (ops : List (Op α)) :
    Run (TakesFirst cmp) [] ops (run step (PrioQueue.empty cmp) ops) ∧
      Run TakesLast [] ops (run lifoStep {} ops) :=
  ⟨.of_step step_spec ops ⟨[], .refl _, .nil, by simp, rfl⟩, .of_step lifoStep_spec ops rfl⟩

theorem prioQueue_stable_tie :
    Run (TakesFirst (compareOn (· / 10))) [] [.put 12, .put 11, .get] [none, none, some 12] :=
  (prioQueue_stable (compareOn (· / 10)) [.put 12, .put 11, .get]).1

end GitCore.Commit.StableQueue
