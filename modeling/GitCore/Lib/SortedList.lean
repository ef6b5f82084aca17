import Mathlib.Data.List.Sort
import Mathlib.Data.List.GetD
import Mathlib.Data.List.TakeWhile

/-! # Sorted lists

The greatest value in a list, dropping repeated keys from a sorted list, the initial segment that a
predicate cuts off, and tables of records of a fixed width. -/

namespace GitCore

open List

universe u v

variable {α : Type u} {κ : Type v}

/-! ## The greatest value -/

/-- A loop that keeps the greatest of the values it has seen. -/
theorem foldl_greatest [LinearOrder κ] (f : α → κ) (l : List α) (m : κ) :
    m ≤ l.foldl (fun m a => if m < f a then f a else m) m ∧
      (∀ a ∈ l, f a ≤ l.foldl (fun m a => if m < f a then f a else m) m) ∧
      (l.foldl (fun m a => if m < f a then f a else m) m = m ∨
        ∃ a ∈ l, f a = l.foldl (fun m a => if m < f a then f a else m) m) := by
  induction l generalizing m with
  | nil => simp
  | cons a l ih =>
    have := ih (if m < f a then f a else m)
    grind

/-! ## The first of each key -/

section FirstOfEach

variable [DecidableEq κ] (key : α → κ) {l : List α}

/-- The elements whose key is not the key of the element before. -/
def firstOfEach : Option κ → List α → List α
  | _, [] => []
  | before, a :: l =>
    if before = some (key a) then firstOfEach (some (key a)) l
    else a :: firstOfEach (some (key a)) l

theorem firstOfEach_sublist (before : Option κ) (l : List α) :
    (firstOfEach key before l).Sublist l := by
  fun_induction firstOfEach key before l with
  | case1 => exact .slnil
  | case2 a _ ih => exact ih.cons a
  | case3 _ a _ _ ih => exact ih.cons_cons a

/-- An element that no other one of its key comes before is kept. -/
theorem mem_firstOfEach {before : Option κ} {m : α} {l₁ : List α} (l₂ : List α)
    (h : ∀ b ∈ l₁, key b ≠ key m) (hbefore : before ≠ some (key m)) :
    m ∈ firstOfEach key before (l₁ ++ m :: l₂) := by
  induction l₁ generalizing before with
  | nil =>
    rw [nil_append, firstOfEach, if_neg hbefore]
    exact mem_cons_self
  | cons b l₁ ih =>
    obtain ⟨hb, h⟩ := forall_mem_cons.mp h
    have hrest := ih h (fun heq => hb (Option.some.inj heq))
    rw [cons_append, firstOfEach]
    grind

variable {key} [LinearOrder κ]

/-- **The kept elements** have ascending keys. -/
theorem firstOfEach_pairwise (hl : l.Pairwise fun a b => key a ≤ key b) {before : Option κ}
    (hbefore : ∀ k ∈ before, ∀ a ∈ l, k ≤ key a) :
    (firstOfEach key before l).Pairwise (fun a b => key a < key b) ∧
      ∀ e ∈ firstOfEach key before l, ∀ k ∈ before, k < key e := by
  induction l generalizing before with
  | nil => exact ⟨.nil, nofun⟩
  | cons b l ih =>
    obtain ⟨hb, hl⟩ := pairwise_cons.mp hl
    obtain ⟨hpair, hbeyond⟩ := @ih hl (some (key b)) fun k hk a ha => Option.some.inj hk ▸ hb a ha
    have hrest : ∀ e ∈ firstOfEach key (some (key b)) l, key b < key e :=
      fun e he => hbeyond e he _ rfl
    have hhead : ∀ k ∈ before, k ≤ key b := fun k hk => hbefore k hk b mem_cons_self
    rw [firstOfEach]
    split
    · exact ⟨hpair, fun e he k hk => (hhead k hk).trans_lt (hrest e he)⟩
    rename_i hne
    refine ⟨pairwise_cons.mpr ⟨hrest, hpair⟩, fun e he k hk => ?_⟩
    rcases mem_cons.mp he with rfl | he
    · exact (hhead k hk).lt_of_ne fun heq => hne (heq ▸ hk)
    · exact (hhead k hk).trans_lt (hrest e he)

end FirstOfEach

/-! ## Sorting by a key

The relation that is sorted by may be any within a key, also one that is not transitive. -/

section SortByKey

variable [LinearOrder κ] {key : α → κ} {r : α → α → Prop} [DecidableRel r]
  (hgt : ∀ a b, key b < key a → ¬ r a b)

include hgt

/-- Only smaller keys are inserted before an element that is not behind the new one. -/
theorem exists_orderedInsert_eq {m a : α} (ha : key a = key m → ¬ r a m) {l₁ : List α} (l₂ : List α)
    (hl₁ : ∀ b ∈ l₁, key b < key m) :
    ∃ l₁' l₂', (l₁ ++ m :: l₂).orderedInsert r a = l₁' ++ m :: l₂' ∧ ∀ b ∈ l₁', key b < key m := by
  induction l₁ with
  | nil =>
    rw [nil_append, orderedInsert_cons]
    split_ifs with h
    · have hle : key a ≤ key m := not_lt.mp fun hma => hgt a m hma h
      exact ⟨[a], l₂, rfl, forall_mem_singleton.mpr (hle.lt_of_ne fun heq => ha heq h)⟩
    · exact ⟨[], _, rfl, nofun⟩
  | cons b l₁ ih =>
    obtain ⟨hb, htail⟩ := forall_mem_cons.mp hl₁
    rw [cons_append, orderedInsert_cons]
    split_ifs with h
    · have hle : key a ≤ key b := not_lt.mp fun hba => hgt a b hba h
      exact ⟨a :: b :: l₁, l₂, rfl, forall_mem_cons.mpr ⟨hle.trans_lt hb, hl₁⟩⟩
    · obtain ⟨l₁', l₂', heq, hl₁'⟩ := ih htail
      exact ⟨b :: l₁', l₂', by rw [heq, cons_append], forall_mem_cons.mpr ⟨hb, hl₁'⟩⟩

variable (hlt : ∀ a b, key a < key b → r a b)

include hlt

/-- The result is sorted by the key. -/
theorem pairwise_insertionSort_key (l : List α) :
    (l.insertionSort r).Pairwise fun a b => key a ≤ key b := by
  have hinsert : ∀ a (l : List α), l.Pairwise (fun a b => key a ≤ key b) →
      (l.orderedInsert r a).Pairwise fun a b => key a ≤ key b := by
    intro a l hl
    induction l with
    | nil => exact pairwise_singleton _ _
    | cons b l ih =>
      obtain ⟨hb, htail⟩ := pairwise_cons.mp hl
      rw [orderedInsert_cons]
      split_ifs with h
      · grind
      · refine pairwise_cons.mpr ⟨fun c hc => ?_, ih htail⟩
        rcases (mem_orderedInsert r).mp hc with rfl | hc
        · exact not_lt.mp fun hab => h (hlt c b hab)
        · exact hb c hc
  induction l with
  | nil => exact .nil
  | cons a l ih => exact hinsert a _ ih

/-- **An element that is not behind any other of its key** is the first of its key. -/
theorem exists_insertionSort_eq {m : α} {l₁ l₂ : List α} (hl₁ : ∀ a ∈ l₁, key a = key m → ¬ r a m)
    (hl₂ : ∀ b ∈ l₂, key b = key m → r m b) :
    ∃ l₁' l₂', (l₁ ++ m :: l₂).insertionSort r = l₁' ++ m :: l₂' ∧ ∀ b ∈ l₁', key b < key m := by
  induction l₁ with
  | nil =>
    refine ⟨_, _, orderedInsert_eq_take_drop r m _, fun b hb => ?_⟩
    have hnot : ¬ r m b := by simpa using mem_takeWhile_imp hb
    have hmem : b ∈ l₂ := (mem_insertionSort r).mp ((takeWhile_sublist _).subset hb)
    grind
  | cons a l₁ ih =>
    obtain ⟨ha, htail⟩ := forall_mem_cons.mp hl₁
    obtain ⟨l₁', l₂', heq, hl₁'⟩ := ih htail
    rw [cons_append, insertionSort_cons, heq]
    exact exists_orderedInsert_eq hgt ha l₂' hl₁'

end SortByKey

/-! ## Initial segments -/

/-- A predicate that holds on an initial segment only. -/
def Initial (p : α → Bool) (l : List α) : Prop := l.Pairwise fun a b => p b = true → p a = true

theorem Initial.tail {p : α → Bool} {a : α} {l : List α} (h : Initial p (a :: l)) : Initial p l :=
  (pairwise_cons.mp h).2

variable {l : List α} {p : α → Bool} {a : α}

/-- Beyond an element that fails nothing holds. -/
theorem Initial.forall_not (h : Initial p (a :: l)) (ha : p a = false) : ∀ b ∈ l, ¬ p b = true := by
  intro b hb hpb
  rw [(pairwise_cons.mp h).1 b hb hpb] at ha
  cases ha

/-- The segment is what the predicate keeps. -/
theorem Initial.takeWhile_eq (h : Initial p l) :
    l.takeWhile p = l.filter p ∧ l.dropWhile p = l.filter (fun a => !p a) := by
  induction l with
  | nil => exact ⟨rfl, rfl⟩
  | cons a l ih =>
    cases ha : p a with
    | true =>
      obtain ⟨htake, hdrop⟩ := ih h.tail
      rw [takeWhile_cons_of_pos ha, filter_cons_of_pos ha, htake, dropWhile_cons_of_pos ha,
        hdrop, filter_cons_of_neg (by simp [ha])]
      exact ⟨rfl, rfl⟩
    | false =>
      have hnone := h.forall_not ha
      rw [takeWhile_cons_of_neg (by simp [ha]), dropWhile_cons_of_neg (by simp [ha]),
        filter_cons_of_neg (by simp [ha]), filter_eq_nil_iff.mpr hnone]
      refine ⟨rfl, (filter_eq_self.mpr fun b hb => ?_).symm⟩
      grind

theorem Initial.filter_append (h : Initial p l) :
    l = l.filter p ++ l.filter (fun a => !p a) := by
  rw [← h.takeWhile_eq.1, ← h.takeWhile_eq.2, takeWhile_append_dropWhile]

/-- The segment is as long as the count. -/
theorem Initial.splitAt_countP (h : Initial p l) :
    l.take (l.countP p) = l.filter p ∧ l.drop (l.countP p) = l.filter (fun a => !p a) := by
  rw [countP_eq_length_filter]
  exact ⟨(congrArg (take _) h.filter_append).trans take_left,
    (congrArg (drop _) h.filter_append).trans drop_left⟩

/-- In an ascending list the keys below a bound are an initial segment. -/
theorem initial_lt {κ : Type*} [Preorder κ] [DecidableLT κ] {key : α → κ}
    (h : l.Pairwise fun a b => key a < key b) (k : κ) : Initial (fun a => decide (key a < k)) l :=
  h.imp fun hlt hb => decide_eq_true (hlt.trans (of_decide_eq_true hb))

variable {i : Nat}

/-- **A position is in the segment** if and only if the predicate holds there. -/
theorem Initial.lt_countP_iff (h : Initial p l) (ha : l[i]? = some a) :
    i < l.countP p ↔ p a = true := by
  obtain ⟨htake, hdrop⟩ := h.splitAt_countP
  constructor
  · intro hi
    have hmem : a ∈ l.take (l.countP p) :=
      mem_of_getElem? (by rw [getElem?_take_of_lt hi]; exact ha)
    rw [htake] at hmem
    exact (mem_filter.mp hmem).2
  · intro hpa
    by_contra hi
    have hmem : a ∈ l.drop (l.countP p) := by
      refine mem_of_getElem? (i := i - l.countP p) ?_
      grind
    grind

/-! ## Records of a fixed width -/

variable {width : Nat} {β : Type v} {f : α → List β}

section

variable (hwidth : ∀ a ∈ l, (f a).length = width)

include hwidth

theorem length_flatMap_of_width : (l.flatMap f).length = width * l.length := by
  induction l with
  | nil => rfl
  | cons a l ih =>
    rw [flatMap_cons, length_append, hwidth a mem_cons_self,
      ih (forall_mem_cons.mp hwidth).2, length_cons, Nat.mul_succ, Nat.add_comm]

/-- **A table of records**: the record at a position. -/
theorem drop_flatMap (ha : l[i]? = some a) :
    (l.flatMap f).drop (width * i) = f a ++ (l.drop (i + 1)).flatMap f := by
  induction l generalizing i with
  | nil => cases ha
  | cons b l ih =>
    rw [flatMap_cons]
    cases i with
    | zero =>
      obtain rfl : b = a := Option.some.inj ha
      rfl
    | succ i =>
      rw [Nat.mul_succ, Nat.add_comm, ← hwidth b mem_cons_self, drop_length_add_append,
        hwidth b mem_cons_self, ih (forall_mem_cons.mp hwidth).2 ha]
      rfl

theorem drop_flatMap_append (ha : l[i]? = some a) (rest : List β) :
    (l.flatMap f ++ rest).drop (width * i) = f a ++ ((l.drop (i + 1)).flatMap f ++ rest) := by
  obtain ⟨hi, -⟩ := List.getElem?_eq_some_iff.mp ha
  have hle : width * i ≤ (l.flatMap f).length := by
    rw [length_flatMap_of_width hwidth]
    exact Nat.mul_le_mul_left width hi.le
  rw [drop_append_of_le_length hle, drop_flatMap hwidth ha, append_assoc]

end

end GitCore
