import GitCore.Lib.PrefixOrder
import GitCore.Reftable.Writer

/-! # The objects that refs refer to

While refs are added, the writer collects the objects that they refer to, in the order of their ids.
The ids are abbreviated in the table to one byte more than any two of them have in common. -/

namespace GitCore.Reftable

open List Overlay

/-! ## The tree -/

section Tree

variable {off : UInt64} {hash key : Bytes} {tree : List (Bytes × List UInt64)}

theorem mem_keys_indexHash :
    key ∈ (indexHash off hash tree).map Prod.fst ↔ key = hash ∨ key ∈ tree.map Prod.fst := by
  induction tree with
  | nil => simp [indexHash]
  | cons entry tree ih =>
    rw [indexHash]
    split
    · simp
    split
    · rename_i heq
      subst heq
      simp
    · simp only [map_cons, mem_cons, ih]
      tauto

/-- The tree stays sorted. -/
theorem run_indexHash (off : UInt64) (hash : Bytes) (h : Run Prod.fst tree) :
    Run Prod.fst (indexHash off hash tree) := by
  induction tree with
  | nil => exact pairwise_singleton _ _
  | cons entry tree ih =>
    obtain ⟨key', offsets⟩ := entry
    obtain ⟨hhead, htail⟩ := pairwise_cons.mp h
    rw [indexHash]
    split
    · rename_i hlt
      refine pairwise_cons.mpr ⟨?_, h⟩
      exact forall_mem_cons.mpr ⟨hlt, fun entry hentry => hlt.trans (hhead entry hentry)⟩
    rename_i hle
    split
    · exact pairwise_cons.mpr ⟨hhead, htail⟩
    rename_i hne
    refine pairwise_cons.mpr ⟨?_, ih htail⟩
    intro entry hentry
    rcases mem_keys_indexHash.mp (mem_map_of_mem hentry) with heq | hmem
    · grind
    grind

end Tree

/-! ## Abbreviated ids -/

variable {a b : Bytes} {n max : Nat} {hashes : List Bytes}

/-- The beginnings of two byte strings are in the same order. -/
theorem take_le_take (h : a ≤ b) (n : Nat) : a.take n ≤ b.take n := by
  rw [← not_lt] at h ⊢
  exact fun hlt => h (lt_of_take_lt hlt)

theorem commonPrefixSize_lt (h : a.take n ≠ b.take n) : commonPrefixSize a b < n := by
  by_contra hle
  apply h
  have htake := congrArg (List.take n) (take_commonPrefixSize a b)
  rwa [take_take, take_take, Nat.min_eq_left (Nat.not_lt.mp hle)] at htake

theorem le_commonPrefixSize (ha : n ≤ a.length) (hb : n ≤ b.length) (h : a.take n = b.take n) :
    n ≤ commonPrefixSize a b := by
  induction n generalizing a b with
  | zero => exact Nat.zero_le _
  | succ n ih =>
    cases a with
    | nil => cases ha
    | cons x a =>
      cases b with
      | nil => cases hb
      | cons y b =>
        obtain ⟨rfl, htail⟩ := List.cons.inj h
        rw [commonPrefixSize, if_pos rfl]
        exact Nat.succ_le_succ (ih (Nat.le_of_succ_le_succ ha) (Nat.le_of_succ_le_succ hb) htail)

theorem le_maxCommonPrefix (max : Nat) (hashes : List Bytes) : max ≤ maxCommonPrefix max hashes := by
  fun_induction maxCommonPrefix max hashes with
  | case1 max hash hash' hashes ih => exact (Nat.le_max_left _ _).trans ih
  | case2 => exact le_rfl

/-- No two ids have more in common than the longest prefix of neighbours. -/
theorem maxCommonPrefix_le {bound : Nat} (hmax : max ≤ bound)
    (h : hashes.Pairwise fun hash hash' => commonPrefixSize hash' hash ≤ bound) :
    maxCommonPrefix max hashes ≤ bound := by
  fun_induction maxCommonPrefix max hashes with
  | case1 max hash hash' hashes ih =>
    obtain ⟨hhead, htail⟩ := pairwise_cons.mp h
    exact ih (Nat.max_le.mpr ⟨hmax, hhead hash' mem_cons_self⟩) htail
  | case2 => exact hmax

/-- When two ids have a prefix in common, so have two neighbours. -/
theorem le_maxCommonPrefix_of_take_eq
    (hsorted : hashes.Pairwise (· < ·)) (hlen : ∀ hash ∈ hashes, n ≤ hash.length) (ha : a ∈ hashes)
    (hb : b ∈ hashes) (hlt : a < b) (h : a.take n = b.take n) : n ≤ maxCommonPrefix max hashes := by
  fun_induction maxCommonPrefix max hashes with
  | case1 max hash hash' hashes ih =>
    obtain ⟨hhead, htail⟩ := pairwise_cons.mp hsorted
    have hlen' := (forall_mem_cons.mp hlen).2
    have hb' : b ∈ hash' :: hashes := by grind
    rcases mem_cons.mp ha with rfl | ha
    · -- the neighbour lies between the two
      have hle : hash' ≤ b := by
        rcases mem_cons.mp hb' with rfl | hb'
        · exact le_rfl
        · exact ((pairwise_cons.mp htail).1 b hb').le
      have heq : hash'.take n = a.take n := le_antisymm ((take_le_take hle n).trans_eq h.symm)
        (take_le_take (hhead hash' mem_cons_self).le n)
      have hcommon := le_commonPrefixSize (hlen' hash' mem_cons_self) (hlen a mem_cons_self) heq
      exact (hcommon.trans (Nat.le_max_right _ _)).trans (le_maxCommonPrefix _ _)
    · exact ih htail hlen' ha hb'
  | case2 hashes max hshort =>
    -- there is only one id
    rcases hashes with _ | ⟨hash, _ | ⟨hash', hashes⟩⟩
    · cases ha
    · grind
    · exact absurd rfl (hshort hash hash' hashes)

end GitCore.Reftable
