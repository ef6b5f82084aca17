import GitCore.Cbtree.Tree

/-! # Crit-bit trees as ordered sets

What a tree holds after any sequence of insertions of keys of one length: the first node with each
key. A lookup, another insertion and the iteration over a prefix are all answered from the bits, by
the library on trees of bits. -/

namespace GitCore.Cbtree

open Option List

variable {ν : Type} (key : ν → List UInt8) (klen : Nat) {k : List UInt8} {v : ν}
  {nodes : List ν} {n : Nat}

/-- The tree after some insertions into an empty tree. -/
def fill (nodes : List ν) : CbTree ν := nodes.foldl (fun t node => (cbInsert key t node klen).1) none

/-- The first inserted node with a key. -/
def firstWith (nodes : List ν) (k : List UInt8) : Option ν := nodes.find? fun v => key v == k

/-- Visit nodes in order until the callback stops. -/
def visit {σ : Type} (fn : ν → σ → CbNext × σ) : List ν → σ → CbNext × σ
  | [], s => (.continue, s)
  | v :: rest, s =>
    match fn v s with
    | (.break, s) => (.break, s)
    | (.continue, s) => visit fn rest s

/-- **An ordered set**: a tree answers as the inserted nodes do. -/
structure OrderedSet (nodes : List ν) (t : CbTree ν) : Prop where
  /-- A lookup gives the first node that was inserted with the key. -/
  lookup : ∀ k, k.length = klen → cbLookup key t k klen = firstWith key nodes k
  /-- An insertion gives the node that exists. -/
  existing : ∀ node, (key node).length = klen →
    (cbInsert key t node klen).2 = firstWith key nodes (key node)
  /-- An insertion of an existing key changes nothing. -/
  unchanged : ∀ node, (key node).length = klen → (∃ v ∈ nodes, key v = key node) →
    (cbInsert key t node klen).1 = t
  /-- The iteration visits the keys with a prefix, each once and in ascending order. -/
  each : ∀ kpfx, kpfx.length ≤ klen → ∃ visited : List ν,
    (visited.map key).Pairwise (· < ·) ∧
    (∀ v, v ∈ visited ↔ firstWith key nodes (key v) = some v ∧ kpfx <+: key v) ∧
    ∀ {σ : Type} (fn : ν → σ → CbNext × σ) (s : σ),
      cbEach key t kpfx kpfx.length fn s = (visit fn visited s).2

/-! ## First nodes -/

section First

variable {key}

theorem firstWith_some (h : firstWith key nodes k = some v) : v ∈ nodes ∧ key v = k :=
  ⟨mem_of_find?_eq_some h, by simpa using find?_some h⟩

theorem firstWith_none : firstWith key nodes k = none ↔ ∀ v ∈ nodes, key v ≠ k := by
  simp [firstWith]

theorem firstWith_append (node : ν) : firstWith key (nodes ++ [node]) k =
    (firstWith key nodes k).or (if key node = k then some node else none) := by
  by_cases h : key node = k <;> simp [firstWith, h]

end First

/-! ## Trees of a set -/

/-- The tree has the first nodes as its leaves, and is well formed. -/
def Holds (nodes : List ν) : CbTree ν → Prop
  | none => nodes = []
  | some root => root.OneBit ∧ root.toBits.WF (nodeBit key klen) ∧
      ∀ v, v ∈ root.toBits.leaves ↔ firstWith key nodes (key v) = some v

/-- Bits of keys of the full length. -/
theorem nodeBit_agree_iff (hv : (key v).length = klen) (hn : n ≤ klen) (hk : n ≤ k.length) :
    (∀ i < 8 * n, nodeBit key klen v i = keyBit k n i) ↔ (key v).take n = k.take n := by
  rw [take_eq_take_iff (by omega) hk]
  refine forall_keyBit_iff.trans (forall₂_congr fun byte hbyte => ?_)
  rw [byteAt_of_lt hbyte, byteAt_of_lt (hbyte.trans_le hn)]

variable {key klen}

section Root

variable {root : CbNode ν} (h : Holds key klen nodes (some root))
  (hlen : ∀ v ∈ nodes, (key v).length = klen)
include h

/-- The leaves are inserted nodes. -/
theorem Holds.mem_nodes (hv : v ∈ root.toBits.leaves) : v ∈ nodes :=
  (firstWith_some ((h.2.2 v).mp hv)).1

/-- Every inserted key is the key of a leaf. -/
theorem Holds.exists_leaf {w : ν} (hw : w ∈ nodes) : ∃ v ∈ root.toBits.leaves, key v = key w := by
  cases hfirst : firstWith key nodes (key w) with
  | none => exact absurd rfl (firstWith_none.mp hfirst w hw)
  | some v =>
    obtain ⟨-, hkey⟩ := firstWith_some hfirst
    exact ⟨v, (h.2.2 v).mpr (by rw [hkey]; exact hfirst), hkey⟩

/-- The best match is a leaf. -/
theorem Holds.bestMatch_mem (k : List UInt8) (n : Nat) :
    cbInternalBestMatch k n root ∈ root.toBits.leaves := by
  rw [cbInternalBestMatch_eq h.1]
  exact BitTree.search_mem _ _

include hlen

/-- **The best match for a prefix** has it, if any inserted key does. -/
theorem Holds.bestMatch_iff (hn : n ≤ klen) (hk : n ≤ k.length) :
    (key (cbInternalBestMatch k n root)).take n = k.take n ↔
      ∃ v ∈ nodes, (key v).take n = k.take n := by
  constructor
  · exact fun heq => ⟨_, h.mem_nodes (h.bestMatch_mem k n), heq⟩
  rintro ⟨w, hw, heq⟩
  obtain ⟨v, hv, hkey⟩ := h.exists_leaf hw
  rw [← hkey] at heq
  rw [← nodeBit_agree_iff key klen (hlen v (h.mem_nodes hv)) hn hk] at heq
  rw [← nodeBit_agree_iff key klen (hlen _ (h.mem_nodes (h.bestMatch_mem k n))) hn hk,
    cbInternalBestMatch_eq h.1]
  exact BitTree.search_agrees h.2.1 hv heq

/-- The best match for a whole key is its first node, if there is one. -/
theorem Holds.bestMatch_cases (hk : k.length = klen) :
    key (cbInternalBestMatch k klen root) = k ∧
        firstWith key nodes k = some (cbInternalBestMatch k klen root) ∨
      key (cbInternalBestMatch k klen root) ≠ k ∧ firstWith key nodes k = none := by
  have htake : ∀ v ∈ nodes, ((key v).take klen = k.take klen ↔ key v = k) := by grind
  have hbest := h.bestMatch_mem k klen
  by_cases heq : key (cbInternalBestMatch k klen root) = k
  · refine .inl ⟨heq, ?_⟩
    have := (h.2.2 _).mp hbest
    rwa [heq] at this
  · refine .inr ⟨heq, firstWith_none.mpr fun v hv hkey => heq ?_⟩
    rw [← htake _ (h.mem_nodes hbest), h.bestMatch_iff hlen le_rfl hk.ge]
    exact ⟨v, hv, (htake v hv).mpr hkey⟩

end Root

/-! ## Insertion -/

/-- The loop finds no differing byte in equal keys. -/
theorem differentByte_eq_none_iff {a b : List UInt8} (ha : n ≤ a.length) (hb : n ≤ b.length) :
    differentByte a b n 0 = none ↔ a.take n = b.take n := by
  rw [take_eq_take_iff ha hb]
  rcases differentByte_cases a b n 0 with ⟨hnone, hall⟩ | ⟨i, hi, hsome, hbefore, hne⟩
  · grind
  grind

/-- The first node alone is the tree of the set. -/
theorem holds_leaf (node : ν) : Holds key klen [node] (some (.leaf node)) := by
  refine ⟨.leaf node, .leaf node, fun v => ?_⟩
  rw [CbNode.toBits, BitTree.leaves, mem_singleton, firstWith]
  grind

/-- **The critical bit** of two different keys: the first bit in which they differ. -/
theorem exists_criticalBit {p node : ν} (hp : (key p).length = klen) (hnode : (key node).length = klen)
    (hne : key p ≠ key node) : ∃ newbyte < klen, ∃ pos : Fin 8,
      differentByte (key p) (key node) klen 0 = some newbyte ∧
      otherbitsOf ((key p).getD newbyte 0) ((key node).getD newbyte 0) = maskAt pos ∧
      nodeBit key klen p (8 * newbyte + pos) ≠ nodeBit key klen node (8 * newbyte + pos) ∧
      ∀ i < 8 * newbyte + pos, nodeBit key klen p i = nodeBit key klen node i := by
  rcases differentByte_cases (key p) (key node) klen 0 with ⟨hsame, -⟩ |
    ⟨newbyte, hnewbyte, hsome, hbefore, hdiff⟩
  · rw [differentByte_eq_none_iff hp.ge hnode.ge, take_of_length_le hp.le,
      take_of_length_le hnode.le] at hsame
    exact absurd hsame hne
  simp only [Nat.zero_add] at hsome hbefore hdiff
  obtain ⟨pos, hmask, hbit, hagree⟩ := otherbitsOf_spec hdiff
  have hpos := pos.isLt
  have hbyte : ∀ v, byteAt (key v) klen newbyte = (key v).getD newbyte 0 := fun v =>
    byteAt_of_lt hnewbyte
  refine ⟨newbyte, hnewbyte, pos, hsome, hmask, ?_, fun i hi => ?_⟩
  · rw [nodeBit, nodeBit, keyBit_eq _ _ _ hpos, keyBit_eq _ _ _ hpos, hbyte, hbyte]
    exact hbit
  by_cases hlow : i < 8 * newbyte
  · refine forall_keyBit_iff.mpr (fun byte hb => ?_) i hlow
    rw [byteAt_of_lt (hb.trans hnewbyte), byteAt_of_lt (hb.trans hnewbyte)]
    exact hbefore byte hb
  · obtain ⟨j, rfl⟩ : ∃ j, i = 8 * newbyte + j := ⟨i - 8 * newbyte, by omega⟩
    rw [nodeBit, nodeBit, keyBit_eq _ _ _ (by omega : j < 8), keyBit_eq _ _ _ (by omega : j < 8),
      hbyte, hbyte]
    exact hagree ⟨j, by omega⟩ (show j < pos.val by omega)

/-- **A new key** is placed at its critical bit with the best match. -/
theorem Holds.placeNode (hklen : klen ≤ 2 ^ 32) {root : CbNode ν} (h : Holds key klen nodes (some root))
    (hlen : ∀ v ∈ nodes, (key v).length = klen) {node : ν} (hnode : (key node).length = klen)
    (hfirst : firstWith key nodes (key node) = none)
    (hne : key (cbInternalBestMatch (key node) klen root) ≠ key node) :
    Holds key klen (nodes ++ [node]) (cbInsert key (some root) node klen).1 ∧
      (cbInsert key (some root) node klen).2 = none := by
  have hbest := h.bestMatch_mem (key node) klen
  obtain ⟨hone, hwf, hleaves⟩ := h
  obtain ⟨newbyte, hnewbyte, pos, hsome, hmask, hbitp, hbits⟩ :=
    exists_criticalBit (hlen _ (Holds.mem_nodes ⟨hone, hwf, hleaves⟩ hbest)) hnode hne
  rw [cbInsert]
  generalize hp : cbInternalBestMatch (key node) klen root = p at *
  rw [hsome]
  dsimp only
  rw [hmask]
  have hdir : direction (maskAt pos) ((key p).getD newbyte 0) = 0 ↔
      nodeBit key klen node (8 * newbyte + pos) = true := by
    rw [← byteAt_of_lt hnewbyte, direction_eq_zero_iff]
    change ¬ nodeBit key klen p _ = true ↔ _
    grind
  obtain ⟨hone', hbits'⟩ := toBits_placeNode key klen node (hnewbyte.trans_le hklen) pos hdir hone
  obtain ⟨hwf', hperm⟩ := BitTree.insertAt_wf hwf ⟨p, hbest, hbits⟩ fun w hw hall hbit => by
    have hfound := BitTree.search_agrees hwf hw (q := nodeBit key klen node)
      (Nat.forall_lt_succ_right.mpr ⟨hall, hbit⟩) (8 * newbyte + pos) (by omega)
    rw [cbInternalBestMatch_eq hone] at hp
    exact hbitp (hp ▸ hfound)
  refine ⟨⟨hone', hbits' ▸ hwf', fun v => ?_⟩, rfl⟩
  rw [hbits', hperm.mem_iff, mem_cons, hleaves v, firstWith_append]
  grind

/-- **One insertion** keeps the set. -/
theorem Holds.insert (hklen : klen ≤ 2 ^ 32) {t : CbTree ν} (h : Holds key klen nodes t)
    (hlen : ∀ v ∈ nodes, (key v).length = klen) {node : ν} (hnode : (key node).length = klen) :
    Holds key klen (nodes ++ [node]) (cbInsert key t node klen).1 ∧
      (cbInsert key t node klen).2 = firstWith key nodes (key node) ∧
      ((∃ v ∈ nodes, key v = key node) → (cbInsert key t node klen).1 = t) := by
  cases t with
  | none =>
    obtain rfl : nodes = [] := h
    exact ⟨holds_leaf node, rfl, fun hex => by simp at hex⟩
  | some root =>
    rcases h.bestMatch_cases hlen hnode with ⟨heq, hfirst⟩ | ⟨hne, hfirst⟩
    · -- the key exists, and nothing changes
      have hinsert : cbInsert key (some root) node klen =
          (some root, some (cbInternalBestMatch (key node) klen root)) := by
        have hbest := hlen _ (h.mem_nodes (h.bestMatch_mem (key node) klen))
        rw [cbInsert, (differentByte_eq_none_iff hbest.ge hnode.ge).mpr (by rw [heq])]
      rw [hinsert, hfirst]
      obtain ⟨hone, hwf, hleaves⟩ := h
      refine ⟨⟨hone, hwf, fun v => ?_⟩, rfl, fun _ => rfl⟩
      rw [hleaves v, firstWith_append]
      grind
    · obtain ⟨hholds, hsecond⟩ := h.placeNode hklen hlen hnode hfirst hne
      refine ⟨hholds, hsecond.trans hfirst.symm, ?_⟩
      rintro ⟨v, hv, hkey⟩
      exact absurd hkey (firstWith_none.mp hfirst v hv)

/-- **A run of insertions** gives a tree of the set. -/
theorem holds_fill (hklen : klen ≤ 2 ^ 32) (nodes : List ν)
    (hlen : ∀ v ∈ nodes, (key v).length = klen) : Holds key klen nodes (fill key klen nodes) := by
  induction nodes using List.reverseRecOn with
  | nil => rfl
  | append_singleton nodes node ih =>
    have hnodes : ∀ v ∈ nodes, (key v).length = klen := fun v hv =>
      hlen v (mem_append_left _ hv)
    rw [fill, foldl_append]
    exact ((ih hnodes).insert hklen hnodes (hlen node (by simp))).1

/-! ## Iteration -/

theorem visit_append {σ : Type} (fn : ν → σ → CbNext × σ) (l l' : List ν) (s : σ) :
    visit fn (l ++ l') s = match visit fn l s with
      | (.break, s) => (.break, s)
      | (.continue, s) => visit fn l' s := by
  induction l generalizing s with
  | nil => rfl
  | cons v l ih =>
    rw [cons_append, visit, visit]
    rcases fn v s with ⟨_ | _, s'⟩
    · exact ih s'
    · rfl

/-- The descent visits the leaves in order. -/
theorem cbDescend_eq {σ : Type} (fn : ν → σ → CbNext × σ) (t : CbNode ν) (s : σ) :
    cbDescend fn t s = visit fn t.toBits.leaves s := by
  induction t generalizing s with
  | leaf p =>
    change fn p s = visit fn [p] s
    rw [visit]
    rcases fn p s with ⟨_ | _, s'⟩ <;> rfl
  | inner byte otherbits child0 child1 ih0 ih1 =>
    rw [cbDescend, CbNode.toBits, BitTree.leaves, visit_append, ih0]
    grind

/-- The walk ends at the best match. -/
theorem eachWalk_fst (kpfx : List UInt8) (n : Nat) (top t : CbNode ν) :
    (eachWalk kpfx n top t).1 = cbInternalBestMatch kpfx n t := by
  fun_induction eachWalk kpfx n top t with
  | case1 => rfl
  | case2 top byte otherbits child0 child1 h ih => rw [cbInternalBestMatch, if_pos h, ih]
  | case3 top byte otherbits child0 child1 h ih => rw [cbInternalBestMatch, if_neg h, ih]

section Walk

variable {kpfx : List UInt8} {t : CbNode ν}

/-- Below the prefix the walk keeps `top`. -/
theorem eachWalk_keeps_top (hone : t.OneBit) (hwf : t.toBits.WF (nodeBit key klen))
    (hagree : ∀ v ∈ t.toBits.leaves, ∀ w ∈ t.toBits.leaves, ∀ j < 8 * n,
      nodeBit key klen v j = nodeBit key klen w j) (top : CbNode ν) :
    (eachWalk kpfx n top t).2 = top := by
  induction hone generalizing top with
  | leaf p => rfl
  | @inner byte pos child0 child1 h0 h1 ih0 ih1 =>
    rw [toBits_inner] at hwf hagree
    have hbyte : ¬ byte < n := by
      intro hlt
      have := hwf.lt_of_agree (n := 8 * byte + pos) fun v hv w hw j hj =>
        hagree v hv w hw j (by omega)
      omega
    cases hwf with
    | node hzero hone' unset set agree =>
      rw [eachWalk, if_neg hbyte, if_neg hbyte]
      split
      · exact ih0 hzero (fun v hv w hw => hagree v (mem_append_left _ hv) w
          (mem_append_left _ hw)) top
      · exact ih1 hone' (fun v hv w hw => hagree v (mem_append_right _ hv) w
          (mem_append_right _ hw)) top

/-- **`top` of the walk** is the subtree where the prefix is used up. -/
theorem eachWalk_top (hone : t.OneBit) (hwf : t.toBits.WF (nodeBit key klen)) :
    (eachWalk kpfx n t t).2.toBits = t.toBits.under (keyBit kpfx n) (8 * n) := by
  induction hone with
  | leaf p => rfl
  | @inner byte pos child0 child1 h0 h1 ih0 ih1 =>
    have hwf' := hwf
    cases hwf' with
    | node hzero hone' unset set agree =>
      by_cases hbyte : byte < n
      · rw [toBits_inner, BitTree.under, if_pos (by omega), eachWalk, if_pos hbyte, if_pos hbyte]
        by_cases hbit : keyBit kpfx n (8 * byte + pos) = true
        · rw [if_neg (mt (direction_eq_zero_iff pos kpfx n byte).mp (not_not.mpr hbit)), if_pos hbit]
          exact ih1 hone'
        · rw [if_pos ((direction_eq_zero_iff pos kpfx n byte).mpr hbit), if_neg hbit]
          exact ih0 hzero
      · rw [eachWalk_keeps_top (.inner byte pos h0 h1) hwf, toBits_inner, BitTree.under,
          if_neg (by omega)]
        exact fun v hv w hw j hj => agree v hv w hw j (by omega)

end Walk

/-- The order of the bits is the order of the bytes. -/
theorem lt_of_before {w : ν} (hv : (key v).length = klen) (hw : (key w).length = klen)
    (h : BitTree.Before (nodeBit key klen) v w) : key v < key w := by
  obtain ⟨i, hagree, hunset, hset⟩ := h
  have hbyte : i / 8 < klen := by
    by_contra hge
    rw [nodeBit, keyBit, byteAt, if_neg hge] at hset
    simp [byteBit] at hset
  refine List.lt_iff_exists.mpr (.inr ⟨i / 8, by omega, by omega, fun j hj => ?_, ?_⟩)
  · have := forall_keyBit_iff.mp (fun m hm => hagree m (by omega)) j hj
    rw [byteAt_of_lt (by omega), byteAt_of_lt (by omega), List.getD_eq_getElem _ _ (by omega),
      getD_eq_getElem _ _ (by omega)] at this
    exact this
  · have hlt : (key v).getD (i / 8) 0 < (key w).getD (i / 8) 0 := by
      rw [← byteAt_of_lt hbyte, ← byteAt_of_lt hbyte]
      refine lt_of_byteBit (Nat.mod_lt i (by omega)) (fun j hj => ?_) hunset hset
      have hj8 : j < 8 := hj.trans (Nat.mod_lt i (by omega))
      rw [← keyBit_eq (key v) klen (i / 8) hj8, ← keyBit_eq (key w) klen (i / 8) hj8]
      exact hagree _ (by omega)
    rwa [getD_eq_getElem _ _ (by omega), getD_eq_getElem _ _ (by omega)] at hlt

section

variable {t : CbTree ν} (h : Holds key klen nodes t) (hlen : ∀ v ∈ nodes, (key v).length = klen)
  (hn : n ≤ klen)

include h hlen hn

/-- **The iteration** visits the leaves with the prefix, in ascending order. -/
theorem Holds.each {kpfx : List UInt8} (hk : n ≤ kpfx.length) :
    ∃ visited : List ν, (visited.map key).Pairwise (· < ·) ∧
      (∀ v, v ∈ visited ↔ firstWith key nodes (key v) = some v ∧ kpfx.take n <+: key v) ∧
      ∀ {σ : Type} (fn : ν → σ → CbNext × σ) (s : σ),
        cbEach key t kpfx n fn s = (visit fn visited s).2 := by
  cases t with
  | none =>
    obtain rfl : nodes = [] := h
    exact ⟨[], .nil, fun v => by simp [firstWith], fun fn s => rfl⟩
  | some root =>
    have hbest := h.bestMatch_mem kpfx n
    have hbestlen := hlen _ (h.mem_nodes hbest)
    have hbegins : ∀ v ∈ nodes, (kpfx.take n <+: key v ↔ (key v).take n = kpfx.take n) := by
      intro v hv
      rw [prefix_iff_eq_take, length_take, Nat.min_eq_left hk, eq_comm]
    have hdiff := @differentByte_eq_none_iff n (key (cbInternalBestMatch kpfx n root)) kpfx
      (by omega) hk
    have heach : ∀ {σ : Type} (fn : ν → σ → CbNext × σ) (s : σ), cbEach key (some root) kpfx n fn s =
        (differentByte (key (cbInternalBestMatch kpfx n root)) kpfx n 0).elim
          (visit fn (root.toBits.under (keyBit kpfx n) (8 * n)).leaves s).2 fun _ => s := by
      intro σ fn s
      rw [cbEach]
      rewrite [eachWalk_fst, cbDescend_eq, eachWalk_top h.1 h.2.1]
      cases differentByte (key (cbInternalBestMatch kpfx n root)) kpfx n 0 <;> rfl
    by_cases hmatch : (key (cbInternalBestMatch kpfx n root)).take n = kpfx.take n
    · rw [hdiff.mpr hmatch] at heach
      refine ⟨_, ?_, fun v => ?_, heach⟩
      · have hpair := (h.2.1.pairwise).sublist
          (BitTree.leaves_under_sublist (keyBit kpfx n) (8 * n) root.toBits)
        refine pairwise_map.mpr (hpair.imp_of_mem fun {v w} hv hw hbefore => ?_)
        have hmem : ∀ x ∈ (root.toBits.under (keyBit kpfx n) (8 * n)).leaves,
            (key x).length = klen := fun x hx => hlen x (h.mem_nodes
          ((BitTree.leaves_under_sublist (keyBit kpfx n) (8 * n) root.toBits).subset hx))
        exact lt_of_before (hmem v hv) (hmem w hw) hbefore
      · rw [BitTree.mem_under h.2.1, h.2.2 v]
        · refine and_congr_right fun hv => ?_
          have hmem := (firstWith_some hv).1
          rw [hbegins v hmem]
          exact nodeBit_agree_iff key klen (hlen v hmem) hn hk
        · rw [← cbInternalBestMatch_eq h.1]
          exact (nodeBit_agree_iff key klen hbestlen hn hk).mpr hmatch
    · refine ⟨[], .nil, fun v => ?_, fun fn s => ?_⟩
      · refine iff_of_false not_mem_nil ?_
        rintro ⟨hv, hpre⟩
        apply hmatch
        have hmem := (firstWith_some hv).1
        exact (h.bestMatch_iff hlen hn hk).mpr ⟨v, hmem, (hbegins v hmem).mp hpre⟩
      · rw [heach]
        cases hd : differentByte (key (cbInternalBestMatch kpfx n root)) kpfx n 0 with
        | none => exact absurd (hdiff.mp hd) hmatch
        | some _ => rfl

/-- **A lookup of a prefix** finds a node if one has it. -/
theorem Holds.lookup_isSome (hk : n ≤ k.length) :
    (cbLookup key t k n).isSome ↔ ∃ v ∈ nodes, (key v).take n = k.take n := by
  cases t with
  | none =>
    obtain rfl : nodes = [] := h
    simp [cbLookup]
  | some root =>
    rw [← h.bestMatch_iff hlen hn hk, cbLookup]
    split <;> simp_all

end

/-- **A tree of keys up to `2 ^ 32` bytes is an ordered set.** -/
theorem orderedSet_fill (hklen : klen ≤ 2 ^ 32) (nodes : List ν)
    (hlen : ∀ v ∈ nodes, (key v).length = klen) :
    OrderedSet key klen nodes (fill key klen nodes) := by
  have h := holds_fill hklen nodes hlen
  refine ⟨fun k hk => ?_, fun node hnode => (h.insert hklen hlen hnode).2.1,
    fun node hnode => (h.insert hklen hlen hnode).2.2, fun kpfx hk => ?_⟩
  · cases ht : fill key klen nodes with
    | none =>
      rw [ht] at h
      obtain rfl : nodes = [] := h
      rfl
    | some root =>
      rw [ht] at h
      have hbest := hlen _ (h.mem_nodes (h.bestMatch_mem k klen))
      rw [cbLookup]
      rw [take_of_length_le hbest.le, take_of_length_le hk.le]
      rcases h.bestMatch_cases hlen hk with ⟨heq, hfirst⟩ | ⟨hne, hfirst⟩
      · rw [if_pos heq, hfirst]
      · rw [if_neg hne, hfirst]
  · obtain ⟨visited, hsorted, hmem, hvisit⟩ := h.each hlen hk le_rfl
    grind

/-! ## Keys of more than `2 ^ 32` bytes -/

/-- Two keys that differ in the byte at `2 ^ 32` only. -/
def lowKey (klen : Nat) : List UInt8 := List.replicate klen 0

/-- The other one of them. -/
def highKey (klen : Nat) : List UInt8 := (lowKey klen).set (2 ^ 32) 1

theorem getD_lowKey (klen i : Nat) : (lowKey klen).getD i 0 = 0 := by
  rw [lowKey, getD_eq_getElem?_getD, getElem?_replicate]
  split <;> rfl

theorem getD_highKey {i : Nat} (hi : i ≠ 2 ^ 32) : (highKey klen).getD i 0 = 0 := by
  rw [highKey, getD_eq_getElem?_getD, getElem?_set_ne hi.symm, ← getD_eq_getElem?_getD, getD_lowKey]

section

variable (h : 2 ^ 32 < klen)

include h

theorem getD_highKey_self : (highKey klen).getD (2 ^ 32) 0 = 1 := by
  rw [highKey, getD_eq_getElem?_getD, getElem?_set_self (by rwa [lowKey, length_replicate]),
    getD_some]

/-- The two keys differ at `2 ^ 32` for the first time. -/
theorem differentByte_long : differentByte (lowKey klen) (highKey klen) klen 0 = some (2 ^ 32) := by
  rcases differentByte_cases (lowKey klen) (highKey klen) klen 0 with ⟨-, hall⟩ |
    ⟨n, -, hsome, -, hne⟩
  · have := hall (2 ^ 32) h
    rw [Nat.zero_add, getD_lowKey, getD_highKey_self h] at this
    exact absurd this (by decide)
  · rw [Nat.zero_add] at hsome hne
    have hn : n = 2 ^ 32 := by
      by_contra hn
      exact hne ((getD_lowKey klen n).trans (getD_highKey hn).symm)
    rw [hsome, hn]

/-- **The number of the byte is lost** when it needs more than 32 bits: the inner node looks at the
first byte. -/
theorem fill_long :
    fill id klen [lowKey klen, highKey klen] =
      some (.inner 0 254 (.leaf (lowKey klen)) (.leaf (highKey klen))) := by
  rw [fill, foldl_cons, foldl_cons, foldl_nil, cbInsert, cbInsert]
  simp only [cbInternalBestMatch, id, differentByte_long h, getD_lowKey, getD_highKey_self h]
  rfl

/-- A lookup of the second key ends at the first one. -/
theorem cbLookup_long :
    cbLookup id (fill id klen [lowKey klen, highKey klen]) (highKey klen) klen = none := by
  have hzero : byteAt (highKey klen) klen 0 = 0 := by
    rw [byteAt_of_lt (by omega), getD_highKey (by decide)]
  have hdir : direction 254 0 = 0 := by decide
  rw [fill_long h, cbLookup, cbInternalBestMatch, hzero, if_pos hdir, cbInternalBestMatch]
  refine if_neg fun heq => ?_
  have hlen : (lowKey klen).length = klen ∧ (highKey klen).length = klen := by
    simp [highKey, lowKey]
  have := (take_eq_take_iff hlen.1.ge hlen.2.ge).mp heq (2 ^ 32) h
  rw [getD_lowKey, getD_highKey_self h] at this
  exact absurd this (by decide)

end

end GitCore.Cbtree
