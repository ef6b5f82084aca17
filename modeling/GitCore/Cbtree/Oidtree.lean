import GitCore.Cbtree.OrderedSet

/-! # Trees of object ids

`oidtree` keeps whole `struct object_id`s as keys of a crit-bit tree: the hash comes first and the
algorithm behind it, so that a search may leave the algorithm out. A prefix of hexadecimal digits is
searched for by its whole bytes, and an odd digit is checked at every node that is visited. -/

namespace GitCore.Cbtree

open List

/-! ## The code -/

/-- `GIT_HASH_UNKNOWN`, `GIT_HASH_SHA1` and `GIT_HASH_SHA256` -/
inductive HashAlgo
  | unknown
  | sha1
  | sha256
deriving DecidableEq, Repr

/-- The number of an algorithm, as an `int` in memory. -/
def HashAlgo.bytes : HashAlgo → List UInt8
  | unknown => [0, 0, 0, 0]
  | sha1 => [1, 0, 0, 0]
  | sha256 => [2, 0, 0, 0]

/-- `struct object_id` -/
structure ObjectId where
  /-- `hash`, of `GIT_MAX_RAWSZ` bytes -/
  hash : List UInt8
  /-- `algo` -/
  algo : HashAlgo
  /-- The size of `hash` -/
  length_hash : hash.length = 32

/-- The bytes of a `struct object_id` in memory. -/
def ObjectId.bytes (oid : ObjectId) : List UInt8 := oid.hash ++ oid.algo.bytes

/-- `struct oidtree`, without its memory pool. -/
abbrev Oidtree := CbTree ObjectId

/-- `oidtree_insert`; no result means the `BUG`. -/
def oidtreeInsert (ot : Oidtree) (oid : ObjectId) : Option Oidtree :=
  if oid.algo = .unknown then none else some (cbInsert ObjectId.bytes ot oid 36).1

/-- `oidtree_contains` -/
def oidtreeContains (ot : Oidtree) (oid : ObjectId) : Bool :=
  let klen := if oid.algo = .unknown then 36 - 4 else 36
  (cbLookup ObjectId.bytes ot oid.bytes klen).isSome

/-- `iter`, where `lastNibbleAt` is the place of the odd digit and `lastByte` the byte with it. -/
def oidtreeIter {σ : Type} (algo : HashAlgo) (lastNibbleAt : Option Nat) (lastByte : UInt8)
    (fn : ObjectId → σ → CbNext × σ) (k : ObjectId) (s : σ) : CbNext × σ :=
  if algo ≠ .unknown ∧ algo ≠ k.algo then (.continue, s)
  else
    match lastNibbleAt with
    | some at_ =>
      if (k.hash.getD at_ 0 ^^^ lastByte) &&& 0xf0 ≠ 0 then (.continue, s) else fn k s
    | none => fn k s

/-- `oidtree_each`; no result means the failed assertion. -/
def oidtreeEach {σ : Type} (ot : Oidtree) (oid : ObjectId) (oidhexsz : Nat)
    (fn : ObjectId → σ → CbNext × σ) (s : σ) : Option σ :=
  let klen := oidhexsz / 2
  if oidhexsz ≤ 64 then
    let odd := oidhexsz % 2 = 1
    let lastByte := if odd then oid.hash.getD klen 0 else 0
    let lastNibbleAt := if odd then some klen else none
    some (cbEach ObjectId.bytes ot oid.bytes klen (oidtreeIter oid.algo lastNibbleAt lastByte fn) s)
  else none

/-! ## Ids and their digits -/

/-- The hexadecimal digits of some bytes. -/
def hexDigits (bytes : List UInt8) : List Nat := bytes.flatMap fun b => [b.toNat / 16, b.toNat % 16]

/-- An algorithm that was asked for: any, if none was specified. -/
def HashAlgo.Matches (wanted algo : HashAlgo) : Prop := wanted = .unknown ∨ wanted = algo

/-- The id is one of those asked for, with the digits of a prefix. -/
def ObjectId.Wanted (oid : ObjectId) (oidhexsz : Nat) (id : ObjectId) : Prop :=
  oid.algo.Matches id.algo ∧
    (hexDigits id.hash).take oidhexsz = (hexDigits oid.hash).take oidhexsz

/-- An id with an algorithm, as a tree may hold. -/
abbrev KnownId := { oid : ObjectId // oid.algo ≠ .unknown }

/-- The tree after some insertions. -/
def oidtreeFill (ids : List KnownId) : Option Oidtree :=
  ids.foldlM (fun ot id => oidtreeInsert ot id.1) none

@[simp] theorem ObjectId.length_bytes (oid : ObjectId) : oid.bytes.length = 36 := by
  rw [ObjectId.bytes, length_append, oid.length_hash]
  cases oid.algo <;> rfl

/-- The hash is the first part of an id. -/
theorem ObjectId.take_bytes (oid : ObjectId) {n : Nat} (hn : n ≤ 32) :
    oid.bytes.take n = oid.hash.take n := by
  rw [ObjectId.bytes, take_append_of_le_length (by rw [oid.length_hash]; exact hn)]

theorem HashAlgo.bytes_injective : Function.Injective HashAlgo.bytes := by
  intro algo algo'
  cases algo <;> cases algo' <;> decide

/-- An id is given by its bytes. -/
theorem ObjectId.bytes_injective : Function.Injective ObjectId.bytes := by
  rintro ⟨hash, algo, hlen⟩ ⟨hash', algo', hlen'⟩ h
  obtain ⟨rfl, halgo⟩ := append_inj h (hlen.trans hlen'.symm)
  obtain rfl : algo = algo' := HashAlgo.bytes_injective halgo
  rfl

/-- The digits of a number of bytes. -/
theorem take_hexDigits_even (bytes : List UInt8) (n : Nat) :
    (hexDigits bytes).take (2 * n) = hexDigits (bytes.take n) := by
  induction n generalizing bytes with
  | zero => rfl
  | succ n ih =>
    cases bytes with
    | nil => rfl
    | cons b bytes =>
      change (b.toNat / 16 :: b.toNat % 16 :: hexDigits bytes).take (2 * (n + 1)) = _
      rw [show 2 * (n + 1) = 2 * n + 1 + 1 by omega, take_succ_cons, take_succ_cons, ih]
      rfl

theorem hexDigits_injective : Function.Injective hexDigits := by
  intro a b h
  induction a generalizing b with
  | nil =>
    cases b with
    | nil => rfl
    | cons y b => cases h
  | cons x a ih =>
    cases b with
    | nil => cases h
    | cons y b =>
      have h' : x.toNat / 16 :: x.toNat % 16 :: hexDigits a =
          y.toNat / 16 :: y.toNat % 16 :: hexDigits b := h
      simp only [List.cons.injEq] at h'
      obtain ⟨hhigh, hlow, hrest⟩ := h'
      have hxy : x = y := UInt8.toNat_inj.mp (by omega)
      rw [hxy, ih hrest]

/-- One digit more. -/
theorem take_hexDigits_odd {bytes : List UInt8} {n : Nat} (hn : n < bytes.length) :
    (hexDigits bytes).take (2 * n + 1) =
      hexDigits (bytes.take n) ++ [(bytes.getD n 0).toNat / 16] := by
  induction n generalizing bytes with
  | zero =>
    cases bytes with
    | nil => cases hn
    | cons b bytes => rfl
  | succ n ih =>
    cases bytes with
    | nil => cases hn
    | cons b bytes =>
      have hn' : n < bytes.length := Nat.lt_of_succ_lt_succ hn
      change (b.toNat / 16 :: b.toNat % 16 :: hexDigits bytes).take (2 * (n + 1) + 1) = _
      rw [show 2 * (n + 1) + 1 = 2 * n + 1 + 1 + 1 by omega, take_succ_cons, take_succ_cons, ih hn']
      rfl

/-- The check of the odd digit. -/
theorem nibble_iff (a b : UInt8) : (a ^^^ b) &&& 0xf0 = 0 ↔ a.toNat / 16 = b.toNat / 16 := by
  have hx : ∀ x : UInt8, x &&& 0xf0 = 0 ↔ x.toNat / 16 = 0 := by
    intro x
    induction x using forall_byte with
    | h n =>
      revert n
      decide +kernel
  rw [hx, UInt8.toNat_xor, show (16 : Nat) = 2 ^ 4 from rfl, ← Nat.shiftRight_eq_div_pow,
    Nat.shiftRight_xor_distrib, Nat.xor_eq_zero_iff, Nat.shiftRight_eq_div_pow,
    Nat.shiftRight_eq_div_pow]

/-- **A prefix of digits** is one of whole bytes, and an odd digit. -/
theorem take_hexDigits_iff {hash hash' : List UInt8} (h : hash.length = 32) (h' : hash'.length = 32)
    {oidhexsz : Nat} (hsz : oidhexsz ≤ 64) :
    (hexDigits hash).take oidhexsz = (hexDigits hash').take oidhexsz ↔
      hash.take (oidhexsz / 2) = hash'.take (oidhexsz / 2) ∧
        (oidhexsz % 2 = 1 →
          (hash.getD (oidhexsz / 2) 0 ^^^ hash'.getD (oidhexsz / 2) 0) &&& 0xf0 = 0) := by
  rcases Nat.mod_two_eq_zero_or_one oidhexsz with heven | hodd
  · have hsplit : oidhexsz = 2 * (oidhexsz / 2) := by omega
    generalize oidhexsz / 2 = n at *
    rw [hsplit, take_hexDigits_even, take_hexDigits_even, hexDigits_injective.eq_iff]
    exact (and_iff_left fun hone => by omega).symm
  have hsplit : oidhexsz = 2 * (oidhexsz / 2) + 1 := by omega
  generalize oidhexsz / 2 = n at *
  rw [nibble_iff, hsplit, take_hexDigits_odd (by omega), take_hexDigits_odd (by omega)]
  constructor
  · intro heq
    obtain ⟨hbytes, hlast⟩ := append_inj' heq rfl
    exact ⟨hexDigits_injective hbytes, fun _ => (List.cons.inj hlast).1⟩
  grind

/-! ## The set of ids -/

/-- **A set of ids**: a tree answers as the inserted ids do. -/
structure OidSet (ids : List ObjectId) (ot : Oidtree) : Prop where
  /-- Membership, where an unspecified algorithm matches any. -/
  contains : ∀ oid, oidtreeContains ot oid = true ↔
    ∃ id ∈ ids, oid.algo.Matches id.algo ∧ id.hash = oid.hash
  /-- The iteration visits the ids of the algorithm with the prefix, each once. -/
  each : ∀ oid oidhexsz, oidhexsz ≤ 64 → ∃ visited : List ObjectId, visited.Nodup ∧
    (∀ id, id ∈ visited ↔ id ∈ ids ∧ oid.Wanted oidhexsz id) ∧
    ∀ {σ : Type} (fn : ObjectId → σ → CbNext × σ) (s : σ),
      oidtreeEach ot oid oidhexsz fn s = some (visit fn visited s).2

/-- Insertions of ids with an algorithm never fail. -/
theorem oidtreeFill_eq (ids : List KnownId) :
    oidtreeFill ids = some (fill ObjectId.bytes 36 (ids.map Subtype.val)) := by
  unfold oidtreeFill fill
  generalize (none : Oidtree) = ot
  induction ids generalizing ot with
  | nil => rfl
  | cons id ids ih =>
    rw [foldlM_cons, oidtreeInsert, if_neg id.2]
    exact ih _

/-- Ids with the same bytes are the same. -/
theorem firstWith_bytes (ids : List ObjectId) (id : ObjectId) :
    firstWith ObjectId.bytes ids id.bytes = some id ↔ id ∈ ids := by
  refine ⟨fun h => (firstWith_some h).1, fun hid => ?_⟩
  cases hfirst : firstWith ObjectId.bytes ids id.bytes with
  | none => exact absurd rfl (firstWith_none.mp hfirst id hid)
  | some id' => rw [ObjectId.bytes_injective (firstWith_some hfirst).2]

/-- A callback that leaves nodes out visits the others. -/
theorem visit_filter {ν σ : Type} {fn fn' : ν → σ → CbNext × σ} {p : ν → Bool}
    (h : ∀ v s, fn' v s = if p v then fn v s else (.continue, s)) (l : List ν) (s : σ) :
    visit fn' l s = visit fn (l.filter p) s := by
  induction l generalizing s with
  | nil => rfl
  | cons v l ih =>
    rw [visit, h]
    split_ifs with hp
    · rw [filter_cons_of_pos hp, visit]
      rcases fn v s with ⟨_ | _, s'⟩
      · exact ih s'
      · rfl
    · rw [filter_cons_of_neg hp]
      exact ih s

/-- What the callback of `oidtree_each` lets through. -/
def iterAccepts (algo : HashAlgo) (lastNibbleAt : Option Nat) (lastByte : UInt8) (k : ObjectId) :
    Bool :=
  decide (algo = .unknown ∨ algo = k.algo) &&
    lastNibbleAt.all fun place => (k.hash.getD place 0 ^^^ lastByte) &&& 0xf0 == 0

theorem oidtreeIter_eq {σ : Type} (algo : HashAlgo) (lastNibbleAt : Option Nat) (lastByte : UInt8)
    (fn : ObjectId → σ → CbNext × σ) (k : ObjectId) (s : σ) :
    oidtreeIter algo lastNibbleAt lastByte fn k s =
      if iterAccepts algo lastNibbleAt lastByte k then fn k s else (.continue, s) := by
  unfold oidtreeIter iterAccepts
  grind

/-- **Trees of object ids are sets of them.** -/
theorem oidSet_fill (ids : List ObjectId) : OidSet ids (fill ObjectId.bytes 36 ids) := by
  have hlen : ∀ id ∈ ids, id.bytes.length = 36 := fun id _ => id.length_bytes
  have h := holds_fill (by decide : 36 ≤ 2 ^ 32) ids hlen
  refine ⟨fun oid => ?_, fun oid oidhexsz hsz => ?_⟩
  · unfold oidtreeContains
    by_cases halgo : oid.algo = .unknown
    · -- only the hash is looked at
      rw [if_pos halgo, h.lookup_isSome hlen (by decide) (by rw [oid.length_bytes]; decide)]
      refine exists_congr fun id => and_congr_right fun _ => ?_
      rw [id.take_bytes le_rfl, oid.take_bytes le_rfl, take_of_length_le id.length_hash.le,
        take_of_length_le oid.length_hash.le]
      exact (and_iff_right (.inl halgo)).symm
    · rw [if_neg halgo, h.lookup_isSome hlen le_rfl oid.length_bytes.ge]
      refine exists_congr fun id => and_congr_right fun _ => ?_
      rw [take_of_length_le id.length_bytes.le, take_of_length_le oid.length_bytes.le,
        ObjectId.bytes_injective.eq_iff]
      constructor
      · rintro rfl
        exact ⟨.inr rfl, rfl⟩
      · rintro ⟨hmatch, hhash⟩
        refine ObjectId.bytes_injective ?_
        rw [ObjectId.bytes, ObjectId.bytes, hhash, hmatch.resolve_left halgo]
  · have hklen : oidhexsz / 2 ≤ 32 := by omega
    obtain ⟨visited, hsorted, hmem, hvisit⟩ := @Holds.each ObjectId ObjectId.bytes 36 ids
      (oidhexsz / 2) _ h hlen (by omega) oid.bytes (by rw [oid.length_bytes]; omega)
    have hnodup : visited.Nodup :=
      (pairwise_map.mp hsorted).imp fun hlt heq => absurd (heq ▸ hlt) (lt_irrefl _)
    refine ⟨visited.filter (iterAccepts oid.algo (if oidhexsz % 2 = 1 then some (oidhexsz / 2) else none)
      (if oidhexsz % 2 = 1 then oid.hash.getD (oidhexsz / 2) 0 else 0)), hnodup.filter _,
      fun id => ?_, fun fn s => ?_⟩
    · rw [mem_filter, hmem, firstWith_bytes, and_assoc]
      refine and_congr_right fun _ => ?_
      rw [ObjectId.Wanted, take_hexDigits_iff id.length_hash oid.length_hash hsz,
        prefix_iff_eq_take, length_take, oid.length_bytes, Nat.min_eq_left (by omega),
        id.take_bytes hklen, oid.take_bytes hklen, eq_comm, and_left_comm]
      refine and_congr_right fun _ => ?_
      unfold iterAccepts HashAlgo.Matches
      by_cases hodd : oidhexsz % 2 = 1
      · simp [hodd]
      · simp [hodd]
    · unfold oidtreeEach
      rw [if_pos hsz]
      dsimp only
      rw [hvisit, visit_filter (oidtreeIter_eq _ _ _ fn)]

/-- **Crit-bit trees implement ordered sets** of keys of one length exactly if the keys have at most
`2 ^ 32` bytes; trees of object ids always implement sets of them. -/
theorem critbit_trees_are_ordered_sets (klen : Nat) :
    ((∀ (ν : Type) (key : ν → List UInt8) (nodes : List ν), (∀ v ∈ nodes, (key v).length = klen) →
        OrderedSet key klen nodes (fill key klen nodes)) ↔ klen ≤ 2 ^ 32) ∧
      ∀ ids : List KnownId, ∃ ot, oidtreeFill ids = some ot ∧
        OidSet (ids.map Subtype.val) ot := by
  refine ⟨⟨fun h => ?_, fun hklen ν key nodes => orderedSet_fill hklen nodes⟩, fun ids => ?_⟩
  · by_contra hlong
    rw [not_le] at hlong
    have hlen : ∀ v ∈ [lowKey klen, highKey klen], (id v).length = klen := by
      intro v hv
      rcases mem_pair.mp hv with rfl | rfl
      · exact length_replicate
      · exact length_set.trans length_replicate
    have hmem : highKey klen ∈ [lowKey klen, highKey klen] :=
      mem_cons_of_mem _ (mem_singleton_self _)
    have hlookup := (h (List UInt8) id _ hlen).lookup (highKey klen) (hlen _ hmem)
    rw [cbLookup_long hlong, eq_comm, firstWith_none] at hlookup
    exact hlookup (highKey klen) hmem rfl
  · exact ⟨_, oidtreeFill_eq ids, oidSet_fill _⟩

/-- **An inserted key that is not found**, of `2 ^ 32 + 1` bytes. -/
theorem cbLookup_loses_long_key :
    highKey (2 ^ 32 + 1) ∈ [lowKey (2 ^ 32 + 1), highKey (2 ^ 32 + 1)] ∧
      cbLookup id (fill id (2 ^ 32 + 1) [lowKey (2 ^ 32 + 1), highKey (2 ^ 32 + 1)])
        (highKey (2 ^ 32 + 1)) (2 ^ 32 + 1) = none :=
  ⟨mem_cons_of_mem _ (mem_singleton_self _), cbLookup_long (Nat.lt_succ_self _)⟩

end GitCore.Cbtree
