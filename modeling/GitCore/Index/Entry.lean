import GitCore.Lib.ByteOrder

/-! # Index entries

An entry of the index in memory, `struct cache_entry`. The bits of `ce_flags` that the modelled code
reads are fields of their own; the length of the name is that of `name`. -/

namespace GitCore.Index

/-- The name of an entry, or a part of one. -/
abbrev Name := List UInt8

/-- The raw bytes of an object id. -/
abbrev Oid := List UInt8

/-- `struct cache_time` -/
structure CacheTime where
  sec : UInt32
  nsec : UInt32
  deriving DecidableEq, Repr

/-- `struct stat_data` -/
structure StatData where
  ctime : CacheTime
  mtime : CacheTime
  dev : UInt32
  ino : UInt32
  uid : UInt32
  gid : UInt32
  size : UInt32
  deriving DecidableEq, Repr

theorem zero_lt_four : 0 < 4 := by decide

/-- The stage of an entry that is not part of a conflict. -/
def mergedStage : Fin 4 := ⟨0, zero_lt_four⟩

/-- `struct cache_entry` -/
structure CacheEntry where
  statData : StatData
  mode : UInt32
  oid : Oid
  name : Name
  /-- `ce_stage` -/
  stage : Fin 4
  /-- `CE_VALID` -/
  valid : Bool
  /-- `CE_INTENT_TO_ADD` -/
  intentToAdd : Bool
  /-- `CE_SKIP_WORKTREE` -/
  skipWorktree : Bool
  /-- `CE_REMOVE` -/
  remove : Bool
  /-- `CE_STRIP_NAME` -/
  stripName : Bool
  deriving DecidableEq, Repr

/-- `S_IFDIR` -/
def sIfdir : Nat := 0o040000

/-- `S_IFGITLINK` -/
def sIfgitlink : Nat := 0o160000

/-- `S_IFMT` -/
def sIfmt : Nat := 0o170000

/-- `S_IFLNK` -/
def sIflnk : Nat := 0o120000

/-- `S_ISLNK` -/
def isLink (mode : UInt32) : Bool := mode.toNat &&& sIfmt = sIflnk

/-- `S_ISDIR` -/
def isDir (mode : UInt32) : Bool := mode.toNat &&& sIfmt = sIfdir

/-- `S_ISSPARSEDIR`: the entry stands for a directory outside of the sparse checkout. -/
def CacheEntry.isSparseDir (ce : CacheEntry) : Bool := ce.mode.toNat = sIfdir

/-- `name_compare`: bytewise, a proper beginning of a name comes before it. -/
def nameCompare (name1 name2 : Name) : Ordering :=
  if name1 < name2 then .lt else if name2 < name1 then .gt else .eq

/-- `cache_name_stage_compare` -/
def cacheNameStageCompare (name1 : Name) (stage1 : Nat) (name2 : Name) (stage2 : Nat) : Ordering :=
  (nameCompare name1 name2).then (cmp stage1 stage2)

section Compare

variable {name1 name2 : Name}

theorem nameCompare_eq_lt : nameCompare name1 name2 = .lt ↔ name1 < name2 := by
  rw [nameCompare, threeWay_eq_cmp, cmp_eq_lt_iff]

theorem nameCompare_eq_gt : nameCompare name1 name2 = .gt ↔ name2 < name1 := by
  rw [nameCompare, threeWay_eq_cmp, cmp_eq_gt_iff]

theorem nameCompare_eq_eq : nameCompare name1 name2 = .eq ↔ name1 = name2 := by
  rw [nameCompare, threeWay_eq_cmp, cmp_eq_eq_iff]

end Compare

end GitCore.Index
