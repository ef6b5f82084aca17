import GitCore.Index.OnDisk
import GitCore.Lib.Stream

/-! # Index entries are read back as they were written

The entries that the loop of `do_write_index` writes are read back by one pass over the file, and
also block by block at the recorded offsets. In version 4 the name of an entry depends on the one
before it; the reader and the writer agree on that as long as the remembered name follows the last
entry (`Follows`), and at the beginning of a block they agree that there is none. -/

namespace GitCore.Index

open List
open Reftable (putBe16 putBe32 varInt getBe16_putBe16 getBe32_putBe32 getVarInt_varInt)

/-- What the format can hold: an object id of the right length, and a name without a NUL whose length
is an `int`; the entry is neither removed nor stripped of its name. -/
structure Storable (hashsz : Nat) (ce : CacheEntry) : Prop where
  oid : ce.oid.length = hashsz
  name : 0 ∉ ce.name
  length : ce.name.length < 2 ^ 31
  remove : ce.remove = false
  stripName : ce.stripName = false

/-! ## The fields of an entry -/

section Fields

theorem word_putBe32 {ondisk : Bytes} {offset : Nat} (v : UInt32) (rest : Bytes)
    (h : ondisk.drop offset = putBe32 v.toNat ++ rest) : word ondisk offset = .ok v := by
  rw [word, h, getBe32_putBe32 v.toNat_lt]
  exact congrArg Except.ok UInt32.ofNat_toNat

/-- The fields in front of the object id are read back. -/
theorem readStat_ondiskStat (stat : StatData) (mode : UInt32) (rest : Bytes) :
    readStat (ondiskStat stat mode ++ rest) = .ok (stat, mode) := by
  simp only [readStat, ondiskStat, append_assoc]
  rw [word_putBe32 stat.ctime.sec _ rfl, word_putBe32 stat.ctime.nsec _ rfl,
    word_putBe32 stat.mtime.sec _ rfl, word_putBe32 stat.mtime.nsec _ rfl,
    word_putBe32 stat.dev _ rfl, word_putBe32 stat.ino _ rfl, word_putBe32 mode _ rfl,
    word_putBe32 stat.uid _ rfl, word_putBe32 stat.gid _ rfl, word_putBe32 stat.size _ rfl]
  rfl

theorem length_ondiskStat (stat : StatData) (mode : UInt32) :
    (ondiskStat stat mode).length = dataOffset := rfl

variable (ce : CacheEntry) (namelen : Nat)

theorem ondiskFlags_lt : ondiskFlags ce namelen < 2 ^ 16 := by
  rw [ondiskFlags, ceNamemask]
  split_ifs <;> omega

theorem ondiskFlags_mod : ondiskFlags ce namelen % 0x1000 = min namelen ceNamemask := by
  rw [ondiskFlags, ceNamemask]
  split_ifs <;> omega

theorem ondiskFlags_extended : decide (ondiskFlags ce namelen / 0x4000 % 2 = 1) = ce.extended := by
  rw [ondiskFlags, ceNamemask]
  grind

theorem ondiskFlags_valid : decide (ondiskFlags ce namelen / 0x8000 % 2 = 1) = ce.valid := by
  rw [ondiskFlags, ceNamemask]
  grind

theorem ondiskFlags_stage : stageOfBits (ondiskFlags ce namelen / 0x1000) = ce.stage := by
  apply Fin.ext
  show ondiskFlags ce namelen / 0x1000 % 4 = ce.stage
  rw [ondiskFlags, ceNamemask]
  split_ifs <;> omega

theorem ondiskFlags2_lt : ondiskFlags2 ce < 2 ^ 16 := by
  rw [ondiskFlags2]
  split_ifs <;> omega

/-- Nothing but the known bits is set. -/
theorem ondiskFlags2_known : ¬ (ondiskFlags2 ce % 0x2000 ≠ 0 ∨ ondiskFlags2 ce / 0x8000 ≠ 0) := by
  rw [ondiskFlags2]
  split_ifs <;> decide

theorem ondiskFlags2_intentToAdd :
    decide ((if ce.extended then ondiskFlags2 ce else 0) / 0x2000 % 2 = 1) = ce.intentToAdd := by
  rw [ondiskFlags2, CacheEntry.extended]
  cases ce.intentToAdd <;> cases ce.skipWorktree <;> rfl

theorem ondiskFlags2_skipWorktree :
    decide ((if ce.extended then ondiskFlags2 ce else 0) / 0x4000 % 2 = 1) = ce.skipWorktree := by
  rw [ondiskFlags2, CacheEntry.extended]
  cases ce.intentToAdd <;> cases ce.skipWorktree <;> rfl

/-- The flags are read back. -/
theorem readFlags_ondiskFlags (rest : Bytes) :
    readFlags (putBe16 (ondiskFlags ce namelen) ++
        ((if ce.extended then putBe16 (ondiskFlags2 ce) else []) ++ rest)) =
      .ok (ondiskFlags ce namelen, if ce.extended then ondiskFlags2 ce else 0, rest) := by
  have hext := ondiskFlags_extended ce namelen
  rw [readFlags, getBe16_putBe16 (ondiskFlags_lt ce namelen)]
  dsimp only [inBounds, bind, Except.bind]
  cases h : ce.extended with
  | true =>
    rw [h] at hext
    have hdrop : (putBe16 (ondiskFlags ce namelen) ++ (putBe16 (ondiskFlags2 ce) ++ rest)).drop 2 =
        putBe16 (ondiskFlags2 ce) ++ rest := rfl
    simp only [if_true]
    rw [if_pos (of_decide_eq_true hext), hdrop, getBe16_putBe16 (ondiskFlags2_lt ce)]
    dsimp only
    rw [if_neg (ondiskFlags2_known ce)]
    rfl
  | false =>
    rw [h] at hext
    rw [if_neg (of_decide_eq_false hext)]
    rfl

end Fields

/-! ## One entry -/

variable {version hashsz : Nat} {ce : CacheEntry} {previousName : Option Name}
  {last previous : Option CacheEntry} {name : Name} {entries : List CacheEntry} {mmap : Bytes}

/-- The name ends at the first NUL. -/
theorem strlen_append (h : 0 ∉ name) (rest : Bytes) :
    strlen (name ++ 0 :: rest) = name.length := by
  rw [strlen, takeWhile_append_of_pos]
  · simp
  grind

theorem length_copyCacheEntryToOndisk (h : Storable hashsz ce) (namelen : Nat) :
    (copyCacheEntryToOndisk ce namelen).length =
      dataOffset + ondiskDataSize hashsz ce.extended 0 := by
  simp only [copyCacheEntryToOndisk, length_append, length_ondiskStat, h.oid,
    Reftable.length_putBe16, ondiskDataSize]
  cases ce.extended <;> rfl

/-- **An entry is read back** if the reader gets the same beginning of its name from the entry
before. -/
theorem createFromDisk_copy (h : Storable hashsz ce) {previous : Option CacheEntry} {copyLen : Nat}
    {tail more : Bytes}
    (hexpand : expandName version tail previous = .ok (copyLen, ce.name.drop copyLen ++ 0 :: more))
    (hle : copyLen ≤ ce.name.length)
    (hcopy : ((previous.map CacheEntry.name).getD []).take copyLen = ce.name.take copyLen) :
    createFromDisk version hashsz (copyCacheEntryToOndisk ce ce.name.length ++ tail) previous =
      .ok (ce,
        if version = 4 then
          (copyCacheEntryToOndisk ce ce.name.length ++ tail).length -
            (ce.name.drop copyLen ++ 0 :: more).length + ce.name.length + 1 - copyLen
        else (dataOffset + ondiskDataSize hashsz ce.extended ce.name.length + 8) / 8 * 8) := by
  have hdata : (copyCacheEntryToOndisk ce ce.name.length ++ tail).drop dataOffset =
      ce.oid ++ (putBe16 (ondiskFlags ce ce.name.length) ++
        ((if ce.extended then putBe16 (ondiskFlags2 ce) else []) ++ tail)) := by
    rw [copyCacheEntryToOndisk, append_assoc, append_assoc, append_assoc]
    exact length_ondiskStat ce.statData ce.mode ▸ drop_left
  have hstat : readStat (copyCacheEntryToOndisk ce ce.name.length ++ tail) =
      .ok (ce.statData, ce.mode) := by
    exact readStat_ondiskStat ce.statData ce.mode _
  have hoid : (ce.oid ++ (putBe16 (ondiskFlags ce ce.name.length) ++
      ((if ce.extended then putBe16 (ondiskFlags2 ce) else []) ++ tail))).drop hashsz = _ :=
    h.oid ▸ drop_left
  -- the length is stored, or it is that of the string
  have hlen : (if ondiskFlags ce ce.name.length % 0x1000 = ceNamemask then
      strlen (ce.name.drop copyLen ++ 0 :: more) + copyLen
      else ondiskFlags ce ce.name.length % 0x1000) = ce.name.length := by
    rw [strlen_append fun hzero => h.name (mem_of_mem_drop hzero), ondiskFlags_mod, length_drop]
    split
    · omega
    · omega
  rw [createFromDisk, ← drop_drop, hdata, hoid, readFlags_ondiskFlags]
  dsimp only [bind, Except.bind]
  rw [hexpand]
  dsimp only
  rw [hstat, hlen]
  have hname : ce.name.take copyLen ++
      (ce.name.drop copyLen ++ 0 :: more).take (ce.name.length - copyLen) = ce.name := by
    rw [take_left' length_drop, take_append_drop]
  rw [ondiskFlags_stage, ondiskFlags_valid, ondiskFlags2_intentToAdd, ondiskFlags2_skipWorktree,
    hcopy, hname, ondiskFlags_extended, ← h.oid, take_left]
  refine congrArg (fun ce => Except.ok (ce, _)) ?_
  cases ce
  simp only [CacheEntry.mk.injEq, true_and]
  exact ⟨h.remove.symm, h.stripName.symm⟩

theorem commonBytes_le_left (name previous : Name) : commonBytes name previous ≤ name.length := by
  fun_induction commonBytes name previous with
  | case1 => exact Nat.succ_le_succ (by assumption)
  | case2 | case3 => exact Nat.zero_le _

theorem commonBytes_le_right (name previous : Name) :
    commonBytes name previous ≤ previous.length := by
  fun_induction commonBytes name previous with
  | case1 => exact Nat.succ_le_succ (by assumption)
  | case2 | case3 => exact Nat.zero_le _

/-- The two names begin with the same bytes. -/
theorem take_commonBytes (name previous : Name) :
    previous.take (commonBytes name previous) = name.take (commonBytes name previous) := by
  fun_induction commonBytes name previous with
  | case1 c name p previous heq ih => rw [take_succ_cons, take_succ_cons, ih, heq.2]
  | case2 | case3 => simp

/-- A name whose first byte was cleared has nothing in common with another one. -/
theorem commonBytes_clear (previous : Name) :
    commonBytes name (previous.set 0 0) = 0 := by
  cases name with
  | nil => rfl
  | cons c name =>
    cases previous with
    | nil => rfl
    | cons p previous =>
      rw [set_cons_zero, commonBytes, if_neg]
      rintro ⟨hne, heq⟩
      exact hne heq

/-- What is added to the beginning is the rest of the name. -/
theorem take_drop_name (name : Name) (n : Nat) :
    (name.drop n).take (name.length - n) = name.drop n := by
  rw [← length_drop, take_length]

/-- **The remembered name follows the last entry**: the reader, which has this entry, takes the same
beginning of the next name from it as the writer. Versions 2 and 3 remember nothing. -/
def Follows (last : Option CacheEntry) : Option Name → Prop
  | none => True
  | some previousName =>
    match last with
    | none => ∀ name, commonBytes name previousName = 0
    | some ce =>
      previousName.length = ce.name.length ∧ ce.name.length < 2 ^ 31 ∧
        ∀ name, ce.name.take (commonBytes name previousName) =
          name.take (commonBytes name previousName)

theorem follows_nil : Follows none (some []) := by
  intro name
  cases name <;> rfl

/-- After an entry its name is remembered. -/
theorem follows_ceWriteEntry (h : Storable hashsz ce) (previousName : Option Name) :
    Follows (some ce) (ceWriteEntry hashsz ce previousName).2 := by
  cases previousName with
  | none => trivial
  | some previousName =>
    have hname : previousName.take (commonBytes ce.name previousName) ++
        (ce.name.drop (commonBytes ce.name previousName)).take
          (ce.name.length - commonBytes ce.name previousName) = ce.name := by
      rw [take_commonBytes, take_drop_name, take_append_drop]
    rw [ceWriteEntry]
    simp only [h.stripName, Bool.false_eq_true, if_false]
    rw [hname]
    exact ⟨rfl, h.length, fun name => take_commonBytes name ce.name⟩

/-- At the beginning of a block the next entry is written as if there were none before it. -/
theorem follows_clear (h : Follows last previousName) :
    Follows last (previousName.map fun name => name.set 0 0) ∧
      Follows none (previousName.map fun name => name.set 0 0) := by
  cases previousName with
  | none => exact ⟨trivial, trivial⟩
  | some previousName =>
    refine ⟨?_, fun name => commonBytes_clear previousName⟩
    cases last with
    | none => exact fun name => commonBytes_clear previousName
    | some ce =>
      refine ⟨?_, h.2.1, fun name => ?_⟩
      · rw [length_set]
        exact h.1
      · rw [commonBytes_clear, take_zero, take_zero]

/-- **An entry that was written is read back**, with the bytes it takes. -/
theorem createFromDisk_ceWriteEntry (h : Storable hashsz ce)
    (hversion : previousName.isSome ↔ version = 4)
    (hfollows : Follows last previousName) (rest : Bytes) :
    createFromDisk version hashsz ((ceWriteEntry hashsz ce previousName).1 ++ rest) last =
      .ok (ce, (ceWriteEntry hashsz ce previousName).1.length) := by
  cases previousName with
  | none =>
    have hne : version ≠ 4 := fun heq => Bool.false_ne_true (hversion.mpr heq)
    have hsize : ondiskDataSize hashsz ce.extended ce.name.length =
        ondiskDataSize hashsz ce.extended 0 + ce.name.length := rfl
    simp only [ceWriteEntry, h.stripName, Bool.false_eq_true, if_false, take_length,
      alignPaddingSize]
    -- the padding begins with the NUL that ends the name
    obtain ⟨pad, hpad⟩ : ∃ pad, (dataOffset + ondiskDataSize hashsz ce.extended 0 + ce.name.length + 8) /
        8 * 8 - (dataOffset + ondiskDataSize hashsz ce.extended 0 + ce.name.length) = pad + 1 :=
      Nat.exists_eq_succ_of_ne_zero (by omega)
    have hexpand : expandName version (ce.name ++ 0 :: (List.replicate pad 0 ++ rest)) last =
        .ok (0, ce.name.drop 0 ++ 0 :: (List.replicate pad 0 ++ rest)) := if_neg hne
    rw [hpad, replicate_succ, append_assoc, append_assoc, cons_append,
      createFromDisk_copy h hexpand (Nat.zero_le _) rfl, if_neg hne]
    refine congrArg (fun n => Except.ok (ce, n)) ?_
    rw [length_append, length_copyCacheEntryToOndisk h, length_append, length_cons,
      length_replicate, hsize]
    omega
  | some previousName =>
    obtain rfl := hversion.mp rfl
    have hcommon := commonBytes_le_left ce.name previousName
    have hcommon' := commonBytes_le_right ce.name previousName
    have hdecode : ∀ (value : UInt64) rest, decodeVarint (varInt value ++ rest) =
        (value.toNat, rest) := by
      intro value rest
      rw [decodeVarint, getVarInt_varInt]
    simp only [ceWriteEntry, h.stripName, Bool.false_eq_true, if_false, take_drop_name,
      append_assoc, singleton_append]
    have hexpand : expandName 4 (varInt (UInt64.ofNat (previousName.length -
        commonBytes ce.name previousName)) ++ (ce.name.drop (commonBytes ce.name previousName) ++
          0 :: rest)) last = .ok (commonBytes ce.name previousName,
        ce.name.drop (commonBytes ce.name previousName) ++ 0 :: rest) := by
      rw [expandName, if_pos rfl, hdecode]
      cases last with
      | none =>
        rw [hfollows ce.name]
      | some pce =>
        obtain ⟨hlen, hlt, -⟩ := hfollows
        dsimp only
        rw [UInt64.toNat_ofNat_of_lt' (show _ < 2 ^ 64 by omega), if_neg (by omega)]
        grind
    have hcopy : ((last.map CacheEntry.name).getD []).take (commonBytes ce.name previousName) =
        ce.name.take (commonBytes ce.name previousName) := by
      cases last with
      | none => rw [hfollows ce.name, take_zero, take_zero]
      | some pce => exact hfollows.2.2 ce.name
    rw [createFromDisk_copy h hexpand hcommon hcopy, if_pos rfl]
    grind

/-! ## Sequences of entries -/

/-- The last of some entries, or the one before them. -/
def lastEntry (previous : Option CacheEntry) : List CacheEntry → Option CacheEntry
  | [] => previous
  | ce :: entries => lastEntry (some ce) entries

theorem lastEntry_concat (previous : Option CacheEntry) (entries : List CacheEntry)
    (ce : CacheEntry) : lastEntry previous (entries ++ [ce]) = some ce := by
  induction entries generalizing previous with
  | nil => rfl
  | cons e entries ih => exact ih (some e)

/-- The bytes are read as the entries, wherever they stand in a file. -/
def Reads (version hashsz : Nat) (previous : Option CacheEntry) (bytes : Bytes)
    (entries : List CacheEntry) : Prop :=
  ∀ pre rest, loadCacheEntryBlock version hashsz (pre ++ (bytes ++ rest)) entries.length pre.length
    previous = .ok (entries, bytes.length)

theorem Reads.nil (previous : Option CacheEntry) : Reads version hashsz previous [] [] :=
  fun _ _ => rfl

/-- Reading goes on behind the entries that were read. -/
theorem Reads.loadCacheEntryBlock_add {offset size : Nat}
    (h : loadCacheEntryBlock version hashsz mmap entries.length offset previous = .ok (entries, size))
    {consumed : Nat}
    (hce : createFromDisk version hashsz (mmap.drop (offset + size)) (lastEntry previous entries) =
      .ok (ce, consumed)) :
    loadCacheEntryBlock version hashsz mmap (entries.length + 1) offset previous =
      .ok (entries ++ [ce], size + consumed) := by
  induction entries generalizing previous offset size with
  | nil =>
    obtain rfl : 0 = size := (Prod.mk.inj (Except.ok.inj h)).2
    rw [length_nil, loadCacheEntryBlock]
    rw [Nat.add_zero, lastEntry] at hce
    rw [hce]
    exact congrArg (fun n => Except.ok ([ce], n)) (Nat.zero_add consumed).symm
  | cons e entries ih =>
    rw [length_cons, loadCacheEntryBlock] at h
    obtain ⟨⟨e', consumed'⟩, hfirst, h⟩ := exists_of_bind_eq_ok h
    obtain ⟨⟨others, size'⟩, hrest, h⟩ := exists_of_bind_eq_ok h
    obtain ⟨hentries, rfl⟩ := Prod.mk.inj (Except.ok.inj h)
    obtain ⟨rfl, rfl⟩ := List.cons.inj hentries
    have hnext := ih hrest (by rw [Nat.add_assoc]; exact hce)
    rw [length_cons, loadCacheEntryBlock, hfirst]
    dsimp only [bind, Except.bind]
    rw [hnext]
    rw [Nat.add_assoc]
    rfl

/-- An entry behind others is read after them. -/
theorem Reads.concat {bytes more : Bytes}
    (h : Reads version hashsz previous bytes entries)
    (hce : ∀ rest, createFromDisk version hashsz (more ++ rest) (lastEntry previous entries) =
      .ok (ce, more.length)) : Reads version hashsz previous (bytes ++ more) (entries ++ [ce]) := by
  intro pre rest
  rw [append_assoc, length_append, length_append, length_singleton]
  refine Reads.loadCacheEntryBlock_add (h pre (more ++ rest)) ?_
  rw [← drop_drop, drop_left, drop_left]
  exact hce rest

/-- The table of blocks that begin at an offset of the file. -/
def blockTable : Nat → List (Bytes × List CacheEntry) → List IndexEntryOffset
  | _, [] => []
  | start, part :: parts =>
    ⟨toInt32 start, part.2.length⟩ :: blockTable (start + part.1.length) parts

theorem blockTable_concat (start : Nat) (parts : List (Bytes × List CacheEntry))
    (part : Bytes × List CacheEntry) :
    blockTable start (parts ++ [part]) =
      blockTable start parts ++
        [⟨toInt32 (start + (parts.map Prod.fst).flatten.length), part.2.length⟩] := by
  induction parts generalizing start with
  | nil => rfl
  | cons p parts ih =>
    rw [cons_append, blockTable, blockTable, ih]
    simp only [map_cons, flatten_cons, length_append, Nat.add_assoc, cons_append]

/-- **The recorded blocks are read back** from a file that is smaller than `2^31` bytes. -/
theorem forall₂_blockTable {pre rest : Bytes} {parts : List (Bytes × List CacheEntry)}
    (hmmap : mmap = pre ++ ((parts.map Prod.fst).flatten ++ rest))
    (hsize : pre.length + (parts.map Prod.fst).flatten.length < 2 ^ 31)
    (hparts : ∀ part ∈ parts, Reads version hashsz none part.1 part.2) :
    List.Forall₂ (fun block result => loadRecordedBlock version hashsz mmap block = .ok result)
      (blockTable pre.length parts) (parts.map fun part => (part.2, part.1.length)) := by
  induction parts generalizing pre with
  | nil => exact List.Forall₂.nil
  | cons part parts ih =>
    rw [map_cons, flatten_cons] at hmmap hsize
    rw [length_append] at hsize
    refine List.Forall₂.cons ?_ ?_
    · rw [loadRecordedBlock, toInt32_of_lt (by omega), if_neg (Int.not_lt.mpr (Int.natCast_nonneg _)),
        Int.toNat_natCast, hmmap, append_assoc]
      exact hparts part mem_cons_self pre _
    · have hrest := @ih (pre ++ part.1) (by rw [hmmap]; simp only [append_assoc])
        (by rw [length_append]; omega) (forall_mem_cons.mp hparts).2
      rwa [length_append] at hrest

/-! ## The loop -/

section Loop

variable {config : WriteConfig} {parts : List (Bytes × List CacheEntry)}
  {current : Bytes × List CacheEntry} {st : WriteState}

/-- **The invariant of the loop**: the bytes that were written are those of the recorded blocks and of
the current one, and all of them are read as the entries that were written. -/
structure WriteInv (version hashsz : Nat) (parts : List (Bytes × List CacheEntry))
    (current : Bytes × List CacheEntry) (st : WriteState) : Prop where
  out : st.out = (parts.map Prod.fst).flatten ++ current.1
  written : st.written = (parts.map Prod.snd).flatten ++ current.2
  ieot : st.ieot = blockTable headerSize parts
  offset : st.offset = headerSize + (parts.map Prod.fst).flatten.length
  nr : st.nr = current.2.length
  reads : Reads version hashsz none st.out st.written
  readsPart : ∀ part ∈ parts, Reads version hashsz none part.1 part.2
  readsCurrent : Reads version hashsz none current.1 current.2
  previousName : st.previousName.isSome ↔ version = 4
  follows : Follows (lastEntry none st.written) st.previousName
  followsCurrent : Follows (lastEntry none current.2) st.previousName

theorem smudge_storable (h : Storable config.hashsz ce) : Storable config.hashsz (smudge config ce) := by
  rw [smudge]
  split
  · exact { h with }
  · exact h

section

variable (h : WriteInv version config.hashsz parts current st)

include h

/-- An entry is appended to the current block. -/
theorem WriteInv.write (hce : Storable config.hashsz ce) :
    WriteInv version config.hashsz parts
      (current.1 ++ (ceWriteEntry config.hashsz ce st.previousName).1, current.2 ++ [ce])
      (st.write config.hashsz ce) := by
  have hkeep : { ce with stripName := false } = ce := by
    rw [← hce.stripName]
  have hread {last : Option CacheEntry} (hfollows : Follows last st.previousName) (rest : Bytes) :=
    createFromDisk_ceWriteEntry hce h.previousName hfollows rest
  constructor
  case out => rw [WriteState.write, h.out, append_assoc]
  case written => rw [WriteState.write, h.written, append_assoc, hkeep]
  case ieot => exact h.ieot
  case offset => exact h.offset
  case nr =>
    rw [WriteState.write, h.nr, length_append]
    rfl
  case reads =>
    rw [WriteState.write, hkeep]
    exact h.reads.concat (hread h.follows)
  case readsPart => exact h.readsPart
  case readsCurrent => exact h.readsCurrent.concat (hread h.followsCurrent)
  case previousName =>
    rw [← h.previousName, WriteState.write]
    cases st.previousName <;> rfl
  case follows =>
    rw [WriteState.write, hkeep, lastEntry_concat]
    exact follows_ceWriteEntry hce st.previousName
  case followsCurrent =>
    rw [WriteState.write, lastEntry_concat]
    exact follows_ceWriteEntry hce st.previousName

/-- The current block is recorded, and an empty one begins. -/
theorem WriteInv.startBlock :
    WriteInv version config.hashsz (parts ++ [current]) ([], []) st.startBlock := by
  constructor
  case out => simp [WriteState.startBlock, WriteState.closeBlock, h.out]
  case written => simp [WriteState.startBlock, WriteState.closeBlock, h.written]
  case ieot =>
    rw [blockTable_concat, ← h.ieot, ← h.offset, ← h.nr]
    rfl
  case offset => simp [WriteState.startBlock, h.out]
  case nr => rfl
  case reads => exact h.reads
  case readsPart =>
    exact forall_mem_append.mpr ⟨h.readsPart, forall_mem_singleton.mpr h.readsCurrent⟩
  case readsCurrent => exact Reads.nil none
  case previousName =>
    rw [WriteState.startBlock, Option.isSome_map]
    exact h.previousName
  case follows => exact (follows_clear h.follows).1
  case followsCurrent => exact (follows_clear h.follows).2

/-- **The loop keeps the invariant** and writes all entries. -/
theorem WriteInv.writeLoop
    {entries : List CacheEntry} (hstorable : ∀ ce ∈ entries, Storable config.hashsz ce)
    (hoid : ∀ ce ∈ entries, isNullOid ce.oid = true → config.allowNullSha1 = true) (i : Nat) :
    ∃ st', Index.writeLoop config i entries st = .ok st' ∧
      st'.written = st.written ++ entries.map (smudge config) ∧
      ∃ parts' current', WriteInv version config.hashsz parts' current' st' := by
  induction entries generalizing i st parts current with
  | nil => exact ⟨st, rfl, (append_nil _).symm, parts, current, h⟩
  | cons ce entries ih =>
    have hce := hstorable ce mem_cons_self
    have hsmudged := smudge_storable hce
    have hvalid : ¬ (isNullOid ce.oid && !config.allowNullSha1) = true := by grind
    -- the state in which the entry is written, in the current block or in a new one
    obtain ⟨parts₁, current₁, h₁, hwritten⟩ : ∃ parts₁ current₁,
        WriteInv version config.hashsz parts₁ current₁
          (if beginsBlock config i then st.startBlock else st) ∧
        (if beginsBlock config i then st.startBlock else st).written = st.written := by
      split
      · exact ⟨_, _, h.startBlock, rfl⟩
      · exact ⟨_, _, h, rfl⟩
    obtain ⟨st', hloop, hst', hinv⟩ := ih (h₁.write hsmudged)
      (forall_mem_cons.mp hstorable).2
      (forall_mem_cons.mp hoid).2 (i + 1)
    refine ⟨st', ?_, ?_, hinv⟩
    · rw [Index.writeLoop, if_neg (by rw [hce.remove]; exact Bool.false_ne_true), if_neg hvalid]
      exact hloop
    have hkeep : { smudge config ce with stripName := false } = smudge config ce := by
      rw [← hsmudged.stripName]
    rw [hst', WriteState.write, hkeep, hwritten, map_cons, append_assoc]
    rfl

/-- At the end the last block is recorded, unless it is empty; then the blocks are all there is. -/
theorem WriteInv.closeBlock :
    ∃ parts', (if st.nr ≠ 0 then st.closeBlock else st).ieot = blockTable headerSize parts' ∧
      st.out = (parts'.map Prod.fst).flatten ∧ st.written = (parts'.map Prod.snd).flatten ∧
      ∀ part ∈ parts', Reads version config.hashsz none part.1 part.2 := by
  split
  · refine ⟨parts ++ [current], ?_, ?_, ?_, h.startBlock.readsPart⟩
    · exact h.startBlock.ieot
    · rw [h.out]
      simp
    · rw [h.written]
      simp
  · next hnr =>
    have hempty : current.2 = [] := by
      rw [h.nr, Ne, not_not] at hnr
      exact length_eq_zero_iff.mp hnr
    -- no entries take no bytes
    have hbytes : current.1 = [] := by
      have hread := h.readsCurrent [] []
      rw [hempty] at hread
      exact length_eq_zero_iff.mp (Prod.mk.inj (Except.ok.inj hread)).2.symm
    refine ⟨parts, h.ieot, ?_, ?_, h.readsPart⟩
    · rw [h.out, hbytes, append_nil]
    · rw [h.written, hempty, append_nil]

end

end Loop

/-! ## The file -/

section File

variable (config : WriteConfig) (version : Nat) (entries : List CacheEntry)

/-- **The entries of an index file are read back**, in one pass and block by block.

The loop of `do_write_index` writes the entries, unless one of them has a null object id that is not
allowed. What it writes behind the header is read as the same entries, with the sizes of those that
were smudged, in all three versions; and if the entries end before `2^31` bytes, each recorded
block is read for itself. The blocks make up the entries, and their lengths add up to the bytes that
were written. -/
theorem writeEntries_roundTrip (hstorable : ∀ ce ∈ entries, Storable config.hashsz ce)
    (hoid : ∀ ce ∈ entries, isNullOid ce.oid = true → config.allowNullSha1 = true) :
    ∃ st, writeEntries config (hdrVersion version entries) entries = .ok st ∧
      st.written = entries.map (smudge config) ∧
      ∀ header rest, header.length = headerSize →
        loadCacheEntryBlock (hdrVersion version entries) config.hashsz (header ++ (st.out ++ rest))
            entries.length headerSize none = .ok (st.written, st.out.length) ∧
          (config.ieotEntries.isSome → headerSize + st.out.length < 2 ^ 31 →
            ∃ results, List.Forall₂ (fun block result =>
                loadRecordedBlock (hdrVersion version entries) config.hashsz
                  (header ++ (st.out ++ rest)) block = .ok result) st.ieot results ∧
              (results.map Prod.fst).flatten = st.written ∧
              (results.map Prod.snd).sum = st.out.length) := by
  have hinit : WriteInv (hdrVersion version entries) config.hashsz [] ([], [])
      { out := [], previousName := if hdrVersion version entries = 4 then some [] else none, nr := 0,
        offset := headerSize, ieot := [], written := [] } := by
    constructor
    case previousName => split <;> simp [*]
    case follows => split <;> [exact follows_nil; trivial]
    case followsCurrent => split <;> [exact follows_nil; trivial]
    case readsPart => exact nofun
    case reads => exact Reads.nil none
    case readsCurrent => exact Reads.nil none
    all_goals rfl
  obtain ⟨st, hloop, hwritten, parts, current, hinv⟩ := hinit.writeLoop hstorable hoid 0
  obtain ⟨parts', hieot, hout, hparts, hreads⟩ := hinv.closeBlock
  refine ⟨if config.ieotEntries.isSome && st.nr ≠ 0 then st.closeBlock else st, ?_, ?_, ?_⟩
  · rw [writeEntries, hloop]
    rfl
  · split <;> exact hwritten
  -- recording the last block changes neither the bytes nor the entries
  have hsame : (if config.ieotEntries.isSome && st.nr ≠ 0 then st.closeBlock else st).out = st.out ∧
      (if config.ieotEntries.isSome && st.nr ≠ 0 then st.closeBlock else st).written =
        st.written := by
    split <;> exact ⟨rfl, rfl⟩
  intro header rest hheader
  rw [hsame.1, hsame.2]
  constructor
  · have hread := hinv.reads header rest
    grind
  intro hsome hsize
  refine ⟨parts'.map fun part => (part.2, part.1.length), ?_, ?_, ?_⟩
  · simp only [hsome, Bool.true_and, decide_eq_true_eq]
    rw [hieot, ← hheader]
    rw [hout, ← hheader] at hsize
    exact forall₂_blockTable (by rw [hout]) hsize hreads
  · rw [hparts, map_map]
    rfl
  · rw [hout, length_flatten, map_map, map_map]
    rfl

end File

/-- An entry with a name and an object id of equal bytes. -/
def shortEntry (name : Name) (oid : UInt8) : CacheEntry where
  statData := ⟨⟨1, 2⟩, ⟨3, 4⟩, 5, 6, 7, 8, 9⟩
  mode := 0o100644
  oid := List.replicate 20 oid
  name := name
  stage := mergedStage
  valid := true
  intentToAdd := false
  skipWorktree := true
  remove := false
  stripName := false

/-- A block for every entry, and nothing racy. -/
def shortConfig : WriteConfig := ⟨20, fun _ => false, false, some 1⟩

/-- The entry `a` with a null object id is not written. -/
theorem writeEntries_null :
    writeEntries shortConfig (hdrVersion 4 [shortEntry [97] 0]) [shortEntry [97] 0] =
      .error (.nullSha1 [97]) := by
  rfl

/-- Two entries in version 4, each in a block of its own. -/
theorem writeEntries_roundTrip_two :
    ∃ st, writeEntries shortConfig (hdrVersion 4 [shortEntry [97, 47, 98] 1, shortEntry [97, 47, 99] 2])
        [shortEntry [97, 47, 98] 1, shortEntry [97, 47, 99] 2] = .ok st ∧
      st.written.length = 2 := by
  obtain ⟨st, hst, hwritten, -⟩ := writeEntries_roundTrip shortConfig 4
    [shortEntry [97, 47, 98] 1, shortEntry [97, 47, 99] 2]
    (by
      intro ce hce
      rcases mem_cons.mp hce with rfl | hce
      · exact ⟨rfl, by decide, by decide, rfl, rfl⟩
      · rw [mem_singleton.mp hce]
        exact ⟨rfl, by decide, by decide, rfl, rfl⟩)
    (by decide)
  exact ⟨st, hst, by rw [hwritten]; rfl⟩

end GitCore.Index
