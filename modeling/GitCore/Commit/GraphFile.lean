import GitCore.Commit.Generation
import GitCore.Lib.SideTable
import GitCore.Notes.Tree
import GitCore.Reftable.Basics

/-! # Dates and generations in a commit-graph file

A commit-graph file has the date of a commit in 34 bits, which share two words with the 30 bits of
its topological level. Its corrected commit date is stored as an offset from the date, in a word of the
generation data chunk; an offset of more than 31 bits is in a chunk of its own, and the word has its
place there. The two chunks are written one after the other, and each counts these commits again.
`fill_commit_graph_info` puts all of it together. -/

namespace GitCore.GraphFile

open Commit (generationNumberV1Max)
open Notes (HashAlgo Oid)
open Reftable (Bytes putBe32 putBe64 getBe32 getBe64 getBe32_putBe32 getBe64_putBe64)

variable {algo : HashAlgo}

/-! ## Writing -/

/-- `GENERATION_NUMBER_V2_OFFSET_MAX` -/
def generationNumberV2OffsetMax : UInt64 := 0x7fffffff

/-- `CORRECTED_COMMIT_DATE_OFFSET_OVERFLOW` -/
def correctedCommitDateOffsetOverflow : UInt32 := 0x80000000

/-- `GRAPH_EDGE_LAST_MASK`: `write_commit_graph` refuses to write that many commits. -/
def graphEdgeLastMask : Nat := 0x7fffffff

/-- What is written about a commit. The values of its two edges are the positions of its parents. -/
structure Entry (algo : HashAlgo) where
  tree : Oid algo
  edges : UInt32 × UInt32
  date : UInt64
  generation : UInt64
  topoLevel : UInt32

/-- `commit_graph_data_at(c)->generation - c->date` -/
def Entry.offset (c : Entry algo) : UInt64 := c.generation - c.date

/-- The offset does not fit into a word. -/
def Entry.overflows (c : Entry algo) : Bool := generationNumberV2OffsetMax < c.offset

/-- `packedDate[0]`: the upper bits of the date and the level. -/
def Entry.packedDate (c : Entry algo) : UInt32 :=
  ((c.date >>> 32) &&& 0x3).toUInt32 ||| (c.topoLevel <<< 2)

/-- The loop body of `write_graph_chunk_data` -/
def Entry.data (c : Entry algo) : Bytes :=
  c.tree.1 ++ (putBe32 c.edges.1.toNat ++ (putBe32 c.edges.2.toNat ++
    (putBe32 c.packedDate.toNat ++ putBe32 c.date.toUInt32.toNat)))

/-- `write_graph_chunk_data` -/
def writeGraphChunkData (commits : List (Entry algo)) : Bytes := commits.flatMap Entry.data

/-- The word of a commit in the generation data, after this number of overflowing ones -/
def offsetWord (numGenerationDataOverflows : Nat) (c : Entry algo) : UInt32 :=
  if c.overflows then
    correctedCommitDateOffsetOverflow ||| UInt32.ofNat numGenerationDataOverflows
  else c.offset.toUInt32

/-- `write_graph_chunk_generation_data`: the loop counts the commits that overflow. -/
def writeGraphChunkGenerationData (commits : List (Entry algo)) : Bytes :=
  numberedFlatMap Entry.overflows (fun n c => putBe32 (offsetWord n c).toNat) 0 commits

/-- `write_graph_chunk_generation_data_overflow` -/
def writeGraphChunkGenerationDataOverflow (commits : List (Entry algo)) : Bytes :=
  (commits.filter Entry.overflows).flatMap fun c : Entry algo =>
    putBe32 (c.offset >>> (32 : UInt64)).toUInt32.toNat ++ putBe32 c.offset.toUInt32.toNat

/-- The chunks of a file -/
structure Chunks where
  commitData : Bytes
  generationData : Option Bytes
  generationDataOverflow : Option Bytes

/-- What `write_commit_graph` writes with generation data, `none` for too many commits. -/
def writeCommitGraph (commits : List (Entry algo)) : Option Chunks :=
  if graphEdgeLastMask ≤ commits.length then none
  else
    some
      { commitData := writeGraphChunkData commits
        generationData := some (writeGraphChunkGenerationData commits)
        generationDataOverflow :=
          if commits.countP Entry.overflows ≠ 0 then
            some (writeGraphChunkGenerationDataOverflow commits)
          else none }

/-! ## Reading -/

/-- `graph_data_width` -/
def graphDataWidth (algo : HashAlgo) : Nat := algo.rawsz + 16

/-- `struct commit_graph`, without its base graphs -/
structure CommitGraph where
  numCommits : Nat
  numCommitsInBase : Nat
  chunkCommitData : Bytes
  chunkGenerationData : Bytes
  chunkGenerationDataOverflow : Option Bytes
  readGenerationData : Bool
  /-- `topo_levels` is not `NULL`. -/
  topoLevels : Bool

/-- `parse_commit_graph` of a file with this number of commits: a generation data chunk of the wrong
size is ignored. -/
def parseCommitGraph (algo : HashAlgo) (numCommits numCommitsInBase : Nat) (topoLevels : Bool)
    (chunks : Chunks) : Option CommitGraph :=
  if chunks.commitData.length / graphDataWidth algo ≠ numCommits then none
  else
    let generationData := chunks.generationData.filter fun data => data.length / 4 = numCommits
    some
      { numCommits := numCommits
        numCommitsInBase := numCommitsInBase
        chunkCommitData := chunks.commitData
        chunkGenerationData := generationData.getD []
        chunkGenerationDataOverflow := chunks.generationDataOverflow
        readGenerationData := generationData.isSome
        topoLevels := topoLevels }

/-- Why nothing is read: the function dies, or it would read behind a chunk. -/
inductive FillError
  | invalidPosition
  | noOverflowData
  | overflowDataTooSmall
  | outOfBounds
deriving DecidableEq, Repr

/-- What is read about a commit -/
structure GraphInfo where
  date : UInt64
  generation : UInt64
  topoLevel : Option UInt32
deriving DecidableEq, Repr

/-- A word at an offset -/
def readWord (bytes : Bytes) (off : Nat) : Except FillError UInt32 :=
  match getBe32 (bytes.drop off) with
  | none => .error .outOfBounds
  | some word => .ok (UInt32.ofNat word)

/-- The offset of the generation of the commit at `lexIndex` from its date -/
def readOffset (g : CommitGraph) (lexIndex : Nat) : Except FillError UInt64 := do
  let offset ← readWord g.chunkGenerationData (4 * lexIndex)
  if offset &&& correctedCommitDateOffsetOverflow ≠ 0 then
    match g.chunkGenerationDataOverflow with
    | none => .error .noOverflowData
    | some overflow =>
      let offsetPos := offset ^^^ correctedCommitDateOffsetOverflow
      if overflow.length / 8 ≤ offsetPos.toNat then .error .overflowDataTooSmall
      else
        match getBe64 (overflow.drop (8 * offsetPos.toNat)) with
        | none => .error .outOfBounds
        | some offset => .ok offset
  else .ok offset.toUInt64

/-- `fill_commit_graph_info` in a chain of graphs, the one with the highest positions first -/
def fillCommitGraphInfo (algo : HashAlgo) : List CommitGraph → Nat → Except FillError GraphInfo
  | [], _ => .error .invalidPosition
  | g :: base, pos =>
    if pos < g.numCommitsInBase then fillCommitGraphInfo algo base pos
    else if g.numCommits + g.numCommitsInBase ≤ pos then .error .invalidPosition
    else do
      let lexIndex := pos - g.numCommitsInBase
      let commitData := graphDataWidth algo * lexIndex
      let packed ← readWord g.chunkCommitData (commitData + algo.rawsz + 8)
      let dateLow ← readWord g.chunkCommitData (commitData + algo.rawsz + 12)
      let date := ((packed &&& 0x3).toUInt64 <<< 32) ||| dateLow.toUInt64
      let generation ←
        if g.readGenerationData then do
          let offset ← readOffset g lexIndex
          .ok (date + offset)
        else .ok (packed >>> 2).toUInt64
      .ok ⟨date, generation, if g.topoLevels then some (packed >>> 2) else none⟩

/-! ## The words -/

variable {c : Entry algo}

/-- The word with the level holds the upper two bits of the date. -/
theorem toNat_packedDate (hdate : c.date.toNat < 2 ^ 34)
    (hlevel : c.topoLevel.toNat ≤ generationNumberV1Max) :
    c.packedDate.toNat = 2 ^ 2 * c.topoLevel.toNat + c.date.toNat / 2 ^ 32 := by
  have hlevel : c.topoLevel.toNat ≤ 0x3FFFFFFF := hlevel
  have hhigh : c.date.toNat / 2 ^ 32 < 2 ^ 2 := by omega
  have hand : (c.date.toNat / 2 ^ 32) &&& 3 = c.date.toNat / 2 ^ 32 := by
    rw [Nat.and_two_pow_sub_one_eq_mod _ 2, Nat.mod_eq_of_lt hhigh]
  rw [Nat.two_pow_add_eq_or_of_lt hhigh, Nat.lor_comm, Entry.packedDate, UInt32.toNat_or,
    UInt64.toNat_toUInt32, UInt64.toNat_and, UInt64.toNat_shiftRight, UInt32.toNat_shiftLeft]
  simp only [UInt64.reduceToNat, UInt32.reduceToNat, Nat.reduceMod, Nat.shiftRight_eq_div_pow, hand,
    Nat.shiftLeft_eq]
  grind

/-- **A date and a level** are restored from the two words they share. -/
theorem date_packedDate (hdate : c.date.toNat < 2 ^ 34)
    (hlevel : c.topoLevel.toNat ≤ generationNumberV1Max) :
    ((c.packedDate &&& 0x3).toUInt64 <<< 32) ||| c.date.toUInt32.toUInt64 = c.date ∧
      c.packedDate >>> 2 = c.topoLevel := by
  have hpacked := toNat_packedDate hdate hlevel
  have hand : c.packedDate.toNat &&& 3 = c.date.toNat / 2 ^ 32 := by
    rw [Nat.and_two_pow_sub_one_eq_mod _ 2, hpacked]
    omega
  constructor
  · apply UInt64.toNat_inj.mp
    rw [UInt64.toNat_or, UInt64.toNat_shiftLeft, UInt32.toNat_toUInt64, UInt32.toNat_and]
    simp only [UInt64.reduceToNat, UInt32.reduceToNat, Nat.reduceMod, hand, Nat.shiftLeft_eq,
      UInt32.toNat_toUInt64, UInt64.toNat_toUInt32]
    rw [Nat.mod_eq_of_lt (show c.date.toNat / 2 ^ 32 * 2 ^ 32 < 2 ^ 64 by omega), Nat.mul_comm,
      ← Nat.two_pow_add_eq_or_of_lt (Nat.mod_lt _ (by omega)), Nat.div_add_mod]
  · apply UInt32.toNat_inj.mp
    rw [UInt32.toNat_shiftRight, hpacked]
    simp only [UInt32.reduceToNat, Nat.reduceMod, Nat.shiftRight_eq_div_pow]
    omega

/-- The two words of an offset are those of a number of 64 bits. -/
theorem putBe32_halves (v : UInt64) :
    putBe32 (v >>> 32).toUInt32.toNat ++ putBe32 v.toUInt32.toNat = putBe64 v := by
  simp [putBe32, putBe64, ← UInt8.toNat_inj, Nat.shiftRight_eq_div_pow]
  omega

/-- A word is read where it was written. -/
theorem readWord_eq {bytes rest : Bytes} {off : Nat} {word : UInt32}
    (h : bytes.drop off = putBe32 word.toNat ++ rest) : readWord bytes off = .ok word := by
  rw [readWord, h, getBe32_putBe32 word.toNat_lt]
  simp

/-! ## What is read -/

variable {commits : List (Entry algo)} {chunks : Chunks} {i : Nat}

theorem length_data (c : Entry algo) : c.data.length = graphDataWidth algo := by
  simp [Entry.data, graphDataWidth, c.tree.2]

theorem length_offset : ∀ n, ∀ c ∈ commits, (putBe32 (offsetWord n c).toNat).length = 4 :=
  fun _ _ _ => rfl

theorem length_writeGraphChunkGenerationDataOverflow :
    (writeGraphChunkGenerationDataOverflow commits).length =
      8 * commits.countP Entry.overflows := by
  rw [List.countP_eq_length_filter]
  exact length_flatMap_of_width fun _ _ => by simp

/-- **The words of the date** of a commit, where they are read. -/
theorem readWord_data (hc : commits[i]? = some c) :
    readWord (writeGraphChunkData commits) (graphDataWidth algo * i + algo.rawsz + 8) =
        .ok c.packedDate ∧
      readWord (writeGraphChunkData commits) (graphDataWidth algo * i + algo.rawsz + 12) =
        .ok c.date.toUInt32 := by
  have hdrop := drop_flatMap (fun c _ => length_data c) hc
  constructor
  all_goals
    apply readWord_eq
    rw [writeGraphChunkData, Nat.add_assoc, ← List.drop_drop, hdrop, Entry.data, ← List.drop_drop,
      List.append_assoc, List.drop_left' c.tree.2]
    rfl

/-- **The offset of a commit**, whether it overflows or not, is found again. -/
theorem readOffset_eq (h : commits.length < 2 ^ 31) {g : CommitGraph}
    (hdata : g.chunkGenerationData = writeGraphChunkGenerationData commits)
    (hoverflow : g.chunkGenerationDataOverflow = if commits.countP Entry.overflows ≠ 0 then
      some (writeGraphChunkGenerationDataOverflow commits) else none)
    (hc : commits[i]? = some c) : readOffset g i = .ok c.offset := by
  obtain ⟨rest, hrest⟩ := drop_numberedFlatMap (p := Entry.overflows) length_offset 0 hc
  have hword := readWord_eq hrest
  rw [← writeGraphChunkGenerationData, ← hdata, Nat.zero_add] at hword
  rw [readOffset, hoverflow]
  by_cases hover : c.overflows = true
  · -- the place in the overflow data is the number of overflowing commits before
    have hplace := getElem?_filter_countP_take hc hover
    obtain ⟨hlt, -⟩ := List.getElem?_eq_some_iff.mp hplace
    rw [← List.countP_eq_length_filter] at hlt
    have hle := List.countP_le_length (p := Entry.overflows) (l := commits)
    have hnat : (UInt32.ofNat ((commits.take i).countP Entry.overflows)).toNat =
        (commits.take i).countP Entry.overflows :=
      UInt32.toNat_ofNat_of_lt' (show _ < 2 ^ 32 by omega)
    have hoverflowFlag : correctedCommitDateOffsetOverflow.toNat = 2 ^ 31 := rfl
    obtain ⟨hflag, hxor⟩ := and_xor_flag hoverflowFlag (hnat.trans_lt (by omega))
    rw [offsetWord, if_pos hover] at hword
    rw [hword, if_pos (show commits.countP Entry.overflows ≠ 0 by omega)]
    simp only [bind, Except.bind, if_pos hflag, hxor, hnat,
      length_writeGraphChunkGenerationDataOverflow]
    rw [if_neg (by omega), writeGraphChunkGenerationDataOverflow,
      drop_flatMap (fun _ _ => by simp) hplace, putBe32_halves, getBe64_putBe64]
  · have hsmall : c.offset.toNat < 2 ^ 31 := by
      have : ¬ generationNumberV2OffsetMax < c.offset := by simpa [Entry.overflows] using hover
      exact Nat.lt_succ_of_le (UInt64.not_lt.mp this)
    have hoffset : c.offset.toUInt32.toNat = c.offset.toNat := by
      rw [UInt64.toNat_toUInt32, Nat.mod_eq_of_lt (by omega)]
    rw [offsetWord, if_neg hover] at hword
    rw [hword]
    simp only [bind, Except.bind]
    rw [if_neg (not_not.mpr (and_flag_eq_zero rfl (by omega)))]
    congr 1
    exact UInt64.toNat_inj.mp (by rw [UInt32.toNat_toUInt64, hoffset])

/-- **Dates and generations** are read as they were written, from any file and at every position. -/
theorem fillCommitGraphInfo_writeCommitGraph (base : List CommitGraph) (numBase : Nat)
    (topoLevels : Bool) (hwrite : writeCommitGraph commits = some chunks)
    (hdate : ∀ c ∈ commits, c.date.toNat < 2 ^ 34)
    (hlevel : ∀ c ∈ commits, c.topoLevel.toNat ≤ generationNumberV1Max) :
    ∃ g, parseCommitGraph algo commits.length numBase topoLevels chunks = some g ∧
      ∀ i c, commits[i]? = some c →
        fillCommitGraphInfo algo (g :: base) (numBase + i) =
          .ok ⟨c.date, c.generation, if topoLevels then some c.topoLevel else none⟩ := by
  rw [writeCommitGraph] at hwrite
  split at hwrite
  · cases hwrite
  next hlength =>
    have hlength : commits.length < 2 ^ 31 - 1 := Nat.not_le.mp hlength
    obtain rfl := Option.some.inj hwrite
    have hdata : (writeGraphChunkData commits).length = graphDataWidth algo * commits.length :=
      length_flatMap_of_width fun c _ => length_data c
    have hfilter : (some (writeGraphChunkGenerationData commits)).filter
        (fun data => data.length / 4 = commits.length) =
          some (writeGraphChunkGenerationData commits) := by
      simp [Option.filter_some, writeGraphChunkGenerationData, length_numberedFlatMap length_offset]
    have hpos : 0 < graphDataWidth algo := Nat.succ_pos _
    rw [parseCommitGraph, hdata, Nat.mul_div_cancel_left _ hpos, if_neg (by simp)]
    rw [hfilter]
    refine ⟨_, rfl, ?_⟩
    intro i c hc
    obtain ⟨hi, -⟩ := List.getElem?_eq_some_iff.mp hc
    have hmem := List.mem_of_getElem? hc
    obtain ⟨hpacked, hlow⟩ := readWord_data hc
    obtain ⟨hrestored, hshift⟩ := date_packedDate (hdate c hmem) (hlevel c hmem)
    rw [fillCommitGraphInfo, if_neg (by simp), if_neg (by simp; omega)]
    simp only [Nat.add_sub_cancel_left, hpacked, hlow, bind, Except.bind, hrestored, hshift,
      Option.isSome_some, if_true]
    rw [readOffset_eq (by omega) rfl rfl hc]
    simp [Entry.offset, UInt64.add_comm c.date]

/-- Three commits: the first and the last overflow. -/
def skewed : List (Entry .sha1) :=
  [⟨Notes.nullOid .sha1, (0x70000000, 0x70000000), 0, 0x80000000, 1⟩,
    ⟨Notes.nullOid .sha1, (0, 0x70000000), 0x3ffffffff, 0x3ffffffff, 2⟩,
    ⟨Notes.nullOid .sha1, (1, 0), 5, 0xffffffffffffffff, 0x3fffffff⟩]

theorem fillCommitGraphInfo_skewed :
    ∃ chunks, writeCommitGraph skewed = some chunks ∧
      ∃ g, parseCommitGraph .sha1 3 7 true chunks = some g ∧
        ∀ i c, skewed[i]? = some c →
          fillCommitGraphInfo .sha1 [g] (7 + i) = .ok ⟨c.date, c.generation, some c.topoLevel⟩ :=
  ⟨_, rfl, @fillCommitGraphInfo_writeCommitGraph _ skewed _ [] 7 true rfl (by decide) (by decide)⟩

end GitCore.GraphFile
