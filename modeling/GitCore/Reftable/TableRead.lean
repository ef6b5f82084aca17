import GitCore.Reftable.BlockRoundTrip
import GitCore.Reftable.Table

/-! # What a reader finds in a table

A section of a table is a sequence of blocks, each starting where the one before it ends, up to an
offset where no block of its type starts (`Section`). An index over a section is a number of levels,
each with a record for every block of the level below it (`IndexOver`). Reading a section hands out
the records of its blocks, and both kinds of seeks lead to the first record that is not below the
wanted key. -/

namespace GitCore.Reftable

open List Overlay

/-! ## Blocks -/

section Blocks

variable {α : Type} {codec : RecordCodec α} {block : Block}

/-- What a reader finds in a block. -/
structure Block.Reads (codec : RecordCodec α) (block : Block) (rs : List α) : Prop where
  start : Produces (blockIterNext codec block) (blockIterSeekStart block) rs
  firstKey : ∀ r ∈ rs.head?, reftableBlockFirstKey block = .ok (codec.key r)
  seek : Run codec.key rs → rs ≠ [] → ∀ it want, ∃ it',
    blockIterSeekKey codec block it want = .ok it' ∧
      Produces (blockIterNext codec block) it' (rs.filter fun r => want ≤ codec.key r)

/-- A block that holds entries is read as such. -/
theorem Block.Holds.reads {es : List (Entry α)} (h : block.Holds codec es) :
    block.Reads codec (es.map Entry.record) where
  start := produces_entries h.wf h.linked h.view h.restartOff_le
  firstKey := by
    intro r hr
    cases es with
    | nil => cases hr
    | cons e es =>
      obtain rfl := Option.some.inj hr
      have hwf := h.wf e mem_cons_self
      rw [reftableBlockFirstKey, h.view, entriesBytes_cons, decodeKey_bytes hwf h.linked.1]
      exact if_neg hwf.key_ne_nil
  seek := by
    intro hrun hne it want
    have hrun' : Run (Entry.key codec) es := (run_map (f := Entry.record)).mp hrun
    obtain ⟨it', hseek, hproduces⟩ := h.seek hrun' (fun hnil => hne (by rw [hnil]; rfl)) it want
    refine ⟨it', hseek, ?_⟩
    rw [filter_map]
    exact hproduces

end Blocks

section Table

variable {zlib : Zlib} {t : Table} {hashSize off : Nat}

/-- A block of the given type lies at `off`, and the next one, if any, at `next`. -/
structure BlockAt (zlib : Zlib) (t : Table) (type : BlockType) (off : Nat)
    (rs : List (BlockRecord hashSize type)) (next : Nat) : Prop where
  ne_nil : rs ≠ []
  lt_next : off < next
  lt_size : off < t.size
  init : ∃ block, (∀ want, want = none ∨ want = some type →
      tableInitBlock zlib t off want = .ok (some block)) ∧
    block.type = type ∧ block.Reads (recordCodec hashSize type) rs ∧
    off + block.fullBlockSize = next

/-- Blocks of the type with their offsets, one behind the other from `off` on, and none behind
them. -/
def Section (zlib : Zlib) (t : Table) (type : BlockType) :
    Nat → List (Nat × List (BlockRecord hashSize type)) → Prop
  | off, [] => tableInitBlock zlib t off (some type) = .ok none
  | off, b :: bs => b.1 = off ∧ ∃ next, BlockAt zlib t type off b.2 next ∧ Section zlib t type next bs

/-- The records of some blocks. -/
def blockRecords {α : Type} (bs : List (Nat × List α)) : List α := bs.flatMap Prod.snd

/-- An iterator in a block with the given records, behind which the next block is at `next`. -/
structure TableIter.At (ti : TableIter) (type : BlockType)
    (rs : List (BlockRecord hashSize type)) (next : Nat) : Prop where
  typ : ti.typ = type
  isFinished : ti.isFinished = false
  ne_nil : rs ≠ []
  reads : ti.block.Reads (recordCodec hashSize type) rs
  next_eq : ti.blockOff + ti.block.fullBlockSize = next

variable {type : BlockType} {bs : List (Nat × List (BlockRecord hashSize type))}

/-- There are at most as many blocks as bytes. -/
theorem Section.length_le (h : Section zlib t type off bs) :
    bs.length ≤ t.size - off := by
  induction bs generalizing off with
  | nil => exact Nat.zero_le _
  | cons b bs ih =>
    obtain ⟨-, next, hblock, hrest⟩ := h
    have hlen := ih hrest
    have hlt := hblock.lt_next
    have hsize := hblock.lt_size
    rw [length_cons]
    omega

variable {b : Nat × List (BlockRecord hashSize type)}

/-- The section from one of its blocks on. -/
theorem Section.of_append {pre post : List (Nat × List (BlockRecord hashSize type))}
    (h : Section zlib t type off (pre ++ b :: post)) :
    ∃ next, BlockAt zlib t type b.1 b.2 next ∧ Section zlib t type next post := by
  induction pre generalizing off with
  | nil =>
    obtain ⟨rfl, next, hblock, hrest⟩ := h
    exact ⟨next, hblock, hrest⟩
  | cons b' pre ih =>
    obtain ⟨-, next, -, hrest⟩ := h
    exact ih hrest

/-! ## Reading on -/

variable {ti : TableIter} {next : Nat}

/-- `table_iter_next_block` at the end of a section. -/
theorem tableIterNextBlock_end (htyp : ti.typ = type)
    (hnext : ti.blockOff + ti.block.fullBlockSize = next)
    (h : Section zlib t type next ([] : List (Nat × List (BlockRecord hashSize type)))) :
    tableIterNextBlock zlib t ti = .ok none := by
  unfold tableIterNextBlock
  dsimp only
  rw [hnext, htyp]
  rw [h]

variable {rs : List (BlockRecord hashSize type)} {α : Type}

/-- `table_iter_next_block` inside a section. -/
theorem tableIterNextBlock_block {next' : Nat} (htyp : ti.typ = type)
    (hnext : ti.blockOff + ti.block.fullBlockSize = next) (h : BlockAt zlib t type next rs next') :
    ∃ ti', tableIterNextBlock zlib t ti = .ok (some ti') ∧ ti'.At type rs next' ∧
      ti'.bi = blockIterSeekStart ti'.block := by
  obtain ⟨block, hinit, hty, hreads, hfull⟩ := h.init
  refine ⟨⟨ti.typ, next, block, blockIterSeekStart block, false⟩, ?_, ?_, rfl⟩
  · unfold tableIterNextBlock
    grind
  · exact ⟨htyp, rfl, h.ne_nil, hreads, hfull⟩

section

variable {r : BlockRecord hashSize type} (hfin : ti.isFinished = false)
  (h : Produces (blockIterNext (recordCodec hashSize type) ti.block) ti.bi (r :: rs))
include hfin h

/-- A round of `table_iter_next` inside a block. -/
theorem tableIterNextLoop_record (fuel : Nat) :
    ∃ bi, tableIterNextLoop zlib t hashSize type (fuel + 1) ti =
        .ok (some (t.restore type r), { ti with bi := bi }) ∧
      Produces (blockIterNext (recordCodec hashSize type) ti.block) bi rs := by
  obtain ⟨bi, hbi, hrest⟩ := h
  refine ⟨bi, ?_, hrest⟩
  rw [tableIterNextLoop, hfin, hbi]
  rfl

/-- A call of `table_iter_next` inside a block. -/
theorem tableIterNext_record (htyp : ti.typ = type) :
    ∃ bi, tableIterNext zlib t hashSize type ti =
        .ok (some (t.restore type r), { ti with bi := bi }) ∧
      Produces (blockIterNext (recordCodec hashSize type) ti.block) bi rs := by
  rw [tableIterNext, if_neg (not_not.mpr htyp.symm)]
  exact tableIterNextLoop_record hfin h _

end

/-- **Reading a section.** An iterator hands out what is left in its block and then the records of
the blocks behind. -/
theorem drains_section (htyp : ti.typ = type) (hfin : ti.isFinished = false)
    (h : Produces (blockIterNext (recordCodec hashSize type) ti.block) ti.bi rs)
    (hbs : Section zlib t type (ti.blockOff + ti.block.fullBlockSize) bs) :
    Drains (tableIterNext zlib t hashSize type) ti
      ((rs ++ blockRecords bs).map (t.restore type)) := by
  induction bs generalizing ti rs with
  | nil =>
    induction rs generalizing ti with
    | nil =>
      refine ⟨{ ti with isFinished := true }, ?_, ?_⟩
      · rw [tableIterNext, if_neg (not_not.mpr htyp.symm), tableIterNextLoop, hfin]
        rw [h, if_neg Bool.false_ne_true]
        rw [tableIterNextBlock_end htyp rfl hbs]
      · rw [tableIterNext, if_neg (not_not.mpr htyp.symm)]
        rfl
    | cons r rs ih =>
      obtain ⟨bi, hnext, hrest⟩ := tableIterNext_record hfin h htyp
      exact ⟨_, hnext, ih htyp hfin hrest hbs⟩
  | cons b bs ih =>
    obtain ⟨-, next, hblock, hrest⟩ := hbs
    induction rs generalizing ti with
    | nil =>
      -- the first record of the next block
      obtain ⟨ti', hti', hat, hbi⟩ := tableIterNextBlock_block htyp rfl hblock
      have hstart := hat.reads.start
      rw [← hbi] at hstart
      obtain ⟨r, rs, hrs⟩ := exists_cons_of_ne_nil hat.ne_nil
      have hall : ([] : List (BlockRecord hashSize type)) ++ blockRecords (b :: bs) =
          r :: (rs ++ blockRecords bs) := by
        rw [blockRecords, flatMap_cons, hrs]
        rfl
      rw [hrs] at hstart
      have hfuel : t.size = t.size - 1 + 1 := by
        have := hblock.lt_size
        omega
      obtain ⟨bi, hloop, hleft⟩ : ∃ bi, tableIterNextLoop zlib t hashSize type (t.size - 1 + 1) ti' =
          .ok (some (t.restore type r), { ti' with bi := bi }) ∧ _ :=
        tableIterNextLoop_record hat.isFinished hstart (t.size - 1)
      rw [hall]
      refine ⟨{ ti' with bi := bi }, ?_, ih hat.typ hat.isFinished hleft (hat.next_eq.symm ▸ hrest)⟩
      rw [tableIterNext, if_neg (not_not.mpr htyp.symm), tableIterNextLoop, hfin,
        if_neg Bool.false_ne_true]
      rw [h]
      rw [hti']
      dsimp only
      rw [hfuel, hloop]
    | cons r rs ih' =>
      obtain ⟨bi, hnext, hleft⟩ := tableIterNext_record hfin h htyp
      exact ⟨_, hnext, ih' htyp hfin hleft hblock⟩

/-! ## Linear seeks -/

theorem blockRecords_cons (b : Nat × List α) (bs : List (Nat × List α)) :
    blockRecords (b :: bs) = b.2 ++ blockRecords bs := rfl

theorem blockRecords_append (bs bs' : List (Nat × List α)) :
    blockRecords (bs ++ bs') = blockRecords bs ++ blockRecords bs' :=
  flatMap_append

variable {want : Bytes} {key : α → Bytes} {r : IndexRecord} {fuel : Nat} {ti₁ : TableIter}

/-- The search for a block stops at one that has only keys below the wanted one before it and only
keys above it behind. -/
theorem seekLinearLoop_spec (hat : ti.At type rs next)
    (hbs : Section zlib t type next bs) (hfuel : bs.length < fuel)
    (hsorted : Run (recordCodec hashSize type).key (rs ++ blockRecords bs)) :
    ∃ ti' pre rs' next' bs', seekLinearLoop zlib t want fuel ti = .ok ti' ∧ ti'.At type rs' next' ∧
      Section zlib t type next' bs' ∧ rs ++ blockRecords bs = pre ++ (rs' ++ blockRecords bs') ∧
      (∀ r ∈ pre, (recordCodec hashSize type).key r < want) ∧
      ∀ r ∈ blockRecords bs', want < (recordCodec hashSize type).key r := by
  induction bs generalizing ti rs next fuel with
  | nil =>
    obtain ⟨fuel, rfl⟩ := Nat.exists_eq_succ_of_ne_zero (Nat.ne_of_gt hfuel)
    refine ⟨ti, [], rs, next, [], ?_, hat, hbs, rfl, nofun, nofun⟩
    rw [seekLinearLoop, tableIterNextBlock_end hat.typ hat.next_eq hbs]
  | cons b bs ih =>
    obtain ⟨fuel, rfl⟩ := Nat.exists_eq_succ_of_ne_zero (Nat.ne_zero_of_lt hfuel)
    obtain ⟨hoff, next', hblock, hrest⟩ := hbs
    obtain ⟨ti', hti', hat', -⟩ := tableIterNextBlock_block hat.typ hat.next_eq hblock
    obtain ⟨r₀, rs₀, hrs⟩ := exists_cons_of_ne_nil hblock.ne_nil
    have hfirst := hat'.reads.firstKey r₀ (by rw [hrs]; rfl)
    rw [blockRecords_cons] at hsorted
    rw [seekLinearLoop, hti']
    dsimp only
    rw [hfirst]
    dsimp only
    obtain ⟨-, hrun', hbelow⟩ := pairwise_append.mp hsorted
    by_cases hwant : want < (recordCodec hashSize type).key r₀
    · -- the next block is too far
      refine ⟨ti, [], rs, next, b :: bs, if_pos hwant, hat, ⟨hoff, next', hblock, hrest⟩, rfl,
        nofun, ?_⟩
      intro r hr
      rw [blockRecords_cons, hrs] at hr
      rw [hrs] at hrun'
      rcases mem_cons.mp hr with rfl | hr
      · exact hwant
      · exact hwant.trans (Run.head_lt hrun' hr)
    · rw [if_neg hwant]
      obtain ⟨ti'', pre, rs', next'', bs', hloop, hat'', hbs', heq, hpre, hpost⟩ :=
        ih hat' hrest (Nat.lt_of_succ_lt_succ hfuel) hrun'
      refine ⟨ti'', rs ++ pre, rs', next'', bs', hloop, hat'', hbs', ?_, ?_, hpost⟩
      · rw [blockRecords_cons, heq, append_assoc]
      intro r hr
      rcases mem_append.mp hr with hr | hr
      · refine (hbelow r hr r₀ ?_).trans_le (not_lt.mp hwant)
        rw [hrs]
        exact mem_append_left _ mem_cons_self
      · exact hpre r hr

/-- What is not below a key, when all of one part is below it and all of another part is above. -/
theorem filter_append_of_bounds {pre rs post : List α}
    (hpre : ∀ r ∈ pre, key r < want) (hpost : ∀ r ∈ post, want < key r) :
    (pre ++ (rs ++ post)).filter (fun r => want ≤ key r) =
      rs.filter (fun r => want ≤ key r) ++ post := by
  have hnil : pre.filter (fun r => want ≤ key r) = [] := by
    apply filter_eq_nil_iff.mpr
    intro r hr
    simpa using hpre r hr
  have hall : post.filter (fun r => want ≤ key r) = post := by
    apply filter_eq_self.mpr
    intro r hr
    simpa using (hpost r hr).le
  rw [filter_append, filter_append, hnil, hall, nil_append]

/-- **A linear seek** leads to the first record of the section that is not below the wanted key. -/
theorem tableIterSeekLinear_spec (hat : ti.At type rs next) (hbs : Section zlib t type next bs)
    (hsorted : Run (recordCodec hashSize type).key (rs ++ blockRecords bs)) (want : Bytes) :
    ∃ ti', tableIterSeekLinear zlib t hashSize type want ti = .ok ti' ∧
      Drains (tableIterNext zlib t hashSize type) ti'
        (((rs ++ blockRecords bs).filter fun r => want ≤ (recordCodec hashSize type).key r).map
          (t.restore type)) := by
  have hfuel : bs.length < t.size + 1 := by
    have := hbs.length_le
    omega
  obtain ⟨ti', pre, rs', next', bs', hloop, hat', hbs', heq, hpre, hpost⟩ :=
    seekLinearLoop_spec hat hbs hfuel hsorted
  have hrun : Run (recordCodec hashSize type).key rs' := by
    rw [heq] at hsorted
    exact (pairwise_append.mp (pairwise_append.mp hsorted).2.1).1
  obtain ⟨bi, hseek, hproduces⟩ :=
    hat'.reads.seek hrun hat'.ne_nil (blockIterSeekStart ti'.block) want
  refine ⟨{ ti' with bi := bi }, ?_, ?_⟩
  · rw [tableIterSeekLinear, hloop]
    dsimp only
    rw [hseek]
  · rw [heq, filter_append_of_bounds hpre hpost]
    refine drains_section hat'.typ hat'.isFinished hproduces ?_
    exact hat'.next_eq.symm ▸ hbs'

/-! ## Last keys -/

section LastKey

variable {rs : List α} {bs : List (Nat × List α)}

theorem le_lastKey (h : Run key rs) {r : α} (hr : r ∈ rs) :
    key r ≤ lastKey key rs := by
  obtain ⟨init, z, rfl⟩ := (eq_nil_or_concat' rs).resolve_left (ne_nil_of_mem hr)
  have hlast : lastKey key (init ++ [z]) = key z := by simp [lastKey]
  rw [hlast]
  rcases mem_append.mp hr with hr | hr
  · exact ((pairwise_append.mp h).2.2 r hr z (mem_singleton_self z)).le
  · rw [mem_singleton.mp hr]

theorem exists_key_eq_lastKey (key : α → Bytes) (hne : rs ≠ []) :
    ∃ r ∈ rs, key r = lastKey key rs := by
  obtain ⟨init, z, rfl⟩ := (eq_nil_or_concat' rs).resolve_left hne
  exact ⟨z, by simp, by simp [lastKey]⟩

/-- The last keys of the blocks of a sorted section ascend. -/
theorem run_lastKeys (hne : ∀ b ∈ bs, b.2 ≠ [])
    (h : Run key (blockRecords bs)) : Run (fun b : Nat × List α => lastKey key b.2) bs := by
  induction bs with
  | nil => exact List.Pairwise.nil
  | cons b bs ih =>
    obtain ⟨-, hrest, hlt⟩ := pairwise_append.mp h
    refine pairwise_cons.mpr ⟨?_, ih (forall_mem_cons.mp hne).2 hrest⟩
    intro b' hb'
    obtain ⟨r, hr, hkey⟩ := exists_key_eq_lastKey key (hne b mem_cons_self)
    obtain ⟨r', hr', hkey'⟩ := exists_key_eq_lastKey key (hne b' (mem_cons_of_mem _ hb'))
    grind

/-- The records of a block of a sorted section are sorted. -/
theorem run_of_mem (h : Run key (blockRecords bs)) {b : Nat × List α}
    (hb : b ∈ bs) : Run key b.2 := by
  obtain ⟨pre, post, rfl⟩ := append_of_mem hb
  rw [blockRecords_append, blockRecords_cons] at h
  exact (pairwise_append.mp (pairwise_append.mp h).2.1).1

/-- The first element that is not below `want`. -/
theorem exists_first (key : α → Bytes) (want : Bytes) (l : List α) :
    (∀ x ∈ l, key x < want) ∨
      ∃ pre x post, l = pre ++ x :: post ∧ (∀ y ∈ pre, key y < want) ∧ want ≤ key x ∧
        l.filter (fun r => want ≤ key r) = x :: post.filter (fun r => want ≤ key r) := by
  cases h : l.find? fun r => want ≤ key r with
  | none => exact .inl fun x hx => by simpa using find?_eq_none.mp h x hx
  | some x =>
    obtain ⟨hx, pre, post, rfl, hpre⟩ := find?_eq_some_iff_append.mp h
    refine .inr ⟨pre, x, post, rfl, ?_, of_decide_eq_true hx, ?_⟩
    · exact fun y hy => by simpa using hpre y hy
    · rw [filter_append, filter_eq_nil_iff.mpr fun y hy => by simpa using hpre y hy, nil_append]
      exact filter_cons_of_pos hx

end LastKey

/-! ## Indexed seeks -/

/-- The record of a block in the index. -/
def indexRecord {α : Type} (key : α → Bytes) (b : Nat × List α) : IndexRecord :=
  ⟨UInt64.ofNat b.1, lastKey key b.2⟩

/-- All of these blocks are blocks of an index. -/
def IndexBlocks (zlib : Zlib) (t : Table) (hashSize : Nat) (bs : List (Nat × List IndexRecord)) :
    Prop :=
  ∀ b ∈ bs, ∃ next, @BlockAt hashSize zlib t .index b.1 b.2 next

/-- The highest level `top` of an index over some blocks, with `depth` levels below it. -/
inductive IndexOver (zlib : Zlib) (t : Table) {hashSize : Nat} {type : BlockType}
    (data : List (Nat × List (BlockRecord hashSize type))) :
    Nat → List (Nat × List IndexRecord) → Prop
  | data {top : List (Nat × List IndexRecord)} (hblocks : IndexBlocks zlib t hashSize top)
    (hrecords : blockRecords top = data.map (indexRecord (recordCodec hashSize type).key)) :
    IndexOver zlib t data 0 top
  | level {depth : Nat} {below top : List (Nat × List IndexRecord)}
    (hbelow : IndexOver zlib t data depth below) (hblocks : IndexBlocks zlib t hashSize top)
    (hrecords : blockRecords top = below.map (indexRecord IndexRecord.lastKey)) :
    IndexOver zlib t data (depth + 1) top

/-- An iterator that has found the first record of a block that is not below the wanted key. -/
structure TableIter.Found (ti : TableIter) (type : BlockType) (want : Bytes)
    (rs : List (BlockRecord hashSize type)) (next : Nat) : Prop where
  typ : ti.typ = type
  isFinished : ti.isFinished = false
  next_eq : ti.blockOff + ti.block.fullBlockSize = next
  produces : Produces (blockIterNext (recordCodec hashSize type) ti.block) ti.bi
    (rs.filter fun r => want ≤ (recordCodec hashSize type).key r)

/-- A round of `table_iter_seek_indexed`: the index record leads to its block. -/
theorem seekIndexedLoop_round (type : BlockType) (want : Bytes)
    (hnext : tableIterNext zlib t hashSize .index ti = .ok (some r, ti₁))
    {blockType : BlockType} {rs : List (BlockRecord hashSize blockType)}
    (hblock : BlockAt zlib t blockType r.offset.toNat rs next)
    (hrun : Run (recordCodec hashSize blockType).key rs) (fuel : Nat) :
    ∃ ti', ti'.Found blockType want rs next ∧
      seekIndexedLoop zlib t hashSize type want (fuel + 1) ti =
        if blockType = type then .ok (some ti')
        else if blockType ≠ .index then .error .format
        else seekIndexedLoop zlib t hashSize type want fuel ti' := by
  obtain ⟨block, hinit, rfl, hreads, hfull⟩ := hblock.init
  obtain ⟨bi, hseek, hproduces⟩ := hreads.seek hrun hblock.ne_nil (blockIterSeekStart block) want
  refine ⟨⟨block.type, r.offset.toNat, block, bi, false⟩, ⟨rfl, rfl, hfull, hproduces⟩, ?_⟩
  rw [seekIndexedLoop, hnext]
  dsimp only
  rw [tableIterSeekTo, hinit none (.inl rfl)]
  dsimp only
  rw [hseek]

/-- What a seek leads to: the elements of the list, none of them if the seek reports the end. -/
def SeeksTo {σ ε β : Type*} (next : σ → Except ε (Option β × σ)) (result : Option σ) (l : List β) :
    Prop :=
  match result with
  | none => l = []
  | some s => Drains next s l

/-- The block of a level that a seek has to look at: the first one whose last key is not below the
wanted one. -/
structure FirstBlock {α : Type} (key : α → Bytes) (want : Bytes) (bs pre : List (Nat × List α))
    (b : Nat × List α) (post : List (Nat × List α)) : Prop where
  split : bs = pre ++ b :: post
  below : ∀ b' ∈ pre, lastKey key b'.2 < want
  reached : want ≤ lastKey key b.2

/-- The first record that is not below the wanted key belongs to the first such block of the level
below. -/
theorem firstBlock_of_first {pre post : List IndexRecord} {below : List (Nat × List α)}
    (hrecords : below.map (indexRecord key) = pre ++ r :: post)
    (hpre : ∀ r' ∈ pre, r'.lastKey < want) (hr : want ≤ r.lastKey) :
    ∃ pre' b post', FirstBlock key want below pre' b post' ∧ r = indexRecord key b := by
  obtain ⟨pre', rest, rfl, rfl, hrest⟩ := map_eq_append_iff.mp hrecords
  obtain ⟨b, post', rfl, rfl, -⟩ := map_eq_cons_iff.mp hrest
  refine ⟨pre', b, post', ⟨rfl, ?_, hr⟩, rfl⟩
  intro b' hb'
  exact hpre (indexRecord key b') (mem_map_of_mem hb')

/-- All keys are below the wanted one when all last keys are. -/
theorem blockRecords_lt {bs : List (Nat × List α)}
    (hsorted : Run key (blockRecords bs)) (h : ∀ b ∈ bs, lastKey key b.2 < want) :
    ∀ r ∈ blockRecords bs, key r < want := by
  intro r hr
  obtain ⟨b, hb, hmem⟩ := mem_flatMap.mp hr
  exact (le_lastKey (run_of_mem hsorted hb) hmem).trans_lt (h b hb)

/-- That block holds the first record of the level that is not below the wanted key. -/
theorem FirstBlock.first {bs pre post : List (Nat × List α)} {b : Nat × List α}
    (h : FirstBlock key want bs pre b post) (hne : b.2 ≠ []) (hsorted : Run key (blockRecords bs)) :
    ∃ pre' r post' rest, blockRecords bs = pre' ++ r :: post' ∧ (∀ r' ∈ pre', key r' < want) ∧
      want ≤ key r ∧ b.2.filter (fun r => want ≤ key r) = r :: rest := by
  obtain ⟨rfl, hbelow, hreached⟩ := h
  rw [blockRecords_append, blockRecords_cons] at hsorted ⊢
  rcases exists_first key want b.2 with hall | ⟨pre₂, r, post₂, hsplit, hpre, hr, hf⟩
  · -- the last record of the block is not below the wanted key
    obtain ⟨r, hr, hkey⟩ := exists_key_eq_lastKey key hne
    exact absurd (hall r hr) (not_lt.mpr (hkey ▸ hreached))
  · refine ⟨blockRecords pre ++ pre₂, r, post₂ ++ blockRecords post, _, ?_, ?_, hr, hf⟩
    · rw [hsplit]
      simp only [append_assoc, cons_append]
    · exact forall_mem_append.mpr ⟨blockRecords_lt (pairwise_append.mp hsorted).1 hbelow, hpre⟩

section Index

variable {data : List (Nat × List (BlockRecord hashSize type))} {depth : Nat}
  {top : List (Nat × List IndexRecord)}

/-- The blocks of a section. -/
theorem Section.mem (h : Section zlib t type off data)
    (hb : b ∈ data) : ∃ next, BlockAt zlib t type b.1 b.2 next := by
  obtain ⟨pre, post, rfl⟩ := append_of_mem hb
  obtain ⟨next, hblock, -⟩ := h.of_append
  exact ⟨next, hblock⟩

/-- The blocks of the highest level. -/
theorem IndexOver.blocks (h : IndexOver zlib t data depth top) : IndexBlocks zlib t hashSize top := by
  cases h with
  | data hblocks | level _ hblocks => exact hblocks

section

variable (h : IndexOver zlib t data depth top) (hdata : Section zlib t type off data)
  (hsorted : Run (recordCodec hashSize type).key (blockRecords data))

include h hdata hsorted

/-- The index of a sorted section is sorted. -/
theorem IndexOver.sorted : Run IndexRecord.lastKey (blockRecords top) := by
  induction h with
  | data hblocks hrecords =>
    rw [hrecords]
    refine run_map.mpr (run_lastKeys ?_ hsorted)
    intro b hb
    obtain ⟨next, hblock⟩ := hdata.mem hb
    exact hblock.ne_nil
  | level hbelow hblocks hrecords ih =>
    rw [hrecords]
    refine run_map.mpr (run_lastKeys ?_ ih)
    intro b hb
    obtain ⟨next, hblock⟩ := hbelow.blocks b hb
    exact hblock.ne_nil

/-- When all last keys in the highest level are below the wanted key, so are all keys. -/
theorem IndexOver.lt_of_top (hlt : ∀ r ∈ blockRecords top, r.lastKey < want) :
    ∀ r ∈ blockRecords data, (recordCodec hashSize type).key r < want := by
  induction h with
  | data hblocks hrecords =>
    refine blockRecords_lt hsorted ?_
    intro b hb
    exact hlt (indexRecord _ b) (hrecords ▸ mem_map_of_mem hb)
  | level hbelow hblocks hrecords ih =>
    refine ih (blockRecords_lt (hbelow.sorted hdata hsorted) ?_)
    intro b hb
    exact hlt (indexRecord _ b) (hrecords ▸ mem_map_of_mem hb)

end

/-- The offset in the index record of a block. -/
theorem toNat_indexRecord_offset (key : α → Bytes) {b : Nat × List α}
    (hb : b.1 < t.size) (hsize : t.size < 2 ^ 64) : (indexRecord key b).offset.toNat = b.1 :=
  UInt64.toNat_ofNat_of_lt' (show b.1 < 2 ^ 64 by omega)

/-- The last round of an indexed seek leads to the section itself. -/
theorem seekIndexedLoop_data
    {pre post : List (Nat × List (BlockRecord hashSize type))}
    (hdata : Section zlib t type off data)
    (hsorted : Run (recordCodec hashSize type).key (blockRecords data)) (hsize : t.size < 2 ^ 64)
    (hfirst : FirstBlock (recordCodec hashSize type).key want data pre b post)
    (hnext : tableIterNext zlib t hashSize .index ti =
      .ok (some (indexRecord (recordCodec hashSize type).key b), ti₁)) (fuel : Nat) :
    ∃ ti', seekIndexedLoop zlib t hashSize type want (fuel + 1) ti = .ok (some ti') ∧
      Drains (tableIterNext zlib t hashSize type) ti'
        (((blockRecords data).filter fun r => want ≤ (recordCodec hashSize type).key r).map
          (t.restore type)) := by
  obtain ⟨rfl, hbelow, hreached⟩ := hfirst
  obtain ⟨next, hblock, hpost⟩ := hdata.of_append
  have hoff := toNat_indexRecord_offset (recordCodec hashSize type).key hblock.lt_size hsize
  have hrun := run_of_mem hsorted (mem_append_right pre mem_cons_self : b ∈ _)
  obtain ⟨ti', hfound, hloop⟩ :=
    seekIndexedLoop_round type want hnext (hoff.symm ▸ hblock) hrun fuel
  refine ⟨ti', hloop.trans (if_pos rfl), ?_⟩
  rw [blockRecords_append, blockRecords_cons] at hsorted ⊢
  obtain ⟨hpreRun, hrest, -⟩ := pairwise_append.mp hsorted
  obtain ⟨-, -, habove⟩ := pairwise_append.mp hrest
  rw [filter_append_of_bounds (blockRecords_lt hpreRun hbelow)]
  · exact drains_section hfound.typ hfound.isFinished hfound.produces (hfound.next_eq.symm ▸ hpost)
  -- the blocks behind are above the last key of this one
  intro r hr
  obtain ⟨r', hr', hkey⟩ := exists_key_eq_lastKey (recordCodec hashSize type).key hblock.ne_nil
  exact (hkey ▸ hreached).trans_lt (habove r' hr' r hr)

/-- A round of an indexed seek in the index leads to the first record of the level below that is not
below the wanted key. -/
theorem seekIndexedLoop_index
    {pre post : List (Nat × List IndexRecord)} {b : Nat × List IndexRecord}
    (hblocks : IndexBlocks zlib t hashSize top)
    (hsorted : Run IndexRecord.lastKey (blockRecords top)) (hsize : t.size < 2 ^ 64)
    (htype : type ≠ .index) (hfirst : FirstBlock IndexRecord.lastKey want top pre b post)
    (hnext : tableIterNext zlib t hashSize .index ti =
      .ok (some (indexRecord IndexRecord.lastKey b), ti₁)) (fuel : Nat) :
    ∃ ti' ti₂ pre' r post', blockRecords top = pre' ++ r :: post' ∧
      (∀ r' ∈ pre', r'.lastKey < want) ∧ want ≤ r.lastKey ∧
      tableIterNext zlib t hashSize .index ti' = .ok (some r, ti₂) ∧
      seekIndexedLoop zlib t hashSize type want (fuel + 1) ti =
        seekIndexedLoop zlib t hashSize type want fuel ti' := by
  have hb : b ∈ top := hfirst.split ▸ mem_append_right _ mem_cons_self
  obtain ⟨next, hblock⟩ := hblocks b hb
  have hoff := toNat_indexRecord_offset IndexRecord.lastKey hblock.lt_size hsize
  have hblock' : @BlockAt hashSize zlib t .index (indexRecord IndexRecord.lastKey b).offset.toNat b.2
      next := hoff.symm ▸ hblock
  obtain ⟨ti', hfound, hloop⟩ :=
    seekIndexedLoop_round type want hnext hblock' (run_of_mem hsorted hb) fuel
  obtain ⟨pre', r, post', rest, hsplit, hpre, hr, hfilter⟩ := hfirst.first hblock.ne_nil hsorted
  have hproduces := hfound.produces
  change Produces _ _ (b.2.filter fun r => want ≤ r.lastKey) at hproduces
  rw [hfilter] at hproduces
  obtain ⟨bi, hnext', -⟩ := tableIterNext_record hfound.isFinished hproduces hfound.typ
  refine ⟨ti', _, pre', r, post', hsplit, hpre, hr, hnext', ?_⟩
  rw [hloop, if_neg htype.symm, if_neg (not_not.mpr rfl)]

/-- The rounds of an indexed seek, from the first record of a level that is not below the wanted key
on. -/
theorem IndexOver.seek (h : IndexOver zlib t data depth top) (hdata : Section zlib t type off data)
    (hsorted : Run (recordCodec hashSize type).key (blockRecords data)) (hsize : t.size < 2 ^ 64)
    (htype : type ≠ .index) {pre post : List IndexRecord}
    (hsplit : blockRecords top = pre ++ r :: post) (hpre : ∀ r' ∈ pre, r'.lastKey < want)
    (hr : want ≤ r.lastKey) (hnext : tableIterNext zlib t hashSize .index ti = .ok (some r, ti₁))
    (hfuel : depth < fuel) :
    ∃ ti', seekIndexedLoop zlib t hashSize type want fuel ti = .ok (some ti') ∧
      Drains (tableIterNext zlib t hashSize type) ti'
        (((blockRecords data).filter fun r => want ≤ (recordCodec hashSize type).key r).map
          (t.restore type)) := by
  induction h generalizing pre r post ti ti₁ fuel with
  | data hblocks hrecords =>
    obtain ⟨fuel, rfl⟩ := Nat.exists_eq_succ_of_ne_zero (Nat.ne_zero_of_lt hfuel)
    obtain ⟨pre', b, post', hfirst, rfl⟩ := firstBlock_of_first (hrecords.symm.trans hsplit) hpre hr
    exact seekIndexedLoop_data hdata hsorted hsize hfirst hnext fuel
  | level hbelow hblocks hrecords ih =>
    -- one round to the level below, and then the rounds from there on
    obtain ⟨fuel, rfl⟩ := Nat.exists_eq_succ_of_ne_zero (Nat.ne_zero_of_lt hfuel)
    obtain ⟨pre', b, post', hfirst, rfl⟩ := firstBlock_of_first (hrecords.symm.trans hsplit) hpre hr
    obtain ⟨ti', ti₂, pre', r, post', hsplit', hpre', hr', hnext', hround⟩ :=
      seekIndexedLoop_index hbelow.blocks (hbelow.sorted hdata hsorted) hsize htype hfirst hnext fuel
    rw [hround]
    exact ih hsplit' hpre' hr' hnext' (Nat.lt_of_succ_lt_succ hfuel)

end Index

/-! ## Sections of a table -/

/-- A section that the footer of a table points to, with the index over it, if any. -/
structure SectionAt (zlib : Zlib) (t : Table) (type : BlockType)
    (data : List (Nat × List (BlockRecord hashSize type))) : Prop where
  ne_nil : data ≠ []
  blocks : Section zlib t type (t.offsetsFor type).offset data
  sorted : Run (recordCodec hashSize type).key (blockRecords data)
  index : (t.offsetsFor type).indexOffset ≠ 0 → ∃ depth top, depth < t.size ∧ top ≠ [] ∧
    IndexOver zlib t data depth top ∧
    @Section hashSize zlib t .index (t.offsetsFor type).indexOffset top

/-- `table_iter_seek_to` leads to the start of a block. -/
theorem tableIterSeekTo_block (h : BlockAt zlib t type off rs next) :
    ∃ ti, tableIterSeekTo zlib t off (some type) = .ok (some ti) ∧ ti.At type rs next ∧
      ti.bi = blockIterSeekStart ti.block := by
  obtain ⟨block, hinit, hty, hreads, hfull⟩ := h.init
  refine ⟨⟨block.type, off, block, blockIterSeekStart block, false⟩, ?_, ?_, rfl⟩
  · rw [tableIterSeekTo, hinit (some type) (.inr rfl)]
  · exact ⟨hty, rfl, h.ne_nil, hreads, hfull⟩

section SectionAt

variable {data : List (Nat × List (BlockRecord hashSize type))}

section

variable (h : SectionAt zlib t type data)

include h

/-- An iterator at the start of a section. -/
theorem SectionAt.start :
    ∃ ti rs next bs, tableIterSeekStart zlib t type false = .ok (some ti) ∧ ti.At type rs next ∧
      ti.bi = blockIterSeekStart ti.block ∧ Section zlib t type next bs ∧
      blockRecords data = rs ++ blockRecords bs := by
  obtain ⟨b, bs, rfl⟩ := exists_cons_of_ne_nil h.ne_nil
  obtain ⟨-, next, hblock, hbs⟩ := h.blocks
  obtain ⟨ti, hti, hat, hbi⟩ := tableIterSeekTo_block hblock
  exact ⟨ti, b.2, next, bs, hti, hat, hbi, hbs, rfl⟩

/-- **A linear seek** in a section leads to its first record that is not below the wanted key. -/
theorem SectionAt.seekLinear (want : Bytes) :
    ∃ ti ti', tableIterSeekStart zlib t type false = .ok (some ti) ∧
      tableIterSeekLinear zlib t hashSize type want ti = .ok ti' ∧
      Drains (tableIterNext zlib t hashSize type) ti'
        (((blockRecords data).filter fun r => want ≤ (recordCodec hashSize type).key r).map
          (t.restore type)) := by
  obtain ⟨ti, rs, next, bs, hti, hat, -, hbs, hall⟩ := h.start
  have hsorted := h.sorted
  rw [hall] at hsorted ⊢
  obtain ⟨ti', hseek, hdrains⟩ := tableIterSeekLinear_spec hat hbs hsorted want
  exact ⟨ti, ti', hti, hseek, hdrains⟩

/-- **An indexed seek** in a section leads to its first record that is not below the wanted key, or
reports the end if there is none. -/
theorem SectionAt.seekIndexed (hsize : t.size < 2 ^ 64)
    (htype : type ≠ .index) (hindex : (t.offsetsFor type).indexOffset ≠ 0) (want : Bytes) :
    ∃ ti result, tableIterSeekStart zlib t type true = .ok (some ti) ∧
      tableIterSeekIndexed zlib t hashSize type want ti = .ok result ∧
      SeeksTo (tableIterNext zlib t hashSize type) result
        (((blockRecords data).filter fun r => want ≤ (recordCodec hashSize type).key r).map
          (t.restore type)) := by
  obtain ⟨depth, top, hdepth, hne, hover, htop⟩ := h.index hindex
  have htopSorted := hover.sorted h.blocks h.sorted
  obtain ⟨b, bs, rfl⟩ := exists_cons_of_ne_nil hne
  obtain ⟨-, next, hblock, hbs⟩ := htop
  obtain ⟨ti, hti, hat, -⟩ := tableIterSeekTo_block hblock
  obtain ⟨ti', hlinear, hdrains⟩ := tableIterSeekLinear_spec hat hbs htopSorted want
  have hstart : tableIterSeekStart zlib t type true = .ok (some ti) := by
    unfold tableIterSeekStart
    rw [if_pos rfl, if_neg hindex, hti]
  rw [show t.restore BlockType.index = id from rfl, map_id] at hdrains
  change Drains _ _ ((blockRecords (b :: bs)).filter fun r => want ≤ r.lastKey) at hdrains
  rcases exists_first IndexRecord.lastKey want (blockRecords (b :: bs)) with
    hall | ⟨pre, r, post, hsplit, hpre, hr, hfilter⟩
  · -- the wanted key is above all keys
    have hnil : (blockRecords (b :: bs)).filter (fun r => want ≤ r.lastKey) = [] := by
      refine filter_eq_nil_iff.mpr ?_
      intro r hr
      simpa using hall r hr
    rw [hnil] at hdrains
    obtain ⟨ti₁, hnext, -⟩ := hdrains
    refine ⟨ti, none, hstart, ?_, ?_⟩
    · rw [tableIterSeekIndexed, hlinear]
      dsimp only
      rw [seekIndexedLoop, hnext]
    · have hlt := hover.lt_of_top h.blocks h.sorted hall
      change List.map _ (List.filter _ _) = []
      rw [map_eq_nil_iff, filter_eq_nil_iff]
      intro r hr
      simpa using hlt r hr
  · rw [hfilter] at hdrains
    obtain ⟨ti₁, hnext, -⟩ := hdrains
    obtain ⟨ti'', hloop, hdrains⟩ := hover.seek h.blocks h.sorted hsize htype hsplit hpre hr hnext
      (Nat.lt_succ_of_lt hdepth)
    refine ⟨ti, some ti'', hstart, ?_, hdrains⟩
    rw [tableIterSeekIndexed, hlinear]
    exact hloop

/-- **A seek** in a section leads to its first record that is not below the wanted key, or reports
the end if there is none. -/
theorem SectionAt.seek (hsize : t.size < 2 ^ 64) (htype : type ≠ .index) (want : Bytes) :
    ∃ result, tableIterSeek zlib t hashSize type want = .ok result ∧
      SeeksTo (tableIterNext zlib t hashSize type) result
        (((blockRecords data).filter fun r => want ≤ (recordCodec hashSize type).key r).map
          (t.restore type)) := by
  unfold tableIterSeek
  dsimp only
  by_cases hindex : (t.offsetsFor type).indexOffset = 0
  · obtain ⟨ti, ti', hstart, hseek, hdrains⟩ := h.seekLinear want
    refine ⟨some ti', ?_, hdrains⟩
    grind
  · obtain ⟨ti, result, hstart, hseek, hdrains⟩ := h.seekIndexed hsize htype hindex want
    grind

end

end SectionAt

end Table

end GitCore.Reftable
