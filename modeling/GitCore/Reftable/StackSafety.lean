import GitCore.Reftable.StackProtocol

/-! # No update is lost

The invariant of the protocol says, for each process, which locks it holds, which list it relies
on, which range it has claimed and which files it is about to unlink, and for the directory that
every committed table is in `tables.list` or was replaced by one compaction. -/

namespace GitCore.Reftable

open List
open Finset (mem_insert_of_mem mem_insert_self mem_union mem_union_left)
open Function (update update_of_ne update_self)

variable {Pid Name : Type}

/-! ## What a process relies on -/

/-- The locks of the tables that a reload is followed by deleting. -/
def After.locks : After Name → List Name
  | .add | .done => []
  | .delete locks _ => locks

/-- Whether a reload happens inside an addition. -/
def After.isAdd : After Name → Bool
  | .add => true
  | .done | .delete _ _ => false

/-- Whether a process at this point holds the list lock. -/
def Pc.holdsList : Pc Name → Bool
  | .idle | .compacting _ _ | .deleting _ _ => false
  | .addLocked _ | .adding _ | .closing _ => true
  | .loading after _ | .opening after _ _ _ | .checking after _ _ | .unlinking after _ _ =>
    after.isAdd
  | .compactLocked _ _ _ | .locking _ _ _ _ | .locked _ _ => true
  | .relocked _ _ _ | .located _ _ _ _ _ _ | .placed _ _ _ _ _ _ => true
  | .releasing listHeld _ => listHeld

/-- The tables whose locks a process holds. -/
def Proc.held (pr : Proc Name) : List Name :=
  match pr.pc with
  | .locking _ last i _ => tableLocks pr.tables i last
  | .locked first last | .compacting first last | .relocked first last _
  | .located first last _ _ _ _ | .placed first last _ _ _ _ => tableLocks pr.tables first last
  | .loading after _ | .opening after _ _ _ | .checking after _ _ | .unlinking after _ _ =>
    after.locks
  | .deleting locks _ | .releasing _ locks => locks
  | _ => []

/-- The table files of a process that are not committed yet. -/
def Proc.pending (pr : Proc Name) : List Name :=
  match pr.pc with
  | .adding new | .closing new => new
  | .placed _ _ new _ _ _ => new.toList
  | _ => []

/-- The tables a process has claimed for its compaction. -/
def Proc.claimed (pr : Proc Name) : List Name :=
  match pr.pc with
  | .locked first last | .compacting first last | .relocked first last _
  | .located first last _ _ _ _ | .placed first last _ _ _ _ => slice pr.tables first last
  | _ => []

/-- The list that a process takes for the contents of `tables.list`. -/
def Proc.snapshot (pr : Proc Name) : Option (List Name) :=
  match pr.pc with
  | .adding _ | .locking _ _ _ _ => some pr.tables
  | .opening after _ names _ | .checking after _ names | .unlinking after names _ =>
    if after.isAdd then some names else none
  | .located _ _ _ names _ _ | .placed _ _ _ names _ _ => some names
  | _ => none

/-- The lists of tables that a process has read. -/
def Proc.lists (pr : Proc Name) : List (List Name) :=
  match pr.pc with
  | .opening _ _ names _ | .checking _ _ names | .unlinking _ names _ => [pr.tables, names]
  | _ => [pr.tables]

/-- The committed tables that a process takes for replaced: it will unlink their files. -/
def Proc.retired [DecidableEq Name] (pr : Proc Name) : List Name :=
  match pr.pc with
  | .loading after _ => after.locks
  | .opening after _ names _ | .checking after _ names =>
    staleTables after.reuse pr.tables names ++ after.locks
  | .unlinking after _ todo => todo ++ after.locks
  | .deleting _ todo => todo
  | _ => []

/-- The tables whose files a process may go on to unlink: those that it takes for replaced and, when
it gives up (`reftable_addition_close`, a failed commit), those that it has made itself. -/
def Proc.doomed [DecidableEq Name] (pr : Proc Name) : List Name := pr.retired ++ pr.pending

/-- A range of a stack that `stack_compact_range` works on: it has two tables, unless the stack
has only one. -/
structure RangeOk (tables : List Name) (first last : Nat) : Prop where
  le : first ≤ last
  lt : last < tables.length
  two : first = last → tables.length = 1

/-- When no open table is kept, all of them were compacted. -/
def After.Ok (after : After Name) (tables : List Name) : Prop :=
  after.reuse = false → tables ⊆ after.locks

theorem After.ok_of_reuse {after : After Name} (h : after.reuse = true) (tables : List Name) :
    after.Ok tables :=
  fun hr => absurd (h.symm.trans hr) Bool.true_eq_false.mp

/-- The data of a process fit together. -/
def Proc.Ok (pr : Proc Name) : Prop :=
  match pr.pc with
  | .adding new | .closing new => new.Nodup
  | .loading after tries => after.Ok pr.tables ∧ (after.isAdd = true → tries = 0)
  | .opening after _ _ _ | .checking after _ _ => after.Ok pr.tables
  | .compactLocked first last _ => RangeOk pr.tables first last
  | .locking first last i _ => RangeOk pr.tables first last ∧ first ≤ i ∧ i ≤ last + 1
  | .locked first last | .compacting first last | .relocked first last _ =>
    RangeOk pr.tables first last
  | .located first last _ names fst lst | .placed first last _ names fst lst =>
    RangeOk pr.tables first last ∧ fst ≤ lst ∧ lst < names.length ∧
      slice names fst lst = slice pr.tables first last
  | _ => True

/-- The invariant of one process. -/
structure ProcInv [DecidableEq Name] (d : Directory Pid Name) (p : Pid) (pr : Proc Name) : Prop where
  ok : pr.Ok
  holds : pr.pc.holdsList = true → d.listLock = some p
  locks : ∀ n ∈ pr.held, d.tableLock n = some p
  locks_nodup : pr.held.Nodup
  current : ∀ l ∈ pr.snapshot, d.list = l
  range : pr.claimed <:+: d.list
  lists : ∀ l ∈ pr.lists, l.Nodup ∧ ∀ n ∈ l, n ∈ d.committed
  dead : ∀ n ∈ pr.retired, n ∈ d.committed ∧ n ∉ d.list
  fresh : ∀ n ∈ pr.pending, n ∈ d.used ∧ n ∉ d.committed ∧ n ∈ d.files

/-- The invariant of the directory. -/
structure DirInv (d : Directory Pid Name) : Prop where
  nodup : d.list.Nodup
  list_committed : ∀ n ∈ d.list, n ∈ d.committed
  list_files : ∀ n ∈ d.list, n ∈ d.files
  committed_used : ∀ n ∈ d.committed, n ∈ d.used
  consumed_list : ∀ n ∈ d.list, d.consumed n = 0
  consumed_gone : ∀ n ∈ d.committed, n ∉ d.list → d.consumed n = 1
  consumed_new : ∀ n, n ∉ d.committed → d.consumed n = 0
  added_nodup : d.added.Nodup
  added_committed : ∀ n ∈ d.added, n ∈ d.committed
  covers_added : ∀ n ∈ d.added, d.covers n = [n]
  covers_ne_nil : ∀ n ∈ d.list, d.covers n ≠ []
  order : (d.list.flatMap d.covers).Sublist d.added

/-- The directory after a commit that puts `new` in the place of the part `mid` of the list. -/
def Directory.replace [DecidableEq Name] (d : Directory Pid Name)
    (pre mid post new added : List Name) (covers : Name → List Name) : Directory Pid Name :=
  { d with
    list := pre ++ new ++ post
    listLock := none
    committed := d.committed ∪ new.toFinset
    added := added
    covers := covers
    consumed := fun n => if n ∈ mid then d.consumed n + 1 else d.consumed n }

/-- The invariant of the protocol. -/
structure StackInv [DecidableEq Name] (s : StackState Pid Name) : Prop where
  dir : DirInv s.dir
  proc : ∀ p, ProcInv s.dir p (s.procs p)
  apart : ∀ p q n, n ∈ (s.procs p).pending → n ∈ (s.procs q).pending → p = q

/-! ## Facts about single processes -/

variable {first last fst lst : Nat} {tables names : List Name} {pr : Proc Name} {bestEffort : Bool}

theorem mem_tableLocks {n : Name} :
    n ∈ tableLocks tables first last ↔ n ∈ slice tables first last := by
  rw [tableLocks, mem_reverse]

/-- What a process has claimed it has locked. -/
theorem Proc.claimed_subset_held (pr : Proc Name) : pr.claimed ⊆ pr.held := by
  obtain ⟨ts, pc⟩ := pr
  intro n hn
  cases pc <;> first
    | exact mem_tableLocks.mpr hn
    | exact absurd hn not_mem_nil

/-- A process relies on the contents of `tables.list` only while it holds the lock. -/
theorem Proc.holdsList_of_snapshot {l : List Name} (h : l ∈ pr.snapshot) :
    pr.pc.holdsList = true := by
  unfold Proc.snapshot at h
  split at h <;> simp_all [Pc.holdsList]

/-- The range a caller asks for. -/
theorem CompactCall.rangeOk {ts : List Name} {expiry : Bool}
    (hcall : CompactCall ts first last expiry bestEffort)
    (hguard : ¬(last < first ∨ (expiry = false ∧ first = last))) (hne : ts ≠ []) :
    RangeOk ts first last := by
  have hlen := length_pos_iff.mpr hne
  rcases hcall with ⟨rfl, rfl, -⟩ | ⟨hlt, rfl, -⟩
  · exact ⟨Nat.zero_le _, by omega, by omega⟩
  · exact ⟨by omega, hlt, fun heq => absurd (.inr ⟨rfl, heq⟩) hguard⟩

/-- A range of one table is the whole stack. -/
theorem RangeOk.subset_tableLocks {ts : List Name} (h : RangeOk ts first last)
    (hreuse : decide (first < last) = false) : ts ⊆ tableLocks ts first last := by
  have heq : first = last := Nat.le_antisymm h.le (Nat.not_lt.mp (of_decide_eq_false hreuse))
  obtain ⟨n, rfl⟩ := length_eq_one_iff.mp (h.two heq)
  obtain rfl : last = 0 := Nat.lt_one_iff.mp h.lt
  obtain rfl := heq
  exact fun n hn => hn

/-- The range that was found holds the tables that were compacted. -/
theorem locateRange_spec [DecidableEq Name]
    (hr : RangeOk tables first last) (h : locateRange names tables first last = some (fst, lst)) :
    fst ≤ lst ∧ lst < names.length ∧ slice names fst lst = slice tables first last := by
  unfold locateRange at h
  split at h
  · cases h
  rename_i i hi
  split at h
  · rename_i hall
    obtain ⟨rfl, rfl⟩ := Prod.mk.inj (Option.some.inj h)
    obtain ⟨hlt, hfirst, -⟩ := findIdx?_eq_some_iff_getElem.mp hi
    have hle := hr.le
    simp only [all_eq_true, mem_range, Bool.and_eq_true, beq_iff_eq] at hall hfirst
    -- position by position, the first table apart
    have hget : ∀ j ≤ last - first, names[i + j]? = tables[first + j]? := by
      intro j hj
      cases j with
      | zero => rw [Nat.add_zero, Nat.add_zero, hfirst, getElem?_eq_getElem hlt]
      | succ j => exact (hall j (by omega)).2
    refine ⟨by omega, ?_, ?_⟩
    · have hlast := hget (last - first) le_rfl
      rw [show first + (last - first) = last by omega, getElem?_eq_getElem hr.lt] at hlast
      have := (List.getElem?_eq_some_iff.mp hlast).1
      omega
    · apply ext_getElem?
      intro j
      rw [getElem?_slice, getElem?_slice]
      grind
  · cases h

/-- A range that is still in the list is found. -/
theorem locateRange_of_infix [DecidableEq Name] (hr : RangeOk tables first last)
    (hnodup : names.Nodup) (h : slice tables first last <:+: names) :
    (locateRange names tables first last).isSome := by
  obtain ⟨below, above, hnames⟩ := h
  have hlt := hr.lt
  have hle := hr.le
  have hget : ∀ j ≤ last - first, names[below.length + j]? = tables[first + j]? := by
    intro j hj
    rw [← hnames, append_assoc, getElem?_append_right (by omega), Nat.add_sub_cancel_left,
      getElem?_append_left (by rw [length_slice _ hlt]; omega), getElem?_slice, if_pos (by omega)]
  have hfirst : names[below.length]? = tables[first]? := hget 0 (Nat.zero_le _)
  have hbelow : below.length < names.length := by grind
  -- the name of the first table is nowhere else
  have hidx : names.findIdx? (fun name => tables[first]? == some name) = some below.length := by
    refine findIdx?_eq_some_iff_getElem.mpr ⟨hbelow, by simp [← hfirst], fun j hj hname => ?_⟩
    rw [← hfirst, beq_iff_eq, ← getElem?_eq_getElem] at hname
    exact hj.ne' ((getElem?_inj hbelow hnodup).mp hname)
  simp only [locateRange, hidx]
  grind

/-- What the list has after a commit. -/
theorem DirInv.mem_replace {d : Directory Pid Name} (hd : DirInv d)
    {pre mid post new : List Name} (hlist : pre ++ mid ++ post = d.list) {n : Name} : n ∈ pre ++ new ++ post ↔ n ∈ new ∨ n ∈ d.list ∧ n ∉ mid := by
  rw [← hlist]
  exact GitCore.mem_replace (hlist ▸ hd.nodup)

/-! ## What the steps of a process mean for the others -/

section Frames

variable [DecidableEq Name] {d : Directory Pid Name} {q : Pid} {pre mid post : List Name}

/-- An addition replaces nothing. -/
theorem Directory.commitAdd_eq_replace (d : Directory Pid Name) (new : List Name) :
    d.commitAdd d.list new = d.replace d.list [] [] new (d.added ++ new)
      (d.commitAdd d.list new).covers := by
  simp [Directory.commitAdd, Directory.replace]

section

variable (h : ProcInv d q pr) {name : Name} {new : List Name}

include h

theorem ProcInv.setTableLock (hq : d.tableLock name ≠ some q)
    (holder : Option Pid) : ProcInv (d.setTableLock name holder) q pr := by
  refine { h with locks := ?_ }
  intro n hn
  have hne : n ≠ name := by
    rintro rfl
    exact hq (h.locks n hn)
  exact (update_of_ne hne _ _).trans (h.locks n hn)

theorem ProcInv.create (name : Name) : ProcInv (d.create name) q pr := by
  refine { h with fresh := ?_ }
  intro n hn
  obtain ⟨hused, hnew, hfile⟩ := h.fresh n hn
  exact ⟨mem_insert_of_mem hused, hnew, mem_insert_of_mem hfile⟩

theorem ProcInv.unlink (hq : name ∉ pr.pending) : ProcInv (d.unlink name) q pr := by
  refine { h with fresh := ?_ }
  intro n hn
  obtain ⟨hused, hnew, hfile⟩ := h.fresh n hn
  exact ⟨hused, hnew, Finset.mem_erase_of_ne_of_mem (fun heq => hq (heq ▸ hn)) hfile⟩

/-- What was read stays committed. -/
theorem ProcInv.lists_union (new : Finset Name) :
    ∀ l ∈ pr.lists, l.Nodup ∧ ∀ n ∈ l, n ∈ d.committed ∪ new :=
  fun l hl => ⟨(h.lists l hl).1, fun n hn => mem_union_left _ ((h.lists l hl).2 n hn)⟩

variable (hq : d.listLock ≠ some q)

include hq

/-- A process that does not hold the list lock does not rely on the list. -/
theorem ProcInv.snapshot_eq_none : pr.snapshot = none := by
  cases hs : pr.snapshot with
  | none => rfl
  | some l => exact absurd (h.holds (Proc.holdsList_of_snapshot hs)) hq

theorem ProcInv.setListLock (holder : Option Pid) : ProcInv (d.setListLock holder) q pr :=
  { h with holds := fun hl => absurd (h.holds hl) hq }

/-- A commit by another process that leaves the claimed range together. -/
theorem ProcInv.replace (hd : DirInv d) (hlist : pre ++ mid ++ post = d.list)
    (hrange : pr.claimed <:+: pre ++ new ++ post) (hnew : ∀ n ∈ new, n ∉ d.committed)
    (hapart : ∀ n ∈ new, n ∉ pr.pending) (added : List Name) (covers : Name → List Name) :
    ProcInv (d.replace pre mid post new added covers) q pr := by
  refine { h with
    holds := ?_, current := ?_, range := hrange, lists := h.lists_union _, dead := ?_, fresh := ?_ }
  · exact fun hl => absurd (h.holds hl) hq
  · simp [h.snapshot_eq_none hq]
  · intro n hn
    obtain ⟨hc, hl⟩ := h.dead n hn
    refine ⟨mem_union_left _ hc, fun hmem => ?_⟩
    exact ((hd.mem_replace hlist).mp hmem).elim (hnew n · hc) fun hn => hl hn.1
  · intro n hn
    obtain ⟨hused, hc, hfile⟩ := h.fresh n hn
    refine ⟨hused, fun hmem => ?_, hfile⟩
    exact (mem_union.mp hmem).elim hc fun hmem => hapart n (mem_toFinset.mp hmem) hn

/-- The commit of an addition by another process. -/
theorem ProcInv.commitAdd (hd : DirInv d) (hnew : ∀ n ∈ new, n ∉ d.committed)
    (hapart : ∀ n ∈ new, n ∉ pr.pending) : ProcInv (d.commitAdd d.list new) q pr := by
  have hrange := h.range.trans (prefix_append d.list new).isInfix
  rw [d.commitAdd_eq_replace]
  exact h.replace hq hd (show d.list ++ [] ++ [] = d.list by simp) (by simpa using hrange) hnew hapart _ _

/-- The commit of a compaction by another process. -/
theorem ProcInv.commitCompact (hd : DirInv d) (hle : fst ≤ lst) (hlt : lst < d.list.length) {new : Option Name}
    (hnew : ∀ n ∈ new, n ∉ d.committed) (hapart : ∀ n ∈ new, n ∉ pr.pending)
    (hlocks : ∀ n ∈ slice d.list fst lst, d.tableLock n ≠ some q) :
    ProcInv (d.commitCompact d.list fst lst new) q pr := by
  have hlist := take_slice_drop d.list (show fst ≤ lst + 1 by omega)
  refine h.replace hq hd hlist ?_ (by simpa using hnew) (by simpa using hapart) _ _
  refine infix_replace new.toList (hlist ▸ h.range) ?_ ?_
  · grind
  · -- two ranges that are locked share no table
    exact fun n hn hmem => hlocks n hmem (h.locks n (pr.claimed_subset_held hn))

end

end Frames

/-! ## The directory -/

section Directory

variable {d : Directory Pid Name}

theorem DirInv.setListLock (h : DirInv d) (holder : Option Pid) : DirInv (d.setListLock holder) :=
  { h with }

section Replace

variable (h : DirInv d) {pre mid post : List Name} (hlist : pre ++ mid ++ post = d.list)
  {new : List Name}

include h hlist

theorem DirInv.replace_nodup (hnodup : new.Nodup) (hnew : ∀ n ∈ new, n ∉ d.committed) :
    (pre ++ new ++ post).Nodup := by
  have hold : ∀ n ∈ pre ++ mid ++ post, n ∉ new := fun n hn hmem =>
    hnew n hmem (h.list_committed n (hlist ▸ hn))
  have hparts := h.nodup
  grind

/-- A commit keeps the order of the tables that are not replaced. -/
theorem DirInv.replace_covers {covers : Name → List Name}
    (hcovers : ∀ n ∈ d.committed, covers n = d.covers n) :
    (pre ++ new ++ post).flatMap covers =
      pre.flatMap d.covers ++ new.flatMap covers ++ post.flatMap d.covers := by
  have hpart : ∀ part : List Name, part ⊆ d.list →
      part.flatMap covers = part.flatMap d.covers := fun part hpart =>
    flatMap_congr fun n hn => hcovers n (h.list_committed n (hpart hn))
  rw [flatMap_append, flatMap_append, hpart pre (by simp [← hlist]), hpart post (by simp [← hlist])]

variable [DecidableEq Name]

/-- A commit replaces each table of `mid` for the first time. -/
theorem DirInv.replace_consumed (hnew : ∀ n ∈ new, n ∉ d.committed) (added : List Name)
    (covers : Name → List Name) {n : Name} (hn : n ∈ d.committed ∪ new.toFinset) :
    (d.replace pre mid post new added covers).consumed n =
      if n ∈ pre ++ new ++ post then 0 else 1 := by
  simp only [h.mem_replace hlist]
  rw [mem_union, mem_toFinset] at hn
  have hmid : n ∈ mid → n ∈ d.list := fun hn => by simp [← hlist, hn]
  change (if n ∈ mid then _ else _) = _
  by_cases hmem : n ∈ mid
  · have hl := hmid hmem
    have hold : n ∉ new := fun hn => hnew n hn (h.list_committed n hl)
    rw [if_pos hmem, if_neg (by tauto), h.consumed_list n hl]
  rw [if_neg hmem]
  by_cases hc : n ∈ d.committed
  · by_cases hl : n ∈ d.list
    · rw [if_pos (.inr ⟨hl, hmem⟩), h.consumed_list n hl]
    · rw [if_neg (fun hn => hn.elim (hnew n · hc) fun hn => hl hn.1), h.consumed_gone n hc hl]
  · rw [if_pos (.inl (hn.resolve_left hc)), h.consumed_new n hc]

/-- A commit keeps the invariant if what it adds was not committed before, and stands for what the
part `mid` stood for or, in an addition, for itself. -/
theorem DirInv.replace {added : List Name} {covers : Name → List Name} (hnodup : new.Nodup)
    (hnew : ∀ n ∈ new, (n ∈ d.used ∧ n ∉ d.committed ∧ n ∈ d.files) ∧ covers n ≠ [])
    (hcovers : ∀ n ∈ d.committed, covers n = d.covers n) (hadded : added.Nodup)
    (hadd : ∀ n ∈ added, n ∈ d.added ∨ n ∈ new ∧ covers n = [n])
    (horder : (pre.flatMap d.covers ++ new.flatMap covers ++ post.flatMap d.covers).Sublist added) :
    DirInv (d.replace pre mid post new added covers) := by
  have hfresh : ∀ n ∈ new, n ∉ d.committed := fun n hn => (hnew n hn).1.2.1
  have hmem : ∀ n ∈ pre ++ new ++ post, n ∈ new ∨ n ∈ d.list := fun n hn =>
    ((h.mem_replace hlist).mp hn).imp_right And.left
  have hcommitted : ∀ n ∈ pre ++ new ++ post, n ∈ d.committed ∪ new.toFinset := by
    intro n hn
    rw [mem_union, mem_toFinset]
    exact (hmem n hn).symm.imp_left (h.list_committed n)
  constructor
  case nodup => exact h.replace_nodup hlist hnodup hfresh
  case list_committed => exact hcommitted
  case list_files => exact fun n hn => (hmem n hn).elim (hnew n · |>.1.2.2) (h.list_files n)
  case committed_used =>
    intro n hn
    rcases mem_union.mp hn with hn | hn
    · exact h.committed_used n hn
    · exact (hnew n (mem_toFinset.mp hn)).1.1
  case consumed_list =>
    intro n hn
    exact (h.replace_consumed hlist hfresh _ _ (hcommitted n hn)).trans (if_pos hn)
  case consumed_gone =>
    intro n hn hgone
    exact (h.replace_consumed hlist hfresh _ _ hn).trans (if_neg hgone)
  case consumed_new =>
    intro n hn
    have hc : n ∉ d.committed := fun hc => hn (mem_union_left _ hc)
    have hmid : n ∉ mid := fun hs => hc (h.list_committed n (by simp [← hlist, hs]))
    exact (if_neg hmid).trans (h.consumed_new n hc)
  case added_nodup => exact hadded
  case added_committed =>
    intro n hn
    rw [Directory.replace, mem_union, mem_toFinset]
    exact (hadd n hn).imp (h.added_committed n) And.left
  case covers_added =>
    intro n hn
    rcases hadd n hn with hn | hn
    · exact (hcovers n (h.added_committed n hn)).trans (h.covers_added n hn)
    · exact hn.2
  case covers_ne_nil =>
    intro n hn
    rcases hmem n hn with hn | hn
    · exact (hnew n hn).2
    · exact (hcovers n (h.list_committed n hn)).trans_ne (h.covers_ne_nil n hn)
  case order =>
    change ((pre ++ new ++ post).flatMap covers).Sublist added
    rw [h.replace_covers hlist hcovers]
    exact horder

end Replace

variable [DecidableEq Name]

theorem DirInv.setTableLock (h : DirInv d) (name : Name) (holder : Option Pid) :
    DirInv (d.setTableLock name holder) :=
  { h with }

theorem DirInv.create (h : DirInv d) (name : Name) : DirInv (d.create name) :=
  { h with
    list_files := fun n hn => mem_insert_of_mem (h.list_files n hn)
    committed_used := fun n hn => mem_insert_of_mem (h.committed_used n hn) }

theorem DirInv.unlink (h : DirInv d) {name : Name} (hname : name ∉ d.list) :
    DirInv (d.unlink name) := by
  refine { h with list_files := ?_ }
  intro n hn
  exact Finset.mem_erase_of_ne_of_mem (fun heq => hname (heq ▸ hn)) (h.list_files n hn)

/-- The commit of an addition appends to the order of commits. -/
theorem DirInv.commitAdd (h : DirInv d) {new : List Name} (hnodup : new.Nodup)
    (hnew : ∀ n ∈ new, n ∈ d.used ∧ n ∉ d.committed ∧ n ∈ d.files) :
    DirInv (d.commitAdd d.list new) := by
  have hold : ∀ n ∈ d.committed, n ∉ new := fun n hn hmem => (hnew n hmem).2.1 hn
  have hone : ∀ n ∈ new, (d.commitAdd d.list new).covers n = [n] := fun n hn => if_pos hn
  rw [d.commitAdd_eq_replace]
  refine h.replace (show d.list ++ [] ++ [] = d.list by simp) hnodup
    (fun n hn => ⟨hnew n hn, (hone n hn).trans_ne (cons_ne_nil _ _)⟩)
    (fun n hn => if_neg (hold n hn))
    (h.added_nodup.append hnodup fun n hn => hold n (h.added_committed n hn))
    (fun n hn => (mem_append.mp hn).imp_right fun hn => ⟨hn, hone n hn⟩) ?_
  rw [flatMap_congr hone, flatMap_singleton', flatMap_nil, append_nil]
  exact h.order.append (List.Sublist.refl _)

/-- The commit of a compaction replaces the tables of one range. -/
theorem DirInv.commitCompact (h : DirInv d) (hle : fst ≤ lst)
    (hlt : lst < d.list.length) {new : Option Name}
    (hnew : ∀ n ∈ new, n ∈ d.used ∧ n ∉ d.committed ∧ n ∈ d.files) :
    DirInv (d.commitCompact d.list fst lst new) := by
  have hlist := take_slice_drop d.list (show fst ≤ lst + 1 by omega)
  have hmid : ∀ n ∈ new, (d.commitCompact d.list fst lst new).covers n =
      (slice d.list fst lst).flatMap d.covers := fun n hn => if_pos hn
  refine h.replace hlist (by cases new <;> simp) ?_
    (fun n hn => if_neg fun hmem => (hnew n hmem).2.1 hn) h.added_nodup (fun n => .inl) ?_
  · intro n hn
    have hfst : d.list[fst] ∈ slice d.list fst lst := by
      rw [slice_eq_cons hle hlt]
      exact mem_cons_self
    refine ⟨hnew n (Option.mem_toList.mp hn), (hmid n (Option.mem_toList.mp hn)).trans_ne ?_⟩
    rw [ne_eq, flatMap_eq_nil_iff]
    exact fun hall => h.covers_ne_nil _ (slice_subset _ _ _ hfst) (hall _ hfst)
  · -- the new table stands for what the range stood for
    have hwhole := h.order
    rw [← hlist, flatMap_append, flatMap_append] at hwhole
    refine (((List.Sublist.refl _).append ?_).append (List.Sublist.refl _)).trans hwhole
    cases new with
    | none => exact nil_sublist _
    | some name => simp

end Directory

/-! ## One step -/

section Steps

variable [DecidableEq Name] {d d' : Directory Pid Name} {p : Pid} {pr' : Proc Name}
  {ts : List Name}

/-- A table file under a new name. -/
theorem DirInv.fresh_create (hd : DirInv d) {name : Name} (hfresh : name ∉ d.used) :
    name ∈ (d.create name).used ∧ name ∉ (d.create name).committed ∧
      name ∈ (d.create name).files :=
  ⟨mem_insert_self _ _, fun hc => hfresh (hd.committed_used name hc), mem_insert_self _ _⟩

/-- An addition that has written one more table. -/
theorem ProcInv.addWrite (hd : DirInv d) {new : List Name} (h : ProcInv d p ⟨ts, .adding new⟩)
    {name : Name} (hfresh : name ∉ d.used) :
    ProcInv (d.create name) p ⟨ts, .adding (new ++ [name])⟩ := by
  refine { h.create name with ok := ?_, fresh := ?_ }
  · refine List.Nodup.append h.ok (nodup_singleton name) ?_
    intro n hn hmem
    exact hfresh (mem_singleton.mp hmem ▸ (h.fresh n hn).1)
  · intro n hn
    rcases mem_append.mp hn with hn | hn
    · exact (h.create name).fresh n hn
    · obtain rfl := mem_singleton.mp hn
      exact hd.fresh_create hfresh

/-- Nothing is asked of a reload that has not begun. -/
theorem ProcInv.loading (h : ProcInv d p ⟨ts, .idle⟩) : ProcInv d p ⟨ts, .loading .done 0⟩ :=
  { h with ok := ⟨After.ok_of_reuse rfl _, fun _ => rfl⟩ }

variable {after : After Name} {tries : Nat}

variable {n : Name}

/-- The tables that a reload does not keep are in `tables.list` no more. -/
theorem ProcInv.dead_stale (h : ProcInv d p ⟨ts, .loading after tries⟩)
    (hn : n ∈ staleTables after.reuse ts d.list) : n ∈ d.committed ∧ n ∉ d.list := by
  obtain ⟨hnodup, hcom⟩ := h.lists ts (mem_singleton_self ts)
  unfold staleTables at hn
  split at hn
  · rw [hnodup.mem_sdiff_iff] at hn
    exact ⟨hcom n hn.1, hn.2⟩
  · rename_i hreuse
    exact h.dead n (h.ok.1 (Bool.not_eq_true _ ▸ hreuse) hn)

/-- A reload that has read `tables.list`. -/
theorem ProcInv.loadRead (hd : DirInv d) (h : ProcInv d p ⟨ts, .loading after tries⟩) :
    ProcInv d p ⟨ts, .opening after tries d.list d.list⟩ := by
  refine { h with ok := h.ok.1, current := ?_, lists := ?_, dead := ?_ }
  · intro l hl
    simp only [Proc.snapshot, Option.mem_def] at hl
    split at hl
    · exact Option.some.inj hl
    · cases hl
  · intro l hl
    rcases mem_cons.mp hl with rfl | hl
    · exact h.lists _ (mem_singleton_self _)
    · obtain rfl := mem_singleton.mp hl
      exact ⟨hd.nodup, hd.list_committed⟩
  · intro n hn
    exact (mem_append.mp hn).elim h.dead_stale (h.dead n)

/-- A failed reload leaves the stack as it was. -/
theorem ProcInv.fail (h : ProcInv d p ⟨ts, .loading after tries⟩) :
    ProcInv d p ⟨ts, after.fail⟩ := by
  cases after with
  | add => exact { h with ok := nodup_nil }
  | done => exact { h with ok := trivial }
  | delete locks reuse => exact { h with ok := trivial, dead := forall_mem_nil _ }

/-- Back to the head of the loop of a reload. -/
theorem ProcInv.retry (h : ProcInv d p ⟨ts, .checking after tries names⟩)
    {tries' : Nat} (hadd : after.isAdd = true → tries' = 0) :
    ProcInv d p ⟨ts, .loading after tries'⟩ :=
  { h with
    ok := ⟨h.ok, hadd⟩
    current := nofun
    lists := fun l hl => h.lists l (mem_cons.mpr (.inl (mem_singleton.mp hl)))
    dead := fun n hn => h.dead n (mem_append_right _ hn) }

/-- After a reload a process has loaded the tables it has read. -/
theorem ProcInv.succeed (h : ProcInv d p ⟨ts, .unlinking after names []⟩) :
    ProcInv d p ⟨names, after.succeed⟩ := by
  have hlists : ∀ l ∈ [names], l.Nodup ∧ ∀ n ∈ l, n ∈ d.committed :=
    (forall_mem_cons.mp h.lists).2
  cases after with
  | add => exact { h with ok := nodup_nil, lists := hlists }
  | done | delete => exact { h with lists := hlists }

/-- A reload that gives up after its deadline keeps the stack that it had. -/
theorem ProcInv.loadDeadline (h : ProcInv d p ⟨ts, .loading after tries⟩) (htries : 3 ≤ tries) :
    ProcInv d p ⟨ts, after.succeed⟩ := by
  -- the first round of a reload inside an addition cannot fail for a missing table
  have hadd : after.isAdd = false := by
    by_contra hne
    have := h.ok.2 (Bool.eq_true_of_not_eq_false hne)
    omega
  have hload : ProcInv d p ⟨ts, .unlinking after ts []⟩ := by
    refine { h with ok := trivial, current := ?_, lists := ?_ }
    · simp [Proc.snapshot, hadd]
    · intro l hl
      exact h.lists l (by simpa [Proc.lists] using hl)
  exact hload.succeed

/-- A process that releases what it holds. -/
theorem ProcInv.releasing (h : ProcInv d p pr) {locks : List Name}
    (hlocks : locks = pr.held) {listHeld : Bool} (hlist : listHeld = true → pr.pc.holdsList = true) :
    ProcInv d p ⟨pr.tables, .releasing listHeld locks⟩ where
  ok := trivial
  holds := fun hl => h.holds (hlist hl)
  locks := fun n hn => h.locks n (hlocks ▸ hn)
  locks_nodup := hlocks ▸ h.locks_nodup
  current := nofun
  range := List.nil_infix
  lists := by
    intro l hl
    refine h.lists l ?_
    rw [mem_singleton.mp hl]
    unfold Proc.lists
    split <;> exact mem_cons_self
  dead := forall_mem_nil _
  fresh := forall_mem_nil _

/-- A compaction of a stack that is up to date has no table locked yet. -/
theorem ProcInv.compactUptodate (h : ProcInv d p ⟨ts, .compactLocked first last bestEffort⟩)
    (heq : ts = d.list) : ProcInv d p ⟨ts, .locking first last (last + 1) bestEffort⟩ := by
  have hnone : tableLocks ts (last + 1) last = [] := by
    rw [tableLocks, slice, drop_eq_nil_of_le (length_take_le _ _), reverse_nil]
  refine { h with ok := ?_, locks := ?_, locks_nodup := ?_, current := ?_ }
  · have hle := RangeOk.le h.ok
    exact ⟨h.ok, by omega, le_rfl⟩
  · simp only [Proc.held, hnone]
    exact forall_mem_nil _
  · simp only [Proc.held, hnone]
    exact nodup_nil
  · exact fun l hl => heq.symm.trans (Option.mem_some_iff.mp hl)

/-- A compaction that has locked one more table. -/
theorem ProcInv.lockTable {i : Nat} (h : ProcInv d p ⟨ts, .locking first last (i + 1) bestEffort⟩)
    (hi : first ≤ i) (hname : ts[i]? = some n) :
    ProcInv (d.setTableLock n (some p)) p ⟨ts, .locking first last i bestEffort⟩ := by
  obtain ⟨hrange, -, hilast⟩ := h.ok
  obtain ⟨hilt, hget⟩ := List.getElem?_eq_some_iff.mp hname
  have hnodup : (tableLocks ts i last).Nodup := nodup_reverse.mpr
    (((h.lists ts (List.mem_singleton_self ts)).1.sublist (take_sublist _ _)).sublist
      (drop_sublist _ _))
  refine { h with ok := ⟨hrange, hi, by omega⟩, locks := ?_, locks_nodup := hnodup }
  intro m hm
  by_cases hne : m = n
  · rw [hne]
    exact update_self _ _ _
  refine (update_of_ne hne _ _).trans (h.locks m ?_)
  have hmem := mem_tableLocks.mp hm
  rw [slice_eq_cons (by omega) hrange.lt, hget] at hmem
  exact mem_tableLocks.mpr ((mem_cons.mp hmem).resolve_left hne)

/-- A compaction that has locked the tables it works on, which lie together in the list. -/
theorem ProcInv.locked {i : Nat} (h : ProcInv d p ⟨ts, .locking first last i bestEffort⟩)
    (hrange : RangeOk ts i last) : ProcInv d p ⟨ts, .locked i last⟩ := by
  refine { h with ok := hrange, current := by rintro _ ⟨⟩, range := ?_ }
  have hinfix : slice ts i last <:+: ts := ⟨_, _, take_slice_drop ts h.ok.2.2⟩
  rw [h.current ts rfl]
  exact hinfix

/-- The tables of the range are not in the list that a compaction commits. -/
theorem DirInv.dead_of_commitCompact (h : DirInv d) (hle : fst ≤ lst)
    {new : Option Name} (hnew : ∀ n ∈ new, n ∉ d.committed) (hn : n ∈ slice d.list fst lst) :
    n ∈ (d.commitCompact d.list fst lst new).committed ∧
      n ∉ (d.commitCompact d.list fst lst new).list := by
  have hc := h.list_committed n (slice_subset _ _ _ hn)
  refine ⟨mem_union_left _ hc, fun hmem => ?_⟩
  rcases (h.mem_replace (take_slice_drop d.list (by omega))).mp hmem with hmem | hmem
  · exact hnew n (Option.mem_toList.mp hmem) hc
  · exact hmem.2 hn

/-- A compaction that has committed reloads, and then unlinks the tables of its range. -/
theorem ProcInv.compactCommit (hd : DirInv d) {new : Option Name}
    (h : ProcInv d p ⟨ts, .placed first last new d.list fst lst⟩) :
    ProcInv (d.commitCompact d.list fst lst new) p
      ⟨ts, .loading (.delete (tableLocks ts first last) (decide (first < last))) 0⟩ := by
  obtain ⟨hrange, hle, hlt, hslice⟩ := h.ok
  refine ⟨⟨hrange.subset_tableLocks, fun _ => rfl⟩, by rintro ⟨⟩, h.locks, h.locks_nodup,
    by rintro _ ⟨⟩, List.nil_infix, h.lists_union _, ?_, forall_mem_nil _⟩
  intro n hn
  have hmem : n ∈ slice d.list fst lst := hslice ▸ mem_tableLocks.mp hn
  exact hd.dead_of_commitCompact hle (fun n hn => (h.fresh n (Option.mem_toList.mpr hn)).2.1) hmem

/-- A process that has released one table lock. -/
theorem ProcInv.releaseTable {locks : List Name}
    (h : ProcInv d p ⟨ts, .releasing false (n :: locks)⟩) :
    ProcInv (d.setTableLock n none) p ⟨ts, .releasing false locks⟩ := by
  obtain ⟨hname, hnodup⟩ := nodup_cons.mp h.locks_nodup
  refine { h with locks := ?_, locks_nodup := hnodup }
  intro m hm
  have hne : m ≠ n := fun heq => hname (heq ▸ hm)
  exact (update_of_ne hne _ _).trans (h.locks m (mem_cons_of_mem _ hm))

/-- A step keeps the invariant of the process that takes it. -/
theorem ProcStep.procInv (hstep : ProcStep p d pr d' pr') (hd : DirInv d) (h : ProcInv d p pr) :
    ProcInv d' p pr' := by
  cases hstep with
  | addAcquire | compactRelock => exact { h with holds := fun _ => rfl }
  | addUptodate heq =>
    refine { h with ok := nodup_nil, current := ?_ }
    intro l hl
    exact heq.symm.trans (Option.mem_some_iff.mp hl)
  | addReload hne => exact { h with ok := ⟨After.ok_of_reuse rfl _, fun _ => rfl⟩ }
  | addOutdated | addInitFail => exact { h with ok := nodup_nil }
  | addWrite name hfresh => exact h.addWrite hd hfresh
  | addCommit hne =>
    exact ⟨⟨After.ok_of_reuse rfl _, fun _ => rfl⟩, nofun, forall_mem_nil _, nodup_nil, nofun,
      List.nil_infix, h.lists_union _, forall_mem_nil _, forall_mem_nil _⟩
  | addClose => exact { h with current := nofun }
  | closeUnlink =>
    obtain ⟨hname, hnodup⟩ := nodup_cons.mp h.ok
    have htail : ProcInv d p ⟨_, .closing _⟩ :=
      { h with ok := hnodup, fresh := (forall_mem_cons.mp h.fresh).2 }
    exact htail.unlink hname
  | closeRelease => exact { h with ok := trivial, holds := nofun }
  | reload => exact h.loading
  | loadRead => exact h.loadRead hd
  | loadFail => exact h.fail
  | loadDeadline htries => exact h.loadDeadline htries
  | openNext | openMissing | placeEmpty | released => exact { h with }
  | openFail =>
    have hcheck : ProcInv d p ⟨_, .checking _ 0 _⟩ := { h with }
    exact (hcheck.retry fun _ => rfl).fail
  | checkChanged hne =>
    refine h.retry fun hadd => absurd (h.current _ ?_) hne
    simp [Proc.snapshot, hadd]
  | checkFail => exact (h.retry fun _ => rfl).fail
  | opened => exact { h with ok := trivial }
  | @unlinkStale ts after names name todo =>
    have htail : ProcInv d p ⟨ts, .unlinking after names todo⟩ :=
      { h with dead := (forall_mem_cons.mp h.dead).2 }
    exact htail.unlink not_mem_nil
  | reloaded => exact h.succeed
  | compactAcquire first last expiry bestEffort hcall hguard hne hfree =>
    exact { h with ok := hcall.rangeOk hguard hne, holds := fun _ => rfl }
  | compactUptodate heq => exact h.compactUptodate heq
  | compactOutdated | lockFail | locateFail | placeFail | commitAbort =>
    exact h.releasing rfl fun _ => rfl
  | lockTable hi hname hfree => exact h.lockTable hi hname
  | lockBusy hi hname hbusy htwo => exact h.locked ⟨by omega, h.ok.1.lt, by omega⟩
  | lockAll => exact h.locked h.ok.1
  | compactRelease | releaseList => exact { h with holds := by rintro ⟨⟩ }
  | compactFail | deleted => exact h.releasing rfl (by rintro ⟨⟩)
  | locateSame heq =>
    refine { h with ok := ⟨h.ok, RangeOk.le h.ok, RangeOk.lt h.ok, rfl⟩, current := ?_ }
    exact fun l hl => heq.symm.trans (Option.mem_some_iff.mp hl)
  | locateMoved hne hloc =>
    refine { h with ok := ⟨h.ok, locateRange_spec h.ok hloc⟩, current := ?_ }
    exact fun l hl => Option.mem_some_iff.mp hl
  | place name hfresh =>
    refine { h.create name with fresh := ?_ }
    intro n hn
    obtain rfl := mem_singleton.mp hn
    exact hd.fresh_create hfresh
  | compactCommit =>
    obtain rfl := h.current _ rfl
    exact h.compactCommit hd
  | commitFail =>
    have hrel : ProcInv d p ⟨_, .releasing true _⟩ := h.releasing rfl fun _ => rfl
    exact hrel.unlink not_mem_nil
  | @deleteTable ts locks name todo =>
    have htail : ProcInv d p ⟨ts, .deleting locks todo⟩ :=
      { h with dead := (forall_mem_cons.mp h.dead).2 }
    exact htail.unlink not_mem_nil
  | releaseTable => exact h.releaseTable

/-- The file that a step unlinks is in no list. -/
theorem ProcInv.not_mem_list_of_pending (hd : DirInv d) (h : ProcInv d p pr) (hn : n ∈ pr.pending) :
    n ∉ d.list :=
  fun hl => (h.fresh n hn).2.1 (hd.list_committed n hl)

/-- A step keeps the invariant of the directory. -/
theorem ProcStep.dirInv (hstep : ProcStep p d pr d' pr') (hd : DirInv d) (h : ProcInv d p pr) :
    DirInv d' := by
  cases hstep with
  | addAcquire | closeRelease | compactAcquire | compactRelease | compactRelock | releaseList =>
    exact hd.setListLock _
  | lockTable | releaseTable => exact hd.setTableLock _ _
  | addWrite name | place name => exact hd.create name
  | closeUnlink | commitFail => exact hd.unlink (h.not_mem_list_of_pending hd mem_cons_self)
  | unlinkStale | deleteTable => exact hd.unlink (h.dead _ mem_cons_self).2
  | addCommit =>
    obtain rfl := h.current _ rfl
    exact hd.commitAdd h.ok h.fresh
  | compactCommit =>
    obtain ⟨-, hle, hlt, -⟩ := h.ok
    obtain rfl := h.current _ rfl
    exact hd.commitCompact hle hlt fun n hn => h.fresh n (Option.mem_toList.mpr hn)
  | _ => exact hd

/-- A step keeps the invariants of the other processes. -/
theorem ProcStep.others (hstep : ProcStep p d pr d' pr') (hd : DirInv d) (h : ProcInv d p pr)
    {q : Pid} (hne : q ≠ p) {prq : Proc Name} (hq : ProcInv d q prq)
    (hapart : ∀ n ∈ pr.pending, n ∉ prq.pending) : ProcInv d' q prq := by
  -- a lock that is free, or that `p` holds, is not held by `q`
  have hother : some p ≠ some q := fun heq => hne (Option.some.inj heq).symm
  have hretired : ∀ n ∈ pr.retired, n ∉ prq.pending := fun n hn hmem =>
    (hq.fresh n hmem).2.1 (h.dead n hn).1
  cases hstep with
  | addAcquire _ hfree | compactAcquire _ _ _ _ _ _ _ hfree | compactRelock _ hfree =>
    exact hq.setListLock (by simp [hfree]) _
  | closeRelease | compactRelease | releaseList =>
    exact hq.setListLock (h.holds rfl ▸ hother) _
  | lockTable hi hname hfree => exact hq.setTableLock (by simp [hfree]) _
  | releaseTable => exact hq.setTableLock (h.locks _ mem_cons_self ▸ hother) _
  | addWrite name | place name => exact hq.create name
  | closeUnlink | commitFail => exact hq.unlink (hapart _ mem_cons_self)
  | unlinkStale | deleteTable => exact hq.unlink (hretired _ mem_cons_self)
  | addCommit =>
    obtain rfl := h.current _ rfl
    exact hq.commitAdd (h.holds rfl ▸ hother) hd (fun n hn => (h.fresh n hn).2.1) hapart
  | compactCommit =>
    obtain ⟨-, hle, hlt, hslice⟩ := h.ok
    obtain rfl := h.current _ rfl
    refine hq.commitCompact (h.holds rfl ▸ hother) hd hle hlt ?_ ?_ ?_
    · exact fun n hn => (h.fresh n (Option.mem_toList.mpr hn)).2.1
    · exact fun n hn => hapart n (Option.mem_toList.mpr hn)
    intro n hn
    rw [h.locks n (mem_tableLocks.mpr (hslice ▸ hn))]
    exact hother
  | _ => exact hq

/-- A file that a step makes is new. -/
theorem ProcStep.pending (hstep : ProcStep p d pr d' pr') (hn : n ∈ pr'.pending) :
    n ∈ pr.pending ∨ n ∉ d.used := by
  cases hstep with
  | addWrite name hfresh =>
    refine (mem_append.mp hn).imp_right ?_
    intro hmem
    rw [mem_singleton.mp hmem]
    exact hfresh
  | place name hfresh =>
    right
    rw [mem_singleton.mp hn]
    exact hfresh
  | closeUnlink => exact .inl (mem_cons_of_mem _ hn)
  | @loadFail _ after | @loadDeadline _ after | @openFail _ after | @checkFail _ after
  | @reloaded _ after => cases after <;> exact absurd hn not_mem_nil
  | addClose => exact .inl hn
  | _ => cases hn

end Steps

/-! ## Whole runs -/

section Runs

variable [DecidableEq Pid] [DecidableEq Name] {s : StackState Pid Name} {p : Pid}

omit [DecidableEq Pid] in
theorem stackInv_init : StackInv (StackState.init : StackState Pid Name) where
  dir := by
    constructor <;> simp [StackState.init]
  proc := by
    intro p
    constructor <;> simp [StackState.init, Proc.Ok, Pc.holdsList, Proc.held, Proc.snapshot,
      Proc.claimed, Proc.lists, Proc.retired, Proc.pending]
  apart := fun p q n hn => absurd hn not_mem_nil

/-- What one step preserves. -/
theorem StackInv.step {t : StackState Pid Name} (hs : StackInv s) (hstep : StackStep s t) :
    StackInv t := by
  obtain @⟨p, d, pr, h⟩ := hstep
  have hp := hs.proc p
  have hapart : ∀ q, q ≠ p → ∀ n ∈ (s.procs p).pending, n ∉ (s.procs q).pending :=
    fun q hq n hn hmem => hq (hs.apart p q n hn hmem).symm
  -- what `p` has pending after the step, another process has not
  have hnew : ∀ q, q ≠ p → ∀ n, n ∈ pr.pending → n ∉ (s.procs q).pending := by
    intro q hq n hn hmem
    rcases h.pending hn with hn | hn
    · exact hapart q hq n hn hmem
    · exact hn ((hs.proc q).fresh n hmem).1
  constructor
  case dir => exact h.dirInv hs.dir hp
  case proc =>
    intro q
    by_cases hq : q = p
    · subst hq
      dsimp only
      rw [update_self]
      exact h.procInv hs.dir hp
    · dsimp only
      rw [update_of_ne hq]
      exact h.others hs.dir hp hq (hs.proc q) (hapart q hq)
  case apart =>
    intro q r n hq hr
    dsimp only at hq hr
    by_cases hqp : q = p <;> by_cases hrp : r = p
    · rw [hqp, hrp]
    · grind
    · grind
    · rw [update_of_ne hqp] at hq
      rw [update_of_ne hrp] at hr
      exact hs.apart q r n hq hr

/-- The invariant holds in every interleaving. -/
theorem StackReachable.inv (h : StackReachable s) : StackInv s := by
  induction h with
  | init => exact stackInv_init
  | step _ hstep ih => exact ih.step hstep

/-- **No lost update.** Whatever the processes do, a table that an addition has committed is in
`tables.list` or was replaced by exactly one committed compaction; the tables that the names in
`tables.list` stand for are in the order of their commits; and the file of every name in
`tables.list` exists. -/
theorem stackReachable_no_lost_update {s : StackState Pid Name} (h : StackReachable s) :
    (∀ n ∈ s.dir.added, (n ∈ s.dir.list ∧ s.dir.consumed n = 0) ∨
      (n ∉ s.dir.list ∧ s.dir.consumed n = 1)) ∧
    (s.dir.added.Nodup ∧ (∀ n ∈ s.dir.added, s.dir.covers n = [n]) ∧
      (∀ n ∈ s.dir.list, s.dir.covers n ≠ []) ∧
      (s.dir.list.flatMap s.dir.covers).Sublist s.dir.added) ∧
    ∀ n ∈ s.dir.list, n ∈ s.dir.files := by
  have hd := h.inv.dir
  refine ⟨?_, ⟨hd.added_nodup, hd.covers_added, hd.covers_ne_nil, hd.order⟩, hd.list_files⟩
  intro n hn
  by_cases hlist : n ∈ s.dir.list
  · exact .inl ⟨hlist, hd.consumed_list n hlist⟩
  · exact .inr ⟨hlist, hd.consumed_gone n (hd.added_committed n hn) hlist⟩

/-- **Compactions side by side.** In every interleaving at most one process is where it needs the list
lock, and the locked tables of two processes are apart. What a process compacts stays together in
`tables.list`, where it is found again after other commits, and no table in it is about to be
unlinked, by whichever process and for whichever reason. -/
theorem stackReachable_compactions_apart (s : { s : StackState Pid Name // StackReachable s })
    (p : Pid) :
    (∀ q, (s.1.procs p).pc.holdsList → (s.1.procs q).pc.holdsList → p = q) ∧
    (∀ q ≠ p, (s.1.procs p).held.Disjoint (s.1.procs q).held) ∧
    (s.1.procs p).claimed <:+: s.1.dir.list ∧ (∀ n ∈ (s.1.procs p).doomed, n ∉ s.1.dir.list) ∧
    ∀ first last isEmpty, (s.1.procs p).pc = .relocked first last isEmpty →
      (locateRange s.1.dir.list (s.1.procs p).tables first last).isSome := by
  have hs := s.2.inv
  have hp := hs.proc p
  refine ⟨fun q hpq hq => ?_, fun q hne n hn hn' => ?_, hp.range, fun n hn => ?_,
    fun first last isEmpty hpc => ?_⟩
  · exact Option.some.inj ((hp.holds hpq).symm.trans ((hs.proc q).holds hq))
  · exact hne (Option.some.inj (((hs.proc q).locks n hn').symm.trans (hp.locks n hn)))
  · exact (mem_append.mp hn).elim (fun hn => (hp.dead n hn).2) (hp.not_mem_list_of_pending hs.dir)
  · have hok := hp.ok
    have hrange := hp.range
    simp only [Proc.Ok, Proc.claimed, hpc] at hok hrange
    exact locateRange_of_infix hok hs.dir.nodup hrange

/-- A process that takes one more step. -/
theorem StackReachable.run {procs : Pid → Proc Name} {d d' : Directory Pid Name}
    {pr' : Proc Name} (hs : StackReachable ⟨d, update procs p pr⟩)
    (h : ProcStep p d pr d' pr') : StackReachable ⟨d', update procs p pr'⟩ := by
  have hproc : ProcStep p d (update procs p pr p) d' pr' := by
    rw [update_self]
    exact h
  have hstep : StackStep ⟨d, update procs p pr⟩
      ⟨d', update (update procs p pr) p pr'⟩ := .mk p hproc
  rw [Function.update_idem] at hstep
  exact hs.step hstep

end Runs

/-- The process 0 adds the tables 1 and 2 and compacts them into the table 3. -/
theorem stackReachable_no_lost_update_compaction :
    ∃ s : StackState Nat Nat, StackReachable s ∧ s.dir.list = [3] ∧ s.dir.added = [1, 2] ∧
      s.dir.consumed 1 = 1 ∧ (s.dir.list.flatMap s.dir.covers).Sublist s.dir.added := by
  have hinit : StackReachable (⟨StackState.init.dir, update (fun _ => ⟨[], .idle⟩) 0
      ⟨[], .idle⟩⟩ : StackState Nat Nat) := by
    rw [Function.update_eq_self]
    exact .init
  have hadd := (((hinit.run (.addAcquire false rfl)).run (.addUptodate rfl)).run
    (.addWrite 1 (by decide))).run (.addWrite 2 (by decide))
  have hload := (((((hadd.run (.addCommit (by decide))).run .loadRead).run
    (.openNext (.inr (by decide)))).run (.openNext (.inr (by decide)))).run .opened).run .reloaded
  have hlock := ((((hload.run (.compactAcquire 0 1 false false (.inl (by decide)) (by decide)
    (by decide) rfl)).run (.compactUptodate rfl)).run (.lockTable (by decide) rfl rfl)).run
    (.lockTable (by decide) rfl rfl)).run .lockAll
  have hdone := ((((hlock.run .compactRelease).run (.compactRelock false rfl)).run
    (.locateSame rfl)).run (.place 3 (by decide))).run .compactCommit
  exact ⟨_, hdone, rfl, rfl, rfl, (stackReachable_no_lost_update hdone).2.1.2.2.2⟩

end GitCore.Reftable
