import GitCore.Reftable.RecordRoundTrip
import GitCore.Reftable.TableRoundTrip

/-! # The order of the records that a writer accepts

A writer compares the key of a record with the last key that it remembers, `last_key`, to keep its
sections sorted. The memory is not reliable: it is erased whenever a block is opened, also when this
happens in the middle of adding a record, so that the record after it is not compared with anything.
A call then keeps the order exactly if its key is greater than that of the last record anyway, or not
greater than what the writer remembers, or if it is rejected for another reason. -/

namespace GitCore.Reftable

open Option Overlay

variable {zlib : Zlib} {opts : WriterOptions} {fuel : Nat} {w w' : Writer}

/-! ## The errors of a block -/

section Errors

variable {α β : Type}

/-- The only error is that there is no room. -/
def FailsTooBig (x : Except ReftableError α) : Prop := ∀ e, x = .error e → e = .entryTooBig

theorem failsTooBig_ok (a : α) : FailsTooBig (.ok a) := by
  intro e h
  cases h

theorem failsTooBig_error : FailsTooBig (.error .entryTooBig : Except ReftableError α) := by
  intro e h
  exact (Except.error.inj h).symm

theorem FailsTooBig.bind {x : Except ReftableError α} {f : α → Except ReftableError β}
    (hx : FailsTooBig x) (hf : ∀ a, FailsTooBig (f a)) : FailsTooBig (x >>= f) := by
  intro e h
  cases hxe : x with
  | error e' =>
    rw [hxe] at h
    obtain rfl := Except.error.inj h
    exact hx _ hxe
  | ok a =>
    rw [hxe] at h
    exact hf a e h

theorem FailsTooBig.ite {c : Prop} [Decidable c] {x y : Except ReftableError α}
    (hx : FailsTooBig x) (hy : FailsTooBig y) : FailsTooBig (if c then x else y) := by
  split
  · exact hx
  · exact hy

/-- An encoder fails for lack of room only. -/
theorem Encodes.failsTooBig {encode : Nat → Except ReftableError Bytes} {bytes : Bytes}
    (h : Encodes encode bytes) (room : Nat) : FailsTooBig (encode room) := by
  rw [h room]
  exact (failsTooBig_ok _).ite failsTooBig_error

variable {hashSize : Nat}

/-- The sections that callers add records to. -/
def BlockType.IsPublic (type : BlockType) : Prop := type = .ref ∨ type = .log

/-- **`block_writer_add`** fails on a record with a key for lack of room only. -/
theorem failsTooBig_blockWriterAdd {type : BlockType} (htype : type.IsPublic) (bw : BlockWriter)
    (record : BlockRecord hashSize type) (hkey : (recordCodec hashSize type).key record ≠ []) :
    FailsTooBig (blockWriterAdd (recordCodec hashSize type) bw record) := by
  have hencode : ∀ room, FailsTooBig ((recordCodec hashSize type).encode room record) := by
    intro room
    rcases htype with rfl | rfl
    · exact (RefRecord.encodes record).failsTooBig room
    · exact (LogRecord.encodes record).failsTooBig room
  unfold blockWriterAdd
  rw [if_neg hkey, encodeKey_eq]
  refine ((failsTooBig_ok _).ite failsTooBig_error).bind fun n => ?_
  refine (hencode _).bind fun value => ?_
  unfold blockWriterRegisterRestart
  split
  · exact failsTooBig_error
  · exact failsTooBig_ok _

end Errors

/-! ## Adding a record -/

section AddRecord

variable {type : BlockType}

/-- The type of the block under way. -/
def Writer.currentType (w : Writer) : Option BlockType := w.blockWriter.map BlockWriter.type

@[simp] theorem currentType_writerReinitBlockWriter (opts : WriterOptions) (type : BlockType)
    (w : Writer) : (writerReinitBlockWriter opts type w).currentType = some type := by
  have hle : (if w.next = 0 then headerSize opts.hashId.version else 0) + 4 ≤ opts.blockSize := by
    have := opts.headers_le
    split <;> omega
  unfold Writer.currentType writerReinitBlockWriter blockWriterInit
  dsimp only
  rw [dif_pos ⟨opts.restartInterval_pos, hle⟩]
  rfl

/-- What an attempt to add a record to the block under way leaves behind. -/
theorem currentBlockAdd_cases (htype : type.IsPublic) (record : opts.Record type)
    (hkey : (opts.codec type).key record ≠ []) (hw : w.currentType = some type) :
    (∃ w', currentBlockAdd opts type record w = .ok () w' ∧ w'.currentType = some type) ∨
      currentBlockAdd opts type record w = .error .entryTooBig w := by
  obtain ⟨bw, hbw, hty⟩ := map_eq_some_iff.mp hw
  unfold currentBlockAdd
  rw [hbw]
  dsimp only
  cases hadd : blockWriterAdd (opts.codec type) bw record with
  | error e =>
    obtain rfl := failsTooBig_blockWriterAdd htype bw record hkey e hadd
    exact .inr rfl
  | ok bw' =>
    refine .inl ⟨_, rfl, ?_⟩
    change some bw'.type = some type
    rw [(blockWriterAdd_frame hadd).1, hty]

/-- A record that passes the checks is added, or too big for a block. The writer remembers its key,
or nothing if a block was opened. -/
theorem addFlushing_cases (zlib : Zlib) (htype : type.IsPublic) (record : opts.Record type)
    (hkey : (opts.codec type).key record ≠ []) (hw : w.currentType = some type) :
    ∃ w', (addFlushing zlib opts type record w = .ok () w' ∨
        addFlushing zlib opts type record w = .error .entryTooBig w') ∧
      w'.currentType = some type := by
  unfold addFlushing onTooBig
  rcases currentBlockAdd_cases htype record hkey hw with ⟨w', hadd, hty⟩ | hfull
  · refine ⟨w', .inl ?_, hty⟩
    rw [hadd]
  rw [hfull]
  rcases currentBlockAdd_cases htype record hkey
      (currentType_writerReinitBlockWriter opts type (writerFlushBlock zlib opts w)) with
    ⟨w', hadd, hty⟩ | hfull'
  · exact ⟨w', .inl hadd, hty⟩
  · exact ⟨_, .inr hfull', currentType_writerReinitBlockWriter opts type _⟩

/-- The outcome of a call that passes a key to `writer_add_record`. -/
structure Outcome (type : BlockType) (key : Bytes) (w : Writer)
    (result : EStateM.Result ReftableError Writer Unit) : Prop where
  remembered : key ≤ w.lastKey → ∃ w', result = .error .api w' ∧ w'.currentType = w.currentType
  other : (∃ ty ≠ type, w.currentType = some ty) →
    ∃ w', result = .error .api w' ∧ w'.currentType = w.currentType
  added : w.lastKey < key → w.currentType = none ∨ w.currentType = some type →
    ∃ w', (result = .ok () w' ∨ result = .error .entryTooBig w') ∧ w'.currentType = some type

/-- **The checks of `writer_add_record`.** -/
theorem outcome_writerAddRecord (zlib : Zlib) (htype : type.IsPublic) (record : opts.Record type)
    (w : Writer) : Outcome type ((opts.codec type).key record) w
      (writerAddRecord zlib opts type record w) := by
  generalize hk : (opts.codec type).key record = key
  by_cases hle : key ≤ w.lastKey
  · have herror : writerAddRecord zlib opts type record w = .error .api w := if_pos (hk ▸ hle)
    exact ⟨fun _ => ⟨w, herror, rfl⟩, fun _ => ⟨w, herror, rfl⟩, fun hlt => absurd hle hlt.not_ge⟩
  have hresult : writerAddRecord zlib opts type record w = _ := if_neg (hk ▸ hle)
  rw [hk] at hresult
  refine ⟨fun h => absurd h hle, ?_, fun hlt hcurrent => ?_⟩
  · rintro ⟨ty, hne, hcurrent⟩
    obtain ⟨bw, hbw, rfl⟩ := map_eq_some_iff.mp hcurrent
    refine ⟨{ w with lastKey := key }, ?_, rfl⟩
    grind
  -- the record passes the checks
  generalize hopen : (if w.blockWriter.isNone then writerReinitBlockWriter opts type
    { w with lastKey := key } else { w with lastKey := key }) = w₁ at hresult
  have hty : w₁.currentType = some type := by
    rw [← hopen]
    rcases hcurrent with hcurrent | hcurrent
    · rw [map_eq_none_iff.mp hcurrent]
      exact currentType_writerReinitBlockWriter opts type _
    · obtain ⟨bw, hbw, hty⟩ := map_eq_some_iff.mp hcurrent
      rw [hbw]
      exact congrArg some hty
  rw [hresult.trans (if_neg (not_not.mpr hty))]
  refine addFlushing_cases zlib htype record (fun hnil => ?_) hty
  rw [← hk, hnil] at hlt
  exact List.not_lt_nil _ hlt

/-- A call fails before the record is looked at, or it may add the record. -/
theorem Outcome.cases {key : Bytes} {result : EStateM.Result ReftableError Writer Unit}
    (h : Outcome type key w result) :
    (∃ w', result = .error .api w' ∧ w'.currentType = w.currentType) ∨
      ∃ w', (result = .ok () w' ∨ result = .error .entryTooBig w') ∧ w'.currentType = some type ∧
        (w.currentType = none ∨ w.currentType = some type) := by
  rcases le_or_gt key w.lastKey with hle | hlt
  · exact .inl (h.remembered hle)
  by_cases hother : ∃ ty ≠ type, w.currentType = some ty
  · exact .inl (h.other hother)
  have hcurrent : w.currentType = none ∨ w.currentType = some type := by
    cases hc : w.currentType with
    | none => exact .inl rfl
    | some ty => exact .inr (congrArg some (not_not.mp fun hne => hother ⟨ty, hne, hc⟩))
  obtain ⟨w', hresult, hty⟩ := h.added hlt hcurrent
  exact .inr ⟨w', hresult, hty, hcurrent⟩

variable {key : Bytes} {result : EStateM.Result ReftableError Writer Unit}

/-- A record that is added leaves a block of its section under way. -/
theorem Outcome.currentType_of_ok (h : Outcome type key w result) (hok : result = .ok () w') :
    w'.currentType = some type := by
  rcases h.cases with ⟨w₁, rfl, -⟩ | ⟨w₁, rfl | rfl, hty, -⟩
  · cases hok
  · grind
  · cases hok

/-- A record that is not added does not change the section. -/
theorem Outcome.currentType_of_error {ty : BlockType} {e : ReftableError}
    (h : Outcome type key w result) (herror : result = .error e w')
    (hcurrent : w.currentType = some ty) : w'.currentType = some ty := by
  rcases h.cases with ⟨w₁, rfl, hty⟩ | ⟨w₁, rfl | rfl, hty, hopen⟩
  · grind
  · cases herror
  grind

end AddRecord

/-! ## Calls -/

/-- A call that adds a record. -/
inductive AddCall (hashSize : Nat) where
  /-- `reftable_writer_add_ref` -/
  | ref (record : RefRecord hashSize)
  /-- `reftable_writer_add_log` -/
  | log (record : LogRecord hashSize)

/-- The section that the record belongs to. -/
def AddCall.type {hashSize : Nat} : AddCall hashSize → BlockType
  | .ref _ => .ref
  | .log _ => .log

/-- The key of the record. -/
def AddCall.key {hashSize : Nat} : AddCall hashSize → Bytes
  | .ref record => record.refname.val
  | .log record => record.key

section Calls

variable (zlib opts fuel)

/-- The call on a writer. -/
def AddCall.run : AddCall opts.hashId.size → WriterM Unit
  | .ref record => reftableWriterAddRef zlib opts record
  | .log record => reftableWriterAddLog zlib opts fuel record

/-- The log that `reftable_writer_add_log` passes on, if it does not reject it. -/
def verbatimLog (w : Writer) (log : LogRecord opts.hashId.size) :
    Option (LogRecord opts.hashId.size) :=
  match log.value with
  | none => some log
  | some update =>
    if w.maxUpdateIndex < log.updateIndex then none
    else
      match opts.exactLogMessage, update.message with
      | false, some message =>
        (cleanMessage message).map fun message =>
          { log with value := some { update with message := some message } }
      | _, _ => some log

/-- The call is rejected whatever the last key is: the record has no key, its update index or its
message is not allowed, or the block under way belongs to another section. A log closes the section
of refs. -/
def AddCall.Rejected (w : Writer) : AddCall opts.hashId.size → Prop
  | .ref record => record.refname.val = [] ∨ record.updateIndex < w.minUpdateIndex ∨
      w.maxUpdateIndex < record.updateIndex ∨ ∃ ty ≠ .ref, w.currentType = some ty
  | .log record => verbatimLog opts w record = none ∨
      ∃ ty, ty ≠ .ref ∧ ty ≠ .log ∧ w.currentType = some ty

variable {zlib opts fuel} {log : LogRecord opts.hashId.size}

/-- `reftable_writer_add_log` in terms of `verbatimLog`. -/
theorem reftableWriterAddLog_eq (log : LogRecord opts.hashId.size) (w : Writer) :
    reftableWriterAddLog zlib opts fuel log w =
      match verbatimLog opts w log with
      | none => .error .api w
      | some log' => reftableWriterAddLogVerbatim zlib opts fuel log' w := by
  unfold reftableWriterAddLog verbatimLog
  cases log.value with
  | none => rfl
  | some update =>
    change (if _ then _ else _ : WriterM Unit) w = _
    dsimp only
    split
    · rfl
    cases opts.exactLogMessage with
    | true => rfl
    | false =>
      cases update.message with
      | none => rfl
      | some message =>
        dsimp only
        cases cleanMessage message <;> rfl

/-- Tidying up a message does not change the key. -/
theorem key_verbatimLog {log' : LogRecord opts.hashId.size}
    (h : verbatimLog opts w log = some log') : log'.key = log.key := by
  unfold verbatimLog at h
  split at h
  · obtain rfl := Option.some.inj h
    rfl
  split at h
  · cases h
  split at h
  · obtain ⟨message, -, rfl⟩ := map_eq_some_iff.mp h
    rfl
  · obtain rfl := Option.some.inj h
    rfl

/-- `reftable_writer_add_ref` within the limits. -/
theorem outcome_addRef (zlib : Zlib) {record : RefRecord opts.hashId.size}
    (hlimits : ¬ (record.updateIndex < w.minUpdateIndex ∨ w.maxUpdateIndex < record.updateIndex)) :
    Outcome .ref record.refname.val w (reftableWriterAddRef zlib opts record w) := by
  have h := outcome_writerAddRecord zlib (.inl rfl) (record.relative w.minUpdateIndex) w
  have htype : ∀ w', (writerIndexHashes opts record w').currentType = w'.currentType := by
    intro w'
    unfold writerIndexHashes
    split <;> rfl
  rw [reftableWriterAddRef_eq, if_neg hlimits]
  refine ⟨fun hle => ?_, fun hother => ?_, fun hlt hcurrent => ?_⟩
  · obtain ⟨w', herror, hty⟩ := h.remembered hle
    exact ⟨w', by rw [herror], hty⟩
  · obtain ⟨w', herror, hty⟩ := h.other hother
    exact ⟨w', by rw [herror], hty⟩
  · obtain ⟨w', hadd | herror, hty⟩ := h.added hlt hcurrent
    · exact ⟨_, .inl (by rw [hadd]), (htype w').trans hty⟩
    · exact ⟨w', .inr (by rw [herror]), hty⟩

/-- `reftable_writer_add_log_verbatim` when no refs are under way. -/
theorem outcome_addLogVerbatim (zlib : Zlib) (fuel : Nat) (log : LogRecord opts.hashId.size)
    (hcurrent : w.currentType ≠ some .ref) :
    Outcome .log log.key w (reftableWriterAddLogVerbatim zlib opts fuel log w) := by
  have hnone : finishRefSection zlib opts fuel w = .ok () w := by
    change (if w.blockWriter.map BlockWriter.type = some .ref then _ else _ : WriterM Unit) w = _
    rw [if_neg (show w.blockWriter.map BlockWriter.type ≠ some .ref from hcurrent)]
    rfl
  have hfinish : reftableWriterAddLogVerbatim zlib opts fuel log w =
      writerAddRecord zlib opts .log log
        { w with next := w.next - w.pendingPadding, pendingPadding := 0 } := by
    change EStateM.bind _ _ w = _
    unfold EStateM.bind
    rw [hnone]
    rfl
  rw [hfinish]
  have h := outcome_writerAddRecord zlib (.inr rfl) log
    { w with next := w.next - w.pendingPadding, pendingPadding := 0 }
  exact { h with }

/-- A log that is added leaves a block of logs under way. -/
theorem currentType_addLogVerbatim
    (h : reftableWriterAddLogVerbatim zlib opts fuel log w = .ok () w') :
    w'.currentType = some .log := by
  obtain ⟨u, w₁, -, hrest⟩ := EStateM_bind_eq_ok h
  obtain ⟨u', w₂, -, hadd⟩ := EStateM_bind_eq_ok hrest
  exact (outcome_writerAddRecord zlib (.inr rfl) log w₂).currentType_of_ok hadd

end Calls

/-! ## Sessions -/

/-- A writer with the keys of the records that were added with success to each section. -/
structure Session where
  /-- The writer. -/
  writer : Writer
  /-- The keys, in the order of the calls. -/
  keys : BlockType → List Bytes

/-- The key of the record most recently added to a section, empty if there is none. -/
def Session.last (s : Session) (type : BlockType) : Bytes := lastKey id (s.keys type)

section Sessions

variable (zlib opts fuel)

/-- A call, and what it adds. -/
def Session.add (s : Session) (call : AddCall opts.hashId.size) : Session :=
  match call.run zlib opts fuel s.writer with
  | .ok _ w => ⟨w, Function.update s.keys call.type (s.keys call.type ++ [call.key])⟩
  | .error _ w => ⟨w, s.keys⟩

/-- One call after the other. -/
def Session.addAll (s : Session) (calls : List (AddCall opts.hashId.size)) : Session :=
  calls.foldl (Session.add zlib opts fuel) s

/-- The call keeps the order: it only adds a record with a key that is greater than the last one of
its section, and rejects any other key with `REFTABLE_API_ERROR`. -/
def Session.Conforms (s : Session) (call : AddCall opts.hashId.size) : Prop :=
  (∀ w, call.run zlib opts fuel s.writer = .ok () w → s.last call.type < call.key) ∧
    (call.key ≤ s.last call.type → ∃ w, call.run zlib opts fuel s.writer = .error .api w)

/-- What it takes for a call to keep the order. -/
def Session.Guarded (s : Session) (call : AddCall opts.hashId.size) : Prop :=
  s.last call.type < call.key ∨ call.key ≤ s.writer.lastKey ∨ call.Rejected opts s.writer

/-- Once there are logs, a block of logs is under way. -/
def Session.LogsOpen (s : Session) : Prop := s.keys .log ≠ [] → s.writer.currentType = some .log

variable {zlib opts fuel} {s : Session}

/-- A section without records has no last key. -/
theorem Session.keys_ne_nil {type : BlockType} {key : Bytes} (hkey : key ≠ [])
    (h : key ≤ s.last type) : s.keys type ≠ [] := by
  intro hnil
  rw [Session.last, hnil] at h
  exact hkey (le_antisymm h (not_lt.mp (List.not_lt_nil _)))

theorem LogRecord.key_ne_nil {hashSize : Nat} (log : LogRecord hashSize) : log.key ≠ [] := by
  unfold LogRecord.key
  simp

/-- A log that is passed on, once there are logs. -/
theorem Session.LogsOpen.outcome (h : s.LogsOpen) {record log : LogRecord opts.hashId.size}
    (hlogs : s.keys .log ≠ []) (hverbatim : verbatimLog opts s.writer record = some log) :
    Outcome .log record.key s.writer
      (AddCall.run zlib opts fuel (.log record) s.writer) := by
  have hcurrent : s.writer.currentType ≠ some .ref := by
    rw [h hlogs]
    decide
  change Outcome .log record.key s.writer (reftableWriterAddLog zlib opts fuel record s.writer)
  rw [reftableWriterAddLog_eq, hverbatim, ← key_verbatimLog hverbatim]
  exact outcome_addLogVerbatim zlib fuel log hcurrent

variable {call : AddCall opts.hashId.size}

/-- The last key does not matter for a call that is rejected. -/
theorem AddCall.Rejected.error (h : call.Rejected opts w) :
    ∃ w', call.run zlib opts fuel w = .error .api w' := by
  cases call with
  | ref record =>
    by_cases hlimits : record.updateIndex < w.minUpdateIndex ∨ w.maxUpdateIndex < record.updateIndex
    · refine ⟨w, ?_⟩
      change reftableWriterAddRef zlib opts record w = _
      rw [reftableWriterAddRef_eq, if_pos hlimits]
    have hout := outcome_addRef zlib hlimits
    rcases h with hnil | hmin | hmax | hother
    · obtain ⟨w', herror, -⟩ := hout.remembered (hnil ▸ not_lt.mp (List.not_lt_nil _))
      exact ⟨w', herror⟩
    · exact absurd (.inl hmin) hlimits
    · exact absurd (.inr hmax) hlimits
    · obtain ⟨w', herror, -⟩ := hout.other hother
      exact ⟨w', herror⟩
  | log record =>
    change ∃ w', reftableWriterAddLog zlib opts fuel record w = _
    rw [reftableWriterAddLog_eq]
    cases hverbatim : verbatimLog opts w record with
    | none => exact ⟨w, rfl⟩
    | some log =>
      rcases h with hnone | ⟨ty, href, hlog, hcurrent⟩
      · rw [hverbatim] at hnone
        cases hnone
      have hne : w.currentType ≠ some .ref := by
        rw [hcurrent]
        exact fun h => href (Option.some.inj h)
      obtain ⟨w', herror, -⟩ :=
        (outcome_addLogVerbatim zlib fuel log hne).other ⟨ty, hlog, hcurrent⟩
      exact ⟨w', herror⟩

/-- A call that is not rejected and does not continue its section in order. -/
theorem Session.LogsOpen.outcome_of_le (zlib : Zlib) (fuel : Nat) (h : s.LogsOpen)
    (hallowed : ¬ call.Rejected opts s.writer) (hle : call.key ≤ s.last call.type) :
    Outcome call.type call.key s.writer (call.run zlib opts fuel s.writer) ∧
      (s.writer.currentType = none ∨ s.writer.currentType = some call.type) := by
  cases call with
  | ref record =>
    have hlimits :
        ¬ (record.updateIndex < s.writer.minUpdateIndex ∨
          s.writer.maxUpdateIndex < record.updateIndex) :=
      fun hc => hallowed (hc.elim (fun hmin => .inr (.inl hmin)) (fun hmax => .inr (.inr (.inl hmax))))
    refine ⟨outcome_addRef zlib hlimits, ?_⟩
    cases hcurrent : s.writer.currentType with
    | none => exact .inl rfl
    | some ty =>
      refine .inr (congrArg some ?_)
      by_contra hne
      exact hallowed (.inr (.inr (.inr ⟨ty, hne, hcurrent⟩)))
  | log record =>
    have hlogs : s.keys .log ≠ [] := Session.keys_ne_nil record.key_ne_nil hle
    refine ⟨?_, .inr (h hlogs)⟩
    cases hverbatim : verbatimLog opts s.writer record with
    | none => exact absurd (.inl hverbatim) hallowed
    | some log => exact h.outcome hlogs hverbatim

/-- **A call keeps the order exactly if it is guarded.** -/
theorem Session.LogsOpen.conforms_iff (h : s.LogsOpen) (call : AddCall opts.hashId.size) :
    s.Conforms zlib opts fuel call ↔ s.Guarded opts call := by
  constructor
  · intro hconforms
    by_contra hguarded
    unfold Session.Guarded at hguarded
    rw [not_or, not_or, not_lt, not_le] at hguarded
    obtain ⟨hle, hlt, hallowed⟩ := hguarded
    obtain ⟨hout, hcurrent⟩ := h.outcome_of_le zlib fuel hallowed hle
    obtain ⟨w, hok | htooBig, -⟩ := hout.added hlt hcurrent
    · exact absurd (hconforms.1 w hok) (not_lt.mpr hle)
    obtain ⟨w', hapi⟩ := hconforms.2 hle
    rw [htooBig] at hapi
    cases hapi
  · intro hguarded
    by_cases hlt : s.last call.type < call.key
    · exact ⟨fun _ _ => hlt, fun hle => absurd hlt (not_lt.mpr hle)⟩
    -- the call fails
    have hapi : ∃ w, call.run zlib opts fuel s.writer = .error .api w := by
      by_cases hrejected : call.Rejected opts s.writer
      · exact hrejected.error
      obtain ⟨hout, -⟩ := h.outcome_of_le zlib fuel hrejected (not_lt.mp hlt)
      obtain ⟨w, herror, -⟩ := hout.remembered ((hguarded.resolve_left hlt).resolve_right hrejected)
      exact ⟨w, herror⟩
    refine ⟨fun w hok => ?_, fun _ => hapi⟩
    grind

/-- The step: a block of logs stays under way. -/
theorem Session.LogsOpen.add (h : s.LogsOpen) (call : AddCall opts.hashId.size) :
    (s.add zlib opts fuel call).LogsOpen := by
  unfold Session.add
  cases hrun : call.run zlib opts fuel s.writer with
  | ok u w =>
    cases call with
    | ref record =>
      intro hlogs
      -- a ref cannot be added once there are logs
      have hlogs' : s.keys .log ≠ [] := by
        rwa [← Function.update_of_ne (show BlockType.log ≠ .ref by decide)
          (s.keys .ref ++ [record.refname.val]) s.keys]
      obtain ⟨w', herror⟩ : ∃ w', AddCall.run zlib opts fuel (.ref record) s.writer = .error .api w' :=
        AddCall.Rejected.error (.inr (.inr (.inr ⟨.log, by decide, h hlogs'⟩)))
      rw [hrun] at herror
      cases herror
    | log record =>
      intro _
      change reftableWriterAddLog zlib opts fuel record s.writer = _ at hrun
      rw [reftableWriterAddLog_eq] at hrun
      cases hverbatim : verbatimLog opts s.writer record with
      | none => rw [hverbatim] at hrun; cases hrun
      | some log =>
        rw [hverbatim] at hrun
        exact currentType_addLogVerbatim hrun
  | error e w =>
    intro hlogs
    have hcurrent := h hlogs
    cases call with
    | ref record =>
      by_cases hlimits : record.updateIndex < s.writer.minUpdateIndex ∨
          s.writer.maxUpdateIndex < record.updateIndex
      · change reftableWriterAddRef zlib opts record s.writer = _ at hrun
        rw [reftableWriterAddRef_eq, if_pos hlimits] at hrun
        grind
      · exact (outcome_addRef zlib hlimits).currentType_of_error hrun hcurrent
    | log record =>
      cases hverbatim : verbatimLog opts s.writer record with
      | none =>
        change reftableWriterAddLog zlib opts fuel record s.writer = _ at hrun
        rw [reftableWriterAddLog_eq, hverbatim] at hrun
        grind
      | some log => exact (h.outcome hlogs hverbatim).currentType_of_error hrun hcurrent

/-- The run: a block of logs is under way whenever there are logs. -/
theorem Session.LogsOpen.addAll (h : s.LogsOpen) (calls : List (AddCall opts.hashId.size)) :
    (s.addAll zlib opts fuel calls).LogsOpen := by
  induction calls generalizing s with
  | nil => exact h
  | cons call calls ih => exact ih (h.add call)

/-- The step: a call that keeps the order keeps the sections sorted. -/
theorem Session.add_sorted (hsorted : ∀ type, Run id (s.keys type))
    (hconforms : s.Conforms zlib opts fuel call) (type : BlockType) :
    Run id ((s.add zlib opts fuel call).keys type) := by
  unfold Session.add
  cases hrun : call.run zlib opts fuel s.writer with
  | error e w => exact hsorted type
  | ok u w =>
    by_cases htype : type = call.type
    · subst htype
      have hlt := hconforms.1 w hrun
      change Run id (Function.update s.keys call.type (s.keys call.type ++ [call.key]) call.type)
      rw [Function.update_self]
      refine (hsorted call.type).concat fun key hkey => ?_
      rwa [Session.last, lastKey, mem_def.mp hkey] at hlt
    grind

/-- A session at its start. -/
def Session.start (w : Writer) : Session := ⟨w, fun _ => []⟩

/-- **The sections of a writer are sorted if every call is guarded**, and a call of a session keeps
the order exactly if it is guarded. -/
theorem writer_sorted (zlib : Zlib) (opts : WriterOptions) (fuel : Nat) (w : Writer)
    (calls : List (AddCall opts.hashId.size)) :
    (∀ before call after, calls = before ++ call :: after →
      (((Session.start w).addAll zlib opts fuel before).Conforms zlib opts fuel call ↔
        ((Session.start w).addAll zlib opts fuel before).Guarded opts call)) ∧
    ((∀ before call after, calls = before ++ call :: after →
      ((Session.start w).addAll zlib opts fuel before).Guarded opts call) →
      ∀ type, (((Session.start w).addAll zlib opts fuel calls).keys type).Pairwise (· < ·)) := by
  have hopen : ∀ before, ((Session.start w).addAll zlib opts fuel before).LogsOpen :=
    Session.LogsOpen.addAll (fun hlogs => absurd rfl hlogs)
  refine ⟨fun before call after _ => (hopen before).conforms_iff call, fun hguarded => ?_⟩
  -- by induction on the calls from the last one on
  induction calls using List.reverseRecOn with
  | nil => exact fun type => List.Pairwise.nil
  | append_singleton calls call ih =>
    have hsorted := ih fun before call' after hsplit => hguarded before call' (after ++ [call]) (by
      rw [hsplit, List.append_assoc]
      rfl)
    have hlast := hguarded calls call [] rfl
    unfold Session.addAll at hsorted hlast ⊢
    rw [List.foldl_append]
    exact Session.add_sorted hsorted (((hopen calls).conforms_iff call).mpr hlast)

end Sessions

/-- A ref of the given name in a table with room for one ref in a block. -/
def smallCall (name : UInt8) (hname : 0 ∉ [name]) : AddCall (smallBlocks .sha1).hashId.size :=
  .ref (smallRef .sha1 name 1 hname)

theorem zero_not_mem_b : (0 : UInt8) ∉ [0x62] := by decide

theorem zero_not_mem_c : (0 : UInt8) ∉ [0x63] := by decide

/-- The session in which the refs `b` and `c` are added. -/
def smallSession : Session :=
  (Session.start { reftableWriterNew (smallBlocks .sha1) with
    minUpdateIndex := 1, maxUpdateIndex := 1 }).addAll noZlib (smallBlocks .sha1) 0
    [smallCall 0x62 zero_not_mem_b, smallCall 0x63 zero_not_mem_c]

/-- **The order is not kept**: `c` opens a block, and `a` is accepted after it. -/
theorem smallSession_not_conforms :
    smallSession.keys .ref = [[0x62], [0x63]] ∧
      (smallSession.add noZlib (smallBlocks .sha1) 0 (smallCall 0x61 (by decide))).keys .ref =
        [[0x62], [0x63], [0x61]] ∧
      ¬ smallSession.Conforms noZlib (smallBlocks .sha1) 0 (smallCall 0x61 (by decide)) := by
  refine ⟨by decide +kernel, by decide +kernel, ?_⟩
  rintro ⟨hlt, -⟩
  obtain ⟨w, hok, -⟩ := exists_eq_ok
    ((smallCall 0x61 (by decide)).run noZlib (smallBlocks .sha1) 0 smallSession.writer)
    (fun _ => true) (by decide +kernel)
  exact absurd (hlt w hok) (by decide +kernel)

end GitCore.Reftable
