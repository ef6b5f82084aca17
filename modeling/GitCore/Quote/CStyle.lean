import GitCore.Lib.Bytes

/-! # C-style quoting

`quote_c_style` writes a path with escapes between double quotes if it contains bytes that must be
quoted, and as it is otherwise; `unquote_c_style` reads such a string back. A C string is the list of
its bytes before the NUL. -/

namespace GitCore.Quote

open List

/-! ## The source -/

section Source

/-- `cq_lookup`: 1 stands for an octal escape, 0 for one if `quote_path_fully`, -1 for none, and any
other value for the letter of the escape. -/
def cqLookupTable : List Int :=
  [1, 1, 1, 1, 1, 1, 1, 97] ++
  [98, 116, 110, 118, 102, 114, 1, 1] ++
  List.replicate 16 1 ++
  [-1, -1, 34, -1, -1, -1, -1, -1] ++
  List.replicate 48 (-1) ++
  [-1, -1, -1, -1, 92, -1, -1, -1] ++
  List.replicate 24 (-1) ++
  [-1, -1, -1, -1, -1, -1, -1, 1] ++
  List.replicate 128 0

/-- An entry of `cq_lookup` -/
def cqLookup (c : UInt8) : Int := cqLookupTable.getD c.toNat 0

variable (quotePathFully : Bool)

/-- `cq_must_quote` -/
def cqMustQuote (c : UInt8) : Bool := 0 < cqLookup c + (if quotePathFully then 1 else 0)

/-- `next_quote_pos`; `none` stands for a negative length, with which the NUL is the end. -/
def nextQuotePos (s : List UInt8) : Option Nat → Nat
  | none => (s.takeWhile fun c => !cqMustQuote quotePathFully c).length
  | some maxlen => ((s.take maxlen).takeWhile fun c => !cqMustQuote quotePathFully c).length

/-- What `quote_c_style_counted` emits behind a backslash. -/
def escapeOf (ch : UInt8) : List UInt8 :=
  if 32 ≤ cqLookup ch then [UInt8.ofNat (cqLookup ch).toNat]
  else [(ch >>> 6 &&& 3) + 48, (ch >>> 3 &&& 7) + 48, (ch >>> 0 &&& 7) + 48]

/-- The loop of `quote_c_style_counted`, with the bytes emitted so far and whether `p` is still at
the start of the name. Every round takes a byte at least. -/
def quoteLoop (noDq : Bool) :
    Nat → List UInt8 → Option Nat → Bool → List UInt8 → List UInt8 × Bool
  | 0, _, _, atStart, out => (out, atStart)
  | fuel + 1, p, maxlen, atStart, out =>
    let len := nextQuotePos quotePathFully p maxlen
    if maxlen = some len ∨ (maxlen = none ∧ p.getD len 0 = 0) then (out ++ p.take len, atStart)
    else
      let out := if !noDq && atStart then out ++ [34] else out
      let ch := p.getD len 0
      quoteLoop noDq fuel (p.drop (len + 1)) (maxlen.map (· - (len + 1))) false
        (out ++ p.take len ++ [92] ++ escapeOf ch)

/-- `quote_c_style_counted`: what is emitted, and the return value. -/
def quoteCStyleCounted (name : List UInt8) (maxlen : Option Nat) (noDq : Bool) : List UInt8 × Nat :=
  match quoteLoop quotePathFully noDq (name.length + 1) name maxlen true [] with
  | (out, true) => (out, 0)
  | (out, false) =>
    let out := if noDq then out else out ++ [34]
    (out, out.length)

/-- `quote_c_style`, where `noDq` is the flag `CQUOTE_NODQ` -/
def quoteCStyle (name : List UInt8) (noDq : Bool) : List UInt8 × Nat :=
  quoteCStyleCounted quotePathFully name none noDq

/-- `quote_two_c_style`: what is added to the buffer. -/
def quoteTwoCStyle (pre path : List UInt8) (noDq : Bool) : List UInt8 :=
  let quote := quoteCStyle quotePathFully
  if (quote pre false).2 ≠ 0 ∨ (quote path false).2 ≠ 0 then
    let body := (quote pre true).1 ++ (quote path true).1
    if noDq then body else [34] ++ body ++ [34]
  else pre ++ path

/-- The escapes of `unquote_c_style`: the byte, and what follows the escape. -/
def unquoteEscape : List UInt8 → Option (UInt8 × List UInt8)
  | [] => none
  | ch :: quoted =>
    if ch = 97 then some (7, quoted)
    else if ch = 98 then some (8, quoted)
    else if ch = 102 then some (12, quoted)
    else if ch = 110 then some (10, quoted)
    else if ch = 114 then some (13, quoted)
    else if ch = 116 then some (9, quoted)
    else if ch = 118 then some (11, quoted)
    else if ch = 92 ∨ ch = 34 then some (ch, quoted)
    -- octal values with a first digit over 3 overflow
    else if 48 ≤ ch ∧ ch ≤ 51 then
      match quoted with
      | ch' :: ch'' :: quoted =>
        if ch' < 48 ∨ 55 < ch' then none
        else if ch'' < 48 ∨ 55 < ch'' then none
        else some ((ch - 48) <<< 6 ||| (ch' - 48) <<< 3 ||| (ch'' - 48), quoted)
      | _ => none
    else none

/-- The bytes up to the first double quote or backslash. -/
def plainRun (quoted : List UInt8) : List UInt8 := quoted.takeWhile fun c => c ≠ 34 && c ≠ 92

/-- The loop of `unquote_c_style`: the buffer and what follows the closing quote, or the buffer at
the error. Every round takes a byte at least. -/
def unquoteLoop : Nat → List UInt8 → List UInt8 → Except (List UInt8) (List UInt8 × List UInt8)
  | 0, sb, _ => .error sb
  | fuel + 1, sb, quoted =>
    let len := (plainRun quoted).length
    let sb := sb ++ quoted.take len
    match quoted.drop len with
    | [] => .error sb
    | c :: quoted =>
      if c = 34 then .ok (sb, quoted)
      else
        match unquoteEscape quoted with
        | none => .error sb
        | some (ch, quoted) => unquoteLoop fuel (sb ++ [ch]) quoted

/-- `unquote_c_style`: where the string ends if it was read, and the buffer. -/
def unquoteCStyle (sb quoted : List UInt8) : Option (List UInt8) × List UInt8 :=
  match quoted with
  | 34 :: quoted =>
    match unquoteLoop (quoted.length + 1) sb quoted with
    | .ok (sb, endp) => (some endp, sb)
    | .error sb' => (none, sb'.take sb.length)
  | _ => (none, sb)

end Source

/-! ## The tables -/

section Tables

variable {quotePathFully : Bool} {b : UInt8}

/-- The bytes that are not quoted. -/
theorem cqMustQuote_eq_false_iff : cqMustQuote quotePathFully b = false ↔
    32 ≤ b ∧ b ≠ 34 ∧ b ≠ 92 ∧ b ≠ 127 ∧ (quotePathFully = true → b < 128) := by
  refine forall_byte ?_ b
  cases quotePathFully <;> decide +kernel

/-- The reader stops at every byte that it has to look at. -/
theorem plain_of_not_mustQuote (h : cqMustQuote quotePathFully b = false) : b ≠ 34 ∧ b ≠ 92 := by
  obtain ⟨-, hquote, hbackslash, -⟩ := cqMustQuote_eq_false_iff.mp h
  exact ⟨hquote, hbackslash⟩

/-- The letter of an escape stands for its byte. -/
theorem unquoteEscape_letter (h : 32 ≤ cqLookup b) (rest : List UInt8) :
    unquoteEscape (UInt8.ofNat (cqLookup b).toNat :: rest) = some (b, rest) := by
  have hcases : b = 7 ∨ b = 8 ∨ b = 9 ∨ b = 10 ∨ b = 11 ∨ b = 12 ∨ b = 13 ∨ b = 34 ∨ b = 92 := by
    revert h
    refine forall_byte ?_ b
    decide +kernel
  rcases hcases with rfl | rfl | rfl | rfl | rfl | rfl | rfl | rfl | rfl <;> rfl

/-- The octal digits of a byte. -/
theorem octal_digits (b : UInt8) : ∀ d d' d'' : UInt8, d = (b >>> 6 &&& 3) + 48 →
    d' = (b >>> 3 &&& 7) + 48 → d'' = (b >>> 0 &&& 7) + 48 →
    (48 ≤ d ∧ d ≤ 51) ∧ ¬ (d' < 48 ∨ 55 < d') ∧ ¬ (d'' < 48 ∨ 55 < d'') ∧
      (d - 48) <<< 6 ||| (d' - 48) <<< 3 ||| (d'' - 48) = b := by
  rintro d d' d'' rfl rfl rfl
  refine forall_byte ?_ b
  decide +kernel

/-- The three octal digits of a byte stand for it. -/
theorem unquoteEscape_octal (b : UInt8) (rest : List UInt8) :
    unquoteEscape ([(b >>> 6 &&& 3) + 48, (b >>> 3 &&& 7) + 48, (b >>> 0 &&& 7) + 48] ++ rest) =
      some (b, rest) := by
  generalize hd : (b >>> 6 &&& 3) + 48 = d
  generalize hd' : (b >>> 3 &&& 7) + 48 = d'
  generalize hd'' : (b >>> 0 &&& 7) + 48 = d''
  obtain ⟨hfirst, hsecond, hthird, hvalue⟩ := octal_digits b d d' d'' hd.symm hd'.symm hd''.symm
  have hne : ∀ c : UInt8, 51 < c → d ≠ c := by grind
  have hne' : ¬ (d = 92 ∨ d = 34) := by grind
  simp only [cons_append, nil_append, unquoteEscape]
  grind

/-- **The two tables agree**: an escape stands for the byte that it was made of. -/
theorem unquoteEscape_escapeOf (b : UInt8) (rest : List UInt8) :
    unquoteEscape (escapeOf b ++ rest) = some (b, rest) := by
  unfold escapeOf
  split
  · rename_i h
    exact unquoteEscape_letter h rest
  · exact unquoteEscape_octal b rest

end Tables

/-! ## The quoter -/

section Quoter

variable (quotePathFully : Bool)

/-- What becomes of a byte between double quotes. -/
def quotedByte (b : UInt8) : List UInt8 :=
  if cqMustQuote quotePathFully b then 92 :: escapeOf b else [b]

variable {quotePathFully} {p run rest : List UInt8} {maxlen : Option Nat} {ch : UInt8}

/-- A string is its bytes before the NUL, or has a given length. -/
def Delimited (p : List UInt8) (maxlen : Option Nat) : Prop :=
  (maxlen = none ∧ 0 ∉ p) ∨ maxlen = some p.length

theorem Delimited.drop (h : Delimited (run ++ ch :: rest) maxlen) :
    Delimited rest (maxlen.map (· - (run.length + 1))) := by
  rcases h with ⟨rfl, hzero⟩ | rfl
  · refine .inl ⟨rfl, fun hmem => hzero ?_⟩
    exact mem_append_right _ (mem_cons_of_mem _ hmem)
  refine .inr (congrArg some ?_)
  dsimp only
  rw [length_append, length_cons]
  omega

/-- Up to the first byte that must be quoted. -/
theorem exists_quote_split (p : List UInt8) :
    (∀ b ∈ p, cqMustQuote quotePathFully b = false) ∨
      ∃ run ch rest, p = run ++ ch :: rest ∧ (∀ b ∈ run, cqMustQuote quotePathFully b = false) ∧
        cqMustQuote quotePathFully ch = true := by
  induction p with
  | nil => exact .inl nofun
  | cons c p ih =>
    cases hc : cqMustQuote quotePathFully c with
    | true => exact .inr ⟨[], c, p, rfl, nofun, hc⟩
    | false =>
      rcases ih with hall | ⟨run, ch, rest, rfl, hrun, hch⟩
      · exact .inl (forall_mem_cons.mpr ⟨hc, hall⟩)
      · exact .inr ⟨c :: run, ch, rest, rfl, forall_mem_cons.mpr ⟨hc, hrun⟩, hch⟩

theorem nextQuotePos_delimited (h : Delimited p maxlen) : nextQuotePos quotePathFully p maxlen =
    (p.takeWhile fun c => !cqMustQuote quotePathFully c).length := by
  rcases h with ⟨rfl, -⟩ | rfl
  · rfl
  · rw [nextQuotePos, take_length]

theorem takeWhile_run (hrun : ∀ b ∈ run, cqMustQuote quotePathFully b = false) :
    (run ++ rest).takeWhile (fun c => !cqMustQuote quotePathFully c) =
      run ++ rest.takeWhile fun c => !cqMustQuote quotePathFully c :=
  takeWhile_append_of_pos fun b hb => by rw [hrun b hb]; rfl

theorem flatMap_quotedByte_run (hrun : ∀ b ∈ run, cqMustQuote quotePathFully b = false) :
    run.flatMap (quotedByte quotePathFully) = run := by
  refine (flatMap_congr fun b hb => ?_).trans (flatMap_singleton' run)
  rw [quotedByte, hrun b hb]
  rfl

/-- The round in which nothing is left to be quoted. -/
theorem quoteLoop_end (h : Delimited p maxlen) (hp : ∀ b ∈ p, cqMustQuote quotePathFully b = false)
    (noDq atStart : Bool) (fuel : Nat) (out : List UInt8) :
    quoteLoop quotePathFully noDq (fuel + 1) p maxlen atStart out = (out ++ p, atStart) := by
  have hlen : nextQuotePos quotePathFully p maxlen = p.length := by
    have hall : (p ++ []).takeWhile (fun c => !cqMustQuote quotePathFully c) = p ++ [] :=
      takeWhile_run hp
    rw [append_nil] at hall
    rw [nextQuotePos_delimited h, hall]
  have hbreak : maxlen = some p.length ∨ (maxlen = none ∧ p.getD p.length 0 = 0) := by
    rcases h with ⟨hnone, -⟩ | hsome
    · exact .inr ⟨hnone, by simp⟩
    · exact .inl hsome
  rw [quoteLoop, hlen]
  rw [if_pos hbreak, take_length]

/-- A round that quotes a byte. -/
theorem quoteLoop_quote (h : Delimited (run ++ ch :: rest) maxlen)
    (hrun : ∀ b ∈ run, cqMustQuote quotePathFully b = false)
    (hch : cqMustQuote quotePathFully ch = true) (noDq atStart : Bool) (fuel : Nat)
    (out : List UInt8) :
    quoteLoop quotePathFully noDq (fuel + 1) (run ++ ch :: rest) maxlen atStart out =
      quoteLoop quotePathFully noDq fuel rest (maxlen.map (· - (run.length + 1))) false
        ((if !noDq && atStart then out ++ [34] else out) ++ run ++ quotedByte quotePathFully ch) := by
  have hlen : nextQuotePos quotePathFully (run ++ ch :: rest) maxlen = run.length := by
    rw [nextQuotePos_delimited h, takeWhile_run hrun, takeWhile_cons, hch]
    simp
  have hget : (run ++ ch :: rest).getD run.length 0 = ch := by simp
  have hbreak : ¬ (maxlen = some run.length ∨ (maxlen = none ∧ ch = 0)) := by
    rcases h with ⟨rfl, hzero⟩ | rfl
    · grind
    · rintro (hsome | ⟨hnone, -⟩)
      · have := Option.some.inj hsome
        rw [length_append, length_cons] at this
        omega
      · cases hnone
  have hdrop : (run ++ ch :: rest).drop (run.length + 1) = rest := by
    simp
  rw [quoteLoop, hlen]
  rw [hget, if_neg hbreak, hdrop, take_left, quotedByte, if_pos hch]
  simp only [append_assoc, singleton_append]

/-- **The loop of `quote_c_style_counted`** opens the quotes if a byte must be quoted. -/
theorem quoteLoop_eq (noDq : Bool) (fuel : Nat) : ∀ {p : List UInt8} {maxlen : Option Nat},
    Delimited p maxlen → p.length < fuel → ∀ (atStart : Bool) (out : List UInt8),
    quoteLoop quotePathFully noDq fuel p maxlen atStart out =
      (out ++ (if !noDq && (atStart && p.any (cqMustQuote quotePathFully)) then [34] else []) ++
        p.flatMap (quotedByte quotePathFully),
        atStart && !p.any (cqMustQuote quotePathFully)) := by
  induction fuel with
  | zero => exact fun _ hlen => absurd hlen (Nat.not_lt_zero _)
  | succ fuel ih =>
    intro p maxlen h hlen atStart out
    rcases exists_quote_split p with hall | ⟨run, ch, rest, rfl, hrun, hch⟩
    · have hany : p.any (cqMustQuote quotePathFully) = false := by
        rw [any_eq_false]
        intro b hb
        rw [hall b hb]
        decide
      rw [quoteLoop_end h hall, hany, flatMap_quotedByte_run hall]
      simp
    · have hany : (run ++ ch :: rest).any (cqMustQuote quotePathFully) = true := by
        rw [any_eq_true]
        exact ⟨ch, mem_append_right _ mem_cons_self, hch⟩
      rw [length_append, length_cons] at hlen
      rw [quoteLoop_quote h hrun hch, ih h.drop (by omega), hany, flatMap_append,
        flatMap_cons, flatMap_quotedByte_run hrun]
      cases noDq <;> cases atStart <;> simp

/-- **`quote_c_style_counted`** writes a name between double quotes if a byte of it must be quoted,
and as it is otherwise. -/
theorem quoteCStyleCounted_eq {name : List UInt8} (h : Delimited name maxlen) (noDq : Bool) :
    quoteCStyleCounted quotePathFully name maxlen noDq =
      if name.any (cqMustQuote quotePathFully) then
        let body := name.flatMap (quotedByte quotePathFully)
        let out := if noDq then body else [34] ++ body ++ [34]
        (out, out.length)
      else (name, 0) := by
  rw [quoteCStyleCounted, quoteLoop_eq noDq _ h (Nat.lt_succ_self _)]
  cases hany : name.any (cqMustQuote quotePathFully) with
  | true => cases noDq <;> simp
  | false =>
    have hall : ∀ b ∈ name, cqMustQuote quotePathFully b = false := by
      intro b hb
      rw [any_eq_false] at hany
      exact Bool.not_eq_true _ ▸ hany b hb
    simp [flatMap_quotedByte_run hall]

/-- **Quoting in two parts** is quoting the whole. -/
theorem quoteTwoCStyle_eq (pre path : { s : List UInt8 // 0 ∉ s }) (noDq : Bool) :
    quoteTwoCStyle quotePathFully pre path noDq =
      (quoteCStyle quotePathFully (pre.1 ++ path.1) noDq).1 := by
  have hboth : 0 ∉ pre.1 ++ path.1 := by simp [pre.2, path.2]
  simp only [quoteTwoCStyle, quoteCStyle, quoteCStyleCounted_eq (.inl ⟨rfl, pre.2⟩),
    quoteCStyleCounted_eq (.inl ⟨rfl, path.2⟩), quoteCStyleCounted_eq (.inl ⟨rfl, hboth⟩)]
  rw [any_append, flatMap_append]
  -- a part in which nothing must be quoted is copied as it is
  cases hpre : pre.1.any (cqMustQuote quotePathFully) <;>
    cases hpath : path.1.any (cqMustQuote quotePathFully) <;>
    simp_all [flatMap_quotedByte_run]

end Quoter

/-! ## The reader -/

section Reader

variable {quotePathFully : Bool} {sb quoted : List UInt8} {fuel : Nat}

/-- A byte that is not special belongs to the run that is copied. -/
theorem unquoteLoop_plain {b : UInt8} (hb : b ≠ 34 ∧ b ≠ 92) (fuel : Nat) (sb quoted : List UInt8) :
    unquoteLoop (fuel + 1) sb (b :: quoted) = unquoteLoop (fuel + 1) (sb ++ [b]) quoted := by
  have hrun : plainRun (b :: quoted) = b :: plainRun quoted :=
    takeWhile_cons_of_pos (by simp [hb.1, hb.2])
  rw [unquoteLoop, unquoteLoop, hrun]
  simp only [length_cons, take_succ_cons, drop_succ_cons, append_assoc, singleton_append]

/-- The escape of a byte. -/
theorem unquoteLoop_escape (b : UInt8) (fuel : Nat) (sb quoted : List UInt8) :
    unquoteLoop (fuel + 1) sb (92 :: (escapeOf b ++ quoted)) =
      unquoteLoop fuel (sb ++ [b]) quoted := by
  have hrun : plainRun (92 :: (escapeOf b ++ quoted)) = [] := takeWhile_cons_of_neg (by decide)
  rw [unquoteLoop, hrun]
  simp only [length_nil, take_zero, append_nil, drop_zero]
  rw [if_neg (by decide), unquoteEscape_escapeOf]

theorem unquoteLoop_close (fuel : Nat) (sb rest : List UInt8) :
    unquoteLoop (fuel + 1) sb (34 :: rest) = .ok (sb, rest) := by
  have hrun : plainRun (34 :: rest) = [] := takeWhile_cons_of_neg (by decide)
  rw [unquoteLoop, hrun]
  simp only [length_nil, take_zero, append_nil, drop_zero, if_true]

/-- Quoting does not make a name shorter, so that there are enough rounds to read it. -/
theorem length_le_flatMap_quotedByte (quotePathFully : Bool) (name : List UInt8) :
    name.length ≤ (name.flatMap (quotedByte quotePathFully)).length := by
  induction name with
  | nil => exact le_rfl
  | cons b name ih =>
    have hpos : 0 < (quotedByte quotePathFully b).length := by
      unfold quotedByte
      split <;> exact Nat.succ_pos _
    rw [flatMap_cons, length_append, length_cons]
    omega

/-- **The loop of `unquote_c_style`** restores what was quoted. -/
theorem unquoteLoop_flatMap (name suffix : List UInt8) (hfuel : name.length < fuel)
    (sb : List UInt8) :
    unquoteLoop fuel sb (name.flatMap (quotedByte quotePathFully) ++ 34 :: suffix) =
      .ok (sb ++ name, suffix) := by
  obtain ⟨fuel, rfl⟩ := Nat.exists_eq_succ_of_ne_zero (Nat.ne_of_gt (Nat.zero_lt_of_lt hfuel))
  induction name generalizing fuel sb with
  | nil =>
    rw [flatMap_nil, nil_append, unquoteLoop_close, append_nil]
  | cons b name ih =>
    rw [length_cons] at hfuel
    rw [flatMap_cons, append_assoc, quotedByte]
    split
    · -- an escape takes a round
      obtain ⟨fuel, rfl⟩ := Nat.exists_eq_succ_of_ne_zero (show fuel ≠ 0 by omega)
      rw [cons_append, unquoteLoop_escape, ih (sb ++ [b]) fuel (by omega), append_assoc]
      rfl
    · rename_i hb
      rw [Bool.not_eq_true] at hb
      rw [singleton_append, unquoteLoop_plain (plain_of_not_mustQuote hb),
        ih (sb ++ [b]) fuel (by omega), append_assoc]
      rfl

/-- The buffer only grows until an error. -/
theorem prefix_of_unquoteLoop_error {sb' : List UInt8}
    (h : unquoteLoop fuel sb quoted = .error sb') : sb <+: sb' := by
  induction fuel generalizing sb quoted with
  | zero =>
    obtain rfl := Except.error.inj h
    exact prefix_rfl
  | succ fuel ih =>
    rw [unquoteLoop] at h
    split at h
    · grind
    split at h
    · cases h
    split at h
    · grind
    · have hgrow := ih h
      rw [append_assoc] at hgrow
      exact (prefix_append _ _).trans hgrow

/-- **A string that cannot be read leaves the buffer as it was.** -/
theorem unquoteCStyle_error (h : (unquoteCStyle sb quoted).1 = none) :
    (unquoteCStyle sb quoted).2 = sb := by
  unfold unquoteCStyle at h ⊢
  split
  · rename_i quoted'
    cases hloop : unquoteLoop (quoted'.length + 1) sb quoted' with
    | ok res =>
      simp only [hloop] at h
      cases h
    | error sb' => exact (prefix_iff_eq_take.mp (prefix_of_unquoteLoop_error hloop)).symm
  · rfl

end Reader

/-! ## Quoting and unquoting -/

/-- What stands between double quotes: bytes that need not be quoted, and escapes. -/
inductive QuotedBody (quotePathFully : Bool) : List UInt8 → Prop
  /-- The end. -/
  | nil : QuotedBody quotePathFully []
  /-- A byte that need not be quoted. -/
  | plain {b : UInt8} {body : List UInt8} (hb : cqMustQuote quotePathFully b = false)
    (hbody : QuotedBody quotePathFully body) : QuotedBody quotePathFully (b :: body)
  /-- A backslash and a letter. -/
  | letter {b : UInt8} {body : List UInt8} (hb : b ∈ [97, 98, 102, 110, 114, 116, 118, 92, 34])
    (hbody : QuotedBody quotePathFully body) : QuotedBody quotePathFully (92 :: b :: body)
  /-- A backslash and three octal digits. -/
  | octal {d d' d'' : UInt8} {body : List UInt8} (hd : 48 ≤ d ∧ d ≤ 51) (hd' : 48 ≤ d' ∧ d' ≤ 55)
    (hd'' : 48 ≤ d'' ∧ d'' ≤ 55) (hbody : QuotedBody quotePathFully body) :
    QuotedBody quotePathFully (92 :: d :: d' :: d'' :: body)

/-- A quoted name is well formed. -/
theorem quotedBody_flatMap (quotePathFully : Bool) (name : List UInt8) :
    QuotedBody quotePathFully (name.flatMap (quotedByte quotePathFully)) := by
  induction name with
  | nil => exact .nil
  | cons b name ih =>
    rw [flatMap_cons, quotedByte]
    split
    · unfold escapeOf
      split
      · rename_i hletter
        refine .letter ?_ ih
        revert hletter
        refine forall_byte ?_ b
        decide +kernel
      · obtain ⟨hd, hd', hd'', -⟩ := octal_digits b _ _ _ rfl rfl rfl
        rw [not_or, UInt8.not_lt, UInt8.not_lt] at hd' hd''
        exact .octal hd hd' hd'' ih
    · rename_i hb
      exact .plain (Bool.not_eq_true _ ▸ hb) ih

/-- **Quoting and unquoting a name.** If quoting is needed, what is written is a well-formed string
between double quotes, from which the name is read back whatever follows. Otherwise it is the name
itself, which has no bytes that must be quoted. A string that cannot be read leaves the buffer as it
was. -/
theorem quoteCStyle_roundtrip (quotePathFully : Bool) (name : List UInt8) (hname : 0 ∉ name) :
    ((quoteCStyle quotePathFully name false).2 ≠ 0 →
      (∃ body, (quoteCStyle quotePathFully name false).1 = [34] ++ body ++ [34] ∧
        QuotedBody quotePathFully body) ∧
      ∀ sb suffix, unquoteCStyle sb ((quoteCStyle quotePathFully name false).1 ++ suffix) =
        (some suffix, sb ++ name)) ∧
    ((quoteCStyle quotePathFully name false).2 = 0 →
      (quoteCStyle quotePathFully name false).1 = name ∧
      ∀ b ∈ name, 32 ≤ b ∧ b ≠ 34 ∧ b ≠ 92 ∧ b ≠ 127 ∧ (quotePathFully = true → b < 128)) ∧
    ∀ sb quoted, (unquoteCStyle sb quoted).1 = none → (unquoteCStyle sb quoted).2 = sb := by
  have hquote : quoteCStyle quotePathFully name false = _ :=
    quoteCStyleCounted_eq (.inl ⟨rfl, hname⟩) false
  rw [hquote]
  refine ⟨?_, ?_, fun sb quoted => unquoteCStyle_error⟩
  · intro hneeded
    split at hneeded
    · rename_i hany
      rw [if_pos hany]
      refine ⟨⟨_, rfl, quotedBody_flatMap quotePathFully name⟩, fun sb suffix => ?_⟩
      have hfuel : name.length < (name.flatMap (quotedByte quotePathFully) ++ 34 :: suffix).length + 1 := by
        have := length_le_flatMap_quotedByte quotePathFully name
        rw [length_append]
        omega
      simp only [Bool.false_eq_true, if_false, cons_append, nil_append,
        append_assoc, unquoteCStyle, unquoteLoop_flatMap name suffix hfuel sb]
    · exact absurd rfl hneeded
  · intro hzero
    split at hzero
    · rename_i hany
      exact absurd hzero (by simp)
    rename_i hany
    rw [if_neg hany]
    refine ⟨rfl, fun b hb => cqMustQuote_eq_false_iff.mp ?_⟩
    grind

/-- The name `a"é` needs quoting. -/
theorem quoteCStyle_roundtrip_accent :
    (quoteCStyle true [97, 34, 195, 169] false).1 =
        [34, 97, 92, 34, 92, 51, 48, 51, 92, 50, 53, 49, 34] ∧
      unquoteCStyle [1] ((quoteCStyle true [97, 34, 195, 169] false).1 ++ [10]) =
        (some [10], [1, 97, 34, 195, 169]) := by
  have hneeded : (quoteCStyle true [97, 34, 195, 169] false).2 ≠ 0 := by decide
  refine ⟨by decide, ?_⟩
  exact ((quoteCStyle_roundtrip true [97, 34, 195, 169] (by decide)).1 hneeded).2 [1] [10]

end GitCore.Quote
