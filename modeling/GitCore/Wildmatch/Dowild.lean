import GitCore.Ctype

/-! # Shell-style pattern matching

`dowild` matches a pattern against a text. A star is a loop over the positions at which the rest of
the pattern may start. Besides success and failure there are two results that make the loops around
give up early: `WM_ABORT_ALL` says that no later position can succeed, and `WM_ABORT_TO_STARSTAR` that
none can before the next slash. Pattern and text are the bytes before the NUL. -/

namespace GitCore.Wildmatch

open Ctype

/-- The flags. -/
structure Flags where
  /-- `WM_CASEFOLD` -/
  casefold : Bool
  /-- `WM_PATHNAME` -/
  pathname : Bool
deriving DecidableEq

/-- What `dowild` returns. -/
inductive WM where
  /-- `WM_MATCH` -/
  | «match»
  /-- `WM_NOMATCH` -/
  | noMatch
  /-- `WM_ABORT_ALL` -/
  | abortAll
  /-- `WM_ABORT_TO_STARSTAR` -/
  | abortToStarstar
deriving DecidableEq

/-- A single item of a pattern: which characters it matches, its last byte and the pattern behind
it. -/
structure Item where
  /-- The characters. -/
  test : UInt8 → Bool
  /-- The last byte. -/
  last : UInt8
  /-- The pattern behind. -/
  rest : List UInt8

section Items

variable (flags : Flags)

/-- The change of case that characters undergo with `WM_CASEFOLD`. -/
def foldCase (ch : UInt8) : UInt8 := if flags.casefold && isupper ch then tolower ch else ch

/-- The bytes of a text in ASCII. -/
def asciiBytes (text : String) : List UInt8 := text.toList.map fun c => UInt8.ofNat c.toNat

/-- The named classes. -/
def namedClasses : List (String × (UInt8 → Bool)) :=
  [("alnum", isalnum), ("alpha", isalpha), ("blank", isblank), ("cntrl", iscntrl),
   ("digit", isdigit), ("graph", isgraph), ("lower", islower), ("print", isprint),
   ("punct", ispunct), ("space", isspace),
   ("upper", fun t => isupper t || (flags.casefold && islower t)),
   ("xdigit", isxdigit)]

/-- The class of a name, if there is one. -/
def namedClass (name : List UInt8) : Option (UInt8 → Bool) :=
  ((namedClasses flags).find? fun c => asciiBytes c.1 = name).map Prod.snd

/-- A range of a bracket expression. -/
def inRange (prevCh pCh t : UInt8) : Bool :=
  (t ≤ pCh ∧ t ≥ prevCh) ∨ (flags.casefold ∧ islower t ∧ toupper t ≤ pCh ∧ toupper t ≥ prevCh)

/-- A round of the loop over a bracket expression, at the byte `pCh` with `p` behind it: the
characters that match here, the byte that counts as the previous one in the next round, and what
follows; `none` if the expression is malformed. -/
def bracketRound (pCh : UInt8) (p : List UInt8) (prevCh : UInt8) :
    Option ((UInt8 → Bool) × UInt8 × List UInt8) :=
  if pCh = 92 then
    match p with
    | [] => none
    | pCh :: p => some (fun t => t = pCh, pCh, p)
  else if pCh = 45 ∧ prevCh ≠ 0 ∧ p.getD 0 0 ≠ 0 ∧ p.getD 0 0 ≠ 93 then
    if p.getD 0 0 = 92 then
      match p.drop 1 with
      | [] => none
      | pCh :: p => some (inRange flags prevCh pCh, 0, p)
    else some (inRange flags prevCh (p.getD 0 0), 0, p.drop 1)
  else if pCh = 91 ∧ p.getD 0 0 = 58 then
    -- a named class up to the next closing bracket
    let s := p.drop 1
    let name := s.takeWhile (· ≠ 93)
    match s.dropWhile (· ≠ 93) with
    | [] => none
    | _ :: rest =>
      if name = [] ∨ name.getLast? ≠ some 58 then
        -- there is no ":]", so this is a normal set
        some (fun t => t = 91, 91, p)
      else (namedClass flags name.dropLast).map fun test => (test, 0, rest)
  else some (fun t => t = pCh, pCh, p)

/-- The loop over a bracket expression, at the byte `pCh`: the characters that match, and the pattern
behind the closing bracket. Every round takes a byte at least. -/
def bracketLoop : Nat → UInt8 → List UInt8 → UInt8 → (UInt8 → Bool) →
    Option ((UInt8 → Bool) × List UInt8)
  | 0, _, _, _, _ => none
  | fuel + 1, pCh, p, prevCh, isMatched =>
    if pCh = 0 then none
    else
      match bracketRound flags pCh p prevCh with
      | none => none
      | some (test, prevCh, p) =>
        let isMatched := fun t => isMatched t || test t
        match p with
        | [] => none
        | pCh :: p =>
          if pCh = 93 then some (isMatched, p) else bracketLoop fuel pCh p prevCh isMatched

/-- A bracket expression, given the pattern behind the opening bracket. -/
def parseBracket (p : List UInt8) : Option Item :=
  let pCh := p.getD 0 0
  let negated : Bool := pCh = 33 ∨ pCh = 94
  let p := if negated then p.drop 1 else p
  (bracketLoop flags (p.length + 1) (p.getD 0 0) (p.drop 1) 0 fun _ => false).map
    fun (isMatched, rest) =>
      { test := fun t => !(isMatched t == negated || (flags.pathname && t = 47)), last := 93
        rest := rest }

/-- An item that is not a star: `pCh` with `p` behind it. It is compared with a character whose case
has been changed. -/
def parseItem (pCh : UInt8) (p : List UInt8) : Option Item :=
  if pCh = 92 then
    -- literal match with the following character
    match p with
    | [] => some ⟨fun _ => false, 92, []⟩
    | pCh :: p => some ⟨fun t => t = pCh, pCh, p⟩
  else if pCh = 63 then some ⟨fun t => !(flags.pathname && t = 47), 63, p⟩
  else if pCh = 91 then parseBracket flags p
  else some ⟨fun t => t = foldCase flags pCh, pCh, p⟩

end Items

/-! ## Stars -/

section Stars

variable (flags : Flags)

/-- The pattern behind a sequence of stars, of which the first one has been read. -/
def afterStars (p : List UInt8) : List UInt8 := p.dropWhile (· = 42)

/-- Whether two stars or more stand between slashes, `prev` being the byte before the first one. -/
def betweenSlashes (prev : Option UInt8) (p : List UInt8) : Bool :=
  p.head? = some 42 ∧ (prev = none ∨ prev = some 47) ∧
    (afterStars p = [] ∨ (afterStars p).head? = some 47 ∨ (afterStars p).take 2 = [92, 47])

/-- `match_slash` -/
def matchSlash (prev : Option UInt8) (p : List UInt8) : Bool :=
  !flags.pathname || betweenSlashes prev p

/-- Whether the stars and the slash behind them may stand for nothing. -/
def mayBeEmpty (prev : Option UInt8) (p : List UInt8) : Bool :=
  flags.pathname && betweenSlashes prev p && (afterStars p).head? = some 47

/-- The text from the next character on that may be the given literal, or from a slash on that
cannot be passed. -/
def skipToLiteral (slash : Bool) (pCh : UInt8) : List UInt8 → List UInt8
  | [] => []
  | t :: text =>
    if !slash && t = 47 then t :: text
    else if foldCase flags t = pCh then t :: text
    else skipToLiteral slash pCh text

/-- The loop over the positions at which the pattern `p` behind a star may start, with `dowild` on
that pattern as an argument. Every round takes a character at least. -/
def starLoop (slash : Bool) (p : List UInt8) (dowild : List UInt8 → WM) : Nat → List UInt8 → WM
  | 0, _ => .abortAll
  | fuel + 1, text =>
    if text = [] then .abortAll
    else
      let pCh := p.getD 0 0
      let literal := !isGlobSpecial pCh
      let text := if literal then skipToLiteral flags slash (foldCase flags pCh) text else text
      match text with
      | [] => if slash then .abortAll else .abortToStarstar
      | t :: text' =>
        if literal ∧ foldCase flags t ≠ foldCase flags pCh then
          if slash then .abortAll else .abortToStarstar
        else
          let result := dowild text
          if result = .noMatch then
            if !slash && t = 47 then .abortToStarstar else starLoop slash p dowild fuel text'
          else if !slash || result ≠ .abortToStarstar then result
          else starLoop slash p dowild fuel text'

end Stars

/-! ## The matcher -/

section Matcher

variable (flags : Flags)

/-- `dowild`, where `prev` is the byte of the pattern before `p`, if there is one. A call on the rest
of a pattern takes a shorter one. -/
def dowild : Nat → Option UInt8 → List UInt8 → List UInt8 → WM
  | 0, _, _, _ => .noMatch
  | _ + 1, _, [], text => if text = [] then .match else .noMatch
  | fuel + 1, prev, pCh :: p, text =>
    if pCh = 42 then
      let slash := matchSlash flags prev p
      let rest := afterStars p
      if mayBeEmpty flags prev p ∧ dowild fuel none (rest.drop 1) text = .match then .match
      else if rest = [] then
        -- trailing stars
        if !slash && text.contains 47 then .abortToStarstar else .match
      else if !slash && rest.head? = some 47 then
        -- one star followed by a slash matches the next directory
        match text.dropWhile (· ≠ 47) with
        | [] => .abortAll
        | _ :: text => dowild fuel (some 47) (rest.drop 1) text
      else starLoop flags slash rest (dowild fuel none rest) (text.length + 1) text
    else
      match text with
      | [] => .abortAll
      | t :: text =>
        match parseItem flags pCh p with
        | none => .abortAll
        | some item =>
          if item.test (foldCase flags t) then dowild fuel (some item.last) item.rest text
          else .noMatch

/-- `wildmatch` -/
def wildmatch (pattern text : List UInt8) : Bool :=
  dowild flags (pattern.length + 1) none pattern text = .match

end Matcher

end GitCore.Wildmatch
