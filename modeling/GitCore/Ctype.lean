import GitCore.Lib.Bytes

/-! # Character classes

The character classes of the source do not depend on a locale: they are read from `sane_ctype`, a
table of bit masks for all bytes. -/

namespace GitCore.Ctype

/-- `GIT_SPACE` -/
def gitSpace : UInt8 := 0x01

/-- `GIT_DIGIT` -/
def gitDigit : UInt8 := 0x02

/-- `GIT_ALPHA` -/
def gitAlpha : UInt8 := 0x04

/-- `GIT_GLOB_SPECIAL` -/
def gitGlobSpecial : UInt8 := 0x08

/-- `GIT_REGEX_SPECIAL` -/
def gitRegexSpecial : UInt8 := 0x10

/-- `GIT_PATHSPEC_MAGIC` -/
def gitPathspecMagic : UInt8 := 0x20

/-- `GIT_CNTRL` -/
def gitCntrl : UInt8 := 0x40

/-- `GIT_PUNCT` -/
def gitPunct : UInt8 := 0x80

/-- `sane_ctype`; there is nothing in it from 128 on. -/
def saneCtype : List UInt8 :=
  let S := gitSpace
  let A := gitAlpha
  let D := gitDigit
  let G := gitGlobSpecial
  let R := gitRegexSpecial
  let P := gitPathspecMagic
  let X := gitCntrl
  let U := gitPunct
  let Z := gitCntrl ||| gitSpace
  [X, X, X, X, X, X, X, X, X, Z, Z, X, X, Z, X, X,
   X, X, X, X, X, X, X, X, X, X, X, X, X, X, X, X,
   S, P, P, P, R, P, P, P, R, R, G, R, P, P, R, P,
   D, D, D, D, D, D, D, D, D, D, P, P, P, P, P, G,
   P, A, A, A, A, A, A, A, A, A, A, A, A, A, A, A,
   A, A, A, A, A, A, A, A, A, A, A, G, G, U, R, P,
   P, A, A, A, A, A, A, A, A, A, A, A, A, A, A, A,
   A, A, A, A, A, A, A, A, A, A, A, R, R, U, P, X]

/-- `sane_istest` -/
def saneIstest (x mask : UInt8) : Bool := saneCtype.getD x.toNat 0 &&& mask ≠ 0

/-- `isspace` -/
def isspace (x : UInt8) : Bool := saneIstest x gitSpace

/-- `isdigit` -/
def isdigit (x : UInt8) : Bool := saneIstest x gitDigit

/-- `isalpha` -/
def isalpha (x : UInt8) : Bool := saneIstest x gitAlpha

/-- `isalnum` -/
def isalnum (x : UInt8) : Bool := saneIstest x (gitAlpha ||| gitDigit)

/-- `isprint` -/
def isprint (x : UInt8) : Bool := 0x20 ≤ x ∧ x ≤ 0x7e

/-- `islower`, which is `sane_iscase` -/
def islower (x : UInt8) : Bool := saneIstest x gitAlpha && x &&& 0x20 ≠ 0

/-- `isupper`, which is `sane_iscase` -/
def isupper (x : UInt8) : Bool := saneIstest x gitAlpha && x &&& 0x20 = 0

/-- `is_glob_special` -/
def isGlobSpecial (x : UInt8) : Bool := saneIstest x gitGlobSpecial

/-- `iscntrl` -/
def iscntrl (x : UInt8) : Bool := saneIstest x gitCntrl

/-- `ispunct` -/
def ispunct (x : UInt8) : Bool :=
  saneIstest x (gitPunct ||| gitRegexSpecial ||| gitGlobSpecial ||| gitPathspecMagic)

/-- `isxdigit`, the bytes that have a value in `hexval_table` -/
def isxdigit (x : UInt8) : Bool :=
  (48 ≤ x ∧ x ≤ 57) ∨ (97 ≤ x ∧ x ≤ 102) ∨ (65 ≤ x ∧ x ≤ 70)

/-- `isblank` -/
def isblank (x : UInt8) : Bool := x = 32 ∨ x = 9

/-- `isgraph` -/
def isgraph (x : UInt8) : Bool := isprint x && !isspace x

/-- `sane_case` -/
def saneCase (x high : UInt8) : UInt8 :=
  if saneIstest x gitAlpha then x &&& ~~~0x20 ||| high else x

/-- `tolower` -/
def tolower (x : UInt8) : UInt8 := saneCase x 0x20

/-- `toupper` -/
def toupper (x : UInt8) : UInt8 := saneCase x 0

end GitCore.Ctype
