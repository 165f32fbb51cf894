import LinuxStm32.Base.Loop
import Mathlib.Data.List.DropRight

/-!
# fixdep

Model of `scripts/basic/fixdep.c:140–345`: the dependencies that `parse_dep_file` finds in a file
that the compiler wrote, and the configuration words that `parse_config_file` finds in the files
they name. Files are lists of bytes; a mapped file is followed by zeros up to the end of its page.
`isalnum` is that of the C locale.

Buffers of `PATH_MAX` bytes on the stack overflow when more is copied into them: the functions
have no result then. `grow_config` makes room for what follows and is left out.
-/

namespace LinuxStm32.Scripts

open Base

abbrev Bytes := List UInt8

/-- The bytes of an ASCII text. -/
def asciiBytes (s : String) : Bytes := s.toList.map fun c => UInt8.ofNat c.toNat

/-- `PATH_MAX`. -/
def pathMax : Nat := 4096

def nul : UInt8 := 0
def newline : UInt8 := 10
def carriageReturn : UInt8 := 13
def space : UInt8 := 32
def colon : UInt8 := 58
def backslash : UInt8 := 92
def underscore : UInt8 := 95

/-- `isalnum`. -/
def isalnum (c : UInt8) : Bool :=
  decide (48 ≤ c ∧ c ≤ 57) || decide (65 ≤ c ∧ c ≤ 90) || decide (97 ≤ c ∧ c ≤ 122)

/-- The string that starts where these bytes do. -/
def cString (b : Bytes) : Bytes := b.takeWhile (· ≠ nul)

/-! ### The dependencies -/

/-- `strrcmp`, `scripts/basic/fixdep.c:257`: whether `s` does not end in `sub`. -/
def strrcmp (s sub : Bytes) : Bool :=
  if s.length < sub.length then true else s.drop (s.length - sub.length) ≠ sub

/-- What separates dependencies. -/
def isDelim (c : UInt8) : Bool :=
  c == space || c == backslash || c == newline || c == carriageReturn

/-- The token at `m`: up to the next separator; at the end of the file without the characters
that are not alphanumeric. -/
def depToken (m : Bytes) : Bytes :=
  let token := m.takeWhile fun c => !isDelim c
  if token.length = m.length then token.rdropWhile fun c => !isalnum c else token

/-- The string in `s` after a token was copied and its end was cleaned. -/
def copyToken (token : Bytes) : Bytes :=
  let slen := if pathMax ≤ token.length then pathMax - 1 else token.length
  (cString (token.take slen)).rdropWhile fun c =>
    c == carriageReturn || c == newline || c == space

/-- The test of the three suffixes. -/
def isExcluded (s : Bytes) : Bool :=
  !(strrcmp s (asciiBytes "include/generated/autoconf.h") &&
    strrcmp s (asciiBytes "arch/um/include/uml-config.h") && strrcmp s (asciiBytes ".ver"))

/-- The dependency that a token gives, if any. -/
def depName (token : Bytes) : Option Bytes :=
  let s := copyToken token
  if s = [] then none else if isExcluded s then none else some s

/-- One round of the loop of `parse_dep_file`, over the bytes from `m` on and what it found. -/
def depRound (v : Bytes × List Bytes) : Option (Bytes × List Bytes ⊕ List Bytes) :=
  let m := v.1.dropWhile isDelim
  if m = [] then some (.inr v.2)
  else
    let token := depToken m
    if token = [] then some (.inl (m.tail, v.2))
    else some (.inl (m.drop (token.length + 1), v.2 ++ (depName token).toList))

/-- How `parse_dep_file` can fail. -/
inductive DepError
  | parseError
  | overflow
  | unfinished
  deriving DecidableEq, Repr

/-- `parse_dep_file`, `scripts/basic/fixdep.c:297`: the dependencies that it prints and passes to
`do_config_file`, in order. `strchr` does not look past a zero. -/
def parseDepFile (fuel : Nat) (f : Bytes) : Except DepError (List Bytes) :=
  let target := f.takeWhile fun c => c ≠ nul && c ≠ colon
  match f.drop target.length with
  | [] => .error .parseError
  | c :: rest =>
    if c ≠ colon then .error .parseError
    else if pathMax ≤ target.length then .error .overflow
    else match loop depRound fuel (rest, []) with
      | none => .error .unfinished
      | some deps => .ok deps

/-! ### The configuration words -/

/-- `str_config`, and the names that `use_config` has printed. -/
structure ConfigState where
  strConfig : Bytes
  printed : List Bytes
  deriving DecidableEq, Repr

/-- `clear_config`. -/
def clearConfig : ConfigState := ⟨[newline], []⟩

/-- `is_defined_config`, `scripts/basic/fixdep.c:169`. -/
def isDefinedConfig (strConfig name : Bytes) : Bool :=
  let plast := strConfig.length - name.length
  (List.range' 1 (plast - 1)).any fun pconfig =>
    strConfig[pconfig - 1]? == some newline && strConfig[pconfig + name.length]? == some newline &&
      (strConfig.drop pconfig).take name.length == name

/-- `use_config`, `scripts/basic/fixdep.c:207`. -/
def useConfig (s : ConfigState) (name : Bytes) : Option ConfigState :=
  if isDefinedConfig s.strConfig name then some s
  else if pathMax ≤ name.length then none
  else some ⟨s.strConfig ++ name ++ [newline], s.printed ++ [name]⟩

/-- The line that `use_config` prints for a name: underscores become slashes, and letters small. -/
def configLine (name : Bytes) : Bytes :=
  asciiBytes "    $(wildcard include/config/" ++
    (name.map fun c => if c = underscore then 47 else if 65 ≤ c ∧ c ≤ 90 then c + 32 else c) ++
    asciiBytes ".h) \\\n"

/-- What a run has printed for its configuration words. -/
def ConfigState.output (s : ConfigState) : Bytes := s.printed.flatMap configLine

/-- A character of a word. -/
def isWordChar (c : UInt8) : Bool := isalnum c || c == underscore

/-- The `n` bytes of a mapped file from `i` on. -/
def mapped (b : Bytes) (i n : Nat) : Bytes := (List.range n).map fun j => b.getD (i + j) nul

/-- Where a word may start, by the four bytes at `m`; these are compared as an `int`. -/
def configStart (b : Bytes) (m : Nat) : Option Nat :=
  if mapped b m 4 = asciiBytes "CONF" then some m
  else if mapped b m 4 = asciiBytes "ONFI" then some (m - 1)
  else if mapped b m 4 = asciiBytes "NFIG" then some (m - 2)
  else if mapped b m 4 = asciiBytes "FIG_" then some (m - 3)
  else none

/-- The name that the word at `p` gives to `use_config`; `scripts/basic/fixdep.c:237–252`. -/
def configName (b : Bytes) (p : Nat) : Option Bytes :=
  if b.length < p + 7 then none
  else if mapped b p 7 ≠ asciiBytes "CONFIG_" then none
  else
    let q := p + 7 + ((b.drop (p + 7)).takeWhile isWordChar).length
    if b.length ≤ q then none
    else
      let q := if mapped b (q - 7) 7 = asciiBytes "_MODULE" then q - 7 else q
      if q < p + 7 then none else some (mapped b (p + 7) (q - (p + 7)))

/-- The names that `parse_config_file` passes to `use_config`, in order. The scan starts at the
second word of the file. -/
def configNames (b : Bytes) : List Bytes :=
  (List.range' 1 ((b.length - 1) / 4)).filterMap fun k =>
    (configStart b (4 * k)).bind (configName b)

/-- `parse_config_file`, `scripts/basic/fixdep.c:223`. -/
def parseConfigFile (s : ConfigState) (b : Bytes) : Option ConfigState :=
  (configNames b).foldlM useConfig s

/-- `do_config_file`, `scripts/basic/fixdep.c:268`, with the content of the file if it can be
opened. -/
def doConfigFile (s : ConfigState) (content : Option Bytes) : Option ConfigState :=
  match content with
  | none => some s
  | some [] => some s
  | some (c :: b) => parseConfigFile s (c :: b)

/-- The configuration words of a run: of all files that a dependency file names. -/
def configRun (files : Bytes → Option Bytes) (deps : List Bytes) : Option ConfigState :=
  deps.foldlM (fun s dep => doConfigFile s (files dep)) clearConfig

end LinuxStm32.Scripts
