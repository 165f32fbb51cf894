import LinuxStm32.Tools.TftpServer

/-!
# Requests to the TFTP server

One iteration of `run_server`, `tools/tftp_server.py:96–124`: a datagram is ignored, starts a
worker, or raises an exception that leaves the loop. The worker is `handle_client` with a client
that acknowledges everything at once; `sendto` raises for more than a UDP datagram can carry. The
paths are those of a Windows host, on which `os.path` is `ntpath`. Texts are lists of characters.
The transfer mode, which is decoded but not used, is left out.
-/

namespace LinuxStm32.Tools

abbrev Text := List Char

/-! ### Python -/

/-- `b.decode('ascii', errors='replace')`. -/
def decodeAscii (b : Bytes) : Text :=
  b.map fun x => if x.toNat < 128 then Char.ofNat x.toNat else Char.ofNat 0xfffd

/-- `s.lower()`, of decoded texts. -/
def lower (s : Text) : Text := s.map Char.toLower

/-- `s.upper()`, of decoded texts. -/
def upper (s : Text) : Text := s.map Char.toUpper

/-- Remove characters at both ends. -/
def stripBy (p : Char → Bool) (s : Text) : Text := ((s.dropWhile p).reverse.dropWhile p).reverse

/-- The white space that `int` skips. -/
def isSpace (c : Char) : Bool := c.toNat == 32 || (9 ≤ c.toNat && c.toNat ≤ 13)

/-- Digits, with single underscores between them. -/
def digitsFrom (acc : Nat) : Text → Option Nat
  | [] => some acc
  | c :: cs =>
    if c.isDigit then digitsFrom (acc * 10 + (c.toNat - 48)) cs
    else if c = '_' then
      match cs with
      | d :: ds => if d.isDigit then digitsFrom (acc * 10 + (d.toNat - 48)) ds else none
      | [] => none
    else none

/-- A number without sign. -/
def pyNat : Text → Option Nat
  | c :: cs => if c.isDigit then digitsFrom (c.toNat - 48) cs else none
  | [] => none

/-- `int(s)`; `none` is the `ValueError`. -/
def pyInt (s : Text) : Option Int :=
  match stripBy isSpace s with
  | '-' :: cs => (pyNat cs).map fun n => -(n : Int)
  | '+' :: cs => (pyNat cs).map fun n => (n : Int)
  | cs => (pyNat cs).map fun n => (n : Int)

/-- `data[i:j]` for `0 ≤ i`. -/
def pySlice (data : Bytes) (i : Nat) (j : Int) : Bytes :=
  let stop : Nat := (if j < 0 then j + data.length else j).toNat
  (data.take stop).drop i

/-! ### Windows paths -/

def isSep (c : Char) : Bool := c == '\\' || c == '/'

/-- The text before the first separator, the separator and the text behind it. -/
def splitAtSep : Text → Option (Text × Char × Text)
  | [] => none
  | c :: cs =>
    if isSep c then some ([], c, cs) else (splitAtSep cs).map fun r => (c :: r.1, r.2)

/-- The prefix of extended UNC paths, in upper case and with backslashes. -/
def uncPrefix : Text := ['\\', '\\', '?', '\\', 'U', 'N', 'C', '\\']

/-- A path that starts with two separators: the drive is a server and a share. -/
def splitUnc (p : Text) : Text × Text × Text :=
  let normp := p.map fun c => if c = '/' then '\\' else c
  let start := if upper (normp.take 8) = uncPrefix then 8 else 2
  match splitAtSep (p.drop start) with
  | none => (p, [], [])
  | some (server, sep, more) =>
    match splitAtSep more with
    | none => (p, [], [])
    | some (share, root, tail) => (p.take start ++ server ++ sep :: share, [root], tail)

/-- `ntpath.splitroot`: drive, root and tail. -/
def splitRoot : Text → Text × Text × Text
  | c :: cs =>
    if isSep c then
      match cs with
      | d :: _ => if isSep d then splitUnc (c :: cs) else ([], [c], cs)
      | [] => ([], [c], [])
    else
      match cs with
      | ':' :: r :: tail => if isSep r then ([c, ':'], [r], tail) else ([c, ':'], [], r :: tail)
      | [':'] => ([c, ':'], [], [])
      | _ => ([], [], c :: cs)
  | [] => ([], [], [])

/-- The second path behind the first, with a separator between them. -/
def appendPath (path p : Text) : Text :=
  if path ≠ [] ∧ ¬ (path.getLast?.any isSep) then path ++ '\\' :: p else path ++ p

/-- The drive, root and path that `ntpath.join` puts together. -/
def joinParts (path p : Text) : Text × Text × Text :=
  let (resultDrive, resultRoot, resultPath) := splitRoot path
  let (pDrive, pRoot, pPath) := splitRoot p
  if pRoot ≠ [] then
    (if pDrive ≠ [] ∨ resultDrive = [] then pDrive else resultDrive, pRoot, pPath)
  else if pDrive ≠ [] ∧ pDrive ≠ resultDrive then
    if lower pDrive ≠ lower resultDrive then (pDrive, pRoot, pPath)
    else (pDrive, resultRoot, appendPath resultPath pPath)
  else (resultDrive, resultRoot, appendPath resultPath pPath)

/-- `ntpath.join`. -/
def ntJoin (path p : Text) : Text :=
  let (drive, root, rest) := joinParts path p
  if rest ≠ [] ∧ root = [] ∧ drive ≠ [] ∧
      ¬ (drive.getLast?.any fun c => c == ':' || isSep c) then
    drive ++ '\\' :: rest
  else drive ++ root ++ rest

/-! ### The server -/

/-- `TFTP_ROOT`. -/
def tftpRoot : Text := ['C', ':', '\\', 't', 'f', 't', 'p']

/-- `'blksize'`. -/
def blksizeName : Text := ['b', 'l', 'k', 's', 'i', 'z', 'e']

/-- The file name of a request. -/
def fileName (name : Bytes) : Text := stripBy (· == '/') (decodeAscii name)

/-- The path that `handle_client` opens. -/
def openedPath (name : Bytes) : Text := ntJoin tftpRoot (fileName name)

/-- The loop over the option parts. -/
def parseOptions : List Bytes → List (Text × Text)
  | name :: val :: parts =>
    if name = [] then [] else (lower (decodeAscii name), decodeAscii val) :: parseOptions parts
  | _ => []

/-- `options.get('blksize')`: of several values the last one. -/
def getBlksize (options : List (Text × Text)) : Option Text :=
  options.reverse.lookup blksizeName

inductive Served
  | ignored
  | started (filepath : Text) (blksize : Int)
  | raised
  deriving DecidableEq, Repr

/-- The parts of a read request. -/
def requestParts (d : Bytes) : Option (List Bytes) :=
  match d with
  | a :: b :: rest =>
    if d.length < 4 then none
    else if unpackH a b ≠ 1 then none
    else
      let parts := rest.splitOn 0
      if parts.length < 2 then none else some parts
  | _ => none

/-- One iteration of the loop of `run_server`. -/
def serve (d : Bytes) : Served :=
  match requestParts d with
  | none => .ignored
  | some parts =>
    match getBlksize (parseOptions (parts.drop 2)) with
    | none => .started (openedPath (parts.getD 0 [])) 512
    | some val =>
      match pyInt val with
      | none => .raised
      | some blksize => .started (openedPath (parts.getD 0 [])) blksize

/-- What a UDP datagram can carry. -/
def udpMax : Nat := 65507

/-- The loop of `handle_client` with a client that acknowledges each block: the blocks sent, if it
ends within the given number of them. -/
def sendBlocks (data : Bytes) (blksize : Int) : Nat → Nat → Option (List Bytes)
  | 0, _ => none
  | fuel + 1, offset =>
    let chunk := pySlice data offset (offset + blksize)
    if udpMax < chunk.length + 4 then none
    else if (chunk.length : Int) < blksize then some [chunk]
    else (sendBlocks data blksize fuel (offset + chunk.length)).map (chunk :: ·)

/-- The worker ends after finitely many blocks, which are the file. -/
def Completes (data : Bytes) (blksize : Int) : Prop :=
  ∃ n blocks, sendBlocks data blksize n 0 = some blocks ∧ blocks.flatten = data

/-- The datagram is ignored, or starts a worker that sends the file. -/
def Survives (d data : Bytes) : Prop :=
  match serve d with
  | .ignored => True
  | .started _ blksize => Completes data blksize
  | .raised => False

/-- The value of the block size option of a read request. -/
def blksizeOption (d : Bytes) : Option Text :=
  (requestParts d).bind fun parts => getBlksize (parseOptions (parts.drop 2))

/-! ### Blocks -/

section Blocks

variable {data : Bytes} {blksize : Int}

theorem pySlice_of_nonneg (h : 0 ≤ blksize) (offset : Nat) :
    pySlice data offset (offset + blksize) = (data.drop offset).take blksize.toNat := by
  have hstop : ((offset : Int) + blksize).toNat = offset + blksize.toNat := by omega
  rw [pySlice, if_neg (by omega), hstop, List.drop_take, Nat.add_sub_cancel_left]

/-- A block size that is not positive never ends the loop. -/
theorem sendBlocks_of_nonpos (h : blksize ≤ 0) (n offset : Nat) :
    sendBlocks data blksize n offset = none := by
  induction n generalizing offset with
  | zero => rfl
  | succ n ih =>
    rw [sendBlocks]
    split
    next => rfl
    next =>
      rw [if_neg (by omega), ih, Option.map_none]

/-- A first block that is too long is not sent. -/
theorem sendBlocks_of_long (h : 0 ≤ blksize)
    (hlong : udpMax < min blksize.toNat data.length + 4) (n : Nat) :
    sendBlocks data blksize n 0 = none := by
  cases n with
  | zero => rfl
  | succ n =>
    rw [sendBlocks, pySlice_of_nonneg h]
    rw [if_pos]
    rwa [List.drop_zero, List.length_take]

/-- Blocks that can be sent are sent until the rest of the file is. -/
theorem sendBlocks_spec (h : 1 ≤ blksize) (hshort : min blksize.toNat data.length + 4 ≤ udpMax)
    (n : Nat) {offset : Nat} (hn : data.length - offset < n) :
    ∃ blocks, sendBlocks data blksize n offset = some blocks ∧
      blocks.flatten = data.drop offset := by
  induction n generalizing offset with
  | zero => omega
  | succ n ih =>
    have hlen : ((data.drop offset).take blksize.toNat).length =
        min blksize.toNat (data.length - offset) := by
      rw [List.length_take, List.length_drop]
    rw [sendBlocks, pySlice_of_nonneg (by omega)]
    rw [if_neg (by omega)]
    split
    next hlast =>
      have hall : (data.drop offset).take blksize.toNat = data.drop offset := by
        apply List.take_of_length_le
        rw [List.length_drop]
        omega
      rw [hall]
      exact ⟨_, rfl, List.flatten_singleton⟩
    next hfull =>
      have hmin : min blksize.toNat (data.length - offset) = blksize.toNat := by omega
      rw [hlen, hmin]
      obtain ⟨blocks, hrun, hflat⟩ := @ih (offset + blksize.toNat) (by omega)
      rw [hrun, Option.map_some]
      refine ⟨_, rfl, ?_⟩
      rw [List.flatten_cons, hflat, ← List.drop_drop, List.take_append_drop]

/-- The worker sends the file exactly if the block size is positive and the first block fits into a
datagram. -/
theorem completes_iff :
    Completes data blksize ↔ 1 ≤ blksize ∧ min blksize.toNat data.length + 4 ≤ udpMax := by
  constructor
  · rintro ⟨n, blocks, hrun, -⟩
    by_cases hpos : 1 ≤ blksize
    · refine ⟨hpos, Nat.le_of_not_lt fun hlong => ?_⟩
      rw [sendBlocks_of_long (by omega) hlong] at hrun
      cases hrun
    · rw [sendBlocks_of_nonpos (by omega)] at hrun
      cases hrun
  · rintro ⟨hpos, hshort⟩
    obtain ⟨blocks, hrun, hflat⟩ := sendBlocks_spec hpos hshort (data.length + 1)
      (show data.length - 0 < data.length + 1 by omega)
    exact ⟨_, blocks, hrun, hflat⟩

end Blocks

/-- Whatever the datagram and the file, the server survives the request exactly if its block size
option, when it has one, is a number of at least 1 that does not make a block longer than a datagram
can be. -/
theorem tftp_server_survives (d data : Bytes) :
    Survives d data ↔ ∀ val, blksizeOption d = some val →
      ∃ blksize, pyInt val = some blksize ∧ 1 ≤ blksize ∧
        min blksize.toNat data.length + 4 ≤ udpMax := by
  have hdefault : Completes data 512 := by
    apply completes_iff.mpr
    refine ⟨by decide, ?_⟩
    have hle := Nat.min_le_left (Int.toNat 512) data.length
    exact Nat.le_trans (Nat.add_le_add_right hle 4) (by decide)
  unfold Survives serve blksizeOption
  cases hparts : requestParts d with
  | none =>
    rw [Option.bind_none]
    exact ⟨fun _ _ h => (nomatch h), fun _ => trivial⟩
  | some parts =>
    rw [Option.bind_some]
    dsimp only
    cases hopt : getBlksize (parseOptions (parts.drop 2)) with
    | none => exact ⟨fun _ _ h => (nomatch h), fun _ => hdefault⟩
    | some val =>
      dsimp only
      cases hint : pyInt val with
      | none =>
        refine ⟨False.elim, fun h => ?_⟩
        obtain ⟨blksize, hsome, -⟩ := h val rfl
        rw [hint] at hsome
        cases hsome
      | some blksize =>
        dsimp only
        rw [completes_iff]
        constructor
        · rintro h val' hval
          cases hval
          exact ⟨blksize, hint, h⟩
        · intro h
          obtain ⟨b, hb, hok⟩ := h val rfl
          rw [hint] at hb
          cases hb
          exact hok

/-- A read request for `f` with the given value of `blksize`. -/
def blksizeRequest (val : Bytes) : Bytes :=
  [0, 1, 102, 0, 111, 0] ++ [98, 108, 107, 115, 105, 122, 101, 0] ++ val ++ [0]

/-- `x` is not a number: the exception leaves the loop of the server. With `0` the worker never
ends. -/
theorem tftp_server_dies :
    serve (blksizeRequest [120]) = .raised ∧
      serve (blksizeRequest [48]) = .started (openedPath [102]) 0 ∧ ¬ Completes [1] 0 := by
  refine ⟨by decide, by decide, fun h => ?_⟩
  exact absurd (completes_iff.mp h).1 (by decide)

end LinuxStm32.Tools
