import LinuxStm32.Base.System
import Mathlib.Data.List.Basic
import Mathlib.Data.Nat.Basic

/-!
# The TFTP server

`handle_client`, `tools/tftp_server.py:19–87`, and a lock-step client. The server is a state machine
whose states are the places where it waits. The network keeps every datagram that was ever sent: a
receive returns any of them, so datagrams are lost, duplicated, delayed and reordered at will. The
client stores block `k + 1` only after block `k` and acknowledges the last block it stored, as often
as it likes.
-/

namespace LinuxStm32.Tools

open Base

abbrev Bytes := List UInt8

/-! ### Packets -/

/-- `struct.pack('!H', n)`. -/
def packH (n : Nat) : Bytes := [UInt8.ofNat (n / 256), UInt8.ofNat n]

/-- `struct.pack('!HH', m, n)`. -/
def packHH (m n : Nat) : Bytes := packH m ++ packH n

def unpackH (hi lo : UInt8) : Nat := hi.toNat * 256 + lo.toNat

/-- `struct.unpack('!HH', pkt)`; `none` is the `struct.error` for another length. -/
def unpackHH : Bytes → Option (Nat × Nat)
  | [a, b, c, d] => some (unpackH a b, unpackH c d)
  | _ => none

def opData : Nat := 3
def opAck : Nat := 4
def opError : Nat := 5
def opOack : Nat := 6

/-- The ASCII bytes of a text. -/
def ascii (s : String) : Bytes := s.toList.map fun c => UInt8.ofNat c.toNat

/-- A DATA packet; the block number is taken modulo 65536. -/
def dataPkt (blockNum : Nat) (chunk : Bytes) : Bytes := packHH opData (blockNum % 65536) ++ chunk

def ackPkt (blockNum : Nat) : Bytes := packHH opAck (blockNum % 65536)

def errPkt (msg : Bytes) : Bytes := packHH opError 1 ++ msg ++ [0]

def oackPkt (blksize : Nat) : Bytes :=
  packH opOack ++ ascii "blksize" ++ [0] ++ ascii (toString blksize) ++ [0]

/-- The block number and the bytes of a DATA packet, as the client reads them. -/
def parseData : Bytes → Option (Nat × Bytes)
  | a :: b :: c :: d :: chunk =>
    if unpackH a b = opData then some (unpackH c d, chunk) else none
  | _ => none

theorem unpackH_packH {n : Nat} (h : n < 65536) :
    unpackH (UInt8.ofNat (n / 256)) (UInt8.ofNat n) = n := by
  rw [unpackH, UInt8.toNat_ofNat', UInt8.toNat_ofNat']
  omega

theorem parseData_dataPkt {k : Nat} {chunk : Bytes} (h : k < 65536) :
    parseData (dataPkt k chunk) = some (k, chunk) := by
  rw [dataPkt, Nat.mod_eq_of_lt h]
  show (if unpackH (UInt8.ofNat (opData / 256)) (UInt8.ofNat opData) = opData
    then some (unpackH (UInt8.ofNat (k / 256)) (UInt8.ofNat k), chunk) else none) = _
  rw [unpackH_packH h, if_pos (unpackH_packH (by decide))]

theorem parseData_of_ne {op : Nat} (hop : op < 65536) (hne : op ≠ opData) (rest : Bytes) :
    parseData (packH op ++ rest) = none := by
  match rest with
  | [] => rfl
  | [_] => rfl
  | c :: d :: chunk =>
    show (if unpackH (UInt8.ofNat (op / 256)) (UInt8.ofNat op) = opData
      then some (unpackH c d, chunk) else none) = none
    rw [unpackH_packH hop, if_neg hne]

theorem parseData_errPkt (msg : Bytes) : parseData (errPkt msg) = none := by
  rw [errPkt, packHH, List.append_assoc, List.append_assoc]
  exact parseData_of_ne (by decide) (by decide) _

theorem parseData_oackPkt (blksize : Nat) : parseData (oackPkt blksize) = none := by
  rw [oackPkt, List.append_assoc, List.append_assoc, List.append_assoc]
  exact parseData_of_ne (by decide) (by decide) _

theorem unpackHH_ackPkt {b : Nat} (h : b < 65536) : unpackHH (ackPkt b) = some (opAck, b) := by
  rw [ackPkt, Nat.mod_eq_of_lt h]
  show some (unpackH (UInt8.ofNat (opAck / 256)) (UInt8.ofNat opAck),
    unpackH (UInt8.ofNat (b / 256)) (UInt8.ofNat b)) = _
  rw [unpackH_packH h, unpackH_packH (by decide)]

/-! ### The server -/

/-- Where `handle_client` is. -/
inductive Pc
  /-- Before `open`. -/
  | opening
  /-- In the `recvfrom` after the OACK. -/
  | waitOack
  /-- Before `sendto` in the given retry. -/
  | send (retry : Nat)
  /-- In `recvfrom` in the given retry. -/
  | wait (retry : Nat)
  /-- After `Transfer complete`. -/
  | complete
  /-- After `Transfer failed`, or given up before the first block. -/
  | failed
  /-- After an exception that is not caught. -/
  | raised
  deriving DecidableEq

structure Server where
  pc : Pc
  offset : Nat
  blockNum : Nat
  deriving DecidableEq

/-- `data[offset : offset + blksize]`. -/
def chunk (data : Bytes) (blksize offset : Nat) : Bytes := (data.drop offset).take blksize

namespace Server

/-- The beginning of the loop with the first block. -/
def first : Server := ⟨.send 0, 0, 1⟩

/-- The datagram that follows the OACK. -/
def recvOack (s : Server) (pkt : Bytes) : Server :=
  let ack := pkt.take 512
  match unpackHH (ack.take 4) with
  | none => { s with pc := .raised }
  | some (op, ackBlk) => if op ≠ opAck ∨ ackBlk ≠ 0 then { s with pc := .failed } else first

/-- The next iteration of `for retry in range(5)`. -/
def again (s : Server) (retry : Nat) : Server :=
  { s with pc := if retry + 1 < 5 then .send (retry + 1) else .failed }

/-- The rest of the loop after the block was acknowledged. -/
def next (s : Server) (data : Bytes) (blksize : Nat) : Server where
  pc := if (chunk data blksize s.offset).length < blksize then .complete else .send 0
  offset := s.offset + (chunk data blksize s.offset).length
  blockNum := s.blockNum + 1

/-- The datagram acknowledges the block. -/
def acks (s : Server) (pkt : Bytes) : Bool :=
  let ack := pkt.take 512
  4 ≤ ack.length && unpackHH (ack.take 4) == some (opAck, s.blockNum % 65536)

end Server

/-! ### The client and the network -/

/-- `last` blocks are stored. -/
structure Client where
  last : Nat
  stored : Bytes
  /-- A block shorter than `blksize` was stored. -/
  ended : Bool
  deriving DecidableEq

/-- A DATA packet stores its block if it is the next one. -/
def Client.recv (c : Client) (blksize : Nat) (pkt : Bytes) : Client :=
  match parseData pkt with
  | none => c
  | some (blk, chunk) =>
    if c.ended = false ∧ blk = (c.last + 1) % 65536 then
      ⟨c.last + 1, c.stored ++ chunk, decide (chunk.length < blksize)⟩
    else c

/-- Server, client and all datagrams sent so far, by direction. -/
structure Tftp where
  server : Server
  client : Client
  toClient : List Bytes
  toServer : List Bytes
  deriving DecidableEq

inductive TftpLabel
  /-- `open` and `read` succeed, or fail with the message. -/
  | openFile (err : Option Bytes)
  | serverSend
  | serverRecv (pkt : Bytes)
  | serverTimeout
  | clientRecv (pkt : Bytes)
  | clientAck

variable (data : Bytes) (blksize : Nat) {t : Server}

def tftpStep (s : Tftp) : TftpLabel → Option Tftp
  | .openFile err =>
    if s.server.pc = .opening then
      match err with
      | some msg => some { s with
          server := { s.server with pc := .failed }
          toClient := errPkt msg :: s.toClient }
      | none =>
        if blksize ≠ 512 then some { s with
          server := { s.server with pc := .waitOack }
          toClient := oackPkt blksize :: s.toClient }
        else some { s with server := .first }
    else none
  | .serverSend =>
    match s.server.pc with
    | .send retry => some { s with
        server := { s.server with pc := .wait retry }
        toClient := dataPkt s.server.blockNum (chunk data blksize s.server.offset) :: s.toClient }
    | _ => none
  | .serverRecv pkt =>
    if pkt ∈ s.toServer then
      match s.server.pc with
      | .waitOack => some { s with server := s.server.recvOack pkt }
      | .wait retry => some { s with
          server := if s.server.acks pkt then s.server.next data blksize else s.server.again retry }
      | _ => none
    else none
  | .serverTimeout =>
    match s.server.pc with
    | .waitOack => some { s with server := { s.server with pc := .failed } }
    | .wait retry => some { s with server := s.server.again retry }
    | _ => none
  | .clientRecv pkt =>
    if pkt ∈ s.toClient then some { s with client := s.client.recv blksize pkt } else none
  | .clientAck => some { s with toServer := ackPkt s.client.last :: s.toServer }

/-- Nothing is sent or stored. -/
def Tftp.start : Tftp := ⟨⟨.opening, 0, 0⟩, ⟨0, [], false⟩, [], []⟩

/-- All interleavings of the server, the client and the network. -/
def tftpSystem : System Tftp TftpLabel where
  init s := s = .start
  step := tftpStep data blksize

/-! ### The blocks of the file -/

/-- The number of DATA blocks of the file; the last one is short, and empty if the length is a
multiple of the block size. -/
def numBlocks : Nat := data.length / blksize + 1

variable {data blksize}

theorem chunk_short_iff (hbs : 1 ≤ blksize) (j : Nat) :
    (chunk data blksize (j * blksize)).length < blksize ↔ numBlocks data blksize ≤ j + 1 := by
  rw [chunk, List.length_take, List.length_drop, numBlocks, Nat.succ_le_succ_iff,
    ← Nat.lt_succ_iff, Nat.div_lt_iff_lt_mul hbs, Nat.succ_mul]
  omega

theorem chunk_length_le (offset : Nat) : (chunk data blksize offset).length ≤ blksize := by
  rw [chunk, List.length_take]
  exact Nat.min_le_left _ _

theorem take_append_chunk (j : Nat) :
    data.take (j * blksize) ++ chunk data blksize (j * blksize) =
      data.take ((j + 1) * blksize) := by
  rw [chunk, Nat.succ_mul, List.take_add]

theorem take_numBlocks (hbs : 1 ≤ blksize) :
    data.take (numBlocks data blksize * blksize) = data := by
  apply List.take_of_length_le
  rw [numBlocks, Nat.succ_mul]
  have := Nat.div_add_mod data.length blksize
  have := Nat.mod_lt data.length hbs
  rw [Nat.mul_comm]
  omega

/-! ### The invariant -/

/-- What the server knows of the client at each of its places. -/
def ServerAt (data : Bytes) (blksize last : Nat) (s : Server) : Prop :=
  match s.pc with
  | .send _ | .wait _ => 1 ≤ s.blockNum ∧ s.blockNum ≤ numBlocks data blksize ∧
      s.offset = (s.blockNum - 1) * blksize ∧ s.blockNum - 1 ≤ last
  | .complete => numBlocks data blksize ≤ last
  | _ => True

/-- The client has the first `last` blocks, every datagram to it carries a block of the file or is
not a DATA packet, and every datagram to the server acknowledges a block the client has. -/
structure TftpInv (data : Bytes) (blksize : Nat) (s : Tftp) : Prop where
  last_le : s.client.last ≤ numBlocks data blksize
  stored : s.client.stored = data.take (s.client.last * blksize)
  ended : s.client.ended = true ↔ s.client.last = numBlocks data blksize
  toClient : ∀ pkt ∈ s.toClient, parseData pkt = none ∨
    ∃ j < numBlocks data blksize, parseData pkt = some (j + 1, chunk data blksize (j * blksize))
  toServer : ∀ pkt ∈ s.toServer, ∃ b ≤ s.client.last, pkt = ackPkt b
  server : ServerAt data blksize s.client.last s.server

variable {s s' : Tftp}

/-- Only the server has moved. -/
theorem TftpInv.setServer (h : TftpInv data blksize s)
    (ht : ServerAt data blksize s.client.last t) : TftpInv data blksize { s with server := t } :=
  ⟨h.last_le, h.stored, h.ended, h.toClient, h.toServer, ht⟩

/-- The server has moved and sent a packet. -/
theorem TftpInv.sendClient (h : TftpInv data blksize s) {pkt : Bytes}
    (ht : ServerAt data blksize s.client.last t)
    (hpkt : parseData pkt = none ∨ ∃ j < numBlocks data blksize,
      parseData pkt = some (j + 1, chunk data blksize (j * blksize))) :
    TftpInv data blksize { s with server := t, toClient := pkt :: s.toClient } := by
  refine ⟨h.last_le, h.stored, h.ended, ?_, h.toServer, ht⟩
  intro p hp
  rcases List.mem_cons.mp hp with rfl | hp
  · exact hpkt
  · exact h.toClient p hp

theorem serverAt_first (last : Nat) : ServerAt data blksize last .first := by
  refine ⟨Nat.le_refl 1, ?_, by simp [Server.first], Nat.zero_le last⟩
  rw [numBlocks]
  exact Nat.le_add_left 1 _

theorem serverAt_again {last retry : Nat} (ht : t.pc = .wait retry)
    (h : ServerAt data blksize last t) : ServerAt data blksize last (t.again retry) := by
  rw [ServerAt, ht] at h
  rw [Server.again]
  split
  · exact h
  · exact trivial

/-- An acknowledged block leads to the next one, or the client has all of them. -/
theorem serverAt_next (hbs : 1 ≤ blksize) {last retry : Nat} (ht : t.pc = .wait retry)
    (h : ServerAt data blksize last t) (hlast : t.blockNum ≤ last) :
    ServerAt data blksize last (t.next data blksize) := by
  rw [ServerAt, ht] at h
  obtain ⟨hpos, hle, hoff, _⟩ := h
  have hshort := @chunk_short_iff data blksize hbs (t.blockNum - 1)
  rw [← hoff, Nat.sub_add_cancel hpos] at hshort
  rw [Server.next]
  split
  next hc =>
    show numBlocks data blksize ≤ last
    have := hshort.mp hc
    omega
  next hc =>
    have hfull : (chunk data blksize t.offset).length = blksize :=
      Nat.le_antisymm (chunk_length_le _) (Nat.le_of_not_lt hc)
    have hlt : ¬ numBlocks data blksize ≤ t.blockNum := fun hn => hc (hshort.mpr hn)
    refine ⟨Nat.le_add_left 1 _, by dsimp only; omega, ?_, hlast⟩
    show t.offset + (chunk data blksize t.offset).length = t.blockNum * blksize
    rw [hfull, hoff, ← Nat.succ_mul, Nat.succ_eq_add_one, Nat.sub_add_cancel hpos]

/-- A datagram that acknowledges the server's block comes from a client that has it. -/
theorem blockNum_le_of_acks (hn : numBlocks data blksize < 65536) (h : TftpInv data blksize s)
    {retry : Nat} (hpc : s.server.pc = .wait retry) {pkt : Bytes} (hpkt : pkt ∈ s.toServer)
    (ha : s.server.acks pkt = true) : s.server.blockNum ≤ s.client.last := by
  have hserver := h.server
  rw [ServerAt, hpc] at hserver
  obtain ⟨b, hb, rfl⟩ := h.toServer pkt hpkt
  have hblt : b < 65536 := by
    have := h.last_le
    omega
  have hlen : ((ackPkt b).take 512).take 4 = ackPkt b := rfl
  rw [Server.acks, Bool.and_eq_true, beq_iff_eq, hlen, unpackHH_ackPkt hblt] at ha
  have heq : b = s.server.blockNum % 65536 := congrArg Prod.snd (Option.some.inj ha.2)
  rw [Nat.mod_eq_of_lt (by omega)] at heq
  omega

/-- The client stores the next block of the file or nothing. -/
theorem client_recv_inv (hbs : 1 ≤ blksize) (hn : numBlocks data blksize < 65536)
    (h : TftpInv data blksize s) {pkt : Bytes} (hpkt : pkt ∈ s.toClient) :
    TftpInv data blksize { s with client := s.client.recv blksize pkt } := by
  rcases h.toClient pkt hpkt with hnone | ⟨j, hj, hsome⟩
  · rw [Client.recv, hnone]
    exact h
  · rw [Client.recv, hsome]
    dsimp only
    split
    next hc =>
      obtain ⟨hend, hblk⟩ := hc
      have hlast : s.client.last ≠ numBlocks data blksize := by
        intro he
        rw [h.ended.mpr he] at hend
        cases hend
      have hle := h.last_le
      rw [Nat.mod_eq_of_lt (by omega)] at hblk
      obtain rfl : j = s.client.last := by omega
      refine ⟨hj, ?_, ?_, h.toClient, ?_, ?_⟩
      · show s.client.stored ++ chunk data blksize (s.client.last * blksize) = _
        rw [h.stored, take_append_chunk]
      · rw [decide_eq_true_eq]
        show _ ↔ s.client.last + 1 = numBlocks data blksize
        rw [chunk_short_iff hbs]
        omega
      · intro p hp
        obtain ⟨b, hb, he⟩ := h.toServer p hp
        exact ⟨b, Nat.le_succ_of_le hb, he⟩
      · have hserver := h.server
        rw [ServerAt] at hserver ⊢
        dsimp only
        split at hserver
        all_goals first | trivial | omega
    next hc => exact h

theorem tftpInv_start : TftpInv data blksize .start := by
  refine ⟨Nat.zero_le _, ?_, ?_, ?_, ?_, trivial⟩
  · show [] = data.take (0 * blksize)
    rw [Nat.zero_mul, List.take_zero]
  · show false = true ↔ 0 = numBlocks data blksize
    rw [numBlocks]
    constructor
    · intro h
      cases h
    · intro h
      exact absurd h.symm (Nat.succ_ne_zero _)
  · intro pkt hp
    cases hp
  · intro pkt hp
    cases hp

theorem tftpInv_step (hbs : 1 ≤ blksize) (hn : numBlocks data blksize < 65536)
    (h : TftpInv data blksize s) {l : TftpLabel} (he : tftpStep data blksize s l = some s') :
    TftpInv data blksize s' := by
  cases l with
  | openFile err =>
    simp only [tftpStep] at he
    split at he
    next hpc =>
      cases err with
      | some msg =>
        obtain rfl := Option.some.inj he
        exact h.sendClient trivial (.inl (parseData_errPkt msg))
      | none =>
        dsimp only at he
        split at he
        · obtain rfl := Option.some.inj he
          exact h.sendClient trivial (.inl (parseData_oackPkt blksize))
        · obtain rfl := Option.some.inj he
          exact h.setServer (serverAt_first _)
    next hpc => cases he
  | serverSend =>
    simp only [tftpStep] at he
    split at he
    next retry hpc =>
      obtain rfl := Option.some.inj he
      have hserver := h.server
      rw [ServerAt, hpc] at hserver
      obtain ⟨hpos, hle, hoff, hlast⟩ := hserver
      refine h.sendClient ⟨hpos, hle, hoff, hlast⟩ (.inr ⟨s.server.blockNum - 1, by omega, ?_⟩)
      rw [parseData_dataPkt (by omega), hoff, Nat.sub_add_cancel hpos]
    next hpc => cases he
  | serverRecv pkt =>
    simp only [tftpStep] at he
    split at he
    next hpkt =>
      split at he
      next hpc =>
        obtain rfl := Option.some.inj he
        apply h.setServer
        rw [Server.recvOack]
        split
        · exact trivial
        · split
          · exact trivial
          · exact serverAt_first _
      next retry hpc =>
        obtain rfl := Option.some.inj he
        apply h.setServer
        split
        next ha => exact serverAt_next hbs hpc h.server (blockNum_le_of_acks hn h hpc hpkt ha)
        next ha => exact serverAt_again hpc h.server
      next hpc => cases he
    next hpkt => cases he
  | serverTimeout =>
    simp only [tftpStep] at he
    split at he
    next hpc =>
      obtain rfl := Option.some.inj he
      exact h.setServer trivial
    next retry hpc =>
      obtain rfl := Option.some.inj he
      exact h.setServer (serverAt_again hpc h.server)
    next hpc => cases he
  | clientRecv pkt =>
    simp only [tftpStep] at he
    split at he
    next hpkt =>
      obtain rfl := Option.some.inj he
      exact client_recv_inv hbs hn h hpkt
    next hpkt => cases he
  | clientAck =>
    obtain rfl := Option.some.inj he
    refine ⟨h.last_le, h.stored, h.ended, h.toClient, ?_, h.server⟩
    intro p hp
    rcases List.mem_cons.mp hp with rfl | hp
    · exact ⟨_, Nat.le_refl _, rfl⟩
    · exact h.toServer p hp

theorem tftpInv_reach (hbs : 1 ≤ blksize) (hn : numBlocks data blksize < 65536)
    (h : (tftpSystem data blksize).Reach System.Always s) : TftpInv data blksize s := by
  apply System.Reach.invariant _ _ h
  · intro s hs
    rw [hs]
    exact tftpInv_start
  · intro s l s' hs _ he
    exact tftpInv_step hbs hn hs he

/-- What the client has stored is a prefix of the file, and when the server reports the transfer
complete the client has stored the whole file and its short last block. -/
theorem tftp_transfer_safe (hbs : 1 ≤ blksize) (hn : numBlocks data blksize < 65536)
    (h : (tftpSystem data blksize).Reach System.Always s) :
    s.client.stored <+: data ∧
      (s.server.pc = .complete → s.client.stored = data ∧ s.client.ended = true) := by
  have hinv := tftpInv_reach hbs hn h
  constructor
  · rw [hinv.stored]
    exact List.take_prefix _ _
  · intro hpc
    have hserver := hinv.server
    rw [ServerAt, hpc] at hserver
    have hlast := Nat.le_antisymm hinv.last_le hserver
    refine ⟨?_, hinv.ended.mpr hlast⟩
    rw [hinv.stored, hlast, take_numBlocks hbs]

/-- A run in which a stale acknowledgement makes the server send the first block twice. -/
def twoBlocksRun : List TftpLabel :=
  [.openFile none, .clientAck, .serverRecv (ackPkt 0), .serverSend, .serverRecv (ackPkt 0),
    .serverSend, .clientRecv (dataPkt 1 [1, 2]), .clientAck, .serverRecv (ackPkt 1), .serverSend,
    .clientRecv (dataPkt 2 []), .clientAck, .serverRecv (ackPkt 2)]

/-- Two bytes in blocks of two bytes: the second block is empty. -/
theorem tftp_transfer_safe_two_blocks : ∃ s, (tftpSystem [1, 2] 2).Reach System.Always s ∧
    s.server.pc = .complete ∧ s.client.stored = [1, 2] ∧ s.client.ended = true := by
  have h0 : (tftpSystem [1, 2] 2).Reach System.Always .start := .init rfl
  have hrun : ((tftpSystem [1, 2] 2).exec .start twoBlocksRun).map (·.server.pc) =
      some .complete := by decide +kernel
  obtain ⟨s, he, hpc⟩ := Option.map_eq_some_iff.mp hrun
  have hs := System.reach_of_exec twoBlocksRun h0 (fun _ _ _ => trivial) he
  exact ⟨s, hs, hpc, (tftp_transfer_safe (by decide) (by decide) hs).2 hpc⟩

end LinuxStm32.Tools
