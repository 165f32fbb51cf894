import LinuxStm32.Drivers.Mmc.MmciDma

/-!
# Requests, commands and their responses

At most one command is outstanding: it is in the controller, or its event is in the status
register, or in the status word the handler has sampled. The source does not check this; it
hands a command event to whatever command is current. Handling a data event while a command
is outstanding breaks the pairing, so `DataEventOk` asks that none is.
-/

namespace LinuxStm32.Drivers.Mmc

open Base Mach

/-- A data event is handled only when no command is outstanding. -/
def DataEventOk (s : Mmci) : MmciAct → Prop
  | .run => ∀ st, s.pc = .data st → st.data.any = true → s.data ≠ none → s.cmd = none
  | _ => True

namespace Mmci

/-- The numbers of the finished requests. -/
def endedIds (s : Mmci) : List Nat := s.ended.map Prod.fst

/-- Where the event of the outstanding command is. -/
def Waiting (s : Mmci) (c : ReqCmd) : Prop :=
  (s.active = some c ∧ s.statusCmd = .zero ∧ s.pc.pending = .zero) ∨
    s.active = none ∧ ∃ e, (s.log c.req.id c.stop).event = some (e, s.resp) ∧
      ((s.statusCmd = e.bits ∧ s.pc.pending = .zero) ∨
        (s.statusCmd = .zero ∧ s.pc.pending = e.bits))

/-- The driver's current command and the controller agree. -/
structure LinkOk (s : Mmci) : Prop where
  quiet : s.cmd = none → s.active = none ∧ s.statusCmd = .zero ∧ s.pc.pending = .zero
  waiting : ∀ c, s.cmd = some c → s.Waiting c

/-- What a finished request has seen: it was refused, or its command and, if sent, its stop
command were answered. -/
def Served (s : Mmci) (k : Nat) : Prop :=
  s.refused k = true ∨
    (s.log k false).out ≠ none ∧ ((s.log k true).sent ≠ none → (s.log k true).out ≠ none)

/-- With `n` requests issued, what is filled in comes from the command's own event. -/
structure LogsOk (n : Nat) (log : Nat → Bool → CmdLog) : Prop where
  fresh : ∀ k b, n ≤ k → (log k b).sent = none
  unsent : ∀ k b, (log k b).sent = none → log k b = .empty
  own : ∀ k b o, (log k b).out = some o → ∃ e cmd, (log k b).event = some (e, o.1) ∧
    (log k b).sent = some cmd ∧ o.2 = e.bits.cmdError cmd

/-- The history of commands: each request other than the current one is finished once and
served. -/
structure LogOk (s : Mmci) : Prop extends LogsOk s.issued s.log where
  open_ : ∀ c, s.cmd = some c → (s.log c.req.id c.stop).sent = some c.cmd ∧
    (s.log c.req.id c.stop).out = none
  main : ∀ r, s.mrq = some r → (∀ c, s.cmd = some c → c.stop = true) →
    (s.log r.id false).out ≠ none
  stop : ∀ r, s.mrq = some r → (∀ c, s.cmd = some c → c.stop = false) →
    (s.log r.id true).sent = none
  current : ∀ r, s.mrq = some r → r.id < s.issued ∧ r.id ∉ s.endedIds
  nodup : s.endedIds.Nodup
  lt : ∀ k ∈ s.endedIds, k < s.issued
  all : ∀ k < s.issued, k ∈ s.endedIds ∨ ∃ r, s.mrq = some r ∧ r.id = k
  served : ∀ k ∈ s.endedIds, s.Served k

variable {s : Mmci} {c : ReqCmd} {st : Status}

/-- Without a command, nothing is on the way. -/
private theorem LinkOk.of_quiet (hc : s.cmd = none)
    (h : s.active = none ∧ s.statusCmd = .zero ∧ s.pc.pending = .zero) : s.LinkOk :=
  ⟨fun _ => h, fun c he => absurd (hc.symm.trans he) (Option.some_ne_none c).symm⟩

/-- Steps that leave a request's own history alone leave it served. -/
private theorem Served.of_log_eq {k : Nat} (h : s.Served k) {t : Mmci}
    (hr : t.refused k = s.refused k) (hlog : ∀ b, t.log k b = s.log k b) : t.Served k := by
  unfold Served at h ⊢
  rw [hr, hlog false, hlog true]
  exact h

/-- The history invariant looks at six fields only. -/
private theorem LogOk.of_eq (h : s.LogOk) {t : Mmci} (hi : t.issued = s.issued)
    (hl : t.log = s.log) (hc : t.cmd = s.cmd) (hm : t.mrq = s.mrq) (he : t.ended = s.ended)
    (hr : t.refused = s.refused) : t.LogOk := by
  cases s
  cases t
  subst hi hl hc hm he hr
  exact ⟨h.toLogsOk, h.open_, h.main, h.stop, h.current, h.nodup, h.lt, h.all, h.served⟩

/-! ### The history -/

/-- The log of a command that has been sent is changed. -/
private theorem LogOk.set (h : s.LogOk) (c : ReqCmd) (f : CmdLog → CmdLog) {n : Nat}
    (hle : s.issued ≤ n) (hlt : c.req.id < n) (hsent : (f (s.log c.req.id c.stop)).sent ≠ none)
    (hown : ∀ o, (f (s.log c.req.id c.stop)).out = some o → ∃ e cmd,
      (f (s.log c.req.id c.stop)).event = some (e, o.1) ∧
        (f (s.log c.req.id c.stop)).sent = some cmd ∧ o.2 = e.bits.cmdError cmd) :
    LogsOk n (s.setLog c f) := by
  refine ⟨fun k b hk => ?_, fun k b hn => ?_, fun k b o ho => ?_⟩
  · rw [setLog_of_ne (by omega)]
    exact h.fresh k b (Nat.le_trans hle hk)
  · by_cases hkb : k = c.req.id ∧ b = c.stop
    · obtain ⟨rfl, rfl⟩ := hkb
      rw [setLog_self] at hn
      exact absurd hn hsent
    · rw [setLog_of_ne hkb] at hn ⊢
      exact h.unsent k b hn
  · by_cases hkb : k = c.req.id ∧ b = c.stop
    · obtain ⟨rfl, rfl⟩ := hkb
      rw [setLog_self] at ho ⊢
      exact hown o ho
    · rw [setLog_of_ne hkb] at ho ⊢
      exact h.own k b o ho

/-- A refused request is finished at once. -/
private theorem LogOk.refuse (h : s.LogOk) (hm : s.mrq = none) (n : Nat) :
    LogOk { s with
      issued := s.issued + 1
      ended := (s.issued, n) :: s.ended
      refused := fun k => if k = s.issued then true else s.refused k } := by
  have hnot : s.issued ∉ s.endedIds := fun hmem => Nat.lt_irrefl _ (h.lt _ hmem)
  refine ⟨⟨fun k b hk => h.fresh k b (Nat.le_of_succ_le hk), h.unsent, h.own⟩, h.open_, h.main,
    h.stop, fun r hr => ?_, ?_, ?_, ?_, ?_⟩
  · exact absurd (hm.symm.trans hr) (by simp)
  · exact List.nodup_cons.mpr ⟨hnot, h.nodup⟩
  · intro k hk
    rcases List.mem_cons.mp hk with rfl | hk
    · exact Nat.lt_succ_self _
    · exact Nat.lt_succ_of_lt (h.lt k hk)
  · intro k hk
    rcases Nat.lt_succ_iff_lt_or_eq.mp hk with hlt | rfl
    · rcases h.all k hlt with hmem | ⟨r, hr, -⟩
      · exact .inl (List.mem_cons_of_mem _ hmem)
      · exact absurd (hm.symm.trans hr) (by simp)
    · exact .inl List.mem_cons_self
  · intro k hk
    by_cases hke : k = s.issued
    · exact .inl (if_pos hke)
    · rcases List.mem_cons.mp hk with he | hk
      · exact absurd he hke
      · rcases h.served k hk with hr | hs
        · refine .inl ?_
          dsimp only
          rw [if_neg hke]
          exact hr
        · exact .inr hs

/-- The command of a new request is sent. -/
private theorem LogOk.sendMain (h : s.LogOk) (hm : s.mrq = none) (r : MmcRequest)
    (hid : r.id = s.issued) :
    LogOk { s with
      issued := s.issued + 1
      mrq := some r
      cmd := some ⟨r, false, r.cmd⟩
      log := s.setLog ⟨r, false, r.cmd⟩ fun l => { l with sent := some r.cmd } } := by
  have hempty : s.log r.id false = .empty := h.unsent _ _ (h.fresh _ _ (Nat.le_of_eq hid.symm))
  have hstop : (s.log r.id true).sent = none := h.fresh _ _ (Nat.le_of_eq hid.symm)
  have hnot : r.id ∉ s.endedIds := fun hmem => Nat.lt_irrefl _ (hid ▸ h.lt _ hmem)
  have hself := s.setLog_self ⟨r, false, r.cmd⟩ fun l => { l with sent := some r.cmd }
  dsimp only at hself
  rw [hempty] at hself
  refine ⟨h.set ⟨r, false, r.cmd⟩ (fun l => { l with sent := some r.cmd }) (Nat.le_succ _)
    (by simp only; omega) (Option.some_ne_none r.cmd) ?_, fun c he => ?_, fun q _ hs => ?_,
    fun q hq _ => ?_, fun q hq => ?_, h.nodup, fun k hk => ?_, fun k hk => ?_, fun k hk => ?_⟩
  · dsimp only
    rw [hempty]
    nofun
  · cases he
    dsimp only
    rw [hself]
    exact ⟨rfl, rfl⟩
  · exact absurd (hs _ rfl) (by simp)
  · cases hq
    dsimp only
    rw [setLog_of_ne (by simp)]
    exact hstop
  · cases hq
    exact ⟨by simp only; omega, hnot⟩
  · exact Nat.lt_succ_of_lt (h.lt k hk)
  · rcases Nat.lt_succ_iff_lt_or_eq.mp hk with hlt | he
    · rcases h.all k hlt with hmem | ⟨q, hq, -⟩
      · exact .inl hmem
      · exact absurd (hm.symm.trans hq) (by simp)
    · exact .inr ⟨r, rfl, hid.trans he.symm⟩
  · have hne : k ≠ r.id := fun he => hnot (he ▸ hk)
    refine (h.served k hk).of_log_eq rfl fun b => ?_
    dsimp only
    rw [setLog_of_ne (fun hkb => hne hkb.1)]

/-- The stop command of the current request is sent. -/
private theorem LogOk.sendStop (h : s.LogOk) {r : MmcRequest} (hm : s.mrq = some r)
    (hc : s.cmd = none) (stop : MmcCommand) :
    LogOk { s with
      cmd := some ⟨r, true, stop⟩
      log := s.setLog ⟨r, true, stop⟩ fun l => { l with sent := some stop } } := by
  have hnone : ∀ c, s.cmd = some c → c.stop = false := fun c he =>
    absurd (hc.symm.trans he) (by simp)
  have hmain : (s.log r.id false).out ≠ none :=
    h.main r hm fun c he => absurd (hc.symm.trans he) (by simp)
  have hempty : s.log r.id true = .empty := h.unsent _ _ (h.stop r hm hnone)
  obtain ⟨hlt, hnot⟩ := h.current r hm
  have hself := s.setLog_self ⟨r, true, stop⟩ fun l => { l with sent := some stop }
  dsimp only at hself
  rw [hempty] at hself
  refine ⟨h.set ⟨r, true, stop⟩ (fun l => { l with sent := some stop }) (Nat.le_refl _) hlt
    (Option.some_ne_none stop) ?_, fun c he => ?_, fun q hq _ => ?_, fun q _ hs => ?_,
    h.current, h.nodup, h.lt, h.all, fun k hk => ?_⟩
  · dsimp only
    rw [hempty]
    nofun
  · cases he
    dsimp only
    rw [hself]
    exact ⟨rfl, rfl⟩
  · cases hm.symm.trans hq
    dsimp only
    rw [setLog_of_ne (by simp)]
    exact hmain
  · exact absurd (hs _ rfl) (by simp)
  · have hne : k ≠ r.id := fun he => hnot (he ▸ hk)
    refine (h.served k hk).of_log_eq rfl fun b => ?_
    dsimp only
    rw [setLog_of_ne (fun hkb => hne hkb.1)]

/-- The controller's event of the outstanding command. -/
private theorem LogOk.raise (h : s.LogOk) (hc : s.cmd = some c)
    (hm : s.mrq = some c.req) (e : CmdEvent × Resp) :
    LogOk { s with log := s.setLog c fun l => { l with event := some e } } := by
  obtain ⟨hsent, hout⟩ := h.open_ c hc
  obtain ⟨hlt, hnot⟩ := h.current _ hm
  have hkeep : ∀ k b, (s.setLog c (fun l => { l with event := some e }) k b).sent =
      (s.log k b).sent ∧ (s.setLog c (fun l => { l with event := some e }) k b).out =
      (s.log k b).out := by
    intro k b
    by_cases hkb : k = c.req.id ∧ b = c.stop
    · obtain ⟨rfl, rfl⟩ := hkb
      rw [setLog_self]
      exact ⟨rfl, rfl⟩
    · rw [setLog_of_ne hkb]
      exact ⟨rfl, rfl⟩
  have hlogs := h.set c (fun l => { l with event := some e }) (Nat.le_refl _) hlt (by simp [hsent])
    (by simp [hout])
  refine ⟨hlogs, fun d hd => ?_,
    fun q hq hs => ?_, fun q hq hs => ?_, h.current, h.nodup, h.lt, h.all, fun k hk => ?_⟩
  · dsimp only
    rw [(hkeep _ _).1, (hkeep _ _).2]
    exact h.open_ d hd
  · dsimp only
    rw [(hkeep _ _).2]
    exact h.main q hq hs
  · dsimp only
    rw [(hkeep _ _).1]
    exact h.stop q hq hs
  · rcases h.served k hk with hr | hs
    · exact .inl hr
    · refine .inr ?_
      dsimp only
      rw [(hkeep _ _).1, (hkeep _ _).2, (hkeep _ _).2]
      exact hs

/-- What filling in the outstanding command from its own event does to the history. -/
private theorem LogOk.fill (h : s.LogOk) (hc : s.cmd = some c)
    (hm : s.mrq = some c.req) {e : CmdEvent}
    (he : (s.log c.req.id c.stop).event = some (e, s.resp)) (hst : st.cmd = e.bits) :
    LogsOk s.issued (cmdResult s c st).log ∧
      ((cmdResult s c st).log c.req.id c.stop).out ≠ none ∧
      ∀ k b, ¬ (k = c.req.id ∧ b = c.stop) → (cmdResult s c st).log k b = s.log k b := by
  obtain ⟨hsent, -⟩ := h.open_ c hc
  obtain ⟨hlt, -⟩ := h.current _ hm
  simp only [cmdResult]
  refine ⟨h.set c _ (Nat.le_refl _) hlt (by simp [hsent]) ?_, ?_, fun k b hkb => setLog_of_ne hkb⟩
  · rintro o ⟨⟩
    exact ⟨e, c.cmd, he, hsent, by rw [hst]⟩
  · rw [setLog_self]
    exact Option.some_ne_none _

/-- A command with data is answered and its request goes on. -/
private theorem LogOk.answer (h : s.LogOk) (hc : s.cmd = some c)
    (hm : s.mrq = some c.req) {e : CmdEvent}
    (he : (s.log c.req.id c.stop).event = some (e, s.resp)) (hst : st.cmd = e.bits)
    (hmain : c.stop = false) : (cmdResult s c st).LogOk := by
  obtain ⟨hlogs, hout, hne⟩ := h.fill hc hm he hst
  obtain ⟨hlt, hnot⟩ := h.current _ hm
  rw [hmain] at hout
  refine ⟨hlogs, fun d hd => ?_, fun q hq _ => ?_, fun q hq _ => ?_, h.current,
    h.nodup, h.lt, h.all, fun k hk => ?_⟩
  · cases hd
  · cases hm.symm.trans hq
    exact hout
  · cases hm.symm.trans hq
    rw [hne _ _ (by simp [hmain])]
    refine h.stop _ hm fun d hd => ?_
    cases hc.symm.trans hd
    exact hmain
  · have hk' : k ≠ c.req.id := fun he => hnot (he ▸ hk)
    exact (h.served k hk).of_log_eq rfl fun b => hne k b fun hkb => hk' hkb.1

/-- The current request ends once its commands are answered. -/
private theorem LogOk.finish (h : s.LogOk) {r : MmcRequest} (hm : s.mrq = some r) {n : Nat}
    {log : Nat → Bool → CmdLog} (hlogs : LogsOk s.issued log)
    (hout : (log r.id false).out ≠ none ∧
      ((log r.id true).sent ≠ none → (log r.id true).out ≠ none))
    (hne : ∀ k b, k ≠ r.id → log k b = s.log k b) :
    LogOk { s with mrq := none, cmd := none, ended := (r.id, n) :: s.ended, log := log } := by
  obtain ⟨hlt, hnot⟩ := h.current _ hm
  refine ⟨hlogs, ?_, ?_, ?_, ?_, ?_, fun k hk => ?_, fun k hk => ?_, fun k hk => ?_⟩
  -- there is no command and no request
  iterate 4
    · intro _ h
      cases h
  · exact List.nodup_cons.mpr ⟨hnot, h.nodup⟩
  · rcases List.mem_cons.mp hk with rfl | hk
    · exact hlt
    · exact h.lt k hk
  · refine .inl ?_
    rcases h.all k hk with hmem | ⟨q, hq, rfl⟩
    · exact List.mem_cons_of_mem _ hmem
    · cases hm.symm.trans hq
      exact List.mem_cons_self
  · rcases List.mem_cons.mp hk with rfl | hk
    · exact .inr hout
    · have hk' : k ≠ r.id := fun he => hnot (he ▸ hk)
      exact (h.served k hk).of_log_eq rfl fun b => hne k b hk'

/-! ### The steps -/

/-- Invariant of the runs that keep requests and responses paired. -/
structure PairInv (s : Mmci) : Prop where
  host : s.HostOk
  link : s.LinkOk
  log : s.LogOk

private theorem zero_of_not_any {b : CmdBits} (h : b.any = false) : b = .zero := by
  cases b
  simp only [CmdBits.any, Bool.or_eq_false_iff] at h
  obtain ⟨⟨⟨h1, h2⟩, h3⟩, h4⟩ := h
  rw [h1, h2, h3, h4]
  rfl

private theorem PairInv.request (h : s.PairInv) (hm : s.mrq = none) (cmd : MmcCommand)
    (data : Option MmcData) (stop : Option MmcCommand) (hhost : HostOk
      (mmciRequest { s with issued := s.issued + 1 } ⟨s.issued, cmd, data, stop⟩)) :
    (mmciRequest { s with issued := s.issued + 1 } ⟨s.issued, cmd, data, stop⟩).PairInv := by
  obtain ⟨hc, -⟩ := h.host.idle hm
  obtain ⟨-, hst, hp⟩ := h.link.quiet hc
  have hsent := h.log.sendMain hm ⟨s.issued, cmd, data, stop⟩ rfl
  rcases mmciRequest_cases { s with issued := s.issued + 1 } ⟨s.issued, cmd, data, stop⟩ with
    he | ⟨d, hd, -, he⟩ | ⟨-, he⟩
  · rw [he] at hhost ⊢
    exact ⟨hhost, ⟨h.link.quiet, h.link.waiting⟩, h.log.refuse hm 0⟩
  · rw [he, mmciStartData_eq rfl hd] at hhost ⊢
    refine ⟨hhost, ⟨nofun, ?_⟩, hsent.of_eq rfl rfl rfl rfl rfl rfl⟩
    rintro c ⟨⟩
    exact .inl ⟨rfl, hst, hp⟩
  · rw [he] at hhost ⊢
    refine ⟨hhost, ⟨nofun, ?_⟩, hsent.of_eq rfl rfl rfl rfl rfl rfl⟩
    rintro c ⟨⟩
    exact .inl ⟨rfl, hst, hp⟩

private theorem PairInv.dataIrq (h : s.PairInv) {d : ReqData} (hd : s.data = some d)
    (hpc : s.pc = .data st) (hc : s.cmd = none) (hhost : (mmciDataIrq s d st).HostOk) :
    (mmciDataIrq s d st).PairInv := by
  have hm := (h.host.data d hd).1
  obtain ⟨-, hst, hp⟩ := h.link.quiet hc
  rw [hpc] at hp
  have hnone : ∀ c b, s.cmd = some c → c.stop = b := fun c b he =>
    absurd (hc.symm.trans he) (by simp)
  refine ⟨hhost, ?_, ?_⟩
  · unfold mmciDataIrq
    dsimp only
    split
    · exact .of_quiet rfl ⟨rfl, hst, hp⟩
    · refine ⟨nofun, ?_⟩
      rintro c ⟨⟩
      exact .inl ⟨rfl, hst, hp⟩
  · unfold mmciDataIrq
    dsimp only
    split
    · have hmain := h.log.main _ hm fun c he => hnone c true he
      have hstop := h.log.stop _ hm fun c he => hnone c false he
      have hf := h.log.finish hm (n := if d.req.data.isSome then (if st.data.dataEnd then
          wadd s.dataXfered (wmul d.data.blksz d.data.blocks) else s.dataXfered) else 0)
        h.log.toLogsOk ⟨hmain, fun hs => absurd hstop hs⟩ fun _ _ _ => rfl
      exact hf.of_eq rfl rfl rfl rfl rfl rfl
    · next stop _ => exact (h.log.sendStop hm hc stop).of_eq rfl rfl rfl rfl rfl rfl

/-- The event of the outstanding command is the one the handler has sampled. -/
private theorem LinkOk.sampled (h : s.LinkOk) (hc : s.cmd = some c)
    (hpc : s.pc = .cmd st) (hany : st.cmd.any = true) :
    s.active = none ∧ s.statusCmd = .zero ∧
      ∃ e, (s.log c.req.id c.stop).event = some (e, s.resp) ∧ st.cmd = e.bits := by
  have hne : s.pc.pending ≠ .zero := by
    intro hz
    rw [hpc] at hz
    change st.cmd = .zero at hz
    rw [hz] at hany
    cases hany
  rcases h.waiting c hc with ⟨-, -, hp⟩ | ⟨ha, e, he, ⟨-, hp⟩ | ⟨hs, hp⟩⟩
  · exact absurd hp hne
  · exact absurd hp hne
  · rw [hpc] at hp
    exact ⟨ha, hs, e, he, hp⟩

private theorem PairInv.cmdIrq (h : s.PairInv) (hc : s.cmd = some c)
    (hpc : s.pc = .cmd st) (hany : st.cmd.any = true) (hhost : (mmciCmdIrq s c st).HostOk) :
    (mmciCmdIrq s c st).PairInv := by
  have hm := h.host.cmd c hc
  obtain ⟨ha, hs, e, he, hst⟩ := h.link.sampled hc hpc hany
  rcases mmciCmdIrq_cases s c st with ⟨-, heq⟩ | ⟨d, hd, -, heq⟩ | ⟨d, hd, -, heq⟩
  · obtain ⟨hlogs, hout, hne⟩ := h.log.fill hc hm he hst
    have hserved : ((cmdResult s c st).log c.req.id false).out ≠ none ∧
        (((cmdResult s c st).log c.req.id true).sent ≠ none →
          ((cmdResult s c st).log c.req.id true).out ≠ none) := by
      cases hb : c.stop with
      | false =>
        rw [hb] at hout
        refine ⟨hout, fun hsent => absurd ?_ hsent⟩
        rw [hne _ _ (by simp [hb])]
        refine h.log.stop _ hm fun d hd => ?_
        cases hc.symm.trans hd
        exact hb
      | true =>
        rw [hb] at hout
        refine ⟨?_, fun _ => hout⟩
        rw [hne _ _ (by simp [hb])]
        refine h.log.main _ hm fun d hd => ?_
        cases hc.symm.trans hd
        exact hb
    have hf := h.log.finish hm (n := if c.req.data.isSome then s.dataXfered else 0)
      hlogs hserved fun k b hk => hne k b fun hkb => hk hkb.1
    rw [heq] at hhost ⊢
    exact ⟨hhost, .of_quiet rfl ⟨rfl, hs, rfl⟩, hf.of_eq rfl rfl rfl rfl rfl rfl⟩
  · have hanswer := h.log.answer hc hm he hst (ReqCmd.data_eq_some hd).1
    rw [heq] at hhost ⊢
    exact ⟨hhost, .of_quiet rfl ⟨ha, hs, rfl⟩, hanswer.of_eq rfl rfl rfl rfl rfl rfl⟩
  · have hm' : (cmdResult s c st).mrq = some c.req := hm
    have hanswer := h.log.answer hc hm he hst (ReqCmd.data_eq_some hd).1
    rw [heq, mmciStartData_eq hm' (ReqCmd.data_eq_some hd).2] at hhost ⊢
    exact ⟨hhost, .of_quiet rfl ⟨ha, hs, rfl⟩, hanswer.of_eq rfl rfl rfl rfl rfl rfl⟩

/-- The command in the controller is the driver's current one. -/
private theorem LinkOk.active (h : s.LinkOk) (ha : s.active = some c) :
    s.cmd = some c ∧ s.statusCmd = .zero ∧ s.pc.pending = .zero := by
  cases hc : s.cmd with
  | none =>
    have := (h.quiet hc).1
    rw [ha] at this
    cases this
  | some d =>
    rcases h.waiting d hc with ⟨hd, hs, hp⟩ | ⟨hn, -⟩
    · cases ha.symm.trans hd
      exact ⟨rfl, hs, hp⟩
    · exact absurd (ha.symm.trans hn) (by simp)

private theorem PairInv.cmdEvent (h : s.PairInv) (ha : s.active = some c)
    (event : CmdEvent) (resp : Resp) :
    PairInv { s with
      active := none
      statusCmd := s.statusCmd.or event.bits
      resp := resp
      log := s.setLog c fun l => { l with event := some (event, resp) } } := by
  obtain ⟨hc, hs, hp⟩ := h.link.active ha
  have hm := h.host.cmd c hc
  refine ⟨⟨h.host.data, h.host.cmd, h.host.alone, h.host.bug⟩, ⟨fun hn => ?_, fun d hd => ?_⟩,
    (h.log.raise hc hm (event, resp)).of_eq rfl rfl rfl rfl rfl rfl⟩
  · exact absurd (hc.symm.trans hn) (by simp)
  · cases hc.symm.trans hd
    refine .inr ⟨rfl, event, ?_, .inl ⟨?_, hp⟩⟩
    · dsimp only
      rw [setLog_self]
    · dsimp only
      rw [hs]
      cases event <;> rfl

/-- Sampling moves a pending command event into the handler's status word. -/
private theorem LinkOk.sample (h : s.LinkOk) (hpc : s.pc = .sample) :
    LinkOk { s with
      pc := .data ⟨s.statusCmd, s.statusData⟩, statusCmd := .zero, statusData := .zero } := by
  refine ⟨fun hn => ⟨(h.quiet hn).1, rfl, (h.quiet hn).2.1⟩, fun c hc => ?_⟩
  rcases h.waiting c hc with ⟨ha, hs, -⟩ | ⟨ha, e, he, ⟨hs, -⟩ | ⟨-, hp⟩⟩
  · exact .inl ⟨ha, rfl, hs⟩
  · exact .inr ⟨ha, e, he, .inr ⟨rfl, hs⟩⟩
  · rw [hpc] at hp
    cases e <;> cases hp

/-- The handler moves on without losing the event of the outstanding command. -/
private theorem LinkOk.move (h : s.LinkOk) {pc : IrqPc} (hpc : pc.pending = s.pc.pending ∨
    pc.pending = .zero ∧ (s.pc.pending.any = false ∨ s.cmd = none)) :
    LinkOk { s with pc := pc } := by
  have hp : pc.pending = s.pc.pending := by
    rcases hpc with heq | ⟨hz, hany | hc⟩
    · exact heq
    · rw [hz, zero_of_not_any hany]
    · rw [hz, (h.quiet hc).2.2]
  refine ⟨fun hn => ?_, fun c hc => ?_⟩
  · dsimp only
    rw [hp]
    exact h.quiet hn
  · simp only [Waiting]
    rw [hp]
    exact h.waiting c hc

/-- Every guarded step keeps requests and responses paired. -/
theorem PairInv.step (h : s.PairInv) {s' : Mmci} {a : MmciAct} (ok : DataEventOk s a)
    (hstep : mmciStep s a = some s') : s'.PairInv := by
  have hhost := h.host.step hstep
  cases mmciStep_cases hstep with
  | request cmd data stop hm => exact h.request hm cmd data stop hhost
  | move a pc hpc => exact ⟨hhost, h.link.move hpc, h.log.of_eq rfl rfl rfl rfl rfl rfl⟩
  | sample hpc => exact ⟨hhost, h.link.sample hpc, h.log.of_eq rfl rfl rfl rfl rfl rfl⟩
  | dataIrq d st hpc hd hany =>
    have hc := ok st hpc hany (by rw [hd]; simp)
    exact h.dataIrq hd hpc hc hhost
  | cmdIrq c st hpc hc hany => exact h.cmdIrq hc hpc hany hhost
  | cmdEvent c event resp resp' ha => exact h.cmdEvent ha event resp'
  | dataEvent | dmaEnd =>
    exact ⟨hhost, ⟨h.link.quiet, h.link.waiting⟩, h.log.of_eq rfl rfl rfl rfl rfl rfl⟩

/-! ### A request that is not ended -/

/-- A request under way has an outstanding command or data phase; a read has both. -/
structure LiveOk (s : Mmci) : Prop where
  read : ∀ c d, s.cmd = some c → c.data = some d → d.read = true → s.data ≠ none
  busy : ∀ r, s.mrq = some r → s.cmd ≠ none ∨ s.data ≠ none

private theorem LiveOk.request (hi : s.HostOk) (hm : s.mrq = none) (mrq : MmcRequest) :
    (mmciRequest s mrq).LiveOk := by
  obtain ⟨hc, -⟩ := hi.idle hm
  rcases mmciRequest_cases s mrq with he | ⟨d, hdata, -, he⟩ | ⟨hw, he⟩
  · rw [he]
    refine ⟨fun c _ h => ?_, fun r h => ?_⟩
    · exact absurd (hc.symm.trans h) (by simp)
    · exact absurd (hm.symm.trans h) (by simp)
  · rw [he, mmciStartData_eq rfl hdata]
    exact ⟨fun _ _ _ _ _ => by simp [mmciStartCommand],
      fun _ _ => .inl (by simp [mmciStartCommand])⟩
  · rw [he]
    refine ⟨fun c d hc hd hr => ?_, fun _ _ => .inl (by simp [mmciStartCommand])⟩
    cases hc
    rw [hw d hd] at hr
    cases hr

private theorem LiveOk.dataIrq (s : Mmci) (d : ReqData) (st : Status) :
    (mmciDataIrq s d st).LiveOk := by
  unfold mmciDataIrq
  dsimp only
  split
  · refine ⟨fun c _ h => ?_, fun r h => ?_⟩ <;> cases h
  · refine ⟨fun c e hc he _ => ?_, fun _ _ => .inl (by simp [mmciStartCommand])⟩
    cases hc
    cases (ReqCmd.data_eq_some he).1

private theorem LiveOk.cmdIrq (h : s.LiveOk) (hi : s.HostOk) (hc : s.cmd = some c)
    (st : Status) : (mmciCmdIrq s c st).LiveOk := by
  rcases mmciCmdIrq_cases s c st with ⟨-, he⟩ | ⟨d, hd, hr, he⟩ | ⟨d, hd, -, he⟩
  · rw [he]
    refine ⟨fun c _ h => ?_, fun r h => ?_⟩ <;> cases h
  · rw [he]
    refine ⟨fun c _ h => ?_, fun _ _ => .inr (h.read c d hc hd hr)⟩
    cases h
  · have hm : (cmdResult s c st).mrq = some c.req := hi.cmd c hc
    rw [he, mmciStartData_eq hm (ReqCmd.data_eq_some hd).2]
    refine ⟨fun c _ h => ?_, fun _ _ => .inr (by simp)⟩
    cases h

/-- Every step keeps a request waiting for something, or ends it. -/
theorem LiveOk.step (h : s.LiveOk) (hi : s.HostOk) {s' : Mmci} {a : MmciAct}
    (hstep : mmciStep s a = some s') : s'.LiveOk := by
  cases mmciStep_cases hstep with
  | request cmd data stop hm =>
    exact LiveOk.request hi.issue hm _
  | dataIrq d st => exact LiveOk.dataIrq s d st
  | cmdIrq c st _ hc => exact h.cmdIrq hi hc st
  | move | sample | cmdEvent | dataEvent | dmaEnd => exact ⟨h.read, h.busy⟩

/-- The probed host has no history. -/
theorem Probed.pairInv (h : s.Probed) : s.PairInv ∧ s.LiveOk := by
  have hhost := h.hostOk.1
  obtain ⟨hm, hc, -, ha, hst, -, -, -, hpc, -, hi, he, hl, -⟩ := h
  have hids : s.endedIds = [] := by rw [endedIds, he]; rfl
  have hcmd : ∀ c, s.cmd ≠ some c := fun c h => by simp [hc] at h
  have hmrq : ∀ r, s.mrq ≠ some r := fun r h => by simp [hm] at h
  have hnot : ∀ k, k ∉ s.endedIds := fun k h => by simp [hids] at h
  refine ⟨⟨hhost, ⟨fun _ => ⟨ha, hst, by rw [hpc]; rfl⟩, fun c h => absurd h (hcmd c)⟩,
    ⟨⟨fun k b _ => by rw [hl]; rfl, fun k b _ => hl k b, fun k b o ho => ?_⟩,
      fun c h => absurd h (hcmd c), fun r h => absurd h (hmrq r), fun r h => absurd h (hmrq r),
      fun r h => absurd h (hmrq r), by rw [hids]; exact List.nodup_nil,
      fun k h => absurd h (hnot k), fun k h => by omega, fun k h => absurd h (hnot k)⟩⟩,
    ⟨fun c _ h => absurd h (hcmd c), fun r h => absurd h (hmrq r)⟩⟩
  rw [hl] at ho
  cases ho

/-- What pairs requests and responses: no `BUG_ON`; every request issued so far, except the
current one, was ended exactly once; the current one waits for the event of its command or for
its data; an ended request was refused, or its command and its stop command, if sent, were
answered; and every answer is that command's own event. -/
structure PairOk (s : Mmci) : Prop where
  bug : s.bug = false
  once : s.endedIds.Nodup ∧ ∀ k, k ∈ s.endedIds ↔ k < s.issued ∧ ∀ r, s.mrq = some r → r.id ≠ k
  waits : ∀ r, s.mrq = some r → (∃ c, s.cmd = some c ∧ s.Waiting c) ∨ s.data ≠ none
  served : ∀ k ∈ s.endedIds, s.Served k
  own : ∀ k b o, (s.log k b).out = some o → ∃ e cmd, (s.log k b).event = some (e, o.1) ∧
    (s.log k b).sent = some cmd ∧ o.2 = e.bits.cmdError cmd

end Mmci

/-- In every run in which data events are handled only while no command is outstanding,
requests and responses are paired in every state. -/
theorem mmci_pairing {s : Mmci} (h : mmciSystem.Reach DataEventOk s) : s.PairOk := by
  obtain ⟨hi, hl⟩ : s.PairInv ∧ s.LiveOk := by
    refine @System.Reach.invariant _ _ _ _ (fun s => s.PairInv ∧ s.LiveOk) ?_ ?_ s h
    · exact fun _ hp => Mmci.Probed.pairInv hp
    · exact fun _ _ _ hi ok he => ⟨hi.1.step ok he, hi.2.step hi.1.host he⟩
  refine ⟨hi.host.bug, ⟨hi.log.nodup, fun k => ⟨fun hk => ?_, fun hk => ?_⟩⟩, fun r hr => ?_,
    hi.log.served, hi.log.own⟩
  · refine ⟨hi.log.lt k hk, fun r hr he => ?_⟩
    exact (hi.log.current r hr).2 (he ▸ hk)
  · rcases hi.log.all k hk.1 with hmem | ⟨r, hr, he⟩
    · exact hmem
    · exact absurd he (hk.2 r hr)
  · rcases hl.busy r hr with hc | hd
    · obtain ⟨c, hc⟩ := Option.ne_none_iff_exists'.mp hc
      exact .inl ⟨c, hc, hi.link.waiting c hc⟩
    · exact .inr hd

/-- A read whose command is answered in one pass of the handler and whose data ends in the
next is paired. -/
theorem mmci_pairing_read :
    ∃ s : Mmci, s.PairOk ∧ s.ended = [(0, 512)] ∧
      (s.log 0 false).out = some (⟨0x900, 0, 0, 0⟩, 0) := by
  have sampled := System.reach_of_exec [.request readBlock (some (blockAt 0xC0100000)) none,
    .cmdEvent .respEnd ⟨0x900, 0, 0, 0⟩, .irq] (reach_freshMmci DataEventOk)
    (by simp [DataEventOk]) rfl
  have answered : mmciSystem.Reach DataEventOk _ :=
    ((sampled.step (a := .run) (by rintro st ⟨⟩) rfl).step (a := .run)
      (by rintro st ⟨⟩ hany; cases hany) rfl).step (a := .run) (by rintro st ⟨⟩) rfl
  have transferred := System.reach_of_exec
    [.dataEvent ⟨false, false, false, false, false, true⟩] answered (by simp [DataEventOk]) rfl
  have ended : mmciSystem.Reach DataEventOk _ :=
    (transferred.step (a := .run) (by rintro st ⟨⟩) rfl).step (a := .run)
      (by rintro st ⟨⟩ - -; rfl) rfl
  exact ⟨_, mmci_pairing ended, rfl, rfl⟩

/-- `STOP_TRANSMISSION`. -/
def stopTransmission : MmcCommand := ⟨12, 0, true, false, true⟩

/-- With the response and the data end of a read in one status word, the request is ended and
its command never answered; with a stop command, that takes the response of the read. -/
theorem mmci_ends_unanswered :
    (∃ s, mmciSystem.Reach System.Always s ∧ 0 ∈ s.endedIds ∧ s.refused 0 = false ∧
        (s.log 0 false).event = some (.respEnd, ⟨0x900, 0, 0, 0⟩) ∧
        (s.log 0 false).out = none) ∧
      ∃ s, mmciSystem.Reach System.Always s ∧ (s.log 0 true).sent = some stopTransmission ∧
        (s.log 0 true).event = none ∧ (s.log 0 true).out = some (⟨0x900, 0, 0, 0⟩, 0) := by
  constructor
  · obtain ⟨s, he⟩ : ∃ s, mmciSystem.exec freshMmci
        [.request readBlock (some (blockAt 0xC0100000)) none,
          .cmdEvent .respEnd ⟨0x900, 0, 0, 0⟩,
          .dataEvent ⟨false, false, false, false, false, true⟩, .irq, .run, .run] = some s :=
      ⟨_, rfl⟩
    refine ⟨s, System.reach_of_exec _ (reach_freshMmci _) (fun _ _ _ => trivial) he, ?_⟩
    cases he
    exact ⟨List.mem_cons_self, rfl, rfl, rfl⟩
  · obtain ⟨s, he⟩ : ∃ s, mmciSystem.exec freshMmci
        [.request readBlock (some (blockAt 0xC0100000)) (some stopTransmission),
          .cmdEvent .respEnd ⟨0x900, 0, 0, 0⟩,
          .dataEvent ⟨false, false, false, false, false, true⟩, .irq, .run, .run, .run] =
          some s := ⟨_, rfl⟩
    refine ⟨s, System.reach_of_exec _ (reach_freshMmci _) (fun _ _ _ => trivial) he, ?_⟩
    cases he
    exact ⟨rfl, rfl, rfl⟩

end LinuxStm32.Drivers.Mmc
