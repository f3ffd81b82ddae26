/-
The driver with the capability library behind it (`tyche-capabilities`): the
driver's calls are forwarded to the library, and the library makes vmcalls.
Its state is what replaying the driver's log gives.
-/
import Tyche.Capa.Revocable
import Tyche.Capa.Status
import Tyche.Enclave.Commands

namespace Tyche.Enclave

open Tyche.Pts (Outcome)
open Tyche.Capa (Tracker Ledger covering)

/-! ## The log is truthful -/

/-- The answer is the one of the library. -/
def Event.Answered (env : Env) (log : List Event) : Event → Prop
  | .transferCapability domain start end_ tpe ok => ok = env.transferCapability log domain start end_ tpe
  | .revokeRegion domain start end_ ok => ok = env.revokeRegion log domain start end_
  | _ => True

/-- All answers of the library in the log are what it answered. -/
def Answers (env : Env) : List Event → Prop
  | [] => True
  | ev :: log => ev.Answered env log ∧ Answers env log

section Answers

variable {env : Env} {log log' : List Event}

theorem Answers.later {events : List Event} (h : Answers env (events ++ log)) : Answers env log := by
  induction events with
  | nil => exact h
  | cons ev events ih => exact ih h.2

/-- The event asks nothing of the library that it may refuse. -/
def Event.silent : Event → Bool
  | .transferCapability .. | .revokeRegion .. => false
  | _ => true

/-- The event takes a range back. -/
def Event.withdraws : Event → Bool
  | .revokeRegion .. => true
  | _ => false

theorem Event.silent_of_monitor {ev : Event} (h : ev.monitor = false) : ev.silent = true := by
  cases ev <;> first | rfl | cases h

theorem Event.withdraws_of_silent {ev : Event} (h : ev.silent = true) : ev.withdraws = false := by
  cases ev <;> first | rfl | cases h

/-- What was asked since is in the log with its answer, and took nothing back. -/
structure Asks (env : Env) (log log' : List Event) : Prop where
  answers : Answers env log → Answers env log'
  events : ∃ events, log' = events ++ log ∧ ∀ ev ∈ events, ev.withdraws = false

theorem Asks.trans {log'' : List Event} (h : Asks env log log') (h' : Asks env log' log'') : Asks env log log'' := by
  obtain ⟨events, rfl, hevents⟩ := h.events
  obtain ⟨events', rfl, hevents'⟩ := h'.events
  refine ⟨fun hlog => h'.answers (h.answers hlog), events' ++ events, (List.append_assoc ..).symm, fun ev hev => ?_⟩
  exact (List.mem_append.1 hev).elim (hevents' ev) (hevents ev)

theorem Asks.silent (events : List Event) (hlog : log' = events ++ log) (hevents : ∀ ev ∈ events, ev.silent = true) :
    Asks env log log' := by
  refine ⟨fun h => ?_, events, hlog, fun ev hev => Event.withdraws_of_silent (hevents ev hev)⟩
  subst hlog
  induction events with
  | nil => exact h
  | cons ev events ih =>
    refine ⟨?_, ih fun e he => hevents e (List.mem_cons_of_mem _ he)⟩
    have hev := hevents ev (List.mem_cons_self ..)
    cases ev <;> trivial

theorem transferPages_asks (env : Env) (encl : Encl) (pages : List PaRegion) (log : List Event) :
    Asks env log (transferPages env encl pages log).2 := by
  induction pages generalizing log with
  | nil => exact .silent [] rfl (by simp)
  | cons pa rest ih =>
    have hfirst : ∀ ok, env.transferCapability log encl.tycheHandle pa.start pa.end_ pa.tpe = ok →
        Asks env log (.transferCapability encl.tycheHandle pa.start pa.end_ pa.tpe ok :: log) :=
      fun ok hok => ⟨fun h => ⟨hok.symm, h⟩, [_], rfl, by simp [Event.withdraws]⟩
    cases hok : env.transferCapability log encl.tycheHandle pa.start pa.end_ pa.tpe with
    | false =>
      rw [transferPages, tycheSplitGrant, hok]
      exact hfirst false hok
    | true =>
      rw [transferPages, tycheSplitGrant, hok]
      exact (hfirst true hok).trans (ih _)

theorem commitFailure_asks (s : Site) (h : s.log = log) : Asks env log (commitFailure s).2.log := by
  subst h
  obtain ⟨frees, hlog, hfrees⟩ := commitFailure_log s
  refine .silent frees hlog fun ev hev => ?_
  obtain ⟨f, rfl⟩ := hfrees ev hev
  rfl

theorem commitTransfers_asks (env : Env) (commit : CommitMessage) (s : Site) :
    Asks env s.log (commitTransfers env commit s).2.log := by
  have hpages := transferPages_asks env s.encl s.encl.allPages s.log
  obtain ⟨ret, log, ht, ⟨-, hcase⟩ | ⟨invoke, hcase⟩⟩ := commitTransfers_cases env commit s
  · rw [ht] at hpages
    rw [hcase]
    exact hpages.trans (commitFailure_asks _ rfl)
  rw [ht] at hpages
  have hseal := hpages.trans (.silent [.sealDomain s.encl.tycheHandle s.encl.cr3 commit.entry commit.stack invoke]
    rfl (by simp [Event.silent]))
  rcases hcase with ⟨rfl, hcase⟩ | ⟨handle, rfl, hcase⟩
  · rw [hcase]
    exact hseal.trans (commitFailure_asks _ rfl)
  · rw [hcase]
    exact hseal

/-- **What a commit asks of the library** it gets an answer to, and it takes
nothing back. -/
theorem commitEnclave_asks (env : Env) (commit : CommitMessage) (s : Site) :
    Asks env s.log (Enclave.commitEnclave env commit s).2.log := by
  obtain ⟨mem, e, log, hprepares, hcase⟩ := commitEnclave_prepares env commit s
  obtain ⟨events, hlog, hquiet⟩ := hprepares.calls
  have hprepared : Asks env s.log log := .silent events hlog fun ev hev => Event.silent_of_monitor (hquiet ev hev)
  rcases hcase with ⟨o, -, heq⟩ | heq | heq
  · rw [heq]
    exact hprepared
  · rw [heq]
    exact hprepared.trans (commitFailure_asks _ rfl)
  · rw [heq]
    exact hprepared.trans (commitTransfers_asks env commit ⟨mem, log, e⟩)

theorem revokePages_answers (dom : Nat) (pages : List PaRegion) (h : Answers env log) :
    Answers env (revokePages env dom pages log).2 := by
  induction pages generalizing log with
  | nil => exact h
  | cons pa rest ih =>
    cases hok : env.revokeRegion log dom pa.start pa.end_ with
    | false =>
      rw [revokePages, tycheRevokeRegion, hok]
      exact ⟨hok.symm, h⟩
    | true =>
      rw [revokePages, tycheRevokeRegion, hok]
      exact ih ⟨hok.symm, h⟩

theorem deleteEnclave_answers {s : Driver} (pid handle : Nat) (h : Answers env s.log) :
    Answers env (s.deleteEnclave env pid handle).2.log := by
  unfold Driver.deleteEnclave
  split
  · exact h
  next c hfind =>
    have hpages := revokePages_answers c.elem.tycheHandle c.elem.allPages h
    dsimp only
    rcases hrevoke : revokePages env c.elem.tycheHandle c.elem.allPages s.log with ⟨ret, log⟩
    rw [hrevoke] at hpages
    dsimp only
    split_ifs <;> exact hpages

/-- **The log of a run is truthful.** -/
theorem run_answers {allowed : Driver → Nat → Command → Driver → Prop} {mem : Nat → Nat → Nat} {s : Driver}
    (h : Run env allowed (Driver.boot mem) s) : Answers env s.log := by
  induction h with
  | refl => trivial
  | @tail s t _ hstep ih =>
    obtain ⟨pid, cmd, out, heq, -, -⟩ := hstep
    have hchange := ioctl_change env pid s cmd
    rw [heq] at hchange
    have hsilent : ∀ events : List Event, (∀ ev ∈ events, ev.silent = true) → Answers env (events ++ s.log) :=
      fun events hevents => (Asks.silent events rfl hevents).answers ih
    cases hchange with
    | idle cmd tycheIds ks hks =>
      refine hsilent ks fun ev hev => ?_
      rcases hks ev hev with ⟨ok, rfl⟩ | rfl <;> rfl
    | debugged handle result index => exact hsilent [_] (by simp [Event.silent])
    | entered transition c ret result index hfind => exact hsilent [_] (by simp [Event.silent])
    | created out domain hnew => exact hsilent [_, _] (by simp [Event.silent])
    | region cmd region c ok ret stack hcmd hfind hcheck hstack hret => exact hsilent [_] (by simp [Event.silent])
    | committed commit out c o o' site hfind hcommit ho =>
      have hasks := commitEnclave_asks env commit ⟨s.mem, s.log, c.elem⟩
      rw [hcommit] at hasks
      exact hasks.answers ih
    | unrevoked handle _ _ _ _ _ | deleted handle _ _ _ =>
      have hdelete := deleteEnclave_answers pid handle ih
      have heq : s.deleteEnclave env pid handle = (_, _) := heq
      rwa [heq] at hdelete

end Answers

/-! ## The library -/

/-- What the library does for the driver (`tc_create_domain`,
`tc_transfer_capability`, `tc_seal_domain`, `tc_revoke_region`). -/
def Event.forward (env : Capa.Env) : Event → Tracker → Tracker
  | .createDomain _, t => (Capa.createDomain env t).2
  | .transferCapability domain start end_ tpe _, t => (Capa.transferCapa env domain start end_ tpe t).2
  | .sealDomain domain cr3 entry stack _, t => (Capa.sealDomain env domain cr3 entry stack t).2
  | .revokeRegion domain start end_ _, t => (Capa.revokeCapa env domain start end_ t).2
  | _, t => t

/-- The library once `tyche_capabilities_init` returned 0, with the monitor and
the allocator as they are after these events of the driver. The ranges the
monitor reported do not overlap. -/
structure Library where
  monitor : List Event → Capa.Env
  start : Tracker
  init : Capa.initDomain (monitor []) true true true .boot = (0, start)
  apart : ∀ a, covering a start.capabilities ≤ 1

/-- The library after these events of the driver. -/
def Library.after (lib : Library) : List Event → Tracker
  | [] => lib.start
  | ev :: log => ev.forward (lib.monitor log) (lib.after log)

/-- The driver's calls are forwarded to the library. A revocation that reads
through NULL kills the process that asked for it: for the driver it is one
that failed. -/
def Env.forwarding (env : Env) (lib : Library) : Env :=
  { env with
    createDomain := fun log => (Capa.createDomain (lib.monitor log) (lib.after log)).1
    transferCapability := fun log domain start end_ tpe =>
      decide ((Capa.transferCapa (lib.monitor log) domain start end_ tpe (lib.after log)).1 = 0)
    sealDomain := fun log domain cr3 entry stack =>
      (Capa.sealDomain (lib.monitor log) domain cr3 entry stack (lib.after log)).1
    revokeRegion := fun log domain start end_ =>
      decide ((Capa.revokeCapa (lib.monitor log) domain start end_ (lib.after log)).1 = .ret 0) }

/-- The call of the library, if it is one that works on its capabilities. -/
def Event.call : Event → Option Capa.Call
  | .transferCapability domain start end_ tpe _ => some (.transfer domain start end_ tpe)
  | .revokeRegion domain start end_ _ => some (.revoke domain start end_)
  | _ => none

section Forward

variable {env : Capa.Env} {ev : Event} {t : Tracker}

theorem forward_call {call : Capa.Call} (h : ev.call = some call) : ev.forward env t = (call.run env t).2 := by
  cases ev <;> first | cases h; rfl | cases h

/-- Other calls make one vmcall at most, which is not about a handle. -/
theorem forward_none (env : Capa.Env) (t : Tracker) (h : ev.call = none) : ev.forward env t = t ∨
    ∃ f a, f.delivers = false ∧ f.revokes = false ∧ ev.forward env t = { t with log := .vmcall f a :: t.log } := by
  cases ev with
  | createDomain domain =>
    obtain ⟨a, heq, -⟩ := Capa.tycheCall1_cases (Prod.eta (Capa.createDomain env t)).symm
    exact .inr ⟨_, a, rfl, rfl, heq⟩
  | sealDomain domain cr3 entry stack invoke =>
    obtain ⟨a, heq, -⟩ := Capa.tycheCall1_cases (Prod.eta (Capa.sealDomain env domain cr3 entry stack t)).symm
    exact .inr ⟨_, a, rfl, rfl, heq⟩
  | transferCapability | revokeRegion => cases h
  | allocPages | freePages | kmalloc | collect | transition => exact .inl rfl

/-- The accounts of the library are in order, and no address is in two of its
entries. -/
structure Orderly (t : Tracker) : Prop where
  ledger : Ledger t
  apart : ∀ a, covering a t.capabilities ≤ 1

theorem Orderly.path {es : List Capa.Effect} {t' : Tracker} (h : Orderly t) (hp : Capa.Path t es t') : Orderly t' :=
  hp.invariant (fun _ _ _ _ h hm => ⟨h.ledger.micro hm, fun a => (hm.coverage_le a _).trans (h.apart a)⟩) h

theorem Orderly.forward (h : Orderly t) (env : Capa.Env) (ev : Event) : Orderly (ev.forward env t) := by
  cases hcall : ev.call with
  | none =>
    rcases forward_none env t hcall with heq | ⟨f, a, h1, h2, heq⟩
    · rw [heq]
      exact h
    · rw [heq]
      exact ⟨h.ledger.vmcall a ⟨h1, h2⟩, h.apart⟩
  | some call =>
    obtain ⟨es, hp, -⟩ := Capa.Call.run_effects h.ledger.active (Prod.eta (call.run env t)).symm
    rw [forward_call hcall]
    exact h.path hp

theorem Orderly.log_suffix (h : Orderly t) (env : Capa.Env) (ev : Event) : t.log <:+ (ev.forward env t).log := by
  cases hcall : ev.call with
  | none =>
    rcases forward_none env t hcall with heq | ⟨f, a, -, -, heq⟩
    · simp only [heq, List.suffix_refl]
    · simp only [heq, List.suffix_cons]
  | some call =>
    obtain ⟨es, hp, -⟩ := Capa.Call.run_effects h.ledger.active (Prod.eta (call.run env t)).symm
    rw [forward_call hcall]
    exact hp.log_suffix

end Forward

theorem Library.orderly (lib : Library) (log : List Event) : Orderly (lib.after log) := by
  induction log with
  | nil => exact ⟨(Capa.initDomain_fresh lib.init).ledger, lib.apart⟩
  | cons ev log ih => exact ih.forward _ _

theorem Library.log_suffix (lib : Library) (events log : List Event) :
    (lib.after log).log <:+ (lib.after (events ++ log)).log := by
  induction events with
  | nil => exact List.suffix_refl _
  | cons ev events ih => exact ih.trans ((lib.orderly _).log_suffix _ ev)

/-! ## What domains hold -/

/-- A range that was transferred to a domain. -/
structure Due where
  domain : Nat
  start : Nat
  end_ : Nat
deriving DecidableEq, Repr

/-- An entry of the library holds a record of the domain for the range. -/
def Due.Held (d : Due) (t : Tracker) : Prop := d.start < d.end_ ∧ Capa.Held d.domain d.start d.end_ t

/-- No transfer so far was about to split an entry that holds revocation
handles. -/
def Library.Whole (lib : Library) : List Event → Prop
  | [] => True
  | ev :: log => ev.call.any (Capa.strips (lib.after log)) = false ∧ lib.Whole log

theorem Library.Whole.later {lib : Library} {events log : List Event} (h : lib.Whole (events ++ log)) : lib.Whole log := by
  induction events with
  | nil => exact h
  | cons ev events ih => exact ih h.2

instance Library.decidableWhole (lib : Library) : (log : List Event) → Decidable (lib.Whole log)
  | [] => .isTrue trivial
  | _ :: log => @instDecidableAnd _ _ _ (lib.decidableWhole log)

theorem splitsHeld_of_strips {dom start end_ : Nat} {t : Tracker} {call : Capa.Call} (h : Capa.strips t call = false) :
    Capa.splitsHeld dom start end_ t call = false := by
  cases call with
  | split | revoke => rfl
  | transfer dom' start' end' tpe =>
    unfold Capa.strips at h
    unfold Capa.splitsHeld
    dsimp only at h ⊢
    split
    · rfl
    next curr hfind =>
      rw [hfind] at h
      dsimp only at h
      -- An entry without handles holds no record.
      rw [Bool.and_eq_false_iff] at h ⊢
      refine h.imp_right fun hnone => ?_
      have hrevoks : curr.elem.revoks = [] := by simpa using hnone
      simp [Capa.Capability.holds, hrevoks]

section Held

variable {env : Env} {lib : Library} {d : Due} {log : List Event}

/-- A call of which no effect loses the record keeps it, as do the others. -/
theorem Due.Held.forward (h : d.Held (lib.after log)) (ev : Event)
    (hcall : ∀ call es, ev.call = some call → Capa.Path (lib.after log) es (call.run (lib.monitor log) (lib.after log)).2 →
      call.Effects (lib.after log) es (call.run (lib.monitor log) (lib.after log)).1 →
      ∀ e ∈ es, e.loses d.domain d.start d.end_ = false) : d.Held (lib.after (ev :: log)) := by
  refine ⟨h.1, ?_⟩
  show Capa.Held d.domain d.start d.end_ (ev.forward (lib.monitor log) (lib.after log))
  have horderly := lib.orderly log
  cases hev : ev.call with
  | none =>
    rcases forward_none (lib.monitor log) (lib.after log) hev with heq | ⟨f, a, -, -, heq⟩
    · rw [heq]
      exact h.2
    · rw [heq]
      exact h.2
  | some call =>
    rw [forward_call hev]
    obtain ⟨es, hp, hes⟩ := Capa.Call.run_effects horderly.ledger.active (Prod.eta (call.run (lib.monitor log) (lib.after log))).symm
    exact h.2.path horderly.ledger hp (hcall call es hev hp hes)

theorem Library.Whole.strips {ev : Event} {call : Capa.Call} (h : lib.Whole (ev :: log)) (hcall : ev.call = some call) :
    Capa.strips (lib.after log) call = false := by
  have hany := h.1
  rwa [hcall] at hany

/-- One event: it is no split of an entry that holds handles, and no
revocation of this range. -/
theorem Due.Held.event {ev : Event} (h : d.Held (lib.after log)) (hwhole : lib.Whole (ev :: log))
    (hev : ev.Answered (env.forwarding lib) log)
    (hrevoke : ∀ domain start end_ ok, ev = .revokeRegion domain start end_ ok → ok = true ∧ d ≠ ⟨domain, start, end_⟩) :
    d.Held (lib.after (ev :: log)) := by
  refine h.forward ev fun call es hcall hp hes => ?_
  have hsplit : Capa.splitsHeld d.domain d.start d.end_ (lib.after log) call = false := splitsHeld_of_strips (hwhole.strips hcall)
  cases ev with
  | transferCapability domain start end_ tpe ok =>
    cases hcall
    have hkeeps : Capa.Keeps d.domain d.start d.end_ (lib.after log) (.transfer domain start end_ tpe)
        ((Capa.Call.transfer domain start end_ tpe).run (lib.monitor log) (lib.after log)).1 :=
      ⟨rfl, hsplit, fun h => nomatch h.1⟩
    exact hkeeps.effects hes (by simp [Capa.Call.run])
  | revokeRegion domain start end_ ok =>
    cases hcall
    obtain ⟨rfl, hne⟩ := hrevoke _ _ _ _ rfl
    have hret : ((Capa.Call.revoke domain start end_).run (lib.monitor log) (lib.after log)).1 = .ret 0 :=
      of_decide_eq_true hev.symm
    have hkeeps : Capa.Keeps d.domain d.start d.end_ (lib.after log) (.revoke domain start end_)
        ((Capa.Call.revoke domain start end_).run (lib.monitor log) (lib.after log)).1 := by
      refine ⟨rfl, hsplit, fun h => hne ?_⟩
      obtain ⟨rfl, rfl, rfl⟩ := Capa.Call.revoke.inj h.1
      rfl
    exact hkeeps.effects hes (by simp [hret])
  | allocPages | freePages | kmalloc | collect | createDomain | sealDomain | transition => cases hcall

/-- It is held after any such events. -/
theorem Due.Held.events {events : List Event} (h : d.Held (lib.after log)) (hwhole : lib.Whole (events ++ log))
    (hanswers : Answers (env.forwarding lib) (events ++ log))
    (hrevoke : ∀ domain start end_ ok, .revokeRegion domain start end_ ok ∈ events → ok = true ∧ d ≠ ⟨domain, start, end_⟩) :
    d.Held (lib.after (events ++ log)) := by
  induction events with
  | nil => exact h
  | cons ev events ih =>
    have hbefore := ih hwhole.2 hanswers.2 fun domain start end_ ok hmem => hrevoke _ _ _ _ (List.mem_cons_of_mem _ hmem)
    exact hbefore.event hwhole hanswers.1 fun domain start end_ ok heq => hrevoke _ _ _ _ (heq ▸ List.mem_cons_self ..)

/-- An accepted transfer gives the range to the domain, which did not hold it. -/
theorem held_of_transfer {domain start end_ tpe : Nat}
    (h : (Event.transferCapability domain start end_ tpe true).Answered (env.forwarding lib) log) :
    Due.Held ⟨domain, start, end_⟩ (lib.after (.transferCapability domain start end_ tpe true :: log)) ∧
      ¬ Due.Held ⟨domain, start, end_⟩ (lib.after log) := by
  have hret : (Capa.transferCapa (lib.monitor log) domain start end_ tpe (lib.after log)).1 = 0 := of_decide_eq_true h.symm
  have horderly := lib.orderly log
  exact ⟨Capa.transferCapa_held (Prod.ext hret rfl),
    fun hheld => hheld.2.transfer_refused horderly.ledger (horderly.apart start) hret⟩

/-- Nothing was taken back: what was held still is. -/
theorem Due.Held.kept {events : List Event} (h : d.Held (lib.after log)) (hwhole : lib.Whole (events ++ log))
    (hanswers : Answers (env.forwarding lib) (events ++ log)) (hquiet : ∀ ev ∈ events, ev.withdraws = false) :
    d.Held (lib.after (events ++ log)) :=
  h.events hwhole hanswers fun _ _ _ _ hmem => nomatch hquiet _ hmem

/-- What was transferred by then is held, and is nothing that was held before. -/
theorem held_of_transferred {events : List Event} {tpe : Nat} (hwhole : lib.Whole (events ++ log))
    (hanswers : Answers (env.forwarding lib) (events ++ log)) (hquiet : ∀ ev ∈ events, ev.withdraws = false)
    (hev : .transferCapability d.domain d.start d.end_ tpe true ∈ events) :
    d.Held (lib.after (events ++ log)) ∧ ∀ o : Due, o.Held (lib.after log) → o ≠ d := by
  obtain ⟨later, before, rfl⟩ := List.append_of_mem hev
  rw [List.append_assoc, List.cons_append] at hwhole hanswers ⊢
  have hwhole' := hwhole.later
  have hanswers' := hanswers.later
  obtain ⟨hheld, hnot⟩ := held_of_transfer hanswers'.1
  refine ⟨hheld.kept hwhole hanswers fun ev hmem => hquiet ev (by simp [hmem]), fun o ho heq => hnot ?_⟩
  subst heq
  exact ho.kept hwhole'.2 hanswers'.2 fun ev hmem => hquiet ev (by simp [hmem])

end Held

/-! ## What the library asks of the monitor -/

/-- The vmcalls and allocations of the library since. -/
def Library.asked (lib : Library) (s t : Driver) : List Capa.Event := Capa.newEvents (lib.after s.log) (lib.after t.log)

theorem newEvents_trans {s t u : Tracker} (h : s.log <:+ t.log) (h' : t.log <:+ u.log) :
    Capa.newEvents s u = Capa.newEvents t u ++ Capa.newEvents s t := by
  obtain ⟨evs, hs⟩ := h
  obtain ⟨evs', ht⟩ := h'
  rw [Capa.newEvents_append hs.symm, Capa.newEvents_append ht.symm]
  refine Capa.newEvents_append ?_
  rw [← ht, ← hs, List.append_assoc]

/-- Where no revocation was accepted, what was held still is. -/
theorem Due.Held.unrevoked {lib : Library} {d : Due} {log events : List Event} (h : d.Held (lib.after log))
    (hwhole : lib.Whole (events ++ log))
    (hnone : Capa.revoked (Capa.newEvents (lib.after log) (lib.after (events ++ log))) = []) :
    d.Held (lib.after (events ++ log)) := by
  induction events with
  | nil => exact h
  | cons ev events ih =>
    have hstep : (lib.after (events ++ log)).log <:+ (lib.after (ev :: events ++ log)).log := lib.log_suffix [ev] _
    rw [newEvents_trans (lib.log_suffix events log) hstep, Capa.revoked_append] at hnone
    obtain ⟨hlast, hnone⟩ := List.append_eq_nil_iff.1 hnone
    refine (ih hwhole.2 hnone).forward ev fun call es hcall hp hes => ?_
    have hapi : call.isApi = true := by cases ev <;> cases hcall <;> rfl
    have hstrips := hes.strips hapi (hwhole.strips hcall)
    -- The effects revoke the handles of the revocations that were accepted.
    obtain ⟨handles, heq, hhandles⟩ := hp.revoked
    have hnil : handles = [] := by
      obtain ⟨evs, hevs⟩ := hstep
      rw [Capa.newEvents_append hevs.symm] at hlast
      have hlog : (lib.after (ev :: events ++ log)).log = (call.run (lib.monitor (events ++ log)) (lib.after (events ++ log))).2.log :=
        congrArg Tracker.log (forward_call hcall)
      rw [← hlog, ← hevs, Capa.revoked_append, hlast, List.nil_append] at heq
      exact List.self_eq_append_left.1 heq
    intro e he
    cases e with
    | split c addr =>
      have hrevoks : c.revoks = [] := by simpa [Capa.Effect.strips] using hstrips _ he
      simp [Capa.Effect.loses, Capa.Capability.holds, hrevoks]
    | revoke c r => cases hhandles hnil _ he
    | idle | deliver | merge => rfl

end Tyche.Enclave
