/-
What a command does to the driver (`tyche_enclave_ioctl`): one constructor
for each thing it can do. Only the creator of an enclave changes it, or has
the monitor called for it, but for the transition of the debug command.
-/
import Tyche.Enclave.AddressSpace
import Tyche.Enclave.Effects

namespace Tyche.Enclave

open Tyche.Pts (Outcome)

section Find

variable {pid handle : Nat} {enclaves : List Encl} {c : Cursor Encl}

/-- The enclave found is the first with the handle, and the process created it. -/
theorem findEnclave_some (h : findEnclave pid handle enclaves = some c) :
    c.list = enclaves ∧ c.elem.handle = handle ∧ c.elem.pid = pid ∧ ∀ encl ∈ c.before, encl.handle ≠ handle := by
  unfold findEnclave at h
  split at h
  · cases h
  next encl hfind =>
    split at h
    · cases h
    next hpid =>
      obtain rfl := Option.some.inj h
      obtain ⟨hlist, hhandle, hbefore⟩ := Cursor.find_some hfind
      exact ⟨hlist, by simpa using hhandle, not_not.1 hpid, fun e he => by simpa using hbefore e he⟩

/-- It is found again after it was changed. -/
theorem findEnclave_put (h : findEnclave pid handle enclaves = some c) {e : Encl} (hhandle : e.handle = c.elem.handle)
    (hpid : e.pid = c.elem.pid) : findEnclave pid handle (c.put e).list = some (c.put e) := by
  obtain ⟨-, h1, h2, h3⟩ := findEnclave_some h
  have hfind : Cursor.find (fun encl => encl.handle == handle) (c.put e).list = some (c.put e) :=
    Cursor.find_list (c.put e) (by simpa using h3) (by simp [hhandle, h1])
  unfold findEnclave
  rw [hfind]
  simp [hpid, h2]

end Find

/-! ## What a command does -/

/-- The revocations of these pages, with the monitor's answer. -/
def revocations (dom : Nat) (ok : Bool) (pages : List PaRegion) : List Event :=
  (pages.map fun pa => Event.revokeRegion dom pa.start pa.end_ ok).reverse

/-- Either all pages are revoked, or those before one that is refused. -/
theorem revokePages_cases (env : Env) (dom : Nat) (pages : List PaRegion) (log : List Event) :
    revokePages env dom pages log = (0, revocations dom true pages ++ log) ∨
    ∃ done pa rest, pages = done ++ pa :: rest ∧
      revokePages env dom pages log = (-1, revocations dom false [pa] ++ revocations dom true done ++ log) := by
  induction pages generalizing log with
  | nil => exact .inl rfl
  | cons pa pages ih =>
    cases hok : env.revokeRegion log dom pa.start pa.end_ with
    | false =>
      right
      refine ⟨[], pa, pages, rfl, ?_⟩
      rw [revokePages, tycheRevokeRegion, hok]
      rfl
    | true =>
      have hcons : revokePages env dom (pa :: pages) log =
          revokePages env dom pages (.revokeRegion dom pa.start pa.end_ true :: log) := by
        rw [revokePages, tycheRevokeRegion, hok]
        rfl
      rw [hcons]
      rcases ih (.revokeRegion dom pa.start pa.end_ true :: log) with h | ⟨done, q, rest, rfl, h⟩
      · left
        rw [h]
        simp [revocations]
      · right
        refine ⟨pa :: done, q, rest, rfl, ?_⟩
        rw [h]
        simp [revocations]

/-- The driver after a change of the enclave found, with what was done. -/
def Driver.with (s : Driver) (c : Cursor Encl) (e : Encl) (events : List Event) : Driver :=
  { s with enclaves := (c.put e).list, log := events ++ s.log }

/-- What a command of the process `pid` does. -/
inductive Change (env : Env) (pid : Nat) (s : Driver) : Command → Outcome Int → Driver → Prop
  | idle (cmd : Command) (tycheIds : Nat) (ks : List Event)
      (hks : ∀ k ∈ ks, (∃ ok, k = .kmalloc ok) ∨ k = .createDomain none) :
      Change env pid s cmd (.ret (-1)) { s with tycheIds := tycheIds, log := ks ++ s.log }
  | debugged (handle result index : Nat) :
      Change env pid s (.dbg handle) (.ret 0) (s.record (.transition handle 0 result index))
  | entered (transition : Transition) (c : Cursor Encl) (ret : Int) (result index : Nat)
      (h : findEnclave pid transition.handle s.enclaves = some c) :
      Change env pid s (.transition (some transition)) (.ret ret)
        (s.with c { c.elem with invoke := index } [.transition c.elem.invoke transition.args result index])
  | created (out : Bool) (domain : Nat) (hnew : ∀ encl ∈ s.enclaves, encl.handle ≠ s.tycheIds) :
      Change env pid s (.create out) (.ret (copied out 0))
        { s with
          enclaves := s.enclaves ++ [{ pid := pid, handle := s.tycheIds, tycheHandle := domain }]
          tycheIds := add64 s.tycheIds 1
          log := .createDomain (some domain) :: .kmalloc true :: s.log }
  | region (cmd : Command) (region : AddRegion) (c : Cursor Encl) (ok : Bool) (ret : Int) (stack : Nat)
      (hcmd : cmd = .addRegion (some region) ∨ cmd = .addStack (some region))
      (h : findEnclave pid region.handle s.enclaves = some c) (hcheck : regionCheck region = true)
      (hstack : stack = c.elem.stack ∨ stack = region.end_)
      (hret : ret = 0 ↔ (Enclave.addRegion ok region c.elem.regions).1 = 0) :
      Change env pid s cmd (.ret ret)
        (s.with c { c.elem with regions := (Enclave.addRegion ok region c.elem.regions).2, stack := stack } [.kmalloc ok])
  | committed (commit : CommitMessage) (out : Bool) (c : Cursor Encl) (o o' : Outcome Int) (site : Site)
      (h : findEnclave pid commit.handle s.enclaves = some c)
      (hcommit : Enclave.commitEnclave env commit ⟨s.mem, s.log, c.elem⟩ = (o, site)) (ho : o = .freed → o' = .freed) :
      Change env pid s (.commit commit out) o'
        { s with
          enclaves := (c.put site.encl).list
          otherCr3 := if o = .ret 0 then site.encl.cr3 else s.otherCr3
          mem := site.mem
          log := site.log }
  | unrevoked (handle : Nat) (c : Cursor Encl) (o : Outcome Int) (events : List Event)
      (h : findEnclave pid handle s.enclaves = some c)
      (hrevoke : o = .ret (-1) ∧ (∃ done pa rest, c.elem.allPages = done ++ pa :: rest ∧
          events = revocations c.elem.tycheHandle false [pa] ++ revocations c.elem.tycheHandle true done) ∨
        o = .freed ∧ events = revocations c.elem.tycheHandle true c.elem.allPages) :
      Change env pid s (.delete handle) o { s with log := events ++ s.log }
  | deleted (handle : Nat) (c : Cursor Encl) (h : findEnclave pid handle s.enclaves = some c)
      (hstale : ∀ r ∈ c.elem.regions, r.stale = false) :
      Change env pid s (.delete handle) (.ret 0)
        { s with enclaves := c.remove, log := revocations c.elem.tycheHandle true c.elem.allPages ++ s.log }

section Change

variable (env : Env) (pid : Nat) (s : Driver)

/-- Nothing is done. -/
theorem Change.none (cmd : Command) : Change env pid s cmd (.ret (-1)) s := .idle cmd s.tycheIds [] (by simp)

theorem enclaveTransition_change (transition : Transition) :
    Change env pid s (.transition (some transition)) (.ret (s.enclaveTransition env pid transition).1)
      (s.enclaveTransition env pid transition).2 := by
  unfold Driver.enclaveTransition
  split
  · exact .none ..
  next c h => exact .entered transition c _ _ _ h

theorem create_change (out : Bool) :
    Change env pid s (.create out) (s.ioctl env pid (.create out)).1 (s.ioctl env pid (.create out)).2 := by
  show Change env pid s _ (.ret (copied out (Driver.addEnclave env pid s.tycheIds
    { s with tycheIds := add64 s.tycheIds 1 }).1)) (Driver.addEnclave env pid s.tycheIds
      { s with tycheIds := add64 s.tycheIds 1 }).2
  unfold Driver.addEnclave
  dsimp only [Driver.record]
  have hfailed : copied out (-1) = -1 := if_neg (by simp)
  split
  · rw [hfailed]
    exact .idle _ (add64 s.tycheIds 1) [] (by simp)
  next hnew =>
  split
  · rw [hfailed]
    exact .idle _ (add64 s.tycheIds 1) [_] (by simp)
  next hok =>
  rw [Bool.not_eq_false] at hok
  rw [hok]
  split
  next hdom =>
    rw [hdom, hfailed]
    exact .idle _ (add64 s.tycheIds 1) [_, _] (by simp)
  next domain hdom =>
    rw [hdom]
    exact .created out domain fun encl hencl heq => hnew (List.any_eq_true.2 ⟨encl, hencl, by simp [heq]⟩)

/-- What adding a region does, apart from the stack. -/
theorem driver_addRegion_cases (region : AddRegion) :
    s.addRegion env pid region = (-1, s) ∨
    ∃ c ok, findEnclave pid region.handle s.enclaves = some c ∧ regionCheck region = true ∧
      s.addRegion env pid region = ((Enclave.addRegion ok region c.elem.regions).1,
        s.with c { c.elem with regions := (Enclave.addRegion ok region c.elem.regions).2 } [.kmalloc ok]) := by
  unfold Driver.addRegion
  split
  · exact .inl rfl
  next c h =>
    split
    · exact .inl rfl
    next hcheck => exact .inr ⟨c, env.kmalloc s.log, h, by simpa using hcheck, rfl⟩

theorem addRegion_change (region : AddRegion) :
    Change env pid s (.addRegion (some region)) (.ret (s.addRegion env pid region).1) (s.addRegion env pid region).2 := by
  rcases driver_addRegion_cases env pid s region with h | ⟨c, ok, hfind, hcheck, h⟩
  · rw [h]
    exact .none ..
  · rw [h]
    exact .region _ region c ok _ c.elem.stack (.inl rfl) hfind hcheck (.inl rfl) Iff.rfl

theorem addStackRegion_change (region : AddRegion) :
    Change env pid s (.addStack (some region)) (.ret (s.addStackRegion env pid region).1)
      (s.addStackRegion env pid region).2 := by
  unfold Driver.addStackRegion
  rcases driver_addRegion_cases env pid s region with h | ⟨c, ok, hfind, hcheck, h⟩
  · rw [h]
    exact .none ..
  · rw [h]
    dsimp only
    split
    next hret => exact .region _ region c ok _ c.elem.stack (.inr rfl) hfind hcheck (.inl rfl) (by simp [hret])
    next hret =>
      have hagain := findEnclave_put hfind (e := { c.elem with regions := (Enclave.addRegion ok region c.elem.regions).2 })
        rfl rfl
      have hlist : (s.with c { c.elem with regions := (Enclave.addRegion ok region c.elem.regions).2 }
          [.kmalloc ok]).enclaves =
          (c.put { c.elem with regions := (Enclave.addRegion ok region c.elem.regions).2 }).list := rfl
      rw [hlist, hagain]
      exact .region _ region c ok _ region.end_ (.inr rfl) hfind hcheck (.inr rfl) (by simp [not_not.1 hret])

theorem commit_change (commit : CommitMessage) (out : Bool) :
    Change env pid s (.commit commit out) (s.ioctl env pid (.commit commit out)).1
      (s.ioctl env pid (.commit commit out)).2 := by
  unfold Driver.ioctl Driver.commitEnclave
  dsimp only
  cases h : findEnclave pid commit.handle s.enclaves with
  | none => exact .none ..
  | some c =>
    dsimp only
    rcases hcommit : Enclave.commitEnclave env commit ⟨s.mem, s.log, c.elem⟩ with ⟨o, site⟩
    cases o with
    | ret ret => exact .committed commit out c _ _ site h hcommit (by simp)
    | fault => exact .committed commit out c _ _ site h hcommit (by simp)
    | freed => exact .committed commit out c _ _ site h hcommit fun h => h

theorem deleteEnclave_change (handle : Nat) :
    Change env pid s (.delete handle) (s.deleteEnclave env pid handle).1 (s.deleteEnclave env pid handle).2 := by
  unfold Driver.deleteEnclave
  cases h : findEnclave pid handle s.enclaves with
  | none => exact .none ..
  | some c =>
    dsimp only
    rcases revokePages_cases env c.elem.tycheHandle c.elem.allPages s.log with heq | ⟨done, pa, rest, hpages, heq⟩
    · rw [heq]
      dsimp only
      rw [if_neg (by simp)]
      split
      · exact .unrevoked handle c _ _ h (.inr ⟨rfl, rfl⟩)
      next hstale => exact .deleted handle c h (by simpa using hstale)
    · rw [heq]
      exact .unrevoked handle c _ _ h (.inl ⟨rfl, done, pa, rest, hpages, rfl⟩)

/-- **What a command does** is one of the changes. -/
theorem ioctl_change (cmd : Command) :
    Change env pid s cmd (s.ioctl env pid cmd).1 (s.ioctl env pid cmd).2 := by
  cases cmd with
  | dbg handle => exact .debugged handle _ _
  | transition transition =>
    cases transition with
    | none => exact .none ..
    | some transition => exact enclaveTransition_change env pid s transition
  | delete handle => exact deleteEnclave_change env pid s handle
  | create out => exact create_change env pid s out
  | addRegion region =>
    cases region with
    | none => exact .none ..
    | some region => exact addRegion_change env pid s region
  | commit commit out => exact commit_change env pid s commit out
  | addStack region =>
    cases region with
    | none => exact .none ..
    | some region => exact addStackRegion_change env pid s region
  | other => exact .none ..

end Change

/-! ## Only the creator acts on an enclave -/

/-- The event is a call of the monitor for a domain. -/
def Event.monitor : Event → Bool
  | .transferCapability .. | .sealDomain .. | .revokeRegion .. | .transition .. => true
  | _ => false

/-- The call is on a handle of the enclave. -/
def Event.On (encl : Encl) : Event → Prop
  | .transferCapability domain .. | .sealDomain domain .. | .revokeRegion domain .. => domain = encl.tycheHandle
  | .transition handle .. => handle = encl.invoke
  | _ => False

/-- The enclave is still the same one. -/
structure Identity (e f : Encl) : Prop where
  pid : f.pid = e.pid
  handle : f.handle = e.handle
  tycheHandle : f.tycheHandle = e.tycheHandle

theorem Effect.identity {x y : Encl × List Event} (h : Effect x y) : Identity x.1 y.1 := by
  cases h with
  | prepare h => cases h <;> exact ⟨rfl, rfl, rfl⟩
  | transfer | sealing => exact ⟨rfl, rfl, rfl⟩

/-- A preparation calls nobody. -/
theorem Preparation.calls {x y : Encl × List Event} (h : Preparation x y) :
    ∃ events, y.2 = events ++ x.2 ∧ ∀ ev ∈ events, ev.monitor = false := by
  cases h with
  | kmalloc e log ok => exact ⟨[_], rfl, by simp [Event.monitor]⟩
  | collect e log before after r f h hf => exact ⟨[_], rfl, by simp [Event.monitor]⟩
  | noPage e log ans h => exact ⟨[_], rfl, by simp [Event.monitor]⟩
  | unused e log f ks allPages hf hks h =>
    refine ⟨.freePages f :: ks ++ [.allocPages (some f)], by simp, fun ev hev => ?_⟩
    have hev : ev = .freePages f ∨ ev ∈ ks ∨ ev = .allocPages (some f) := by simpa using hev
    rcases hev with rfl | hev | rfl
    · rfl
    · obtain ⟨ok, rfl⟩ := hks ev hev
      rfl
    · rfl
  | table e log f hf => exact ⟨[_, _, _], rfl, by simp [Event.monitor]⟩
  | root e log cr3 => exact ⟨[], rfl, by simp⟩
  | merge e log r pa hr hpa => exact ⟨[_], rfl, by simp [Event.monitor]⟩

theorem Preparations.calls {x y : Encl × List Event} (h : Preparations x y) :
    ∃ events, y.2 = events ++ x.2 ∧ ∀ ev ∈ events, ev.monitor = false := by
  induction h with
  | refl => exact ⟨[], rfl, by simp⟩
  | tail _ hstep ih =>
    obtain ⟨events, hlog, hcalls⟩ := ih
    obtain ⟨last, hlog', hcalls'⟩ := hstep.calls
    refine ⟨last ++ events, by rw [hlog', hlog, List.append_assoc], fun ev hev => ?_⟩
    exact (List.mem_append.1 hev).elim (hcalls' ev) (hcalls ev)

/-- An effect calls the monitor for the domain of the enclave only. -/
theorem Effect.calls {x y : Encl × List Event} (h : Effect x y) {dom : Nat} (hdom : x.1.tycheHandle = dom) :
    ∃ events, y.2 = events ++ x.2 ∧ ∀ ev ∈ events, ev.monitor = true → ∀ encl : Encl, encl.tycheHandle = dom → ev.On encl := by
  cases h with
  | prepare h =>
    obtain ⟨events, hlog, hquiet⟩ := h.calls
    refine ⟨events, hlog, fun ev hev hcall => ?_⟩
    rw [hquiet ev hev] at hcall
    cases hcall
  | transfer e log pa ok h =>
    refine ⟨[_], rfl, fun ev hev _ encl hencl => ?_⟩
    obtain rfl := List.mem_singleton.1 hev
    exact hdom.trans hencl.symm
  | sealing e log stack entry invoke =>
    refine ⟨[_], rfl, fun ev hev _ encl hencl => ?_⟩
    obtain rfl := List.mem_singleton.1 hev
    exact hdom.trans hencl.symm

theorem Effects.identity {x y : Encl × List Event} (h : Effects x y) : Identity x.1 y.1 := by
  induction h with
  | refl => exact ⟨rfl, rfl, rfl⟩
  | tail _ hstep ih =>
    have hlast := hstep.identity
    exact ⟨hlast.pid.trans ih.pid, hlast.handle.trans ih.handle, hlast.tycheHandle.trans ih.tycheHandle⟩

theorem Effects.calls {x y : Encl × List Event} (h : Effects x y) :
    ∃ events, y.2 = events ++ x.2 ∧ ∀ ev ∈ events, ev.monitor = true → ev.On x.1 := by
  induction h with
  | refl => exact ⟨[], rfl, by simp⟩
  | tail hsteps hstep ih =>
    obtain ⟨events, hlog, hcalls⟩ := ih
    obtain ⟨last, hlog', hcalls'⟩ := hstep.calls (Effects.identity hsteps).tycheHandle
    refine ⟨last ++ events, by rw [hlog', hlog, List.append_assoc], fun ev hev hcall => ?_⟩
    rcases List.mem_append.1 hev with hev | hev
    · exact hcalls' ev hev hcall _ rfl
    · exact hcalls ev hev hcall

/-- A commit takes nothing back. -/
theorem Effects.nothing_revoked {x y : Encl × List Event} (h : Effects x y) : ∃ events, y.2 = events ++ x.2 ∧
    ∀ dom start end_ ok, .revokeRegion dom start end_ ok ∉ events := by
  induction h with
  | refl => exact ⟨[], rfl, by simp⟩
  | tail _ hstep ih =>
    obtain ⟨events, hlog, hnone⟩ := ih
    cases hstep with
    | prepare hstep =>
      obtain ⟨last, hlast, hquiet⟩ := hstep.calls
      refine ⟨last ++ events, by rw [hlast, hlog, List.append_assoc], fun dom start end_ ok hmem => ?_⟩
      rcases List.mem_append.1 hmem with hmem | hmem
      · exact Bool.noConfusion (hquiet _ hmem)
      · exact hnone dom start end_ ok hmem
    | transfer e log pa ok h => exact ⟨_ :: events, congrArg (_ :: ·) hlog, by simpa using hnone⟩
    | sealing e log stack entry invoke => exact ⟨_ :: events, congrArg (_ :: ·) hlog, by simpa using hnone⟩

theorem commitFailure_log (s : Site) :
    ∃ frees, (commitFailure s).2.log = frees ++ s.log ∧ ∀ ev ∈ frees, ∃ f, ev = Event.freePages f := by
  unfold commitFailure
  split
  · exact ⟨[], rfl, by simp⟩
  · refine ⟨_, rfl, fun ev hev => ?_⟩
    obtain ⟨r, -, rfl⟩ := List.mem_map.1 (List.mem_reverse.1 hev)
    exact ⟨r.start, rfl⟩

theorem commitFailure_identity (s : Site) : Identity s.encl (commitFailure s).2.encl := by
  unfold commitFailure
  split <;> exact ⟨rfl, rfl, rfl⟩

theorem commitEnclave_calls (env : Env) (commit : CommitMessage) (s : Site) :
    Identity s.encl (Enclave.commitEnclave env commit s).2.encl ∧
      ∃ events, (Enclave.commitEnclave env commit s).2.log = events ++ s.log ∧
        ∀ ev ∈ events, ev.monitor = true → ev.On s.encl := by
  obtain ⟨mem, e, log, heff, hcase⟩ := commitEnclave_effects env commit s
  have hid := heff.identity
  obtain ⟨events, hlog, hcalls⟩ := heff.calls
  rcases hcase with ⟨o, -, heq⟩ | heq
  · rw [heq]
    exact ⟨hid, events, hlog, hcalls⟩
  · rw [heq]
    have hfail := commitFailure_identity ⟨mem, log, e⟩
    obtain ⟨frees, hfrees, hfree⟩ := commitFailure_log ⟨mem, log, e⟩
    refine ⟨⟨hfail.pid.trans hid.pid, hfail.handle.trans hid.handle, hfail.tycheHandle.trans hid.tycheHandle⟩,
      frees ++ events, ?_, fun ev hev hcall => ?_⟩
    · rw [hfrees, List.append_assoc]
      exact congrArg (frees ++ ·) hlog
    · rcases List.mem_append.1 hev with hev | hev
      · obtain ⟨f, rfl⟩ := hfree ev hev
        cases hcall
      · exact hcalls ev hev hcall

theorem put_filter {c : Cursor Encl} {e : Encl} {p : Encl → Bool} (he : p e = false) (hc : p c.elem = false) :
    (c.put e).list.filter p = c.list.filter p := by
  simp [Cursor.list, he, hc]

theorem put_handles {c : Cursor Encl} {e : Encl} (h : e.handle = c.elem.handle) :
    (c.put e).list.map (·.handle) = c.list.map (·.handle) := by
  simp [Cursor.list, h]

/-- What a command leaves of the enclaves: those of other processes, and
distinct handles. -/
structure Respects (pid : Nat) (l l' : List Encl) : Prop where
  others : l'.filter (·.pid ≠ pid) = l.filter (·.pid ≠ pid)
  handles : (l.map (·.handle)).Nodup → (l'.map (·.handle)).Nodup

theorem Respects.refl (pid : Nat) (l : List Encl) : Respects pid l l := ⟨rfl, fun h => h⟩

theorem Respects.put {pid handle : Nat} {l : List Encl} {c : Cursor Encl} (h : findEnclave pid handle l = some c) {e : Encl}
    (hid : Identity c.elem e) : Respects pid l (c.put e).list := by
  obtain ⟨rfl, -, hpid, -⟩ := findEnclave_some h
  refine ⟨put_filter (by simp [hid.pid, hpid]) (by simp [hpid]), fun hnodup => ?_⟩
  rwa [put_handles hid.handle]

variable {env : Env} {pid : Nat} {s t : Driver} {cmd : Command} {o : Outcome Int}

theorem Change.respects (h : Change env pid s cmd o t) : Respects pid s.enclaves t.enclaves := by
  cases h with
  | idle cmd tycheIds ks hks => exact .refl ..
  | debugged handle result index => exact .refl ..
  | entered transition c ret result index h => exact .put h ⟨rfl, rfl, rfl⟩
  | created out domain hnew =>
    refine ⟨by simp, fun hnodup => ?_⟩
    rw [List.map_append, List.nodup_append]
    refine ⟨hnodup, by simp, fun a ha b hb => ?_⟩
    obtain ⟨encl, hencl, rfl⟩ := List.mem_map.1 ha
    obtain rfl : b = s.tycheIds := by simpa using hb
    exact hnew encl hencl
  | region cmd region c ok ret stack hcmd h hcheck hstack hret => exact .put h ⟨rfl, rfl, rfl⟩
  | committed commit out c o o' site h hcommit ho =>
    have hid := (commitEnclave_calls env commit ⟨s.mem, s.log, c.elem⟩).1
    rw [hcommit] at hid
    exact .put h hid
  | unrevoked handle c o events h hrevoke => exact .refl ..
  | deleted handle c h hstale =>
    obtain ⟨hlist, -, hpid, -⟩ := findEnclave_some h
    rw [← hlist]
    refine ⟨by simp [Cursor.list, Cursor.remove, hpid], fun hnodup => hnodup.sublist (List.Sublist.map _ ?_)⟩
    exact List.Sublist.append_left (List.sublist_cons_self ..) _

/-- The calls of the monitor a command makes are for an enclave of the process. -/
theorem Change.calls (h : Change env pid s cmd o t) : ∃ events, t.log = events ++ s.log ∧
    ((∃ handle result index, cmd = .dbg handle ∧ events = [.transition handle 0 result index]) ∨
      ∀ ev ∈ events, ev.monitor = true → ∃ encl ∈ s.enclaves, encl.pid = pid ∧ ev.On encl) := by
  -- The calls are for the enclave found.
  have found : ∀ {handle c}, findEnclave pid handle s.enclaves = some c → ∀ events : List Event,
      (∀ ev ∈ events, ev.monitor = true → ev.On c.elem) →
      ∀ ev ∈ events, ev.monitor = true → ∃ encl ∈ s.enclaves, encl.pid = pid ∧ ev.On encl := by
    intro handle c h events hevents ev hev hcall
    obtain ⟨hlist, -, hpid, -⟩ := findEnclave_some h
    exact ⟨c.elem, hlist ▸ c.elem_mem, hpid, hevents ev hev hcall⟩
  have revoked : ∀ (c : Cursor Encl) ok pages, ∀ ev ∈ revocations c.elem.tycheHandle ok pages, ev.On c.elem := by
    intro c ok pages ev hev
    obtain ⟨pa, -, rfl⟩ := List.mem_map.1 (List.mem_reverse.1 hev)
    rfl
  cases h with
  | idle cmd tycheIds ks hks =>
    refine ⟨ks, rfl, .inr fun ev hev hcall => ?_⟩
    rcases hks ev hev with ⟨ok, rfl⟩ | rfl <;> cases hcall
  | debugged handle result index => exact ⟨_, rfl, .inl ⟨handle, result, index, rfl, rfl⟩⟩
  | entered transition c ret result index h => exact ⟨[_], rfl, .inr (found h _ (by simp [Event.On]))⟩
  | created out domain hnew => exact ⟨[_, _], rfl, .inr (by simp [Event.monitor])⟩
  | region cmd region c ok ret stack hcmd h hcheck hstack hret => exact ⟨[_], rfl, .inr (by simp [Event.monitor])⟩
  | committed commit out c o o' site h hcommit ho =>
    obtain ⟨-, events, hlog, hcalls⟩ := commitEnclave_calls env commit ⟨s.mem, s.log, c.elem⟩
    rw [hcommit] at hlog
    exact ⟨events, hlog, .inr (found h events hcalls)⟩
  | unrevoked handle c o events h hrevoke =>
    refine ⟨events, rfl, .inr (found h events fun ev hev _ => ?_)⟩
    rcases hrevoke with ⟨-, done, pa, rest, -, rfl⟩ | ⟨-, rfl⟩
    · rcases List.mem_append.1 hev with hev | hev <;> exact revoked c _ _ ev hev
    · exact revoked c _ _ ev hev
  | deleted handle c h hstale => exact ⟨_, rfl, .inr (found h _ fun ev hev _ => revoked c _ _ ev hev)⟩

/-- No enclave leaves the driver, except with a deletion. -/
theorem Change.handles_prefix (h : Change env pid s cmd o t) (hcmd : ∀ handle, cmd ≠ .delete handle) :
    s.enclaves.map (·.handle) <+: t.enclaves.map (·.handle) := by
  have put : ∀ {handle c} {e : Encl}, findEnclave pid handle s.enclaves = some c → e.handle = c.elem.handle →
      s.enclaves.map (·.handle) <+: (c.put e).list.map (·.handle) := by
    intro handle c e hfind hhandle
    have hsame : (c.put e).list.map (·.handle) = s.enclaves.map (·.handle) := by
      rw [put_handles hhandle, (findEnclave_some hfind).1]
    exact hsame ▸ List.prefix_refl _
  cases h with
  | idle | debugged => exact List.prefix_refl _
  | entered transition c ret result index hfind => exact put hfind rfl
  | created out domain hnew => exact ⟨_, List.map_append.symm⟩
  | region cmd region c ok ret stack hcmd' hfind hcheck hstack hret => exact put hfind rfl
  | committed commit out c o o' site hfind hcommit ho =>
    have hid := (commitEnclave_calls env commit ⟨s.mem, s.log, c.elem⟩).1
    rw [hcommit] at hid
    exact put hfind hid.handle
  | unrevoked handle c o events hfind hrevoke => exact absurd rfl (hcmd handle)
  | deleted handle c hfind hstale => exact absurd rfl (hcmd handle)

/-- A creation that succeeds adds a handle. -/
theorem Change.created_handle {copy : Bool} (h : Change env pid s (.create copy) (.ret 0) t) :
    s.tycheIds ∈ t.enclaves.map (·.handle) ∧ s.tycheIds ∉ s.enclaves.map (·.handle) := by
  generalize hcmd : Command.create copy = cmd, hout : Outcome.ret (0 : Int) = out at h
  cases h with
  | created copy' domain hnew =>
    refine ⟨by simp, fun hmem => ?_⟩
    obtain ⟨encl, hencl, heq⟩ := List.mem_map.1 hmem
    exact hnew encl hencl heq
  | idle => cases hout
  | region cmd region c ok ret stack hcmd' => rcases hcmd' with rfl | rfl <;> cases hcmd
  | debugged | entered | committed | unrevoked | deleted => cases hcmd

/-- Nothing is taken back, except with a deletion. -/
theorem Change.nothing_revoked (h : Change env pid s cmd o t) (hcmd : ∀ handle, cmd ≠ .delete handle) :
    ∃ events, t.log = events ++ s.log ∧ ∀ dom start end_ ok, .revokeRegion dom start end_ ok ∉ events := by
  cases h with
  | idle cmd tycheIds ks hks =>
    refine ⟨ks, rfl, fun dom start end_ ok hmem => ?_⟩
    rcases hks _ hmem with ⟨_, h⟩ | h <;> cases h
  | debugged | entered | region => exact ⟨[_], rfl, by simp⟩
  | created => exact ⟨[_, _], rfl, by simp⟩
  | committed commit out c o o' site hfind hcommit ho =>
    obtain ⟨mem, e, log, heff, hcase⟩ := commitEnclave_effects env commit ⟨s.mem, s.log, c.elem⟩
    obtain ⟨events, hlog, hnone⟩ := heff.nothing_revoked
    rw [hcommit] at hcase
    rcases hcase with ⟨_, -, heq⟩ | heq
    · obtain ⟨-, rfl⟩ := Prod.mk.inj heq
      exact ⟨events, hlog, hnone⟩
    · obtain ⟨frees, hfrees, hfree⟩ := commitFailure_log ⟨mem, log, e⟩
      rw [← heq] at hfrees
      refine ⟨frees ++ events, ?_, fun dom start end_ ok hmem => ?_⟩
      · rw [List.append_assoc]
        exact hfrees.trans (congrArg (frees ++ ·) hlog)
      · rcases List.mem_append.1 hmem with hmem | hmem
        · obtain ⟨f, hf⟩ := hfree _ hmem
          cases hf
        · exact hnone dom start end_ ok hmem
  | unrevoked handle c o events hfind hrevoke => exact absurd rfl (hcmd handle)
  | deleted handle c hfind hstale => exact absurd rfl (hcmd handle)

/-- The handles of the enclaves are distinct, in every state of a run. -/
theorem run_handles {env : Env} {allowed : Driver → Nat → Command → Driver → Prop} {mem : Nat → Nat → Nat} {s : Driver}
    (h : Run env allowed (Driver.boot mem) s) : (s.enclaves.map (·.handle)).Nodup := by
  induction h with
  | refl => exact .nil
  | tail _ hstep ih =>
    obtain ⟨pid, cmd, out, heq, -, -⟩ := hstep
    have hchange := (ioctl_change env pid _ cmd).respects.handles ih
    rwa [heq] at hchange

/-- **Only the creator acts on an enclave.** In every reachable state the
handles of the enclaves are distinct; a command of a process leaves every
enclave of another process as it is, and calls the monitor for enclaves of
the process only, unless it is the debug command: that one changes no enclave,
and makes one transition, with the handle it is given. -/
theorem creator_acts (env : Env) (mem : Nat → Nat → Nat) {s : Driver}
    (hrun : Run env (fun _ _ _ _ => True) (Driver.boot mem) s) :
    (s.enclaves.map (·.handle)).Nodup ∧ ∀ pid cmd,
      (s.ioctl env pid cmd).2.enclaves.filter (·.pid ≠ pid) = s.enclaves.filter (·.pid ≠ pid) ∧
      ∃ events, (s.ioctl env pid cmd).2.log = events ++ s.log ∧
        ((∃ handle result index, cmd = .dbg handle ∧ (s.ioctl env pid cmd).2.enclaves = s.enclaves ∧
            events = [.transition handle 0 result index]) ∨
          (∀ handle, cmd ≠ .dbg handle) ∧
            ∀ ev ∈ events, ev.monitor = true → ∃ encl ∈ s.enclaves, encl.pid = pid ∧ ev.On encl) := by
  refine ⟨run_handles hrun, fun pid cmd => ⟨(ioctl_change env pid s cmd).respects.others, ?_⟩⟩
  obtain ⟨events, hlog, hcalls⟩ := (ioctl_change env pid s cmd).calls
  refine ⟨events, hlog, ?_⟩
  cases cmd with
  | dbg handle =>
    refine .inl ⟨handle, (env.transition s.log handle 0).1, (env.transition s.log handle 0).2, rfl, rfl, ?_⟩
    exact List.append_cancel_right (hlog.symm.trans rfl)
  | transition _ | delete _ | create _ | addRegion _ | commit _ _ | addStack _ | other =>
    refine .inr ⟨by simp, ?_⟩
    rcases hcalls with ⟨handle, -, -, h, -⟩ | hcalls
    · cases h
    · exact hcalls

theorem creator_acts_shared :
    let s := (Driver.boot fun _ _ => 0).after plenty [(1, .create true), (2, .create true)]
    (s.enclaves.map (·.handle)).Nodup ∧
      (s.ioctl plenty 2 (.delete 0)).2.enclaves.filter (·.pid ≠ 2) = s.enclaves.filter (·.pid ≠ 2) := by
  obtain ⟨hdistinct, hcommand⟩ := creator_acts plenty (fun _ _ => 0)
    (run_after [(1, .create true), (2, .create true)]
      ⟨by decide, trivial, by decide, trivial, trivial⟩)
  exact ⟨hdistinct, (hcommand 2 (.delete 0)).1⟩

/-- Another process enters the domain of an enclave with the debug command. -/
theorem debug_transition_unchecked :
    let s := (Driver.boot fun _ _ => 0).after plenty [(1, .create true)]
    Run plenty (fun _ _ _ _ => True) (Driver.boot fun _ _ => 0) s ∧
    s.enclaves.map (fun encl => (encl.pid, encl.tycheHandle)) = [(1, 1)] ∧
    (s.ioctl plenty 2 (.dbg 1)).2.log = .transition 1 0 0 0 :: s.log ∧
    ¬ ∃ encl ∈ s.enclaves, encl.pid = 2 ∧ (Event.transition 1 0 0 0).On encl := by
  refine ⟨run_after _ ⟨by decide, trivial, trivial⟩, rfl, rfl, ?_⟩
  rintro ⟨encl, hencl, hpid, -⟩
  obtain rfl := List.mem_singleton.1 hencl
  cases hpid

end Tyche.Enclave
