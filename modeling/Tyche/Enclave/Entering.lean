/-
The handles that enclaves are entered with. The monitor gives one when it seals
a domain, and the next one each time the domain comes back
(`enclave_transition`): an enclave holds the one of its own domain, so that a
process enters the domains of its own enclaves, and no handle twice.
-/
import Tyche.Enclave.Commands

namespace Tyche.Enclave

open Tyche.Pts (Outcome)

/-! ## The entry of a domain -/

/-- The handle that the monitor gave last for a domain. -/
def entry (dom : Nat) : List Event → Option Nat
  | [] => none
  | .sealDomain domain _ _ _ (some invoke) :: log => if domain = dom then some invoke else entry dom log
  | .transition handle _ _ index :: log => if entry dom log = some handle then some index else entry dom log
  | _ :: log => entry dom log

/-- The domains that were sealed. -/
def sealedDomains (log : List Event) : List Nat := log.filterMap fun
  | .sealDomain domain _ _ _ _ => some domain
  | _ => none

/-- The monitor creates each domain once, and gives no handle that is the entry of
another domain. -/
def Event.Proper (log : List Event) : Event → Prop
  | .createDomain (some domain) => .createDomain (some domain) ∉ log
  | .sealDomain domain _ _ _ (some invoke) => ∀ dom ∈ sealedDomains log, entry dom log = some invoke → dom = domain
  | .transition handle _ _ index => ∀ dom ∈ sealedDomains log, entry dom log = some index → entry dom log = some handle
  | _ => True

/-- All answers of the monitor are proper. -/
def Proper : List Event → Prop
  | [] => True
  | ev :: log => ev.Proper log ∧ Proper log

instance (log : List Event) (ev : Event) : Decidable (ev.Proper log) := by
  unfold Event.Proper
  split <;> infer_instance

instance decidableProper : DecidablePred Proper
  | [] => .isTrue trivial
  | ev :: log => @instDecidableAnd (ev.Proper log) (Proper log) _ (decidableProper log)

/-- The event gives no handle. -/
def Event.givesNone : Event → Bool
  | .sealDomain .. | .transition .. => false
  | _ => true

section Entry

variable {dom : Nat} {log : List Event}

theorem entry_cons {ev : Event} (h : ev.givesNone = true) : entry dom (ev :: log) = entry dom log := by
  cases ev <;> first | rfl | cases h

theorem entry_append {events : List Event} (h : ∀ ev ∈ events, ev.givesNone = true) : entry dom (events ++ log) = entry dom log := by
  induction events with
  | nil => rfl
  | cons ev events ih =>
    rw [List.cons_append, entry_cons (h ev List.mem_cons_self), ih fun ev hev => h ev (List.mem_cons_of_mem _ hev)]

theorem sealedDomains_append {events : List Event} (h : ∀ ev ∈ events, ev.givesNone = true) :
    sealedDomains (events ++ log) = sealedDomains log := by
  have hnone : sealedDomains events = [] := List.filterMap_eq_nil_iff.2 fun ev hev => by
    have hgives := h ev hev
    cases ev <;> first | rfl | cases hgives
  rw [sealedDomains, List.filterMap_append]
  exact congrArg (· ++ _) hnone

/-- A domain with an entry was sealed. -/
theorem entry_sealed {handle : Nat} (h : entry dom log = some handle) : dom ∈ sealedDomains log := by
  induction log generalizing handle with
  | nil => cases h
  | cons ev log ih =>
    have hlater : ∀ {handle}, entry dom log = some handle → dom ∈ sealedDomains (ev :: log) := fun h =>
      List.mem_filterMap.2 ((List.mem_filterMap.1 (ih h)).imp fun _ => And.imp_left (List.mem_cons_of_mem ev))
    by_cases hgives : ev.givesNone = true
    · exact hlater ((entry_cons hgives).symm.trans h)
    cases ev with
    | sealDomain domain cr3 entryPoint stack invoke =>
      cases invoke with
      | none => exact hlater h
      | some invoke =>
        rw [entry] at h
        split at h
        next heq => exact heq ▸ List.mem_cons_self
        next => exact hlater h
    | transition handle args result index =>
      rw [entry] at h
      split at h
      next heq => exact hlater heq
      next => exact hlater h
    | allocPages | freePages | kmalloc | collect | createDomain | transferCapability | revokeRegion => exact absurd rfl hgives

/-- **No two domains have one entry.** -/
theorem entry_injective (h : Proper log) : ∀ {dom' handle : Nat}, entry dom log = some handle → entry dom' log = some handle →
    dom = dom' := by
  induction log with
  | nil => exact fun hentry => nomatch hentry
  | cons ev log ih =>
    obtain ⟨hev, hlog⟩ := h
    intro dom' handle h1 h2
    by_cases hgives : ev.givesNone = true
    · exact ih hlog ((entry_cons hgives).symm.trans h1) ((entry_cons hgives).symm.trans h2)
    cases ev with
    | sealDomain domain cr3 entryPoint stack invoke =>
      cases invoke with
      | none => exact ih hlog h1 h2
      | some invoke =>
        have hother : ∀ {dom}, entry dom log = some invoke → dom = domain := fun h => hev _ (entry_sealed h) h
        rw [entry] at h1 h2
        split at h1 <;> split at h2
        next e1 e2 => exact e1.symm.trans e2
        next e1 _ => exact e1.symm.trans (hother (h2.trans h1.symm)).symm
        next _ e2 => exact (hother (h1.trans h2.symm)).trans e2
        next => exact ih hlog h1 h2
    | transition entered args result index =>
      have hother : ∀ {dom}, entry dom log = some index → entry dom log = some entered := fun h => hev _ (entry_sealed h) h
      rw [entry] at h1 h2
      split at h1 <;> split at h2
      next e1 e2 => exact ih hlog e1 e2
      next e1 _ => exact ih hlog e1 (hother (h2.trans h1.symm))
      next _ e2 => exact ih hlog (hother (h1.trans h2.symm)) e2
      next => exact ih hlog h1 h2
    | allocPages | freePages | kmalloc | collect | createDomain | transferCapability | revokeRegion => exact absurd rfl hgives

end Entry

/-! ## What is done for one enclave -/

/-- The enclave keeps the entry of its domain, and no other domain's entry changes. -/
structure Renewed (x y : Encl × List Event) : Prop where
  later : x.2 <:+ y.2
  same : y.1.tycheHandle = x.1.tycheHandle
  sealing : ∀ dom ∈ sealedDomains y.2, dom ∈ sealedDomains x.2 ∨ dom = x.1.tycheHandle
  others : ∀ dom ≠ x.1.tycheHandle, entry dom y.2 = entry dom x.2
  holds : (∀ i, entry x.1.tycheHandle x.2 = some i → x.1.invoke = i) → ∀ i, entry x.1.tycheHandle y.2 = some i → y.1.invoke = i

theorem Renewed.trans {x y z : Encl × List Event} (h : Renewed x y) (h' : Renewed y z) : Renewed x z := by
  obtain ⟨hlater, hsame, hsealing, hothers, hholds⟩ := h'
  rw [h.same] at hsame hsealing hothers hholds
  refine ⟨h.later.trans hlater, hsame, fun dom hdom => ?_, fun dom hdom => (hothers dom hdom).trans (h.others dom hdom),
    fun hx => hholds (h.holds hx)⟩
  exact (hsealing dom hdom).elim (h.sealing dom) .inr

/-- Nothing is given. -/
theorem Renewed.quiet {e e' : Encl} {log : List Event} (events : List Event) (hevents : ∀ ev ∈ events, ev.givesNone = true)
    (hsame : e'.tycheHandle = e.tycheHandle) (hinvoke : e'.invoke = e.invoke) : Renewed (e, log) (e', events ++ log) := by
  refine ⟨List.suffix_append .., hsame, fun dom hdom => .inl ?_, fun dom _ => entry_append hevents, fun h i hi => ?_⟩
  · rwa [sealedDomains_append hevents] at hdom
  · rw [entry_append hevents] at hi
    exact hinvoke.trans (h i hi)

theorem Event.givesNone_of_monitor {ev : Event} (h : ev.monitor = false) : ev.givesNone = true := by
  cases ev <;> first | rfl | cases h

theorem Effect.renewed {x y : Encl × List Event} (h : Effect x y) : Renewed x y := by
  cases h with
  | @prepare x y hprepare =>
    obtain ⟨events, hlog, hquiet⟩ := hprepare.calls
    have hrenewed : Renewed (x.1, x.2) (y.1, events ++ x.2) :=
      .quiet events (fun ev hev => Event.givesNone_of_monitor (hquiet ev hev)) (Effect.prepare hprepare).identity.tycheHandle
        (by cases hprepare <;> rfl)
    rwa [← hlog] at hrenewed
  | transfer e log pa ok hpa => exact .quiet [_] (by simp [Event.givesNone]) rfl rfl
  | sealing e log stack entryPoint invoke =>
    refine ⟨List.suffix_cons .., rfl, fun dom hdom => ?_, fun dom hdom => ?_, fun h i hi => ?_⟩
    · exact (List.mem_cons.1 hdom).symm
    · cases invoke with
      | none => rfl
      | some invoke => exact if_neg fun heq => hdom heq.symm
    · cases invoke with
      | none => exact h i hi
      | some invoke =>
        rw [entry, if_pos rfl] at hi
        exact Option.some.inj hi

theorem Effects.renewed {x y : Encl × List Event} (h : Effects x y) : Renewed x y := by
  induction h with
  | refl => exact .quiet [] (by simp) rfl rfl
  | tail _ hstep ih => exact ih.trans hstep.renewed

theorem commitEnclave_renewed (env : Env) (commit : CommitMessage) (s : Site) :
    Renewed (s.encl, s.log) ((commitEnclave env commit s).2.encl, (commitEnclave env commit s).2.log) := by
  obtain ⟨mem, e, log, heff, ⟨o, -, heq⟩ | heq⟩ := commitEnclave_effects env commit s
  · rw [heq]
    exact heff.renewed
  · obtain ⟨frees, hfrees, hfree⟩ := commitFailure_log ⟨mem, log, e⟩
    rw [heq, hfrees]
    refine heff.renewed.trans (.quiet frees (fun ev hev => ?_) (commitFailure_identity ⟨mem, log, e⟩).tycheHandle ?_)
    · obtain ⟨f, rfl⟩ := hfree ev hev
      rfl
    · unfold commitFailure
      split <;> rfl

/-! ## What every command keeps -/

/-- Every enclave has a domain of its own, and holds its entry. -/
structure Entries (enclaves : List Encl) (log : List Event) : Prop where
  created : ∀ e ∈ enclaves, .createDomain (some e.tycheHandle) ∈ log
  distinct : (enclaves.map (·.tycheHandle)).Nodup
  sealing : ∀ dom ∈ sealedDomains log, .createDomain (some dom) ∈ log
  holds : ∀ e ∈ enclaves, ∀ i, entry e.tycheHandle log = some i → e.invoke = i

/-- A command that enters a domain is for an enclave that was sealed. -/
def Enters (s : Driver) (pid : Nat) : Command → Prop
  | .dbg _ => False
  | .transition (some transition) => ∀ c ∈ findEnclave pid transition.handle s.enclaves, entry c.elem.tycheHandle s.log ≠ none
  | _ => True

instance (s : Driver) (pid : Nat) : (cmd : Command) → Decidable (Enters s pid cmd)
  | .dbg _ => inferInstanceAs (Decidable False)
  | .transition (some transition) => inferInstanceAs (Decidable (∀ c ∈ findEnclave pid transition.handle s.enclaves,
      entry c.elem.tycheHandle s.log ≠ none))
  | .transition none | .create _ | .addRegion _ | .commit _ _ | .addStack _ | .delete _ | .other => .isTrue trivial

section Entries

variable {enclaves : List Encl} {log : List Event}

theorem Entries.sublist {enclaves' : List Encl} (h : Entries enclaves log) (hsub : enclaves'.Sublist enclaves) :
    Entries enclaves' log :=
  ⟨fun e he => h.created e (hsub.subset he), h.distinct.sublist (hsub.map _), h.sealing, fun e he => h.holds e (hsub.subset he)⟩

theorem Entries.quiet (h : Entries enclaves log) (events : List Event) (hevents : ∀ ev ∈ events, ev.givesNone = true) :
    Entries enclaves (events ++ log) := by
  refine ⟨fun e he => List.mem_append_right _ (h.created e he), h.distinct, fun dom hdom => ?_, fun e he i hi => h.holds e he i ?_⟩
  · rw [sealedDomains_append hevents] at hdom
    exact List.mem_append_right _ (h.sealing dom hdom)
  · rwa [entry_append hevents] at hi

/-- What is done for one enclave. -/
theorem Entries.put {c : Cursor Encl} {e : Encl} {log' : List Event} (h : Entries c.list log) (hdone : Renewed (c.elem, log) (e, log')) :
    Entries (c.put e).list log' := by
  have hsame : e.tycheHandle = c.elem.tycheHandle := hdone.same
  have hkept : ∀ {dom}, Event.createDomain (some dom) ∈ log → Event.createDomain (some dom) ∈ log' := fun h => hdone.later.subset h
  have hdistinct := (c.list_perm.map (·.tycheHandle)).nodup_iff.1 h.distinct
  have hother : ∀ f ∈ c.remove, f.tycheHandle ≠ c.elem.tycheHandle := fun f hf heq =>
    (List.nodup_cons.1 hdistinct).1 (List.mem_map.2 ⟨f, hf, heq⟩)
  refine ⟨fun f hf => ?_, ?_, fun dom hdom => ?_, fun f hf i hi => ?_⟩
  · rcases Cursor.mem_list.1 hf with rfl | hf
    · exact hkept (hsame ▸ h.created _ c.elem_mem)
    · exact hkept (h.created f (Cursor.mem_list.2 (.inr hf)))
  · rw [((c.put e).list_perm.map (·.tycheHandle)).nodup_iff]
    show (e.tycheHandle :: _).Nodup
    rw [hsame]
    exact hdistinct
  · rcases hdone.sealing dom hdom with hdom | rfl
    · exact hkept (h.sealing dom hdom)
    · exact hkept (h.created _ c.elem_mem)
  · rcases Cursor.mem_list.1 hf with rfl | hf
    · exact hdone.holds (h.holds _ c.elem_mem) i (hsame ▸ hi)
    · rw [hdone.others f.tycheHandle (hother f hf)] at hi
      exact h.holds f (Cursor.mem_list.2 (.inr hf)) i hi

/-- A domain is created, and was not before. -/
theorem Entries.create {e : Encl} (h : Entries enclaves log) (hnew : .createDomain (some e.tycheHandle) ∉ log) :
    Entries (enclaves ++ [e]) (.createDomain (some e.tycheHandle) :: .kmalloc true :: log) := by
  have hquiet := h.quiet [.createDomain (some e.tycheHandle), .kmalloc true] (by simp [Event.givesNone])
  have hmem : ∀ {f}, f ∈ enclaves ++ [e] ↔ f ∈ enclaves ∨ f = e := by simp
  refine ⟨fun f hf => ?_, ?_, hquiet.sealing, fun f hf i hi => ?_⟩
  · rcases hmem.1 hf with hf | rfl
    · exact hquiet.created f hf
    · exact List.mem_cons_self
  · rw [List.map_append]
    refine List.nodup_append.2 ⟨h.distinct, List.nodup_cons.2 ⟨List.not_mem_nil, .nil⟩, fun a ha b hb heq => ?_⟩
    obtain ⟨f, hf, rfl⟩ := List.mem_map.1 ha
    obtain rfl := List.mem_singleton.1 hb
    have hcreated := h.created f hf
    rw [heq] at hcreated
    exact hnew hcreated
  · rcases hmem.1 hf with hf | rfl
    · exact hquiet.holds f hf i hi
    · exact absurd (h.sealing _ (entry_sealed hi)) hnew

/-- **A transition** renews the entry of the domain that is entered. -/
theorem Renewed.transition {e : Encl} {args result index : Nat} (hproper : Proper log) (hsealed : entry e.tycheHandle log ≠ none)
    (hholds : ∀ i, entry e.tycheHandle log = some i → e.invoke = i) :
    Renewed (e, log) ({ e with invoke := index }, .transition e.invoke args result index :: log) := by
  obtain ⟨i, hi⟩ := Option.ne_none_iff_exists'.1 hsealed
  rw [← hholds i hi] at hi
  refine ⟨List.suffix_cons .., rfl, fun dom hdom => .inl hdom, fun dom hdom => if_neg fun hentry => ?_, fun _ j hj => ?_⟩
  · exact hdom (entry_injective hproper hentry hi)
  · rw [entry, if_pos hi] at hj
    exact Option.some.inj hj

end Entries

variable {env : Env} {pid : Nat} {s t : Driver} {cmd : Command} {o : Outcome Int}

theorem revocations_giveNone (dom : Nat) (ok : Bool) (pages : List PaRegion) :
    ∀ ev ∈ revocations dom ok pages, ev.givesNone = true := by
  intro ev hev
  obtain ⟨pa, -, rfl⟩ := List.mem_map.1 (List.mem_reverse.1 hev)
  rfl

/-- A deletion that fails gives no handle. -/
theorem unrevoked_giveNone {c : Cursor Encl} {events : List Event}
    (h : o = .ret (-1) ∧ (∃ done pa rest, c.elem.allPages = done ++ pa :: rest ∧
        events = revocations c.elem.tycheHandle false [pa] ++ revocations c.elem.tycheHandle true done) ∨
      o = .freed ∧ events = revocations c.elem.tycheHandle true c.elem.allPages) : ∀ ev ∈ events, ev.givesNone = true := by
  intro ev hev
  rcases h with ⟨-, done, pa, rest, -, rfl⟩ | ⟨-, rfl⟩
  · rcases List.mem_append.1 hev with hev | hev <;> exact revocations_giveNone _ _ _ ev hev
  · exact revocations_giveNone _ _ _ ev hev

theorem idle_giveNone {ks : List Event} (hks : ∀ k ∈ ks, (∃ ok, k = .kmalloc ok) ∨ k = .createDomain none) :
    ∀ ev ∈ ks, ev.givesNone = true := by
  intro ev hev
  rcases hks ev hev with ⟨ok, rfl⟩ | rfl <;> rfl

/-- What the monitor answered before was proper too. -/
theorem Proper.of_suffix {log log' : List Event} (h : Proper log') (hlog : log <:+ log') : Proper log := by
  obtain ⟨events, rfl⟩ := hlog
  induction events with
  | nil => exact h
  | cons ev events ih => exact ih h.2

theorem Change.later (h : Change env pid s cmd o t) : s.log <:+ t.log := by
  obtain ⟨events, hlog, -⟩ := h.calls
  exact ⟨events, hlog.symm⟩

/-- **Every command** leaves each enclave with the entry of its domain. -/
theorem Change.entries (hchange : Change env pid s cmd o t) (hproper : Proper t.log) (henters : Enters s pid cmd)
    (h : Entries s.enclaves s.log) : Entries t.enclaves t.log := by
  have hbefore := hproper.of_suffix hchange.later
  have put : ∀ {handle c} {e : Encl} {log}, findEnclave pid handle s.enclaves = some c → Renewed (c.elem, s.log) (e, log) →
      Entries (c.put e).list log := fun {handle c e log} hfind hdone => by
    rw [← (findEnclave_some hfind).1] at h
    exact h.put hdone
  cases hchange with
  | idle cmd tycheIds ks hks => exact h.quiet ks (idle_giveNone hks)
  | debugged handle result index => exact henters.elim
  | entered transition c ret result index hfind =>
    have hmem : c.elem ∈ s.enclaves := (findEnclave_some hfind).1 ▸ c.elem_mem
    exact put hfind (.transition hbefore (henters c hfind) (h.holds _ hmem))
  | created out domain hnew =>
    have hfresh : Event.createDomain (some domain) ∉ Event.kmalloc true :: s.log := hproper.1
    exact h.create (e := { pid := pid, handle := s.tycheIds, tycheHandle := domain }) fun hmem =>
      hfresh (List.mem_cons_of_mem _ hmem)
  | region cmd region c ok ret stack hcmd hfind hcheck hstack hret =>
    exact put hfind (.quiet [_] (by simp [Event.givesNone]) rfl rfl)
  | committed commit out c o o' site hfind hcommit ho =>
    have hdone := commitEnclave_renewed env commit ⟨s.mem, s.log, c.elem⟩
    rw [hcommit] at hdone
    exact put hfind hdone
  | unrevoked handle c o events hfind hrevoke => exact h.quiet events (unrevoked_giveNone hrevoke)
  | deleted handle c hfind hstale =>
    have hsub : c.remove.Sublist s.enclaves := by
      rw [← (findEnclave_some hfind).1]
      exact List.Sublist.append_left (List.sublist_cons_self ..) _
    exact (h.quiet _ (revocations_giveNone _ _ _)).sublist hsub

/-! ## Whose domain is entered -/

/-- The event is a transition. -/
def Event.enters : Event → Bool
  | .transition .. => true
  | _ => false

/-- Each transition was made with the handle that was the entry of a domain then. -/
def Threaded : List Event → Prop
  | [] => True
  | .transition handle _ _ _ :: log => (∃ dom, entry dom log = some handle) ∧ Threaded log
  | _ :: log => Threaded log

theorem Threaded.append {events log : List Event} (h : Threaded log) (hevents : ∀ ev ∈ events, ev.enters = false) :
    Threaded (events ++ log) := by
  induction events with
  | nil => exact h
  | cons ev events ih =>
    have hlog := ih fun ev hev => hevents ev (List.mem_cons_of_mem _ hev)
    have hev := hevents ev List.mem_cons_self
    cases ev with
    | transition => cases hev
    | allocPages | freePages | kmalloc | collect | createDomain | transferCapability | sealDomain | revokeRegion => exact hlog

theorem Event.enters_of_givesNone {ev : Event} (h : ev.givesNone = true) : ev.enters = false := by
  cases ev <;> first | rfl | cases h

/-- A commit enters no domain. -/
theorem Effects.enterNothing {x y : Encl × List Event} (h : Effects x y) :
    ∃ events, y.2 = events ++ x.2 ∧ ∀ ev ∈ events, ev.enters = false := by
  induction h with
  | refl => exact ⟨[], rfl, by simp⟩
  | tail _ hstep ih =>
    obtain ⟨events, hlog, hnone⟩ := ih
    cases hstep with
    | prepare hstep =>
      obtain ⟨last, hlast, hquiet⟩ := hstep.calls
      refine ⟨last ++ events, by rw [hlast, hlog, List.append_assoc], fun ev hev => ?_⟩
      rcases List.mem_append.1 hev with hev | hev
      · exact Event.enters_of_givesNone (Event.givesNone_of_monitor (hquiet ev hev))
      · exact hnone ev hev
    | transfer e log pa ok h => exact ⟨_ :: events, congrArg (_ :: ·) hlog, List.forall_mem_cons.2 ⟨rfl, hnone⟩⟩
    | sealing e log stack entryPoint invoke => exact ⟨_ :: events, congrArg (_ :: ·) hlog, List.forall_mem_cons.2 ⟨rfl, hnone⟩⟩

theorem commitEnclave_enterNothing (env : Env) (commit : CommitMessage) (s : Site) :
    ∃ events, (commitEnclave env commit s).2.log = events ++ s.log ∧ ∀ ev ∈ events, ev.enters = false := by
  obtain ⟨mem, e, log, heff, ⟨o, -, heq⟩ | heq⟩ := commitEnclave_effects env commit s
  · rw [heq]
    exact heff.enterNothing
  · obtain ⟨events, hlog, hnone⟩ := heff.enterNothing
    obtain ⟨frees, hfrees, hfree⟩ := commitFailure_log ⟨mem, log, e⟩
    refine ⟨frees ++ events, ?_, fun ev hev => ?_⟩
    · rw [heq, hfrees, List.append_assoc]
      exact congrArg (frees ++ ·) hlog
    · rcases List.mem_append.1 hev with hev | hev
      · obtain ⟨f, rfl⟩ := hfree ev hev
        rfl
      · exact hnone ev hev

/-- A command enters no domain, or the one of the enclave found. -/
theorem Change.transitions (hchange : Change env pid s cmd o t) (hdebug : ∀ handle, cmd ≠ .dbg handle) :
    (∃ events, t.log = events ++ s.log ∧ ∀ ev ∈ events, ev.enters = false) ∨
    ∃ transition c result index, cmd = .transition (some transition) ∧ findEnclave pid transition.handle s.enclaves = some c ∧
      t.log = .transition c.elem.invoke transition.args result index :: s.log := by
  have quiet : ∀ events : List Event, t.log = events ++ s.log → (∀ ev ∈ events, ev.givesNone = true) →
      ∃ events, t.log = events ++ s.log ∧ ∀ ev ∈ events, ev.enters = false := fun events hlog hevents =>
    ⟨events, hlog, fun ev hev => Event.enters_of_givesNone (hevents ev hev)⟩
  cases hchange with
  | idle cmd tycheIds ks hks => exact .inl (quiet ks rfl (idle_giveNone hks))
  | debugged handle result index => exact absurd rfl (hdebug handle)
  | entered transition c ret result index hfind => exact .inr ⟨transition, c, result, index, rfl, hfind, rfl⟩
  | created out domain hnew => exact .inl (quiet [_, _] rfl (by simp [Event.givesNone]))
  | region cmd region c ok ret stack hcmd hfind hcheck hstack hret => exact .inl (quiet [_] rfl (by simp [Event.givesNone]))
  | committed commit out c o o' site hfind hcommit ho =>
    have hnothing := commitEnclave_enterNothing env commit ⟨s.mem, s.log, c.elem⟩
    rw [hcommit] at hnothing
    exact .inl hnothing
  | unrevoked handle c o events hfind hrevoke => exact .inl (quiet events rfl (unrevoked_giveNone hrevoke))
  | deleted handle c hfind hstale => exact .inl (quiet _ rfl (revocations_giveNone _ _ _))

theorem Enters.not_debug (h : Enters s pid cmd) : ∀ handle, cmd ≠ .dbg handle := by
  rintro handle rfl
  exact h

/-- The enclave that is entered is one of the process, with the entry of its domain. -/
theorem Entries.found (h : Entries s.enclaves s.log) {transition : Transition} {c : Cursor Encl}
    (henters : Enters s pid (.transition (some transition))) (hfind : findEnclave pid transition.handle s.enclaves = some c) :
    c.elem ∈ s.enclaves ∧ c.elem.pid = pid ∧ c.elem.handle = transition.handle ∧
      entry c.elem.tycheHandle s.log = some c.elem.invoke := by
  obtain ⟨hlist, hhandle, hpid, -⟩ := findEnclave_some hfind
  have hmem : c.elem ∈ s.enclaves := hlist ▸ c.elem_mem
  obtain ⟨i, hi⟩ := Option.ne_none_iff_exists'.1 (henters c hfind)
  exact ⟨hmem, hpid, hhandle, by rw [hi, h.holds _ hmem i hi]⟩

/-- **Every run** keeps the entries, and its transitions have used them. -/
theorem run_entries {mem : Nat → Nat → Nat} (hrun : Run env (fun s pid cmd _ => Enters s pid cmd) (.boot mem) s) (hproper : Proper s.log) :
    Entries s.enclaves s.log ∧ Threaded s.log := by
  induction hrun with
  | refl => exact ⟨⟨by simp [Driver.boot], .nil, by simp [Driver.boot, sealedDomains], by simp [Driver.boot]⟩, trivial⟩
  | @tail s t _ hstep ih =>
    obtain ⟨pid, cmd, out, heq, -, henters⟩ := hstep
    have hchange := ioctl_change env pid s cmd
    rw [heq] at hchange
    obtain ⟨hentries, hthreaded⟩ := ih (hproper.of_suffix hchange.later)
    refine ⟨hchange.entries hproper henters hentries, ?_⟩
    rcases hchange.transitions henters.not_debug with ⟨events, hlog, hnone⟩ | ⟨transition, c, result, index, rfl, hfind, hlog⟩
    · rw [hlog]
      exact hthreaded.append hnone
    · rw [hlog]
      exact ⟨⟨_, (hentries.found henters hfind).2.2.2⟩, hthreaded⟩

/-- **Entries are owned.** In every run, an enclave holds the handle that the
monitor gave last for its domain; no two domains have one handle, and no transition
was made with an old one. What a process enters next is the domain of an enclave of
its own, and no other. -/
theorem entries_owned {mem : Nat → Nat → Nat} (hrun : Run env (fun s pid cmd _ => Enters s pid cmd) (.boot mem) s)
    (hproper : Proper s.log) :
    Entries s.enclaves s.log ∧ Threaded s.log ∧
    (∀ dom dom' handle, entry dom s.log = some handle → entry dom' s.log = some handle → dom = dom') ∧
    ∀ pid cmd, Enters s pid cmd →
      (∃ events, (s.ioctl env pid cmd).2.log = events ++ s.log ∧ ∀ ev ∈ events, ev.enters = false) ∨
      ∃ transition, ∃ e ∈ s.enclaves, ∃ result index, cmd = .transition (some transition) ∧ e.pid = pid ∧ e.handle = transition.handle ∧
        (s.ioctl env pid cmd).2.log = .transition e.invoke transition.args result index :: s.log ∧
        entry e.tycheHandle s.log = some e.invoke := by
  obtain ⟨hentries, hthreaded⟩ := run_entries hrun hproper
  refine ⟨hentries, hthreaded, fun dom dom' handle h h' => entry_injective hproper h h', fun pid cmd henters => ?_⟩
  rcases (ioctl_change env pid s cmd).transitions henters.not_debug with hnone | ⟨transition, c, result, index, rfl, hfind, hlog⟩
  · exact .inl hnone
  · obtain ⟨hmem, hpid, hhandle, hentry⟩ := hentries.found henters hfind
    exact .inr ⟨transition, c.elem, hmem, result, index, rfl, hpid, hhandle, hlog, hentry⟩

/-- A monitor that numbers its domains and handles. -/
def numbering : Env :=
  { plenty with
    createDomain := fun log => some log.length
    sealDomain := fun log _ _ _ _ => some log.length
    transition := fun log _ _ => (0, log.length) }

/-- Two processes enter their enclaves by turns. -/
def turns : List (Nat × Command) :=
  [(1, .create true), (2, .create true), (1, .commit ⟨0, 0, 0⟩ true), (2, .commit ⟨1, 0, 0⟩ true),
    (1, .transition (some ⟨0, 7⟩)), (2, .transition (some ⟨1, 8⟩)), (1, .transition (some ⟨0, 9⟩))]

theorem entries_owned_turns :
    let s := (Driver.boot fun _ _ => 0).after numbering turns
    (s.log.filter Event.enters).length = 3 ∧ Threaded s.log ∧ Entries s.enclaves s.log := by
  have hrun : Run numbering (fun s pid cmd _ => Enters s pid cmd) (.boot fun _ _ => 0) ((Driver.boot fun _ _ => 0).after numbering turns) :=
    run_after turns ⟨by decide, trivial, by decide, trivial, by decide +kernel, trivial, by decide +kernel, trivial,
      by decide +kernel, show Enters _ _ _ by decide +kernel, by decide +kernel, show Enters _ _ _ by decide +kernel,
      by decide +kernel, show Enters _ _ _ by decide +kernel, trivial⟩
  obtain ⟨hentries, hthreaded, -⟩ := entries_owned hrun (by decide +kernel)
  exact ⟨by decide +kernel, hthreaded, hentries⟩

end Tyche.Enclave
