/-
What a deletion takes back (`delete_enclave`): all that the domain of the
enclave was ever given, if the deletion returns 0, whatever failed before.

The library knows the driver's enclaves only by what it lent to their domains.
It lends nothing that an enclave has not recorded, so what is recorded nowhere
is the manager's again. As elsewhere, no transfer splits an entry that holds
revocation handles.
-/
import Tyche.Enclave.Deletion

namespace Tyche.Capa

/-- What the entry is lent for: once to each domain, not for nothing, and only
where the domain is allowed to have it. -/
structure Capability.Lends (P : Nat → Nat → Prop) (c : Capability) : Prop where
  domains : (c.revoks.map (·.domain)).Nodup
  nonempty : c.revoks ≠ [] → c.start < c.end_
  allowed : ∀ r ∈ c.revoks, ∀ a, c.covers a = true → P r.domain a

/-- All entries are lent so. -/
def Lends (P : Nat → Nat → Prop) (s : Tracker) : Prop := ∀ c ∈ s.capabilities, c.Lends P

/-- The effect lends to nobody what is not allowed. -/
def Effect.Allowed (P : Nat → Nat → Prop) : Effect → Prop
  | .split c _ => c.revoks = []
  | .deliver c _ r => c.start < c.end_ ∧ ∀ a, c.covers a = true → P r.domain a
  | _ => True

section Lends

variable {P Q : Nat → Nat → Prop} {c d : Capability} {r : RevokHandle} {s t : Tracker} {e : Effect} {es : List Effect}

theorem Capability.lends_nil (h : c.revoks = []) : c.Lends P where
  domains := by simp [h]
  nonempty := fun hne => absurd h hne
  allowed := by simp [h]

theorem Capability.Lends.mono (h : c.Lends P) (hPQ : ∀ r ∈ c.revoks, ∀ a, c.covers a = true → P r.domain a → Q r.domain a) :
    c.Lends Q := ⟨h.domains, h.nonempty, fun r hr a ha => hPQ r hr a ha (h.allowed r hr a ha)⟩

theorem Lends.mono (h : Lends P s) (hPQ : ∀ dom a, P dom a → Q dom a) : Lends Q s :=
  fun c hc => (h c hc).mono fun _ _ _ _ => hPQ _ _

/-- An entry of the same range with fewer records. -/
theorem Capability.Lends.fewer (h : c.Lends P) (hstart : d.start = c.start) (hend : d.end_ = c.end_)
    (hsub : d.revoks.Sublist c.revoks) : d.Lends P where
  domains := h.domains.sublist (hsub.map _)
  nonempty := fun hne => by
    rw [hstart, hend]
    exact h.nonempty fun hnil => hne (List.sublist_nil.1 (hnil ▸ hsub))
  allowed := fun r hr a ha => h.allowed r (hsub.subset hr) a (by rwa [covers_iff, hstart, hend, ← covers_iff] at ha)

theorem Lends.micro (h : Lends P s) (hl : Ledger s) (hm : Micro s e t) (he : e.Allowed P) : Lends P t := by
  cases hm with
  | noMemory => exact h
  | refused => exact h
  | abandoned => exact h
  | split c addr a hcaps =>
    intro d hd
    rcases List.mem_append.1 hd with hd | hd
    · rcases Cursor.mem_list.1 hd with rfl | hd
      · exact Capability.lends_nil he
      · exact h d (hcaps ▸ Cursor.mem_list.2 (.inr hd))
    · obtain rfl := List.mem_singleton.1 hd
      exact Capability.lends_nil rfl
  | deliver c dom tpe a hcaps hd =>
    have hmem : c.elem ∈ s.capabilities := hcaps ▸ c.elem_mem
    intro d hd'
    rcases Cursor.mem_list.1 hd' with rfl | hd'
    · have hnew : ∀ r ∈ c.elem.revoks, r.domain ≠ dom := by
        unfold Deliverable at hd
        split at hd
        · simp [hl.active _ hmem hd]
        · exact hd.2
      refine ⟨?_, fun _ => he.1, fun r hr a ha => ?_⟩
      · rw [Cursor.put_elem, List.map_append, List.nodup_append]
        refine ⟨(h _ hmem).domains, by simp, ?_⟩
        simpa using hnew
      · rcases List.mem_append.1 hr with hr | hr
        · exact (h _ hmem).allowed r hr a ha
        · obtain rfl := List.mem_singleton.1 hr
          exact he.2 a ha
    · exact h d (hcaps ▸ Cursor.mem_list.2 (.inr hd'))
  | revoke c r status a hcaps hr =>
    intro d hd
    rcases Cursor.mem_list.1 hd with rfl | hd
    · refine (h c.elem (hcaps ▸ c.elem_mem)).fewer rfl rfl ?_
      rw [hr]
      exact (List.sublist_cons_self ..).append_left _
    · exact h d (hcaps ▸ Cursor.mem_list.2 (.inr hd))
  | merge l l' c d a hcaps hc =>
    intro x hx
    rcases List.mem_append.1 hx with hx | hx
    · exact h x (by simp [hcaps, hx])
    rcases List.mem_cons.1 hx with rfl | hx
    · exact Capability.lends_nil (hl.active c (by simp [hcaps]) hc)
    · exact h x (by simp [hcaps, hx])

theorem Lends.path (h : Lends P s) (hl : Ledger s) (hp : Path s es t) (he : ∀ e ∈ es, e.Allowed P) : Lends P t := by
  refine (hp.invariant (P := fun s => Ledger s ∧ Lends P s) ?_ ⟨hl, h⟩).2
  exact fun e hmem s t hs hm => ⟨hs.1.micro hm, hs.2.micro hs.1 hm (he e hmem)⟩

/-- **A revocation** takes all that the domain has there. -/
theorem Lends.revoked (h : Lends P s) (hone : ∀ a, covering a s.capabilities ≤ 1) (hm : Micro s (.revoke c r) t) :
    Lends (fun dom a => P dom a ∧ ¬ (dom = r.domain ∧ c.covers a = true)) t := by
  cases hm with
  | revoke c r status a hcaps hr =>
    have hmem : c.elem ∈ s.capabilities := hcaps ▸ c.elem_mem
    intro d hd
    rcases Cursor.mem_list.1 hd with rfl | hd
    · have hsub : r.remove.Sublist c.elem.revoks := by
        rw [hr]
        exact (List.sublist_cons_self ..).append_left _
      have hother : ∀ r' ∈ r.remove, r'.domain ≠ r.elem.domain := by
        have hnodup := (h _ hmem).domains
        rw [hr, (r.list_perm.map _).nodup_iff, List.map_cons, List.nodup_cons] at hnodup
        exact fun r' hr' heq => hnodup.1 (heq ▸ List.mem_map_of_mem hr')
      refine Capability.Lends.mono (P := P) ?_ fun r' hr' a _ hP => ⟨hP, fun hboth => hother r' hr' hboth.1⟩
      exact (h _ hmem).fewer rfl rfl hsub
    · refine (h d (hcaps ▸ Cursor.mem_list.2 (.inr hd))).mono fun r' _ a hda hP => ⟨hP, fun hboth => ?_⟩
      have hnot := covers_remove (hcaps ▸ hone a) hboth.2 d hd
      rw [hda] at hnot
      cases hnot

/-- What a call does is allowed, if what it transfers is. -/
theorem Call.Effects.allowed {call : Call} {out : Outcome Int} (h : call.Effects s es out) (hapi : call.isApi = true)
    (hstrips : Capa.strips s call = false)
    (hcall : ∀ dom start end_ tpe, call = .transfer dom start end_ tpe → out = .ret 0 →
      start < end_ ∧ ∀ a, start ≤ a → a < end_ → P dom a) : ∀ e ∈ es, e.Allowed P := by
  have hwhole := h.strips hapi hstrips
  intro e he
  cases e with
  | idle | revoke | merge => trivial
  | split c addr =>
    have hnone := hwhole _ he
    show c.revoks = []
    simpa [Effect.strips] using hnone
  | deliver c tpe r =>
    cases call with
    | split => cases hapi
    | revoke =>
      rcases h with ⟨-, rfl | rfl⟩ | ⟨curr, r', merges, rfl, hm, -⟩
      · cases he
      · simp at he
      · rcases List.mem_cons.1 he with heq | he
        · cases heq
        · rcases hm _ he with heq | ⟨x, y, heq⟩ <;> cases heq
    | transfer dom start end_ tpe' =>
      obtain ⟨splits, last, rfl, hsplits, hlast⟩ := h
      rcases List.mem_append.1 he with he | he
      · rcases hsplits with rfl | ⟨curr, -, hsplits⟩
        · cases he
        · rcases hsplits _ he with heq | ⟨-, -, d, addr, heq, -⟩ <;> cases heq
      · rcases hlast with ⟨-, rfl | rfl⟩ | ⟨hret, c', r', rfl, hexact, hdomain⟩
        · cases he
        · simp at he
        · obtain ⟨rfl, rfl, rfl⟩ := Effect.deliver.inj (List.mem_singleton.1 he)
          obtain ⟨hlt, hall⟩ := hcall _ _ _ _ rfl hret
          refine ⟨by rw [hexact.1, hexact.2]; exact hlt, fun a ha => ?_⟩
          rw [covers_iff, hexact.1, hexact.2] at ha
          rw [hdomain]
          exact hall a ha.1 ha.2

end Lends

end Tyche.Capa

namespace Tyche.Enclave

open Tyche.Pts (Outcome Frame)
open Tyche.Capa (Lends)

/-- The enclave has recorded the address. -/
def Encl.Has (e : Encl) (a : Nat) : Prop := ∃ pa ∈ e.allPages, pa.Covers a

/-- An enclave with this domain has recorded the address. -/
def HasRecorded (l : List Encl) (dom a : Nat) : Prop := ∃ e ∈ l, e.tycheHandle = dom ∧ e.Has a

/-! ## Events -/

section Events

variable {env : Env} {lib : Library} {P : Nat → Nat → Prop} {log events : List Event} {ev : Event}

/-- **An event** lends nothing that is not allowed, if it transfers nothing else. -/
theorem lends_event (h : Lends P (lib.after log)) (hwhole : lib.Whole (ev :: log))
    (hallowed : ∀ dom start end_ tpe ok, ev = .transferCapability dom start end_ tpe ok →
      start < end_ ∧ ∀ a, start ≤ a → a < end_ → P dom a) : Lends P (lib.after (ev :: log)) := by
  show Lends P (ev.forward (lib.monitor log) (lib.after log))
  have hl := (lib.orderly log).ledger
  cases hcall : ev.call with
  | none =>
    rcases forward_none (lib.monitor log) (lib.after log) hcall with heq | ⟨f, ans, -, -, heq⟩
    · rwa [heq]
    · rwa [heq]
  | some call =>
    have hapi : call.isApi = true := by cases ev <;> cases hcall <;> rfl
    obtain ⟨es, hp, hes⟩ := Capa.Call.run_effects hl.active (Prod.eta (call.run (lib.monitor log) (lib.after log))).symm
    rw [forward_call hcall]
    refine h.path hl hp (hes.allowed hapi (hwhole.strips hcall) fun dom start end_ tpe heq _ => ?_)
    subst heq
    cases ev with
    | transferCapability domain start end_ tpe ok =>
      cases hcall
      exact hallowed _ _ _ _ _ rfl
    | revokeRegion => cases hcall
    | allocPages | freePages | kmalloc | collect | createDomain | sealDomain | transition => cases hcall

/-- Events that transfer nothing. -/
theorem lends_events (h : Lends P (lib.after log)) (hwhole : lib.Whole (events ++ log)) (hkeeps : ∀ ev ∈ events, ev.keeps = true) :
    Lends P (lib.after (events ++ log)) := by
  induction events with
  | nil => exact h
  | cons ev events ih =>
    refine lends_event (ih hwhole.2 fun ev hev => hkeeps ev (List.mem_cons_of_mem _ hev)) hwhole fun dom start end_ tpe ok heq => ?_
    have hkeep := hkeeps ev (List.mem_cons_self ..)
    rw [heq] at hkeep
    cases hkeep

/-- **A revocation that returned 0** takes the range from the domain. -/
theorem lends_revocation {dom start end_ : Nat} (h : Lends P (lib.after log))
    (hev : (Event.revokeRegion dom start end_ true).Answered (env.forwarding lib) log) :
    Lends (fun dom' a => P dom' a ∧ ¬ (dom' = dom ∧ start ≤ a ∧ a < end_)) (lib.after (.revokeRegion dom start end_ true :: log)) := by
  have hl := (lib.orderly log).ledger
  have hret : ((Capa.Call.revoke dom start end_).run (lib.monitor log) (lib.after log)).1 = .ret 0 := of_decide_eq_true hev.symm
  obtain ⟨es, hp, hes⟩ := Capa.Call.run_effects hl.active
    (Prod.eta ((Capa.Call.revoke dom start end_).run (lib.monitor log) (lib.after log))).symm
  show Lends _ ((Capa.Call.revoke dom start end_).run (lib.monitor log) (lib.after log)).2
  rcases hes with ⟨hfailed, -⟩ | ⟨curr, r, merges, rfl, hmerges, hfind, -, hdomain, -⟩
  · rw [hret] at hfailed
    cases hfailed
  cases hp with
  | cons hm hrest =>
    have hexact := (Capa.findExact_some hfind).2
    have hfirst := h.revoked (lib.orderly log).apart hm
    refine (hfirst.path (hl.micro hm) hrest fun e he => ?_).mono fun dom' a hP => ⟨hP.1, fun hthere => hP.2 ?_⟩
    · rcases hmerges e he with rfl | ⟨x, y, rfl⟩ <;> trivial
    · rw [hdomain, Capa.covers_iff, hexact.1, hexact.2]
      exact hthere

/-- The revocations of all ranges. -/
theorem lends_revocations {dom : Nat} {pages : List PaRegion} (h : Lends P (lib.after log))
    (hanswers : Answers (env.forwarding lib) (revocations dom true pages ++ log)) :
    Lends (fun dom' a => P dom' a ∧ ¬ (dom' = dom ∧ ∃ pa ∈ pages, pa.Covers a)) (lib.after (revocations dom true pages ++ log)) := by
  induction pages generalizing log P with
  | nil => exact h.mono fun dom' a hP => ⟨hP, fun hthere => by simpa using hthere.2⟩
  | cons pa pages ih =>
    have hcons : revocations dom true (pa :: pages) ++ log =
        revocations dom true pages ++ .revokeRegion dom pa.start pa.end_ true :: log := by simp [revocations]
    rw [hcons] at hanswers ⊢
    refine (ih (lends_revocation h hanswers.later.1) hanswers).mono fun dom' a hP => ⟨hP.1.1, ?_⟩
    rintro ⟨rfl, q, hq, hcovers⟩
    rcases List.mem_cons.1 hq with rfl | hq
    · exact hP.1.2 ⟨rfl, hcovers⟩
    · exact hP.2 ⟨rfl, q, hq, hcovers⟩

end Events

/-! ## Commands -/

section Commands

variable {env : Env} {lib : Library} {Q : Nat → Nat → Prop} {reqs : List AddRegion} {x y : Encl × List Event}

/-- An addition loses no address of a canonical list. -/
theorem Canonical.covers_addMergeGlobal {l : List PaRegion} (h : Canonical l) {region : PaRegion} (hr : region.Page) {a : Nat}
    (ha : ∃ pa ∈ l, pa.Covers a) : ∃ pa ∈ (Enclave.addMergeGlobal l region).2, pa.Covers a := by
  rcases addMergeGlobal_cases h hr.lt with ⟨-, l', heq, -, htyped⟩ | ⟨-, heq⟩
  · obtain ⟨pa, hpa, hcovers⟩ := ha
    obtain ⟨q, hq, hq', -⟩ := (htyped a pa.tpe).2 (.inl ⟨pa, hpa, hcovers, rfl⟩)
    rw [heq]
    exact ⟨q, hq, hq'⟩
  · rwa [heq]

/-- What was recorded stays recorded. -/
theorem Preparation.has {a : Nat} (hstep : Preparation x y) (h : Standing reqs x.1) (hx : Canonical x.1.allPages)
    (hframes : FramesOnly y.2) (ha : x.1.Has a) : y.1.Has a := by
  cases hstep with
  | unused e log f ks allPages hf hks hpages =>
    have hframe : Frame f := hframes f (by simp)
    rcases hpages with rfl | ⟨ret, -, hadd⟩
    · exact ha
    · rw [add64_frame hframe] at hadd
      have hkept := Canonical.covers_addMergeGlobal hx (tablePage_page hframe) ha
      rwa [tablePage, hadd] at hkept
  | table e log f hf =>
    have hframe : Frame f := hframes f (by simp)
    unfold Encl.Has
    dsimp only
    rw [add64_frame hframe]
    exact Canonical.covers_addMergeGlobal hx (tablePage_page hframe) ha
  | merge e log r pa hr hpa => exact Canonical.covers_addMergeGlobal hx ((h.regions r hr).pas pa hpa).1 ha
  | kmalloc | collect | noPage | root => exact ha

/-- The domain of the enclave may have what the enclave has recorded, and others what they had. -/
def Encl.Allows (Q : Nat → Nat → Prop) (e : Encl) (dom a : Nat) : Prop := Q dom a ∨ dom = e.tycheHandle ∧ e.Has a

/-- **A commit** transfers what it has recorded. -/
theorem Effects.lends (hsteps : Effects x y) (h : Standing reqs x.1) (hx : Canonical x.1.allPages) (hframes : FramesOnly y.2)
    (hwhole : lib.Whole y.2) (hlends : Lends (x.1.Allows Q) (lib.after x.2)) : Lends (y.1.Allows Q) (lib.after y.2) := by
  induction hsteps with
  | refl => exact hlends
  | @tail y z hbefore hstep ih =>
    obtain ⟨events, hlog, -⟩ := hstep.calls rfl
    have hid := hstep.identity
    rw [hlog] at hframes hwhole
    have hcanonical := Effects.canonical hbefore h hx hframes.of_suffix
    have hlast := ih hframes.of_suffix hwhole.later
    cases hstep with
    | prepare hstep =>
      have hgrown : Lends (z.1.Allows Q) (lib.after y.2) := hlast.mono fun dom a hallows => hallows.imp_right fun hhas =>
        ⟨hhas.1.trans hid.tycheHandle.symm, hstep.has (h.effects hbefore) hcanonical (by rwa [hlog]) hhas.2⟩
      obtain ⟨events', hlog', hquiet⟩ := hstep.calls
      rw [hlog]
      exact lends_events hgrown hwhole fun ev hev =>
        Event.keeps_of_monitor (hquiet ev (by rwa [List.append_cancel_right (hlog'.symm.trans hlog)]))
    | transfer e log pa ok hpa =>
      obtain rfl : events = [_] := List.append_cancel_right (hlog.symm.trans (List.singleton_append ..).symm)
      refine lends_event hlast hwhole fun dom start end_ tpe ok' heq => ?_
      obtain ⟨rfl, rfl, rfl, -, -⟩ := Event.transferCapability.inj heq
      exact ⟨hcanonical.1 pa hpa, fun a h1 h2 => .inr ⟨rfl, pa, hpa, h1, h2⟩⟩
    | sealing e log stack entry invoke =>
      obtain rfl : events = [_] := List.append_cancel_right (hlog.symm.trans (List.singleton_append ..).symm)
      exact lends_event hlast hwhole fun _ _ _ _ _ heq => by cases heq

theorem mem_revocations {dom : Nat} {ok : Bool} {pages : List PaRegion} {ev : Event} (h : ev ∈ revocations dom ok pages) :
    ∃ ok pa, ev = Event.revokeRegion dom (PaRegion.start pa) (PaRegion.end_ pa) ok := by
  obtain ⟨pa, -, rfl⟩ := List.mem_map.1 (List.mem_reverse.1 h)
  exact ⟨ok, pa, rfl⟩

/-- What the enclaves have recorded: what the one found has, and what the others have. -/
theorem hasRecorded_list {c : Cursor Encl} {dom a : Nat} :
    HasRecorded c.list dom a ↔ c.elem.Allows (HasRecorded c.remove) dom a := by
  unfold HasRecorded Encl.Allows
  constructor
  · rintro ⟨e, he, hdom, hhas⟩
    rcases Cursor.mem_list.1 he with rfl | he
    · exact .inr ⟨hdom.symm, hhas⟩
    · exact .inl ⟨e, he, hdom, hhas⟩
  · rintro (⟨e, he, hdom, hhas⟩ | ⟨hdom, hhas⟩)
    · exact ⟨e, Cursor.mem_list.2 (.inr he), hdom, hhas⟩
    · exact ⟨c.elem, c.elem_mem, hdom.symm, hhas⟩

end Commands

/-- The commands of such a run: the allocator hands out frames, and no
transfer splits an entry that holds revocation handles. -/
structure Undivided (lib : Library) (cmd : Command) (t : Driver) : Prop where
  words : cmd.Words
  frames : FramesOnly t.log
  whole : lib.Whole t.log

/-- **Every command keeps it**: what is lent, an enclave has recorded. -/
theorem ioctl_lends {env : Env} {lib : Library} {mem : Nat → Nat → Nat} {requests : Nat → List AddRegion} {pid : Nat}
    {s t : Driver} {cmd : Command} {out : Outcome Int} (h : Requested (env.forwarding lib) mem s requests)
    (heq : s.ioctl (env.forwarding lib) pid cmd = (out, t)) (hundivided : Undivided lib cmd t)
    (hanswers : Answers (env.forwarding lib) t.log) (hlends : Lends (HasRecorded s.enclaves) (lib.after s.log)) :
    Lends (HasRecorded t.enclaves) (lib.after t.log) := by
  have hframes := hundivided.frames
  have hwhole := hundivided.whole
  have hchange := ioctl_change (env.forwarding lib) pid s cmd
  rw [heq] at hchange
  obtain ⟨events, hlog, -⟩ := hchange.calls
  have hbefore : FramesOnly s.log := by
    rw [hlog] at hframes
    exact hframes.of_suffix
  -- An enclave is rewritten, and keeps its domain and what it has recorded.
  have hsame : ∀ {c : Cursor Encl} {e : Encl}, c.list = s.enclaves → e.tycheHandle = c.elem.tycheHandle →
      e.allPages = c.elem.allPages → ∀ dom a, HasRecorded s.enclaves dom a → HasRecorded (c.put e).list dom a := by
    intro c e hlist hdomain hpages dom a hrecorded
    rw [← hlist, hasRecorded_list] at hrecorded
    refine hasRecorded_list.2 ?_
    unfold Encl.Allows Encl.Has at hrecorded ⊢
    rwa [Cursor.put_elem, hdomain, hpages]
  cases hchange with
  | idle cmd tycheIds ks hks =>
    refine lends_events hlends hwhole fun ev hev => ?_
    rcases hks ev hev with ⟨ok, rfl⟩ | rfl <;> rfl
  | debugged handle result index => exact @lends_events lib _ _ [_] hlends hwhole (by simp [Event.keeps])
  | entered transition c ret result index hfind =>
    exact @lends_events lib _ _ [_] (hlends.mono (hsame (findEnclave_some hfind).1 rfl rfl)) hwhole (by simp [Event.keeps])
  | created out domain hnew =>
    refine @lends_events lib _ _ [_, _] (hlends.mono fun dom a hrecorded => ?_) hwhole (by simp [Event.keeps])
    obtain ⟨e, he, hhas⟩ := hrecorded
    exact ⟨e, List.mem_append_left _ he, hhas⟩
  | region cmd region c ok ret stack hcmd hfind hcheck hstack hret =>
    exact @lends_events lib _ _ [_] (hlends.mono (hsame (findEnclave_some hfind).1 rfl rfl)) hwhole (by simp [Event.keeps])
  | committed commit out c o o' site hfind hcommit ho =>
    obtain ⟨hlist, -⟩ := findEnclave_some hfind
    have hstanding := h.standing c.elem (hlist ▸ c.elem_mem)
    have hstart : Lends (c.elem.Allows (HasRecorded c.remove)) (lib.after s.log) := hlends.mono fun dom a hrecorded =>
      hasRecorded_list.1 (by rwa [hlist])
    suffices hend : Lends (site.encl.Allows (HasRecorded c.remove)) (lib.after site.log) from
      hend.mono fun dom a hallows => hasRecorded_list.2 hallows
    have hcanonical := h.canonical hbefore c.elem (hlist ▸ c.elem_mem)
    obtain ⟨mem', e, log, heffects, hcase⟩ := commitEnclave_effects (env.forwarding lib) commit ⟨s.mem, s.log, c.elem⟩
    rw [hcommit] at hcase
    rcases hcase with ⟨o'', -, hsite⟩ | hsite
    · obtain ⟨-, rfl⟩ := Prod.mk.inj hsite
      exact Effects.lends heffects hstanding hcanonical hframes hwhole hstart
    -- The failure path gives pages back, and leaves what is recorded.
    · obtain ⟨frees, hfailure, hfrees⟩ := commitFailure_log ⟨mem', log, e⟩
      have hsite : site = (commitFailure ⟨mem', log, e⟩).2 := congrArg Prod.snd hsite
      have hkept : Encl.Allows (HasRecorded c.remove) site.encl = Encl.Allows (HasRecorded c.remove) e := by
        rw [hsite, commitFailure]
        split <;> rfl
      have hframes : FramesOnly site.log := hframes
      have hwhole : lib.Whole site.log := hwhole
      rw [← hsite] at hfailure
      rw [hfailure] at hframes hwhole ⊢
      rw [hkept]
      refine lends_events (Effects.lends heffects hstanding hcanonical hframes.of_suffix hwhole.later hstart) hwhole fun ev hev => ?_
      obtain ⟨f, rfl⟩ := hfrees ev hev
      rfl
  | unrevoked handle c o events hfind hrevoke =>
    refine lends_events hlends hwhole fun ev hev => ?_
    obtain ⟨ok, pa, rfl⟩ : ∃ ok pa, ev = Event.revokeRegion c.elem.tycheHandle (PaRegion.start pa) (PaRegion.end_ pa) ok := by
      rcases hrevoke with ⟨-, done, pa, rest, -, rfl⟩ | ⟨-, rfl⟩
      · rcases List.mem_append.1 hev with hev | hev
        · exact mem_revocations hev
        · exact mem_revocations hev
      · exact mem_revocations hev
    rfl
  | deleted handle c hfind hstale =>
    refine (lends_revocations hlends hanswers).mono fun dom a hgone => ?_
    obtain ⟨hrecorded, hnot⟩ := hgone
    rw [← (findEnclave_some hfind).1, hasRecorded_list] at hrecorded
    exact hrecorded.resolve_right hnot

/-! ## Runs -/

section Runs

variable {env : Env} {lib : Library} {mem : Nat → Nat → Nat} {s : Driver}

/-- Where no transfer splits an entry that holds handles, the status agrees with them. -/
theorem agreeing_after {log : List Event} (hwhole : lib.Whole log) : Capa.Agreeing (lib.after log) := by
  induction log with
  | nil =>
    intro c hc _
    obtain ⟨hstatus, hrevoks⟩ := (Capa.initDomain_fresh lib.init).entries c hc
    exact Capa.Capability.agrees_active hstatus hrevoks
  | cons ev log ih =>
    have hbefore := ih hwhole.2
    have hl := (lib.orderly log).ledger
    show Capa.Agreeing (ev.forward (lib.monitor log) (lib.after log))
    cases hcall : ev.call with
    | none =>
      rcases forward_none (lib.monitor log) (lib.after log) hcall with heq | ⟨f, ans, -, -, heq⟩
      · rwa [heq]
      · rwa [heq]
    | some call =>
      have hapi : call.isApi = true := by cases ev <;> cases hcall <;> rfl
      obtain ⟨es, hp, hes⟩ := Capa.Call.run_effects hl.active (Prod.eta (call.run (lib.monitor log) (lib.after log))).symm
      rw [forward_call hcall]
      refine (hp.invariant (P := fun s => Capa.Ledger s ∧ Capa.Agreeing s) ?_ ⟨hl, hbefore⟩).2
      exact fun e hmem s t hs hm => ⟨hs.1.micro hm, hs.2.micro hs.1 hm (hes.strips hapi (hwhole.strips hcall) e hmem)⟩

/-- **What is lent is recorded**, in every state of such a run. -/
theorem run_lends (hrun : Run (env.forwarding lib) (fun _ _ cmd t => Undivided lib cmd t) (Driver.boot mem) s) :
    Lends (HasRecorded s.enclaves) (lib.after s.log) := by
  induction hrun with
  | refl => exact fun c hc => Capa.Capability.lends_nil ((Capa.initDomain_fresh lib.init).entries c hc).2
  | @tail s t hbefore hstep ih =>
    have hwords : Run (env.forwarding lib) (fun _ _ cmd _ => cmd.Words) (Driver.boot mem) s :=
      Relation.ReflTransGen.mono (fun _ _ ⟨pid, cmd, out, heq, hout, h⟩ => ⟨pid, cmd, out, heq, hout, h.words⟩) _ _ hbefore
    obtain ⟨requests, hrequested⟩ := run_requested hwords
    have hanswers := run_answers (hbefore.tail hstep)
    obtain ⟨pid, cmd, out, heq, -, hundivided⟩ := hstep
    exact ioctl_lends hrequested heq hundivided hanswers ih

/-- What domains hold is held by enclaves: each handle of a grant or a share
was revoked, or its domain is that of an enclave; and where no enclave has
recorded anything, an entry is active. -/
structure Reclaimed (lib : Library) (s : Driver) : Prop where
  handles : ∀ r ∈ Capa.granted (lib.after s.log).log,
    r.revokHandle ∈ Capa.revoked (lib.after s.log).log ∨ ∃ e ∈ s.enclaves, e.tycheHandle = r.domain ∧ e.allPages ≠ []
  active : ∀ c ∈ (lib.after s.log).capabilities, c.isOwned ≠ 0 →
    (∀ a, c.covers a = true → ∀ e ∈ s.enclaves, ¬ e.Has a) → c.status = .active

end Runs

end Tyche.Enclave
