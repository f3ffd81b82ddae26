/-
The deletion of an enclave (`delete_enclave`): it succeeds when each range the
enclave has recorded is one its domain holds, and none of its pages was freed.
A run keeps both, as long as its commits do not fail halfway, no transfer
splits what a domain holds, and no deletion is refused halfway.
-/
import Tyche.Enclave.Library
import Tyche.Enclave.Transfer
import Mathlib.Data.List.Nodup

namespace Tyche.Enclave

open Tyche.Pts (Outcome)

/-! ## What the enclaves have recorded -/

/-- The ranges an enclave has recorded, with its domain. -/
def Encl.dues (e : Encl) : List Due := e.allPages.map fun pa => ⟨e.tycheHandle, pa.start, pa.end_⟩

/-- Those of all enclaves. -/
def duesOf (l : List Encl) : List Due := l.flatMap Encl.dues

section Dues

variable {c : Cursor Encl} {e : Encl} {d : Due}

theorem mem_dues : d ∈ e.dues ↔ ∃ pa ∈ e.allPages, (⟨e.tycheHandle, pa.start, pa.end_⟩ : Due) = d := List.mem_map

theorem duesOf_perm (c : Cursor Encl) : (duesOf c.list).Perm (c.elem.dues ++ duesOf c.remove) :=
  c.list_perm.flatMap_right Encl.dues

theorem mem_duesOf : d ∈ duesOf c.list ↔ d ∈ c.elem.dues ∨ d ∈ duesOf c.remove := by
  rw [(duesOf_perm c).mem_iff, List.mem_append]

theorem duesOf_put (h : e.dues = c.elem.dues) : duesOf (c.put e).list = duesOf c.list := by
  simp [duesOf, Cursor.list, h]

/-- The ranges of a canonical list differ. -/
theorem Canonical.dues_nodup (h : Canonical e.allPages) : e.dues.Nodup := by
  refine List.pairwise_map.2 (List.Pairwise.imp_of_mem (fun {a b} ha _ hab heq => ?_) h.2)
  have hlt := h.1 a ha
  have hstart : a.start = b.start := congrArg Due.start heq
  have hle := hab.1
  omega

/-- The ranges still differ when those of one enclave do, and the new ones are
not of another. -/
theorem put_nodup (h : (duesOf c.list).Nodup) (he : e.dues.Nodup) (hnew : ∀ d ∈ e.dues, d ∈ c.elem.dues ∨ d ∉ duesOf c.remove) :
    (duesOf (c.put e).list).Nodup := by
  rw [(duesOf_perm _).nodup_iff, List.nodup_append'] at h ⊢
  refine ⟨he, h.2.1, fun d hd hrest => ?_⟩
  rcases hnew d hd with hold | hnot
  · exact h.2.2 hold hrest
  · exact hnot hrest

end Dues

/-! ## The regions -/

/-- Merged regions are not stale when neither was. -/
theorem regionMerging_keeps_fresh : regionMerging.Keeps fun r => r.stale = false where
  absorb _ _ _ hn := hn
  extend _ _ _ he := he

theorem addRegion_fresh (mem : Bool) (req : AddRegion) {l : List Region} (h : ∀ r ∈ l, r.stale = false) :
    ∀ r ∈ (addRegion mem req l).2, r.stale = false :=
  addRegion_keeps regionMerging_keeps_fresh mem h fun _ => rfl

/-! ## The invariant -/

/-- What the driver has recorded is what the domains hold, each range once, and
no page was freed. -/
structure Settled (lib : Library) (s : Driver) : Prop where
  fresh : ∀ e ∈ s.enclaves, ∀ r ∈ e.regions, r.stale = false
  held : ∀ d ∈ duesOf s.enclaves, d.Held (lib.after s.log)
  once : (duesOf s.enclaves).Nodup

/-- What a commit made of the enclave: no region is stale, and each range that is
recorded was recorded before, or transferred by the commit. -/
def Completed (events : List Event) (e e' : Encl) : Prop :=
  (∀ r ∈ e'.regions, r.stale = false) ∧ ∀ pa ∈ e'.allPages, pa ∈ e.allPages ∨
    .transferCapability e'.tycheHandle pa.start pa.end_ pa.tpe true ∈ events

instance (events : List Event) (e e' : Encl) : Decidable (Completed events e e') := inferInstanceAs (Decidable (_ ∧ _))

/-- The command stops nowhere halfway: what a commit has recorded it has
transferred, and the monitor accepts no revocation of a deletion that fails. -/
def Finishes (env : Env) (lib : Library) (s : Driver) (pid : Nat) (t : Driver) : Command → Prop
  | .commit commit _ => ∀ c ∈ findEnclave pid commit.handle s.enclaves, ∀ d ∈ findEnclave pid commit.handle t.enclaves,
    Completed (s.did t) c.elem d.elem
  | .delete handle => (s.ioctl (env.forwarding lib) pid (.delete handle)).1 = .ret 0 ∨ Capa.revoked (lib.asked s t) = []
  | _ => True

instance (env : Env) (lib : Library) (s : Driver) (pid : Nat) (t : Driver) : (cmd : Command) → Decidable (Finishes env lib s pid t cmd)
  | .commit commit _ => inferInstanceAs (Decidable (∀ c ∈ findEnclave pid commit.handle s.enclaves,
      ∀ d ∈ findEnclave pid commit.handle t.enclaves, Completed (s.did t) c.elem d.elem))
  | .delete _ => inferInstanceAs (Decidable (_ ∨ _))
  | .dbg _ | .transition _ | .create _ | .addRegion _ | .addStack _ | .other => .isTrue trivial

/-- The commands of such a run: they stop nowhere halfway, the allocator hands
out frames, and no transfer splits an entry that holds revocation handles. -/
structure Tidy (env : Env) (lib : Library) (s : Driver) (pid : Nat) (cmd : Command) (t : Driver) : Prop where
  words : cmd.Words
  frames : FramesOnly t.log
  whole : lib.Whole t.log
  finishes : Finishes env lib s pid t cmd

section Steps

variable {env : Env} {lib : Library} {s t : Driver} {events : List Event}

/-- Nothing was recorded, and nothing taken back. -/
theorem Settled.kept (h : Settled lib s) (events : List Event) (hlog : t.log = events ++ s.log) (hquiet : ∀ ev ∈ events, ev.withdraws = false)
    (hanswers : Answers (env.forwarding lib) t.log) (hwhole : lib.Whole t.log) (hdues : duesOf t.enclaves = duesOf s.enclaves)
    (hfresh : ∀ e ∈ t.enclaves, ∀ r ∈ e.regions, r.stale = false) : Settled lib t := by
  rw [hlog] at hanswers hwhole
  refine ⟨hfresh, fun d hd => ?_, hdues ▸ h.once⟩
  rw [hlog]
  exact (h.held d (hdues ▸ hd)).kept hwhole hanswers hquiet

/-- **A commit that completes** gives its domain all it records. -/
theorem Settled.committed {c : Cursor Encl} {e : Encl} (h : Settled lib s) (hlist : c.list = s.enclaves)
    (henclaves : t.enclaves = (c.put e).list) (hid : Identity c.elem e) (hcanonical : Canonical e.allPages)
    (hlog : t.log = events ++ s.log) (hquiet : ∀ ev ∈ events, ev.withdraws = false)
    (hanswers : Answers (env.forwarding lib) t.log) (hwhole : lib.Whole t.log) (hcompleted : Completed events c.elem e) :
    Settled lib t := by
  rw [hlog] at hanswers hwhole
  have hheld := h.held
  have honce := h.once
  rw [← hlist] at hheld honce
  -- A range the enclave records is one it had, or no domain's.
  have hnew : ∀ d ∈ e.dues, d ∈ c.elem.dues ∨
      d.Held (lib.after t.log) ∧ ∀ o : Due, o.Held (lib.after s.log) → o ≠ d := by
    intro d hd
    obtain ⟨pa, hpa, rfl⟩ := mem_dues.1 hd
    rcases hcompleted.2 pa hpa with hold | hev
    · exact .inl (mem_dues.2 ⟨pa, hold, by rw [hid.tycheHandle]⟩)
    · rw [hlog]
      exact .inr (held_of_transferred (d := ⟨e.tycheHandle, pa.start, pa.end_⟩) hwhole hanswers hquiet hev)
  have hkept : ∀ d ∈ duesOf c.list, d.Held (lib.after t.log) := fun d hd => by
    rw [hlog]
    exact (hheld d hd).kept hwhole hanswers hquiet
  refine ⟨?_, ?_, ?_⟩
  · rw [henclaves]
    exact forall_put hlist h.fresh fun _ => hcompleted.1
  · rw [henclaves]
    intro d hd
    rcases mem_duesOf.1 hd with hd | hd
    · rcases hnew d hd with hold | ⟨hgiven, -⟩
      · exact hkept d (mem_duesOf.2 (.inl hold))
      · exact hgiven
    · exact hkept d (mem_duesOf.2 (.inr hd))
  · rw [henclaves]
    refine put_nodup honce hcanonical.dues_nodup fun d hd => ?_
    rcases hnew d hd with hold | ⟨-, hother⟩
    · exact .inl hold
    · exact .inr fun hrest => hother d (hheld d (mem_duesOf.2 (.inr hrest))) rfl

/-- A deletion takes nothing from another enclave. -/
theorem Settled.deleted {c : Cursor Encl} (h : Settled lib s) (hlist : c.list = s.enclaves) (henclaves : t.enclaves = c.remove)
    (hlog : t.log = revocations c.elem.tycheHandle true c.elem.allPages ++ s.log)
    (hanswers : Answers (env.forwarding lib) t.log) (hwhole : lib.Whole t.log) : Settled lib t := by
  have hheld := h.held
  have honce := h.once
  rw [← hlist] at hheld honce
  rw [(duesOf_perm c).nodup_iff, List.nodup_append'] at honce
  rw [hlog] at hanswers hwhole
  refine ⟨fun e he => h.fresh e (hlist ▸ Cursor.mem_list.2 (.inr (henclaves ▸ he))), fun d hd => ?_, henclaves ▸ honce.2.1⟩
  rw [henclaves] at hd
  rw [hlog]
  refine (hheld d (mem_duesOf.2 (.inr hd))).events hwhole hanswers fun domain start end_ ok hev => ?_
  obtain ⟨pa, hpa, heq⟩ := List.mem_map.1 (List.mem_reverse.1 hev)
  cases heq
  refine ⟨rfl, ?_⟩
  rintro rfl
  exact honce.2.2 (mem_dues.2 ⟨pa, hpa, rfl⟩) hd

end Steps

/-- **Every command keeps it.** -/
theorem ioctl_settled {env : Env} {lib : Library} {pid : Nat} {s t : Driver} {cmd : Command} {out : Outcome Int}
    (heq : s.ioctl (env.forwarding lib) pid cmd = (out, t)) (hout : out ≠ .freed) (htidy : Tidy env lib s pid cmd t)
    (hanswers : Answers (env.forwarding lib) t.log) (hcanonical : ∀ e ∈ t.enclaves, Canonical e.allPages)
    (h : Settled lib s) : Settled lib t := by
  have hwhole := htidy.whole
  have hfinishes := htidy.finishes
  have hchange := ioctl_change (env.forwarding lib) pid s cmd
  rw [heq] at hchange
  cases hchange with
  | idle cmd tycheIds ks hks =>
    refine h.kept ks rfl (fun ev hev => ?_) hanswers hwhole rfl h.fresh
    rcases hks ev hev with ⟨ok, rfl⟩ | rfl <;> rfl
  | debugged handle result index => exact h.kept [_] rfl (by simp [Event.withdraws]) hanswers hwhole rfl h.fresh
  | entered transition c ret result index hfind =>
    obtain ⟨hlist, -⟩ := findEnclave_some hfind
    refine h.kept [_] rfl (by simp [Event.withdraws]) hanswers hwhole ?_ (forall_put hlist h.fresh fun hc => hc)
    rw [← hlist]
    exact duesOf_put rfl
  | created out domain hnew =>
    refine h.kept [_, _] rfl (by simp [Event.withdraws]) hanswers hwhole (by simp [duesOf, Encl.dues]) ?_
    intro e he
    rcases List.mem_append.1 he with he | he
    · exact h.fresh e he
    · obtain rfl := List.mem_singleton.1 he
      exact fun r hr => absurd hr List.not_mem_nil
  | region cmd region c ok ret stack hcmd hfind hcheck hstack hret =>
    obtain ⟨hlist, -⟩ := findEnclave_some hfind
    refine h.kept [_] rfl (by simp [Event.withdraws]) hanswers hwhole ?_
      (forall_put hlist h.fresh fun hc => addRegion_fresh ok region hc)
    rw [← hlist]
    exact duesOf_put rfl
  | committed commit out c o o' site hfind hcommit ho =>
    obtain ⟨hlist, -⟩ := findEnclave_some hfind
    have hid := (commitEnclave_calls (env.forwarding lib) commit ⟨s.mem, s.log, c.elem⟩).1
    obtain ⟨events, hlog, hquiet⟩ := (commitEnclave_asks (env.forwarding lib) commit ⟨s.mem, s.log, c.elem⟩).events
    rw [hcommit] at hid hlog
    have hcompleted := hfinishes c hfind _ (findEnclave_put hfind hid.handle hid.pid)
    rw [did_eq (show _ = events ++ s.log from hlog)] at hcompleted
    exact h.committed hlist rfl hid (hcanonical _ (Cursor.elem_mem (c.put site.encl))) hlog hquiet hanswers hwhole hcompleted
  | unrevoked handle c o events hfind hrevoke =>
    have hnone : Capa.revoked (lib.asked s { s with log := events ++ s.log }) = [] := by
      refine hfinishes.resolve_left fun hret => ?_
      rw [heq] at hret
      rcases hrevoke with ⟨rfl, -⟩ | ⟨rfl, -⟩
      · cases hret
      · exact hout rfl
    exact ⟨h.fresh, fun d hd => (h.held d hd).unrevoked hwhole hnone, h.once⟩
  | deleted handle c hfind hstale => exact h.deleted (findEnclave_some hfind).1 rfl rfl hanswers hwhole

/-- **What is recorded is held**, in every state of a tidy run. -/
theorem run_settled {env : Env} {lib : Library} {mem : Nat → Nat → Nat} {s : Driver}
    (hrun : Run (env.forwarding lib) (Tidy env lib) (Driver.boot mem) s) : Settled lib s := by
  induction hrun with
  | refl => exact ⟨fun e he => (nomatch he), fun d hd => (nomatch hd), .nil⟩
  | @tail s t hbefore hstep ih =>
    have hrun : Run (env.forwarding lib) (Tidy env lib) (Driver.boot mem) t := hbefore.tail hstep
    have hwords : Run (env.forwarding lib) (fun _ _ cmd _ => cmd.Words) (Driver.boot mem) t :=
      Relation.ReflTransGen.mono (fun _ _ ⟨pid, cmd, out, heq, hout, htidy⟩ => ⟨pid, cmd, out, heq, hout, htidy.words⟩) _ _ hrun
    obtain ⟨requests, hrequested⟩ := run_requested hwords
    obtain ⟨pid, cmd, out, heq, hout, htidy⟩ := hstep
    exact ioctl_settled heq hout htidy (run_answers hrun) (hrequested.canonical htidy.frames) ih

/-! ## The deletion -/

/-- The enclave found is the only one with its handle. -/
theorem findEnclave_mem {l : List Encl} {e : Encl} (hnodup : (l.map (·.handle)).Nodup) (he : e ∈ l) :
    ∃ c, findEnclave e.pid e.handle l = some c ∧ c.elem = e ∧ c.remove = l.filter (·.handle ≠ e.handle) := by
  obtain ⟨c, hfind⟩ := Cursor.find_isSome (p := fun encl => encl.handle == e.handle) he (beq_self_eq_true _)
  obtain ⟨hlist, hhandle, -⟩ := Cursor.find_some hfind
  have hsame : c.elem = e := List.inj_on_of_nodup_map hnodup (hlist ▸ c.elem_mem) he (by simpa using hhandle)
  refine ⟨c, ?_, hsame, ?_⟩
  · unfold findEnclave
    rw [hfind]
    simp [hsame]
  · -- Every other enclave has another handle.
    have hother : ∀ x ∈ c.remove, x.handle ≠ e.handle := by
      rw [← hlist, (c.list_perm.map _).nodup_iff, List.map_cons, List.nodup_cons, hsame] at hnodup
      exact fun x hx heq => hnodup.1 (heq ▸ List.mem_map_of_mem hx)
    rw [← hlist, Cursor.list, List.filter_append, List.filter_cons_of_neg (by simp [hsame]), ← List.filter_append]
    exact (List.filter_eq_self.2 fun x hx => by simpa using hother x hx).symm

/-- One of the revocations of these ranges, each after those before it, reads
through NULL. -/
def Library.readsNull (lib : Library) (dom : Nat) : List PaRegion → List Event → Bool
  | [], _ => false
  | pa :: rest, log =>
    Capa.faultsOnRevoke pa.start pa.end_ (lib.after log) ||
      lib.readsNull dom rest (.revokeRegion dom pa.start pa.end_ true :: log)

/-- **Ranges that the domain holds are all revoked**, when the monitor accepts
it, unless one of the revocations reads through NULL. -/
theorem revokePages_held (env : Env) {lib : Library} {dom : Nat} {pages : List PaRegion} {log : List Event}
    (hwhole : lib.Whole log) (hheld : ∀ pa ∈ pages, Due.Held ⟨dom, pa.start, pa.end_⟩ (lib.after log))
    (honce : (pages.map fun pa => (⟨dom, pa.start, pa.end_⟩ : Due)).Nodup)
    (hacc : Capa.Accepted (Capa.newEvents (lib.after log) (lib.after (revokePages (env.forwarding lib) dom pages log).2))) :
    (revokePages (env.forwarding lib) dom pages log).1 = 0 ↔ lib.readsNull dom pages log = false := by
  induction pages generalizing log with
  | nil => simp [revokePages, Library.readsNull]
  | cons pa rest ih =>
    have horderly := lib.orderly log
    obtain ⟨hlt, hfirst⟩ := hheld pa (List.mem_cons_self ..)
    have hiff : Capa.Accepted (Capa.newEvents (lib.after log)
          (Capa.revokeCapa (lib.monitor log) dom pa.start pa.end_ (lib.after log)).2) →
        ((Capa.revokeCapa (lib.monitor log) dom pa.start pa.end_ (lib.after log)).1 = .ret 0 ↔
          Capa.faultsOnRevoke pa.start pa.end_ (lib.after log) = false) :=
      hfirst.revokeCapa horderly.ledger hlt (horderly.apart _)
    cases hok : (env.forwarding lib).revokeRegion log dom pa.start pa.end_ with
    | false =>
      have hrevoke : revokePages (env.forwarding lib) dom (pa :: rest) log = (-1, .revokeRegion dom pa.start pa.end_ false :: log) := by
        rw [revokePages, tycheRevokeRegion, hok]
        rfl
      rw [hrevoke] at hacc ⊢
      have hfault : Capa.faultsOnRevoke pa.start pa.end_ (lib.after log) = true := by
        rw [← Bool.not_eq_false, ← hiff hacc]
        exact of_decide_eq_false hok
      simp [Library.readsNull, hfault]
    | true =>
      have hrevoke : revokePages (env.forwarding lib) dom (pa :: rest) log =
          revokePages (env.forwarding lib) dom rest (.revokeRegion dom pa.start pa.end_ true :: log) := by
        rw [revokePages, tycheRevokeRegion, hok]
        rfl
      rw [hrevoke] at hacc ⊢
      rw [List.map_cons, List.nodup_cons] at honce
      obtain ⟨events, hlog⟩ : ∃ events, (revokePages (env.forwarding lib) dom rest
          (.revokeRegion dom pa.start pa.end_ true :: log)).2 = events ++ .revokeRegion dom pa.start pa.end_ true :: log := by
        rcases revokePages_cases (env.forwarding lib) dom rest (.revokeRegion dom pa.start pa.end_ true :: log) with
          h | ⟨done, q, rest', -, h⟩ <;> exact ⟨_, congrArg Prod.snd h⟩
      have hstep := lib.log_suffix [.revokeRegion dom pa.start pa.end_ true] log
      have hrest := lib.log_suffix events (.revokeRegion dom pa.start pa.end_ true :: log)
      rw [← hlog] at hrest
      rw [newEvents_trans hstep hrest] at hacc
      have hnone : Capa.faultsOnRevoke pa.start pa.end_ (lib.after log) = false :=
        (hiff fun ev hev => hacc ev (List.mem_append_right _ hev)).1 (of_decide_eq_true hok)
      have hwhole' : lib.Whole (.revokeRegion dom pa.start pa.end_ true :: log) := ⟨rfl, hwhole⟩
      rw [Library.readsNull, hnone, Bool.false_or]
      refine ih hwhole' (fun q hq => ?_) honce.2 fun ev hev => hacc ev (List.mem_append_left _ hev)
      -- The other ranges are still held.
      refine (hheld q (List.mem_cons_of_mem _ hq)).event hwhole' hok.symm fun domain start end_ ok heq => ?_
      cases heq
      exact ⟨rfl, fun heq => honce.1 (heq ▸ List.mem_map_of_mem hq)⟩

/-- **An enclave can be deleted by its owner**, in every state of a tidy run:
the deletion returns 0 and removes it, when the monitor accepts each
revocation, unless one of them reads through NULL. -/
theorem deletion_succeeds (env : Env) (lib : Library) (mem : Nat → Nat → Nat) {s : Driver} {e : Encl}
    (hrun : Run (env.forwarding lib) (Tidy env lib) (Driver.boot mem) s) (he : e ∈ s.enclaves)
    (hacc : Capa.Accepted (lib.asked s (s.ioctl (env.forwarding lib) e.pid (.delete e.handle)).2)) :
    ((s.ioctl (env.forwarding lib) e.pid (.delete e.handle)).1 = .ret 0 ∧
        (s.ioctl (env.forwarding lib) e.pid (.delete e.handle)).2.enclaves = s.enclaves.filter (·.handle ≠ e.handle)) ↔
      lib.readsNull e.tycheHandle e.allPages s.log = false := by
  have hsettled := run_settled hrun
  have hwhole : lib.Whole s.log := by
    rcases hrun.cases_tail with rfl | ⟨_, _, _, _, _, _, _, htidy⟩
    · trivial
    · exact htidy.whole
  obtain ⟨c, hfind, rfl, hremove⟩ := findEnclave_mem (run_handles hrun) he
  have hstale : c.elem.regions.any (·.stale) = false := List.any_eq_false.2 fun r hr => by simp [hsettled.fresh _ he r hr]
  have hdues : ∀ pa ∈ c.elem.allPages, Due.Held ⟨c.elem.tycheHandle, pa.start, pa.end_⟩ (lib.after s.log) := fun pa hpa =>
    hsettled.held _ (List.mem_flatMap.2 ⟨c.elem, he, mem_dues.2 ⟨pa, hpa, rfl⟩⟩)
  have honce : c.elem.dues.Nodup := by
    have hall := hsettled.once
    rw [← (findEnclave_some hfind).1, (duesOf_perm c).nodup_iff] at hall
    exact (List.nodup_append'.1 hall).1
  have hpages := revokePages_held env hwhole hdues honce
  rcases hrevoke : revokePages (env.forwarding lib) c.elem.tycheHandle c.elem.allPages s.log with ⟨ret, log⟩
  have hdelete : s.ioctl (env.forwarding lib) c.elem.pid (.delete c.elem.handle) =
      if ret ≠ 0 then (.ret (-1), { s with log := log }) else (.ret 0, { s with log := log, enclaves := c.remove }) := by
    show s.deleteEnclave _ _ _ = _
    unfold Driver.deleteEnclave
    rw [hfind]
    dsimp only
    rw [hrevoke, hstale]
    rfl
  rw [hdelete] at hacc ⊢
  rw [hrevoke] at hpages
  by_cases hret : ret = 0
  · rw [if_neg (not_not.2 hret)] at hacc ⊢
    exact ⟨fun _ => (hpages hacc).1 hret, fun _ => ⟨rfl, hremove⟩⟩
  · rw [if_pos hret] at hacc ⊢
    exact ⟨fun h => (nomatch h.1), fun h => absurd ((hpages hacc).2 h) hret⟩

/-- A library whose monitor reports one range. -/
def Library.over (monitor : Capa.Env) (h : (Capa.initDomain monitor true true true .boot).1 = 0)
    (hone : (Capa.initDomain monitor true true true .boot).2.capabilities.length ≤ 1) : Library where
  monitor _ := monitor
  start := (Capa.initDomain monitor true true true .boot).2
  init := Prod.ext h rfl
  apart _ := List.countP_le_length.trans hone

/-- A monitor that accepts every call. -/
def accepting : Library := .over (Capa.Env.granting [(0, 0x200000)]) (by decide) (by decide)

/-- An enclave with a region of one page is committed, and deleted. -/
theorem deletion_succeeds_oneRegion :
    let env := onePage.forwarding accepting
    let s := (Driver.boot fun _ _ => 0).after env [(1, .create true),
      (1, .addRegion (some ⟨0, 0x1000, 0x2000, 0x8000, teRead, 4⟩)), (1, .commit ⟨0, 0x2000, 0x1000⟩ true)]
    let e : Encl := { oneRegionCommitted with tycheHandle := 6, invoke := 19 }
    ((s.ioctl env 1 (.delete 0)).1 = .ret 0 ∧
        (s.ioctl env 1 (.delete 0)).2.enclaves = s.enclaves.filter (·.handle ≠ 0)) ↔
      accepting.readsNull 6 e.allPages s.log = false := by
  intro env s e
  have hwords : AddRegion.Words ⟨0, 0x1000, 0x2000, 0x8000, teRead, 4⟩ := by decide
  have hrun : Run env (Tidy onePage accepting) (Driver.boot fun _ _ => 0) s :=
    run_after _ ⟨by decide, ⟨trivial, by decide +kernel, by decide +kernel, trivial⟩,
      by decide +kernel, ⟨hwords, by decide +kernel, by decide +kernel, trivial⟩,
      by decide +kernel, ⟨trivial, by decide +kernel, by decide +kernel, by decide +kernel⟩, trivial⟩
  have he : e ∈ s.enclaves := by decide +kernel
  exact deletion_succeeds onePage accepting (fun _ _ => 0) hrun he (by decide +kernel)

/-- The same monitor, but that it refuses to grant anything. -/
def refusing : Library :=
  .over
    { Capa.Env.granting [(0, 0x200000)] with
      vmcall := fun log f =>
        if f.id = Capa.tycheDomainGrantRegion then { result := 1 } else (Capa.Env.granting [(0, 0x200000)]).vmcall log f }
    (by decide) (by decide)

/-- The commit of an enclave fails when its first page is refused. The page
stays recorded, and no deletion returns 0, though there is no handle that the
monitor could refuse to revoke. -/
theorem deletion_fails :
    ¬ ∀ (env : Env) (lib : Library) (mem : Nat → Nat → Nat) (s : Driver) (e : Encl),
      Run (env.forwarding lib) (fun _ _ cmd t => cmd.Words ∧ FramesOnly t.log) (Driver.boot mem) s → e ∈ s.enclaves →
      Capa.Accepted (lib.asked s (s.ioctl (env.forwarding lib) e.pid (.delete e.handle)).2) →
        (s.ioctl (env.forwarding lib) e.pid (.delete e.handle)).1 = .ret 0 ∧
          (s.ioctl (env.forwarding lib) e.pid (.delete e.handle)).2.enclaves = s.enclaves.filter (·.handle ≠ e.handle) := by
  intro h
  let env := plenty.forwarding refusing
  let s := (Driver.boot fun _ _ => 0).after env [(1, .create true), (1, emptyCommit 0)]
  let e : Encl := { pid := 1, handle := 0, tycheHandle := 6, allPages := [⟨0x100000, 0x101000, Capa.ptEntry⟩] }
  have hrun : Run env (fun _ _ cmd t => cmd.Words ∧ FramesOnly t.log) (Driver.boot fun _ _ => 0) s :=
    run_after _ ⟨by decide, ⟨trivial, by decide +kernel⟩, by decide +kernel, ⟨trivial, by decide +kernel⟩, trivial⟩
  have he : e ∈ s.enclaves := by decide +kernel
  have hreturns := h plenty refusing (fun _ _ => 0) s e hrun he (by decide +kernel)
  exact absurd hreturns.1 (by decide +kernel)

end Tyche.Enclave
