/-
The page tables of a committed enclave last. A commit writes to frames that it
obtained, and the driver gives back those of the enclave only; so what the
processor finds for an enclave stays as it was when the enclave was committed,
whatever any process asks the driver for afterwards.
-/
import Tyche.Enclave.Writes

namespace Tyche.Enclave

open Tyche.Pts Tyche.Radix

/-- A commit, if it gets to build the tables, is given all of them. -/
def TablesAllocated (env : Env) (s : Driver) (pid : Nat) (cmd : Command) (_ : Driver) : Prop :=
  ∀ commit out c regions log, cmd = .commit commit out → findEnclave pid commit.handle s.enclaves = some c →
    collectRegions env [] c.elem.regions s.log = (.ret 0, regions, log) →
      ¬ Shortage log (buildEnclaveCr3 env s.mem log { c.elem with regions := regions }).2.extras.log

/-! ## The frames of the driver -/

/-- The driver holds the frames recorded for the enclaves, and those that were
`lost` with deleted ones, each once. -/
structure Tallied (lost : List Nat) (s : Driver) : Prop where
  frames : ∀ f, held f s.log = true ↔ f ∈ lost ++ recorded s.enclaves
  distinct : (lost ++ recorded s.enclaves).Nodup
  returned : returnedOnce s.log = true

section Frames

variable {env : Env} {lost : List Nat} {s t : Driver} {pid : Nat} {cmd : Command} {o : Outcome Int} {log : List Event} {f : Nat}

theorem HandsOutFrames.suffix {log' : List Event} (h : HandsOutFrames log') (hlog : log <:+ log') : HandsOutFrames log :=
  fun f l hl => h f l (hl.trans hlog)

theorem HandsOutFrames.handedOut (h : HandsOutFrames log) : handedOut log = true := by
  induction log with
  | nil => rfl
  | cons ev log ih =>
    have hrest := ih (h.suffix (List.suffix_cons ..))
    cases ev with
    | allocPages ans =>
      cases ans with
      | none => exact hrest
      | some f =>
        obtain ⟨-, hframe, hheld⟩ := h f log List.suffix_rfl
        simp [Enclave.handedOut, hframe.1, hheld, hrest]
    | _ => exact hrest

/-- A frame that is held was handed out. -/
theorem HandsOutFrames.of_held (h : HandsOutFrames log) (hf : held f log = true) : f ≠ 0 ∧ Frame f := by
  induction log with
  | nil => cases hf
  | cons ev log ih =>
    have hrest := ih (h.suffix (List.suffix_cons ..))
    cases ev with
    | allocPages ans =>
      cases ans with
      | none => exact hrest hf
      | some g =>
        rw [held, Bool.or_eq_true, beq_iff_eq] at hf
        rcases hf with rfl | hf
        · obtain ⟨hne, hframe, -⟩ := h g log List.suffix_rfl
          exact ⟨hne, hframe⟩
        · exact hrest hf
    | freePages g =>
      rw [held, Bool.and_eq_true] at hf
      exact hrest hf.2
    | _ => exact hrest hf

/-- The frames are those of one enclave, and the others. -/
theorem tallied_iff {c : Cursor Encl} (h : s.enclaves = c.list) :
    Tallied lost s ↔ Balanced (lost ++ recorded c.remove) (c.elem, s.log) := by
  have hperm : (lost ++ recorded s.enclaves).Perm (lost ++ recorded c.remove ++ c.elem.pts.map (·.start)) := by
    rw [h, List.append_assoc]
    exact (recorded_perm c).append_left lost
  constructor
  · rintro ⟨h1, h2, h3⟩
    exact ⟨fun f => (h1 f).trans hperm.mem_iff, hperm.nodup_iff.1 h2, h3⟩
  · rintro ⟨h1, h2, h3⟩
    exact ⟨fun f => (h1 f).trans hperm.mem_iff.symm, hperm.nodup_iff.2 h2, h3⟩

theorem Tallied.frameless {lost' : List Nat} (h : Tallied lost s)
    (hperm : (lost' ++ recorded t.enclaves).Perm (lost ++ recorded s.enclaves)) (events : List Event)
    (hlog : t.log = events ++ s.log) (hevents : ∀ ev ∈ events, ev.frameless = true) : Tallied lost' t := by
  refine ⟨fun f => ?_, hperm.nodup_iff.2 h.distinct, ?_⟩
  · rw [hlog, held_frameless hevents, hperm.mem_iff]
    exact h.frames f
  · rw [hlog, returnedOnce_frameless hevents]
    exact h.returned

/-- **Every command keeps the tally**; a deletion loses the page tables. -/
theorem Tallied.change (h : Tallied lost s) (hchange : Change env pid s cmd o t) (hout : handedOut t.log = true) :
    ∃ lost', Tallied lost' t := by
  have hsame : ∀ {handle c e}, findEnclave pid handle s.enclaves = some c → e.pts = c.elem.pts →
      (lost ++ recorded (c.put e).list).Perm (lost ++ recorded s.enclaves) := by
    intro handle c e hfind hpts
    rw [recorded_put hpts, (findEnclave_some hfind).1]
  cases hchange with
  | idle cmd tycheIds ks hks =>
    refine ⟨lost, h.frameless (.refl _) _ rfl fun k hk => ?_⟩
    rcases hks k hk with ⟨ok, rfl⟩ | rfl <;> rfl
  | debugged handle result index => exact ⟨lost, h.frameless (.refl _) [_] rfl (by simp [Event.frameless])⟩
  | entered transition c ret result index hfind =>
    exact ⟨lost, h.frameless (hsame hfind rfl) [_] rfl (by simp [Event.frameless])⟩
  | created out domain hnew =>
    exact ⟨lost, h.frameless (by simp [recorded]) [_, _] rfl (by simp [Event.frameless])⟩
  | region cmd region c ok ret stack hcmd hfind hcheck hstack hret =>
    exact ⟨lost, h.frameless (hsame hfind rfl) [_] rfl (by simp [Event.frameless])⟩
  | committed commit out c o o' site hfind hcommit ho =>
    have hbalanced := (tallied_iff (findEnclave_some hfind).1.symm).1 h
    have hsite := hbalanced.commitEnclave env commit (s := ⟨s.mem, s.log, c.elem⟩) (by rw [hcommit]; exact hout)
    rw [hcommit] at hsite
    exact ⟨lost, (tallied_iff (c := c.put site.encl) rfl).2 hsite⟩
  | unrevoked handle c o events hfind hrevoke =>
    refine ⟨lost, h.frameless (.refl _) _ rfl fun ev hev => ?_⟩
    rcases hrevoke with ⟨-, done, pa, rest, -, rfl⟩ | ⟨-, rfl⟩
    · rcases List.mem_append.1 hev with hev | hev <;> exact revocations_frameless _ _ _ ev hev
    · exact revocations_frameless _ _ _ ev hev
  | deleted handle c hfind hstale =>
    refine ⟨lost ++ c.elem.pts.map (·.start), h.frameless ?_ _ rfl
      (revocations_frameless c.elem.tycheHandle true c.elem.allPages)⟩
    rw [← (findEnclave_some hfind).1, List.append_assoc]
    exact (List.perm_append_comm.trans (recorded_perm c).symm).append_left lost

end Frames

/-! ## Runs -/

/-- The process commits the enclave of this handle. -/
def Commits (pid handle pid' : Nat) (cmd : Command) : Prop := pid' = pid ∧ ∃ commit out, cmd = .commit commit out ∧ commit.handle = handle

/-- The driver holds these frames, and has recorded them for no enclave other
than that of the process and the handle. -/
structure Reserves (pid handle : Nat) (frames : Nat → Prop) (s : Driver) : Prop where
  held : ∀ f, frames f → held f s.log = true
  apart : ∀ e ∈ s.enclaves, ¬ (e.pid = pid ∧ e.handle = handle) → ∀ f, frames f → f ∉ e.pts.map (·.start)

section Runs

variable {env : Env} {s t : Driver} {pid pid' handle : Nat} {frames : Nat → Prop} {cmd : Command} {o : Outcome Int}

theorem regionMerging_keeps_pages : regionMerging.Keeps fun r => ∀ pa ∈ r.pas, pa.Page where
  absorb _ _ _ hn := hn
  extend _ _ _ he := he

theorem Change.pasPages (h : Change env pid s cmd o t) (hs : ∀ e ∈ s.enclaves, e.PasPages) : ∀ e ∈ t.enclaves, e.PasPages := by
  have hput : ∀ {handle c e}, findEnclave pid handle s.enclaves = some c → e.PasPages → ∀ x ∈ (c.put e).list, x.PasPages := by
    intro handle c e hfind he x hx
    rcases Cursor.mem_list.1 hx with rfl | hx
    · exact he
    · exact hs x ((findEnclave_some hfind).1 ▸ Cursor.mem_list.2 (.inr hx))
  have helem : ∀ {handle c}, findEnclave pid handle s.enclaves = some c → c.elem.PasPages := fun {handle c} hfind =>
    hs _ ((findEnclave_some hfind).1 ▸ c.elem_mem)
  cases h with
  | idle | debugged | unrevoked => exact hs
  | entered transition c ret result index hfind =>
    have he := helem hfind
    exact hput hfind he
  | created out domain hnew =>
    intro e he
    rcases List.mem_append.1 he with he | he
    · exact hs e he
    · obtain rfl := List.mem_singleton.1 he
      intro r hr
      cases hr
  | region cmd region c ok ret stack hcmd hfind hcheck hstack hret =>
    refine hput hfind fun r hr => ?_
    exact addRegion_keeps regionMerging_keeps_pages ok (helem hfind) (fun _ pa hpa => by cases hpa) r hr
  | committed commit out c o o' site hfind hcommit ho =>
    have hsite := commitEnclave_pasPages env commit (s := ⟨s.mem, s.log, c.elem⟩) (helem hfind)
    rw [hcommit] at hsite
    exact hput hfind hsite
  | deleted handle c hfind hstale =>
    exact fun e he => hs e ((findEnclave_some hfind).1 ▸ Cursor.mem_list.2 (.inr he))

theorem run_log {allowed : Driver → Nat → Command → Driver → Prop} (hrun : Run env allowed s t) : s.log <:+ t.log := by
  induction hrun with
  | refl => exact List.suffix_rfl
  | @tail u v _ hstep ih =>
    obtain ⟨pid, cmd, out, heq, -⟩ := hstep
    have hchange := ioctl_change env pid u cmd
    rw [heq] at hchange
    obtain ⟨events, hlog, -⟩ := hchange.calls
    exact ih.trans ⟨events, hlog.symm⟩

/-- In every run the frames are tallied, and what was collected are pages. -/
theorem run_tallied {allowed : Driver → Nat → Command → Driver → Prop} {mem : Nat → Nat → Nat}
    (hrun : Run env allowed (.boot mem) s) (hframes : HandsOutFrames s.log) :
    (∃ lost, Tallied lost s) ∧ ∀ e ∈ s.enclaves, e.PasPages := by
  induction hrun with
  | refl => exact ⟨⟨[], by simp [Driver.boot, held, recorded], .nil, rfl⟩, by simp [Driver.boot]⟩
  | @tail u v _ hstep ih =>
    obtain ⟨pid, cmd, out, heq, -⟩ := hstep
    have hchange := ioctl_change env pid u cmd
    rw [heq] at hchange
    obtain ⟨events, hlog, -⟩ := hchange.calls
    obtain ⟨⟨lost, htally⟩, hpages⟩ := ih (hframes.suffix ⟨events, hlog.symm⟩)
    exact ⟨htally.change hchange hframes.handedOut, hchange.pasPages hpages⟩

theorem Tallied.pts_ne_zero {lost : List Nat} (h : Tallied lost s) (hframes : HandsOutFrames s.log) {e : Encl} (he : e ∈ s.enclaves) :
    ∀ pa ∈ e.pts, pa.start ≠ 0 := fun pa hpa => (hframes.of_held ((h.frames pa.start).2 (List.mem_append_right _
      (List.mem_flatMap.2 ⟨e, he, List.mem_map_of_mem hpa⟩)))).1

/-- **A command writes** to frames that it obtained, and that were not held. -/
theorem Change.writes {lost : List Nat} (h : Change env pid s cmd o t) (htally : Tallied lost s) (hpages : ∀ e ∈ s.enclaves, e.PasPages)
    (hframes : HandsOutFrames t.log) (htables : TablesAllocated env s pid cmd t) (f : Nat) :
    t.mem f = s.mem f ∨ Obtained s.log t.log f ∧ held f s.log = false := by
  cases h with
  | committed commit out c o o' site hfind hcommit ho =>
    have helem : c.elem ∈ s.enclaves := (findEnclave_some hfind).1 ▸ c.elem_mem
    have hsuffix : s.log <:+ site.log := by
      obtain ⟨-, events, hlog, -⟩ := commitEnclave_calls env commit ⟨s.mem, s.log, c.elem⟩
      rw [hcommit] at hlog
      exact ⟨events, hlog.symm⟩
    have hspares := (commitEnclave_spares env commit ⟨s.mem, s.log, c.elem⟩ (hpages c.elem helem)
      (htally.pts_ne_zero (hframes.suffix hsuffix) helem) (by rw [hcommit]; exact hframes)
      (fun regions log hc => htables commit out c regions log rfl hfind hc)).1
    rw [hcommit] at hspares
    exact hspares f
  | _ => exact .inl rfl

/-- **A command keeps the reserve**, unless it commits its enclave. -/
theorem Reserves.change {lost : List Nat} (h : Reserves pid handle frames s) (htally : Tallied lost s)
    (hchange : Change env pid' s cmd o t) (hother : ¬ Commits pid handle pid' cmd) (hframes : HandsOutFrames t.log) :
    Reserves pid handle frames t := by
  have hsame : ∀ {t : Driver} (events : List Event), t.log = events ++ s.log → (∀ ev ∈ events, ev.frameless = true) →
      (∀ e ∈ t.enclaves, (∃ e' ∈ s.enclaves, e'.pid = e.pid ∧ e'.handle = e.handle ∧ e'.pts = e.pts) ∨ e.pts = []) →
      Reserves pid handle frames t := by
    intro t events hlog hevents hencl
    refine ⟨fun f hf => ?_, fun e he hne f hf => ?_⟩
    · rw [hlog, held_frameless hevents]
      exact h.held f hf
    · rcases hencl e he with ⟨e', he', hpid, hhandle, hpts⟩ | hpts
      · rw [← hpts]
        exact h.apart e' he' (by rwa [hpid, hhandle]) f hf
      · simp [hpts]
  have hput : ∀ {handle c e}, findEnclave pid' handle s.enclaves = some c → e.pid = c.elem.pid → e.handle = c.elem.handle →
      e.pts = c.elem.pts → ∀ x ∈ (c.put e).list, (∃ e' ∈ s.enclaves, e'.pid = x.pid ∧ e'.handle = x.handle ∧ e'.pts = x.pts) ∨ x.pts = [] := by
    intro handle c e hfind hpid hhandle hpts x hx
    rw [← (findEnclave_some hfind).1]
    rcases Cursor.mem_list.1 hx with rfl | hx
    · exact .inl ⟨c.elem, c.elem_mem, hpid.symm, hhandle.symm, hpts.symm⟩
    · exact .inl ⟨x, Cursor.mem_list.2 (.inr hx), rfl, rfl, rfl⟩
  have hself : ∀ x ∈ s.enclaves, (∃ e' ∈ s.enclaves, e'.pid = x.pid ∧ e'.handle = x.handle ∧ e'.pts = x.pts) ∨ x.pts = [] :=
    fun x hx => .inl ⟨x, hx, rfl, rfl, rfl⟩
  cases hchange with
  | idle cmd tycheIds ks hks =>
    refine hsame ks rfl (fun k hk => ?_) hself
    rcases hks k hk with ⟨ok, rfl⟩ | rfl <;> rfl
  | debugged handle result index => exact hsame [_] rfl (by simp [Event.frameless]) hself
  | entered transition c ret result index hfind =>
    exact hsame [_] rfl (by simp [Event.frameless]) (hput hfind rfl rfl rfl)
  | created out domain hnew =>
    refine hsame [_, _] rfl (by simp [Event.frameless]) fun x hx => ?_
    rcases List.mem_append.1 hx with hx | hx
    · exact hself x hx
    · obtain rfl := List.mem_singleton.1 hx
      exact .inr rfl
  | region cmd region c ok ret stack hcmd hfind hcheck hstack hret =>
    exact hsame [_] rfl (by simp [Event.frameless]) (hput hfind rfl rfl rfl)
  | unrevoked handle c o events hfind hrevoke =>
    refine hsame events rfl (fun ev hev => ?_) hself
    rcases hrevoke with ⟨-, done, pa, rest, -, rfl⟩ | ⟨-, rfl⟩
    · rcases List.mem_append.1 hev with hev | hev <;> exact revocations_frameless _ _ _ ev hev
    · exact revocations_frameless _ _ _ ev hev
  | deleted handle c hfind hstale =>
    refine hsame _ rfl (revocations_frameless c.elem.tycheHandle true c.elem.allPages) fun x hx => hself x ?_
    rw [← (findEnclave_some hfind).1]
    exact Cursor.mem_list.2 (.inr hx)
  | committed commit out c o o' site hfind hcommit ho =>
    obtain ⟨hlist, hhandle, hpid, -⟩ := findEnclave_some hfind
    have helem : c.elem ∈ s.enclaves := hlist ▸ c.elem_mem
    have hne : ¬ (c.elem.pid = pid ∧ c.elem.handle = handle) := by
      rintro ⟨hp, hh⟩
      exact hother ⟨hpid.symm.trans hp, commit, out, rfl, hhandle.symm.trans hh⟩
    -- The frames are among those of the others, which a commit leaves alone.
    have hbalanced := (tallied_iff hlist.symm).1 htally
    have hothers : ∀ f, frames f → f ∈ lost ++ recorded c.remove := fun f hf => by
      have hmem := (hbalanced.frames f).1 (h.held f hf)
      exact (List.mem_append.1 hmem).resolve_right (h.apart c.elem helem hne f hf)
    have hsite := hbalanced.commitEnclave env commit (s := ⟨s.mem, s.log, c.elem⟩) (by rw [hcommit]; exact hframes.handedOut)
    rw [hcommit] at hsite
    refine ⟨fun f hf => (hsite.frames f).2 (List.mem_append_left _ (hothers f hf)), fun e he hne' f hf => ?_⟩
    rcases Cursor.mem_list.1 he with rfl | he
    · exact fun hmem => (List.nodup_append.1 hsite.distinct).2.2 f (hothers f hf) f hmem rfl
    · exact h.apart e (hlist ▸ Cursor.mem_list.2 (.inr he)) hne' f hf

/-- A commit that returned 0. -/
theorem ioctl_commit_ok {commit : CommitMessage} {out : Bool} (h : s.ioctl env pid (.commit commit out) = (.ret 0, t)) :
    ∃ c site, findEnclave pid commit.handle s.enclaves = some c ∧
      commitEnclave env commit ⟨s.mem, s.log, c.elem⟩ = (.ret 0, site) ∧
      t.enclaves = (c.put site.encl).list ∧ t.mem = site.mem ∧ t.log = site.log := by
  unfold Driver.ioctl Driver.commitEnclave at h
  dsimp only at h
  cases hfind : findEnclave pid commit.handle s.enclaves with
  | none =>
    rw [hfind] at h
    cases h
  | some c =>
    rw [hfind] at h
    rcases hsite : commitEnclave env commit ⟨s.mem, s.log, c.elem⟩ with ⟨o, site⟩
    simp only [hsite] at h
    cases o with
    | ret ret =>
      obtain ⟨hret, rfl⟩ := Prod.mk.inj h
      have hcopied : copied out ret = 0 := Outcome.ret.inj hret
      have hzero : ret = 0 := by
        by_contra hne
        rw [copied, if_neg fun h => hne h.1] at hcopied
        exact hne hcopied
      subst hzero
      exact ⟨c, site, rfl, hsite, rfl, rfl, rfl⟩
    | fault | freed => cases h

/-- What is reserved stays as it is, until the enclave is committed again. -/
theorem Reserves.run {allowed : Driver → Nat → Command → Driver → Prop} {lost : List Nat} (h : Reserves pid handle frames s)
    (htally : Tallied lost s) (hpages : ∀ e ∈ s.enclaves, e.PasPages)
    (hrun : Run env allowed s t) (hframes : HandsOutFrames t.log)
    (hallowed : ∀ x p cmd y, allowed x p cmd y → TablesAllocated env x p cmd y ∧ ¬ Commits pid handle p cmd) :
    Reserves pid handle frames t ∧ (∃ lost, Tallied lost t) ∧ (∀ e ∈ t.enclaves, e.PasPages) ∧
      ∀ f, frames f → t.mem f = s.mem f := by
  induction hrun with
  | refl => exact ⟨h, ⟨lost, htally⟩, hpages, fun _ _ => rfl⟩
  | @tail u v _ hstep ih =>
    obtain ⟨p, cmd, out, heq, -, hstepped⟩ := hstep
    obtain ⟨htables, hother⟩ := hallowed _ _ _ _ hstepped
    have hchange := ioctl_change env p u cmd
    rw [heq] at hchange
    obtain ⟨events, hlog, -⟩ := hchange.calls
    obtain ⟨hreserves, ⟨lost', htally'⟩, hpages', hmem⟩ := ih (hframes.suffix ⟨events, hlog.symm⟩)
    refine ⟨hreserves.change htally' hchange hother hframes, htally'.change hchange hframes.handedOut, hchange.pasPages hpages',
      fun f hf => ?_⟩
    rcases hchange.writes htally' hpages' hframes htables f with hsame | ⟨-, hunheld⟩
    · rw [hsame, hmem f hf]
    · rw [hreserves.held f hf] at hunheld
      cases hunheld

/-- What a commit that returned 0 reserves: the tables it sealed the domain with. -/
theorem commit_reserves {lost : List Nat} (htally : Tallied lost s) (hpages : ∀ e ∈ s.enclaves, e.PasPages) {commit : CommitMessage}
    {out : Bool} (hcommit : s.ioctl env pid (.commit commit out) = (.ret 0, t)) (hframes : HandsOutFrames t.log)
    (hgiven : TablesAllocated env s pid (.commit commit out) t) : ∃ e ∈ t.enclaves, e.pid = pid ∧ e.handle = commit.handle ∧
      .sealDomain e.tycheHandle e.cr3 commit.entry commit.stack (some e.invoke) ∈ t.log ∧
      Passes t.mem e.cr3 ∧ Reserves pid commit.handle (fun f => ∃ l q, layout.Reach t.mem e.cr3 l q f) t := by
  obtain ⟨c, site, hfind, hsite, henclaves, hmem, hlog⟩ := ioctl_commit_ok hcommit
  obtain ⟨hlist, hhandle, hpid, -⟩ := findEnclave_some hfind
  have helem : c.elem ∈ s.enclaves := hlist ▸ c.elem_mem
  obtain ⟨hidentity, events, hevents, -⟩ := commitEnclave_calls env commit ⟨s.mem, s.log, c.elem⟩
  rw [hsite] at hidentity hevents
  have hne := htally.pts_ne_zero (hframes.suffix ⟨events, (hlog.trans hevents).symm⟩) helem
  have hframes' : HandsOutFrames (commitEnclave env commit ⟨s.mem, s.log, c.elem⟩).2.log := by
    rw [hsite, ← hlog]
    exact hframes
  have hnone : ∀ regions log, collectRegions env [] c.elem.regions s.log = (.ret 0, regions, log) →
      ¬ Shortage log (buildEnclaveCr3 env s.mem log { c.elem with regions := regions }).2.extras.log := fun regions log hc =>
    hgiven commit out c regions log rfl hfind hc
  have hspares := (commitEnclave_spares env commit ⟨s.mem, s.log, c.elem⟩ (hpages c.elem helem) hne hframes' hnone).2
  have hpasses := commitEnclave_passes env commit ⟨s.mem, s.log, c.elem⟩ (hpages c.elem helem) hne hframes' hnone
  rw [hsite] at hspares hpasses
  refine ⟨site.encl, henclaves ▸ Cursor.elem_mem (c.put site.encl), hidentity.pid.trans hpid, hidentity.handle.trans hhandle, ?_,
    hmem ▸ hpasses rfl, ?_, ?_⟩
  · obtain ⟨regions, log, m, invoke, -, -, rfl⟩ := commitEnclave_returns hsite
    rw [hlog]
    exact List.mem_cons_self ..
  · rintro f ⟨l, q, hf⟩
    rw [hmem] at hf
    rw [hlog]
    exact (hspares rfl hf).2
  · rintro x hx hother f ⟨l, q, hf⟩ hmem'
    rw [hmem] at hf
    rw [henclaves] at hx
    -- The tables were not held before, and what is recorded for the others was.
    rcases Cursor.mem_list.1 hx with rfl | hx
    · exact hother ⟨hidentity.pid.trans hpid, hidentity.handle.trans hhandle⟩
    · have hheld := (htally.frames f).2 (List.mem_append_right _ (List.mem_flatMap.2
        ⟨x, hlist ▸ Cursor.mem_list.2 (.inr hx), hmem'⟩))
      rw [(hspares rfl hf).1] at hheld
      cases hheld

/-- The processor finds the same, if the tables that are reached are the same. -/
theorem pageWalk_congr {mem mem' : Nat → Nat → Nat} {root : Nat}
    (h : ∀ {l q t}, layout.Reach mem root l q t → mem' t = mem t) (va : Nat) :
    pageWalk mem' ptPML4 root va = pageWalk mem ptPML4 root va := by
  have hbelow : ∀ l q t, layout.Reach mem root l q t → pageWalk mem' l t va = pageWalk mem l t va := by
    intro l
    induction l with
    | zero =>
      intro q t ht
      rw [pageWalk, pageWalk, h ht]
    | succ l ih =>
      intro q t ht
      rw [pageWalk, pageWalk, h ht]
      split
      · rfl
      next hp =>
      split
      · rfl
      · exact ih _ _ (ht.child (Nat.mod_lt _ (by decide)) (layout_child (not_not.1 hp)))
  exact hbelow ptPML4 0 root .root

end Runs

/-- **The page tables of a committed enclave last**: until its process commits it
again, they are not given back, and the processor finds at each address what
it found when the enclave was committed, even once the enclave is deleted. -/
theorem committed_tables_last (env : Env) (mem : Nat → Nat → Nat) {allowed : Driver → Nat → Command → Driver → Prop} {s t u : Driver}
    {pid : Nat} {commit : CommitMessage} {out : Bool} (hs : Run env allowed (.boot mem) s)
    (hcommit : s.ioctl env pid (.commit commit out) = (.ret 0, t)) (hgiven : TablesAllocated env s pid (.commit commit out) t)
    (hlater : Run env (fun x p cmd y => TablesAllocated env x p cmd y ∧ ¬ Commits pid commit.handle p cmd) t u)
    (hframes : HandsOutFrames u.log) :
    ∃ e ∈ t.enclaves, e.pid = pid ∧ e.handle = commit.handle ∧
      .sealDomain e.tycheHandle e.cr3 commit.entry commit.stack (some e.invoke) ∈ t.log ∧
      (∀ {l q table}, layout.Reach t.mem e.cr3 l q table → held table u.log = true ∧ u.mem table = t.mem table) ∧
      ∀ va, pageWalk u.mem ptPML4 e.cr3 va = pageWalk t.mem ptPML4 e.cr3 va := by
  have hchange := ioctl_change env pid s (.commit commit out)
  rw [hcommit] at hchange
  obtain ⟨events, hlog, -⟩ := hchange.calls
  have hframes' := hframes.suffix (run_log hlater)
  obtain ⟨⟨lost, htally⟩, hpages⟩ := run_tallied hs (hframes'.suffix ⟨events, hlog.symm⟩)
  obtain ⟨e, he, hpid, hhandle, hseal, -, hreserves⟩ := commit_reserves htally hpages hcommit hframes' hgiven
  obtain ⟨lost', htally'⟩ := htally.change hchange hframes'.handedOut
  obtain ⟨hend, -, -, hmem⟩ := hreserves.run htally' (hchange.pasPages hpages) hlater hframes fun _ _ _ _ h => h
  exact ⟨e, he, hpid, hhandle, hseal, fun {l q table} ht => ⟨hend.held table ⟨l, q, ht⟩, hmem table ⟨l, q, ht⟩⟩,
    pageWalk_congr fun {l q table} ht => hmem table ⟨l, q, ht⟩⟩

/-- **Page tables are written only to frames that are obtained** for them: no
command changes a frame that the driver had not been given since. -/
theorem tables_written (env : Env) (mem : Nat → Nat → Nat) {allowed : Driver → Nat → Command → Driver → Prop} {s t : Driver}
    (hs : Run env allowed (.boot mem) s) (ht : Run env (TablesAllocated env) s t) (hframes : HandsOutFrames t.log) (f : Nat) :
    t.mem f = s.mem f ∨ Obtained s.log t.log f := by
  have hsteps : ∀ {t}, Run env (TablesAllocated env) s t → HandsOutFrames t.log →
      ((∃ lost, Tallied lost t) ∧ ∀ e ∈ t.enclaves, e.PasPages) ∧ (t.mem f = s.mem f ∨ Obtained s.log t.log f) := by
    intro t ht hframes
    induction ht with
    | refl => exact ⟨run_tallied hs hframes, .inl rfl⟩
    | @tail u v hbefore hstep ih =>
      obtain ⟨p, cmd, out, heq, -, htables⟩ := hstep
      have hchange := ioctl_change env p u cmd
      rw [heq] at hchange
      obtain ⟨events, hlog, -⟩ := hchange.calls
      have hsuffix : u.log <:+ v.log := ⟨events, hlog.symm⟩
      obtain ⟨⟨⟨lost, htally⟩, hpages⟩, hmem⟩ := ih (hframes.suffix hsuffix)
      refine ⟨⟨htally.change hchange hframes.handedOut, hchange.pasPages hpages⟩, ?_⟩
      rcases hchange.writes htally hpages hframes htables f with hsame | ⟨hobtained, -⟩
      · rw [hsame]
        exact hmem.imp_right fun h => h.later hsuffix
      · exact .inr (hobtained.earlier (run_log hbefore))
  exact (hsteps ht hframes).2

/-! ## Two processes -/

theorem HandsOutFrames.of_checks {log : List Event} (hfree : handsOutFreeBy log = true) (hout : Enclave.handedOut log = true) :
    HandsOutFrames log := by
  rintro f l ⟨later, rfl⟩
  have halign := handedOut_suffix later hout
  simp only [Enclave.handedOut, Bool.and_eq_true, beq_iff_eq] at halign
  exact HandsOutFree.of_handsOutFreeBy hfree f l ⟨later, rfl⟩ List.nil_suffix halign.1.1

/-- The allocations of a commit, checked one by one. -/
def tablesAllocatedBy (env : Env) (s : Driver) (pid : Nat) (commit : CommitMessage) : Bool :=
  match findEnclave pid commit.handle s.enclaves with
  | none => true
  | some c =>
    match collectRegions env [] c.elem.regions s.log with
    | (_, regions, log) =>
      let final := (buildEnclaveCr3 env s.mem log { c.elem with regions := regions }).2.extras.log
      (final.take (final.length - log.length)).all fun ev => !ev.shortage

theorem TablesAllocated.of_check {env : Env} {s t : Driver} {pid : Nat} {commit : CommitMessage} {out : Bool}
    (h : tablesAllocatedBy env s pid commit = true) : TablesAllocated env s pid (.commit commit out) t := by
  rintro commit' out' c regions log hcmd hfind hc ⟨events, hlog, ev, hev, hfails⟩
  cases hcmd
  simp only [tablesAllocatedBy, hfind, hc, hlog, List.length_append, Nat.add_sub_cancel, List.take_left] at h
  have hgiven := List.all_eq_true.1 h ev hev
  rw [hfails] at hgiven
  cases hgiven

theorem TablesAllocated.of_other {env : Env} {s t : Driver} {pid : Nat} {cmd : Command} (h : ∀ commit out, cmd ≠ .commit commit out) :
    TablesAllocated env s pid cmd t := fun commit out _ _ _ hcmd => absurd hcmd (h commit out)

/-- The memory of every process is mapped to the frames from 0x20000 on. -/
def lending : Env := { plenty with walkPageRange := fun _ start _ => [.pteEntry start (0x20007 + start)] }

/-- A page, for the enclave of this handle. -/
def addPage (handle : Nat) : Command := .addRegion (some ⟨handle, 0x400000, 0x401000, 0x8000 + 0x1000 * handle, teRead, 4⟩)

/-- The enclave of process 1 is committed. -/
def committedOnce : Driver := (Driver.boot fun _ _ => 0).after lending [(1, .create true), (1, addPage 0), (1, emptyCommit 0)]

/-- Process 2 commits an enclave of its own, and the first one is deleted. -/
def deletedSince : Driver := committedOnce.after lending [(2, .create true), (2, addPage 1), (2, emptyCommit 1), (1, .delete 0)]

theorem committedOnce_run : Run lending (fun _ _ _ _ => True) (.boot fun _ _ => 0)
    ((Driver.boot fun _ _ => 0).after lending [(1, .create true), (1, addPage 0)]) :=
  run_after _ ⟨by decide, trivial, by decide, trivial, trivial⟩

theorem committedOnce_commit : ((Driver.boot fun _ _ => 0).after lending [(1, .create true), (1, addPage 0)]).ioctl lending 1
    (emptyCommit 0) = (.ret 0, committedOnce) := by
  have hret : (((Driver.boot fun _ _ => 0).after lending [(1, .create true), (1, addPage 0)]).ioctl lending 1 (emptyCommit 0)).1 =
      .ret 0 := by decide +kernel
  rw [← hret]
  rfl

theorem deletedSince_run :
    Run lending (fun x p cmd y => TablesAllocated lending x p cmd y ∧ ¬ Commits 1 0 p cmd) committedOnce deletedSince := by
  refine run_after _ ⟨by decide +kernel, ⟨.of_other (by simp), fun h => by cases h.1⟩, by decide +kernel,
    ⟨.of_other (by simp [addPage]), fun h => by cases h.1⟩, by decide +kernel, ⟨.of_check (by decide +kernel), fun h => by cases h.1⟩,
    by decide +kernel, ⟨.of_other (by simp), ?_⟩, trivial⟩
  rintro ⟨-, commit, out, hcmd, -⟩
  cases hcmd

theorem deletedSince_frames : HandsOutFrames deletedSince.log := .of_checks (by decide +kernel) (by decide +kernel)

theorem committed_tables_last_deleted : ∃ e ∈ committedOnce.enclaves, e.handle = 0 ∧ 0 ∉ deletedSince.enclaves.map (·.handle) ∧
    ∀ va, pageWalk deletedSince.mem ptPML4 e.cr3 va = pageWalk committedOnce.mem ptPML4 e.cr3 va := by
  obtain ⟨e, he, -, hhandle, -, -, hwalk⟩ := committed_tables_last lending (fun _ _ => 0) committedOnce_run committedOnce_commit
    (.of_check (by decide +kernel)) deletedSince_run deletedSince_frames
  exact ⟨e, he, hhandle, by decide +kernel, hwalk⟩

theorem tables_written_deleted : deletedSince.mem 0x104000 0 ≠ committedOnce.mem 0x104000 0 ∧
    ∀ f, deletedSince.mem f = committedOnce.mem f ∨ Obtained committedOnce.log deletedSince.log f := by
  have hbefore : Run lending (fun _ _ _ _ => True) (.boot fun _ _ => 0) committedOnce :=
    committedOnce_run.tail ⟨1, emptyCommit 0, .ret 0, committedOnce_commit, by simp, trivial⟩
  have hlater : Run lending (TablesAllocated lending) committedOnce deletedSince := by
    refine Relation.ReflTransGen.mono (fun _ _ hstep => ?_) _ _ deletedSince_run
    obtain ⟨p, cmd, out, heq, hout, htables, -⟩ := hstep
    exact ⟨p, cmd, out, heq, hout, htables⟩
  exact ⟨by decide +kernel, tables_written lending (fun _ _ => 0) hbefore hlater deletedSince_frames⟩

end Tyche.Enclave
