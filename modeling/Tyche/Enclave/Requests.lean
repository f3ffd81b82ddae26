/-
What the enclaves were asked for (`add_region`), and what is left of it in
their regions: however they were merged, and whatever the commits did since,
a region covers only addresses of accepted requests with its flags, and its
physical pages are whole pages of its type.
-/
import Tyche.Enclave.Commands

namespace Tyche.Enclave

open Tyche.Pts
open Tyche.Capa (ptEntry)

/-- The fields of the message are words. -/
def AddRegion.Words (req : AddRegion) : Prop :=
  req.handle < 2 ^ 64 ∧ req.start < 2 ^ 64 ∧ req.end_ < 2 ^ 64 ∧ req.src < 2 ^ 64 ∧ req.flags < 2 ^ 64 ∧ req.tpe < 2 ^ 64

instance (req : AddRegion) : Decidable req.Words := inferInstanceAs (Decidable (_ ∧ _))

/-- The messages a process can send. -/
def Command.Words : Command → Prop
  | .addRegion (some region) | .addStack (some region) => region.Words
  | _ => True

/-- The requests accepted for each handle since its enclave was created, once
a command returned `out`. -/
def Driver.accepts (s : Driver) (requests : Nat → List AddRegion) : Command → Outcome Int → Nat → List AddRegion
  | .addRegion (some region), .ret 0 | .addStack (some region), .ret 0 =>
    Function.update requests region.handle (region :: requests region.handle)
  | .create _, _ =>
    if s.enclaves.any fun encl => encl.handle == s.tycheIds then requests else Function.update requests s.tycheIds []
  | _, _ => requests

/-- A run of commands, with the requests that were accepted in it. -/
inductive Requested (env : Env) (mem : Nat → Nat → Nat) : Driver → (Nat → List AddRegion) → Prop
  | boot : Requested env mem (Driver.boot mem) fun _ => []
  | step {s t : Driver} {requests : Nat → List AddRegion} {out : Outcome Int} (pid : Nat) (cmd : Command)
      (h : Requested env mem s requests) (hwords : cmd.Words) (heq : s.ioctl env pid cmd = (out, t)) (hout : out ≠ .freed) :
      Requested env mem t (s.accepts requests cmd out)

theorem run_requested {env : Env} {mem : Nat → Nat → Nat} {s : Driver}
    (h : Run env (fun _ _ cmd _ => cmd.Words) (Driver.boot mem) s) : ∃ requests, Requested env mem s requests := by
  induction h with
  | refl => exact ⟨_, .boot⟩
  | tail _ hstep ih =>
    obtain ⟨requests, ih⟩ := ih
    obtain ⟨pid, cmd, out, heq, hout, hwords⟩ := hstep
    exact ⟨_, ih.step pid cmd hwords heq hout⟩

/-! ## A region -/

/-- The region is made of these requests. -/
structure Region.Asked (requests : List AddRegion) (r : Region) : Prop where
  nonempty : r.start < r.end_
  covered : ∀ a, r.start ≤ a → a < r.end_ → ∃ req ∈ requests, req.Covers a ∧ req.flags = r.flags
  pas : ∀ pa ∈ r.pas, pa.Page ∧ pa.tpe = r.tpe

section Region

variable {requests : List AddRegion} {r : Region} {l : List Region} {req : AddRegion}

theorem Region.Asked.later (h : r.Asked requests) (req : AddRegion) : r.Asked (req :: requests) where
  nonempty := h.nonempty
  covered a h1 h2 := by
    obtain ⟨q, hq, hcovers⟩ := h.covered a h1 h2
    exact ⟨q, List.mem_cons_of_mem _ hq, hcovers⟩
  pas := h.pas

theorem AddRegion.region_asked (hcheck : regionCheck req = true) : req.region.Asked (req :: requests) where
  nonempty := regionCheck_lt hcheck
  covered a h1 h2 := ⟨req, List.mem_cons_self .., ⟨h1, h2⟩, rfl⟩
  pas pa hpa := by cases hpa

/-- Merged regions have the same flags. -/
theorem regionMerging_keeps_asked (requests : List AddRegion) : regionMerging.Keeps (Region.Asked requests) where
  absorb := by
    intro e n hmerge htouch he hn
    have hsame : n.src = add64 e.src (e.end_ - e.start) ∧ e.tpe = n.tpe ∧ e.flags = n.flags := by simpa using hmerge
    have htouch : e.end_ = n.start := htouch
    refine ⟨Nat.lt_trans he.nonempty (htouch ▸ hn.nonempty), fun a h1 h2 => ?_, hn.pas⟩
    by_cases ha : a < e.end_
    · obtain ⟨req, hreq, hcovers, hflags⟩ := he.covered a h1 ha
      exact ⟨req, hreq, hcovers, hflags.trans hsame.2.2⟩
    · exact hn.covered a (htouch ▸ Nat.le_of_not_lt ha) h2
  extend := by
    intro n e hmerge htouch hn he
    have hsame : e.src = add64 n.src (n.end_ - n.start) ∧ e.tpe = n.tpe ∧ e.flags = n.flags := by simpa using hmerge
    have htouch : e.start = n.end_ := htouch
    refine ⟨Nat.lt_trans hn.nonempty (htouch ▸ he.nonempty), fun a h1 h2 => ?_, he.pas⟩
    by_cases ha : a < n.end_
    · obtain ⟨req, hreq, hcovers, hflags⟩ := hn.covered a h1 ha
      exact ⟨req, hreq, hcovers, hflags.trans hsame.2.2.symm⟩
    · exact he.covered a (htouch ▸ Nat.le_of_not_lt ha) h2

/-- **A request that is accepted** is one more the regions are made of. -/
theorem addRegion_asked (mem : Bool) (hcheck : regionCheck req = true) (hl : ∀ r ∈ l, r.Asked requests) :
    ∀ r ∈ (addRegion mem req l).2, r.Asked (req :: requests) :=
  addRegion_keeps (regionMerging_keeps_asked (req :: requests)) mem (fun r hr => (hl r hr).later req) fun _ =>
    AddRegion.region_asked hcheck

/-- A request that is refused leaves regions that were there. -/
theorem addRegion_refused (mem : Bool) (h : (addRegion mem req l).1 ≠ 0) : ∀ r ∈ (addRegion mem req l).2, r ∈ l := by
  unfold addRegion at h ⊢
  split
  · exact fun r hr => hr
  split
  · exact fun r hr => hr
  next hcheck hmem =>
    rw [if_neg hcheck, if_neg hmem] at h
    rw [addRegionLoop_eq] at h ⊢
    exact fun r hr => (Ranges.Merging.place_refused_mem (status_ne_zero h) r hr).resolve_left (by simp)

end Region

/-! ## An enclave -/

/-- The requests of an enclave passed the checks, and its regions are made of
them. -/
structure Standing (requests : List AddRegion) (e : Encl) : Prop where
  checked : ∀ req ∈ requests, regionCheck req = true ∧ req.Words
  regions : ∀ r ∈ e.regions, r.Asked requests

section Standing

variable {requests : List AddRegion} {x y : Encl × List Event}

theorem Standing.prepare (h : Standing requests x.1) (hstep : Preparation x y) : Standing requests y.1 := by
  refine ⟨h.checked, ?_⟩
  cases hstep with
  | collect e log before after r f hregions hf =>
    have hall : ∀ q ∈ before ++ r :: after, q.Asked requests := fun q hq => h.regions q (hregions ▸ hq)
    have hr := hall r (by simp)
    intro q hq
    have hq : q ∈ before ∨ q = { r with pas := r.pas ++ [⟨f, f + page, r.tpe⟩] } ∨ q ∈ after := by simpa using hq
    rcases hq with hq | rfl | hq
    · exact hall q (by simp [hq])
    · refine ⟨hr.nonempty, hr.covered, fun pa hpa => ?_⟩
      rcases List.mem_append.1 hpa with hpa | hpa
      · exact hr.pas pa hpa
      · obtain rfl := List.mem_singleton.1 hpa
        exact ⟨⟨hf, rfl⟩, rfl⟩
    · exact hall q (by simp [hq])
  | kmalloc | noPage | unused | table | root | merge => exact h.regions

theorem Standing.effects (h : Standing requests x.1) (hsteps : Effects x y) : Standing requests y.1 := by
  induction hsteps with
  | refl => exact h
  | tail _ hstep ih =>
    cases hstep with
    | prepare hstep => exact ih.prepare hstep
    | transfer | sealing => exact ⟨ih.checked, ih.regions⟩

theorem Standing.commitFailure {s : Site} (h : Standing requests s.encl) : Standing requests (commitFailure s).2.encl := by
  unfold Enclave.commitFailure
  split
  · exact h
  · refine ⟨h.checked, fun r hr => ?_⟩
    obtain ⟨q, hq, rfl⟩ := List.mem_map.1 hr
    exact ⟨(h.regions q hq).nonempty, (h.regions q hq).covered, (h.regions q hq).pas⟩

theorem Standing.commitEnclave (env : Env) (commit : CommitMessage) {s : Site} (h : Standing requests s.encl) :
    Standing requests (commitEnclave env commit s).2.encl := by
  obtain ⟨mem, e, log, heff, hcase⟩ := commitEnclave_effects env commit s
  rcases hcase with ⟨o, -, heq⟩ | heq
  · rw [heq]
    exact h.effects heff
  · rw [heq]
    exact Standing.commitFailure (h.effects heff)

end Standing

/-! ## The driver -/

section Driver

variable {env : Env} {pid : Nat} {s t : Driver} {cmd : Command} {out : Outcome Int} {requests : Nat → List AddRegion}

/-- What holds of the enclave found and of the others. -/
theorem forall_put {c : Cursor Encl} {e : Encl} {P : Encl → Prop} (hc : c.list = s.enclaves) (h : ∀ x ∈ s.enclaves, P x)
    (he : P c.elem → P e) : ∀ x ∈ (c.put e).list, P x := by
  rw [← hc] at h
  intro x hx
  rcases Cursor.mem_list.1 hx with rfl | hx
  · exact he (h c.elem c.elem_mem)
  · exact h x (Cursor.mem_list.2 (.inr hx))

theorem accepts_region {region : AddRegion} {ret : Int} (hcmd : cmd = .addRegion (some region) ∨ cmd = .addStack (some region)) :
    s.accepts requests cmd (.ret ret) =
      if ret = 0 then Function.update requests region.handle (region :: requests region.handle) else requests := by
  rcases hcmd with rfl | rfl
  · by_cases h : ret = 0 <;> simp [Driver.accepts, h]
  · by_cases h : ret = 0 <;> simp [Driver.accepts, h]

theorem accepts_create {out' : Bool} {e : Encl} (he : e ∈ s.enclaves) :
    s.accepts requests (.create out') out e.handle = requests e.handle := by
  unfold Driver.accepts
  dsimp only
  split
  · rfl
  next hnew =>
    refine Function.update_of_ne (fun heq => hnew ?_) ..
    exact List.any_eq_true.2 ⟨e, he, beq_iff_eq.2 heq⟩

/-- A command that fails leaves the requests of every enclave. -/
theorem accepts_failed {e : Encl} (he : e ∈ s.enclaves) : s.accepts requests cmd (.ret (-1)) e.handle = requests e.handle := by
  cases cmd with
  | create out' => exact accepts_create he
  | addRegion region =>
    cases region with
    | none => rfl
    | some region => exact congrFun (accepts_region (.inl rfl)) _
  | addStack region =>
    cases region with
    | none => rfl
    | some region => exact congrFun (accepts_region (.inr rfl)) _
  | dbg | transition | delete | commit | other => rfl

theorem Change.standing (hchange : Change env pid s cmd out t) (hwords : cmd.Words)
    (h : ∀ e ∈ s.enclaves, Standing (requests e.handle) e) :
    ∀ e ∈ t.enclaves, Standing (s.accepts requests cmd out e.handle) e := by
  cases hchange with
  | idle cmd tycheIds ks hks =>
    intro e he
    have he : e ∈ s.enclaves := he
    rw [accepts_failed he]
    exact h e he
  | debugged handle result index => exact h
  | entered transition c ret result index hfind =>
    exact forall_put (findEnclave_some hfind).1 h fun hc => ⟨hc.checked, hc.regions⟩
  | created out domain hnew =>
    intro e he
    rcases List.mem_append.1 he with he | he
    · rw [accepts_create he]
      exact h e he
    · obtain rfl := List.mem_singleton.1 he
      have hreset : s.accepts requests (.create out) (.ret (copied out 0)) s.tycheIds = [] := by
        unfold Driver.accepts
        dsimp only
        rw [if_neg (by simpa using hnew), Function.update_self]
      exact ⟨by simp [hreset], by simp⟩
  | region cmd region c ok ret stack hcmd hfind hcheck hstack hret =>
    obtain ⟨hlist, hhandle, -⟩ := findEnclave_some hfind
    have hc := h c.elem (hlist ▸ c.elem_mem)
    rw [accepts_region hcmd]
    split
    next hzero =>
      have hwords : region.Words := by rcases hcmd with rfl | rfl <;> exact hwords
      have hmore : ∀ e ∈ s.enclaves, Standing (Function.update requests region.handle
          (region :: requests region.handle) e.handle) e := by
        intro e he
        by_cases heq : e.handle = region.handle
        · rw [heq, Function.update_self]
          have he := heq ▸ h e he
          exact ⟨List.forall_mem_cons.2 ⟨⟨hcheck, hwords⟩, he.checked⟩, fun r hr => (he.regions r hr).later region⟩
        · rw [Function.update_of_ne heq]
          exact h e he
      refine forall_put hlist hmore fun hstanding => ⟨hstanding.checked, ?_⟩
      have hreqs : Function.update requests region.handle (region :: requests region.handle) c.elem.handle =
          region :: requests region.handle := by
        rw [hhandle, Function.update_self]
      dsimp only
      rw [hreqs]
      rw [hhandle] at hc
      exact addRegion_asked ok hcheck hc.regions
    next hne =>
      refine forall_put hlist h fun hstanding => ⟨hstanding.checked, fun r hr => ?_⟩
      exact hstanding.regions r (addRegion_refused ok (fun h0 => hne (hret.2 h0)) r hr)
  | committed commit out c o o' site hfind hcommit ho =>
    have hid := (commitEnclave_calls env commit ⟨s.mem, s.log, c.elem⟩).1
    have hsite : ∀ {reqs}, Standing reqs c.elem → Standing reqs site.encl := by
      intro reqs hc
      have hkept := Standing.commitEnclave env commit (s := ⟨s.mem, s.log, c.elem⟩) hc
      rwa [hcommit] at hkept
    rw [hcommit] at hid
    refine forall_put (P := fun e => Standing (requests e.handle) e) (findEnclave_some hfind).1 h fun hc => ?_
    show Standing (requests site.encl.handle) site.encl
    rw [hid.handle]
    exact hsite hc
  | unrevoked handle c o events hfind hrevoke => exact h
  | deleted handle c hfind hstale =>
    intro e he
    exact h e ((findEnclave_some hfind).1 ▸ Cursor.mem_list.2 (.inr he))

/-! ## The ranges recorded -/

/-- The pages handed out are frames: whole pages that an entry can hold. -/
def FramesOnly (log : List Event) : Prop := ∀ f, .allocPages (some f) ∈ log → Frame f

/-- The event hands out no page, or a frame. -/
def Event.framed : Event → Bool
  | .allocPages (some f) => decide (Frame f)
  | _ => true

theorem framesOnly_iff {log : List Event} : FramesOnly log ↔ ∀ ev ∈ log, ev.framed = true := by
  refine ⟨fun h ev hev => ?_, fun h f hf => of_decide_eq_true (h _ hf)⟩
  unfold Event.framed
  split
  next f => exact decide_eq_true (h f hev)
  · rfl

instance (log : List Event) : Decidable (FramesOnly log) := decidable_of_iff _ framesOnly_iff.symm

theorem FramesOnly.of_suffix {events log : List Event} (h : FramesOnly (events ++ log)) : FramesOnly log :=
  fun f hf => h f (List.mem_append_right _ hf)

/-- An addition to a canonical list leaves one. -/
theorem Canonical.addMergeGlobal {l : List PaRegion} (h : Canonical l) {region : PaRegion} (hr : region.Page) :
    Canonical (addMergeGlobal l region).2 := by
  rcases addMergeGlobal_cases h hr.lt with ⟨-, l', heq, hl', -⟩ | ⟨-, heq⟩
  · rwa [heq]
  · rwa [heq]

theorem Preparation.canonical {reqs : List AddRegion} {x y : Encl × List Event} (hstep : Preparation x y)
    (h : Standing reqs x.1) (hx : Canonical x.1.allPages) (hframes : FramesOnly y.2) : Canonical y.1.allPages := by
  cases hstep with
  | unused e log f ks allPages hf hks hpages =>
    have hframe : Frame f := hframes f (by simp)
    rcases hpages with rfl | ⟨ret, -, hadd⟩
    · exact hx
    · rw [add64_frame hframe] at hadd
      have hkept := hx.addMergeGlobal (tablePage_page hframe)
      rwa [tablePage, hadd] at hkept
  | table e log f hf =>
    have hframe : Frame f := hframes f (by simp)
    dsimp only
    rw [add64_frame hframe]
    exact hx.addMergeGlobal (tablePage_page hframe)
  | merge e log r pa hr hpa => exact hx.addMergeGlobal ((h.regions r hr).pas pa hpa).1
  | kmalloc | collect | noPage | root => exact hx

theorem Effects.canonical {reqs : List AddRegion} {x y : Encl × List Event} (hsteps : Effects x y)
    (h : Standing reqs x.1) (hx : Canonical x.1.allPages) (hframes : FramesOnly y.2) : Canonical y.1.allPages := by
  induction hsteps with
  | refl => exact hx
  | tail hbefore hstep ih =>
    obtain ⟨events, hlog, -⟩ := hstep.calls rfl
    rw [hlog] at hframes
    have hlast := ih hframes.of_suffix
    cases hstep with
    | prepare hstep => exact hstep.canonical (h.effects hbefore) hlast (by rw [hlog]; exact hframes)
    | transfer | sealing => exact hlast

theorem commitEnclave_canonical {reqs : List AddRegion} (env : Env) (commit : CommitMessage) {s : Site} (h : Standing reqs s.encl)
    (hs : Canonical s.encl.allPages) (hframes : FramesOnly (Enclave.commitEnclave env commit s).2.log) :
    Canonical (Enclave.commitEnclave env commit s).2.encl.allPages := by
  obtain ⟨mem, e, log, heff, hcase⟩ := commitEnclave_effects env commit s
  rcases hcase with ⟨o, -, heq⟩ | heq
  · rw [heq] at hframes ⊢
    exact heff.canonical h hs hframes
  · rw [heq] at hframes ⊢
    obtain ⟨frees, hlog, -⟩ := commitFailure_log ⟨mem, log, e⟩
    rw [hlog] at hframes
    have hcanonical := heff.canonical h hs hframes.of_suffix
    unfold Enclave.commitFailure
    split <;> exact hcanonical

/-- **The regions of an enclave are made of the requests accepted for it**, in
every state of a run. -/
theorem Requested.standing {mem : Nat → Nat → Nat} (h : Requested env mem s requests) :
    ∀ e ∈ s.enclaves, Standing (requests e.handle) e := by
  induction h with
  | boot => exact fun e he => nomatch he
  | @step u v requests out pid cmd h hwords heq hout ih =>
    have hchange := ioctl_change env pid u cmd
    rw [heq] at hchange
    exact hchange.standing hwords ih

/-- **The ranges an enclave has recorded are in order**, in every state of a
run, when the allocator hands out frames. -/
theorem Requested.canonical {mem : Nat → Nat → Nat} (h : Requested env mem s requests) (hframes : FramesOnly s.log) :
    ∀ e ∈ s.enclaves, Canonical e.allPages := by
  induction h with
  | boot => exact fun e he => nomatch he
  | @step u v requests out pid cmd h hwords heq hout ih =>
    have hchange := ioctl_change env pid u cmd
    rw [heq] at hchange
    obtain ⟨events, hlog, -⟩ := hchange.calls
    have hall : FramesOnly (events ++ u.log) := by rwa [← hlog]
    have hbefore := ih hall.of_suffix
    cases hchange with
    | idle | debugged | unrevoked => exact hbefore
    | entered transition c ret result index hfind => exact forall_put (findEnclave_some hfind).1 hbefore fun hc => hc
    | created out domain hnew =>
      intro e he
      rcases List.mem_append.1 he with he | he
      · exact hbefore e he
      · obtain rfl := List.mem_singleton.1 he
        exact merged_nil.canonical
    | region cmd region c ok ret stack hcmd hfind hcheck hstack hret =>
      exact forall_put (findEnclave_some hfind).1 hbefore fun hc => hc
    | committed commit out c o o' site hfind hcommit ho =>
      obtain ⟨hlist, -⟩ := findEnclave_some hfind
      have hstanding := h.standing c.elem (hlist ▸ c.elem_mem)
      refine forall_put hlist hbefore fun hc => ?_
      have hkept := commitEnclave_canonical env commit (s := ⟨u.mem, u.log, c.elem⟩) hstanding hc
      rw [hcommit] at hkept
      exact hkept hframes
    | deleted handle c hfind hstale =>
      exact fun e he => hbefore e ((findEnclave_some hfind).1 ▸ Cursor.mem_list.2 (.inr he))

end Driver

end Tyche.Enclave
