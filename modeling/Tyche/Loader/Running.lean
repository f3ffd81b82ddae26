/-
A loaded enclave keeps running its file: what the processor finds at the
addresses of the segments stays the file's, whatever is asked of the driver
after the load.
-/
import Tyche.Enclave.Lasting
import Tyche.Loader.Image

namespace Tyche.Loader

open Tyche.Elf Tyche.Pts
open Tyche.Capa (confidential)
open Tyche.Enclave (Driver Encl Run Walks Supplied Shortage TablesAllocated Commits HandsOutFrames run_tallied run_log run_handles
  HandedOver commit_reserves collectRegions pageWalk_congr Event teRead teExec)

section Load

variable {env : Enclave.Env} {pid : Nat} {c c' : Client}

/-- A command that returned 0 is a step. -/
theorem issue_run {cmd : Enclave.Command} (h : issue env pid cmd c = (.ret 0, c')) : Run env (fun _ _ _ _ => True) c.driver c'.driver := by
  obtain ⟨t, hioctl, rfl⟩ := issue_ok h
  exact .single ⟨pid, cmd, _, hioctl, by simp, trivial⟩

theorem addRegions_run (requests : List Enclave.AddRegion) : ∀ {c : Client}, addRegions env pid requests c = (.ret 0, c') →
    Run env (fun _ _ _ _ => True) c.driver c'.driver := by
  induction requests with
  | nil =>
    intro c h
    cases h
    exact .refl
  | cons req requests ih =>
    intro c h
    obtain ⟨c₁, hfirst, hrest⟩ := orFail_ok h
    exact (issue_run hfirst).trans (ih hrest)

/-- What was allocated in between was allocated since before. -/
theorem shortage_within {old old' log log' : List Event} (h : Shortage old' log) (hbefore : old <:+ old') (hafter : log <:+ log') :
    Shortage old log' := by
  obtain ⟨events, rfl, ev, hev, hfails⟩ := h
  obtain ⟨before, rfl⟩ := hbefore
  obtain ⟨after, rfl⟩ := hafter
  exact ⟨after ++ events ++ before, by simp, ev, by simp [hev], hfails⟩

/-- A load whose allocations succeed commits its enclave with all its tables. -/
theorem tablesAllocated_of_load {s x t : Driver} {commit : Enclave.CommitMessage} {out : Bool} (hgiven : ¬ Shortage s.log t.log)
    (hlog : s.log <:+ x.log) (hcommit : x.ioctl env pid (.commit commit out) = (.ret 0, t)) :
    TablesAllocated env x pid (.commit commit out) t := by
  rintro commit' out' c regions log hcmd hfind hcollect hshortage
  cases hcmd
  obtain ⟨d, site, hfound, hsite, -, -, hlog'⟩ := Enclave.ioctl_commit_ok hcommit
  obtain rfl := Option.some.inj (hfind.symm.trans hfound)
  obtain ⟨regions', log', m, invoke, hcollect', hbuild, rfl⟩ := Enclave.commitEnclave_returns hsite
  rw [hcollect] at hcollect'
  obtain ⟨-, hrest⟩ := Prod.mk.inj hcollect'
  obtain ⟨rfl, rfl⟩ := Prod.mk.inj hrest
  rw [hbuild] at hshortage
  have hcollected : x.log <:+ log := by
    obtain ⟨events, hevents, -⟩ := (Enclave.collectRegions_prepares env [] c.elem.regions x.log rfl).calls
    rw [hcollect] at hevents
    exact ⟨events, hevents.symm⟩
  refine hgiven (shortage_within hshortage (hlog.trans hcollected) ?_)
  rw [hlog']
  exact ⟨_ :: Enclave.transfers m.extras.enclave true m.extras.enclave.allPages, rfl⟩

end Load

section Lasting

variable {env : Enclave.Env} {mem : Nat → Nat → Nat} {pid : Nat} {load : Load} {library : Library} {elfFd : Nat} {elf : Elf.Env}
  {parsed encl : LoadEncl} {p : Process} {s u : Driver} {c : Client} {pte : Nat → Nat} {phys : Nat → UInt8}
  {allowed : Driver → Nat → Enclave.Command → Driver → Prop}

/-- What lasts of a load that returned 0: the processor finds the same, and grants what
the leaves say. Pages have distinct frames, and none is that of a table. -/
structure Lasts (mem mem' : Nat → Nat → Nat) (e : Encl) : Prop where
  walk : ∀ va, pageWalk mem' ptPML4 e.cr3 va = pageWalk mem ptPML4 e.cr3 va
  grants : ∀ va, accessWalk mem' ptPML4 e.cr3 va = (pageWalk mem' ptPML4 e.cr3 va).map fun r => (r.1, r.2, entryRights r.2)
  reach : ∀ {l q t}, layout.Reach mem' e.cr3 l q t → layout.Reach mem e.cr3 l q t ∧ Frame t
  handed : ∃ given, HandedOver mem e given

/-- **A loaded enclave keeps finding** what was asked for, until its process
commits it again: whatever any process asks the driver for after the load, even once the
enclave is deleted. -/
theorem load_lasts (hs : Run env allowed (.boot mem) s) (hlibrary : load.libraryPlugin = some library)
    (hfile : load.file = some (elfFd, elf))
    (hparse : parseEnclave elf (.opened elfFd elf.file.bytes) ⟨0, 0⟩ = .ok ((0, parsed), p))
    (hmap : mapEnclave load.host parsed = .ok (0, encl)) (hload : loadEnclave env pid load ⟨s, []⟩ = .ok (.ret 0, c))
    (hwalks : Walks env pte) (huser : ∀ req ∈ requestsOf load library encl s.tycheIds, req.UserSpace)
    (hapart : (requestsOf load library encl s.tycheIds).Pairwise fun p q => ¬ p.Touches q)
    (hsupplied : ∀ e ∈ c.driver.enclaves, e.handle = s.tycheIds →
      Supplied ((e.regions.flatMap (·.pas)).map (·.start)) s.log c.driver.log) (hgiven : ¬ Shortage s.log c.driver.log)
    (hlater : Run env (fun x p cmd y => TablesAllocated env x p cmd y ∧ ¬ Commits pid s.tycheIds p cmd) c.driver u)
    (hframes : HandsOutFrames u.log) :
    ∃ e ∈ c.driver.enclaves, (e.pid = pid ∧ e.handle = s.tycheIds) ∧ ∃ events, c.driver.log = events ++ s.log ∧
      FindsRequests u.mem e events pte (requestsOf load library encl s.tycheIds) ∧ Lasts c.driver.mem u.mem e ∧
      .sealDomain e.tycheHandle e.cr3 (commitMessage encl).entry (commitMessage encl).stack (some e.invoke) ∈ events := by
  obtain ⟨c₁, c₂, hcreate, hadd, hcommit⟩ := loadEnclave_ok hlibrary hfile hparse hmap hload
  obtain ⟨t, hioctl, rfl⟩ := issue_ok hcommit
  have hrun : Run env (fun _ _ _ _ => True) (.boot mem) c₂.driver :=
    (Relation.ReflTransGen.mono (fun _ _ ⟨pid, cmd, out, heq, hout, _⟩ => ⟨pid, cmd, out, heq, hout, trivial⟩) _ _ hs).trans
      ((issue_run hcreate).trans (addRegions_run _ hadd))
  have hcommitted : Run env (fun _ _ _ _ => True) (.boot mem) c.driver := hrun.trans (issue_run hcommit)
  have hsuffix : s.log <:+ c₂.driver.log := run_log ((issue_run hcreate).trans (addRegions_run _ hadd))
  have hframes' := hframes.suffix (run_log hlater)
  obtain ⟨⟨lost, htally⟩, hpages⟩ := run_tallied hrun (hframes'.suffix (run_log (issue_run hcommit)))
  obtain ⟨⟨lost', htally'⟩, hpages'⟩ := run_tallied hcommitted hframes'
  obtain ⟨e, he, hpid, hhandle, -, hpasses, hreserves⟩ :=
    commit_reserves htally hpages hioctl hframes' (tablesAllocated_of_load hgiven hsuffix hioctl)
  obtain ⟨hend, -, -, hmem⟩ := hreserves.run htally' hpages' hlater hframes fun _ _ _ _ h => h
  have hwalk : ∀ va, pageWalk u.mem ptPML4 e.cr3 va = pageWalk c.driver.mem ptPML4 e.cr3 va :=
    pageWalk_congr fun {l q table} ht => hmem table ⟨l, q, ht⟩
  obtain ⟨e', he', howner, events, hlog, hfinds, hentered, hover⟩ :=
    findsRequests_of_load hlibrary hfile hparse hmap hload hwalks huser hapart hsupplied
  obtain rfl : e' = e := List.inj_on_of_nodup_map (run_handles hcommitted) he' he (howner.2.trans hhandle.symm)
  have hgrants : ∀ va, accessWalk u.mem ptPML4 e'.cr3 va =
      (pageWalk u.mem ptPML4 e'.cr3 va).map fun r => (r.1, r.2, entryRights r.2) := fun va => by
    rw [accessWalk_congr (fun {l q table} ht => hmem table ⟨l, q, ht⟩) va, accessWalk_eq hpasses, hwalk]
  have hreach : ∀ {l q table}, layout.Reach u.mem e'.cr3 l q table → layout.Reach c.driver.mem e'.cr3 l q table ∧ Frame table := by
    intro l q table ht
    have ht' := reach_of_same (fun {l q table} ht => hmem table ⟨l, q, ht⟩) ht
    exact ⟨ht', (hframes.of_held (hend.held table ⟨l, q, ht'⟩)).2⟩
  refine ⟨e', he', howner, events, hlog, ⟨hfinds.checked, fun req hreq va hva => ?_, fun va hva hnone => ?_⟩, ⟨hwalk, hgrants, hreach, hover⟩,
    hentered⟩
  · obtain ⟨w, hpage⟩ := hfinds.found req hreq va hva
    exact ⟨w, { hpage with walk := (hwalk va).trans hpage.walk }⟩
  · rw [hwalk]
    exact hfinds.outside va hva hnone

end Lasting

/-- The segment of the file, in the memory of its loader. -/
abbrev pageMapping : Mapping := segmentMapping aligned.file.bytes 0x7f0000000000 (pageSegment 0x1000)

/-- A load of the file, and the deletion of its enclave: all that is asked of the
driver and of its allocators. -/
structure LoadedDeleted (parsed : LoadEncl) (p : Process) (c : Client) (u : Driver) : Prop where
  parse : parseEnclave aligned (.opened 3 aligned.file.bytes) ⟨0, 0⟩ = .ok ((0, parsed), p)
  segments : parsed.segments = [pageSegment 0x1000]
  map : mapEnclave oneLoad.host parsed = .ok (0, { parsed with mappings := [some pageMapping] })
  requests : requestsOf oneLoad ⟨0x70001000, 0x1000⟩ { parsed with mappings := [some pageMapping] } 0 =
    [libraryRegion 0 ⟨0x70001000, 0x1000⟩, ⟨0, 0x400000, 0x401000, 0x7f0000000000, teRead ||| teExec, confidential⟩]
  load : loadEnclave sealing 1 oneLoad ⟨.boot fun _ _ => 0, []⟩ = .ok (.ret 0, c)
  supplied : ∀ e ∈ c.driver.enclaves, Supplied ((e.regions.flatMap (·.pas)).map (·.start)) [] c.driver.log
  given : ¬ Shortage [] c.driver.log
  later : Run sealing (fun x p cmd y => TablesAllocated sealing x p cmd y ∧ ¬ Commits 1 0 p cmd) c.driver u
  frames : HandsOutFrames u.log
  deleted : u.enclaves = []

theorem loadedDeleted : ∃ parsed p c u, LoadedDeleted parsed p c u := by
  obtain ⟨parsed, p, hparse, hsegments, hcontent⟩ :=
    parsed_of_parsesTo (show parsesTo aligned (pageSegment 0x1000) = true by decide +kernel)
  have hrun : (match loadEnclave sealing 1 oneLoad ⟨.boot fun _ _ => 0, []⟩ with
      | .ok (out, c) => decide (out = .ret 0) &&
          (c.driver.enclaves.all fun e => Enclave.suppliedBy ((e.regions.flatMap (·.pas)).map (·.start)) c.driver.log) &&
          (c.driver.log.all fun ev => !ev.shortage) &&
          decide ((c.driver.ioctl sealing 1 (.delete 0)).1 = .ret 0 ∧ (c.driver.ioctl sealing 1 (.delete 0)).2.enclaves = []) &&
          (Enclave.handsOutFreeBy (c.driver.ioctl sealing 1 (.delete 0)).2.log &&
            Enclave.handedOut (c.driver.ioctl sealing 1 (.delete 0)).2.log)
      | .error _ => false) = true := by decide +kernel
  split at hrun
  next out c heq =>
    simp only [Bool.and_eq_true, decide_eq_true_eq] at hrun
    obtain ⟨⟨⟨⟨rfl, hsupplied⟩, hgiven⟩, hdelete, hnone⟩, hfree, hout⟩ := hrun
    refine ⟨parsed, p, c, (c.driver.ioctl sealing 1 (.delete 0)).2, hparse, hsegments, mapEnclave_aligned hsegments hcontent,
      requestsOf_aligned hsegments, heq, fun e he => .of_suppliedBy (List.all_eq_true.1 hsupplied e he), ?_,
      .single ⟨1, .delete 0, .ret 0, Prod.ext hdelete rfl, by simp, .of_other (by simp), ?_⟩, .of_checks hfree hout, hnone⟩
    · rintro ⟨events, hlog, ev, hev, hfails⟩
      have hnot := List.all_eq_true.1 hgiven ev (hlog ▸ List.mem_append_left _ hev)
      rw [hfails] at hnot
      cases hnot
    · rintro ⟨-, commit, out, hcmd, -⟩
      cases hcmd
  next => cases hrun

end Tyche.Loader
