/-
A load (`load_enclave`, `create_enclave`): the file is parsed and mapped, an
enclave is created in the driver, it gets the library, the extra regions and
the segments, and is committed.

The loader goes back on the first failure, and unmaps its own memory, but
never asks the driver to delete the enclave; closing the driver's file does
nothing in the driver, which sets no `release`.
-/
import Tyche.Enclave.Failure
import Tyche.Enclave.Transfer
import Tyche.Loader.Segments

namespace Tyche.Loader

open Tyche.Elf
open Tyche.Enclave (AddRegion Driver Command CommitMessage Event Outstanding add64 sub64 teRead teExec teUser ioctl_change
  unsealing)
open Tyche.Capa (shared confidential)
open Tyche.Pts (Outcome)

/-- The driver, and the commands that the loader issued, with what each
returned, the latest first. -/
structure Client where
  driver : Driver
  calls : List (Command × Outcome Int)

/-- `lib_encl_t`, less the gate. -/
structure Library where
  plugin : Nat
  size : Nat

/-- What a load is given, and what the system answers it: the plugin, the
file and its descriptor, if `mmap_file` succeeds, the extra regions, the
memory, and whether the files and the messages are accessible. -/
structure Load where
  libraryPlugin : Option Library
  file : Option (Nat × Elf.Env)
  extras : List AddRegion
  host : Host
  driverOpened : Bool
  createOut : Bool
  commitOut : Bool
  unmapped : Bool
  closed : Bool

/-- `ioctl`, by the process `pid`. -/
def issue (env : Enclave.Env) (pid : Nat) (cmd : Command) (c : Client) : Outcome Int × Client :=
  match c.driver.ioctl env pid cmd with
  | (out, driver) => (out, ⟨driver, (cmd, out) :: c.calls⟩)

/-- What follows a call, unless it fails. -/
def orFail (r : Outcome Int × Client) (next : Client → Outcome Int × Client) : Outcome Int × Client :=
  match r with
  | (.ret ret, c) => if ret ≠ 0 then (.ret (-1), c) else next c
  | r => r

/-- Regions are added, one after the other. -/
def addRegions (env : Enclave.Env) (pid : Nat) : List AddRegion → Client → Outcome Int × Client
  | [], c => (.ret 0, c)
  | region :: rest, c => orFail (issue env pid (.addRegion (some region)) c) (addRegions env pid rest)

/-- The region of the library. -/
def libraryRegion (handle : Nat) (library : Library) : AddRegion where
  handle := handle
  start := library.plugin
  end_ := add64 library.plugin library.size
  src := library.plugin
  flags := teRead ||| teExec ||| teUser
  tpe := shared

/-- The regions of the `PT_LOAD` segments. -/
def segmentRegions (handle : Nat) : List Phdr → List (Option Mapping) → List AddRegion
  | segment :: segments, mapping :: mappings =>
    if segment.pType ≠ ptLoad then segmentRegions handle segments mappings
    else segmentRegion handle segment (mapping.getD ⟨0, 0, fun _ => 0⟩) :: segmentRegions handle segments mappings
  | _, _ => []

/-- `stack_headroom`. -/
abbrev stackHeadroom : Nat := 4

/-- The message of the commit. -/
def commitMessage (enclave : LoadEncl) : CommitMessage where
  handle := enclave.handle
  stack := (enclave.stackSection.map fun stack => sub64 (add64 stack.shAddr stack.shSize) stackHeadroom).getD 0
  entry := (enclave.entryPoint.map (·.stValue)).getD 0

/-- `create_enclave`, once the enclave is created. -/
def fillEnclave (env : Enclave.Env) (pid : Nat) (load : Load) (library : Library) (enclave : LoadEncl) (c : Client) :
    Outcome Int × Client :=
  orFail (addRegions env pid [libraryRegion enclave.handle library] c) fun c =>
  orFail (addRegions env pid (load.extras.map fun curr => { curr with handle := enclave.handle }) c) fun c =>
  orFail (addRegions env pid (segmentRegions enclave.handle enclave.segments enclave.mappings) c) fun c =>
  -- The driver leaves the handle in the message, so comparing it never fails.
  orFail (issue env pid (.commit (commitMessage enclave) load.commitOut) c) fun c => (.ret 0, c)

/-- `create_enclave`. -/
def createEnclave (env : Enclave.Env) (pid : Nat) (load : Load) (library : Library) (enclave : LoadEncl) (c : Client) :
    Outcome Int × Client :=
  if load.driverOpened = false then (.ret (-1), c)
  else
    match issue env pid (.create load.createOut) c with
    | (.ret ret, c') =>
      if ret = -1 then (.ret (-1), c')
      -- The handle in the answer is the counter before the call.
      else fillEnclave env pid load library { enclave with handle := c.driver.tycheIds } c'
    | r => r

/-- `load_enclave`. -/
def loadEnclave (env : Enclave.Env) (pid : Nat) (load : Load) (c : Client) : Except Stop (Outcome Int × Client) :=
  match load.libraryPlugin, load.file with
  | none, _ => .ok (.ret (-1), c)
  | some _, none => .ok (.ret (-1), c)
  | some library, some (elfFd, elf) =>
    match parseEnclave elf (.opened elfFd elf.file.bytes) ⟨0, 0⟩ with
    | .error stop => .error stop
    | .ok ((ret, enclave), _) =>
      if ret ≠ 0 then .ok (.ret (-1), c)
      else
        match mapEnclave load.host enclave with
        | .error stop => .error stop
        | .ok (ret, enclave) =>
          if ret ≠ 0 then .ok (.ret (-1), c)
          else
            .ok (orFail (createEnclave env pid load library enclave c) fun c =>
              if load.unmapped = false then (.ret (-1), c)
              else if load.closed = false then (.ret (-1), c)
              else (.ret 0, c))

/-! ## What is left behind -/

/-- The driver has no enclave that it did not have before, and no range is
left transferred to a domain that was created since. -/
structure NothingLeft (s t : Driver) : Prop where
  enclaves : ∀ encl ∈ t.enclaves, ∃ old ∈ s.enclaves, old.handle = encl.handle
  transfers : ∀ events, t.log = events ++ s.log → ∀ dom, .createDomain (some dom) ∈ events →
    ∀ start end_, ¬ Outstanding events dom start end_

/-- The loader issued a command, not to delete. -/
def Issued (env : Enclave.Env) (pid : Nat) (c c' : Client) : Prop :=
  ∃ cmd, (∀ handle, cmd ≠ .delete handle) ∧ (issue env pid cmd c).2 = c'

/-- It issued such commands. -/
def Issues (env : Enclave.Env) (pid : Nat) : Client → Client → Prop := Relation.ReflTransGen (Issued env pid)

section Issues

variable {env : Enclave.Env} {pid : Nat} {c : Client}

theorem issues_issue {cmd : Command} (h : ∀ handle, cmd ≠ .delete handle) : Issues env pid c (issue env pid cmd c).2 :=
  .single ⟨cmd, h, rfl⟩

theorem issues_orFail {r : Outcome Int × Client} {next : Client → Outcome Int × Client} (hr : Issues env pid c r.2)
    (hnext : ∀ c', Issues env pid c' (next c').2) : Issues env pid c (orFail r next).2 := by
  unfold orFail
  split
  next ret c' =>
    split
    · exact hr
    · exact hr.trans (hnext c')
  · exact hr

theorem issues_addRegions (regions : List AddRegion) : ∀ c, Issues env pid c (addRegions env pid regions c).2 := by
  induction regions with
  | nil => exact fun c => .refl
  | cons region rest ih => exact fun c => issues_orFail (issues_issue (by simp)) ih

theorem issues_fillEnclave (load : Load) (library : Library) (enclave : LoadEncl) (c : Client) :
    Issues env pid c (fillEnclave env pid load library enclave c).2 :=
  issues_orFail (issues_addRegions _ c) fun c =>
  issues_orFail (issues_addRegions _ c) fun c =>
  issues_orFail (issues_addRegions _ c) fun _ =>
  issues_orFail (issues_issue (by simp)) fun _ => .refl

theorem issues_createEnclave (load : Load) (library : Library) (enclave : LoadEncl) (c : Client) :
    Issues env pid c (createEnclave env pid load library enclave c).2 := by
  have hcreate : Issues env pid c (issue env pid (.create load.createOut) c).2 := issues_issue (by simp)
  unfold createEnclave
  split
  · exact .refl
  split
  next ret c' heq =>
    rw [heq] at hcreate
    split
    · exact hcreate
    · exact hcreate.trans (issues_fillEnclave ..)
  next => exact hcreate

/-- A load does not delete. -/
theorem issues_loadEnclave {load : Load} {out : Outcome Int} {c' : Client} (h : loadEnclave env pid load c = .ok (out, c')) :
    Issues env pid c c' := by
  unfold loadEnclave at h
  split at h
  · cases h
    exact .refl
  · cases h
    exact .refl
  split at h
  · cases h
  split at h
  · cases h
    exact .refl
  split at h
  · cases h
  split at h
  · cases h
    exact .refl
  have hresult := congrArg Prod.snd (Except.ok.inj h)
  dsimp only at hresult
  rw [← hresult]
  exact issues_orFail (issues_createEnclave ..) fun c' => by split_ifs <;> exact .refl

end Issues

/-! ## The enclave that is created -/

section Created

variable {env : Enclave.Env} {pid : Nat} {s : Driver}

/-- Since the driver was in state `s`, no enclave left it, and if one was
created, it has a new one; and nothing was taken back. -/
structure Grown (s : Driver) (c : Client) : Prop where
  kept : s.enclaves.map (·.handle) <+: c.driver.enclaves.map (·.handle)
  created : ∀ copy, (.create copy, .ret 0) ∈ c.calls →
    ∃ handle ∈ c.driver.enclaves.map (·.handle), handle ∉ s.enclaves.map (·.handle)
  unrevoked : ∃ events, c.driver.log = events ++ s.log ∧ ∀ dom start end_ ok, .revokeRegion dom start end_ ok ∉ events

theorem Grown.refl (s : Driver) : Grown s ⟨s, []⟩ := ⟨List.prefix_refl _, fun _ hmem => (nomatch hmem), [], rfl, by simp⟩

theorem Grown.issued {c c' : Client} (h : Grown s c) (hissued : Issued env pid c c') : Grown s c' := by
  obtain ⟨cmd, hcmd, rfl⟩ := hissued
  have hchange := ioctl_change env pid c.driver cmd
  have hprefix := hchange.handles_prefix hcmd
  refine ⟨h.kept.trans hprefix, fun copy hmem => ?_, ?_⟩
  case refine_2 =>
    obtain ⟨events, hlog, hnone⟩ := h.unrevoked
    obtain ⟨last, hlast, hnone'⟩ := hchange.nothing_revoked hcmd
    refine ⟨last ++ events, hlast.trans (by rw [hlog, List.append_assoc]), fun dom start end_ ok hmem => ?_⟩
    exact (List.mem_append.1 hmem).elim (hnone' dom start end_ ok) (hnone dom start end_ ok)
  have hmem : (Command.create copy, Outcome.ret (0 : Int)) ∈ (cmd, (c.driver.ioctl env pid cmd).1) :: c.calls := hmem
  rcases List.mem_cons.1 hmem with heq | hmem
  · obtain ⟨rfl, hout⟩ := Prod.mk.inj heq
    rw [← hout] at hchange
    obtain ⟨hnew, hold⟩ := hchange.created_handle
    exact ⟨_, hnew, fun hmem => hold (h.kept.subset hmem)⟩
  · obtain ⟨handle, hnew, hold⟩ := h.created copy hmem
    exact ⟨handle, hprefix.subset hnew, hold⟩

theorem Grown.issues {c c' : Client} (h : Grown s c) (hissues : Issues env pid c c') : Grown s c' := by
  induction hissues with
  | refl => exact h
  | tail _ hstep ih => exact ih.issued hstep

end Created

/-- **A load takes nothing back**: what it transferred stays with the domain. -/
theorem load_unrevoked {env : Enclave.Env} {pid : Nat} {load : Load} {s : Driver} {c : Client} {out : Outcome Int}
    (hload : loadEnclave env pid load ⟨s, []⟩ = .ok (out, c)) : ∃ events, c.driver.log = events ++ s.log ∧
      ∀ dom start end_ tpe, .transferCapability dom start end_ tpe true ∈ events → Outstanding events dom start end_ := by
  obtain ⟨events, hlog, hnone⟩ := ((Grown.refl s).issues (issues_loadEnclave hload)).unrevoked
  refine ⟨events, hlog, fun dom start end_ tpe hmem => ?_⟩
  obtain ⟨later, earlier, rfl⟩ := List.append_of_mem hmem
  exact ⟨later, tpe, earlier, rfl, fun hrevoke => hnone dom start end_ true (List.mem_append_left _ hrevoke)⟩

/-- **A failed load leaves its enclave behind**, wherever it fails once the
enclave is created. -/
theorem load_leaves_enclave {env : Enclave.Env} {pid : Nat} {load : Load} {s : Driver} {c : Client} {copy : Bool}
    (hload : loadEnclave env pid load ⟨s, []⟩ = .ok (.ret (-1), c)) (hcreated : (.create copy, .ret 0) ∈ c.calls) :
    ¬ NothingLeft s c.driver := by
  intro hnothing
  obtain ⟨handle, hnew, hold⟩ := ((Grown.refl s).issues (issues_loadEnclave hload)).created copy hcreated
  obtain ⟨encl, hencl, rfl⟩ := List.mem_map.1 hnew
  obtain ⟨old, hmem, heq⟩ := hnothing.enclaves encl hencl
  exact hold (List.mem_map.2 ⟨old, hmem, heq⟩)

/-- A parent whose pages are there, and a monitor that seals no domain. -/
def unsealed : Enclave.Env :=
  { unsealing with walkPageRange := fun _ start _ => [.pteEntry start (0x20007 + start % 0x10000)] }

/-- A load of the file with one segment, in which nothing else fails. -/
def oneLoad : Load where
  libraryPlugin := some ⟨0x70001000, 0x1000⟩
  file := some (3, aligned)
  extras := []
  host := roomy
  driverOpened := true
  createOut := true
  commitOut := true
  unmapped := true
  closed := true

/-- The load fails at the seal, with a page of the segment at the domain. -/
theorem oneLoad_fails : ∃ c, loadEnclave unsealed 1 oneLoad ⟨.boot fun _ _ => 0, []⟩ = .ok (.ret (-1), c) ∧
    (.create true, .ret 0) ∈ c.calls ∧ c.driver.enclaves.map (·.handle) = [0] ∧
    .transferCapability 1 0x20000 0x21000 confidential true ∈ c.driver.log := by
  have h : (match loadEnclave unsealed 1 oneLoad ⟨.boot fun _ _ => 0, []⟩ with
      | .ok (out, c) => decide (out = .ret (-1) ∧ (.create true, .ret 0) ∈ c.calls ∧
          c.driver.enclaves.map (·.handle) = [0] ∧ .transferCapability 1 0x20000 0x21000 confidential true ∈ c.driver.log)
      | .error _ => false) = true := by decide +kernel
  split at h
  next out c heq =>
    obtain ⟨rfl, hcalls, hhandles, htransfer⟩ := of_decide_eq_true h
    exact ⟨c, heq, hcalls, hhandles, htransfer⟩
  next => cases h

theorem load_leaves_enclave_unsealed : ∃ c, loadEnclave unsealed 1 oneLoad ⟨.boot fun _ _ => 0, []⟩ = .ok (.ret (-1), c) ∧
    ¬ NothingLeft (.boot fun _ _ => 0) c.driver := by
  obtain ⟨c, hload, hcreated, -, -⟩ := oneLoad_fails
  exact ⟨c, hload, load_leaves_enclave hload hcreated⟩

/-- The enclave is left in the driver, and its page at the domain. -/
theorem enclave_left_behind : ∃ c, loadEnclave unsealed 1 oneLoad ⟨.boot fun _ _ => 0, []⟩ = .ok (.ret (-1), c) ∧
    (.create true, .ret 0) ∈ c.calls ∧ c.driver.enclaves.map (·.handle) = [0] ∧
    Outstanding c.driver.log 1 0x20000 0x21000 ∧ ¬ NothingLeft (.boot fun _ _ => 0) c.driver := by
  obtain ⟨c, hload, hcreated, hhandles, htransfer⟩ := oneLoad_fails
  obtain ⟨events, hlog, hstays⟩ := load_unrevoked hload
  have hall : c.driver.log = events := hlog.trans (List.append_nil _)
  refine ⟨c, hload, hcreated, hhandles, ?_, fun hnothing => ?_⟩
  · rw [hall] at htransfer ⊢
    exact hstays _ _ _ _ htransfer
  · have hmem : 0 ∈ c.driver.enclaves.map (·.handle) := by simp [hhandles]
    obtain ⟨encl, hencl, -⟩ := List.mem_map.1 hmem
    obtain ⟨old, hold, -⟩ := hnothing.enclaves encl hencl
    cases hold

end Tyche.Loader
