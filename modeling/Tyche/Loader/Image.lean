/-
What a load that returns 0 leaves (`load_enclave`): an enclave whose
processor finds, at the addresses of the segments, the bytes of the file with
the rights of the segments, in frames that were given to its domain alone,
and which is entered where the file says.
-/
import Tyche.Enclave.Contents
import Tyche.Loader.Load

namespace Tyche.Loader

open Tyche.Elf Tyche.Pts
open Tyche.Enclave (AddRegion Driver Command CommitMessage Encl Event Region Added WellSourced Laid Walks Supplied TransferredAs
  FindsPage findEnclave regionCheck translateFlags permissionMask ptePfnMask page add64 teRead teWrite teExec create_change
  driver_addRegion_cases commitEnclave_contents HandedOver)
open Tyche.Capa (confidential)

/-- What a load asks the driver for. -/
def requestsOf (load : Load) (library : Library) (encl : LoadEncl) (handle : Nat) : List AddRegion :=
  libraryRegion handle library :: (load.extras.map fun curr => { curr with handle := handle }) ++
    segmentRegions handle encl.segments encl.mappings

/-! ## The commands of a load -/

section Commands

variable {env : Enclave.Env} {pid : Nat} {c c' : Client}

theorem orFail_ok {r : Outcome Int × Client} {next : Client → Outcome Int × Client} (h : orFail r next = (.ret 0, c')) :
    ∃ c₁, r = (.ret 0, c₁) ∧ next c₁ = (.ret 0, c') := by
  unfold orFail at h
  split at h
  next ret c₁ =>
    split at h
    · cases h
    next hret => exact ⟨c₁, by rw [not_not.1 hret], h⟩
  next hother =>
    obtain ⟨out, c₁⟩ := r
    cases h
    exact absurd rfl (hother 0 c')

theorem issue_ok {cmd : Command} (h : issue env pid cmd c = (.ret 0, c')) :
    ∃ t, c.driver.ioctl env pid cmd = (.ret 0, t) ∧ c'.driver = t := by
  unfold issue at h
  rcases hioctl : c.driver.ioctl env pid cmd with ⟨out, t⟩
  rw [hioctl] at h
  cases h
  exact ⟨t, rfl, rfl⟩

/-- The driver has this enclave last, and no other with its handle. -/
structure HasLast (olds : List Encl) (e : Encl) (s : Driver) : Prop where
  enclaves : s.enclaves = olds ++ [e]
  unique : ∀ x ∈ olds, x.handle ≠ e.handle

/-- It is found by its owner. -/
theorem HasLast.find {olds : List Encl} {e : Encl} {s : Driver} (h : HasLast olds e s) :
    findEnclave e.pid e.handle s.enclaves = some ⟨olds.reverse, e, []⟩ := by
  have hfind := Cursor.find_list (p := fun encl => encl.handle == e.handle) ⟨olds.reverse, e, []⟩
    (fun x hx => by simpa using h.unique x (by simpa using hx)) (beq_self_eq_true _)
  rw [show Cursor.list ⟨olds.reverse, e, []⟩ = s.enclaves by simp [Cursor.list, h.enclaves]] at hfind
  unfold findEnclave
  rw [hfind]
  simp

/-- The enclave of a load, before it is committed: its regions are made of these requests. -/
structure Filling (pid : Nat) (s : Driver) (accepted : List AddRegion) (e : Encl) (c : Client) : Prop where
  last : HasLast s.enclaves e c.driver
  owner : e.pid = pid ∧ e.handle = s.tycheIds
  empty : e.pts = [] ∧ e.allPages = []
  laid : Laid accepted e.regions
  log : s.log <:+ c.driver.log

/-- The enclave is created, with nothing in it. -/
theorem filling_create {s : Driver} {calls : List (Command × Outcome Int)} {out : Bool}
    (h : issue env pid (.create out) ⟨s, calls⟩ = (.ret 0, c')) : ∃ e, Filling pid s [] e c' := by
  have hchange := create_change env pid s out
  obtain ⟨t, hioctl, hdriver⟩ := issue_ok h
  rw [hioctl] at hchange
  dsimp only at hchange
  generalize hzero : Outcome.ret (0 : Int) = ret at hchange
  cases hchange with
  | idle => cases hzero
  | created out domain hnew =>
    refine ⟨_, ⟨by rw [hdriver], hnew⟩, ⟨rfl, rfl⟩, ⟨rfl, rfl⟩, ⟨.none, by simp⟩, ?_⟩
    rw [hdriver]
    exact ⟨[_, _], rfl⟩
  | region cmd region c ok ret stack hcmd => rcases hcmd with hcmd | hcmd <;> cases hcmd

theorem create_ret {out : Bool} {ret : Int} (h : issue env pid (.create out) c = (.ret ret, c')) : ret = 0 ∨ ret = -1 := by
  have hchange := create_change env pid c.driver out
  unfold issue at h
  rcases hioctl : c.driver.ioctl env pid (.create out) with ⟨o, t⟩
  rw [hioctl] at h hchange
  cases h
  cases hchange with
  | idle => exact .inr rfl
  | created =>
    unfold Enclave.copied
    split
    · exact .inr rfl
    · exact .inl rfl
  | region cmd region c ok ret stack hcmd => rcases hcmd with hcmd | hcmd <;> cases hcmd

/-- A region is added. -/
theorem Filling.addRegion {s : Driver} {accepted : List AddRegion} {e : Encl} {req : AddRegion} (h : Filling pid s accepted e c)
    (hhandle : req.handle = s.tycheIds) (hapart : ∀ q ∈ accepted, ¬ req.Touches q)
    (hadd : issue env pid (.addRegion (some req)) c = (.ret 0, c')) : ∃ e', Filling pid s (req :: accepted) e' c' := by
  have hfind := h.last.find
  rw [h.owner.1, h.owner.2, ← hhandle] at hfind
  obtain ⟨t, hioctl, hdriver⟩ := issue_ok hadd
  have hioctl : (Outcome.ret (c.driver.addRegion env pid req).1, (c.driver.addRegion env pid req).2) = (.ret 0, t) := hioctl
  rcases driver_addRegion_cases env pid c.driver req with heq | ⟨d, ok, hfound, hcheck, heq⟩
  · rw [heq] at hioctl
    cases hioctl
  · obtain rfl := Option.some.inj (hfind.symm.trans hfound)
    rw [heq] at hioctl
    rcases hregions : Enclave.addRegion ok req e.regions with ⟨ret, regions⟩
    rw [hregions] at hioctl
    cases hioctl
    refine ⟨{ e with regions := regions }, ⟨?_, h.last.unique⟩, h.owner, h.empty, h.laid.accept hregions hapart, ?_⟩
    · simp [hdriver, Driver.with, Cursor.list]
    · rw [hdriver]
      exact h.log.trans (List.suffix_cons ..)

/-- Regions are added, one after the other. -/
theorem Filling.addRegions {s : Driver} (requests : List AddRegion) : ∀ {accepted : List AddRegion} {e : Encl} {c : Client},
    Filling pid s accepted e c → (∀ req ∈ requests, req.handle = s.tycheIds) →
    (requests.reverse ++ accepted).Pairwise (fun p q => ¬ p.Touches q) → addRegions env pid requests c = (.ret 0, c') →
    ∃ e', Filling pid s (requests.reverse ++ accepted) e' c' := by
  induction requests with
  | nil =>
    intro accepted e c h _ _ hadd
    cases hadd
    exact ⟨e, h⟩
  | cons req requests ih =>
    intro accepted e c h hhandle hapart hadd
    obtain ⟨c₁, hfirst, hrest⟩ := orFail_ok hadd
    rw [List.reverse_cons, List.append_assoc, List.singleton_append] at hapart ⊢
    have hhead := (List.pairwise_cons.1 (List.pairwise_append.1 hapart).2.1).1
    obtain ⟨e₁, h₁⟩ := h.addRegion (hhandle req (List.mem_cons_self ..)) hhead hfirst
    exact ih h₁ (fun q hq => hhandle q (List.mem_cons_of_mem _ hq)) hapart hrest

/-- The enclave is committed. -/
theorem Filling.commit {s : Driver} {accepted : List AddRegion} {e : Encl} {commit : CommitMessage} {out : Bool}
    (h : Filling pid s accepted e c) (hhandle : commit.handle = s.tycheIds)
    (hcommit : issue env pid (.commit commit out) c = (.ret 0, c')) :
    ∃ site, Enclave.commitEnclave env commit ⟨c.driver.mem, c.driver.log, e⟩ = (.ret 0, site) ∧
      c'.driver.enclaves = s.enclaves ++ [site.encl] ∧ c'.driver.mem = site.mem ∧ c'.driver.log = site.log := by
  have hfind := h.last.find
  rw [h.owner.1, h.owner.2, ← hhandle] at hfind
  obtain ⟨t, hioctl, hdriver⟩ := issue_ok hcommit
  rcases hsite : Enclave.commitEnclave env commit ⟨c.driver.mem, c.driver.log, e⟩ with ⟨o, site⟩
  have hcommitted : c.driver.commitEnclave env pid commit = (o,
      { c.driver with
        enclaves := s.enclaves ++ [site.encl]
        otherCr3 := if o = .ret 0 then site.encl.cr3 else c.driver.otherCr3
        mem := site.mem
        log := site.log }) := by
    unfold Driver.commitEnclave
    rw [hfind]
    dsimp only
    rw [hsite]
    simp [Cursor.list]
  unfold Driver.ioctl at hioctl
  dsimp only at hioctl
  rw [hcommitted] at hioctl
  cases o with
  | ret ret =>
    obtain ⟨hret, rfl⟩ := Prod.mk.inj hioctl
    have hcopied : Enclave.copied out ret = 0 := Outcome.ret.inj hret
    have hzero : ret = 0 := by
      by_contra hne
      rw [Enclave.copied, if_neg fun h => hne h.1] at hcopied
      exact hne hcopied
    subst hzero
    exact ⟨site, rfl, by rw [hdriver], by rw [hdriver], by rw [hdriver]⟩
  | fault => cases hioctl
  | freed => cases hioctl

theorem addRegions_append {requests : List AddRegion} (requests' : List AddRegion) : ∀ {c c₁ : Client},
    addRegions env pid requests c = (.ret 0, c₁) → addRegions env pid (requests ++ requests') c = addRegions env pid requests' c₁ := by
  induction requests with
  | nil =>
    intro c c₁ h
    cases h
    rfl
  | cons req requests ih =>
    intro c c₁ h
    obtain ⟨c₂, hfirst, hrest⟩ := orFail_ok h
    have hstep : addRegions env pid (req :: (requests ++ requests')) c = addRegions env pid (requests ++ requests') c₂ := by
      show orFail (issue env pid (.addRegion (some req)) c) (addRegions env pid (requests ++ requests')) = _
      rw [hfirst]
      rfl
    exact hstep.trans (ih hrest)

/-- Once the enclave is created, all requests are accepted, and it is committed. -/
theorem fillEnclave_ok {load : Load} {library : Library} {enclave : LoadEncl}
    (h : fillEnclave env pid load library enclave c = (.ret 0, c')) :
    ∃ c₁, addRegions env pid (requestsOf load library enclave enclave.handle) c = (.ret 0, c₁) ∧
      issue env pid (.commit (commitMessage enclave) load.commitOut) c₁ = (.ret 0, c') := by
  obtain ⟨c₁, hlibrary, h⟩ := orFail_ok h
  obtain ⟨c₂, hextras, h⟩ := orFail_ok h
  obtain ⟨c₃, hsegments, h⟩ := orFail_ok h
  obtain ⟨c₄, hcommit, h⟩ := orFail_ok h
  cases h
  refine ⟨c₃, ?_, hcommit⟩
  rw [requestsOf, List.cons_append, ← List.singleton_append, addRegions_append _ hlibrary, addRegions_append _ hextras, hsegments]

theorem loadEnclave_ok {load : Load} {library : Library} {elfFd : Nat} {elf : Elf.Env} {parsed encl : LoadEncl} {p : Process}
    (hlibrary : load.libraryPlugin = some library) (hfile : load.file = some (elfFd, elf))
    (hparse : parseEnclave elf (.opened elfFd elf.file.bytes) ⟨0, 0⟩ = .ok ((0, parsed), p))
    (hmap : mapEnclave load.host parsed = .ok (0, encl)) {s : Driver} (h : loadEnclave env pid load ⟨s, []⟩ = .ok (.ret 0, c)) :
    ∃ c₁ c₂, issue env pid (.create load.createOut) ⟨s, []⟩ = (.ret 0, c₁) ∧
      addRegions env pid (requestsOf load library encl s.tycheIds) c₁ = (.ret 0, c₂) ∧
      issue env pid (.commit (commitMessage { encl with handle := s.tycheIds }) load.commitOut) c₂ = (.ret 0, c) := by
  unfold loadEnclave at h
  rw [hlibrary, hfile] at h
  dsimp only at h
  rw [hparse] at h
  dsimp only at h
  rw [if_neg (by simp), hmap] at h
  dsimp only at h
  rw [if_neg (by simp)] at h
  obtain ⟨c₃, hcreate, h⟩ := orFail_ok (Except.ok.inj h)
  obtain rfl : c₃ = c := by
    split_ifs at h
    · cases h
    · cases h
    · exact (Prod.mk.inj h).2
  unfold createEnclave at hcreate
  split at hcreate
  · cases hcreate
  split at hcreate
  next ret c₁ heq =>
    split at hcreate
    · cases hcreate
    next hret =>
      obtain rfl := (create_ret heq).resolve_right hret
      obtain ⟨c₂, hadd, hcommit⟩ := fillEnclave_ok hcreate
      exact ⟨c₁, c₂, heq, hadd, hcommit⟩
  next hother => exact absurd hcreate (hother 0 _)

end Commands

/-! ## The segments -/

section Segments

variable {host : Host} {elf : List UInt8}

theorem mem_segmentRegions {handle : Nat} : ∀ {segments : List Phdr} {mappings : List (Option Mapping)} {j : Nat} {segment : Phdr}
    {mapping : Mapping}, segments[j]? = some segment → mappings[j]? = some (some mapping) → segment.pType = ptLoad →
    segmentRegion handle segment mapping ∈ segmentRegions handle segments mappings := by
  intro segments
  induction segments with
  | nil =>
    intro mappings j segment mapping hsegment _ _
    cases hsegment
  | cons first segments ih =>
    intro mappings j segment mapping hsegment hmapping hload
    cases mappings with
    | nil => cases hmapping
    | cons head mappings =>
      rw [segmentRegions]
      cases j with
      | zero =>
        obtain rfl := Option.some.inj hsegment
        obtain rfl := Option.some.inj hmapping
        rw [if_neg (not_not_intro hload)]
        exact List.mem_cons_self ..
      | succ j =>
        have hmem := ih hsegment hmapping hload
        split
        · exact hmem
        · exact List.mem_cons_of_mem _ hmem

theorem segmentRegions_handle {handle : Nat} : ∀ {segments : List Phdr} {mappings : List (Option Mapping)},
    ∀ req ∈ segmentRegions handle segments mappings, req.handle = handle := by
  intro segments
  induction segments with
  | nil => simp [segmentRegions]
  | cons segment segments ih =>
    intro mappings req hreq
    cases mappings with
    | nil => cases hreq
    | cons mapping mappings =>
      rw [segmentRegions] at hreq
      split at hreq
      · exact ih req hreq
      · rcases List.mem_cons.1 hreq with rfl | hreq
        · rfl
        · exact ih req hreq

theorem mem_requestsOf_library {load : Load} {library : Library} {encl : LoadEncl} {handle : Nat} :
    libraryRegion handle library ∈ requestsOf load library encl handle := List.mem_append_left _ (List.mem_cons_self ..)

theorem mem_requestsOf_extra {load : Load} {library : Library} {encl : LoadEncl} {handle : Nat} {extra : AddRegion}
    (h : extra ∈ load.extras) : { extra with handle := handle } ∈ requestsOf load library encl handle :=
  List.mem_append_left _ (List.mem_cons_of_mem _ (List.mem_map_of_mem h))

/-- A load adds regions to its own enclave only. -/
theorem requestsOf_handle {load : Load} {library : Library} {encl : LoadEncl} {handle : Nat} {req : AddRegion}
    (h : req ∈ requestsOf load library encl handle) : req.handle = handle := by
  rcases List.mem_append.1 h with h | h
  · rcases List.mem_cons.1 h with rfl | h
    · rfl
    · obtain ⟨curr, -, rfl⟩ := List.mem_map.1 h
      rfl
  · exact segmentRegions_handle req h

/-- The bytes of the segments that are mapped are in the file. -/
theorem MapsInside.copyable : ∀ {segments : List Phdr} {i : Nat}, MapsInside host elf i segments → AllMapped host i segments →
    ∀ segment ∈ segments, segment.pType = ptLoad → Copyable elf segment := by
  intro segments
  induction segments with
  | nil => simp
  | cons first segments ih =>
    intro i hinside hall segment hmem hload
    obtain ⟨hfirst, hrest⟩ := allMapped_cons.1 hall
    rw [MapsInside] at hinside
    split at hinside
    next hskip =>
      refine ih hinside hrest segment ((List.mem_cons.1 hmem).resolve_left ?_) hload
      rintro rfl
      exact hskip hload
    next hkept =>
      obtain ⟨hcopyable, hinside⟩ := hinside.2 (hfirst (not_not.1 hkept))
      rcases List.mem_cons.1 hmem with rfl | hmem
      · exact hcopyable
      · exact ih hinside hrest segment hmem hload

theorem mapEnclave_copyable {enclave mapped : LoadEncl} (h : mapEnclave host enclave = .ok (0, mapped)) :
    ∀ segment ∈ enclave.segments, segment.pType = ptLoad → Copyable enclave.elfContent segment := by
  unfold mapEnclave at h
  split at h
  · cases h
  split at h
  · cases h
  rcases mapSegments_cases host enclave.elfContent enclave.segments 0 with
    ⟨hinside, ⟨mappings, heq, hall, hmapped⟩ | ⟨heq, -⟩⟩ | ⟨-, heq | heq⟩ <;> rw [heq] at h <;> cases h
  exact hinside.copyable hall

theorem mapEnclave_fields {enclave mapped : LoadEncl} (h : mapEnclave host enclave = .ok (0, mapped)) :
    ∃ mappings, mapped = { enclave with mappings } := by
  unfold mapEnclave at h
  split at h
  · cases h
  split at h
  · cases h
  rcases mapSegments_cases host enclave.elfContent enclave.segments 0 with
    ⟨-, ⟨mappings, heq, -⟩ | ⟨heq, -⟩⟩ | ⟨-, heq | heq⟩ <;> rw [heq] at h <;> cases h
  exact ⟨mappings, rfl⟩

end Segments

/-! ## The image -/

/-- The memory of the loader, seen through its page table: each byte of a mapping
is in the frame of its page. -/
def Holds (pte : Nat → Nat) (phys : Nat → UInt8) (mapping : Mapping) : Prop :=
  ∀ k < mapping.size, phys ((pte ((mapping.addr + k) / page) &&& ptePfnMask) + (mapping.addr + k) % page) = mapping.byte k

/-- The processor finds the byte of the segment at its address, with the rights of
the segment, and the frame was given to the domain of the enclave alone. -/
structure FindsByte (mem : Nat → Nat → Nat) (phys : Nat → UInt8) (e : Encl) (events : List Event) (elf : List UInt8)
    (segment : Phdr) (k w : Nat) : Prop where
  walk : pageWalk mem ptPML4 e.cr3 (segment.pVaddr + k) = some (ptPTE, w)
  byte : some (phys ((w &&& ptPhysPageMask) + (segment.pVaddr + k) % page)) =
    if k < segment.pFilesz then elf[segment.pOffset + k]? else some 0
  writable : w &&& ptRW ≠ 0 ↔ segment.pFlags &&& pfW ≠ 0
  executable : w &&& ptNX = 0 ↔ segment.pFlags &&& pfX ≠ 0
  given : TransferredAs events e.tycheHandle (w &&& ptPhysPageMask) confidential

/-- **The enclave runs the file**: its segments are at their addresses, only what
was asked for is mapped, and the domain was sealed to start as the file says. -/
structure RunsFile (mem : Nat → Nat → Nat) (phys : Nat → UInt8) (e : Encl) (events : List Event) (requests : List AddRegion)
    (encl : LoadEncl) : Prop where
  segments : ∀ segment ∈ encl.segments, segment.pType = ptLoad → ∀ k < segment.pMemsz, ∃ w,
    FindsByte mem phys e events encl.elfContent segment k w
  outside : ∀ va < 2 ^ 48, (∀ req ∈ requests, ¬ req.Covers va) → pageWalk mem ptPML4 e.cr3 va = none
  entered : .sealDomain e.tycheHandle e.cr3 (commitMessage encl).entry (commitMessage encl).stack (some e.invoke) ∈ events

/-- At each address of a request the processor finds the frame that the loader has
at the source of the request, and nothing is found elsewhere. -/
structure FindsRequests (mem : Nat → Nat → Nat) (e : Encl) (events : List Event) (pte : Nat → Nat) (requests : List AddRegion) : Prop where
  checked : ∀ req ∈ requests, regionCheck req = true
  found : ∀ req ∈ requests, ∀ va, req.Covers va → ∃ w, FindsPage mem e events pte va (req.src + (va - req.start)) req.flags req.tpe w
  outside : ∀ va < 2 ^ 48, (∀ req ∈ requests, ¬ req.Covers va) → pageWalk mem ptPML4 e.cr3 va = none

/-! ## The bytes of a segment -/

section Bytes

variable {elf : List UInt8} {segment : Phdr} {flags : Nat}

/-- A page is writable if it was asked to be. -/
theorem translateFlags_write_iff : translateFlags flags &&& ptRW ≠ 0 ↔ flags &&& teWrite ≠ 0 := by
  have hbit : flags &&& teWrite = teWrite ∨ flags &&& teWrite = 0 := by
    rw [show teWrite = 2 ^ 1 from rfl, Nat.and_two_pow]
    cases flags.testBit 1 <;> decide
  unfold translateFlags
  rcases hbit with hbit | hbit
  · rw [hbit, if_pos (show teWrite = teWrite from rfl)]
    split_ifs <;> decide
  · rw [hbit, if_neg (show ¬ 0 = teWrite by decide)]
    split_ifs <;> decide

theorem translateFlags_exec_iff : translateFlags flags &&& ptNX = 0 ↔ flags &&& teExec ≠ 0 := by
  unfold translateFlags
  by_cases hexec : flags &&& teExec = 0
  · rw [if_pos hexec, iff_false_right (not_not_intro hexec)]
    split_ifs <;> decide
  · rw [if_neg hexec, iff_true_right hexec]
    split_ifs <;> decide

/-- The bytes of the file are in the mapping of the segment. -/
theorem Copyable.byte_eq (h : Copyable elf segment) (addr k : Nat) :
    some ((segmentMapping elf addr segment).byte k) = if k < segment.pFilesz then elf[segment.pOffset + k]? else some 0 := by
  unfold segmentMapping
  dsimp only
  split
  next hk =>
    have hlt := (copies_iff.2 h k hk).1
    rw [List.getD_eq_getElem?_getD, List.getElem?_eq_getElem hlt, Option.getD_some]
  next => rfl

/-- A segment whose region is accepted has the addresses of its memory. -/
theorem segmentRegion_covers {handle addr k : Nat} (hvaddr : segment.pVaddr < 2 ^ 64)
    (hcheck : regionCheck (segmentRegion handle segment (segmentMapping elf addr segment)) = true) (hk : k < mappedSize segment) :
    (segmentRegion handle segment (segmentMapping elf addr segment)).Covers (segment.pVaddr + k) := by
  have hlt : segment.pVaddr < add64 segment.pVaddr (mappedSize segment) := Enclave.regionCheck_lt hcheck
  have hsize : mappedSize segment < 2 ^ 64 := Nat.mod_lt _ (by decide)
  refine ⟨Nat.le_add_right .., ?_⟩
  show segment.pVaddr + k < add64 segment.pVaddr (mappedSize segment)
  unfold add64 at hlt ⊢
  omega

/-- A page that is found for the segment holds its bytes. -/
theorem findsByte_of_findsPage {mem : Nat → Nat → Nat} {phys : Nat → UInt8} {e : Encl} {events : List Event} {pte : Nat → Nat}
    {addr k w : Nat} (hcopy : Copyable elf segment) (hstart : segment.pVaddr % page = 0) (haddr : addr % page = 0)
    (hholds : Holds pte phys (segmentMapping elf addr segment)) (hk : k < mappedSize segment)
    (h : FindsPage mem e events pte (segment.pVaddr + k) (addr + k) (translateElfFlags segment.pFlags) confidential w) :
    FindsByte mem phys e events elf segment k w where
  walk := h.walk
  byte := by
    have hoffset : (segment.pVaddr + k) % page = (addr + k) % page := by rw [Nat.add_mod, hstart, Nat.add_mod addr, haddr]
    have hbyte : phys ((pte ((addr + k) / page) &&& ptePfnMask) + (addr + k) % page) = (segmentMapping elf addr segment).byte k :=
      hholds k hk
    rw [h.frame, hoffset, hbyte]
    exact hcopy.byte_eq addr k
  writable := by
    have hbit : w &&& ptRW = translateFlags (translateElfFlags segment.pFlags) &&& ptRW := by
      rw [← h.permissions, Nat.and_assoc]
      rfl
    rw [hbit, translateFlags_write_iff, translateElfFlags_write]
  executable := by
    have hbit : w &&& ptNX = translateFlags (translateElfFlags segment.pFlags) &&& ptNX := by
      rw [← h.permissions, Nat.and_assoc]
      rfl
    rw [hbit, translateFlags_exec_iff, translateElfFlags_exec]
  given := h.given

end Bytes

section Load

variable {env : Enclave.Env} {pid : Nat} {load : Load} {library : Library} {elfFd : Nat} {elf : Elf.Env} {parsed encl : LoadEncl}
  {p : Process} {s : Driver} {c : Client} {pte : Nat → Nat} {phys : Nat → UInt8}

/-- **A load that returns 0** leaves an enclave that finds what was asked for. -/
theorem findsRequests_of_load (hlibrary : load.libraryPlugin = some library) (hfile : load.file = some (elfFd, elf))
    (hparse : parseEnclave elf (.opened elfFd elf.file.bytes) ⟨0, 0⟩ = .ok ((0, parsed), p))
    (hmap : mapEnclave load.host parsed = .ok (0, encl)) (hload : loadEnclave env pid load ⟨s, []⟩ = .ok (.ret 0, c))
    (hwalks : Walks env pte) (huser : ∀ req ∈ requestsOf load library encl s.tycheIds, req.UserSpace)
    (hapart : (requestsOf load library encl s.tycheIds).Pairwise fun p q => ¬ p.Touches q)
    (hs : ∀ e ∈ c.driver.enclaves, e.handle = s.tycheIds →
      Supplied ((e.regions.flatMap (·.pas)).map (·.start)) s.log c.driver.log) :
    ∃ e ∈ c.driver.enclaves, (e.pid = pid ∧ e.handle = s.tycheIds) ∧ ∃ events, c.driver.log = events ++ s.log ∧
      FindsRequests c.driver.mem e events pte (requestsOf load library encl s.tycheIds) ∧
      .sealDomain e.tycheHandle e.cr3 (commitMessage encl).entry (commitMessage encl).stack (some e.invoke) ∈ events ∧
      ∃ given, HandedOver c.driver.mem e given := by
  obtain ⟨c₁, c₂, hcreate, hadd, hcommit⟩ := loadEnclave_ok hlibrary hfile hparse hmap hload
  obtain ⟨e₁, h₁⟩ := filling_create hcreate
  have hreversed : ((requestsOf load library encl s.tycheIds).reverse ++ []).Pairwise fun p q : AddRegion => ¬ p.Touches q := by
    rw [List.append_nil, List.pairwise_reverse]
    exact hapart.imp fun hpq hqp => hpq ⟨hqp.1.symm, hqp.2.1.symm, hqp.2.2.symm⟩
  obtain ⟨e₂, h₂⟩ := Filling.addRegions _ h₁ (fun req hreq => requestsOf_handle hreq) hreversed hadd
  rw [List.append_nil] at h₂
  obtain ⟨site, hsite, henclaves, hmem, hlog⟩ := h₂.commit rfl hcommit
  have hidentity := (Enclave.commitEnclave_calls env (commitMessage { encl with handle := s.tycheIds }) ⟨c₂.driver.mem, c₂.driver.log, e₂⟩).1
  rw [hsite] at hidentity
  have hmem' : site.encl ∈ c.driver.enclaves := by simp [henclaves]
  have hhandle : site.encl.handle = s.tycheIds := hidentity.handle.trans h₂.owner.2
  refine ⟨site.encl, hmem', ⟨hidentity.pid.trans h₂.owner.1, hhandle⟩, ?_⟩
  have huser' : ∀ q ∈ (requestsOf load library encl s.tycheIds).reverse, q.UserSpace := fun q hq => huser q (List.mem_reverse.1 hq)
  have hsorted : e₂.regions.Pairwise fun p q => p.end_ ≤ q.start ∨ q.end_ ≤ p.start :=
    h₂.laid.added.sourced.sorted.2.imp .inl
  obtain ⟨events, hevents, hfound, hnothing, hsealed, hover⟩ := commitEnclave_contents hwalks hsite h₂.empty.1 h₂.empty.2
    (h₂.laid.plain huser') hsorted ((hs _ hmem' hhandle).part h₂.log (by rw [hlog]))
  obtain ⟨before, hbefore⟩ := h₂.log
  refine ⟨events ++ before, by rw [hlog, hevents, List.append_assoc, hbefore], ⟨fun req hreq => ?_, fun req hreq va hva => ?_,
    fun va hva hnone => ?_⟩, List.mem_append_left _ hsealed, events, hmem ▸ hover⟩
  · exact h₂.laid.added.checked req (List.mem_reverse.2 hreq)
  · obtain ⟨r, hr, ⟨h1, h2⟩, hsource, hflags, htpe⟩ := h₂.laid.region huser' (List.mem_reverse.2 hreq) hva
    obtain ⟨w, hpage⟩ := hfound r hr va h1 h2
    rw [hsource, hflags, htpe, ← hmem] at hpage
    exact ⟨w, hpage.later before⟩
  · rw [hmem]
    refine hnothing va hva fun r hr hcovers => ?_
    obtain ⟨q, hq, hcovered, -⟩ := h₂.laid.view hr hcovers.1 hcovers.2
    exact hnone q (List.mem_reverse.1 hq) hcovered

/-- An enclave that finds what a load asks for finds the bytes of the segments. -/
theorem FindsRequests.segment {mem : Nat → Nat → Nat} {e : Encl} {events : List Event} {handle : Nat}
    (h : FindsRequests mem e events pte (requestsOf load library encl handle))
    (hparse : parseEnclave elf (.opened elfFd elf.file.bytes) ⟨0, 0⟩ = .ok ((0, parsed), p))
    (hmap : mapEnclave load.host parsed = .ok (0, encl))
    (hholds : ∀ mapping, some mapping ∈ encl.mappings → Holds pte phys mapping)
    (hrounds : ∀ segment ∈ encl.segments, segment.pType = ptLoad → RoundsUp segment) {segment : Phdr}
    (hsegment : segment ∈ encl.segments) (hkind : segment.pType = ptLoad) {k : Nat} (hk : k < segment.pMemsz) :
    ∃ w, FindsByte mem phys e events encl.elfContent segment k w := by
  obtain ⟨mappings, rfl⟩ := mapEnclave_fields hmap
  have hsegment : segment ∈ parsed.segments := hsegment
  obtain ⟨j, hj⟩ := List.mem_iff_getElem?.1 hsegment
  obtain ⟨addr, hmmap, hmapping⟩ := mapEnclave_mapped hmap j segment hj hkind
  have hreq : segmentRegion handle segment (segmentMapping parsed.elfContent addr segment) ∈
      requestsOf load library { parsed with mappings } handle :=
    List.mem_append_right _ (mem_segmentRegions hj hmapping hkind)
  obtain ⟨bytes, hdecoded⟩ := parseEnclave_segments hparse segment hsegment
  have hsize : k < mappedSize segment := by
    refine hk.trans_le ((memsz_le_mappedSize ?_ ?_).2 (hrounds segment hsegment hkind)) <;> rw [hdecoded]
    · exact Bytes.number_slice_lt bytes 40 8
    · exact Bytes.number_slice_lt bytes 48 8
  have hcheck := h.checked _ hreq
  have hvaddr : segment.pVaddr < 2 ^ 64 := by
    rw [hdecoded]
    exact Bytes.number_slice_lt bytes 16 8
  obtain ⟨w, hpage⟩ := h.found _ hreq _ (segmentRegion_covers hvaddr hcheck hsize)
  have hk' : (segmentRegion handle segment (segmentMapping parsed.elfContent addr segment)).src +
      (segment.pVaddr + k - (segmentRegion handle segment (segmentMapping parsed.elfContent addr segment)).start) = addr + k :=
    congrArg (addr + ·) (Nat.add_sub_cancel_left ..)
  rw [hk'] at hpage
  exact ⟨w, findsByte_of_findsPage (mapEnclave_copyable hmap segment hsegment hkind) (Enclave.regionCheck_iff.1 hcheck).1.1
    (load.host.aligned hmmap) (hholds _ (List.mem_of_getElem? hmapping)) hsize hpage⟩

end Load

/-! ## A load that returns 0 -/

/-- The page table of a parent. -/
def parentEntry (n : Nat) : Nat := 0x20007 + n % 16 * 0x1000

/-- The monitor seals its domain. -/
def sealing : Enclave.Env := { Enclave.plenty with walkPageRange := fun _ => Enclave.walkOf parentEntry }

/-- Its memory, with the segment of the file. -/
def parentByte (a : Nat) : UInt8 := (segmentMapping aligned.file.bytes 0x7f0000000000 (pageSegment 0x1000)).byte (a - 0x20000)

theorem parentByte_holds : Holds parentEntry parentByte (segmentMapping aligned.file.bytes 0x7f0000000000 (pageSegment 0x1000)) := by
  intro k hk
  have hk : k < 0x1000 := hk
  have hp : page = 4096 := rfl
  have haddr : (segmentMapping aligned.file.bytes 0x7f0000000000 (pageSegment 0x1000)).addr = 0x7f0000000000 := rfl
  rw [haddr, hp, show (0x7f0000000000 + k) / 4096 = 0x7f0000000 by omega, show (0x7f0000000000 + k) % 4096 = k by omega,
    show parentEntry 0x7f0000000 &&& ptePfnMask = 0x20000 by decide]
  unfold parentByte
  rw [Nat.add_sub_cancel_left]

/-- The only segment is mapped. -/
theorem mapEnclave_aligned {parsed : LoadEncl} (hsegments : parsed.segments = [pageSegment 0x1000])
    (hcontent : parsed.elfContent = aligned.file.bytes) : mapEnclave roomy parsed =
      .ok (0, { parsed with mappings := [some (segmentMapping aligned.file.bytes 0x7f0000000000 (pageSegment 0x1000))] }) := by
  have hcopy : Copyable aligned.file.bytes (pageSegment 0x1000) := .inr (by decide +kernel)
  have hsegment : mapSegment roomy aligned.file.bytes 0 (pageSegment 0x1000) =
      .ok (some (segmentMapping aligned.file.bytes 0x7f0000000000 (pageSegment 0x1000))) := by
    rcases mapSegment_cases roomy aligned.file.bytes 0 (pageSegment 0x1000) with ⟨-, -, ⟨addr, hmmap, heq⟩ | ⟨hnone, -⟩⟩ | ⟨hnot, -⟩
    · obtain rfl := Option.some.inj hmmap
      exact heq
    · cases hnone
    · exact absurd ⟨by decide, fun _ => hcopy⟩ hnot
  unfold mapEnclave
  rw [if_neg (by decide), if_neg (by decide), hsegments, hcontent, mapSegments, if_neg (by decide), hsegment]
  rfl

/-- What is asked for: the library, and the segment. -/
theorem requestsOf_aligned {parsed : LoadEncl} (hsegments : parsed.segments = [pageSegment 0x1000]) :
    requestsOf oneLoad ⟨0x70001000, 0x1000⟩
        { parsed with mappings := [some (segmentMapping aligned.file.bytes 0x7f0000000000 (pageSegment 0x1000))] } 0 =
      [libraryRegion 0 ⟨0x70001000, 0x1000⟩, ⟨0, 0x400000, 0x401000, 0x7f0000000000, teRead ||| teExec, confidential⟩] := by
  rw [requestsOf, hsegments]
  rfl

end Tyche.Loader
