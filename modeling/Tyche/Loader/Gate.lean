/-
What an enclave has in common with its loader: the library and the extra
regions are at the addresses that were asked for, in the frames of the
loader. So the gate of the library is the same code on both sides.
-/
import Tyche.Loader.Plugin
import Tyche.Loader.Running

namespace Tyche.Loader

open Tyche.Elf Tyche.Pts
open Tyche.Enclave (AddRegion Driver Encl Event Run Walks Supplied Shortage TablesAllocated Commits HandsOutFrames TransferredAs
  FindsPage permissionMask ptePfnMask page add64 teRead teExec teUser)
open Tyche.Capa (shared confidential)

/-- `library_plugin`, as a load reads it. -/
def LibEncl.library (lib : LibEncl) : Library := ⟨lib.plugin, lib.size⟩

/-- The memory of the plugin. -/
def LibEncl.mapping (lib : LibEncl) : Mapping := ⟨lib.plugin, lib.size, lib.byte⟩

/-- The processor finds the byte of the plugin at its address; it may execute it,
also as a user, and may not write it. The frame is shared with the domain. -/
structure FindsPlugin (mem : Nat → Nat → Nat) (phys : Nat → UInt8) (e : Encl) (events : List Event) (lib : LibEncl) (k w : Nat) :
    Prop where
  walk : pageWalk mem ptPML4 e.cr3 (lib.plugin + k) = some (ptPTE, w)
  byte : phys ((w &&& ptPhysPageMask) + (lib.plugin + k) % page) = lib.byte k
  permissions : w &&& permissionMask = ptPP ||| ptUSR
  given : TransferredAs events e.tycheHandle (w &&& ptPhysPageMask) shared

/-- **The enclave shares** the library and the extra regions with its loader. -/
structure Shares (mem : Nat → Nat → Nat) (phys : Nat → UInt8) (e : Encl) (events : List Event) (pte : Nat → Nat)
    (extras : List AddRegion) (lib : LibEncl) : Prop where
  plugin : ∀ k < lib.size, ∃ w, FindsPlugin mem phys e events lib k w
  extras : ∀ extra ∈ extras, ∀ va, extra.Covers va → ∃ w,
    FindsPage mem e events pte va (extra.src + (va - extra.start)) extra.flags extra.tpe w

/-- **The enclave has the code** of the file of the library: each byte of the text
section is in it, and at the gate is the byte of its symbol, if that is one of the segment. -/
structure HasCode (mem : Nat → Nat → Nat) (phys : Nat → UInt8) (e : Encl) (events : List Event) (file : Env) (lib : LibEncl)
    (text : Shdr) (textSeg : Phdr) (gate : Sym) : Prop where
  text : text.shOffset + text.shSize < 2 ^ 64 → ∀ k < text.shSize, ∃ w,
    FindsPlugin mem phys e events lib (text.shOffset - textSeg.pOffset + k) w ∧
      file.file.bytes[text.shOffset + k]? = some (lib.byte (text.shOffset - textSeg.pOffset + k))
  gate : textSeg.pVaddr ≤ gate.stValue → gate.stValue < textSeg.pVaddr + textSeg.pFilesz → ∃ k w, lib.plugin + k = lib.vmcallGate ∧
    FindsPlugin mem phys e events lib k w ∧
      file.file.bytes[textSeg.pOffset + (gate.stValue - textSeg.pVaddr)]? = some (lib.byte k)

section Shares

variable {mem : Nat → Nat → Nat} {phys : Nat → UInt8} {e : Encl} {events : List Event} {pte : Nat → Nat} {load : Load} {lib : LibEncl}
  {encl : LoadEncl} {handle : Nat}

/-- The plugin ends where its region does. -/
theorem libraryRegion_end (hsize : lib.size < 2 ^ 64) (huser : (libraryRegion handle lib.library).UserSpace)
    (h : Enclave.regionCheck (libraryRegion handle lib.library) = true) : lib.plugin + lib.size < 2 ^ 64 := by
  have hlt : lib.plugin < add64 lib.plugin lib.size := Enclave.regionCheck_lt h
  have hlow : lib.plugin + (add64 lib.plugin lib.size - lib.plugin) ≤ 2 ^ 47 := huser.2
  unfold add64 at hlt hlow
  omega

/-- An enclave that finds what a load asks for shares it. -/
theorem FindsRequests.shares (h : FindsRequests mem e events pte (requestsOf load lib.library encl handle))
    (hsize : lib.size < 2 ^ 64)
    (huser : (libraryRegion handle lib.library).UserSpace) (hholds : Holds pte phys lib.mapping) :
    Shares mem phys e events pte load.extras lib := by
  refine ⟨fun k hk => ?_, fun extra hextra va hva => ?_⟩
  · have hmem : libraryRegion handle lib.library ∈ requestsOf load lib.library encl handle := mem_requestsOf_library
    have hend := libraryRegion_end hsize huser (h.checked _ hmem)
    have hcovers : (libraryRegion handle lib.library).Covers (lib.plugin + k) := by
      refine ⟨Nat.le_add_right .., ?_⟩
      show lib.plugin + k < add64 lib.plugin lib.size
      unfold add64
      omega
    obtain ⟨w, hpage⟩ := h.found _ hmem _ hcovers
    have hsrc : (libraryRegion handle lib.library).src + (lib.plugin + k - (libraryRegion handle lib.library).start) = lib.plugin + k :=
      congrArg (lib.plugin + ·) (Nat.add_sub_cancel_left ..)
    rw [hsrc] at hpage
    have hflags : Enclave.translateFlags (teRead ||| teExec ||| teUser) = ptPP ||| ptUSR := by decide
    exact ⟨w, hpage.walk, by rw [hpage.frame]; exact hholds k hk, hpage.permissions.trans hflags, hpage.given⟩
  · exact h.found _ (mem_requestsOf_extra hextra) va hva

theorem Shares.hasCode {file : Env} {extras : List AddRegion} {text : Shdr} {textSeg : Phdr} {gate : Sym}
    (h : Shares mem phys e events pte extras lib) (hserves : Serves file lib text textSeg gate) (hend : lib.plugin + lib.size ≤ 2 ^ 64) :
    HasCode mem phys e events file lib text textSeg gate := by
  refine ⟨fun hlt k hk => ?_, fun hle hlt => ?_⟩
  · obtain ⟨hin, hbyte⟩ := hserves.code hlt k hk
    obtain ⟨w, hfinds⟩ := h.plugin _ hin
    exact ⟨w, hfinds, hbyte⟩
  · obtain ⟨hstart, hgate, hbyte⟩ := hserves.entry hle hlt hend
    obtain ⟨w, hfinds⟩ := h.plugin (lib.vmcallGate - lib.plugin) (by omega)
    exact ⟨lib.vmcallGate - lib.plugin, w, by omega, hfinds, hbyte⟩

/-- A library that was read serves its file. -/
theorem initCalls_serves {calls : List InitCall} (hseek : ∀ call ∈ calls, ∀ env, call.file = some env → Seekable env)
    {results : List (Option LibEncl)} (h : initCalls calls none = .ok (results, some lib)) :
    ∃ call ∈ calls, ∃ file, call.file = some file ∧ ∃ text textSeg gate, Serves file lib text textSeg gate := by
  induction calls generalizing results with
  | nil => cases h
  | cons call calls ih =>
    obtain ⟨hfirst, hrest⟩ := List.forall_mem_cons.1 hseek
    rw [initCalls] at h
    rcases hcall : initEnclaveLoader call none with reason | ⟨result, libraryPlugin⟩
    · rw [hcall] at h
      cases h
    rw [hcall] at h
    dsimp only at h
    obtain ⟨rfl, hserves⟩ := initEnclaveLoader_none hfirst hcall
    cases result with
    | some first =>
      rw [initCalls_some] at h
      cases h
      obtain ⟨file, hfile, hserves⟩ := hserves lib rfl
      exact ⟨call, List.mem_cons_self .., file, hfile, hserves⟩
    | none =>
      rcases hcalls : initCalls calls none with reason | ⟨results', final⟩
      · rw [hcalls] at h
        cases h
      rw [hcalls] at h
      cases h
      obtain ⟨call', hmem, hserves⟩ := ih hrest hcalls
      exact ⟨call', List.mem_cons_of_mem _ hmem, hserves⟩

end Shares

end Tyche.Loader
