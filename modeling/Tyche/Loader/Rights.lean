/-
What a loaded enclave may do at its addresses. The processor grants a right
to a page if the entries of all four levels do: it grants the ones that were
asked for, and never both to write and to execute.
-/
import Tyche.Loader.Running

namespace Tyche.Loader

open Tyche.Elf Tyche.Pts
open Tyche.Enclave (AddRegion Driver Encl Event Run Walks Supplied Shortage TablesAllocated Commits HandsOutFrames FindsPage
  permissionMask ptePfnMask page translateFlags teRead teWrite teExec teUser)

/-- The rights that flags ask for. -/
def askedRights (flags : Nat) : Rights :=
  ⟨decide (flags &&& teWrite ≠ 0), decide (flags &&& teExec ≠ 0), decide (flags &&& teUser ≠ 0)⟩

theorem translateFlags_user_iff {flags : Nat} : translateFlags flags &&& ptUSR ≠ 0 ↔ flags &&& teUser ≠ 0 := by
  have hbit : flags &&& teUser = teUser ∨ flags &&& teUser = 0 := by
    rw [show teUser = 2 ^ 4 from rfl, Nat.and_two_pow]
    cases flags.testBit 4 <;> decide
  unfold translateFlags
  rcases hbit with hbit | hbit
  · rw [hbit, if_pos (show teUser = teUser from rfl)]
    split_ifs <;> decide
  · rw [hbit, if_neg (show ¬ 0 = teUser by decide)]
    split_ifs <;> decide

/-- The rights of an entry with the permissions of the flags. -/
theorem entryRights_of_permissions {w flags : Nat} (h : w &&& permissionMask = translateFlags flags) :
    entryRights w = askedRights flags := by
  rw [← entryRights_and (m := permissionMask) (by decide) (by decide) (by decide) w, h]
  unfold entryRights askedRights
  congr 1
  · exact decide_eq_decide.2 translateFlags_write_iff
  · exact decide_eq_decide.2 translateFlags_exec_iff
  · exact decide_eq_decide.2 translateFlags_user_iff

/-- **The enclave may do what was asked for**: at the addresses of a request, with
the frames of its source, and nothing at any other address. -/
structure MayUse (mem : Nat → Nat → Nat) (e : Encl) (pte : Nat → Nat) (requests : List AddRegion) : Prop where
  asked : ∀ req ∈ requests, ∀ va, req.Covers va → ∃ w, accessWalk mem ptPML4 e.cr3 va = some (ptPTE, w, askedRights req.flags) ∧
    w &&& ptPhysPageMask = pte ((req.src + (va - req.start)) / page) &&& ptePfnMask
  exclusive : ∀ va < 2 ^ 48, ∀ l w r, accessWalk mem ptPML4 e.cr3 va = some (l, w, r) → ¬ (r.write = true ∧ r.exec = true)
  outside : ∀ va < 2 ^ 48, (∀ req ∈ requests, ¬ req.Covers va) → accessWalk mem ptPML4 e.cr3 va = none

/-- A page that is found may be used as asked, if the levels above grant everything. -/
theorem accessWalk_of_findsPage {mem : Nat → Nat → Nat} {e : Encl} {events : List Event} {pte : Nat → Nat} {va src flags tpe w : Nat}
    (hgrants : ∀ va, accessWalk mem ptPML4 e.cr3 va = (pageWalk mem ptPML4 e.cr3 va).map fun r => (r.1, r.2, entryRights r.2))
    (h : FindsPage mem e events pte va src flags tpe w) :
    accessWalk mem ptPML4 e.cr3 va = some (ptPTE, w, askedRights flags) := by
  rw [hgrants, h.walk, Option.map_some, entryRights_of_permissions h.permissions]

theorem FindsRequests.mayUse {mem : Nat → Nat → Nat} {e : Encl} {events : List Event} {pte : Nat → Nat} {requests : List AddRegion}
    (h : FindsRequests mem e events pte requests)
    (hgrants : ∀ va, accessWalk mem ptPML4 e.cr3 va = (pageWalk mem ptPML4 e.cr3 va).map fun r => (r.1, r.2, entryRights r.2)) :
    MayUse mem e pte requests := by
  refine ⟨fun req hreq va hva => ?_, fun va hva l w r hwalk => ?_, fun va hva hnone => ?_⟩
  · obtain ⟨w, hpage⟩ := h.found req hreq va hva
    exact ⟨w, accessWalk_of_findsPage hgrants hpage, hpage.frame⟩
  · -- Something is found only where a request is, and its flags were checked.
    by_cases hcovered : ∃ req ∈ requests, req.Covers va
    · obtain ⟨req, hreq, hcovers⟩ := hcovered
      obtain ⟨w', hpage⟩ := h.found req hreq va hcovers
      rw [accessWalk_of_findsPage hgrants hpage] at hwalk
      cases hwalk
      rintro ⟨hwrite, hexec⟩
      exact (Enclave.regionCheck_iff.1 (h.checked req hreq)).2.2.2.1 ⟨of_decide_eq_true hexec, of_decide_eq_true hwrite⟩
    · rw [hgrants, h.outside va hva fun req hreq hcovers => hcovered ⟨req, hreq, hcovers⟩] at hwalk
      cases hwalk
  · rw [hgrants, h.outside va hva hnone]
    rfl

end Tyche.Loader
