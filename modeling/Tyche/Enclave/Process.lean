/-
The physical pages of a region (`internal/process.c`): Linux walks the
parent's memory, and the callbacks collect the pages it finds.

A pointer to freed records is followed without a check: that ends a call
with `freed`.
-/
import Tyche.Enclave.Kernel
import Tyche.Pts.X86

namespace Tyche.Enclave

open Tyche.Pts (Outcome ptPhysPageMask)

/-- `_PAGE_VALID`: `_PAGE_PRESENT` and `_PAGE_USER`. -/
abbrev pageValid : Nat := 0x1 ||| 0x4

/-- `PTE_PFN_MASK`. -/
abbrev ptePfnMask : Nat := ptPhysPageMask

/-- The list of the region's pages was freed, and is not empty. -/
def Region.stale (region : Region) : Bool := region.dangling && !region.pas.isEmpty

/-- `add_pa_to_region`. -/
def addPaToRegion (region : Region) (pa : PaRegion) : Outcome Int × Region :=
  if region.stale then (.freed, region)
  else if region.pas.any fun curr => overlap curr.start curr.end_ pa.start pa.end_ then (.ret (-1), region)
  else (.ret 0, { region with pas := region.pas ++ [pa] })

/-- `pte_entry`. -/
def pteEntry (env : Env) (addr pte : Nat) (region : Region) (log : List Event) : Outcome Int × Region × List Event :=
  if region.src > addr ∨ add64 region.src (sub64 region.end_ region.start) < addr then (.ret (-1), region, log)
  else if pte &&& pageValid ≠ pageValid then (.ret (-1), region, log)
  else
    let physAddr := pte &&& ptePfnMask
    let ok := env.kmalloc log
    let log := .kmalloc ok :: log
    if ok = false then (.ret (-1), region, log)
    else
      match addPaToRegion region ⟨physAddr, physAddr + page, region.tpe⟩ with
      | (.ret 0, region) => (.ret 0, region, .collect physAddr :: log)
      | (out, region) => (out, region, log)

/-- The callbacks of `walk_page_range`, until one does not return 0. -/
def runReports (env : Env) : List Report → Region → List Event → Outcome Int × Region × List Event
  | [], region, log => (.ret 0, region, log)
  | .pteEntry addr pte :: reports, region, log =>
    match pteEntry env addr pte region log with
    | (.ret 0, region, log) => runReports env reports region log
    | r => r
  | .hugetlbEntry :: reports, region, log => runReports env reports region log
  | .pteHole :: _, region, log => (.ret (-1), region, log)

/-- `walk_and_collect_region`: the callbacks that return -1 clear `success`. -/
def walkAndCollectRegion (env : Env) (region : Region) (log : List Event) : Outcome Int × Region × List Event :=
  let end_ := add64 region.src (sub64 region.end_ region.start)
  match runReports env (env.walkPageRange log region.src end_) region log with
  | (.ret ret, region, log) => (.ret (if ret = 0 then 0 else 1), region, log)
  | r => r

end Tyche.Enclave
