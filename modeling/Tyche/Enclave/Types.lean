/-
The data of the enclave driver (`tyche_enclave.h`, `internal/enclave.h`):
physical ranges, regions of the enclave's address space, the messages of its
commands, and the checks on them.

Addresses are 64-bit words: sums that may wrap are taken modulo `2 ^ 64`.
Nodes of a list are its elements in order, less the links.
-/
import Mathlib.Algebra.Group.Nat.Defs
import Tyche.Capa.Types

namespace Tyche.Enclave

open Tyche.Capa (minTpe maxTpe capaRead capaWrite capaExec capaRevok)

/-- `PAGE`. -/
abbrev page : Nat := 0x1000

abbrev teRead : Nat := capaRead
abbrev teWrite : Nat := capaWrite
abbrev teExec : Nat := capaExec
abbrev teUser : Nat := capaRevok <<< 1

/-- The sum of two `uint64_t`. -/
def add64 (a b : Nat) : Nat := (a + b) % 2 ^ 64

/-- The difference of two `uint64_t`. -/
def sub64 (a b : Nat) : Nat := (a + 2 ^ 64 - b) % 2 ^ 64

/-- `pa_region_t`: a range of physical memory and the type it is given with. -/
structure PaRegion where
  start : Nat
  end_ : Nat
  tpe : Nat
deriving DecidableEq, Repr

/-- `region_t`. `pas` are the physical pages collected for it; they are
`dangling` once they were freed but left in the list. -/
structure Region where
  start : Nat
  end_ : Nat
  src : Nat
  flags : Nat
  tpe : Nat
  pas : List PaRegion := []
  dangling : Bool := false
deriving DecidableEq, Repr

/-- `tyche_encl_add_region_t`, less `extra`, which the driver does not read. -/
structure AddRegion where
  handle : Nat
  start : Nat
  end_ : Nat
  src : Nat
  flags : Nat
  tpe : Nat
deriving DecidableEq, Repr

/-- `overlap`: if one range ends where the other starts, they do not. -/
def overlap (s1 e1 s2 e2 : Nat) : Bool :=
  if s1 ≤ s2 ∧ s2 < e1 then true
  else if s2 ≤ s1 ∧ s1 < e2 then true
  else false

/-- `region_check`. -/
def regionCheck (region : AddRegion) : Bool :=
  if region.start % page ≠ 0 ∨ region.end_ % page ≠ 0 ∨ region.src % page ≠ 0 then false
  else if ¬ region.start < region.end_ then false
  else if region.flags = 0 then false
  else if region.flags &&& teExec ≠ 0 ∧ region.flags &&& teWrite ≠ 0 then false
  else if region.tpe > maxTpe ∨ region.tpe < minTpe then false
  else true

theorem regionCheck_iff {region : AddRegion} : regionCheck region = true ↔
    (region.start % page = 0 ∧ region.end_ % page = 0 ∧ region.src % page = 0) ∧ region.start < region.end_ ∧
      region.flags ≠ 0 ∧ ¬ (region.flags &&& teExec ≠ 0 ∧ region.flags &&& teWrite ≠ 0) ∧
      ¬ (region.tpe > maxTpe ∨ region.tpe < minTpe) := by
  unfold regionCheck
  split_ifs <;> simp only [false_iff, true_iff] <;> tauto

theorem regionCheck_lt {region : AddRegion} (h : regionCheck region = true) : region.start < region.end_ :=
  (regionCheck_iff.1 h).2.1

end Tyche.Enclave
