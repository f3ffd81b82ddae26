/-
The page tables of x86-64 (`x86_64_pt.h`, `x86_64_pt.c`): four levels of 512
entries, and the profile that walks them.

An entry of a table at level `l` stands for `span l` bytes of addresses, so
an address `a` is in slot `a / span l` of its level, which is entry
`a / span l % 512` of the table.
-/
import Tyche.Lib.Bits
import Tyche.Pts.Walk

namespace Tyche.Pts

open Tyche.Bits

/-- `x86_64_LEVELS`. -/
abbrev x86_64Levels : Nat := 4

abbrev ptPageWidth : Nat := 12
abbrev ptPageSize : Nat := 1 <<< ptPageWidth
abbrev ptPageAlign : Nat := ptPageSize - 1

abbrev ptPhysWidth : Nat := 52
abbrev ptPhysMask : Nat := (1 <<< ptPhysWidth) - 1
abbrev ptPhysPageMask : Nat := ptPhysMask - ptPageAlign

abbrev ptPTE : Nat := 0
abbrev ptPMD : Nat := 1
abbrev ptPGD : Nat := 2
abbrev ptPML4 : Nat := 3

abbrev ptNbEntries : Nat := 512
abbrev ptEntryMask : Nat := 511
abbrev ptEntryBitSize : Nat := 9

abbrev ptPTEShift : Nat := 12
abbrev ptPMDShift : Nat := ptPTEShift + ptEntryBitSize
abbrev ptPGDShift : Nat := ptPMDShift + ptEntryBitSize
abbrev ptPML4Shift : Nat := ptPGDShift + ptEntryBitSize

abbrev ptPTEPageMask : Nat := ptEntryMask <<< ptPTEShift
abbrev ptPMDPageMask : Nat := ptEntryMask <<< ptPMDShift
abbrev ptPGDPageMask : Nat := ptEntryMask <<< ptPGDShift
abbrev ptPML4PageMask : Nat := ptEntryMask <<< ptPML4Shift

abbrev ptPMDPageSize : Nat := 1 <<< ptPMDShift
abbrev ptPGDPageSize : Nat := 1 <<< ptPGDShift

/-- `PT_PP`: the entry is present. -/
abbrev ptPP : Nat := 1 <<< 0
abbrev ptRW : Nat := 1 <<< 1
abbrev ptUSR : Nat := 1 <<< 2
abbrev ptACC : Nat := 1 <<< 5
abbrev ptDIRT : Nat := 1 <<< 6
/-- `PT_PAGE_PSE`: the entry maps a huge page. -/
abbrev ptPSE : Nat := 1 <<< 7
abbrev ptNX : Nat := 1 <<< 63

variable {ε : Type}

/-- `x86_64_how_visit_leaves`. -/
def x86_64HowVisitLeaves : Callback ε := fun table i level m =>
  let entry := m.mem table i
  if entry &&& ptPP ≠ ptPP then (.ret .skip, m)
  else if level = ptPTE ∨ ((level = ptPGD ∨ level = ptPMD) ∧ entry &&& ptPSE = ptPSE) then (.ret .visit, m)
  else (.ret .walk, m)

/-- `x86_64_how_map`. -/
def x86_64HowMap : Callback ε := fun table i _ m =>
  if m.mem table i &&& ptPP ≠ ptPP then (.ret .map, m) else (.ret .walk, m)

/-- `x86_64_next`. -/
def x86_64Next (entry _level : Nat) : Nat := entry &&& ptPhysPageMask

/-- `x86_64_profile`. -/
def x86_64Profile : Profile ε where
  nbLevels := x86_64Levels
  nbEntries := ptNbEntries
  visitors _ := none
  mappers _ := none
  masks level := [ptPTEPageMask, ptPMDPageMask, ptPGDPageMask, ptPML4PageMask].getD level 0
  shifts level := [ptPTEShift, ptPMDShift, ptPGDShift, ptPML4Shift].getD level 0
  how := x86_64HowVisitLeaves
  next := x86_64Next

/-! ## The geometry -/

/-- The bytes of addresses an entry of the level stands for. -/
abbrev span (level : Nat) : Nat := 2 ^ (12 + 9 * level)

theorem span_succ (level : Nat) : span (level + 1) = span level * 512 := by
  show 2 ^ (12 + 9 * level + 9) = 2 ^ (12 + 9 * level) * 2 ^ 9
  rw [pow_add]

theorem span_eq (level : Nat) : span level = 4096 * 512 ^ level := by
  induction level with
  | zero => rfl
  | succ level ih => rw [span_succ, ih, pow_succ, Nat.mul_assoc]

/-- The profile walks the tables of x86-64. -/
structure Profile.Geometry (p : Profile ε) : Prop where
  nbLevels : p.nbLevels = 4
  nbEntries : p.nbEntries = 512
  masks : ∀ level < 4, p.masks level = mask 9 (12 + 9 * level)
  shifts : ∀ level < 4, p.shifts level = 12 + 9 * level

theorem x86_64Profile_geometry : (x86_64Profile : Profile ε).Geometry where
  nbLevels := rfl
  nbEntries := rfl
  masks level h := by
    match level, h with
    | 0, _ | 1, _ | 2, _ | 3, _ => rfl
  shifts level h := by
    match level, h with
    | 0, _ | 1, _ | 2, _ | 3, _ => rfl

section Geometry

variable {p : Profile ε} (h : p.Geometry)
include h

theorem Profile.Geometry.getIndex {level : Nat} (hlevel : level < 4) (addr : Nat) :
    p.getIndex addr level = addr / span level % 512 := by
  have hlt : addr / span level % 512 < 2 ^ 32 := by omega
  have hindex : (addr &&& mask 9 (12 + 9 * level)) >>> (12 + 9 * level) = addr / span level % 512 := and_mask_shiftRight ..
  rw [Profile.getIndex, h.masks level hlevel, h.shifts level hlevel, hindex, Nat.mod_eq_of_lt hlt]

/-- The entry the walk starts at stands for the start, and the others for
the first address of their slot. -/
theorem Profile.Geometry.entryVa {level start i : Nat} (hlevel : level < 4) (hstart : start < 2 ^ 64) (hi : i < 512) :
    p.entryVa level start i =
      if i = start / span level % 512 then start else span level * (512 * (start / span (level + 1)) + i) := by
  have hspan : span (level + 1) = 2 ^ (12 + 9 * level + 9) := rfl
  have hspan' : span level * 512 = span (level + 1) := (span_succ level).symm
  have hw : 12 + 9 * level + 9 ≤ 64 := by omega
  have hquot : start / span (level + 1) = start / span level / 512 := by
    rw [Nat.div_div_eq_div_mul, hspan']
  -- The slot starts below `2 ^ 64`.
  have hslot : span level * (512 * (start / span (level + 1)) + i) < 2 ^ 64 := by
    have hq : start / span (level + 1) < 2 ^ (64 - (12 + 9 * level + 9)) := by
      rw [hspan, Nat.div_lt_iff_lt_mul (Nat.two_pow_pos _), ← pow_add, Nat.sub_add_cancel hw]
      exact hstart
    calc span level * (512 * (start / span (level + 1)) + i)
        < span level * (512 * (start / span (level + 1) + 1)) := by
          apply Nat.mul_lt_mul_of_pos_left _ (Nat.two_pow_pos _)
          omega
      _ ≤ span level * (512 * 2 ^ (64 - (12 + 9 * level + 9))) :=
          Nat.mul_le_mul_left _ (Nat.mul_le_mul_left _ hq)
      _ = 2 ^ 64 := by rw [← Nat.mul_assoc, hspan', hspan, ← pow_add, Nat.add_sub_cancel' hw]
  have hshift : i <<< (12 + 9 * level) < 2 ^ 64 := by
    rw [Nat.shiftLeft_eq, Nat.mul_comm]
    refine Nat.lt_of_le_of_lt (Nat.mul_le_mul_left _ ?_) hslot
    omega
  have hva : (start &&& (2 ^ 64 - 1 - mask 9 (12 + 9 * level))) ||| i <<< (12 + 9 * level) =
      span level * (512 * (start / span (level + 1)) + i) + start % span level := set_field hstart hi hw
  rw [Profile.entryVa, h.getIndex hlevel, h.masks level hlevel, h.shifts level hlevel, Nat.mod_eq_of_lt hshift, hva]
  by_cases hidx : i = start / span level % 512
  · have hsplit : 512 * (start / span (level + 1)) + i = start / span level := by
      rw [hquot, hidx]
      omega
    simp [← hidx, hsplit, Nat.div_add_mod]
  · have hdiv : (span level * (512 * (start / span (level + 1)) + i) + start % span level) / span level =
        512 * (start / span (level + 1)) + i := by
      rw [Nat.mul_add_div (Nat.two_pow_pos _), Nat.div_eq_of_lt (Nat.mod_lt _ (Nat.two_pow_pos _)), Nat.add_zero]
    simp only [ne_eq, hidx, not_false_eq_true, if_true, if_false]
    rw [shiftRight_shiftLeft, hdiv, Nat.mod_eq_of_lt hslot]

end Geometry

/-- The leaf slot of an address: the index in the table of each level. -/
def Profile.leafSlot (p : Profile ε) (va : Nat) : List Nat := (List.range p.nbLevels).map (p.getIndex va)

/-! ## Pages -/

/-- The page a walk of a table from `start` has reached at entry `i`. -/
def pageAt (level start i : Nat) : Nat :=
  if i = start / span level % 512 then start / ptPageSize else (512 * (start / span (level + 1)) + i) * 512 ^ level

theorem span_div (level a : Nat) : a / span level = a / ptPageSize / 512 ^ level := by
  rw [span_eq, Nat.div_div_eq_div_mul]
  rfl

/-- Pages have the same leaf slot when they agree below `2 ^ 36`. -/
theorem Profile.Geometry.leafSlot_eq_iff {p : Profile ε} (h : p.Geometry) {a b : Nat} :
    p.leafSlot a = p.leafSlot b ↔ a / ptPageSize % 512 ^ 4 = b / ptPageSize % 512 ^ 4 := by
  have hslot : ∀ va, p.leafSlot va = [va / ptPageSize % 512, va / ptPageSize / 512 % 512,
      va / ptPageSize / 512 ^ 2 % 512, va / ptPageSize / 512 ^ 3 % 512] := by
    intro va
    have hrange : List.range 4 = [0, 1, 2, 3] := rfl
    rw [Profile.leafSlot, h.nbLevels, hrange, List.map_cons, List.map_cons, List.map_cons, List.map_cons, List.map_nil,
      h.getIndex (by decide), h.getIndex (by decide), h.getIndex (by decide), h.getIndex (by decide), span_div, span_div,
      span_div, span_div, pow_zero, pow_one, Nat.div_one]
  rw [hslot, hslot]
  simp only [List.cons.injEq, and_true]
  omega

theorem pageAt_start (level start : Nat) : pageAt level start (start / span level % 512) = start / ptPageSize := if_pos rfl

theorem pageAt_succ {level start i : Nat} (hi : start / span level % 512 ≤ i) :
    pageAt level start (i + 1) = (512 * (start / span (level + 1)) + i + 1) * 512 ^ level :=
  if_neg (Nat.ne_of_gt (Nat.lt_succ_of_le hi))

/-- Entry `i` is the page's slot of its level. -/
theorem pageAt_div (level start i : Nat) :
    pageAt level start i / 512 ^ level = 512 * (start / span (level + 1)) + i := by
  unfold pageAt
  split
  next hidx =>
    rw [← span_div, hidx, span_succ, ← Nat.div_div_eq_div_mul]
    omega
  next => rw [Nat.mul_div_cancel _ (Nat.pow_pos (by decide))]

theorem pageAt_lt {level start i : Nat} (hi : i < 512) :
    pageAt level start i < (start / span (level + 1) + 1) * 512 ^ (level + 1) := by
  have hpos : 0 < 512 ^ level := Nat.pow_pos (by decide)
  have hlt : pageAt level start i < (512 * (start / span (level + 1)) + 512) * 512 ^ level := by
    rw [← Nat.div_lt_iff_lt_mul hpos, pageAt_div]
    omega
  rwa [pow_succ', ← Nat.mul_assoc, Nat.add_mul, Nat.one_mul, Nat.mul_comm _ 512]

theorem le_pageAt {level start i : Nat} (hi : start / span level % 512 ≤ i) : start / ptPageSize ≤ pageAt level start i := by
  unfold pageAt
  split
  · exact Nat.le_refl _
  next hne =>
    -- Past the first entry, the slot is a later one.
    have hpos : 0 < 512 ^ level := Nat.pow_pos (by decide)
    have hslot : start / span level < 512 * (start / span (level + 1)) + i := by
      rw [span_succ, ← Nat.div_div_eq_div_mul]
      omega
    rw [span_div, Nat.div_lt_iff_lt_mul hpos] at hslot
    exact Nat.le_of_lt hslot

theorem Profile.Geometry.entryVa_page {p : Profile ε} (h : p.Geometry) {level start i : Nat} (hlevel : level < 4)
    (hstart : start < 2 ^ 64) (hi : i < 512) : p.entryVa level start i / ptPageSize = pageAt level start i := by
  rw [h.entryVa hlevel hstart hi]
  unfold pageAt
  split
  · rfl
  · have hp : ptPageSize = 4096 := rfl
    rw [span_eq, Nat.mul_assoc, hp, Nat.mul_div_cancel_left _ (by decide), Nat.mul_comm]

end Tyche.Pts
