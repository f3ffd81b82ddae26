/-
The segments as regions of the enclave (`create_enclave`): a region starts at
the address of its segment, with the rights of its flags, and its source is
the mapping of the segment.

The driver takes whole pages only, but the address of a segment need not be
that of a page, even if it agrees with the offset up to the alignment.
-/
import Tyche.Enclave.Types
import Tyche.Loader.Map
import Mathlib.Data.Nat.Bitwise

namespace Tyche.Loader

open Tyche.Elf
open Tyche.Enclave (AddRegion regionCheck regionCheck_iff add64 page teRead teWrite teExec)
open Tyche.Capa (confidential minTpe maxTpe)

abbrev pfX : Nat := 1 <<< 0
abbrev pfW : Nat := 1 <<< 1
abbrev pfR : Nat := 1 <<< 2

/-- `translate_elf_flags`. -/
def translateElfFlags (flags : Nat) : Nat :=
  let result := 0
  let result := if flags &&& pfX ≠ 0 then result ||| teExec else result
  let result := if flags &&& pfW ≠ 0 then result ||| teWrite else result
  if flags &&& pfR ≠ 0 then result ||| teRead else result

/-- The region that `create_enclave` adds for a segment. -/
def segmentRegion (handle : Nat) (segment : Phdr) (mapping : Mapping) : AddRegion where
  handle := handle
  start := segment.pVaddr
  end_ := add64 segment.pVaddr mapping.size
  src := mapping.addr
  flags := translateElfFlags segment.pFlags
  tpe := confidential

/-- A `PT_LOAD` segment that is valid for the format, in a file. -/
structure ValidSegment (elf : List UInt8) (segment : Phdr) : Prop where
  align : ∃ n ≥ 12, segment.pAlign = 2 ^ n
  congruent : segment.pVaddr % segment.pAlign = segment.pOffset % segment.pAlign
  filesz : segment.pFilesz ≤ segment.pMemsz
  memsz : 0 < segment.pMemsz
  inFile : segment.pOffset + segment.pFilesz ≤ elf.length
  exclusive : ¬ (segment.pFlags &&& pfX ≠ 0 ∧ segment.pFlags &&& pfW ≠ 0)
  noOverflow : segment.pVaddr + (segment.pMemsz + padding segment) < 2 ^ 64

/-- The region passes the check of the driver, contains the memory of the
segment, and its source has the bytes of the file, and zeros behind them. -/
structure RegionCorrect (elf : List UInt8) (segment : Phdr) (region : AddRegion) (mapping : Mapping) : Prop where
  check : regionCheck region = true
  start : region.start ≤ segment.pVaddr
  end_ : segment.pVaddr + segment.pMemsz ≤ region.end_
  src : region.src = mapping.addr
  bytes : ∀ k < segment.pMemsz, segment.pVaddr + k - region.start < mapping.size ∧
    some (mapping.byte (segment.pVaddr + k - region.start)) =
      if k < segment.pFilesz then elf[segment.pOffset + k]? else some 0

/-! ## Flags -/

theorem translateElfFlags_ne_zero {flags : Nat} :
    translateElfFlags flags ≠ 0 ↔ flags &&& pfX ≠ 0 ∨ flags &&& pfW ≠ 0 ∨ flags &&& pfR ≠ 0 := by
  unfold translateElfFlags
  dsimp only
  by_cases hX : flags &&& pfX = 0 <;> by_cases hW : flags &&& pfW = 0 <;> by_cases hR : flags &&& pfR = 0 <;>
    simp only [ne_eq, hX, hW, hR, not_true_eq_false, not_false_eq_true, if_true, if_false] <;> decide

theorem translateElfFlags_exec {flags : Nat} : translateElfFlags flags &&& teExec ≠ 0 ↔ flags &&& pfX ≠ 0 := by
  unfold translateElfFlags
  dsimp only
  by_cases hX : flags &&& pfX = 0 <;> by_cases hW : flags &&& pfW = 0 <;> by_cases hR : flags &&& pfR = 0 <;>
    simp only [ne_eq, hX, hW, hR, not_true_eq_false, not_false_eq_true, if_true, if_false] <;> decide

theorem translateElfFlags_write {flags : Nat} : translateElfFlags flags &&& teWrite ≠ 0 ↔ flags &&& pfW ≠ 0 := by
  unfold translateElfFlags
  dsimp only
  by_cases hX : flags &&& pfX = 0 <;> by_cases hW : flags &&& pfW = 0 <;> by_cases hR : flags &&& pfR = 0 <;>
    simp only [ne_eq, hX, hW, hR, not_true_eq_false, not_false_eq_true, if_true, if_false] <;> decide

/-! ## Segments -/

section Valid

variable {elf : List UInt8} {segment : Phdr} (h : ValidSegment elf segment)
include h

/-- The size is rounded up to whole pages. -/
theorem ValidSegment.mappedSize_mod : mappedSize segment % page = 0 ∧ mappedSize segment = segment.pMemsz + padding segment := by
  have hsize : mappedSize segment = segment.pMemsz + padding segment := Nat.mod_eq_of_lt (by have := h.noOverflow; omega)
  refine ⟨?_, hsize⟩
  obtain ⟨n, hn, halign⟩ := h.align
  have hpage : page ∣ segment.pAlign := by
    rw [halign, show page = 2 ^ 12 from rfl]
    exact Nat.pow_dvd_pow 2 hn
  have hpos : 0 < segment.pAlign := by
    rw [halign]
    exact Nat.two_pow_pos n
  have hmultiple : segment.pAlign ∣ segment.pMemsz + padding segment := by
    have hlt : segment.pMemsz % segment.pAlign < segment.pAlign := Nat.mod_lt _ hpos
    have hdiv := Nat.div_add_mod segment.pMemsz segment.pAlign
    unfold padding
    dsimp only
    split
    next hmod =>
      refine ⟨segment.pMemsz / segment.pAlign + 1, ?_⟩
      rw [Nat.mul_succ]
      omega
    next hmod => exact Nat.dvd_of_mod_eq_zero (not_not.1 hmod)
  rw [hsize]
  exact Nat.mod_eq_zero_of_dvd (hpage.trans hmultiple)

/-- The bytes of the mapping are those of the segment. -/
theorem ValidSegment.byte_eq (addr : Nat) {k : Nat} :
    some ((segmentMapping elf addr segment).byte k) = if k < segment.pFilesz then elf[segment.pOffset + k]? else some 0 := by
  unfold segmentMapping
  dsimp only
  split
  next hk =>
    have hlt : segment.pOffset + k < elf.length := by have := h.inFile; omega
    rw [List.getD_eq_getElem?_getD, List.getElem?_eq_getElem hlt, Option.getD_some]
  next => rfl

/-- The region of a valid segment is correct if it starts at a page and has
a right. -/
theorem ValidSegment.regionCorrect {addr : Nat} (haddr : addr % 4096 = 0) (handle : Nat) :
    RegionCorrect elf segment (segmentRegion handle segment (segmentMapping elf addr segment)) (segmentMapping elf addr segment) ↔
      segment.pVaddr % page = 0 ∧
        (segment.pFlags &&& pfX ≠ 0 ∨ segment.pFlags &&& pfW ≠ 0 ∨ segment.pFlags &&& pfR ≠ 0) := by
  rw [← translateElfFlags_ne_zero]
  obtain ⟨hmod, hsize⟩ := h.mappedSize_mod
  have hend : add64 segment.pVaddr (mappedSize segment) = segment.pVaddr + mappedSize segment :=
    Nat.mod_eq_of_lt (by have := h.noOverflow; omega)
  constructor
  · intro hcorrect
    obtain ⟨⟨hstart, -, -⟩, -, hflags, -, -⟩ := regionCheck_iff.1 hcorrect.check
    exact ⟨hstart, hflags⟩
  · rintro ⟨hstart, hflags⟩
    have hmemsz := h.memsz
    refine ⟨regionCheck_iff.2 ⟨⟨hstart, ?_, haddr⟩, ?_, hflags, ?_, ?_⟩, le_refl _, ?_, rfl, fun k hk => ?_⟩
    · show add64 segment.pVaddr (mappedSize segment) % page = 0
      rw [hend, Nat.add_mod, hstart, hmod]
      rfl
    · show segment.pVaddr < add64 segment.pVaddr (mappedSize segment)
      omega
    · show ¬ (translateElfFlags segment.pFlags &&& teExec ≠ 0 ∧ translateElfFlags segment.pFlags &&& teWrite ≠ 0)
      rw [translateElfFlags_exec, translateElfFlags_write]
      exact h.exclusive
    · show ¬ (confidential > maxTpe ∨ confidential < minTpe)
      decide
    · show segment.pVaddr + segment.pMemsz ≤ add64 segment.pVaddr (mappedSize segment)
      omega
    · have hoff : segment.pVaddr + k - (segmentRegion handle segment (segmentMapping elf addr segment)).start = k :=
        Nat.add_sub_cancel_left ..
      rw [hoff]
      exact ⟨show k < mappedSize segment by omega, h.byte_eq addr⟩

end Valid

/-- **Segments become correct regions** exactly when they start at a page
and have a right. -/
theorem regions_correct {host : Host} {enclave mapped : LoadEncl}
    (hvalid : ∀ segment ∈ enclave.segments, segment.pType = ptLoad → ValidSegment enclave.elfContent segment)
    (hmap : mapEnclave host enclave = .ok (0, mapped)) (j : Nat) (segment : Phdr) (hj : enclave.segments[j]? = some segment)
    (hload : segment.pType = ptLoad) :
    ∃ mapping, mapped.mappings[j]? = some (some mapping) ∧ ∀ handle,
      (RegionCorrect enclave.elfContent segment (segmentRegion handle segment mapping) mapping ↔
        segment.pVaddr % page = 0 ∧
          (segment.pFlags &&& pfX ≠ 0 ∨ segment.pFlags &&& pfW ≠ 0 ∨ segment.pFlags &&& pfR ≠ 0)) := by
  obtain ⟨addr, hmmap, hmapping⟩ := mapEnclave_mapped hmap j segment hj hload
  have hsegment := hvalid segment (List.mem_of_getElem? hj) hload
  exact ⟨_, hmapping, hsegment.regionCorrect (host.aligned hmmap)⟩

/-- A segment of a page, `off` bytes behind the start of a page. -/
def shiftedSegment (off : Nat) : Phdr where
  pType := ptLoad
  pFlags := 5
  pOffset := off
  pVaddr := 0x400000 + off
  pFilesz := 16
  pMemsz := 0x1000
  pAlign := 0x1000

/-- An enclave with this segment. -/
def oneSegment (off : Nat) : LoadEncl := { LoadEncl.opened 3 aligned.file.bytes with segments := [shiftedSegment off] }

theorem oneSegment_length : aligned.file.bytes.length = 296 := by decide +kernel

theorem oneSegment_padding (off : Nat) : padding (shiftedSegment off) = 0 := by simp [padding, shiftedSegment]

theorem oneSegment_valid {off : Nat} (h : off < 0x100) : ∀ segment ∈ (oneSegment off).segments,
    segment.pType = ptLoad → ValidSegment (oneSegment off).elfContent segment := by
  intro segment hmem _
  obtain rfl := List.mem_singleton.1 hmem
  have hlength := oneSegment_length
  exact
    { align := ⟨12, le_refl _, rfl⟩
      congruent := show (0x400000 + off) % 0x1000 = off % 0x1000 by omega
      filesz := show 16 ≤ 0x1000 by decide
      memsz := show 0 < 0x1000 by decide
      inFile := show off + 16 ≤ aligned.file.bytes.length by omega
      exclusive := show ¬ (5 &&& pfX ≠ 0 ∧ 5 &&& pfW ≠ 0) by decide
      noOverflow := by
        rw [oneSegment_padding]
        show 0x400000 + off + 0x1000 < 2 ^ 64
        omega }

theorem oneSegment_mapped {off : Nat} (h : off < 0x100) : ∃ mapped, mapEnclave roomy (oneSegment off) = .ok (0, mapped) := by
  have hlength := oneSegment_length
  have hsize : mappedSize (shiftedSegment off) = 0x1000 := by
    rw [mappedSize, oneSegment_padding]
    rfl
  have hinside : MapsInside roomy aligned.file.bytes 0 [shiftedSegment off] := by
    have hload : ¬ (shiftedSegment off).pType ≠ ptLoad := not_not_intro rfl
    rw [MapsInside, if_neg hload]
    refine ⟨show 0x1000 ≠ 0 by decide, fun _ => ⟨.inr ⟨show off + 16 ≤ _ by omega, ?_⟩, trivial⟩⟩
    rw [hsize]
    show 16 ≤ 0x1000
    decide
  unfold mapEnclave
  rw [if_neg (by decide), if_neg (by decide)]
  rcases mapSegments_cases roomy aligned.file.bytes [shiftedSegment off] 0 with
    ⟨-, ⟨mappings, heq, -⟩ | ⟨-, hnot⟩⟩ | ⟨hnot, -⟩
  · have heq : mapSegments roomy (oneSegment off).elfContent 0 (oneSegment off).segments = .ok (some mappings) := heq
    rw [heq]
    exact ⟨_, rfl⟩
  · refine absurd (fun j segment hj hload hnone => ?_) hnot
    cases hnone
  · exact absurd hinside hnot

theorem regions_correct_page : ∃ mapped mapping, mapEnclave roomy (oneSegment 0) = .ok (0, mapped) ∧
    mapped.mappings[0]? = some (some mapping) ∧
    RegionCorrect (oneSegment 0).elfContent (shiftedSegment 0) (segmentRegion 0 (shiftedSegment 0) mapping) mapping := by
  obtain ⟨mapped, hmap⟩ := oneSegment_mapped (show 0 < 0x100 by decide)
  obtain ⟨mapping, hmapping, hcorrect⟩ :=
    regions_correct (oneSegment_valid (by decide)) hmap 0 (shiftedSegment 0) rfl rfl
  exact ⟨mapped, mapping, hmap, hmapping, (hcorrect 0).2 ⟨rfl, .inl (by decide)⟩⟩

/-- A segment `0x10` bytes behind the start of a page is valid, and its
region is refused. -/
theorem shifted_region_refused : ∃ mapped mapping,
    (∀ segment ∈ (oneSegment 0x10).segments, segment.pType = ptLoad →
      ValidSegment (oneSegment 0x10).elfContent segment) ∧
    mapEnclave roomy (oneSegment 0x10) = .ok (0, mapped) ∧ mapped.mappings[0]? = some (some mapping) ∧
    regionCheck (segmentRegion 0 (shiftedSegment 0x10) mapping) = false ∧
    ¬ RegionCorrect (oneSegment 0x10).elfContent (shiftedSegment 0x10) (segmentRegion 0 (shiftedSegment 0x10) mapping) mapping := by
  obtain ⟨mapped, hmap⟩ := oneSegment_mapped (show 0x10 < 0x100 by decide)
  obtain ⟨addr, -, hmapping⟩ := mapEnclave_mapped hmap 0 (shiftedSegment 0x10) rfl rfl
  have hrefused : regionCheck (segmentRegion 0 (shiftedSegment 0x10)
      (segmentMapping (oneSegment 0x10).elfContent addr (shiftedSegment 0x10))) = false := by
    unfold regionCheck
    exact if_pos (.inl (show (0x400000 + 0x10) % page ≠ 0 by decide))
  refine ⟨mapped, _, oneSegment_valid (by decide), hmap, hmapping, hrefused, fun h => ?_⟩
  rw [h.check] at hrefused
  cases hrefused

end Tyche.Loader
