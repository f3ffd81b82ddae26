/-
The segments of an enclave in the memory of the loader (`map_enclave`): for
each `PT_LOAD` segment a mapping, of its size rounded up to its alignment,
and a copy of its bytes of the file.

Nothing of a segment is checked: the alignment may be 0, the rounded size
wraps, and the copy is as long as the segment says.
-/
import Tyche.Loader.Parse

namespace Tyche.Loader

open Tyche.Bytes Tyche.Elf

/-- The memory of the loader: whether the two arrays are allocated, and the
address that `mmap` gives the `i`-th segment, of so many bytes. -/
structure Host where
  mappingsAllocated : Bool
  sizesAllocated : Bool
  mmap : (i size : Nat) → Option Nat
  aligned : ∀ {i size addr}, mmap i size = some addr → addr % 4096 = 0

/-- What is missing from the size of a segment to a multiple of its alignment. -/
def padding (segment : Phdr) : Nat :=
  let modulo := segment.pMemsz % segment.pAlign
  if modulo ≠ 0 then segment.pAlign - modulo else 0

/-- The size that is mapped for a segment. -/
def mappedSize (segment : Phdr) : Nat := (segment.pMemsz + padding segment) % 2 ^ 64

/-- The mapping of a segment, once its bytes are copied. -/
def segmentMapping (elf : List UInt8) (addr : Nat) (segment : Phdr) : Mapping where
  addr := addr
  size := mappedSize segment
  byte k := if k < segment.pFilesz then elf.getD (segment.pOffset + k) 0 else 0

/-- A `PT_LOAD` segment in the loop of `map_enclave`: the result is none
when `mmap` fails. -/
def mapSegment (host : Host) (elf : List UInt8) (i : Nat) (segment : Phdr) : Except Stop (Option Mapping) :=
  if segment.pAlign = 0 then .error .divide
  else
    match host.mmap i (mappedSize segment) with
    | none => .ok none
    | some addr =>
      -- Each byte is read from the file and written to the mapping.
      if ∀ k < segment.pFilesz, segment.pOffset + k < elf.length ∧ k < mappedSize segment then
        .ok (some (segmentMapping elf addr segment))
      else .error .outside

/-- The loop of `map_enclave`, from segment `i` on. -/
def mapSegments (host : Host) (elf : List UInt8) : Nat → List Phdr → Except Stop (Option (List (Option Mapping)))
  | _, [] => .ok (some [])
  | i, segment :: rest =>
    if segment.pType ≠ ptLoad then
      match mapSegments host elf (i + 1) rest with
      | .ok (some mappings) => .ok (some (none :: mappings))
      | r => r
    else
      match mapSegment host elf i segment with
      | .error stop => .error stop
      | .ok none => .ok none
      | .ok (some mapping) =>
        match mapSegments host elf (i + 1) rest with
        | .ok (some mappings) => .ok (some (some mapping :: mappings))
        | r => r

/-- `map_enclave`. -/
def mapEnclave (host : Host) (enclave : LoadEncl) : Except Stop (Int × LoadEncl) :=
  if host.mappingsAllocated = false then .ok (-1, enclave)
  else if host.sizesAllocated = false then .ok (-1, enclave)
  else
    match mapSegments host enclave.elfContent 0 enclave.segments with
    | .ok (some mappings) => .ok (0, { enclave with mappings })
    | .ok none => .ok (-1, enclave)
    | .error stop => .error stop

/-! ## Which segments are mapped -/

/-- The bytes of the segment are in the file, and fit in its mapping. -/
def Copyable (elf : List UInt8) (segment : Phdr) : Prop :=
  segment.pFilesz = 0 ∨
    segment.pOffset + segment.pFilesz ≤ elf.length ∧ segment.pFilesz ≤ mappedSize segment

/-- The size of the segment is rounded up without wrapping. -/
def RoundsUp (segment : Phdr) : Prop := segment.pMemsz + padding segment < 2 ^ 64

/-- The `PT_LOAD` segments up to the first for which `mmap` fails have an
alignment, and those before it are copied inside their bounds. -/
def MapsInside (host : Host) (elf : List UInt8) : Nat → List Phdr → Prop
  | _, [] => True
  | i, segment :: rest =>
    if segment.pType ≠ ptLoad then MapsInside host elf (i + 1) rest
    else segment.pAlign ≠ 0 ∧
      (host.mmap i (mappedSize segment) ≠ none → Copyable elf segment ∧ MapsInside host elf (i + 1) rest)

/-- `mmap` fails for none of the `PT_LOAD` segments. -/
def AllMapped (host : Host) (i : Nat) (segments : List Phdr) : Prop :=
  ∀ (j : Nat) (segment : Phdr), segments[j]? = some segment → segment.pType = ptLoad → host.mmap (i + j) (mappedSize segment) ≠ none

/-- The memory of each `PT_LOAD` segment is in its mapping. -/
def Covered (segments : List Phdr) (mappings : List (Option Mapping)) : Prop :=
  ∀ (j : Nat) (segment : Phdr), segments[j]? = some segment → segment.pType = ptLoad →
    ∃ mapping : Mapping, mappings[j]? = some (some mapping) ∧ segment.pMemsz ≤ mapping.size

/-- `map_enclave` divides by no 0, copies inside the file and the mappings,
and when it returns 0, the mappings are large enough. -/
def MapsSafely (segments : List Phdr) (r : Except Stop (Int × LoadEncl)) : Prop :=
  r ≠ .error .divide ∧ r ≠ .error .outside ∧ ∀ enclave, r = .ok (0, enclave) → Covered segments enclave.mappings

section Segments

variable {host : Host} {elf : List UInt8} {segment : Phdr} {i : Nat}

theorem copies_iff : (∀ k < segment.pFilesz, segment.pOffset + k < elf.length ∧ k < mappedSize segment) ↔
    Copyable elf segment := by
  unfold Copyable
  constructor
  · intro h
    by_cases hzero : segment.pFilesz = 0
    · exact .inl hzero
    · have hlast := h (segment.pFilesz - 1) (by omega)
      exact .inr ⟨by omega, by omega⟩
  · rintro h k hk
    omega

/-- A segment is mapped, or `mmap` fails, or the loader goes wrong. -/
theorem mapSegment_cases (host : Host) (elf : List UInt8) (i : Nat) (segment : Phdr) : segment.pAlign ≠ 0 ∧ (host.mmap i (mappedSize segment) ≠ none → Copyable elf segment) ∧
      ((∃ addr, host.mmap i (mappedSize segment) = some addr ∧
          mapSegment host elf i segment = .ok (some (segmentMapping elf addr segment))) ∨
        host.mmap i (mappedSize segment) = none ∧ mapSegment host elf i segment = .ok none) ∨
    ¬ (segment.pAlign ≠ 0 ∧ (host.mmap i (mappedSize segment) ≠ none → Copyable elf segment)) ∧
      (mapSegment host elf i segment = .error .divide ∨ mapSegment host elf i segment = .error .outside) := by
  unfold mapSegment
  by_cases halign : segment.pAlign = 0
  · rw [if_pos halign]
    exact .inr ⟨fun h => h.1 halign, .inl rfl⟩
  rw [if_neg halign]
  cases hmmap : host.mmap i (mappedSize segment) with
  | none => exact .inl ⟨halign, fun h => absurd rfl h, .inr ⟨rfl, rfl⟩⟩
  | some addr =>
    by_cases hcopy : ∀ k < segment.pFilesz, segment.pOffset + k < elf.length ∧ k < mappedSize segment
    · exact .inl ⟨halign, fun _ => copies_iff.1 hcopy, .inl ⟨addr, rfl, if_pos hcopy⟩⟩
    · exact .inr ⟨fun h => hcopy (copies_iff.2 (h.2 (by simp))), .inr (if_neg hcopy)⟩

theorem allMapped_cons {rest : List Phdr} : AllMapped host i (segment :: rest) ↔
    (segment.pType = ptLoad → host.mmap i (mappedSize segment) ≠ none) ∧ AllMapped host (i + 1) rest := by
  constructor
  · intro h
    refine ⟨fun hload => h 0 segment rfl hload, fun j segment' hj hload => ?_⟩
    have hnext := h (j + 1) segment' hj hload
    rwa [← Nat.add_assoc, Nat.add_right_comm] at hnext
  · rintro ⟨hfirst, hrest⟩ j segment' hj hload
    cases j with
    | zero =>
      obtain rfl := Option.some.inj hj
      exact hfirst hload
    | succ j =>
      have hnext := hrest j segment' hj hload
      rwa [Nat.add_right_comm, Nat.add_assoc] at hnext

/-- The segments from `i` on have these mappings. -/
def MappedAs (host : Host) (elf : List UInt8) (i : Nat) (segments : List Phdr) (mappings : List (Option Mapping)) : Prop :=
  ∀ (j : Nat) (segment : Phdr), segments[j]? = some segment → segment.pType = ptLoad → ∃ addr,
    host.mmap (i + j) (mappedSize segment) = some addr ∧ mappings[j]? = some (some (segmentMapping elf addr segment))

theorem MappedAs.cons {rest : List Phdr} {mappings : List (Option Mapping)} {mapping : Option Mapping}
    (hrest : MappedAs host elf (i + 1) rest mappings) (hfirst : segment.pType = ptLoad → ∃ addr,
      host.mmap i (mappedSize segment) = some addr ∧ mapping = some (segmentMapping elf addr segment)) :
    MappedAs host elf i (segment :: rest) (mapping :: mappings) := by
  intro j segment' hj hload
  cases j with
  | zero =>
    obtain rfl := Option.some.inj hj
    obtain ⟨addr, hmmap, rfl⟩ := hfirst hload
    exact ⟨addr, hmmap, rfl⟩
  | succ j =>
    obtain ⟨addr, hmmap, hmapping⟩ := hrest j segment' hj hload
    refine ⟨addr, ?_, hmapping⟩
    rwa [Nat.add_right_comm, Nat.add_assoc] at hmmap

/-- What the loop makes of the segments. -/
theorem mapSegments_cases (host : Host) (elf : List UInt8) (segments : List Phdr) : ∀ i,
    MapsInside host elf i segments ∧
      ((∃ mappings, mapSegments host elf i segments = .ok (some mappings) ∧ AllMapped host i segments ∧
          MappedAs host elf i segments mappings) ∨
        mapSegments host elf i segments = .ok none ∧ ¬ AllMapped host i segments) ∨
    ¬ MapsInside host elf i segments ∧
      (mapSegments host elf i segments = .error .divide ∨ mapSegments host elf i segments = .error .outside) := by
  induction segments with
  | nil =>
    intro i
    exact .inl ⟨trivial, .inl ⟨[], rfl, by simp [AllMapped], by simp [MappedAs]⟩⟩
  | cons segment rest ih =>
    intro i
    rw [MapsInside, mapSegments, allMapped_cons]
    by_cases hload : segment.pType ≠ ptLoad
    · rw [if_pos hload, if_pos hload]
      rcases ih (i + 1) with ⟨hinside, ⟨mappings, heq, hall, hmapped⟩ | ⟨heq, hnot⟩⟩ | ⟨hnot, heq | heq⟩ <;> rw [heq]
      · exact .inl ⟨hinside, .inl ⟨_, rfl, ⟨fun h => absurd h hload, hall⟩, hmapped.cons fun h => absurd h hload⟩⟩
      · exact .inl ⟨hinside, .inr ⟨rfl, fun h => hnot h.2⟩⟩
      · exact .inr ⟨hnot, .inl rfl⟩
      · exact .inr ⟨hnot, .inr rfl⟩
    · rw [if_neg hload, if_neg hload]
      have hload := not_not.1 hload
      rcases mapSegment_cases host elf i segment with
        ⟨halign, hcopy, ⟨addr, hmmap, hseg⟩ | ⟨hmmap, hseg⟩⟩ | ⟨hnot, hseg | hseg⟩ <;> rw [hseg]
      · have hsome : host.mmap i (mappedSize segment) ≠ none := by simp [hmmap]
        rcases ih (i + 1) with ⟨hinside, ⟨mappings, heq, hall, hmapped⟩ | ⟨heq, hnot⟩⟩ | ⟨hnot, heq | heq⟩ <;> dsimp only <;> rw [heq]
        · refine .inl ⟨⟨halign, fun _ => ⟨hcopy hsome, hinside⟩⟩, .inl ⟨_, rfl, ⟨fun _ => hsome, hall⟩, ?_⟩⟩
          exact hmapped.cons fun _ => ⟨addr, hmmap, rfl⟩
        · exact .inl ⟨⟨halign, fun _ => ⟨hcopy hsome, hinside⟩⟩, .inr ⟨rfl, fun h => hnot h.2⟩⟩
        · exact .inr ⟨fun h => hnot (h.2 hsome).2, .inl rfl⟩
        · exact .inr ⟨fun h => hnot (h.2 hsome).2, .inr rfl⟩
      · exact .inl ⟨⟨halign, fun h => absurd hmmap h⟩, .inr ⟨rfl, fun h => h.1 hload hmmap⟩⟩
      · exact .inr ⟨fun h => hnot ⟨h.1, fun hsome => (h.2 hsome).1⟩, .inl rfl⟩
      · exact .inr ⟨fun h => hnot ⟨h.1, fun hsome => (h.2 hsome).1⟩, .inr rfl⟩

end Segments

/-- When `map_enclave` returns 0, the segments have their mappings. -/
theorem mapEnclave_mapped {host : Host} {enclave mapped : LoadEncl} (h : mapEnclave host enclave = .ok (0, mapped)) :
    MappedAs host enclave.elfContent 0 enclave.segments mapped.mappings := by
  unfold mapEnclave at h
  split at h
  · cases h
  split at h
  · cases h
  rcases mapSegments_cases host enclave.elfContent enclave.segments 0 with
    ⟨-, ⟨mappings, heq, -, hmapped⟩ | ⟨heq, -⟩⟩ | ⟨-, heq | heq⟩ <;> rw [heq] at h <;> cases h
  exact hmapped

/-- A size that does not wrap is large enough, and only such a size. -/
theorem memsz_le_mappedSize {segment : Phdr} (hmemsz : segment.pMemsz < 2 ^ 64) (halign : segment.pAlign < 2 ^ 64) :
    segment.pMemsz ≤ mappedSize segment ↔ RoundsUp segment := by
  have hpadding : padding segment < 2 ^ 64 := by
    unfold padding
    dsimp only
    split <;> omega
  unfold mappedSize RoundsUp
  constructor
  · intro h
    by_contra hwrap
    have hmod : (segment.pMemsz + padding segment) % 2 ^ 64 = segment.pMemsz + padding segment - 2 ^ 64 := by
      rw [Nat.mod_eq_sub_mod (by omega), Nat.mod_eq_of_lt (by omega)]
    omega
  · intro h
    rw [Nat.mod_eq_of_lt h]
    omega

/-- **Mapping is safe** exactly when the alignments are not 0, the copies
stay in their bounds, and no size wraps if everything is mapped. -/
theorem maps_safely {env : Env} {encl parsed : LoadEncl} {s s' : Process}
    (hparse : parseEnclave env encl s = .ok ((0, parsed), s')) (host : Host) :
    MapsSafely parsed.segments (mapEnclave host parsed) ↔
      (host.mappingsAllocated = true → host.sizesAllocated = true →
        MapsInside host parsed.elfContent 0 parsed.segments ∧
          (AllMapped host 0 parsed.segments →
            ∀ segment ∈ parsed.segments, segment.pType = ptLoad → RoundsUp segment)) := by
  have hrefused : MapsSafely parsed.segments (.ok (-1, parsed)) := by
    refine ⟨by simp, by simp, fun enclave h => ?_⟩
    cases h
  unfold mapEnclave
  by_cases hmappings : host.mappingsAllocated = true
  case neg =>
    rw [if_pos (by simpa using hmappings)]
    exact ⟨fun _ h => absurd h hmappings, fun _ => hrefused⟩
  by_cases hsizes : host.sizesAllocated = true
  case neg =>
    rw [if_neg (by simp [hmappings]), if_pos (by simpa using hsizes)]
    exact ⟨fun _ _ h => absurd h hsizes, fun _ => hrefused⟩
  rw [if_neg (by simp [hmappings]), if_neg (by simp [hsizes]), imp_iff_right hmappings, imp_iff_right hsizes]
  have hbounds : ∀ segment ∈ parsed.segments, segment.pMemsz ≤ mappedSize segment ↔ RoundsUp segment := by
    intro segment hmem
    obtain ⟨bytes, rfl⟩ := parseEnclave_segments hparse segment hmem
    exact memsz_le_mappedSize (number_slice_lt bytes 40 8) (number_slice_lt bytes 48 8)
  rcases mapSegments_cases host parsed.elfContent parsed.segments 0 with
    ⟨hinside, ⟨mappings, heq, hall, hmapped⟩ | ⟨heq, hnot⟩⟩ | ⟨hnot, heq | heq⟩ <;> rw [heq]
  · constructor
    · rintro ⟨-, -, hcovered⟩
      refine ⟨hinside, fun _ segment hmem hload => ?_⟩
      obtain ⟨j, hj⟩ := List.mem_iff_getElem?.1 hmem
      obtain ⟨mapping, hmapping, hle⟩ := hcovered _ rfl j segment hj hload
      obtain ⟨addr, -, hsame⟩ := hmapped j segment hj hload
      obtain rfl := Option.some.inj (Option.some.inj (hmapping.symm.trans hsame))
      exact (hbounds segment hmem).1 hle
    · rintro ⟨-, hrounds⟩
      refine ⟨by simp, by simp, fun enclave h => ?_⟩
      cases h
      intro j segment hj hload
      obtain ⟨addr, -, hsame⟩ := hmapped j segment hj hload
      have hmem := List.mem_of_getElem? hj
      exact ⟨_, hsame, (hbounds segment hmem).2 (hrounds hall segment hmem hload)⟩
  · exact ⟨fun _ => ⟨hinside, fun hall => absurd hall hnot⟩, fun _ => hrefused⟩
  · exact ⟨fun h => absurd rfl h.1, fun h => absurd h.1 hnot⟩
  · exact ⟨fun h => absurd rfl h.2.1, fun h => absurd h.1 hnot⟩

/-! ## Two files -/

/-- A segment of a page, with 16 bytes of the file. -/
def pageSegment (pAlign : Nat) : Phdr where
  pType := ptLoad
  pFlags := 5
  pOffset := 0
  pVaddr := 0x400000
  pFilesz := 16
  pMemsz := 0x1000
  pAlign := pAlign

def pageSegmentBytes (pAlign : Nat) : List UInt8 :=
  digits 4 1 ++ digits 4 5 ++ digits 8 0 ++ digits 8 0x400000 ++ digits 8 0 ++ digits 8 16 ++ digits 8 0x1000 ++ digits 8 pAlign

def aligned : Env := fileEnv (sampleBytes (pageSegmentBytes 0x1000)) (by decide +kernel)

def unaligned : Env := fileEnv (sampleBytes (pageSegmentBytes 0)) (by decide +kernel)

/-- A loader with enough memory. -/
def roomy : Host := ⟨true, true, fun _ _ => some 0x7f0000000000, fun h => by obtain rfl := Option.some.inj h; rfl⟩

/-- The file is parsed, and has this one segment. -/
def parsesTo (env : Env) (segment : Phdr) : Bool :=
  match parseEnclave env (.opened 3 env.file.bytes) ⟨0, 0⟩ with
  | .ok ((ret, parsed), _) =>
    decide (ret = 0 ∧ parsed.segments = [segment] ∧ parsed.elfContent = env.file.bytes)
  | .error _ => false

theorem parsed_of_parsesTo {env : Env} {segment : Phdr} (h : parsesTo env segment = true) : ∃ parsed s',
    parseEnclave env (.opened 3 env.file.bytes) ⟨0, 0⟩ = .ok ((0, parsed), s') ∧ parsed.segments = [segment] ∧
      parsed.elfContent = env.file.bytes := by
  unfold parsesTo at h
  split at h
  next ret parsed s' heq =>
    obtain ⟨rfl, hsegments, hcontent⟩ := of_decide_eq_true h
    exact ⟨parsed, s', heq, hsegments, hcontent⟩
  next => cases h

theorem maps_safely_aligned : ∃ parsed s',
    parseEnclave aligned (.opened 3 aligned.file.bytes) ⟨0, 0⟩ = .ok ((0, parsed), s') ∧
      MapsSafely parsed.segments (mapEnclave roomy parsed) := by
  obtain ⟨parsed, s', hparse, hsegments, hcontent⟩   :=
    parsed_of_parsesTo (show parsesTo aligned (pageSegment 0x1000) = true by decide +kernel)
  refine ⟨parsed, s', hparse, (maps_safely hparse roomy).2 fun _ _ => ?_⟩
  rw [hsegments, hcontent, MapsInside, if_neg (by decide)]
  refine ⟨⟨by decide, fun _ => ⟨.inr (by decide +kernel), trivial⟩⟩, fun _ segment hmem _ => ?_⟩
  obtain rfl := List.mem_singleton.1 hmem
  show _ < _
  decide

/-- An alignment of 0, which the format allows, divides by 0. -/
theorem alignment_divides : ∃ parsed s',
    parseEnclave unaligned (.opened 3 unaligned.file.bytes) ⟨0, 0⟩ = .ok ((0, parsed), s') ∧
      mapEnclave roomy parsed = .error .divide ∧ ¬ MapsSafely parsed.segments (mapEnclave roomy parsed) := by
  obtain ⟨parsed, s', hparse, hsegments, -⟩   :=
    parsed_of_parsesTo (show parsesTo unaligned (pageSegment 0) = true by decide +kernel)
  have hdivide : mapEnclave roomy parsed = .error .divide := by
    unfold mapEnclave
    rw [if_neg (by decide), if_neg (by decide), hsegments]
    rfl
  exact ⟨parsed, s', hparse, hdivide, fun h => h.1 hdivide⟩

end Tyche.Loader
