/-
What the bytes of a file say: each reader of the library returns exactly when
the file has what it reads, and then returns that; a symbol that is found is
the first of its name.

An offset of -1 is left out: `lseek` refuses it, and its result is the offset,
so the process reads on from where it is.
-/
import Tyche.Elf.Symbols

namespace Tyche.Elf

open Tyche.Bytes

/-- The `n` records that are at an offset, one behind the other. -/
def recordsAt {α : Type} (bytes : List UInt8) (off size n : Nat) (decode : List UInt8 → α) : List α :=
  (List.range n).map fun i => decode (slice bytes (off + size * i) size)

/-- The offset that `lseek` takes for a failure. -/
abbrev noOffset : Nat := 2 ^ 64 - 1

/-- All bytes of the section are in the file, and one `read` transfers them. -/
structure Whole (env : Env) (sh : Shdr) : Prop where
  seekable : sh.shOffset ≤ env.file.maxbytes
  bytes : (contents env sh).length = sh.shSize
  transferred : sh.shSize ≤ maxRead

/-- The header of the file. -/
structure HasHeader (env : Env) (eh : Ehdr) : Prop where
  bytes : ehdrSize ≤ env.file.bytes.length
  magic : slice (slice env.file.bytes 0 ehdrSize) 0 4 = elfMag
  decoded : eh = Ehdr.decode (slice env.file.bytes 0 ehdrSize)

/-- The segments that the header points to. -/
structure HasSegments (env : Env) (eh : Ehdr) (segments : List Phdr) : Prop where
  some : 0 < eh.ePhnum
  bytes : eh.ePhoff + phdrSize * eh.ePhnum ≤ env.file.bytes.length
  entry : eh.ePhentsize = phdrSize
  decoded : segments = recordsAt env.file.bytes eh.ePhoff phdrSize eh.ePhnum Phdr.decode

/-- The sections that the header points to. -/
structure HasSections (env : Env) (eh : Ehdr) (sections : List Shdr) : Prop where
  some : 0 < eh.eShnum
  bytes : eh.eShoff + shdrSize * eh.eShnum ≤ env.file.bytes.length
  decoded : sections = recordsAt env.file.bytes eh.eShoff shdrSize eh.eShnum Shdr.decode

section Readers

variable {env : Env} {eh : Ehdr} {sh : Shdr} {s s' : Process}

theorem recordsAt_succ {α : Type} (bytes : List UInt8) (off size n : Nat) (decode : List UInt8 → α) :
    recordsAt bytes off size (n + 1) decode = decode (slice bytes off size) :: recordsAt bytes (off + size) size n decode := by
  simp only [recordsAt, List.range_succ_eq_map, List.map_cons, List.map_map, Nat.mul_zero, Nat.add_zero, List.cons.injEq, true_and]
  refine List.map_congr_left fun i _ => ?_
  show decode (slice bytes (off + size * (i + 1)) size) = _
  rw [Nat.mul_succ, Nat.add_assoc, Nat.add_comm size]

/-- A slice has all its bytes, if the buffer does. -/
theorem length_slice_eq {buf : List UInt8} {off len : Nat} (hlen : 0 < len) :
    (slice buf off len).length = len ↔ off + len ≤ buf.length := by
  rw [slice, List.length_take, List.length_drop]
  omega

theorem lseek_eq_ok {off : Nat} {u : Unit} (hoff : off ≠ noOffset) :
    lseek env off s = .ok (u, s') ↔ off ≤ env.file.maxbytes ∧ s' = { s with pos := off } := by
  unfold lseek
  split
  next h => simp [h, eq_comm]
  next h => simp [h]

theorem read_eq {len : Nat} (hlen : len ≤ maxRead) : read env len s =
    .ok (slice env.file.bytes s.pos len, ⟨s.pos + (slice env.file.bytes s.pos len).length, s.allocs⟩) := by
  unfold read
  rw [Nat.min_eq_left hlen]

theorem malloc_eq_ok {size : Nat} {u : Unit} :
    malloc env size s = .ok (u, s') ↔ env.malloc s.allocs size = true ∧ s' = { s with allocs := s.allocs + 1 } := by
  unfold malloc
  split
  next h => simp [h, eq_comm]
  next h => simp [h]

theorem pure_eq_ok {α : Type} {a b : α} : (pure a : Action α) s = .ok (b, s') ↔ b = a ∧ s' = s := by
  show Except.ok (a, s) = _ ↔ _
  simp [eq_comm]

/-- **The loop over records** reads those at the position. -/
theorem readRecords_eq_ok {α : Type} {size : Nat} {decode : List UInt8 → α} (hsize : 0 < size) (hmax : size ≤ maxRead) (n : Nat) :
    ∀ {s s' : Process} {records : List α}, readRecords env size decode n s = .ok (records, s') ↔
      (n ≠ 0 → s.pos + size * n ≤ env.file.bytes.length) ∧ records = recordsAt env.file.bytes s.pos size n decode ∧
        s' = ⟨s.pos + size * n, s.allocs⟩ := by
  induction n with
  | zero =>
    intro s s' records
    rw [readRecords, pure_eq_ok]
    simp [recordsAt]
  | succ n ih =>
    intro s s' records
    unfold readRecords
    rw [bind_ok (read_eq hmax)]
    by_cases hlen : (slice env.file.bytes s.pos size).length = size
    · rw [bind_ok (test_ok hlen _), hlen, bind_eq_ok, recordsAt_succ]
      have hfirst := (length_slice_eq hsize).1 hlen
      constructor
      · rintro ⟨rest, s₁, hrest, h⟩
        obtain ⟨hbytes, rfl, rfl⟩ := ih.1 hrest
        obtain ⟨rfl, rfl⟩ := pure_eq_ok.1 h
        refine ⟨fun _ => ?_, rfl, ?_⟩
        · by_cases hn : n = 0
          · subst hn
            simpa using hfirst
          · have := hbytes hn
            dsimp only at this
            rw [Nat.mul_succ]
            omega
        · rw [Nat.mul_succ, Nat.add_comm (size * n), Nat.add_assoc]
      · rintro ⟨hbytes, rfl, rfl⟩
        have hall := hbytes (Nat.succ_ne_zero n)
        rw [Nat.mul_succ] at hall ⊢
        refine ⟨_, ⟨s.pos + size + size * n, s.allocs⟩, ih.2 ⟨fun _ => ?_, rfl, rfl⟩, pure_eq_ok.2 ⟨rfl, ?_⟩⟩
        · dsimp only
          omega
        · rw [Nat.add_comm (size * n), Nat.add_assoc]
    · rw [bind_error (test_failed hlen _)]
      refine ⟨fun h => (by cases h), fun ⟨hbytes, _⟩ => absurd ((length_slice_eq hsize).2 ?_) hlen⟩
      have hall := hbytes (Nat.succ_ne_zero n)
      rw [Nat.mul_succ] at hall
      omega

/-- **The header is read** if the file has one. -/
theorem readElf64Header_eq_ok : readElf64Header env s = .ok (eh, s') ↔ HasHeader env eh ∧ s' = ⟨ehdrSize, s.allocs⟩ := by
  unfold readElf64Header
  rw [bind_ok (lseek_ok (Nat.zero_le _) s), bind_ok (read_eq (by decide))]
  dsimp only
  by_cases hlen : (slice env.file.bytes 0 ehdrSize).length = ehdrSize
  · have hbytes : ehdrSize ≤ env.file.bytes.length := by
      have := (length_slice_eq (by decide)).1 hlen
      omega
    rw [bind_ok (test_ok hlen _), hlen]
    by_cases hmagic : slice (slice env.file.bytes 0 ehdrSize) 0 4 = elfMag
    · rw [bind_ok (test_ok hmagic _), pure_eq_ok]
      exact ⟨fun h => ⟨⟨hbytes, hmagic, h.1⟩, h.2⟩, fun h => ⟨h.1.decoded, h.2⟩⟩
    · rw [bind_error (test_failed hmagic _)]
      exact ⟨fun h => (by cases h), fun h => absurd h.1.magic hmagic⟩
  · rw [bind_error (test_failed hlen _)]
    refine ⟨fun h => (by cases h), fun h => absurd ((length_slice_eq (by decide)).2 ?_) hlen⟩
    have := h.1.bytes
    omega

/-- **The segments are read** if the file has them, and they are allocated. -/
theorem readElf64Segments_eq_ok {segments : List Phdr} (hoff : eh.ePhoff ≠ noOffset) :
    readElf64Segments env eh s = .ok (segments, s') ↔ HasSegments env eh segments ∧
      env.malloc s.allocs (phdrSize * eh.ePhnum) = true ∧ s' = ⟨eh.ePhoff + phdrSize * eh.ePhnum, s.allocs + 1⟩ := by
  have hfits := env.file.fits
  unfold readElf64Segments
  simp only [bind_eq_ok, test_eq_ok, malloc_eq_ok, lseek_eq_ok hoff, readRecords_eq_ok (by decide : 0 < phdrSize) (by decide)]
  constructor
  · rintro ⟨-, _, ⟨hsome, rfl⟩, -, _, ⟨hmalloc, rfl⟩, -, _, ⟨-, rfl⟩, -, _, ⟨hentry, rfl⟩, hbytes, rfl, rfl⟩
    exact ⟨⟨hsome, hbytes (by omega), hentry.symm, rfl⟩, hmalloc, rfl⟩
  · rintro ⟨⟨hsome, hbytes, hentry, rfl⟩, hmalloc, rfl⟩
    exact ⟨(), _, ⟨hsome, rfl⟩, (), _, ⟨hmalloc, rfl⟩, (), _, ⟨by omega, rfl⟩, (), _, ⟨hentry.symm, rfl⟩, fun _ => hbytes, rfl, rfl⟩

/-- **The sections are read** if the file has them, and they are allocated. -/
theorem readElf64Sections_eq_ok {sections : List Shdr} (hoff : eh.eShoff ≠ noOffset) :
    readElf64Sections env eh s = .ok (sections, s') ↔ HasSections env eh sections ∧
      env.malloc s.allocs (shdrSize * eh.eShnum) = true ∧ s' = ⟨eh.eShoff + shdrSize * eh.eShnum, s.allocs + 1⟩ := by
  have hfits := env.file.fits
  unfold readElf64Sections
  simp only [bind_eq_ok, test_eq_ok, malloc_eq_ok, lseek_eq_ok hoff, readRecords_eq_ok (by decide : 0 < shdrSize) (by decide)]
  constructor
  · rintro ⟨-, _, ⟨hsome, rfl⟩, -, _, ⟨hmalloc, rfl⟩, -, _, ⟨-, rfl⟩, hbytes, rfl, rfl⟩
    exact ⟨⟨hsome, hbytes (by omega), rfl⟩, hmalloc, rfl⟩
  · rintro ⟨⟨hsome, hbytes, rfl⟩, hmalloc, rfl⟩
    exact ⟨(), _, ⟨hsome, rfl⟩, (), _, ⟨hmalloc, rfl⟩, (), _, ⟨by omega, rfl⟩, fun _ => hbytes, rfl, rfl⟩

/-- **A section is read** if all of it is in the file, and it is allocated. -/
theorem readSection64_eq_ok {bytes : List UInt8} (hoff : sh.shOffset ≠ noOffset) :
    readSection64 env sh s = .ok (bytes, s') ↔ Whole env sh ∧ env.malloc s.allocs sh.shSize = true ∧ bytes = contents env sh ∧
      s' = ⟨sh.shOffset + sh.shSize, s.allocs + 1⟩ := by
  unfold readSection64
  simp only [bind_eq_ok, test_eq_ok, malloc_eq_ok, lseek_eq_ok hoff, pure_eq_ok]
  constructor
  · rintro ⟨-, _, ⟨hmalloc, rfl⟩, -, _, ⟨hseek, rfl⟩, read, _, hread, -, _, ⟨hlen, rfl⟩, rfl, rfl⟩
    obtain ⟨rfl, rfl⟩ := Prod.mk.inj (Except.ok.inj hread)
    have hmax : sh.shSize ≤ maxRead := by
      rw [slice, List.length_take] at hlen
      omega
    rw [Nat.min_eq_left hmax] at hlen ⊢
    exact ⟨⟨hseek, hlen, hmax⟩, hmalloc, rfl, by rw [hlen]⟩
  · rintro ⟨⟨hseek, hlen, hmax⟩, hmalloc, rfl, rfl⟩
    refine ⟨(), _, ⟨hmalloc, rfl⟩, (), _, ⟨hseek, rfl⟩, _, _, read_eq hmax, (), _, ⟨hlen, rfl⟩, rfl, ?_⟩
    show _ = (⟨sh.shOffset + (contents env sh).length, s.allocs + 1⟩ : Process)
    rw [hlen]

end Readers

/-! ## What is found -/

/-- No section starts at the offset that `lseek` takes for a failure. -/
def Placed (sections : List Shdr) : Prop := ∀ sh ∈ sections, sh.shOffset ≠ noOffset

section Found

variable {env : Env} {eh : Ehdr} {sections : List Shdr} {sh : Shdr} {name : List UInt8} {s s' : Process} {result : Option Sym}

/-- A comparison that ends tells whether the string is the name. -/
theorem strcmpAt_ok {table : List UInt8} {off : Nat} {equal : Bool} (hname : 0 ∉ name)
    (h : strcmpAt name table off s = .ok (equal, s')) : equal = (cstring (table.drop off) == some name) ∧ s' = s := by
  unfold strcmpAt at h
  cases hcmp : strcmp name (table.drop off) with
  | none =>
    rw [hcmp] at h
    cases h
  | some b =>
    rw [hcmp] at h
    obtain ⟨rfl, rfl⟩ := pure_eq_ok.1 h
    refine ⟨?_, rfl⟩
    rw [Bool.eq_iff_iff, beq_iff_eq, cstring_eq_some hname, ← strcmp_eq_true, hcmp, Option.some_inj]

/-- **The loop over symbols** finds the first of the name. -/
theorem searchSymbols_ok {strTbl : List UInt8} (hname : 0 ∉ name) (syms : List Sym)
    (h : searchSymbols env name strTbl syms s = .ok (result, s')) :
    result = syms.find? fun sym => sym.name strTbl == some name := by
  induction syms generalizing s with
  | nil =>
    obtain ⟨rfl, -⟩ := pure_eq_ok.1 h
    rfl
  | cons sym syms ih =>
    unfold searchSymbols at h
    obtain ⟨equal, s₁, hcmp, h⟩ := bind_eq_ok.1 h
    obtain ⟨hequal, rfl⟩ := strcmpAt_ok hname hcmp
    cases equal with
    | true =>
      obtain ⟨-, s₂, -, h⟩ := bind_eq_ok.1 h
      obtain ⟨rfl, -⟩ := pure_eq_ok.1 h
      rw [List.find?_cons_of_pos (p := fun sym : Sym => sym.name strTbl == some name) hequal.symm]
    | false =>
      have hequal : ¬ (sym.name strTbl == some name) = true := by
        rw [Sym.name, ← hequal]
        simp
      rw [List.find?_cons_of_neg (p := fun sym : Sym => sym.name strTbl == some name) hequal]
      exact ih h

/-- **The search of a table** finds the first symbol of the name in it. -/
theorem findSymbolInSection_ok {idx : Nat} (hname : 0 ∉ name) (hplaced : Placed sections) (hsh : sections[idx]? = some sh)
    (h : findSymbolInSection env name eh sections idx s = .ok (result, s')) : result = firstIn env sections name sh := by
  unfold findSymbolInSection at h
  rw [bind_ok (index_ok hsh s)] at h
  obtain ⟨⟨symTbl, strTbl⟩, s₁, htables, h⟩ := bind_eq_ok.1 h
  have hsearch : ∃ s₂, searchSymbols env name strTbl (symbols symTbl) s₂ = .ok (result, s') := by
    dsimp only at h
    split at h
    next hsize =>
      -- A table of a wrong size is not searched.
      obtain ⟨-, s₂, -, h⟩ := bind_eq_ok.1 h
      obtain ⟨u, s₃, htest, -⟩ := bind_eq_ok.1 h
      exact absurd (test_eq_ok.1 htest).1 hsize
    next =>
      obtain ⟨-, s₂, -, h⟩ := bind_eq_ok.1 h
      exact ⟨s₂, h⟩
  obtain ⟨s₂, hsearch⟩ := hsearch
  unfold readTables at htables
  obtain ⟨bytes, s₄, hsym, htables⟩ := bind_eq_ok.1 htables
  obtain ⟨-, s₅, -, htables⟩ := bind_eq_ok.1 htables
  obtain ⟨linked, s₆, hlinked, htables⟩ := bind_eq_ok.1 htables
  obtain ⟨bytes', s₇, hstr, htables⟩ := bind_eq_ok.1 htables
  obtain ⟨heq, -⟩ := pure_eq_ok.1 htables
  obtain ⟨rfl, rfl⟩ := Prod.mk.inj heq
  have hlinked : sections[sh.shLink]? = some linked := by
    unfold index at hlinked
    cases hindex : sections[sh.shLink]? with
    | none =>
      rw [hindex] at hlinked
      cases hlinked
    | some elem =>
      rw [hindex] at hlinked
      rw [(pure_eq_ok.1 hlinked).1]
  obtain ⟨-, -, rfl, -⟩ := (readSection64_eq_ok (hplaced sh (List.mem_of_getElem? hsh))).1 hsym
  obtain ⟨-, -, rfl, -⟩ := (readSection64_eq_ok (hplaced linked (List.mem_of_getElem? hlinked))).1 hstr
  have hstrings : strings env sections sh = contents env linked := by rw [strings, hlinked]
  rw [searchSymbols_ok hname _ hsearch, firstIn, hstrings]

/-- The loop over the sections finds the first symbol of the name. -/
theorem findSymbolFrom_ok (hname : 0 ∉ name) (hplaced : Placed sections) (n : Nat) : ∀ {i s}, i + n = sections.length →
    findSymbolFrom env name eh sections n i s = .ok (result, s') → result = firstSymbol env sections name (sections.drop i) := by
  induction n with
  | zero =>
    intro i s hi h
    obtain ⟨rfl, -⟩ := pure_eq_ok.1 h
    rw [List.drop_eq_nil_of_le (by omega)]
    rfl
  | succ n ih =>
    intro i s hi h
    have hlt : i < sections.length := by omega
    have hsh : sections[i]? = some sections[i] := List.getElem?_eq_getElem hlt
    rw [List.drop_eq_getElem_cons hlt]
    generalize sections[i] = sh at hsh
    unfold findSymbolFrom at h
    rw [bind_ok (index_ok hsh s)] at h
    rw [firstSymbol]
    by_cases hsymtab : sh.isSymtab = true
    · rw [if_pos hsymtab] at h
      obtain ⟨found, s₁, hfound, h⟩ := bind_eq_ok.1 h
      have hfirst := findSymbolInSection_ok hname hplaced hsh hfound
      rw [List.filter_cons_of_pos hsymtab, List.findSome?_cons, ← hfirst]
      cases found with
      | some sym => exact (pure_eq_ok.1 h).1
      | none => exact ih (by omega) h
    · rw [if_neg hsymtab] at h
      rw [List.filter_cons_of_neg hsymtab]
      exact ih (by omega) h

/-- **A search that returns** has found the first symbol of the name. -/
theorem findSymbol_ok (hname : 0 ∉ name) (hplaced : Placed sections) (hcount : sections.length = eh.eShnum)
    (h : findSymbol env name eh sections s = .ok (result, s')) :
    result = firstSymbol env sections name sections ∧ result ≠ none := by
  unfold findSymbol at h
  obtain ⟨found, s₁, hfound, h⟩ := bind_eq_ok.1 h
  have hfirst := findSymbolFrom_ok (i := 0) hname hplaced eh.eShnum (by omega) hfound
  rw [List.drop_zero] at hfirst
  cases found with
  | some sym =>
    obtain ⟨rfl, -⟩ := pure_eq_ok.1 h
    exact ⟨hfirst, by simp⟩
  | none =>
    obtain ⟨u, s₂, htest, -⟩ := bind_eq_ok.1 h
    exact absurd rfl (test_eq_ok.1 htest).1

end Found

end Tyche.Elf
