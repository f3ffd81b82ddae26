/-
What the ELF library accesses for an arbitrary file. Reading stays inside
the arrays or is aborted. A comparison stays inside its table unless the
table ends with a part of the name looked for, and the name of a section
that is printed has to end in its table.
-/
import Tyche.Elf.Read

namespace Tyche.Elf

open Tyche.Bytes

/-- The string at the offset is the name. -/
def Matches (name table : List UInt8) (off : Nat) : Prop := name ++ [0] <+: table.drop off

/-- The comparisons of the name with the strings at these offsets, up to the
first that is the name, end inside the table: what is left of the table at
the offset is not a part of the name. -/
def Compares (name table : List UInt8) : List Nat → Prop
  | [] => True
  | off :: offs => ¬ table.drop off <+: name ∧ (¬ Matches name table off → Compares name table offs)

instance (name table : List UInt8) (off : Nat) : Decidable (Matches name table off) :=
  inferInstanceAs (Decidable (_ <+: _))

/-- The search for a symbol in these sections, after the process has come to
the state: of each symbol table that is read, the names are compared inside
its string table; or its size is wrong, and its own name ends in the table
of section names. -/
def SearchInside (env : Env) (eh : Ehdr) (sections : List Shdr) (name : List UInt8) : List Shdr → Process → Prop
  | [], _ => True
  | sh :: rest, s =>
    if sh.isSymtab = true then
      ∀ symTbl strTbl s', readTables env eh sections sh s = .ok ((symTbl, strTbl), s') →
        if sh.shSize % symSize ≠ 0 then
          ∀ names shStr s'', sections[eh.eShstrndx]? = some names → readSection64 env names s' = .ok (shStr, s'') →
            0 ∈ shStr.drop sh.shName
        else
          Compares name strTbl ((symbols symTbl).map (·.stName)) ∧
            ((∀ sym ∈ symbols symTbl, ¬ Matches name strTbl sym.stName) →
              SearchInside env eh sections name rest s')
    else SearchInside env eh sections name rest s

/-! ## Reading -/

section Read

variable (env : Env) (eh : Ehdr) (s : Process)

theorem inside_readElf64Header : (readElf64Header env).Inside s := by
  unfold readElf64Header
  simp only [inside_bind, inside_lseek, inside_read, inside_test, inside_pure, implies_true, and_self]

theorem inside_readRecords {α : Type} (size : Nat) (decode : List UInt8 → α) (n : Nat) (s : Process) :
    (readRecords env size decode n).Inside s := by
  induction n generalizing s with
  | zero => exact inside_pure _ s
  | succ n ih =>
    unfold readRecords
    simp only [inside_bind, inside_read, inside_test, ih, inside_pure, implies_true, and_self]

theorem inside_readElf64Sections : (readElf64Sections env eh).Inside s := by
  unfold readElf64Sections
  simp only [inside_bind, inside_test, inside_malloc, inside_lseek, inside_readRecords, implies_true, and_self]

theorem inside_readElf64Segments : (readElf64Segments env eh).Inside s := by
  unfold readElf64Segments
  simp only [inside_bind, inside_test, inside_malloc, inside_lseek, inside_readRecords, implies_true, and_self]

theorem inside_readSection64 (sh : Shdr) (s : Process) : (readSection64 env sh).Inside s := by
  unfold readSection64
  simp only [inside_bind, inside_malloc, inside_lseek, inside_read, inside_test, inside_pure, implies_true, and_self]

/-- The array that is read has as many records as were asked for. -/
theorem readRecords_length {α : Type} {size : Nat} {decode : List UInt8 → α} {n : Nat} {s s' : Process} {records : List α}
    (h : readRecords env size decode n s = .ok (records, s')) : records.length = n := by
  induction n generalizing s s' records with
  | zero =>
    obtain ⟨rfl, -⟩ := Prod.mk.inj (Except.ok.inj h)
    rfl
  | succ n ih =>
    unfold readRecords at h
    obtain ⟨bytes, s₁, -, h⟩ := bind_eq_ok.1 h
    obtain ⟨u, s₂, -, h⟩ := bind_eq_ok.1 h
    obtain ⟨rest, s₃, hrest, h⟩ := bind_eq_ok.1 h
    obtain ⟨rfl, -⟩ := Prod.mk.inj (Except.ok.inj h)
    rw [List.length_cons, ih hrest]

/-- Its records are decoded from bytes. -/
theorem readRecords_decoded {α : Type} {size : Nat} {decode : List UInt8 → α} {n : Nat} {s s' : Process} {records : List α}
    (h : readRecords env size decode n s = .ok (records, s')) : ∀ record ∈ records, ∃ bytes, record = decode bytes := by
  induction n generalizing s s' records with
  | zero =>
    obtain ⟨rfl, -⟩ := Prod.mk.inj (Except.ok.inj h)
    simp
  | succ n ih =>
    unfold readRecords at h
    obtain ⟨bytes, s₁, -, h⟩ := bind_eq_ok.1 h
    obtain ⟨u, s₂, -, h⟩ := bind_eq_ok.1 h
    obtain ⟨rest, s₃, hrest, h⟩ := bind_eq_ok.1 h
    obtain ⟨rfl, -⟩ := Prod.mk.inj (Except.ok.inj h)
    exact List.forall_mem_cons.2 ⟨⟨bytes, rfl⟩, ih hrest⟩

theorem readElf64Sections_length {s s' : Process} {sections : List Shdr}
    (h : readElf64Sections env eh s = .ok (sections, s')) : sections.length = eh.eShnum := by
  unfold readElf64Sections at h
  obtain ⟨-, s₁, -, h⟩ := bind_eq_ok.1 h
  obtain ⟨-, s₂, -, h⟩ := bind_eq_ok.1 h
  obtain ⟨-, s₃, -, h⟩ := bind_eq_ok.1 h
  exact readRecords_length env h

theorem readElf64Segments_decoded {s s' : Process} {segments : List Phdr}
    (h : readElf64Segments env eh s = .ok (segments, s')) : ∀ segment ∈ segments, ∃ bytes, segment = Phdr.decode bytes := by
  unfold readElf64Segments at h
  obtain ⟨-, s₁, -, h⟩ := bind_eq_ok.1 h
  obtain ⟨-, s₂, -, h⟩ := bind_eq_ok.1 h
  obtain ⟨-, s₃, -, h⟩ := bind_eq_ok.1 h
  obtain ⟨-, s₄, -, h⟩ := bind_eq_ok.1 h
  exact readRecords_decoded env h

end Read

/-! ## Comparing -/

section Search

variable {env : Env} {eh : Ehdr} {sections : List Shdr} {name : List UInt8} {sh : Shdr} {s s' : Process}

theorem inside_strcmpAt {table : List UInt8} {off : Nat} :
    (strcmpAt name table off).Inside s ↔ ¬ table.drop off <+: name := by
  unfold strcmpAt
  rw [← strcmp_eq_none]
  cases strcmp name (table.drop off) with
  | none => exact ⟨fun h => absurd rfl h, fun h => absurd rfl h⟩
  | some equal => exact ⟨fun _ => by simp, fun _ => inside_pure equal s⟩

theorem strcmpAt_matches {table : List UInt8} {off : Nat} (hinside : ¬ table.drop off <+: name) (s : Process) :
    strcmpAt name table off s = .ok (decide (Matches name table off), s) := by
  obtain ⟨equal, hequal⟩ := Option.ne_none_iff_exists'.1 (mt strcmp_eq_none.1 hinside)
  have hdecide : equal = decide (Matches name table off) := by
    rw [Bool.eq_iff_iff, decide_eq_true_iff, Matches, ← strcmp_eq_true, hequal, Option.some_inj]
  unfold strcmpAt
  rw [hequal, hdecide]
  rfl

/-- The loop over the symbols of a table. -/
theorem inside_searchSymbols {strTbl : List UInt8} (syms : List Sym) :
    (searchSymbols env name strTbl syms).Inside s ↔ Compares name strTbl (syms.map (·.stName)) := by
  induction syms with
  | nil => exact ⟨fun _ => trivial, fun _ => inside_pure _ s⟩
  | cons sym syms ih =>
    unfold searchSymbols
    rw [List.map_cons, Compares]
    by_cases hinside : strTbl.drop sym.stName <+: name
    · exact ⟨fun h => absurd hinside (inside_strcmpAt.1 (inside_bind.1 h).1), fun h => absurd hinside h.1⟩
    · rw [inside_bind_ok (strcmpAt_matches hinside s), and_iff_right hinside]
      by_cases hmatch : Matches name strTbl sym.stName
      · rw [if_pos (decide_eq_true hmatch)]
        refine ⟨fun _ hnot => absurd hmatch hnot, fun _ => ?_⟩
        exact inside_bind.2 ⟨inside_malloc env symSize s, fun _ s' _ => inside_pure _ s'⟩
      · rw [if_neg (by simpa using hmatch), ih, imp_iff_right hmatch]

/-- It returns NULL when no symbol has the name. -/
theorem searchSymbols_none {strTbl : List UInt8} (syms : List Sym) (hinside : Compares name strTbl (syms.map (·.stName))) :
    searchSymbols env name strTbl syms s = .ok (none, s') ↔ (∀ sym ∈ syms, ¬ Matches name strTbl sym.stName) ∧ s' = s := by
  induction syms with
  | nil =>
    show Except.ok (none, s) = .ok (none, s') ↔ _
    simp [eq_comm]
  | cons sym syms ih =>
    obtain ⟨hfirst, hrest⟩ := hinside
    unfold searchSymbols
    rw [bind_ok (strcmpAt_matches hfirst s), List.forall_mem_cons]
    by_cases hmatch : Matches name strTbl sym.stName
    · rw [if_pos (decide_eq_true hmatch)]
      refine ⟨fun h => ?_, fun h => absurd hmatch h.1.1⟩
      obtain ⟨-, s₁, -, h⟩ := bind_eq_ok.1 h
      cases h
    · rw [if_neg (by simpa using hmatch), ih (hrest hmatch)]
      exact ⟨fun h => ⟨⟨hmatch, h.1⟩, h.2⟩, fun h => ⟨h.1.2, h.2⟩⟩

/-! ## The search -/

theorem inside_readTables (hcount : sections.length = eh.eShnum) : (readTables env eh sections sh).Inside s := by
  unfold readTables
  refine inside_bind.2 ⟨inside_readSection64 env sh s, fun symTbl s₁ _ => ?_⟩
  refine inside_bind.2 ⟨inside_test _ s₁, fun u s₂ htest => ?_⟩
  obtain ⟨hlink, rfl⟩ := test_eq_ok.1 htest
  refine inside_bind.2 ⟨inside_index.2 (by omega), fun linked s₃ _ => ?_⟩
  exact inside_bind.2 ⟨inside_readSection64 env linked s₃, fun _ s₄ _ => inside_pure _ s₄⟩

theorem inside_printElf64Section {names : Shdr} {i : Nat} (hnames : sections[eh.eShstrndx]? = some names)
    (hsh : sections[i]? = some sh) : (printElf64Section env eh sections i).Inside s ↔
      ∀ shStr s', readSection64 env names s = .ok (shStr, s') → 0 ∈ shStr.drop sh.shName := by
  unfold printElf64Section
  rw [inside_bind_ok (index_ok hnames s), inside_bind, and_iff_right (inside_readSection64 env names s)]
  refine forall_congr' fun shStr => forall_congr' fun s₁ => imp_congr_right fun _ => ?_
  rw [inside_bind_ok (index_ok hsh s₁)]
  cases hstr : cstring (shStr.drop sh.shName) with
  | none => exact ⟨fun h => absurd rfl h, fun h => absurd h (cstring_eq_none.1 hstr)⟩
  | some str =>
    refine ⟨fun _ => ?_, fun _ => inside_pure () s₁⟩
    by_contra hnot
    rw [cstring_eq_none.2 hnot] at hstr
    cases hstr

/-- The search of a section, and its result NULL. -/
theorem inside_findSymbolInSection {idx : Nat} {names : Shdr} (hcount : sections.length = eh.eShnum)
    (hnames : sections[eh.eShstrndx]? = some names) (hsh : sections[idx]? = some sh) :
    (findSymbolInSection env name eh sections idx).Inside s ↔
      ∀ symTbl strTbl s', readTables env eh sections sh s = .ok ((symTbl, strTbl), s') →
        if sh.shSize % symSize ≠ 0 then
          ∀ shStr s'', readSection64 env names s' = .ok (shStr, s'') → 0 ∈ shStr.drop sh.shName
        else Compares name strTbl ((symbols symTbl).map (·.stName)) := by
  unfold findSymbolInSection
  rw [inside_bind_ok (index_ok hsh s), inside_bind, and_iff_right (inside_readTables hcount), Prod.forall]
  refine forall_congr' fun symTbl => forall_congr' fun strTbl => forall_congr' fun s₁ => imp_congr_right fun _ => ?_
  dsimp only
  split
  next hsize =>
    rw [inside_bind, inside_printElf64Section hnames hsh, and_iff_left]
    intro u s₂ _
    refine inside_bind.2 ⟨inside_test _ s₂, fun u' s₃ htest => ?_⟩
    -- A table of a wrong size is not searched.
    exact absurd (test_eq_ok.1 htest).1 hsize
  next hsize => rw [inside_bind_ok (test_ok (not_not.1 hsize) s₁), inside_searchSymbols]

theorem findSymbolInSection_none {idx : Nat} (hsh : sections[idx]? = some sh)
    (hinside : (findSymbolInSection env name eh sections idx).Inside s) :
    findSymbolInSection env name eh sections idx s = .ok (none, s') ↔
      ∃ symTbl strTbl, readTables env eh sections sh s = .ok ((symTbl, strTbl), s') ∧ sh.shSize % symSize = 0 ∧
        ∀ sym ∈ symbols symTbl, ¬ Matches name strTbl sym.stName := by
  unfold findSymbolInSection at hinside ⊢
  rw [inside_bind_ok (index_ok hsh s)] at hinside
  rw [bind_ok (index_ok hsh s)]
  cases htables : readTables env eh sections sh s with
  | error reason =>
    rw [bind_error htables]
    simp
  | ok r =>
    obtain ⟨⟨symTbl, strTbl⟩, s₁⟩ := r
    rw [inside_bind_ok htables] at hinside
    rw [bind_ok htables]
    dsimp only at hinside ⊢
    split at hinside
    next hsize =>
      rw [if_pos hsize]
      constructor
      · intro h
        obtain ⟨-, s₂, -, h⟩ := bind_eq_ok.1 h
        obtain ⟨u, s₃, htest, -⟩ := bind_eq_ok.1 h
        exact absurd (test_eq_ok.1 htest).1 hsize
      · rintro ⟨-, -, -, hwhole, -⟩
        exact absurd hwhole hsize
    next hsize =>
      have hwhole : sh.shSize % symSize = 0 := not_not.1 hsize
      rw [inside_bind_ok (test_ok hwhole s₁), inside_searchSymbols] at hinside
      rw [if_neg hsize, bind_ok (test_ok hwhole s₁), searchSymbols_none _ hinside]
      constructor
      · rintro ⟨hnone, rfl⟩
        exact ⟨symTbl, strTbl, rfl, hwhole, hnone⟩
      · rintro ⟨symTbl', strTbl', heq, -, hnone⟩
        obtain ⟨hpair, rfl⟩ := Prod.mk.inj (Except.ok.inj heq)
        obtain ⟨rfl, rfl⟩ := Prod.mk.inj hpair
        exact ⟨hnone, rfl⟩

/-- **The search for a symbol** accesses nothing outside exactly when its
comparisons stay inside. -/
theorem inside_findSymbolFrom {names : Shdr} (hcount : sections.length = eh.eShnum)
    (hnames : sections[eh.eShstrndx]? = some names) (n : Nat) : ∀ i s, i + n = sections.length →
    ((findSymbolFrom env name eh sections n i).Inside s ↔ SearchInside env eh sections name (sections.drop i) s) := by
  induction n with
  | zero =>
    intro i s hi
    rw [List.drop_eq_nil_of_le (by omega)]
    exact ⟨fun _ => trivial, fun _ => inside_pure _ s⟩
  | succ n ih =>
    intro i s hi
    have hlt : i < sections.length := by omega
    have hsh : sections[i]? = some sections[i] := List.getElem?_eq_getElem hlt
    rw [List.drop_eq_getElem_cons hlt]
    generalize sections[i] = sh at hsh
    unfold findSymbolFrom
    rw [inside_bind_ok (index_ok hsh s), SearchInside]
    by_cases hsymtab : sh.isSymtab = true
    · rw [if_pos hsymtab, if_pos hsymtab, inside_bind]
      constructor
      · rintro ⟨hinside, hnext⟩ symTbl strTbl s₁ htables
        have htable := (inside_findSymbolInSection hcount hnames hsh).1 hinside symTbl strTbl s₁ htables
        split at htable
        next hsize =>
          rw [if_pos hsize]
          intro names' shStr s₂ hnames'
          obtain rfl := Option.some.inj (hnames.symm.trans hnames')
          exact htable shStr s₂
        next hsize =>
          rw [if_neg hsize]
          refine ⟨htable, fun hnone => (ih (i + 1) s₁ (by omega)).1 ?_⟩
          exact hnext none s₁ ((findSymbolInSection_none hsh hinside).2 ⟨symTbl, strTbl, htables, not_not.1 hsize, hnone⟩)
      · intro h
        have hinside : (findSymbolInSection env name eh sections i).Inside s := by
          refine (inside_findSymbolInSection hcount hnames hsh).2 fun symTbl strTbl s₁ htables => ?_
          have htable := h symTbl strTbl s₁ htables
          split at htable
          next hsize =>
            rw [if_pos hsize]
            exact fun shStr s₂ => htable names shStr s₂ hnames
          next hsize =>
            rw [if_neg hsize]
            exact htable.1
        refine ⟨hinside, fun result s₁ hresult => ?_⟩
        cases result with
        | some sym => exact inside_pure _ s₁
        | none =>
          obtain ⟨symTbl, strTbl, htables, hwhole, hnone⟩ := (findSymbolInSection_none hsh hinside).1 hresult
          have htable := h symTbl strTbl s₁ htables
          rw [if_neg (not_not_intro hwhole)] at htable
          exact (ih (i + 1) s₁ (by omega)).2 (htable.2 hnone)
    · rw [if_neg hsymtab, if_neg hsymtab]
      exact ih (i + 1) s (by omega)

theorem inside_findSymbol {names : Shdr} (hcount : sections.length = eh.eShnum)
    (hnames : sections[eh.eShstrndx]? = some names) :
    (findSymbol env name eh sections).Inside s ↔ SearchInside env eh sections name sections s := by
  unfold findSymbol
  have hloop : (findSymbolFrom env name eh sections eh.eShnum 0).Inside s ↔ SearchInside env eh sections name (sections.drop 0) s :=
    inside_findSymbolFrom hcount hnames eh.eShnum 0 s (by omega)
  rw [inside_bind, hloop, List.drop_zero, and_iff_left]
  intro result s₁ _
  cases result with
  | some sym => exact inside_pure _ s₁
  | none => exact inside_bind.2 ⟨inside_test _ s₁, fun _ s₂ _ => inside_pure _ s₂⟩

end Search

end Tyche.Elf
