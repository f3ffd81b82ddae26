/-
What a process that uses the loader holds: its library, the structures of its
enclaves, and what calls that ended left behind.

Nothing is released twice, but by a load whose file fails to close. The file stays mapped
when a load fails, the descriptor of the driver stays open when an enclave is
deleted.
-/
import Mathlib.Tactic.Abel
import Tyche.Loader.Image
import Tyche.Loader.Tracing

namespace Tyche.Loader

open Tyche.Elf
open Tyche.Ledger (Op Turns after)
open Tyche.Pts (Outcome)

/-! ## Allocations -/

section Allocations

variable {α β : Type} {x : Action α} {f : α → Action β} {n : Nat} {m : β → Nat}

/-- The action makes so many allocations. -/
def Allocates (x : Action α) (n : α → Nat) : Prop := ∀ s a s', x s = .ok (a, s') → s'.allocs = s.allocs + n a

theorem allocates_pure (a : α) : Allocates (pure a) fun _ => 0 := by
  intro s b s' h
  cases h
  rfl

theorem Allocates.bind (hx : Allocates x fun _ => n) (hf : ∀ a, Allocates (f a) m) : Allocates (x >>= f) fun b => n + m b := by
  intro s b s' h
  obtain ⟨a, s₁, hfirst, hrest⟩ := bind_eq_ok.1 h
  rw [hf a s₁ b s' hrest, hx s a s₁ hfirst, Nat.add_assoc]

theorem allocates_test (cond : Prop) [Decidable cond] : Allocates (test cond) fun _ => 0 := by
  intro s a s' h
  unfold test at h
  split at h
  · cases h
    rfl
  · cases h

theorem allocates_index {elems : List α} {i : Nat} : Allocates (index elems i) fun _ => 0 := by
  intro s a s' h
  rw [(index_eq_ok h).2, Nat.add_zero]

variable {env : Env}

theorem allocates_malloc (size : Nat) : Allocates (malloc env size) fun _ => 1 := by
  intro s a s' h
  unfold malloc at h
  split at h
  · cases h
    rfl
  · cases h

theorem allocates_lseek (off : Nat) : Allocates (lseek env off) fun _ => 0 := by
  intro s a s' h
  unfold lseek at h
  split at h
  · cases h
    rfl
  split at h
  · cases h
    rfl
  · cases h

theorem allocates_read (len : Nat) : Allocates (read env len) fun _ => 0 := by
  intro s a s' h
  cases h
  rfl

theorem allocates_readSection64 (sh : Shdr) : Allocates (readSection64 env sh) fun _ => 1 :=
  (allocates_malloc sh.shSize).bind fun _ => (allocates_lseek sh.shOffset).bind fun _ => (allocates_read sh.shSize).bind fun bytes =>
    (allocates_test _).bind fun _ => allocates_pure bytes

variable {symbol : List UInt8} {eh : Ehdr} {sections : List Shdr}

theorem allocates_readTables (sh : Shdr) : Allocates (readTables env eh sections sh) fun _ => 2 :=
  (allocates_readSection64 sh).bind fun _ => (allocates_test _).bind fun _ => allocates_index.bind fun linked =>
    (allocates_readSection64 linked).bind fun strTbl => allocates_pure (_, strTbl)

theorem allocates_strcmpAt (table : List UInt8) (off : Nat) : Allocates (strcmpAt symbol table off) fun _ => 0 := by
  unfold strcmpAt
  split
  · exact allocates_pure _
  · intro s a s' h
    cases h

/-- The symbol that is found is copied. -/
theorem allocates_searchSymbols (strTbl : List UInt8) (syms : List Sym) :
    Allocates (searchSymbols env symbol strTbl syms) fun result => result.toList.length := by
  induction syms with
  | nil =>
    intro s result s' h
    cases h
    rfl
  | cons sym rest ih =>
    intro s result s' h
    obtain ⟨equal, s₁, hequal, h⟩ := bind_eq_ok.1 h
    have hcompared : s₁.allocs = s.allocs := allocates_strcmpAt _ _ s equal s₁ hequal
    split at h
    · obtain ⟨_, s₂, hmalloc, h⟩ := bind_eq_ok.1 h
      obtain ⟨rfl, rfl⟩ := pure_eq_ok.1 h
      rw [allocates_malloc _ _ _ _ hmalloc, hcompared]
      rfl
    · rw [ih s₁ result s' h, hcompared]

/-- `find_symbol_in_section` allocates its two tables and the symbol. -/
theorem allocates_findSymbolInSection (idx : Nat) :
    Allocates (findSymbolInSection env symbol eh sections idx) fun result => 2 + result.toList.length := by
  intro s result s' h
  obtain ⟨sh, s₁, hindex, h⟩ := bind_eq_ok.1 h
  have h₁ : s₁.allocs = s.allocs := allocates_index s sh s₁ hindex
  obtain ⟨⟨symTbl, strTbl⟩, s₂, htables, h⟩ := bind_eq_ok.1 h
  have h₂ : s₂.allocs = s₁.allocs + 2 := allocates_readTables sh s₁ _ s₂ htables
  dsimp only at h
  split at h
  · -- The section is printed, and the test after it fails.
    next hsize =>
    obtain ⟨_, s₃, -, h⟩ := bind_eq_ok.1 h
    rw [bind_error (test_failed hsize s₃)] at h
    cases h
  · obtain ⟨_, s₃, htest, h⟩ := bind_eq_ok.1 h
    have h₃ : s₃.allocs = s₂.allocs := allocates_test _ s₂ _ s₃ htest
    rw [allocates_searchSymbols strTbl _ s₃ result s' h, h₃, h₂, h₁, Nat.add_assoc]

/-! ## Symbols -/

variable {at_ : Nat → Nat}

/-- What is recorded is as much as is allocated. -/
theorem recording_length {n : α → Nat} (hx : Allocates x n) {s s' : Process} {a : α} {allocated : List Nat}
    (h : recording at_ x s = .ok ((a, allocated), s')) : allocated.length = n a := by
  unfold recording at h
  rcases hrun : x s with reason | ⟨b, t⟩
  · rw [hrun] at h
    cases h
  · rw [hrun] at h
    cases h
    rw [List.length_map, List.length_range', hx s a s' hrun, Nat.add_sub_cancel_left]

/-- The tables of a section are freed, and the symbol is held. -/
theorem findSymbolInSectionOps_turns {idx : Nat} {result : Option Sym} {found : List Nat} {ops : Ops} {s s' : Process}
    (h : findSymbolInSectionOps at_ env symbol eh sections idx s = .ok ((result, found, ops), s')) :
    Turns ops 0 (blocks found) ∧ (result = none → found = []) := by
  obtain ⟨⟨result', allocated⟩, s₁, hrecord, h⟩ := bind_eq_ok.1 h
  cases h
  refine ⟨?_, ?_⟩
  · have hall : (blocks allocated : Multiset Resource) = blocks (allocated.take 2) + blocks (allocated.drop 2) := by
      rw [blocks, blocks, blocks, Multiset.coe_add, ← List.map_append, List.take_append_drop]
    have hfreed := (Ledger.turns_releases (blocks (allocated.take 2))).frame (blocks (allocated.drop 2))
    rw [← hall, zero_add] at hfreed
    exact (Ledger.turns_acquires _).append hfreed
  · intro hnone
    have hlength := recording_length (allocates_findSymbolInSection idx) hrecord
    rw [hnone] at hlength
    exact List.drop_eq_nil_of_le hlength.le

/-- The sections that are searched in vain leave nothing. -/
theorem findSymbolFromOps_turns (n : Nat) : ∀ {i : Nat} {result : Option Sym} {found : List Nat} {ops : Ops} {s s' : Process},
    findSymbolFromOps at_ env symbol eh sections n i s = .ok ((result, found, ops), s') →
    Turns ops 0 (blocks found) ∧ (result = none → found = []) := by
  induction n with
  | zero =>
    intro i result found ops s s' h
    cases h
    exact ⟨.nil 0, fun _ => rfl⟩
  | succ n ih =>
    intro i result found ops s s' h
    obtain ⟨sh, s₁, -, h⟩ := bind_eq_ok.1 h
    split at h
    · obtain ⟨⟨result₁, found₁, ops₁⟩, s₂, hsection, h⟩ := bind_eq_ok.1 h
      obtain ⟨hturns, hnone⟩ := findSymbolInSectionOps_turns hsection
      cases result₁ with
      | some sym =>
        cases h
        exact ⟨hturns, fun hresult => by cases hresult⟩
      | none =>
        obtain ⟨⟨result₂, found₂, ops₂⟩, s₃, hrest, h⟩ := bind_eq_ok.1 h
        cases h
        obtain ⟨hturns', hnone'⟩ := ih hrest
        rw [hnone rfl] at hturns
        exact ⟨hturns.append hturns', hnone'⟩
    · exact ih h

/-- A search that ends found the symbol. -/
theorem findSymbolOps_turns {result : Option Sym} {found : List Nat} {ops : Ops} {s s' : Process}
    (h : findSymbolOps at_ env symbol eh sections s = .ok ((result, found, ops), s')) : Turns ops 0 (blocks found) ∧ result ≠ none := by
  obtain ⟨⟨result', found', ops'⟩, s₁, hfrom, h⟩ := bind_eq_ok.1 h
  obtain ⟨hturns, -⟩ := findSymbolFromOps_turns eh.eShnum hfrom
  cases result' with
  | some sym =>
    cases h
    exact ⟨hturns, by simp⟩
  | none =>
    obtain ⟨_, s₂, htest, -⟩ := bind_eq_ok.1 h
    rw [test_failed (by simp)] at htest
    cases htest

end Allocations

/-! ## What a structure holds -/

def Parsed.holds (parsed : Parsed) : Multiset Resource :=
  blocks parsed.segments + blocks parsed.sections + blocks parsed.entryPoint

/-- The arrays and the mappings of the segments. -/
def Loaded.tables (encl : Loaded) : Multiset Resource :=
  {.block encl.mappingsAt} + {.block encl.sizesAt} + mapped encl.mappings

def Loaded.holds (encl : Loaded) : Multiset Resource := encl.parsed.holds + encl.tables + {.file encl.driverFd}

def Plugged.holds (plugged : Plugged) : Multiset Resource :=
  {.mapping plugged.lib.plugin plugged.lib.size} + blocks plugged.at_

/-- What `create_enclave` leaves, by its label. -/
def Loaded.leftBy (encl : Loaded) : Label → Multiset Resource
  | .done => encl.tables + {.file encl.driverFd}
  | .fail => encl.tables
  | .failClose => encl.tables
  | .failFree => {.block encl.sizesAt} + mapped encl.mappings
  | .failUnmap => 0

/-- What is left of a load: what its structure holds, if it returns 0. -/
def Exit.left : Exit → Multiset Resource
  | .file => 0
  | .parse content => {content}
  | .map content parsed => {content} + blocks parsed.entryPoint
  | .create content label _ encl => {content} + blocks encl.parsed.entryPoint + encl.leftBy label
  | .unmap content encl => {content} + blocks encl.parsed.entryPoint + encl.leftBy .done
  | .close encl => blocks encl.parsed.entryPoint + encl.leftBy .done
  | .done encl => encl.holds

/-! ## The calls -/

section Calls

variable {ops ops' : Ops} {p q r : Multiset Resource}

theorem turns_acquires (rs : List Resource) : Turns (acquires rs) 0 (rs : Multiset Resource) := Ledger.turns_acquires rs

theorem turns_releases (rs : List Resource) : Turns (releases rs) (rs : Multiset Resource) 0 := Ledger.turns_releases rs

theorem coe_blocks_append (l l' : List Nat) : (blocks (l ++ l') : Multiset Resource) = blocks l + blocks l' := by
  rw [blocks, List.map_append, ← Multiset.coe_add]
  rfl

/-- The segments, the sections and their names are read, and the names freed. -/
theorem reads_turns (segmentsAt sectionsAt namesAt : List Nat) :
    Turns (acquires (blocks (segmentsAt ++ sectionsAt ++ namesAt)) ++ releases (blocks namesAt)) 0
      (blocks segmentsAt + blocks sectionsAt) := by
  have hacquired := turns_acquires (blocks (segmentsAt ++ sectionsAt ++ namesAt))
  have hfreed := (turns_releases (blocks namesAt)).frame (blocks segmentsAt + blocks sectionsAt)
  rw [coe_blocks_append, coe_blocks_append, Multiset.add_comm] at hacquired
  rw [zero_add] at hfreed
  exact hacquired.append hfreed

/-- `parse_enclave` frees what it read when it finds no stack. -/
theorem parseEntryOps_turns {at_ : Nat → Nat} {env : Env} {encl encl' : LoadEncl} {segments sections : List Nat} {ret : Int}
    {parsed : Parsed} {s s' : Process} (h : parseEntryOps at_ env encl segments sections s = .ok (((ret, encl'), parsed, ops), s')) :
    ret ≠ 0 ∧ Turns ops (blocks segments + blocks sections) 0 ∨
      ret = 0 ∧ Turns ops (blocks segments + blocks sections) parsed.holds := by
  unfold parseEntryOps at h
  split at h
  · cases h
    have hsections := ((turns_releases (blocks sections)).frame (blocks segments)).of_eq (add_comm _ _) (zero_add _)
    exact .inl ⟨by decide, hsections.append (turns_releases (blocks segments))⟩
  · obtain ⟨⟨entryPoint, found, ops₁⟩, s₁, hfound, h⟩ := bind_eq_ok.1 h
    cases h
    have hframed := (findSymbolOps_turns hfound).1.frame (blocks segments + blocks sections)
    exact .inr ⟨rfl, hframed.of_eq (zero_add _) (add_comm _ _)⟩

theorem parseEnclaveOps_turns {at_ : Nat → Nat} {env : Env} {encl encl' : LoadEncl} {ret : Int} {parsed : Parsed} {s s' : Process}
    (h : parseEnclaveOps at_ env encl s = .ok (((ret, encl'), parsed, ops), s')) :
    ret ≠ 0 ∧ Turns ops 0 0 ∨ ret = 0 ∧ Turns ops 0 parsed.holds := by
  unfold parseEnclaveOps at h
  split at h
  · cases h
    exact .inl ⟨by decide, .nil 0⟩
  obtain ⟨header, s₁, -, h⟩ := bind_eq_ok.1 h
  obtain ⟨⟨segments, segmentsAt⟩, s₂, -, h⟩ := bind_eq_ok.1 h
  obtain ⟨⟨sections, sectionsAt⟩, s₃, -, h⟩ := bind_eq_ok.1 h
  obtain ⟨names, s₄, -, h⟩ := bind_eq_ok.1 h
  obtain ⟨⟨shNames, namesAt⟩, s₅, -, h⟩ := bind_eq_ok.1 h
  obtain ⟨found, s₆, -, h⟩ := bind_eq_ok.1 h
  obtain ⟨⟨⟨ret', encl₁⟩, parsed', ops'⟩, s₇, hentry, h⟩ := bind_eq_ok.1 h
  cases h
  have hread := reads_turns segmentsAt sectionsAt namesAt
  exact (parseEntryOps_turns hentry).imp (fun hfail => ⟨hfail.1, hread.append hfail.2⟩) fun hdone => ⟨hdone.1, hread.append hdone.2⟩

/-- `map_enclave` unmaps and frees all when it fails. -/
theorem mapEnclaveOps_turns {host : Host} {mappingsAt sizesAt : Nat} {enclave enclave' : LoadEncl} {ret : Int}
    (h : mapEnclaveOps host mappingsAt sizesAt enclave = .ok ((ret, enclave'), ops)) :
    ret ≠ 0 ∧ Turns ops 0 0 ∨
      ret = 0 ∧ Turns ops 0 ({.block mappingsAt} + {.block sizesAt} + mapped enclave'.mappings) := by
  have hacquired : ∀ mappings : List (Option Mapping), Turns
      (.acquire (.block mappingsAt) :: .acquire (.block sizesAt) :: acquires (mapped mappings)) 0
      ({.block mappingsAt} + {.block sizesAt} + mapped mappings) := by
    intro mappings
    have hlist := turns_acquires (.block mappingsAt :: .block sizesAt :: mapped mappings)
    rwa [← Multiset.cons_coe, ← Multiset.cons_coe, ← Multiset.singleton_add, ← Multiset.singleton_add, ← add_assoc] at hlist
  unfold mapEnclaveOps at h
  split at h
  · cases h
    exact .inl ⟨by decide, .nil 0⟩
  split at h
  · cases h
    exact .inl ⟨by decide, (Ledger.turns_acquire _).append (Ledger.turns_release _)⟩
  split at h
  · cases h
    exact .inr ⟨rfl, hacquired _⟩
  next mappings heq =>
    cases h
    have hunmapped := (turns_releases (mapped mappings)).frame ({.block mappingsAt} + {.block sizesAt})
    have hfreed := turns_releases [.block sizesAt, .block mappingsAt]
    refine .inl ⟨by decide, (hacquired mappings).append ((hunmapped.of_eq (add_comm _ _) (zero_add _)).append (hfreed.of_eq ?_ rfl))⟩
    rw [add_comm, Multiset.singleton_add]
    rfl
  · cases h

/-- The path of `create_enclave` to its label. -/
theorem createEnclaveLabel_cases {env : Enclave.Env} {pid : Nat} {load : Load} {library : Library} {enclave : LoadEncl} {c c' : Client}
    {ret : Int} {label : Label} (h : createEnclaveLabel env pid load library enclave c = ((.ret ret, c'), label)) :
    load.driverOpened = false ∧ ret ≠ 0 ∧ label = .fail ∨
      load.driverOpened = true ∧ (ret = 0 ∧ label = .done ∨ ret ≠ 0 ∧ (label = .failClose ∨ label = .failFree ∨ label = .failUnmap)) := by
  have hgoto : ∀ {r : Outcome Int × Client} {label₁ label : Label} {next : Client → (Outcome Int × Client) × Label},
      orGoto r label₁ next = ((.ret ret, c'), label) → ret ≠ 0 ∧ label = label₁ ∨ ∃ c₁, next c₁ = ((.ret ret, c'), label) := by
    intro r label₁ label next h
    unfold orGoto at h
    split at h
    · split at h
      · cases h
        exact .inl ⟨by decide, rfl⟩
      · exact .inr ⟨_, h⟩
    next hother =>
      obtain ⟨out, c₁⟩ := r
      cases h
      exact absurd rfl (hother ret c')
  unfold createEnclaveLabel at h
  split at h
  next hclosed =>
    cases h
    exact .inl ⟨hclosed, by decide, rfl⟩
  next hopened =>
    refine .inr ⟨by simpa using hopened, ?_⟩
    split at h
    · split at h
      · cases h
        exact .inr ⟨by decide, .inl rfl⟩
      · rcases hgoto h with ⟨hne, rfl⟩ | ⟨c₁, h⟩
        · exact .inr ⟨hne, .inr (.inl rfl)⟩
        rcases hgoto h with ⟨hne, rfl⟩ | ⟨c₂, h⟩
        · exact .inr ⟨hne, .inr (.inl rfl)⟩
        rcases hgoto h with ⟨hne, rfl⟩ | ⟨c₃, h⟩
        · exact .inr ⟨hne, .inr (.inr rfl)⟩
        rcases hgoto h with ⟨hne, rfl⟩ | ⟨c₄, h⟩
        · exact .inr ⟨hne, .inr (.inr rfl)⟩
        cases h
        exact .inl ⟨rfl, rfl⟩
    next hother =>
      have heq := congrArg Prod.fst h
      exact absurd heq (hother ret c')

/-- A load that fails frees what `parse_enclave` read, but for the symbol. -/
theorem read_turns (parsed : Parsed) :
    Turns (releases (blocks parsed.sections) ++ releases (blocks parsed.segments)) parsed.holds (blocks parsed.entryPoint) := by
  have hsections := (turns_releases (blocks parsed.sections)).frame (blocks parsed.segments + blocks parsed.entryPoint)
  have hsegments := (turns_releases (blocks parsed.segments)).frame (blocks parsed.entryPoint)
  refine (hsections.of_eq ?_ (zero_add _)).append (hsegments.of_eq rfl (zero_add _))
  unfold Parsed.holds
  abel

/-- It closes the file. -/
theorem freed_turns (parsed : Parsed) (elfFd : Nat) :
    Turns (releases (blocks parsed.sections) ++ releases (blocks parsed.segments) ++ [.release (.file elfFd)])
      (parsed.holds + {.file elfFd}) (blocks parsed.entryPoint) := by
  have hfile := (Ledger.turns_release (Resource.file elfFd)).frame (blocks parsed.entryPoint)
  exact ((read_turns parsed).frame {.file elfFd}).append (hfile.of_eq (add_comm _ _) (zero_add _))

/-- What `create_enclave` does from its label on. -/
theorem cleanup_turns (encl : Loaded) {label : Label} (h : label ≠ .fail) :
    Turns (encl.cleanup label) (encl.tables + {.file encl.driverFd}) (encl.leftBy label) := by
  have hfile := Ledger.turns_release (Resource.file encl.driverFd)
  have hmappings := (Ledger.turns_release (Resource.block encl.mappingsAt)).frame {.file encl.driverFd}
  have hsizes := (Ledger.turns_release (Resource.block encl.sizesAt)).frame ({.block encl.mappingsAt} + {.file encl.driverFd})
  have hmapped := (turns_releases (mapped encl.mappings)).frame
    ({.block encl.sizesAt} + ({.block encl.mappingsAt} + {.file encl.driverFd}))
  unfold Loaded.tables
  cases label with
  | done => exact .nil _
  | fail => exact absurd rfl h
  | failClose =>
    refine (hfile.frame encl.tables).of_eq ?_ (zero_add _)
    exact add_comm _ _
  | failFree =>
    refine ((hmappings.of_eq rfl (zero_add _)).append hfile |>.frame ({.block encl.sizesAt} + mapped encl.mappings)).of_eq ?_ (zero_add _)
    abel
  | failUnmap =>
    refine (hmapped.of_eq ?_ (zero_add _)).append
      ((hsizes.of_eq rfl (zero_add _)).append ((hmappings.of_eq rfl (zero_add _)).append hfile))
    abel

section Exits

variable (encl : Loaded) (elfFd : Nat) (content : Resource)

/-- What a load holds beside its tables, while the file is open and mapped. -/
def Loaded.pending : Multiset Resource := encl.parsed.holds + ({.file elfFd} + {content})

/-- A load that fails frees what it read and closes the file, which stays mapped. -/
theorem Loaded.pending_freed (rest : Multiset Resource) :
    Turns (releases (blocks encl.parsed.sections) ++ releases (blocks encl.parsed.segments) ++ [.release (.file elfFd)])
      (rest + encl.pending elfFd content) ({content} + blocks encl.parsed.entryPoint + rest) := by
  refine ((freed_turns encl.parsed elfFd).frame (rest + {content})).of_eq ?_ ?_
  · unfold Loaded.pending
    abel
  · abel

/-- The file is unmapped and closed. -/
theorem Loaded.pending_closed : Turns [.release content, .release (.file elfFd)]
    (encl.tables + {.file encl.driverFd} + encl.pending elfFd content) encl.holds := by
  have hcontent := (Ledger.turns_release content).frame ({.file elfFd} + encl.holds)
  have hfile := (Ledger.turns_release (Resource.file elfFd)).frame encl.holds
  refine (hcontent.of_eq ?_ (zero_add _)).append (hfile.of_eq rfl (zero_add _))
  unfold Loaded.pending Loaded.holds
  abel

/-- What `parse_enclave` read is freed, but for the symbol. -/
theorem Loaded.read_freed : Turns (releases (blocks encl.parsed.sections) ++ releases (blocks encl.parsed.segments)) encl.holds
    (blocks encl.parsed.entryPoint + encl.leftBy .done) := by
  refine ((read_turns encl.parsed).frame (encl.tables + {.file encl.driverFd})).of_eq ?_ rfl
  unfold Loaded.holds
  abel

end Exits

section Load

variable {env : Enclave.Env} {pid : Nat} {call : LoadCall} {c c' : Client} {ret : Int} {exit : Exit}

/-- The operations leave what the failure says, but that the file is closed a
second time when the first fails. -/
def Leaves (closed : Bool) (elfFd : Nat) (ops : Ops) (needs : Multiset Resource) (exit : Exit) : Prop :=
  (∀ encl, exit ≠ .close encl) ∧ Turns ops needs exit.left ∨
    closed = false ∧ (∃ encl, exit = .close encl) ∧ ∃ before, ops = before ++ [.release (.file elfFd)] ∧ Turns before needs exit.left

/-- A load, once the file is mapped into memory. -/
theorem loadFileOps_leaves {library : Library} {elfFd addr : Nat} {elf : Env}
    (h : loadFileOps env pid call library elfFd elf addr c = .ok ((.ret ret, c'), exit, ops)) :
    Leaves call.closed elfFd ops ({.file elfFd} + {.mapping addr elf.file.bytes.length}) exit ∧ (ret = 0 ↔ ∃ encl, exit = .done encl) := by
  unfold loadFileOps at h
  dsimp only at h
  rcases hparse : parseEnclaveOps call.block elf (.opened elfFd elf.file.bytes) ⟨0, 0⟩ with reason | ⟨⟨⟨parseRet, enclave⟩, parsed, parseOps⟩, p⟩
  · rw [hparse] at h
    cases h
  rw [hparse] at h
  dsimp only at h
  rcases parseEnclaveOps_turns hparse with ⟨hne, hparsed⟩ | ⟨rfl, hparsed⟩
  · rw [if_pos hne] at h
    cases h
    have hstart := hparsed.frame ({.file elfFd} + {.mapping addr elf.file.bytes.length})
    have hend := (Ledger.turns_release (Resource.file elfFd)).frame {.mapping addr elf.file.bytes.length}
    exact ⟨.inl ⟨by simp, (hstart.of_eq (zero_add _) (zero_add _)).append (hend.of_eq rfl (zero_add _))⟩, by simp⟩
  rw [if_neg (by simp)] at h
  have hstart := (hparsed.frame ({.file elfFd} + {.mapping addr elf.file.bytes.length})).of_eq (zero_add _) rfl
  rcases hmap : mapEnclaveOps call.host call.mappingsAt call.sizesAt enclave with reason | ⟨⟨mapRet, mapped'⟩, mapOps⟩
  · rw [hmap] at h
    cases h
  rw [hmap] at h
  dsimp only at h
  rcases mapEnclaveOps_turns hmap with ⟨hne, hmapped⟩ | ⟨rfl, hmapped⟩
  · rw [if_pos hne] at h
    cases h
    have hmiddle := (hmapped.frame (parsed.holds + ({.file elfFd} + {.mapping addr elf.file.bytes.length}))).of_eq (zero_add _) (zero_add _)
    have hend := (freed_turns parsed elfFd).frame {.mapping addr elf.file.bytes.length}
    exact ⟨.inl ⟨by simp, hstart.append (hmiddle.append (hend.of_eq (add_assoc _ _ _) (add_comm _ _)))⟩, by simp⟩
  rw [if_neg (by simp)] at h
  let encl : Loaded := ⟨c.driver.tycheIds, call.driverFd.getD 0, parsed, mapped'.mappings, call.mappingsAt, call.sizesAt⟩
  let content : Resource := .mapping addr elf.file.bytes.length
  have hmiddle : Turns mapOps (encl.pending elfFd content) (encl.tables + encl.pending elfFd content) :=
    (hmapped.frame (encl.pending elfFd content)).of_eq (zero_add _) rfl
  have hloaded := hstart.append hmiddle
  rcases hcreate : createEnclaveLabel env pid call.load library mapped' c with ⟨⟨createRet | _ | _, c₁⟩, label⟩
  · rw [hcreate] at h
    dsimp only at h
    simp only [← List.append_assoc parseOps mapOps] at h
    rcases createEnclaveLabel_cases hcreate with ⟨hnot, hne, rfl⟩ | ⟨hopened, hcase⟩
    · -- The driver is not opened.
      have hnone : call.driverFd = none := by simpa [LoadCall.load] using hnot
      rw [if_pos hne, hnone] at h
      cases h
      exact ⟨.inl ⟨by simp, hloaded.append (encl.pending_freed elfFd content encl.tables)⟩, by simp⟩
    obtain ⟨fd, hfd⟩ : ∃ fd, call.driverFd = some fd := Option.isSome_iff_exists.1 hopened
    have hdriver : encl.driverFd = fd := by
      show call.driverFd.getD 0 = fd
      rw [hfd]
      rfl
    have hopen : Turns (acquires (call.driverFd.toList.map .file)) (encl.tables + encl.pending elfFd content)
        (encl.tables + {.file encl.driverFd} + encl.pending elfFd content) := by
      rw [hfd, hdriver]
      refine ((Ledger.turns_acquire (Resource.file fd)).frame (encl.tables + encl.pending elfFd content)).of_eq (zero_add _) ?_
      abel
    have hready := hloaded.append hopen
    simp only [← List.append_assoc (parseOps ++ mapOps)] at h
    rcases hcase with ⟨rfl, rfl⟩ | ⟨hne, hlabel⟩
    · rw [if_neg (by simp)] at h
      split at h
      · -- The file stays mapped.
        cases h
        exact ⟨.inl ⟨by simp, hready.append (encl.pending_freed elfFd content (encl.tables + {.file encl.driverFd}))⟩, by simp⟩
      split at h
      next hfails =>
        -- The file is closed, and what `parse_enclave` read is freed.
        cases h
        refine ⟨.inr ⟨hfails, ⟨encl, rfl⟩, _, ?_, (hready.append (encl.pending_closed elfFd content)).append encl.read_freed⟩, by simp⟩
        simp only [List.append_assoc, List.cons_append, List.nil_append]
        rfl
      next =>
        cases h
        exact ⟨.inl ⟨by simp, hready.append (encl.pending_closed elfFd content)⟩, by simp⟩
    · rw [if_pos hne] at h
      cases h
      have hnot : label ≠ .fail := by rcases hlabel with rfl | rfl | rfl <;> decide
      have hcleanup := (cleanup_turns encl hnot).frame (encl.pending elfFd content)
      exact ⟨.inl ⟨by simp, hready.append (hcleanup.append (encl.pending_freed elfFd content (encl.leftBy label)))⟩, by simp⟩
  · rw [hcreate] at h
    cases h
  · rw [hcreate] at h
    cases h

/-- `mmap_file` leaves the file open and mapped, or nothing. -/
theorem mmapFile_turns {file : Option (Nat × Env × Nat)} (h : mmapFile call = (file, ops)) :
    file = none ∧ Turns ops 0 0 ∨ ∃ elfFd elf addr, file = some (elfFd, elf, addr) ∧ call.opened = some (elfFd, elf) ∧
      Turns ops 0 ({.file elfFd} + {.mapping addr elf.file.bytes.length}) := by
  unfold mmapFile at h
  split at h
  · cases h
    exact .inl ⟨rfl, .nil 0⟩
  next fd elf hopened =>
    have hnothing : Turns [.acquire (.file fd), .release (.file fd)] (0 : Multiset Resource) 0 :=
      (Ledger.turns_acquire _).append (Ledger.turns_release _)
    split at h
    · cases h
      exact .inl ⟨rfl, hnothing⟩
    split at h
    · cases h
      exact .inl ⟨rfl, hnothing⟩
    · cases h
      exact .inr ⟨fd, elf, _, rfl, hopened, turns_acquires [.file fd, .mapping _ elf.file.bytes.length]⟩

/-- **A load** leaves what its structure holds, or what its failure says. -/
theorem loadEnclaveOps_leaves (h : loadEnclaveOps env pid call c = .ok ((.ret ret, c'), exit, ops)) :
    ((∀ encl, exit ≠ .close encl) ∧ Turns ops 0 exit.left ∨
      ∃ elfFd elf, call.opened = some (elfFd, elf) ∧ Leaves call.closed elfFd ops 0 exit) ∧ (ret = 0 ↔ ∃ encl, exit = .done encl) := by
  unfold loadEnclaveOps at h
  rcases hlibrary : call.libraryPlugin with _ | library
  · rw [hlibrary] at h
    cases h
    exact ⟨.inl ⟨by simp, .nil 0⟩, by simp⟩
  rw [hlibrary] at h
  rcases hfile : mmapFile call with ⟨file, fileOps⟩
  rw [hfile] at h
  rcases mmapFile_turns hfile with ⟨rfl, hturns⟩ | ⟨elfFd, elf, addr, rfl, hopened, hturns⟩
  · cases h
    exact ⟨.inl ⟨by simp, hturns⟩, by simp⟩
  dsimp only at h
  rcases hrest : loadFileOps env pid call library elfFd elf addr c with reason | ⟨r, exit', ops'⟩
  · rw [hrest] at h
    cases h
  · rw [hrest] at h
    cases h
    obtain ⟨hleaves, hret⟩ := loadFileOps_leaves hrest
    refine ⟨.inr ⟨elfFd, elf, hopened, ?_⟩, hret⟩
    rcases hleaves with ⟨hnot, hleft⟩ | ⟨hfails, hclose, before, rfl, hleft⟩
    · exact .inl ⟨hnot, hturns.append hleft⟩
    · exact .inr ⟨hfails, hclose, fileOps ++ before, (List.append_assoc ..).symm, hturns.append hleft⟩

theorem loadEnclaveOps_turns (hclosed : call.closed = true) (h : loadEnclaveOps env pid call c = .ok ((.ret ret, c'), exit, ops)) :
    Turns ops 0 exit.left ∧ (ret = 0 ↔ ∃ encl, exit = .done encl) := by
  obtain ⟨hleaves, hret⟩ := loadEnclaveOps_leaves h
  refine ⟨?_, hret⟩
  rcases hleaves with ⟨-, hturns⟩ | ⟨elfFd, elf, -, ⟨-, hturns⟩ | ⟨hfails, -⟩⟩
  · exact hturns
  · exact hturns
  · rw [hclosed] at hfails
    cases hfails

theorem file_notMem_blocks (fd : Nat) (ps : List Nat) : Resource.file fd ∉ blocks ps := by
  simp [blocks]

theorem file_notMem_mapped (fd : Nat) (mappings : List (Option Mapping)) : Resource.file fd ∉ mapped mappings := by
  simp [mapped]

/-- **A load whose file fails to close** closes it twice, and the second time it is not held. -/
theorem load_closes_twice {encl : Loaded} {elfFd : Nat} {elf : Env}
    (h : loadEnclaveOps env pid call c = .ok ((.ret ret, c'), .close encl, ops)) (hopened : call.opened = some (elfFd, elf))
    (hdriver : encl.driverFd ≠ elfFd) {held : Multiset Resource} (hheld : .file elfFd ∉ held) : after ops held = none := by
  obtain ⟨hleaves, -⟩ := loadEnclaveOps_leaves h
  rcases hleaves with ⟨hnot, -⟩ | ⟨fd, file, hopened', ⟨hnot, -⟩ | ⟨-, -, before, rfl, hbefore⟩⟩
  · exact absurd rfl (hnot encl)
  · exact absurd rfl (hnot encl)
  · obtain ⟨rfl, -⟩ := Prod.mk.inj (Option.some.inj (hopened.symm.trans hopened'))
    have hstate : after before held = some ((Exit.close encl).left + held) := by
      have hframed := hbefore held
      rwa [zero_add] at hframed
    have hnone : Resource.file elfFd ∉ (Exit.close encl).left + held := by
      simp only [Exit.left, Loaded.leftBy, Loaded.tables, Multiset.mem_add, Multiset.mem_singleton, not_or]
      simp [file_notMem_blocks, file_notMem_mapped, hdriver.symm, hheld]
    rw [Ledger.after_append, hstate]
    exact if_neg hnone

end Load

/-- A deletion leaves the descriptor of the driver. -/
theorem deleteEnclave_turns {env : Enclave.Env} {pid : Nat} {encl : Loaded} {c c' : Client} {ret : Int}
    (h : deleteEnclave env pid encl c = ((.ret ret, c'), ops)) :
    ret = 0 ∧ Turns ops encl.holds {.file encl.driverFd} ∨ ret ≠ 0 ∧ ops = [] := by
  unfold deleteEnclave at h
  split at h
  · split at h
    · cases h
      exact .inr ⟨by decide, rfl⟩
    · cases h
      have htables : Turns (releases (mapped encl.mappings) ++ [.release (.block encl.mappingsAt), .release (.block encl.sizesAt)])
          (encl.tables + {.file encl.driverFd}) {.file encl.driverFd} := by
        have hmapped := (turns_releases (mapped encl.mappings)).frame ({.block encl.mappingsAt} + {.block encl.sizesAt} + {.file encl.driverFd})
        have harrays := (turns_releases [.block encl.mappingsAt, .block encl.sizesAt]).frame {.file encl.driverFd}
        refine (hmapped.of_eq ?_ (zero_add _)).append (harrays.of_eq rfl (zero_add _))
        unfold Loaded.tables
        abel
      have hentry := (turns_releases (blocks encl.parsed.entryPoint)).frame (encl.tables + {.file encl.driverFd})
      have hsegments := (turns_releases (blocks encl.parsed.segments)).frame
        (blocks encl.parsed.entryPoint + (encl.tables + {.file encl.driverFd}))
      have hsections := (turns_releases (blocks encl.parsed.sections)).frame
        (blocks encl.parsed.segments + (blocks encl.parsed.entryPoint + (encl.tables + {.file encl.driverFd})))
      refine .inl ⟨rfl, (hsections.of_eq ?_ (zero_add _)).append ((hsegments.of_eq rfl (zero_add _)).append
        ((hentry.of_eq rfl (zero_add _)).append htables))⟩
      unfold Loaded.holds Parsed.holds
      abel
  next hother =>
    have heq := congrArg Prod.fst h
    exact absurd heq (hother ret c')

/-- A transition that the driver refuses leaves its descriptor. -/
theorem enclaveDriverTransition_turns {env : Enclave.Env} {pid : Nat} {driverFd : Option Nat} {transition : Enclave.Transition}
    {c c' : Client} {ret : Int} (h : enclaveDriverTransition env pid driverFd transition c = ((.ret ret, c'), ops)) :
    Turns ops 0 (if ret = 0 then 0 else ↑(driverFd.toList.map Resource.file)) := by
  unfold enclaveDriverTransition at h
  split at h
  · cases h
    exact .nil 0
  split at h
  · split at h
    · cases h
      exact Ledger.turns_acquire _
    · cases h
      exact (Ledger.turns_acquire _).append (Ledger.turns_release _)
  next hother =>
    have heq := congrArg Prod.fst h
    exact absurd heq (hother ret c')

/-- `init_enclave_loader`, once the segment of the text is found. -/
theorem readPluginOps_turns {at_ : Nat → Nat} {fd : Nat} {call : InitCall} {env : Env} {header : Ehdr} {sections : List Shdr}
    {textSeg : Phdr} {plugged : Option Plugged} {s s' : Process}
    (h : readPluginOps at_ fd call env header sections textSeg s = .ok ((plugged, ops), s')) :
    Turns ops {.file fd} ((plugged.map Plugged.holds).getD 0) := by
  have hfile := Ledger.turns_release (Resource.file fd)
  obtain ⟨⟨allocated, libAt⟩, s₁, -, h⟩ := bind_eq_ok.1 h
  dsimp only at h
  have hlib := ((turns_acquires (blocks libAt)).frame {.file fd}).of_eq (zero_add _) rfl
  have hfree := ((turns_releases (blocks libAt)).frame {.file fd}).of_eq rfl (zero_add _)
  split at h
  · cases h
    exact hfile
  split at h
  · cases h
  rcases hmmap : call.mmap (mappedSize textSeg) with _ | plugin
  · rw [hmmap] at h
    cases h
    exact hlib.append (hfree.append hfile)
  rw [hmmap] at h
  dsimp only at h
  have hmap := ((Ledger.turns_acquire (Resource.mapping plugin (mappedSize textSeg))).frame (blocks libAt + {.file fd})).of_eq (zero_add _) rfl
  have hunmap := ((Ledger.turns_release (Resource.mapping plugin (mappedSize textSeg))).frame (blocks libAt + {.file fd})).of_eq rfl (zero_add _)
  have hfailed := hunmap.append (hfree.append hfile)
  obtain ⟨sought, s₂, -, h⟩ := bind_eq_ok.1 h
  split at h
  · cases h
    exact hlib.append (hmap.append hfailed)
  obtain ⟨bytes, s₃, -, h⟩ := bind_eq_ok.1 h
  split at h
  · cases h
  split at h
  · cases h
    exact hlib.append (hmap.append hfailed)
  obtain ⟨⟨gate, found, ops₁⟩, s₄, hfound, h⟩ := bind_eq_ok.1 h
  obtain ⟨hfound, hsome⟩ := findSymbolOps_turns hfound
  have hsearch := (hfound.frame ({.mapping plugin (mappedSize textSeg)} + (blocks libAt + {.file fd}))).of_eq
    (zero_add _) rfl
  cases gate with
  | none => exact absurd rfl hsome
  | some gate =>
    cases h
    have hgate := ((turns_releases (blocks found)).frame ({.mapping plugin (mappedSize textSeg)} + (blocks libAt + {.file fd}))).of_eq
      rfl (zero_add _)
    have hclose := hfile.frame ({.mapping plugin (mappedSize textSeg)} + blocks libAt)
    refine hlib.append (hmap.append (hsearch.append (hgate.append (hclose.of_eq ?_ (zero_add _)))))
    abel

/-- What `library_plugin` holds. -/
def pluggedHolds (libraryPlugin : Option Plugged) : Multiset Resource := (libraryPlugin.map Plugged.holds).getD 0

/-- `init_enclave_loader`, on a file that is opened. -/
theorem readLibraryOps_turns {at_ : Nat → Nat} {fd : Nat} {call : InitCall} {env : Env} {plugged : Option Plugged} {left : List Nat}
    {s s' : Process} (h : readLibraryOps at_ fd call env s = .ok ((plugged, left, ops), s')) :
    Turns ops {.file fd} (pluggedHolds plugged + blocks left) := by
  obtain ⟨header, s₁, -, h⟩ := bind_eq_ok.1 h
  obtain ⟨⟨segments, segmentsAt⟩, s₂, -, h⟩ := bind_eq_ok.1 h
  obtain ⟨⟨sections, sectionsAt⟩, s₃, -, h⟩ := bind_eq_ok.1 h
  obtain ⟨names, s₄, -, h⟩ := bind_eq_ok.1 h
  obtain ⟨⟨shNames, namesAt⟩, s₅, -, h⟩ := bind_eq_ok.1 h
  obtain ⟨text, s₆, -, h⟩ := bind_eq_ok.1 h
  have hread := ((reads_turns segmentsAt sectionsAt namesAt).frame {.file fd}).of_eq (zero_add _) rfl
  have hleft : (blocks segmentsAt + blocks sectionsAt : Multiset Resource) = blocks (segmentsAt ++ sectionsAt) :=
    (coe_blocks_append segmentsAt sectionsAt).symm
  rw [hleft] at hread
  have hclose := ((Ledger.turns_release (Resource.file fd)).frame (blocks (segmentsAt ++ sectionsAt))).of_eq (add_comm _ _) rfl
  cases text with
  | none =>
    cases h
    exact hread.append hclose
  | some text =>
    dsimp only at h
    rcases hseg : segments.find? (holdsText text) with _ | textSeg
    · rw [hseg] at h
      cases h
      exact hread.append hclose
    · rw [hseg] at h
      obtain ⟨⟨result, ops₁⟩, s₇, hplugin, h⟩ := bind_eq_ok.1 h
      cases h
      exact hread.append (((readPluginOps_turns hplugin).frame (blocks (segmentsAt ++ sectionsAt))).of_eq (add_comm _ _) rfl)

/-- **A call of `init_enclave_loader`** leaves the segments and the sections that it read. -/
theorem initEnclaveLoaderOps_turns {at_ : Nat → Nat} {fd : Nat} {call : InitCall} {libraryPlugin plugged : Option Plugged}
    {left : List Nat} (h : initEnclaveLoaderOps at_ fd call libraryPlugin = .ok (plugged, left, ops)) :
    Turns ops (pluggedHolds libraryPlugin) (pluggedHolds plugged + blocks left) := by
  unfold initEnclaveLoaderOps at h
  cases libraryPlugin with
  | some plugin =>
    cases h
    exact (Turns.nil _).of_eq rfl (add_zero _).symm
  | none =>
    dsimp only at h
    rcases hfile : call.file with _ | env
    · rw [hfile] at h
      cases h
      exact (Turns.nil _).of_eq rfl (add_zero _).symm
    rw [hfile] at h
    dsimp only at h
    rcases hread : readLibraryOps at_ fd call env ⟨0, 0⟩ with reason | ⟨⟨result, left', ops'⟩, s'⟩
    · rw [hread] at h
      cases h
    · rw [hread] at h
      cases h
      exact (Ledger.turns_acquire _).append (readLibraryOps_turns hread)

end Calls

/-! ## A process -/

/-- How a call ended that left something behind. -/
inductive Ended
  | load (exit : Exit)
  | delete (encl : Loaded)
  | transition (driverFd : Option Nat)
  | init (left : List Nat)

/-- What it left. -/
def Ended.left : Ended → Multiset Resource
  | .load exit => exit.left
  | .delete encl => {.file encl.driverFd}
  | .transition driverFd => ↑(driverFd.toList.map Resource.file)
  | .init left => blocks left

/-- A process: its library, its enclaves, and its calls that ended. -/
structure Session where
  libraryPlugin : Option Plugged
  live : List Loaded
  ended : List Ended
  trace : Ops

/-- What the process holds. -/
def Session.holds (s : Session) : Multiset Resource :=
  pluggedHolds s.libraryPlugin + (s.live.map Loaded.holds).sum + (s.ended.map Ended.left).sum

/-- A call of the process, in any state of the driver, with any answers. The file
of a load closes when it is asked to. -/
inductive Session.Step (pid : Nat) (s : Session) : Session → Prop
  | init (at_ : Nat → Nat) (fd : Nat) (call : InitCall) (libraryPlugin : Option Plugged) (left : List Nat) (ops : Ops)
      (h : initEnclaveLoaderOps at_ fd call s.libraryPlugin = .ok (libraryPlugin, left, ops)) :
      Step pid s { s with libraryPlugin, ended := .init left :: s.ended, trace := s.trace ++ ops }
  | loaded (env : Enclave.Env) (call : LoadCall) (c c' : Client) (encl : Loaded) (ops : Ops) (hclosed : call.closed = true)
      (h : loadEnclaveOps env pid call c = .ok ((.ret 0, c'), .done encl, ops)) :
      Step pid s { s with live := encl :: s.live, trace := s.trace ++ ops }
  | failed (env : Enclave.Env) (call : LoadCall) (c c' : Client) (ret : Int) (exit : Exit) (ops : Ops) (hclosed : call.closed = true)
      (h : loadEnclaveOps env pid call c = .ok ((.ret ret, c'), exit, ops)) (hret : ret ≠ 0) :
      Step pid s { s with ended := .load exit :: s.ended, trace := s.trace ++ ops }
  | deleted (env : Enclave.Env) (c c' : Client) (before after : List Loaded) (encl : Loaded) (ops : Ops)
      (hlive : s.live = before ++ encl :: after) (h : deleteEnclave env pid encl c = ((.ret 0, c'), ops)) :
      Step pid s { s with live := before ++ after, ended := .delete encl :: s.ended, trace := s.trace ++ ops }
  | kept (env : Enclave.Env) (c c' : Client) (encl : Loaded) (ret : Int) (ops : Ops) (hlive : encl ∈ s.live)
      (h : deleteEnclave env pid encl c = ((.ret ret, c'), ops)) (hret : ret ≠ 0) : Step pid s { s with trace := s.trace ++ ops }
  | entered (env : Enclave.Env) (c c' : Client) (driverFd : Option Nat) (transition : Enclave.Transition) (ops : Ops)
      (h : enclaveDriverTransition env pid driverFd transition c = ((.ret 0, c'), ops)) : Step pid s { s with trace := s.trace ++ ops }
  | refused (env : Enclave.Env) (c c' : Client) (driverFd : Option Nat) (transition : Enclave.Transition) (ret : Int) (ops : Ops)
      (h : enclaveDriverTransition env pid driverFd transition c = ((.ret ret, c'), ops)) (hret : ret ≠ 0) :
      Step pid s { s with ended := .transition driverFd :: s.ended, trace := s.trace ++ ops }

/-- Nothing was called. -/
def Session.start : Session := ⟨none, [], [], []⟩

/-- A call turns what the process holds into what it holds then. -/
theorem Session.Step.turns {pid : Nat} {s t : Session} (h : Session.Step pid s t) :
    ∃ ops, t.trace = s.trace ++ ops ∧ Turns ops s.holds t.holds := by
  cases h with
  | init at_ fd call libraryPlugin left ops h =>
    have hframed := (initEnclaveLoaderOps_turns h).frame ((s.live.map Loaded.holds).sum + (s.ended.map Ended.left).sum)
    refine ⟨ops, rfl, hframed.of_eq (add_assoc _ _ _).symm ?_⟩
    show _ = pluggedHolds libraryPlugin + (s.live.map Loaded.holds).sum + (blocks left + (s.ended.map Ended.left).sum)
    abel
  | loaded env call c c' encl ops hclosed h =>
    have hframed := (loadEnclaveOps_turns hclosed h).1.frame s.holds
    refine ⟨ops, rfl, hframed.of_eq (zero_add _) ?_⟩
    show encl.holds + (pluggedHolds s.libraryPlugin + (s.live.map Loaded.holds).sum + (s.ended.map Ended.left).sum) =
      pluggedHolds s.libraryPlugin + (encl.holds + (s.live.map Loaded.holds).sum) + (s.ended.map Ended.left).sum
    abel
  | failed env call c c' ret exit ops hclosed h hret =>
    have hframed := (loadEnclaveOps_turns hclosed h).1.frame s.holds
    refine ⟨ops, rfl, hframed.of_eq (zero_add _) ?_⟩
    show exit.left + (pluggedHolds s.libraryPlugin + (s.live.map Loaded.holds).sum + (s.ended.map Ended.left).sum) =
      pluggedHolds s.libraryPlugin + (s.live.map Loaded.holds).sum + (exit.left + (s.ended.map Ended.left).sum)
    abel
  | deleted env c c' before after encl ops hlive h =>
    obtain ⟨-, hturns⟩ := (deleteEnclave_turns h).resolve_right fun hfail => hfail.1 rfl
    have hframed := hturns.frame (pluggedHolds s.libraryPlugin + ((before.map Loaded.holds).sum + (after.map Loaded.holds).sum) +
      (s.ended.map Ended.left).sum)
    refine ⟨ops, rfl, hframed.of_eq ?_ ?_⟩
    · rw [Session.holds, hlive, List.map_append, List.map_cons, List.sum_append, List.sum_cons]
      abel
    · show {.file encl.driverFd} + _ = pluggedHolds s.libraryPlugin + ((before ++ after).map Loaded.holds).sum +
        ({.file encl.driverFd} + (s.ended.map Ended.left).sum)
      rw [List.map_append, List.sum_append]
      abel
  | kept env c c' encl ret ops hlive h hret =>
    obtain ⟨-, rfl⟩ := (deleteEnclave_turns h).resolve_left fun hdone => hret hdone.1
    exact ⟨[], rfl, .nil _⟩
  | entered env c c' driverFd transition ops h =>
    have hframed := (enclaveDriverTransition_turns h).frame s.holds
    exact ⟨ops, rfl, hframed.of_eq (zero_add _) (zero_add _)⟩
  | refused env c c' driverFd transition ret ops h hret =>
    have hturns := enclaveDriverTransition_turns h
    rw [if_neg hret] at hturns
    refine ⟨ops, rfl, (hturns.frame s.holds).of_eq (zero_add _) ?_⟩
    show ↑(driverFd.toList.map Resource.file) +
        (pluggedHolds s.libraryPlugin + (s.live.map Loaded.holds).sum + (s.ended.map Ended.left).sum) =
      pluggedHolds s.libraryPlugin + (s.live.map Loaded.holds).sum +
        (↑(driverFd.toList.map Resource.file) + (s.ended.map Ended.left).sum)
    abel

/-- A load of the file, with all that the system hands out. -/
def oneCall : LoadCall where
  libraryPlugin := some ⟨0x70001000, 0x1000⟩
  opened := some (3, aligned)
  stated := true
  content := some 0x7f0000010000
  extras := []
  host := roomy
  driverFd := some 4
  createOut := true
  commitOut := true
  unmapped := true
  closed := true
  block k := 0x1000 + k
  mappingsAt := 0x2000
  sizesAt := 0x2001

/-- The load returns 0, and so does the deletion of its enclave. -/
def loadsAndDeletes (env : Enclave.Env) (pid : Nat) (call : LoadCall) (c : Client) : Bool :=
  match loadEnclaveOps env pid call c with
  | .ok ((.ret 0, c), .done encl, _) => decide ((deleteEnclave env pid encl c).1.1 = .ret 0 ∧ encl.driverFd = 4)
  | _ => false

theorem of_loadsAndDeletes {env : Enclave.Env} {pid : Nat} {call : LoadCall} {c : Client} (h : loadsAndDeletes env pid call c = true) :
    ∃ c₁ c₂ encl ops ops', loadEnclaveOps env pid call c = .ok ((.ret 0, c₁), .done encl, ops) ∧
      deleteEnclave env pid encl c₁ = ((.ret 0, c₂), ops') ∧ encl.driverFd = 4 := by
  unfold loadsAndDeletes at h
  split at h
  next c₁ encl ops hload =>
    obtain ⟨hdelete, hfd⟩ := of_decide_eq_true h
    exact ⟨c₁, _, encl, ops, _, hload, Prod.ext (Prod.ext hdelete rfl) rfl, hfd⟩
  · cases h

end Tyche.Loader
