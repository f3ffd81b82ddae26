/-
Memory is conserved: splits and merges cut the same addresses differently.
Every effect keeps the number of entries that cover an address, and their
rights, whatever the monitor and the allocator answer, as long as the
entries are not reversed ranges. Reversed or not, no effect makes an address
covered more often.
-/
import Tyche.Capa.Handles

namespace Tyche.Capa

/-- The entries that cover `a` and whose rights satisfy `p`. -/
def coverage (a : Nat) (p : Nat → Bool) (l : List Capability) : Nat :=
  l.countP fun c => c.covers a && p c.access

/-- The number of entries that cover `a`. -/
abbrev covering (a : Nat) (l : List Capability) : Nat := coverage a (fun _ => true) l

/-- The number of entries that cover `a` with the rights `access`. -/
abbrev coveringWith (a access : Nat) (l : List Capability) : Nat := coverage a (· == access) l

/-- No range ends before it starts. -/
def Ordered (l : List Capability) : Prop := ∀ c ∈ l, c.start ≤ c.end_

section
variable {a : Nat} {p : Nat → Bool}

@[simp] theorem coverage_append (l l' : List Capability) :
    coverage a p (l ++ l') = coverage a p l + coverage a p l' := List.countP_append

theorem coverage_cons (c : Capability) (l : List Capability) :
    coverage a p (c :: l) = coverage a p l + coverage a p [c] := by
  simp [coverage, List.countP_cons]

theorem coverage_singleton (c : Capability) :
    coverage a p [c] = if (c.start ≤ a ∧ a < c.end_) ∧ p c.access = true then 1 else 0 := by
  simp only [coverage, List.countP_cons, List.countP_nil, Capability.covers, contains, Bool.and_eq_true,
    decide_eq_true_eq, Nat.zero_add]

theorem coverage_list (c : Cursor Capability) :
    coverage a p c.list = coverage a p c.remove + coverage a p [c.elem] := by
  rw [coverage, c.list_perm.countP_eq, ← coverage, coverage_cons]

/-- An entry rewritten with the same range and rights covers the same. -/
theorem coverage_put {c : Cursor Capability} {e : Capability} (h1 : e.start = c.elem.start)
    (h2 : e.end_ = c.elem.end_) (h3 : e.access = c.elem.access) :
    coverage a p (c.put e).list = coverage a p c.list := by
  rw [coverage_list, coverage_list, Cursor.put_remove, Cursor.put_elem, coverage_singleton, coverage_singleton,
    h1, h2, h3]

/-- The two parts of a range cover what the range did. -/
theorem coverage_cut {c d e : Capability} (hc : c.start ≤ c.end_) (hd : d.start ≤ d.end_)
    (hadj : c.end_ = d.start) (hacc : c.access = d.access) (hs : e.start = c.start) (he : e.end_ = d.end_)
    (ha : e.access = c.access) : coverage a p [e] = coverage a p [c] + coverage a p [d] := by
  simp only [coverage_singleton, hs, he, ha, ← hacc]
  by_cases hp : p c.access = true
  · simp only [hp, and_true]
    split_ifs <;> omega
  · simp [hp]

/-- A merge never covers more, also when a range is reversed. -/
theorem coverage_join {c d e : Capability} (hadj : c.end_ = d.start) (hacc : c.access = d.access)
    (hs : e.start = c.start) (he : e.end_ = d.end_) (ha : e.access = c.access) :
    coverage a p [e] ≤ coverage a p [c] + coverage a p [d] := by
  simp only [coverage_singleton, hs, he, ha, ← hacc]
  by_cases hp : p c.access = true
  · simp only [hp, and_true]
    split_ifs <;> omega
  · simp [hp]

end

/-! ## Effects -/

theorem splittable_contains {c : Capability} {addr : Nat} (h : splittable c addr = true) :
    c.start ≤ addr ∧ addr < c.end_ := by
  simp only [splittable, contains, Bool.and_eq_true, decide_eq_true_eq] at h
  exact h.2

theorem Micro.coverage_split {s t : Tracker} {c : Capability} {addr : Nat} (h : Micro s (.split c addr) t)
    (a : Nat) (p : Nat → Bool) : coverage a p t.capabilities = coverage a p s.capabilities := by
  cases h with
  | split c _ ans hl hs ha =>
    obtain ⟨h1, h2⟩ := splittable_contains hs
    rw [hl, coverage_append, coverage_list, coverage_list c, Cursor.put_remove, Cursor.put_elem, Nat.add_assoc]
    congr 1
    symm
    apply coverage_cut <;> first | rfl | exact h1 | exact Nat.le_of_lt h2

/-- No effect makes an address covered more often. -/
theorem Micro.coverage_le {s t : Tracker} {e : Effect} (h : Micro s e t) (a : Nat) (p : Nat → Bool) :
    coverage a p t.capabilities ≤ coverage a p s.capabilities := by
  cases h with
  | noMemory => exact Nat.le_refl _
  | refused => exact Nat.le_refl _
  | abandoned => exact Nat.le_refl _
  | split c addr ans hl hs ha => exact Nat.le_of_eq ((Micro.split s c addr ans hl hs ha).coverage_split a p)
  | deliver c dom tpe ans hl => rw [hl]; exact Nat.le_of_eq (coverage_put rfl rfl rfl)
  | revoke c r status ans hl => rw [hl]; exact Nat.le_of_eq (coverage_put rfl rfl rfl)
  | merge l l' c d ans hl hc hd hadj hacc =>
    rw [hl, coverage_append, coverage_append, coverage_cons, coverage_cons c, coverage_cons d]
    have := coverage_join (a := a) (p := p) (e := { c with end_ := d.end_ }) hadj hacc rfl rfl rfl
    omega

/-- Among ordered ranges, every effect keeps what is covered. -/
theorem Micro.coverage_eq {s t : Tracker} {e : Effect} (h : Micro s e t) (hs : Ordered s.capabilities)
    (a : Nat) (p : Nat → Bool) : coverage a p t.capabilities = coverage a p s.capabilities := by
  cases h with
  | noMemory => rfl
  | refused => rfl
  | abandoned => rfl
  | split c addr ans hl hs ha => exact (Micro.split s c addr ans hl hs ha).coverage_split a p
  | deliver c dom tpe ans hl => rw [hl]; exact coverage_put rfl rfl rfl
  | revoke c r status ans hl => rw [hl]; exact coverage_put rfl rfl rfl
  | merge l l' c d ans hl hc hd hadj hacc =>
    rw [hl, coverage_append, coverage_append, coverage_cons, coverage_cons c, coverage_cons d]
    have h1 : c.start ≤ c.end_ := hs c (by simp [hl])
    have h2 : d.start ≤ d.end_ := hs d (by simp [hl])
    rw [coverage_cut (c := c) (d := d) (e := { c with end_ := d.end_ }) h1 h2 hadj hacc rfl rfl rfl]
    omega

theorem Ordered.micro {s t : Tracker} {e : Effect} (hs : Ordered s.capabilities) (h : Micro s e t) :
    Ordered t.capabilities := by
  cases h with
  | noMemory => exact hs
  | refused => exact hs
  | abandoned => exact hs
  | split c addr ans hl hsp ha =>
    obtain ⟨h1, h2⟩ := splittable_contains hsp
    intro d hd
    rcases List.mem_append.1 hd with hd | hd
    · rcases mem_put hd with rfl | hd
      · exact h1
      · exact hs d (hl ▸ hd)
    · obtain rfl := List.mem_singleton.1 hd
      exact Nat.le_of_lt h2
  | deliver c dom tpe ans hl =>
    intro d hd
    rcases mem_put hd with rfl | hd
    · exact hs c.elem (hl ▸ c.elem_mem)
    · exact hs d (hl ▸ hd)
  | revoke c r status ans hl =>
    intro d hd
    rcases mem_put hd with rfl | hd
    · exact hs c.elem (hl ▸ c.elem_mem)
    · exact hs d (hl ▸ hd)
  | merge l l' c d ans hl hc hd hadj hacc =>
    intro e he
    simp only [List.mem_append, List.mem_cons] at he
    rcases he with he | rfl | he
    · exact hs e (by simp [hl, he])
    · have h1 := hs c (by simp [hl])
      have h2 := hs d (by simp [hl])
      show c.start ≤ d.end_
      omega
    · exact hs e (by simp [hl, he])

/-! ## Runs -/

/-- **Memory is conserved.** When no range the monitor reported is reversed,
the number of entries covering an address, and the number covering it with
given rights, are those after `init_domain` in every state of every run of
splits, transfers and revocations. -/
theorem coverage_conserved {env : Env} {x y : Config} (hx : Started env x)
    (hord : ∀ c ∈ x.tracker.capabilities, c.start ≤ c.end_) (hr : Run env anyCall x y) (a : Nat) :
    covering a y.tracker.capabilities = covering a x.tracker.capabilities ∧
      ∀ access, coveringWith a access y.tracker.capabilities = coveringWith a access x.tracker.capabilities := by
  obtain ⟨-, -, h⟩ := hr.invariant
    (P := fun s => Ordered s.capabilities ∧
      ∀ p, coverage a p s.capabilities = coverage a p x.tracker.capabilities) hx.ledger
    (fun e s t _ hs hm => ⟨hs.1.micro hm, fun p => (hm.coverage_eq hs.1 a p).trans (hs.2 p)⟩) ⟨hord, fun _ => rfl⟩
  exact ⟨h _, fun _ => h _⟩

/-- A run that splits, grants, shares and merges. -/
theorem coverage_conserved_granting :
    let env := Env.granting [(0, 0x10000), (0x20000, 0x28000)]
    let x := Config.start env
    let y := x.played env [.split 0 0x8000, .transfer 1 0x2000 0x4000 confidential,
      .transfer 2 0x21000 0x22000 shared, .revoke 1 0x2000 0x4000]
    covering 0x3000 y.tracker.capabilities = covering 0x3000 x.tracker.capabilities ∧
      ∀ access, coveringWith 0x3000 access y.tracker.capabilities =
        coveringWith 0x3000 access x.tracker.capabilities :=
  coverage_conserved (Config.started (by decide)) (by decide)
    (Run.of_plays (fun _ _ _ => true) _ (by decide) fun _ _ _ _ => trivial) 0x3000

/-- A reversed range reported by the monitor is merged like any other: the
grant of `[0x1000, 0x3000)` and its revocation leave `0x2000` uncovered. -/
theorem coverage_lost_reversed :
    ¬ ∀ (env : Env) (x y : Config) (a : Nat), Started env x → Run env anyCall x y →
      covering a y.tracker.capabilities = covering a x.tracker.capabilities ∧
        ∀ access, coveringWith a access y.tracker.capabilities = coveringWith a access x.tracker.capabilities := by
  intro h
  let env := Env.granting [(0x9000, 0xa000), (0x1000, 0x3000), (0x3000, 0x2000)]
  have h' := h env _ _ 0x2000 (Config.started (by decide))
    (Run.of_plays (fun _ _ _ => true) [.transfer 1 0x1000 0x3000 confidential, .revoke 1 0x1000 0x3000]
      (by decide) fun _ _ _ _ => trivial)
  exact absurd h'.1 (by decide)

end Tyche.Capa
