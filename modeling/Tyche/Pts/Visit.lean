/-
The walk that visits (`x86_64_how_visit_leaves`): it calls the visitor of
the leaves on every present page of the range, once, in order.
-/
import Tyche.Pts.Sweep
import Tyche.Pts.Tables

namespace Tyche.Pts

open Tyche.Radix

variable {ε : Type}

/-- The leaf slot of page `n`, if the page is present at all levels. -/
def presentSlot (mem : Nat → Nat → Nat) (root n : Nat) : Option (Nat × Nat) :=
  (layout.slot mem ptPML4 root n).filter fun slot => decide (Present (mem slot.1 slot.2))

/-- A call of a visitor: the pointer to the entry, and the current address. -/
structure Visited where
  table : Nat
  index : Nat
  currVa : Nat
deriving DecidableEq, Repr

/-- The visits of the present pages from `a` up to `b`, in a walk from `start`. -/
def visits (mem : Nat → Nat → Nat) (root start a b : Nat) : List Visited :=
  (List.range' a (b - a)).filterMap fun n =>
    (presentSlot mem root n).map fun slot => ⟨slot.1, slot.2, max (n * ptPageSize) start⟩

/-- The calls of the visitor, one after the other. -/
def visitAll (visitor : Callback ε) (l : List Visited) (m : Machine ε) : Machine ε :=
  l.foldl (fun m v => (visitor v.table v.index ptPTE { m with currVa := v.currVa }).2) m

/-- `x86_64_profile` with a visitor of the leaves, whatever maps. -/
def visitProfile (mappers : Nat → Option (Callback ε)) (visitor : Callback ε) : Profile ε :=
  { (x86_64Profile : Profile ε) with
    how := x86_64HowVisitLeaves
    mappers := mappers
    visitors := fun level => if level = ptPTE then some visitor else none }

/-- The tables of the tree say the same in both memories: what is present,
what is huge, and where it points. -/
def SameTree (root : Nat) (mem mem' : Nat → Nat → Nat) : Prop :=
  ∀ {l q t i}, layout.Reach mem root l q t → i < 512 →
    (Present (mem' t i) ↔ Present (mem t i)) ∧ (Huge (mem' t i) ↔ Huge (mem t i)) ∧
      x86_64Next (mem' t i) l = x86_64Next (mem t i) l

/-- No entry of the two levels that can map huge pages does. -/
def NoHuge (mem : Nat → Nat → Nat) (root : Nat) : Prop :=
  ∀ {l q t i}, layout.Reach mem root l q t → l = ptPGD ∨ l = ptPMD → i < 512 → Present (mem t i) → ¬ Huge (mem t i)

section Profile

variable (mappers : Nat → Option (Callback ε)) (visitor : Callback ε)

theorem visitProfile_geometry : (visitProfile mappers visitor).Geometry where
  nbLevels := rfl
  nbEntries := rfl
  masks := (@x86_64Profile_geometry ε).masks
  shifts := (@x86_64Profile_geometry ε).shifts

theorem visitProfile_advances : (visitProfile mappers visitor).Advances fun _ _ => True where
  refl _ := trivial
  trans _ _ := trivial
  how _ _ _ _ := trivial
  mapper _ _ _ _ := trivial
  visitor _ _ _ _ := trivial

end Profile

/-! ## The list of visits -/

section Visits

variable {mem : Nat → Nat → Nat} {root start a b n : Nat}

theorem visits_nil : visits mem root start a a = [] := by simp [visits]

theorem visits_succ (h : a ≤ n) :
    visits mem root start a (n + 1) = visits mem root start a n ++
      ((presentSlot mem root n).map fun slot => ⟨slot.1, slot.2, max (n * ptPageSize) start⟩).toList := by
  have hrange : List.range' a (n + 1 - a) = List.range' a (n - a) ++ [n] := by
    have hlast : a + (n - a) = n := by omega
    rw [Nat.succ_sub h, List.range'_1_concat, hlast]
  rw [visits, hrange, List.filterMap_append, visits]
  cases hslot : presentSlot mem root n <;> simp [hslot]

/-- Pages that are not present are not visited. -/
theorem visits_absent (h : a ≤ n) (hb : n ≤ b) (habsent : ∀ k, n ≤ k → k < b → presentSlot mem root k = none) :
    visits mem root start a b = visits mem root start a n := by
  induction b, hb using Nat.le_induction with
  | base => rfl
  | succ b hb ih =>
    rw [visits_succ (Nat.le_trans h hb), habsent b hb (Nat.lt_succ_self b),
      ih fun k hk hkb => habsent k hk (Nat.lt_succ_of_lt hkb)]
    simp

/-- Pages that are present are all visited. -/
theorem visits_length (h : a ≤ b) (hpresent : ∀ n, a ≤ n → n < b → (presentSlot mem root n).isSome) :
    (visits mem root start a b).length = b - a := by
  induction b, h using Nat.le_induction with
  | base => simp [visits_nil]
  | succ b h ih =>
    obtain ⟨slot, hslot⟩ := Option.isSome_iff_exists.1 (hpresent b h (Nat.lt_succ_self b))
    rw [visits_succ h, List.length_append, ih fun n hn hnb => hpresent n hn (Nat.lt_succ_of_lt hnb), hslot]
    simp
    omega

theorem visitAll_append (visitor : Callback ε) (l l' : List Visited) (m : Machine ε) :
    visitAll visitor (l ++ l') m = visitAll visitor l' (visitAll visitor l m) := List.foldl_append

end Visits

/-! ## The walk -/

section Walk

variable {mappers : Nat → Option (Callback ε)} {visitor : Callback ε} {m m' : Machine ε} {root t i l : Nat} {start end_ : Nat}

theorem handleEntry_skip (h : ¬ Present (m.mem t i)) : (visitProfile mappers visitor).handleEntry t i l m = (.ret .next, m) := by
  have hhow : (visitProfile mappers visitor).how t i l m = (.ret .skip, m) := if_pos h
  rw [Profile.handleEntry, hhow]

theorem handleEntry_visit (mappers : Nat → Option (Callback ε)) (visitor : Callback ε) (h : Present (m.mem t i)) {o : Outcome CallbackAction} (hv : visitor t i ptPTE m = (o, m'))
    (ho : o = .ret .walk ∨ o = .ret .skip) :
    ((visitProfile mappers visitor).handleEntry t i ptPTE m).2 = m' ∧
      (((visitProfile mappers visitor).handleEntry t i ptPTE m).1 = .ret .descend ∨
        ((visitProfile mappers visitor).handleEntry t i ptPTE m).1 = .ret .next) := by
  have hhow : (visitProfile mappers visitor).how t i ptPTE m = (.ret .visit, m) := by
    show x86_64HowVisitLeaves t i ptPTE m = _
    unfold x86_64HowVisitLeaves
    have hp : ¬ (m.mem t i &&& ptPP ≠ ptPP) := not_not.2 h
    dsimp only
    rw [if_neg hp, if_pos (.inl rfl)]
  have hvisitor : (visitProfile mappers visitor).visitors ptPTE = some visitor := rfl
  rw [Profile.handleEntry, hhow]
  dsimp only
  rw [Profile.visitEntry, hvisitor]
  dsimp only
  rw [hv]
  rcases ho with rfl | rfl
  · exact ⟨rfl, .inl rfl⟩
  · exact ⟨rfl, .inr rfl⟩

theorem handleEntry_table (h : Present (m.mem t i)) (hhuge : l + 1 = ptPGD ∨ l + 1 = ptPMD → ¬ Huge (m.mem t i)) :
    (visitProfile mappers visitor).handleEntry t i (l + 1) m = (.ret .descend, m) := by
  have hhow : (visitProfile mappers visitor).how t i (l + 1) m = (.ret .walk, m) := by
    show x86_64HowVisitLeaves t i (l + 1) m = _
    unfold x86_64HowVisitLeaves
    have hp : ¬ (m.mem t i &&& ptPP ≠ ptPP) := not_not.2 h
    dsimp only
    rw [if_neg hp, if_neg]
    rintro (hl | ⟨hl, hp⟩)
    · exact Nat.succ_ne_zero l hl
    · exact hhuge hl hp
  rw [Profile.handleEntry, hhow]

/-- In the table over it, a page is present if its entry is. -/
theorem presentSlot_of_reach {mem : Nat → Nat → Nat} {n : Nat} (ht : layout.Reach mem root 0 (n / 512) t) :
    presentSlot mem root n = if Present (mem t (n % 512)) then some (t, n % 512) else none := by
  have hslot : layout.slot mem ptPML4 root n = some (t, n % 512) := ht.slot (by rw [layout_fanout, Nat.zero_add, pow_one])
  rw [presentSlot, hslot]
  by_cases hp : Present (mem t (n % 512)) <;> simp [hp]

/-- Below an absent entry no page is present. -/
theorem presentSlot_of_absent {mem : Nat → Nat → Nat} {q n : Nat} (ht : layout.Reach mem root (l + 1) q t)
    (hn : n / 512 ^ (l + 1) = q * 512 + i) (hi : i < 512) (hp : ¬ Present (mem t i)) : presentSlot mem root n = none := by
  have hq : n / 512 ^ (l + 2) = q := by
    rw [pow_succ _ (l + 1), ← Nat.div_div_eq_div_mul, hn, digits_div hi]
  have hslot : layout.slot mem ptPML4 root n = layout.slot mem (l + 1) t n := ht.slot hq
  rw [presentSlot, hslot, Layout.slot, layout_fanout, hn, digits_mod hi, layout_child_none.2 hp]
  rfl

/-- The walk visits the present pages one after the other. -/
theorem visit_sweeps (mappers : Nat → Option (Callback ε)) (start end_ : Nat) (hhuge : NoHuge m.mem root)
    (hret : ∀ t i m, (visitor t i ptPTE m).1 = .ret .walk ∨ (visitor t i ptPTE m).1 = .ret .skip)
    (hkeep : ∀ t i m', SameTree root m.mem m'.mem → SameTree root m.mem (visitor t i ptPTE m').2.mem) (final : ε) :
    (visitProfile mappers visitor).Sweeps (fun _ _ => True) final start end_
      (fun (_ : Unit) l q t => layout.Reach m.mem root l q t) fun _ k m' => SameTree root m.mem m'.mem ∧
        start / ptPageSize ≤ k ∧
        ∃ va, m' = { visitAll visitor (visits m.mem root start (start / ptPageSize) k) m with currVa := va } where
  reset := by
    rintro _ k _ ⟨hsame, hk, va, rfl⟩
    exact ⟨hsame, hk, 0, rfl⟩
  leaf := by
    rintro _ k t m₁ o m₂ ⟨hsame, -, va, hm⟩ ht hstart - heq -
    have hi : k % 512 < 512 := Nat.mod_lt _ (by decide)
    have hpresent := presentSlot_of_reach ht
    by_cases hp : Present (m.mem t (k % 512))
    · obtain ⟨h2, h1⟩ := handleEntry_visit mappers visitor (m := { m₁ with currVa := max (k * ptPageSize) start })
        ((hsame ht hi).1.2 hp) rfl (hret _ _ _)
      rw [heq] at h1 h2
      dsimp only at h1 h2
      refine ⟨h1, (), fun h => h, ?_, Nat.le_succ_of_le hstart, m₂.currVa, ?_⟩
      · rw [h2]
        exact hkeep _ _ { m₁ with currVa := max (k * ptPageSize) start } hsame
      · rw [visits_succ hstart, hpresent, if_pos hp, visitAll_append, h2, hm]
        rfl
    · rw [handleEntry_skip (m := { m₁ with currVa := max (k * ptPageSize) start })
        fun h => hp ((hsame ht hi).1.1 h)] at heq
      cases heq
      refine ⟨.inr rfl, (), fun h => h, hsame, Nat.le_succ_of_le hstart, max (k * ptPageSize) start, ?_⟩
      rw [visits_succ hstart, hpresent, if_neg hp, hm]
      simp
  table := by
    rintro _ l k t m₁ o m₂ ⟨hsame, -, va, hm⟩ ht hstart hk heq -
    have hi : k / 512 ^ (l + 1) % 512 < 512 := Nat.mod_lt _ (by decide)
    have hq : k / 512 ^ (l + 2) * 512 + k / 512 ^ (l + 1) % 512 = k / 512 ^ (l + 1) := by
      rw [pow_succ _ (l + 1), ← Nat.div_div_eq_div_mul, Nat.div_add_mod']
    obtain ⟨hsp, hsh, hsn⟩ := hsame ht hi
    by_cases hp : Present (m.mem t (k / 512 ^ (l + 1) % 512))
    · rw [handleEntry_table (m := { m₁ with currVa := max (k * ptPageSize) start }) (hsp.2 hp)
        fun hl h => hhuge ht hl hi hp (hsh.1 h)] at heq
      cases heq
      refine .inl ⟨rfl, (), fun h => h, ?_, hsame, hstart, max (k * ptPageSize) start, by rw [hm]⟩
      have hreach := Layout.Reach.child ht hi (layout_child hp)
      rw [layout_fanout, hq] at hreach
      show layout.Reach m.mem root l (k / 512 ^ (l + 1)) (x86_64Next (m₁.mem t _) (l + 1))
      rw [hsn]
      exact hreach
    · rw [handleEntry_skip (m := { m₁ with currVa := max (k * ptPageSize) start }) fun h => hp (hsp.1 h)] at heq
      cases heq
      have hpos : 0 < 512 ^ (l + 1) := Nat.pow_pos (by decide)
      have hkb : k ≤ min (pagesBelow end_) ((k / 512 ^ (l + 1) + 1) * 512 ^ (l + 1)) :=
        Nat.le_min.2 ⟨Nat.le_of_lt hk, Nat.le_of_lt ((Nat.div_lt_iff_lt_mul hpos).1 (Nat.lt_succ_self _))⟩
      -- The pages of the entry are absent.
      have habsent : ∀ n, k ≤ n → n < min (pagesBelow end_) ((k / 512 ^ (l + 1) + 1) * 512 ^ (l + 1)) →
          presentSlot m.mem root n = none := by
        intro n hkn hn
        have hdiv : n / 512 ^ (l + 1) = k / 512 ^ (l + 1) := by
          have hle := Nat.div_le_div_right (c := 512 ^ (l + 1)) hkn
          have hlt := (Nat.div_lt_iff_lt_mul hpos).2 (Nat.lt_of_lt_of_le hn (Nat.min_le_right ..))
          omega
        exact presentSlot_of_absent ht (hdiv.trans hq.symm) hi hp
      refine .inr ⟨rfl, (), fun h => h, hsame, Nat.le_trans hstart hkb, max (k * ptPageSize) start, ?_⟩
      rw [visits_absent hstart hkb habsent, hm]

theorem mem_visits {mem : Nat → Nat → Nat} {v : Visited} :
    v ∈ visits mem root start (start / ptPageSize) (pagesBelow end_) ↔
      ∃ n, start < (n + 1) * ptPageSize ∧ n * ptPageSize < end_ ∧
        presentSlot mem root n = some (v.table, v.index) ∧ v.currVa = max (n * ptPageSize) start := by
  have hrange : ∀ n, n ∈ List.range' (start / ptPageSize) (pagesBelow end_ - start / ptPageSize) ↔
      start < (n + 1) * ptPageSize ∧ n * ptPageSize < end_ := by
    intro n
    rw [List.mem_range'_1, ← lt_pagesBelow, ← Nat.div_lt_iff_lt_mul (by decide)]
    omega
  simp only [visits, List.mem_filterMap, Option.map_eq_some_iff, hrange]
  constructor
  · rintro ⟨n, ⟨hstart, hend⟩, slot, hslot, rfl⟩
    exact ⟨n, hstart, hend, hslot, rfl⟩
  · rintro ⟨n, hstart, hend, hslot, hva⟩
    exact ⟨n, ⟨hstart, hend⟩, _, hslot, by rw [← hva]⟩

/-- The visits are in the order of their pages, none twice. -/
theorem visits_increasing (mem : Nat → Nat → Nat) (root start end_ : Nat) :
    (visits mem root start (start / ptPageSize) (pagesBelow end_)).Pairwise fun v w =>
      v.currVa / ptPageSize < w.currVa / ptPageSize := by
  rw [visits, List.pairwise_filterMap]
  -- The address of a visit is in its page.
  have hpage : ∀ {n v}, start / ptPageSize ≤ n →
      ((presentSlot mem root n).map fun slot => (⟨slot.1, slot.2, max (n * ptPageSize) start⟩ : Visited)) = some v →
      v.currVa / ptPageSize = n := by
    intro n v hn hv
    obtain ⟨slot, -, rfl⟩ := Option.map_eq_some_iff.1 hv
    have hp : ptPageSize = 4096 := rfl
    rw [hp] at hn ⊢
    show max (n * 4096) start / 4096 = n
    omega
  refine (List.pairwise_lt_range' (s := start / ptPageSize) 1).imp_of_mem fun hn hn' hlt v hv w hw => ?_
  rw [hpage (List.mem_range'_1.1 hn).1 hv, hpage (List.mem_range'_1.1 hn').1 hw]
  exact hlt

theorem ptWalkPageRange_visitAll (mappers : Nat → Option (Callback ε)) (hhuge : NoHuge m.mem root)
    (hret : ∀ t i m, (visitor t i ptPTE m).1 = .ret .walk ∨ (visitor t i ptPTE m).1 = .ret .skip)
    (hkeep : ∀ t i m', SameTree root m.mem m'.mem → SameTree root m.mem (visitor t i ptPTE m').2.mem)
    (hlt : start < end_) (hend : end_ ≤ 2 ^ 48) :
    (visitProfile mappers visitor).ptWalkPageRange ptPML4 root start end_ m = (.ret 0,
      { visitAll visitor (visits m.mem root start (start / ptPageSize) (pagesBelow end_)) m with currVa := 0 }) := by
  have hsame : SameTree root m.mem m.mem := fun _ _ => ⟨Iff.rfl, Iff.rfl, rfl⟩
  have hsweeps := visit_sweeps mappers start end_ hhuge hret hkeep m.extras
  obtain ⟨h0, -, -, -, -, va, hm⟩ := hsweeps.ptWalkPageRange (visitProfile_advances mappers visitor)
    (visitProfile_geometry mappers visitor) hlt hend (s := ()) (m := m) .root
    ⟨hsame, Nat.le_refl _, m.currVa, by rw [visits_nil]; rfl⟩ trivial
  have hva := Profile.ptWalkPageRange_currVa _ h0
  rw [hm] at hva
  dsimp only at hva
  subst hva
  exact Prod.ext h0 hm

/-- **A walk that visits leaves** returns 0. It calls the visitor on each page
of the range that is present at all levels, on the page's own slot and with
the address where the page begins in the range, page after page, and on
nothing else. -/
theorem ptWalkPageRange_visits (hhuge : NoHuge m.mem root)
    (hret : ∀ t i m, (visitor t i ptPTE m).1 = .ret .walk ∨ (visitor t i ptPTE m).1 = .ret .skip)
    (hkeep : ∀ t i m', SameTree root m.mem m'.mem → SameTree root m.mem (visitor t i ptPTE m').2.mem)
    (hlt : start < end_) (hend : end_ ≤ 2 ^ 48) :
    ∃ l : List Visited,
      (visitProfile mappers visitor).ptWalkPageRange ptPML4 root start end_ m =
        (.ret 0, { visitAll visitor l m with currVa := 0 }) ∧
      (l.Pairwise fun v w => v.currVa / ptPageSize < w.currVa / ptPageSize) ∧
      ∀ v, v ∈ l ↔ ∃ n, start < (n + 1) * ptPageSize ∧ n * ptPageSize < end_ ∧
        presentSlot m.mem root n = some (v.table, v.index) ∧ v.currVa = max (n * ptPageSize) start :=
  ⟨visits m.mem root start (start / ptPageSize) (pagesBelow end_),
    ptWalkPageRange_visitAll mappers hhuge hret hkeep hlt hend, visits_increasing .., fun _ => mem_visits⟩

end Walk

/-- A visitor that remembers its calls. -/
def rememberVisit : Callback (List Visited) := fun table i _ m =>
  (.ret .walk, { m with extras := m.extras ++ [⟨table, i, m.currVa⟩] })

/-- Two pages next to each other, in two tables. -/
def twoTables (t i : Nat) : Nat :=
  if t = 0x1000 ∧ i = 0 then 0x2003
  else if t = 0x2000 ∧ i = 0 then 0x3003
  else if t = 0x3000 ∧ i = 0 then 0x4003
  else if t = 0x3000 ∧ i = 1 then 0x5003
  else if t = 0x4000 ∧ i = 511 then 0x8003
  else if t = 0x5000 ∧ i = 0 then 0x9003
  else 0

theorem ptWalkPageRange_visits_twoTables :
    ∃ l : List Visited,
      (visitProfile (fun _ => none) rememberVisit).ptWalkPageRange ptPML4 0x1000 0x1ff010 0x202000 ⟨twoTables, 0, []⟩ =
        (.ret 0, { visitAll rememberVisit l ⟨twoTables, 0, []⟩ with currVa := 0 }) ∧
      (l.Pairwise fun v w => v.currVa / ptPageSize < w.currVa / ptPageSize) ∧
      ∀ v, v ∈ l ↔ ∃ n, 0x1ff010 < (n + 1) * ptPageSize ∧ n * ptPageSize < 0x202000 ∧
        presentSlot twoTables 0x1000 n = some (v.table, v.index) ∧ v.currVa = max (n * ptPageSize) 0x1ff010 := by
  have hhuge : ∀ t i, ¬ Huge (twoTables t i) := by
    intro t i
    unfold twoTables
    split_ifs <;> decide
  exact ptWalkPageRange_visits (m := ⟨twoTables, 0, []⟩) (fun _ _ _ _ => hhuge _ _) (fun _ _ _ => .inl rfl)
    (fun _ _ _ h => h) (by decide) (by decide)

end Tyche.Pts
