/-
The entries a walk comes to, and those it goes through. A walk with
`x86_64_how_visit_leaves` or `x86_64_how_map` takes an entry for a table
although it is absent or maps a huge page only where the code falls through
to the label `walk`, for want of a callback that says otherwise.
-/
import Tyche.Pts.Tables

namespace Tyche.Pts

variable {ε : Type}

/-! ## The positions of a walk -/

/-- The loop of some table is at its entry `i`, in a walk that starts from
`first` in the table `root` of the level `top`. -/
inductive Profile.Meets (p : Profile ε) (top root first end_ : Nat) (m₀ : Machine ε) :
    (level table start i : Nat) → Machine ε → Prop
  | start : first < end_ → top < p.nbLevels → p.Meets top root first end_ m₀ top root first (p.getIndex first top) m₀
  | next {level table start i m m'} : p.Meets top root first end_ m₀ level table start i m → i < p.nbEntries →
    p.entryVa level start i < end_ →
    p.handleEntry table i level { m with currVa := p.entryVa level start i } = (.ret .next, m') →
    p.Meets top root first end_ m₀ level table start (i + 1) m'
  | leaf {table start i m m'} : p.Meets top root first end_ m₀ 0 table start i m → i < p.nbEntries →
    p.entryVa 0 start i < end_ →
    p.handleEntry table i 0 { m with currVa := p.entryVa 0 start i } = (.ret .descend, m') →
    p.Meets top root first end_ m₀ 0 table start (i + 1) m'
  | enter {level table start i m m'} : p.Meets top root first end_ m₀ (level + 1) table start i m → i < p.nbEntries →
    p.entryVa (level + 1) start i < end_ →
    p.handleEntry table i (level + 1) { m with currVa := p.entryVa (level + 1) start i } = (.ret .descend, m') →
    p.Meets top root first end_ m₀ level (p.next (m'.mem table i) (level + 1)) (p.entryVa (level + 1) start i)
      (p.getIndex (p.entryVa (level + 1) start i) level) m'
  | back {level table start i m m' r m''} : p.Meets top root first end_ m₀ (level + 1) table start i m → i < p.nbEntries →
    p.entryVa (level + 1) start i < end_ →
    p.handleEntry table i (level + 1) { m with currVa := p.entryVa (level + 1) start i } = (.ret .descend, m') →
    p.ptWalkPageRange level (p.next (m'.mem table i) (level + 1)) (p.entryVa (level + 1) start i) end_ m' = (.ret r, m'') →
    r ≠ -1 → p.Meets top root first end_ m₀ (level + 1) table start (i + 1) m''

/-- The callbacks of an entry are called, with the profile at its address. -/
def Profile.Handles (p : Profile ε) (top root first end_ : Nat) (m₀ : Machine ε) (level table i : Nat) (m : Machine ε) : Prop :=
  ∃ start m₁, p.Meets top root first end_ m₀ level table start i m₁ ∧ i < p.nbEntries ∧ p.entryVa level start i < end_ ∧
    m = { m₁ with currVa := p.entryVa level start i }

/-! ## Entries that are tables -/

/-- The entry of a level maps a huge page. -/
def MapsHuge (level entry : Nat) : Prop := (level = ptPMD ∨ level = ptPGD) ∧ Huge entry

/-- The entry refers to a table of the level below. -/
def RefersToTable (level entry : Nat) : Prop := Present entry ∧ ¬ MapsHuge level entry

instance (level entry : Nat) : Decidable (MapsHuge level entry) := inferInstanceAs (Decidable (_ ∧ _))
instance (level entry : Nat) : Decidable (RefersToTable level entry) := inferInstanceAs (Decidable (_ ∧ _))

/-- Every walk of a table below goes through an entry that refers to one. -/
def Profile.DescendsIntoTables (p : Profile ε) (top root first end_ : Nat) (m₀ : Machine ε) : Prop :=
  ∀ level table i m m', p.Handles top root first end_ m₀ (level + 1) table i m →
    p.handleEntry table i (level + 1) m = (.ret .descend, m') → RefersToTable (level + 1) (m'.mem table i)

/-- The functions that choose the entries. -/
inductive How
  | visitLeaves
  | map
deriving DecidableEq, Repr

def How.callback : How → Callback ε
  | visitLeaves => x86_64HowVisitLeaves
  | map => x86_64HowMap

/-- `x86_64_profile`, with callbacks of its own. -/
def x86_64Derived (how : How) (mappers visitors : Nat → Option (Callback ε)) : Profile ε :=
  { (x86_64Profile : Profile ε) with how := how.callback, mappers := mappers, visitors := visitors }

/-- The callbacks of a level return `WALK` only on an entry that they leave
as one that refers to a table. -/
def Careful (slots : Nat → Option (Callback ε)) : Prop :=
  ∀ l f, slots l = some f → ∀ t i m m', f t i l m = (.ret .walk, m') → RefersToTable l (m'.mem t i)

/-- The entry falls through to the label `walk`: a huge page without a
visitor, or one that `x86_64_how_map` takes for a table, or an absent entry
that is neither mapped nor visited. -/
def How.Strays (how : How) (mappers visitors : Nat → Option (Callback ε)) (table i level : Nat) (m : Machine ε) : Prop :=
  match how with
  | visitLeaves => Present (m.mem table i) ∧ MapsHuge level (m.mem table i) ∧ visitors level = none
  | map => Present (m.mem table i) ∧ MapsHuge level (m.mem table i) ∨
      ¬ Present (m.mem table i) ∧ visitors level = none ∧ ∀ mapper, mappers level = some mapper →
        ∃ m', mapper table i level m = (.ret .visit, m') ∧ ¬ RefersToTable level (m'.mem table i)

/-! ## Where a walk strays -/

section How

variable {table i level : Nat} {m : Machine ε}

theorem x86_64HowVisitLeaves_absent (h : ¬ Present (m.mem table i)) : x86_64HowVisitLeaves table i level m = (.ret .skip, m) :=
  if_pos h

theorem x86_64HowVisitLeaves_huge (h : Present (m.mem table i)) (hhuge : MapsHuge level (m.mem table i)) :
    x86_64HowVisitLeaves table i level m = (.ret .visit, m) :=
  (if_neg (not_not_intro h)).trans (if_pos (.inr ⟨hhuge.1.symm, hhuge.2⟩))

theorem x86_64HowVisitLeaves_table (hlevel : level ≠ ptPTE) (h : RefersToTable level (m.mem table i)) :
    x86_64HowVisitLeaves table i level m = (.ret .walk, m) :=
  (if_neg (not_not_intro h.1)).trans (if_neg (not_or.2 ⟨hlevel, fun hhuge => h.2 ⟨hhuge.1.symm, hhuge.2⟩⟩))

theorem x86_64HowMap_absent (h : ¬ Present (m.mem table i)) : x86_64HowMap table i level m = (.ret .map, m) :=
  if_pos h

theorem x86_64HowMap_present (h : Present (m.mem table i)) : x86_64HowMap table i level m = (.ret .walk, m) :=
  if_neg (not_not_intro h)

end How

section Derived

variable {how : How} {mappers visitors : Nat → Option (Callback ε)}

/-- From the label `visit` on, a careful visitor sees to the entry. -/
theorem visitEntry_strays (hvisitors : Careful visitors) (table i level : Nat) (m : Machine ε) :
    (∃ m', (x86_64Derived how mappers visitors).visitEntry table i level m = (.ret .descend, m') ∧
        ¬ RefersToTable level (m'.mem table i)) ↔
      visitors level = none ∧ ¬ RefersToTable level (m.mem table i) := by
  have hslot : (x86_64Derived how mappers visitors).visitors level = visitors level := rfl
  unfold Profile.visitEntry
  rw [hslot]
  cases hvisitor : visitors level with
  | none =>
    constructor
    · rintro ⟨m', heq, hstrays⟩
      obtain ⟨-, rfl⟩ := Prod.mk.inj heq
      exact ⟨rfl, hstrays⟩
    · exact fun h => ⟨m, rfl, h.2⟩
  | some visitor =>
    refine ⟨fun ⟨m', heq, hstrays⟩ => ?_, fun h => by cases h.1⟩
    dsimp only at heq
    split at heq
    next m₁ hret =>
      obtain ⟨-, rfl⟩ := Prod.mk.inj heq
      exact absurd (hvisitors level visitor hvisitor table i m _ hret) hstrays
    all_goals cases heq

/-- From the label `map` on, so does a careful mapper, unless it has the entry visited. -/
theorem mapEntry_strays (hmappers : Careful mappers) (hvisitors : Careful visitors) (table i level : Nat) (m : Machine ε) :
    (∃ m', (x86_64Derived how mappers visitors).mapEntry table i level m = (.ret .descend, m') ∧
        ¬ RefersToTable level (m'.mem table i)) ↔
      visitors level = none ∧ (mappers level = none → ¬ RefersToTable level (m.mem table i)) ∧
        ∀ mapper, mappers level = some mapper →
          ∃ m', mapper table i level m = (.ret .visit, m') ∧ ¬ RefersToTable level (m'.mem table i) := by
  have hslot : (x86_64Derived how mappers visitors).mappers level = mappers level := rfl
  unfold Profile.mapEntry
  rw [hslot]
  cases hmapper : mappers level with
  | none =>
    dsimp only
    rw [visitEntry_strays hvisitors]
    simp
  | some mapper =>
    simp only [reduceCtorEq, false_imp_iff, true_and, Option.some.injEq, forall_eq']
    constructor
    · rintro ⟨m', heq, hstrays⟩
      split at heq
      next m₁ hret =>
        obtain ⟨-, rfl⟩ := Prod.mk.inj heq
        exact absurd (hmappers level mapper hmapper table i m _ hret) hstrays
      next m₁ hret =>
        obtain ⟨hvisitor, hstrays⟩ := (visitEntry_strays hvisitors table i level m₁).1 ⟨m', heq, hstrays⟩
        exact ⟨hvisitor, m₁, hret, hstrays⟩
      all_goals cases heq
    · rintro ⟨hvisitor, m₁, hret, hstrays⟩
      rw [hret]
      exact (visitEntry_strays hvisitors table i level m₁).2 ⟨hvisitor, hstrays⟩

/-- An entry above the leaves strays exactly when the walk goes through it
although it refers to no table. -/
theorem strays_iff (hmappers : Careful mappers) (hvisitors : Careful visitors) (table i level : Nat) (m : Machine ε) :
    how.Strays mappers visitors table i (level + 1) m ↔
      ∃ m', (x86_64Derived how mappers visitors).handleEntry table i (level + 1) m = (.ret .descend, m') ∧
        ¬ RefersToTable (level + 1) (m'.mem table i) := by
  have hlevel : level + 1 ≠ ptPTE := Nat.succ_ne_zero level
  unfold Profile.handleEntry
  cases how with
  | visitLeaves =>
    have hhow : (x86_64Derived .visitLeaves mappers visitors).how = x86_64HowVisitLeaves := rfl
    rw [hhow]
    dsimp only [How.Strays]
    by_cases hpresent : Present (m.mem table i)
    · by_cases hhuge : MapsHuge (level + 1) (m.mem table i)
      · rw [x86_64HowVisitLeaves_huge hpresent hhuge]
        dsimp only
        rw [visitEntry_strays hvisitors]
        exact ⟨fun h => ⟨h.2.2, fun htable => htable.2 hhuge⟩, fun h => ⟨hpresent, hhuge, h.1⟩⟩
      · rw [x86_64HowVisitLeaves_table hlevel ⟨hpresent, hhuge⟩]
        refine ⟨fun h => absurd h.2.1 hhuge, ?_⟩
        rintro ⟨m', heq, hstrays⟩
        obtain ⟨-, rfl⟩ := Prod.mk.inj heq
        exact absurd ⟨hpresent, hhuge⟩ hstrays
    · rw [x86_64HowVisitLeaves_absent hpresent]
      refine ⟨fun h => absurd h.1 hpresent, ?_⟩
      rintro ⟨m', heq, -⟩
      cases heq
  | map =>
    have hhow : (x86_64Derived .map mappers visitors).how = x86_64HowMap := rfl
    rw [hhow]
    dsimp only [How.Strays]
    by_cases hpresent : Present (m.mem table i)
    · rw [x86_64HowMap_present hpresent]
      simp only [hpresent, true_and, not_true_eq_false, false_and, or_false]
      constructor
      · exact fun hhuge => ⟨m, rfl, fun htable => htable.2 hhuge⟩
      · rintro ⟨m', heq, hstrays⟩
        obtain ⟨-, rfl⟩ := Prod.mk.inj heq
        by_contra hhuge
        exact hstrays ⟨hpresent, hhuge⟩
    · rw [x86_64HowMap_absent hpresent]
      dsimp only
      rw [mapEntry_strays hmappers hvisitors]
      simp only [hpresent, false_and, false_or, not_false_eq_true, true_and]
      have habsent : ¬ RefersToTable (level + 1) (m.mem table i) := fun htable => hpresent htable.1
      exact ⟨fun h => ⟨h.1, fun _ => habsent, h.2⟩, fun h => ⟨h.1, h.2.2⟩⟩

/-- **A walk goes through tables only** exactly when it meets no entry that
strays. -/
theorem descends_into_tables (how : How) {mappers visitors : Nat → Option (Callback ε)} (hmappers : Careful mappers)
    (hvisitors : Careful visitors) (top root first end_ : Nat) (m₀ : Machine ε) :
    (x86_64Derived how mappers visitors).DescendsIntoTables top root first end_ m₀ ↔
      ∀ level table i m, (x86_64Derived how mappers visitors).Handles top root first end_ m₀ (level + 1) table i m →
        ¬ how.Strays mappers visitors table i (level + 1) m := by
  constructor
  · intro h level table i m hhandles hstrays
    obtain ⟨m', heq, hnot⟩ := (strays_iff hmappers hvisitors table i level m).1 hstrays
    exact hnot (h level table i m m' hhandles heq)
  · intro h level table i m m' hhandles heq
    by_contra hnot
    exact h level table i m hhandles ((strays_iff hmappers hvisitors table i level m).2 ⟨m', heq, hnot⟩)

/-- With visitors for the huge pages, the walk of the leaves is safe. -/
theorem visitors_descend_into_tables {mappers visitors : Nat → Option (Callback ε)} (hmappers : Careful mappers)
    (hvisitors : Careful visitors) (hPMD : visitors ptPMD ≠ none) (hPGD : visitors ptPGD ≠ none)
    (top root first end_ : Nat) (m₀ : Machine ε) :
    (x86_64Derived .visitLeaves mappers visitors).DescendsIntoTables top root first end_ m₀ := by
  intro level table i m m' _ heq
  by_contra hnot
  obtain ⟨-, ⟨hlevel, -⟩, hnone⟩ := (strays_iff hmappers hvisitors table i level m).2 ⟨m', heq, hnot⟩
  rcases hlevel with hlevel | hlevel <;> rw [hlevel] at hnone
  · exact hPMD hnone
  · exact hPGD hnone

end Derived

/-- No callbacks, as in `x86_64_profile`. -/
def noSlots : Nat → Option (Callback Unit) := fun _ => none

theorem noSlots_careful : Careful noSlots := fun _ _ h => by cases h

/-- Callbacks that leave the entries of every level alone. -/
def skipping : Nat → Option (Callback Unit) := fun _ => some fun _ _ _ m => (.ret .skip, m)

theorem skipping_careful : Careful skipping := by
  intro l f hslot t i m m' hret
  obtain rfl := Option.some.inj hslot
  cases hret

/-- Tables at `0x1000`, `0x2000` and `0x3000`, the last with entries that
map the huge page at `0x40000000`. -/
def hugeMapped : Machine Unit where
  mem table _ := if table = 0x1000 then 0x2000 ||| ptPP else if table = 0x2000 then 0x3000 ||| ptPP
    else if table = 0x3000 then 0x40000000 ||| ptPSE ||| ptPP else 0
  currVa := 0
  extras := ()

theorem descends_into_tables_skipping :
    (x86_64Derived .visitLeaves noSlots skipping).DescendsIntoTables ptPML4 0x1000 0 0x1000 hugeMapped :=
  (descends_into_tables .visitLeaves noSlots_careful skipping_careful ptPML4 0x1000 0 0x1000 hugeMapped).2
    fun _ _ _ _ _ hstrays => by cases hstrays.2.2

/-- `x86_64_profile` itself goes through the huge page. -/
theorem huge_page_walked : Careful noSlots ∧
    ¬ (x86_64Derived .visitLeaves noSlots noSlots).DescendsIntoTables ptPML4 0x1000 0 0x1000 hugeMapped := by
  refine ⟨noSlots_careful, fun h => ?_⟩
  have hroot : (x86_64Derived .visitLeaves noSlots noSlots).Meets ptPML4 0x1000 0 0x1000 hugeMapped ptPML4 0x1000 0 0
      hugeMapped := .start (by decide) (by decide)
  have hPGD := hroot.enter (by decide) (by decide) rfl
  have hPMD := hPGD.enter (by decide) (by decide) rfl
  have htable := h ptPTE 0x3000 0 hugeMapped hugeMapped ⟨0, hugeMapped, hPMD, by decide, by decide, rfl⟩ rfl
  exact absurd htable (by decide)

end Tyche.Pts
