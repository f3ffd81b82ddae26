/-
The walk of a range, page by page. A walk from the root reaches the pages of
its range in order, each through its own slots; so a proof about it needs to
say only what the callbacks do at a page, and what they do at a table.
-/
import Tyche.Pts.X86

namespace Tyche.Pts

variable {ε γ : Type}

/-- The pages below the address, the last one perhaps in part. -/
def pagesBelow (a : Nat) : Nat := (a + ptPageAlign) / ptPageSize

theorem lt_pagesBelow {k a : Nat} : k < pagesBelow a ↔ k * ptPageSize < a := by
  have hp : ptPageSize = 4096 := rfl
  have ha : ptPageAlign = 4095 := rfl
  unfold pagesBelow
  rw [hp, ha]
  omega

theorem page_lt_pagesBelow {a b : Nat} (h : a < b) : a / ptPageSize < pagesBelow b := by
  have hp : ptPageSize = 4096 := rfl
  rw [lt_pagesBelow, hp]
  omega

/-- The tables `s` knows of are known to `s'`, where they were. -/
def Extends (At : γ → Nat → Nat → Nat → Prop) (s s' : γ) : Prop := ∀ {l q t}, At s l q t → At s' l q t

/-- An invariant of a walk over `[start, end_)`: `R s k m` holds of the machine
once the walk has reached page `k`, with what is known of the tables in `s`:
`At s l q t` if the table of the pages with the digits `q`, at level `l`, is
`t`. At a leaf the callbacks take it one page further; at a table they lead to
the next level, or past the pages of the entry. -/
structure Profile.Sweeps (p : Profile ε) (later : ε → ε → Prop) (final : ε) (start end_ : Nat)
    (At : γ → Nat → Nat → Nat → Prop) (R : γ → Nat → Machine ε → Prop) : Prop where
  reset : ∀ {s k m}, R s k m → R s k { m with currVa := 0 }
  leaf : ∀ {s k t m o m'}, R s k m → At s 0 (k / 512) t → start / ptPageSize ≤ k → k < pagesBelow end_ →
    p.handleEntry t (k % 512) 0 { m with currVa := max (k * ptPageSize) start } = (o, m') → later m'.extras final →
    (o = .ret .descend ∨ o = .ret .next) ∧ ∃ s', Extends At s s' ∧ R s' (k + 1) m'
  table : ∀ {s l k t m o m'}, R s k m → At s (l + 1) (k / 512 ^ (l + 2)) t → start / ptPageSize ≤ k →
    k < pagesBelow end_ →
    p.handleEntry t (k / 512 ^ (l + 1) % 512) (l + 1) { m with currVa := max (k * ptPageSize) start } = (o, m') →
    later m'.extras final →
    (o = .ret .descend ∧ ∃ s', Extends At s s' ∧
      At s' l (k / 512 ^ (l + 1)) (p.next (m'.mem t (k / 512 ^ (l + 1) % 512)) (l + 1)) ∧ R s' k m') ∨
    (o = .ret .next ∧ ∃ s', Extends At s s' ∧
      R s' (min (pagesBelow end_) ((k / 512 ^ (l + 1) + 1) * 512 ^ (l + 1))) m')

/-- The same for a walk that may go wrong, if `stuck`: no other entry ends it. -/
structure Profile.Traverses (p : Profile ε) (later : ε → ε → Prop) (final : ε) (start end_ : Nat)
    (At : γ → Nat → Nat → Nat → Prop) (R : γ → Nat → Machine ε → Prop) (stuck : Prop) : Prop where
  reset : ∀ {s k m}, R s k m → R s k { m with currVa := 0 }
  leaf : ∀ {s k t m o m'}, R s k m → At s 0 (k / 512) t → start / ptPageSize ≤ k → k < pagesBelow end_ →
    p.handleEntry t (k % 512) 0 { m with currVa := max (k * ptPageSize) start } = (o, m') → later m'.extras final →
    ((o = .ret .descend ∨ o = .ret .next) ∧ ∃ s', Extends At s s' ∧ R s' (k + 1) m') ∨
    (stuck ∧ o ≠ .ret .descend ∧ o ≠ .ret .next)
  table : ∀ {s l k t m o m'}, R s k m → l + 1 < 4 → At s (l + 1) (k / 512 ^ (l + 2)) t → start / ptPageSize ≤ k →
    k < pagesBelow end_ →
    p.handleEntry t (k / 512 ^ (l + 1) % 512) (l + 1) { m with currVa := max (k * ptPageSize) start } = (o, m') →
    later m'.extras final →
    (o = .ret .descend ∧ ∃ s', Extends At s s' ∧
      At s' l (k / 512 ^ (l + 1)) (p.next (m'.mem t (k / 512 ^ (l + 1) % 512)) (l + 1)) ∧ R s' k m') ∨
    (o = .ret .next ∧ ∃ s', Extends At s s' ∧
      R s' (min (pagesBelow end_) ((k / 512 ^ (l + 1) + 1) * 512 ^ (l + 1))) m') ∨
    (stuck ∧ o ≠ .ret .descend ∧ o ≠ .ret .next)

section Sweeps

variable {p : Profile ε} {later : ε → ε → Prop} {final : ε} {start end_ : Nat} {At : γ → Nat → Nat → Nat → Prop}
  {R : γ → Nat → Machine ε → Prop} {stuck : Prop}

/-- The walk of a table from `st`, which the walk of the range led to. -/
structure Swept (start end_ : Nat) (At : γ → Nat → Nat → Nat → Prop) (R : γ → Nat → Machine ε → Prop) (g : γ)
    (level table st i : Nat) (m : Machine ε) : Prop where
  levels : level < 4
  atTable : At g level (st / span (level + 1)) table
  index : st / span level % 512 ≤ i
  bound : i ≤ 512
  before : st < end_
  first : st = max (st / ptPageSize * ptPageSize) start
  reached : ∃ s, Extends At g s ∧ R s (min (pagesBelow end_) (pageAt level st i)) m

variable {g : γ} {level table st i : Nat} {m : Machine ε}

theorem Swept.le (h : Swept start end_ At R g level table st i m) : start / ptPageSize ≤ pageAt level st i := by
  refine Nat.le_trans (Nat.div_le_div_right ?_) (le_pageAt h.index)
  rw [h.first]
  exact Nat.le_max_right ..

theorem Swept.entryVa (h : Swept start end_ At R g level table st i m) (geo : p.Geometry) (hend : end_ ≤ 2 ^ 64)
    (hi : i < 512) : p.entryVa level st i = max (pageAt level st i * ptPageSize) start := by
  have hst : st < 2 ^ 64 := Nat.lt_of_lt_of_le h.before hend
  have hpage : st / ptPageSize * ptPageSize ≤ st := Nat.div_mul_le_self ..
  rw [geo.entryVa h.levels hst hi]
  by_cases hidx : i = st / span level % 512
  · rw [if_pos hidx, hidx, pageAt_start]
    exact h.first
  · have hp : ptPageSize = 4096 := rfl
    have hlt : st / ptPageSize < pageAt level st i := by
      refine Nat.lt_of_le_of_ne (le_pageAt h.index) fun heq => hidx ?_
      have hdiv := pageAt_div level st i
      rw [← heq, ← span_div, span_succ, ← Nat.div_div_eq_div_mul] at hdiv
      omega
    have hstart : start ≤ pageAt level st i * ptPageSize := by
      have hle : start ≤ st := by
        rw [h.first]
        exact Nat.le_max_right ..
      rw [hp] at hlt ⊢
      omega
    rw [Nat.max_eq_left hstart, if_neg hidx, pageAt, if_neg hidx, span_eq, hp]
    ac_rfl

/-- The entry is reached: its page, and where that is in the table. -/
theorem Swept.entry (h : Swept start end_ At R g level table st i m) (geo : p.Geometry) (hend : end_ ≤ 2 ^ 64) (hi : i < 512)
    (hva : p.entryVa level st i < end_) :
    pageAt level st i < pagesBelow end_ ∧ pageAt level st i / 512 ^ level % 512 = i ∧
      pageAt level st i / 512 ^ (level + 1) = st / span (level + 1) := by
  rw [h.entryVa geo hend hi] at hva
  have hdiv := pageAt_div level st i
  refine ⟨lt_pagesBelow.2 (Nat.lt_of_le_of_lt (Nat.le_max_left ..) hva), by omega, ?_⟩
  rw [pow_succ, ← Nat.div_div_eq_div_mul]
  omega

/-- Past its entries in the range, the walk of a table has reached the end of
the range or that of the table. -/
theorem Swept.pages (h : Swept start end_ At R g level table st i m) (geo : p.Geometry) (hend : end_ ≤ 2 ^ 64)
    (hi : 512 ≤ i ∨ end_ ≤ p.entryVa level st i) :
    min (pagesBelow end_) (pageAt level st i) = min (pagesBelow end_) ((st / span (level + 1) + 1) * 512 ^ (level + 1)) := by
  by_cases hlt : i < 512
  · -- The range ends before the entry, and so in this table.
    have hva : end_ ≤ p.entryVa level st i := hi.resolve_left (by omega)
    rw [h.entryVa geo hend hlt] at hva
    have hpage : pagesBelow end_ ≤ pageAt level st i := by
      refine Nat.le_of_not_lt fun hk => ?_
      have hlate : end_ ≤ start := by
        have := lt_pagesBelow.1 hk
        omega
      have hle : start ≤ st := by
        rw [h.first]
        exact Nat.le_max_right ..
      have := h.before
      omega
    have hlt' : pageAt level st i < (st / span (level + 1) + 1) * 512 ^ (level + 1) := pageAt_lt hlt
    rw [Nat.min_eq_left hpage, Nat.min_eq_left (by omega)]
  · obtain rfl : i = 512 := by
      have := h.bound
      omega
    have hne : 512 ≠ st / span level % 512 := by omega
    rw [pageAt, if_neg hne, pow_succ', ← Nat.mul_assoc, Nat.mul_comm _ 512, Nat.mul_add_one]

/-- Past the pages of an entry, the walk is at the next one. -/
theorem Swept.step {s : γ} {m' : Machine ε} (h : Swept start end_ At R g level table st i m) (hi : i < 512)
    (hs : Extends At g s) (hR : R s (min (pagesBelow end_) ((pageAt level st i / 512 ^ level + 1) * 512 ^ level)) m') :
    Swept start end_ At R g level table st (i + 1) m' := by
  refine ⟨h.levels, h.atTable, Nat.le_succ_of_le h.index, hi, h.before, h.first, s, hs, ?_⟩
  rwa [pageAt_succ h.index, ← pageAt_div]

/-- What the callbacks do at an entry that the walk reaches: they take it past
the pages of the entry, or to the table of the next level, or it goes wrong. -/
theorem Profile.Traverses.handleEntry {o : Outcome Verdict} {m' : Machine ε} (h : p.Traverses later final start end_ At R stuck)
    (geo : p.Geometry) (hend : end_ ≤ 2 ^ 64) (hJ : Swept start end_ At R g level table st i m) (hi : i < 512)
    (hva : p.entryVa level st i < end_)
    (heq : p.handleEntry table i level { m with currVa := p.entryVa level st i } = (o, m')) (hlater : later m'.extras final) :
    ((o = .ret .next ∨ level = 0 ∧ o = .ret .descend) ∧ Swept start end_ At R g level table st (i + 1) m') ∨
    (o = .ret .descend ∧ ∃ l, level = l + 1 ∧ ∃ s, Extends At g s ∧
      At s l (pageAt level st i / 512 ^ level) (p.next (m'.mem table i) level) ∧ R s (pageAt level st i) m') ∨
    (stuck ∧ o ≠ .ret .descend ∧ o ≠ .ret .next) := by
  obtain ⟨s, hs, hR⟩ := hJ.reached
  obtain ⟨hk, hidx, hslot⟩ := hJ.entry geo hend hi hva
  rw [hJ.entryVa geo hend hi] at heq
  rw [Nat.min_eq_right (Nat.le_of_lt hk)] at hR
  have ht := hs hJ.atTable
  rw [← hslot] at ht
  cases level with
  | zero =>
    rw [pow_zero, Nat.div_one] at hidx
    rw [Nat.zero_add, pow_one] at ht
    rcases h.leaf hR ht hJ.le hk (by rw [hidx]; exact heq) hlater with ⟨ho, s', hs', hR'⟩ | hstuck
    · refine .inl ⟨ho.symm.imp_right fun ho => ⟨rfl, ho⟩, hJ.step hi (fun h => hs' (hs h)) ?_⟩
      rwa [pow_zero, Nat.div_one, Nat.mul_one, Nat.min_eq_right hk]
    · exact .inr (.inr hstuck)
  | succ l =>
    rcases h.table hR hJ.levels ht hJ.le hk (by rw [hidx]; exact heq) hlater with
      ⟨ho, s', hs', ht', hR'⟩ | ⟨ho, s', hs', hR'⟩ | hstuck
    · rw [hidx] at ht'
      exact .inr (.inl ⟨ho, l, rfl, s', fun h => hs' (hs h), ht', hR'⟩)
    · exact .inl ⟨.inl ho, hJ.step hi (fun h => hs' (hs h)) hR'⟩
    · exact .inr (.inr hstuck)

theorem Profile.Traverses.walks (h : p.Traverses later final start end_ At R stuck) (geo : p.Geometry)
    (hend : end_ ≤ 2 ^ 64) :
    p.Walks later final end_ (Swept start end_ At R)
      (fun g level _ st m => ∃ s, Extends At g s ∧
        R s (min (pagesBelow end_) ((st / span (level + 1) + 1) * 512 ^ (level + 1))) m) stuck where
  finish := by
    intro g level table st i m hJ hi
    obtain ⟨s, hs, hR⟩ := hJ.reached
    rw [geo.nbEntries] at hi
    rw [hJ.pages geo hend hi] at hR
    exact ⟨s, hs, h.reset hR⟩
  next := by
    intro g level table st i m m' hJ hi hva heq hlater
    rw [geo.nbEntries] at hi
    rcases h.handleEntry geo hend hJ hi hva heq hlater with ⟨-, hJ'⟩ | ⟨ho, -⟩ | ⟨-, -, hne⟩
    · exact hJ'
    · cases ho
    · exact absurd rfl hne
  leaf := by
    intro g table st i m m' hJ hi hva heq hlater
    rw [geo.nbEntries] at hi
    rcases h.handleEntry geo hend hJ hi hva heq hlater with ⟨-, hJ'⟩ | ⟨-, l, hl, -⟩ | ⟨-, hne, -⟩
    · exact hJ'
    · cases hl
    · exact absurd rfl hne
  enter := by
    intro g level table st i m m' hJ hi hva heq hlater
    rw [geo.nbEntries] at hi
    rcases h.handleEntry geo hend hJ hi hva heq hlater with ⟨ho, -⟩ | ⟨-, l, hl, s', hs', ht', hR'⟩ | ⟨-, hne, -⟩
    · rcases ho with ho | ⟨hl, -⟩
      · cases ho
      · cases hl
    · cases hl
      have hlevel : level < 4 := Nat.lt_of_succ_lt hJ.levels
      have hk := (hJ.entry geo hend hi hva).1
      have hpage := geo.entryVa_page hJ.levels (Nat.lt_of_lt_of_le hJ.before hend) hi
      rw [hJ.entryVa geo hend hi] at hva hpage ⊢
      refine ⟨s', ⟨hlevel, ?_, ?_, ?_, hva, ?_, s', fun h => h, ?_⟩, ?_⟩
      · rwa [span_div, hpage]
      · rw [geo.getIndex hlevel]
      · rw [geo.getIndex hlevel]
        exact Nat.le_of_lt (Nat.mod_lt _ (by decide))
      · rw [hpage]
      · rwa [geo.getIndex hlevel, pageAt_start, hpage, Nat.min_eq_right (Nat.le_of_lt hk)]
      · rintro m'' - - ⟨s'', hs'', hR''⟩
        rw [span_div, hpage] at hR''
        exact hJ.step hi (fun h => hs'' (hs' h)) hR''
    · exact absurd rfl hne
  stop := by
    intro g level table st i m m' o hJ hi hva heq hlater hnext hdescend
    rw [geo.nbEntries] at hi
    rcases h.handleEntry geo hend hJ hi hva heq hlater with ⟨ho, -⟩ | ⟨ho, -⟩ | ⟨hstuck, -⟩
    · rcases ho with ho | ⟨-, ho⟩
      · exact absurd ho hnext
      · exact absurd ho hdescend
    · exact absurd ho hdescend
    · exact hstuck

/-- **The walk of a range reaches the end of it**, or of the addresses below
the root, if it does not go wrong. -/
theorem Profile.Traverses.ptWalkPageRange (h : p.Traverses later final start end_ At R stuck) (ha : p.Advances later)
    (geo : p.Geometry) (hlt : start < end_) (hend : end_ ≤ 2 ^ 64) {s : γ} (root : Nat)
    (hroot : At s ptPML4 (start / span (ptPML4 + 1)) root) (hR : R s (start / ptPageSize) m)
    (hfinal : later (p.ptWalkPageRange ptPML4 root start end_ m).2.extras final) :
    Closes stuck (fun m' => ∃ s', Extends At s s' ∧
        R s' (min (pagesBelow end_) ((start / span (ptPML4 + 1) + 1) * 512 ^ (ptPML4 + 1))) m')
      (p.ptWalkPageRange ptPML4 root start end_ m) := by
  have hlevel : ptPML4 < 4 := by decide
  have hstart : Swept start end_ At R s ptPML4 root start (p.getIndex start ptPML4) m := by
    refine ⟨hlevel, hroot, ?_, ?_, hlt, ?_, s, fun h => h, ?_⟩
    · rw [geo.getIndex hlevel]
    · rw [geo.getIndex hlevel]
      exact Nat.le_of_lt (Nat.mod_lt _ (by decide))
    · exact (Nat.max_eq_right (Nat.div_mul_le_self ..)).symm
    · rwa [geo.getIndex hlevel, pageAt_start, Nat.min_eq_right (Nat.le_of_lt (page_lt_pagesBelow hlt))]
  have hlevels : ptPML4 < p.nbLevels := by
    rw [geo.nbLevels]
    exact hlevel
  exact (h.walks geo hend).ptWalkPageRange_closes ha hlevels s root start m hlt hstart hfinal

theorem Profile.Sweeps.traverses (h : p.Sweeps later final start end_ At R) : p.Traverses later final start end_ At R False where
  reset := h.reset
  leaf hR ht hstart hk heq hlater := .inl (h.leaf hR ht hstart hk heq hlater)
  table hR _ ht hstart hk heq hlater := (h.table hR ht hstart hk heq hlater).imp_right .inl

/-- **The walk of a range returns 0**, and has reached the end of it. -/
theorem Profile.Sweeps.ptWalkPageRange (h : p.Sweeps later final start end_ At R) (ha : p.Advances later) (geo : p.Geometry)
    (hlt : start < end_) (hend : end_ ≤ 2 ^ 48) {s : γ} {root : Nat} (hroot : At s ptPML4 0 root)
    (hR : R s (start / ptPageSize) m)
    (hfinal : later (p.ptWalkPageRange ptPML4 root start end_ m).2.extras final) :
    (p.ptWalkPageRange ptPML4 root start end_ m).1 = .ret 0 ∧
      ∃ s', Extends At s s' ∧ R s' (pagesBelow end_) (p.ptWalkPageRange ptPML4 root start end_ m).2 := by
  have hzero : start / span (ptPML4 + 1) = 0 := Nat.div_eq_of_lt (Nat.lt_of_lt_of_le hlt hend)
  have hpages : pagesBelow end_ ≤ 512 ^ (ptPML4 + 1) := by
    have hp : ptPageSize = 4096 := rfl
    have ha : ptPageAlign = 4095 := rfl
    have h4 : 512 ^ (ptPML4 + 1) = 2 ^ 36 := by decide
    rw [pagesBelow, hp, ha, h4]
    omega
  have hwalk := h.traverses.ptWalkPageRange ha geo hlt (Nat.le_trans hend (by decide)) root (by rwa [hzero]) hR hfinal
  rw [hzero, Nat.zero_add, Nat.one_mul, Nat.min_eq_left hpages] at hwalk
  exact hwalk.resolve_right fun h => h.1

end Sweeps

end Tyche.Pts
