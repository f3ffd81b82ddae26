/-
What holds wherever a walk is. What the callbacks keep for the tables that
are walked holds at all positions of a walk, and at its end, if each position
that is met is as it should be.
-/
import Tyche.Pts.Descent

namespace Tyche.Pts

variable {ε : Type} {p : Profile ε} {end_ : Nat}

/-! ## What is left of a loop -/

/-- What is left of the loop over a table, from its entry `i` on. -/
def Profile.loop (p : Profile ε) (end_ : Nat) : (level table start i : Nat) → Machine ε → Outcome Int × Machine ε
  | 0, table, start, i, m => p.walkEntries (fun _ _ m => (.fault, m)) table 0 start end_ (p.nbEntries - i) i m
  | level + 1, table, start, i, m =>
    p.walkEntries (fun next va m => p.ptWalkPageRange level next va end_ m) table (level + 1) start end_ (p.nbEntries - i) i m

section Loop

variable {level table start i : Nat} {m m' m'' : Machine ε}

theorem Profile.ptWalkPageRange_eq_loop (p : Profile ε) {root : Nat} (hlt : start < end_) (hlevel : level < p.nbLevels)
    (m : Machine ε) : p.ptWalkPageRange level root start end_ m = p.loop end_ level root start (p.getIndex start level) m := by
  cases level with
  | zero => exact if_pos ⟨hlt, hlevel⟩
  | succ level => exact if_pos ⟨hlt, hlevel⟩

/-- There are more entries to walk. -/
theorem exists_left (hi : i < p.nbEntries) : ∃ n, p.nbEntries - i = n + 1 ∧ p.nbEntries - (i + 1) = n :=
  ⟨p.nbEntries - i - 1, by omega, by omega⟩

theorem loop_done (h : p.nbEntries ≤ i ∨ end_ ≤ p.entryVa level start i) :
    p.loop end_ level table start i m = (.ret 0, { m with currVa := 0 }) := by
  have hdone : ∀ walkNext n, n = p.nbEntries - i → p.walkEntries walkNext table level start end_ n i m =
      (.ret 0, { m with currVa := 0 }) := by
    intro walkNext n hn
    cases n with
    | zero => rfl
    | succ n => exact if_pos (h.resolve_left (by omega))
  cases level <;> exact hdone _ _ rfl

theorem loop_next (hi : i < p.nbEntries) (hva : p.entryVa level start i < end_)
    (heq : p.handleEntry table i level { m with currVa := p.entryVa level start i } = (.ret .next, m')) :
    p.loop end_ level table start i m = p.loop end_ level table start (i + 1) m' := by
  obtain ⟨n, hn, hn'⟩ := exists_left hi
  cases level <;> rw [Profile.loop, Profile.loop, hn, hn', Profile.walkEntries, if_neg (Nat.not_le_of_lt hva), heq]

theorem loop_leaf (hi : i < p.nbEntries) (hva : p.entryVa 0 start i < end_)
    (heq : p.handleEntry table i 0 { m with currVa := p.entryVa 0 start i } = (.ret .descend, m')) :
    p.loop end_ 0 table start i m = p.loop end_ 0 table start (i + 1) m' := by
  obtain ⟨n, hn, hn'⟩ := exists_left hi
  rw [Profile.loop, Profile.loop, hn, hn', Profile.walkEntries, if_neg (Nat.not_le_of_lt hva), heq]
  exact if_pos rfl

/-- A table below is walked, and the loop goes on if that succeeds. -/
theorem loop_descend (hi : i < p.nbEntries) (hva : p.entryVa (level + 1) start i < end_)
    (heq : p.handleEntry table i (level + 1) { m with currVa := p.entryVa (level + 1) start i } = (.ret .descend, m')) {r : Int}
    (hwalk : p.ptWalkPageRange level (p.next (m'.mem table i) (level + 1)) (p.entryVa (level + 1) start i) end_ m' = (.ret r, m''))
    (hr : r ≠ -1) : p.loop end_ (level + 1) table start i m = p.loop end_ (level + 1) table start (i + 1) m'' := by
  obtain ⟨n, hn, hn'⟩ := exists_left hi
  rw [Profile.loop, Profile.loop, hn, hn', Profile.walkEntries, if_neg (Nat.not_le_of_lt hva), heq]
  dsimp only
  rw [if_neg (Nat.succ_ne_zero level), hwalk]
  exact if_neg hr

/-- The walk ends with that of the table below. -/
theorem loop_descend_stop (hi : i < p.nbEntries) (hva : p.entryVa (level + 1) start i < end_)
    (heq : p.handleEntry table i (level + 1) { m with currVa := p.entryVa (level + 1) start i } = (.ret .descend, m'))
    {o : Outcome Int}
    (hwalk : p.ptWalkPageRange level (p.next (m'.mem table i) (level + 1)) (p.entryVa (level + 1) start i) end_ m' = (o, m''))
    (ho : ∀ r, o = .ret r → r = -1) : (p.loop end_ (level + 1) table start i m).2 = m'' := by
  obtain ⟨n, hn, hn'⟩ := exists_left hi
  rw [Profile.loop, hn, Profile.walkEntries, if_neg (Nat.not_le_of_lt hva), heq]
  dsimp only
  rw [if_neg (Nat.succ_ne_zero level), hwalk]
  cases o with
  | ret r =>
    dsimp only
    rw [if_pos (ho r rfl)]
  | fault => rfl
  | freed => rfl

theorem loop_stop (hi : i < p.nbEntries) (hva : p.entryVa level start i < end_) {o : Outcome Verdict}
    (heq : p.handleEntry table i level { m with currVa := p.entryVa level start i } = (o, m'))
    (hnext : o ≠ .ret .next) (hdescend : o ≠ .ret .descend) : (p.loop end_ level table start i m).2 = m' := by
  obtain ⟨n, hn, -⟩ := exists_left hi
  have hstop : ∀ walkNext, (p.walkEntries walkNext table level start end_ (p.nbEntries - i) i m).2 = m' := by
    intro walkNext
    rw [hn, Profile.walkEntries, if_neg (Nat.not_le_of_lt hva), heq]
    cases o with
    | ret v =>
      cases v with
      | next => exact absurd rfl hnext
      | descend => exact absurd rfl hdescend
      | error => rfl
    | fault => rfl
    | freed => rfl
  cases level <;> exact hstop _

end Loop

/-! ## The positions of a walk -/

section Meets

variable {top root first : Nat} {m₀ : Machine ε} {level table start i : Nat} {m : Machine ε}

theorem Profile.Meets.level_lt (h : p.Meets top root first end_ m₀ level table start i m) : level < p.nbLevels := by
  induction h with
  | start _ hlevel => exact hlevel
  | next _ _ _ _ ih | leaf _ _ _ _ ih | back _ _ _ _ _ _ ih => exact ih
  | enter _ _ _ _ ih => omega

theorem Profile.Advances.loop {later : ε → ε → Prop} (h : p.Advances later) (level table start i : Nat) (m : Machine ε) :
    later m.extras (p.loop end_ level table start i m).2.extras := by
  cases level with
  | zero => exact h.walkEntries (fun _ _ _ => h.refl _) ..
  | succ level => exact h.walkEntries (fun _ _ _ => h.ptWalkPageRange ..) ..

/-- What is left of a loop is a part of the walk. -/
theorem Profile.Advances.left {later : ε → ε → Prop} (h : p.Advances later)
    (hmeets : p.Meets top root first end_ m₀ level table start i m) :
    later (p.loop end_ level table start i m).2.extras (p.ptWalkPageRange top root first end_ m₀).2.extras := by
  induction hmeets with
  | start hlt hlevel =>
    rw [p.ptWalkPageRange_eq_loop hlt hlevel]
    exact h.refl _
  | next _ hi hva heq ih => rwa [loop_next hi hva heq] at ih
  | leaf _ hi hva heq ih => rwa [loop_leaf hi hva heq] at ih
  | @enter level table start i m m' hmeets hi hva heq ih =>
    have hlevel := hmeets.level_lt
    rw [← p.ptWalkPageRange_eq_loop hva (by omega)]
    rcases hwalk : p.ptWalkPageRange level (p.next (m'.mem table i) (level + 1)) (p.entryVa (level + 1) start i) end_ m' with
      ⟨o, m''⟩
    by_cases ho : ∀ r, o = .ret r → r = -1
    · rwa [loop_descend_stop hi hva heq hwalk ho] at ih
    · obtain ⟨r, rfl, hr⟩ : ∃ r, o = .ret r ∧ r ≠ -1 := by simpa using ho
      rw [loop_descend hi hva heq hwalk hr] at ih
      exact h.trans (h.loop ..) ih
  | back _ hi hva heq hwalk hr ih => rwa [loop_descend hi hva heq hwalk hr] at ih

/-- What a walk is at comes before what it ends with. -/
theorem Profile.Advances.meets {later : ε → ε → Prop} (h : p.Advances later)
    (hmeets : p.Meets top root first end_ m₀ level table start i m) :
    later m.extras (p.ptWalkPageRange top root first end_ m₀).2.extras :=
  h.trans (h.loop ..) (h.left hmeets)

end Meets

/-! ## What the callbacks keep -/

/-- The later state is good, and has the tables that the earlier one has. -/
structure Kept (good : (Nat → Nat → Nat) → ε → Prop) (at_ : (Nat → Nat → Nat) → ε → Nat → Nat → Prop) (m m' : Machine ε) : Prop where
  good : good m'.mem m'.extras
  tables : ∀ {level table}, at_ m.mem m.extras level table → at_ m'.mem m'.extras level table

/-- At an entry of a table that is walked, the callbacks keep what is `good`,
and the tables, `at_` their levels. If they go on, that is to a state which
is `ok`, and where the table below can be walked. -/
structure Profile.Guards (p : Profile ε) (ok : Machine ε → Prop) (good : (Nat → Nat → Nat) → ε → Prop)
    (at_ : (Nat → Nat → Nat) → ε → Nat → Nat → Prop) : Prop where
  step : ∀ {level table i} {m m' : Machine ε} {va v}, good m.mem m.extras → at_ m.mem m.extras level table → i < p.nbEntries →
    p.handleEntry table i level { m with currVa := va } = (.ret v, m') → v ≠ .error → ok m' → Kept good at_ m m'
  below : ∀ {level table i} {m m' : Machine ε} {va}, good m.mem m.extras → at_ m.mem m.extras (level + 1) table → i < p.nbEntries →
    p.handleEntry table i (level + 1) { m with currVa := va } = (.ret .descend, m') → ok m' →
    at_ m'.mem m'.extras level (p.next (m'.mem table i) (level + 1))
  stop : ∀ {level table i} {m m' : Machine ε} {va o}, good m.mem m.extras → at_ m.mem m.extras level table → i < p.nbEntries →
    p.handleEntry table i level { m with currVa := va } = (o, m') → o ≠ .ret .next → o ≠ .ret .descend → Kept good at_ m m'

section Guards

variable {ok : Machine ε → Prop} {good : (Nat → Nat → Nat) → ε → Prop} {at_ : (Nat → Nat → Nat) → ε → Nat → Nat → Prop}

theorem Kept.trans {m m' m'' : Machine ε} (h : Kept good at_ m m') (h' : Kept good at_ m' m'') : Kept good at_ m m'' :=
  ⟨h'.good, fun hat => h'.tables (h.tables hat)⟩

variable {top root first : Nat} {m₀ : Machine ε}

/-- The positions of a walk all are as they should be. -/
def Profile.AllMet (p : Profile ε) (ok : Machine ε → Prop) (top root first end_ : Nat) (m₀ : Machine ε) : Prop :=
  ∀ {level table start i m}, p.Meets top root first end_ m₀ level table start i m → ok m

/-- What is left of a loop keeps what is good, if the loops below do. -/
theorem Profile.Guards.loop_of_below (h : p.Guards ok good at_) (hok : p.AllMet ok top root first end_ m₀) {level : Nat}
    (hbelow : ∀ {l table start i m}, level = l + 1 → p.Meets top root first end_ m₀ l table start i m → good m.mem m.extras →
      at_ m.mem m.extras l table → Kept good at_ m (p.loop end_ l table start i m).2) (n : Nat) :
    ∀ {table start i m}, n = p.nbEntries - i → p.Meets top root first end_ m₀ level table start i m → good m.mem m.extras →
      at_ m.mem m.extras level table → Kept good at_ m (p.loop end_ level table start i m).2 := by
  induction n with
  | zero =>
    intro table start i m hn _ hgood _
    rw [loop_done (.inl (by omega))]
    exact ⟨hgood, fun hat => hat⟩
  | succ n ih =>
    intro table start i m hn hmeets hgood hat
    have hi : i < p.nbEntries := by omega
    by_cases hva : p.entryVa level start i < end_
    case neg =>
      rw [loop_done (.inr (Nat.le_of_not_lt hva))]
      exact ⟨hgood, fun hat => hat⟩
    rcases heq : p.handleEntry table i level { m with currVa := p.entryVa level start i } with ⟨o, m'⟩
    by_cases hnext : o = .ret .next
    · subst hnext
      have hmet := hmeets.next hi hva heq
      have hkept := h.step hgood hat hi heq (by simp) (hok hmet)
      rw [loop_next hi hva heq]
      exact hkept.trans (ih (by omega) hmet hkept.good (hkept.tables hat))
    by_cases hdescend : o = .ret .descend
    case neg =>
      rw [loop_stop hi hva heq hnext hdescend]
      exact h.stop hgood hat hi heq hnext hdescend
    subst hdescend
    cases level with
    | zero =>
      have hmet := hmeets.leaf hi hva heq
      have hkept := h.step hgood hat hi heq (by simp) (hok hmet)
      rw [loop_leaf hi hva heq]
      exact hkept.trans (ih (by omega) hmet hkept.good (hkept.tables hat))
    | succ l =>
      have hmet := hmeets.enter hi hva heq
      have hkept := h.step hgood hat hi heq (by simp) (hok hmet)
      have hwalked := hbelow rfl hmet hkept.good (h.below hgood hat hi heq (hok hmet))
      have hlevel := hmeets.level_lt
      rw [← p.ptWalkPageRange_eq_loop hva (by omega)] at hwalked
      rcases hwalk : p.ptWalkPageRange l (p.next (m'.mem table i) (l + 1)) (p.entryVa (l + 1) start i) end_ m' with ⟨o, m''⟩
      rw [hwalk] at hwalked
      by_cases ho : ∀ r, o = .ret r → r = -1
      · rw [loop_descend_stop hi hva heq hwalk ho]
        exact hkept.trans hwalked
      · obtain ⟨r, rfl, hr⟩ : ∃ r, o = .ret r ∧ r ≠ -1 := by simpa using ho
        have hmet' := hmeets.back hi hva heq hwalk hr
        rw [loop_descend hi hva heq hwalk hr]
        exact (hkept.trans hwalked).trans (ih (by omega) hmet' hwalked.good (hwalked.tables (hkept.tables hat)))

theorem Profile.Guards.loop (h : p.Guards ok good at_) (hok : p.AllMet ok top root first end_ m₀) (level : Nat) :
    ∀ {table start i m}, p.Meets top root first end_ m₀ level table start i m → good m.mem m.extras →
      at_ m.mem m.extras level table → Kept good at_ m (p.loop end_ level table start i m).2 := by
  induction level with
  | zero => exact h.loop_of_below hok (fun hlevel => by omega) _ rfl
  | succ level ih =>
    refine h.loop_of_below hok (fun hlevel => ?_) _ rfl
    obtain rfl := Nat.succ.inj hlevel
    exact ih

/-- **A walk keeps what its callbacks keep.** -/
theorem Profile.Guards.ptWalkPageRange (h : p.Guards ok good at_) (hok : p.AllMet ok top root first end_ m₀)
    (hgood : good m₀.mem m₀.extras) (hat : at_ m₀.mem m₀.extras top root) :
    Kept good at_ m₀ (p.ptWalkPageRange top root first end_ m₀).2 := by
  by_cases hrange : first < end_ ∧ top < p.nbLevels
  · rw [p.ptWalkPageRange_eq_loop hrange.1 hrange.2]
    exact h.loop hok top (.start hrange.1 hrange.2) hgood hat
  · have hfault : p.ptWalkPageRange top root first end_ m₀ = (.fault, m₀) := by cases top <;> exact if_neg hrange
    rw [hfault]
    exact ⟨hgood, fun hat => hat⟩

/-- **It holds at every position of the walk**, too. -/
theorem Profile.Guards.meets (h : p.Guards ok good at_) (hok : p.AllMet ok top root first end_ m₀)
    (hgood : good m₀.mem m₀.extras) (hat : at_ m₀.mem m₀.extras top root) {level table start i : Nat} {m : Machine ε}
    (hmeets : p.Meets top root first end_ m₀ level table start i m) : good m.mem m.extras ∧ at_ m.mem m.extras level table := by
  induction hmeets with
  | start => exact ⟨hgood, hat⟩
  | next hbefore hi hva heq ih =>
    have hkept := h.step ih.1 ih.2 hi heq (by simp) (hok (hbefore.next hi hva heq))
    exact ⟨hkept.good, hkept.tables ih.2⟩
  | leaf hbefore hi hva heq ih =>
    have hkept := h.step ih.1 ih.2 hi heq (by simp) (hok (hbefore.leaf hi hva heq))
    exact ⟨hkept.good, hkept.tables ih.2⟩
  | enter hbefore hi hva heq ih =>
    have hmet := hok (hbefore.enter hi hva heq)
    exact ⟨(h.step ih.1 ih.2 hi heq (by simp) hmet).good, h.below ih.1 ih.2 hi heq hmet⟩
  | back hbefore hi hva heq hwalk hr ih =>
    have hmet := hbefore.enter hi hva heq
    have hlevel := hbefore.level_lt
    have hkept := h.step ih.1 ih.2 hi heq (by simp) (hok hmet)
    have hwalked := h.loop hok _ hmet hkept.good (h.below ih.1 ih.2 hi heq (hok hmet))
    rw [← p.ptWalkPageRange_eq_loop hva (by omega), hwalk] at hwalked
    exact ⟨hwalked.good, hwalked.tables (hkept.tables ih.2)⟩

end Guards

end Tyche.Pts
