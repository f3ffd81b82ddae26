/-
The walk that maps (`x86_64_how_map`): it fills the absent entries on the way
to the pages of its range, so that the range is present afterwards, and
leaves every other page as it was.
-/
import Tyche.Pts.Visit

namespace Tyche.Pts

open Tyche.Radix

variable {ε : Type}

/-- A call of a mapper: the pointer to the entry, and the current address. -/
structure Call where
  level : Nat
  table : Nat
  index : Nat
  currVa : Nat
deriving DecidableEq, Repr

/-- The calls of the mappers, one after the other. -/
def callAll (mappers : Nat → Callback ε) (l : List Call) (m : Machine ε) : Machine ε :=
  l.foldl (fun m c => (mappers c.level c.table c.index c.level { m with currVa := c.currVa }).2) m

/-- `x86_64_profile` with a mapper at every level, whatever visits. -/
def fillProfile (mappers : Nat → Callback ε) (visitors : Nat → Option (Callback ε)) : Profile ε :=
  { (x86_64Profile : Profile ε) with
    how := x86_64HowMap
    mappers := fun level => some (mappers level)
    visitors := visitors }

/-- An entry of the tree was filled: it is present, and above the leaves it
points to a table that is new to the tree and empty. -/
structure Filled (root level table i : Nat) (mem mem' : Nat → Nat → Nat) : Prop where
  present : Present (mem' table i)
  plain : level = ptPGD ∨ level = ptPMD → ¬ Huge (mem' table i)
  others : layout.WritesOnly mem root table i mem'
  fresh : level ≠ ptPTE → ∀ l q, ¬ layout.Reach mem root l q (x86_64Next (mem' table i) level)
  empty : level ≠ ptPTE → ∀ j < 512, mem' (x86_64Next (mem' table i) level) j = 0

/-- The mappers fill the absent entries of the tree, as long as the machine is
`ok`, and return `WALK`. -/
structure Fills (mappers : Nat → Callback ε) (root : Nat) (ok : Machine ε → Prop) : Prop where
  currVa : ∀ {m} va, ok m → ok { m with currVa := va }
  fills : ∀ {l q t i m}, ok m → layout.Reach m.mem root l q t → i < 512 → ¬ Present (m.mem t i) →
    m.currVa / span l = q * 512 + i →
    (mappers l t i l m).1 = .ret .walk ∧ Filled root l t i m.mem (mappers l t i l m).2.mem ∧ ok (mappers l t i l m).2

/-- The pages from `a` up to `b` that are absent. -/
def absentPages (mem : Nat → Nat → Nat) (root a b : Nat) : List Nat :=
  (List.range' a (b - a)).filter fun n => (presentSlot mem root n).isNone

section Profile

variable (mappers : Nat → Callback ε) (visitors : Nat → Option (Callback ε))

theorem fillProfile_geometry : (fillProfile mappers visitors).Geometry where
  nbLevels := rfl
  nbEntries := rfl
  masks := (@x86_64Profile_geometry ε).masks
  shifts := (@x86_64Profile_geometry ε).shifts

theorem fillProfile_advances : (fillProfile mappers visitors).Advances fun _ _ => True where
  refl _ := trivial
  trans _ _ := trivial
  how _ _ _ _ := trivial
  mapper _ _ _ _ := trivial
  visitor _ _ _ _ := trivial

variable {m : Machine ε} {t i l : Nat}

theorem fillEntry_present (h : Present (m.mem t i)) :
    (fillProfile mappers visitors).handleEntry t i l m = (.ret .descend, m) := by
  have hhow : (fillProfile mappers visitors).how t i l m = (.ret .walk, m) := if_neg (not_not.2 h)
  rw [Profile.handleEntry, hhow]

theorem fillEntry_absent (h : ¬ Present (m.mem t i)) (hwalk : (mappers l t i l m).1 = .ret .walk) :
    (fillProfile mappers visitors).handleEntry t i l m = (.ret .descend, (mappers l t i l m).2) := by
  have hhow : (fillProfile mappers visitors).how t i l m = (.ret .map, m) := if_pos h
  have hmapper : (fillProfile mappers visitors).mappers l = some (mappers l) := rfl
  rw [Profile.handleEntry, hhow]
  dsimp only
  rw [Profile.mapEntry, hmapper]
  dsimp only
  generalize hr : mappers l t i l m = r at hwalk
  obtain ⟨o, m'⟩ := r
  dsimp only at hwalk
  rw [hwalk]

end Profile

/-! ## What filling an entry does to the pages -/

section Pages

variable {mem mem' : Nat → Nat → Nat} {root t i l q n k : Nat}

theorem presentSlot_eq_some (hn : n < 512 ^ 4) :
    presentSlot mem root n = some (t, i) ↔ layout.Reach mem root 0 (n / 512) t ∧ i = n % 512 ∧ Present (mem t i) := by
  rw [presentSlot, Option.filter_eq_some_iff]
  have hslot : layout.slot mem layout.height root n = some (t, i) ↔ _ := layout.slot_eq_some hn
  rw [layout_height, layout_fanout] at hslot
  rw [hslot]
  simp [and_assoc]

theorem presentSlot_congr (hn : n < 512 ^ 4) (h : ∀ t, layout.Reach mem' root 0 (n / 512) t ∧ Present (mem' t (n % 512)) ↔
    layout.Reach mem root 0 (n / 512) t ∧ Present (mem t (n % 512))) : presentSlot mem' root n = presentSlot mem root n := by
  ext ⟨t, i⟩
  rw [presentSlot_eq_some hn, presentSlot_eq_some hn]
  have ht := h t
  constructor
  · rintro ⟨hreach, rfl, hp⟩
    exact ⟨(ht.1 ⟨hreach, hp⟩).1, rfl, (ht.1 ⟨hreach, hp⟩).2⟩
  · rintro ⟨hreach, rfl, hp⟩
    exact ⟨(ht.2 ⟨hreach, hp⟩).1, rfl, (ht.2 ⟨hreach, hp⟩).2⟩

/-- A page is filled: the others stay. -/
theorem Filled.presentSlot_leaf (h : Filled root 0 t (k % 512) mem mem') (hun : layout.Unshared mem root)
    (ht : layout.Reach mem root 0 (k / 512) t) (hn : n < 512 ^ 4) (hne : n ≠ k) :
    presentSlot mem' root n = presentSlot mem root n := by
  refine presentSlot_congr hn fun t' => ?_
  rw [hun.reach_write ht h.others]
  refine and_congr_right fun ht' => ?_
  rw [h.others _ _ _ _ ht']
  rintro rfl hslot
  have hq := (hun _ _ _ _ _ ht' ht).2
  omega

/-- A table is added to what is reached. -/
theorem Filled.reach_table (h : Filled root (l + 1) t i mem mem') (hun : layout.Unshared mem root)
    (ht : layout.Reach mem root (l + 1) q t) (hi : i < 512) (hp : ¬ Present (mem t i)) {l' q' t' : Nat} :
    layout.Reach mem' root l' q' t' ↔ layout.Reach mem root l' q' t' ∨
      (t' = x86_64Next (mem' t i) (l + 1) ∧ l' = l ∧ q' = q * 512 + i) := by
  refine hun.reach_grow ht hi (layout_child_none.2 hp) (h.fresh (Nat.succ_ne_zero l)) (layout_child h.present) ?_ h.others
  intro j hj
  rw [layout_child_none, h.empty (Nat.succ_ne_zero l) j hj]
  exact not_present_zero

theorem Filled.unshared_table (h : Filled root (l + 1) t i mem mem') (hun : layout.Unshared mem root)
    (ht : layout.Reach mem root (l + 1) q t) (hi : i < 512) (hp : ¬ Present (mem t i)) : layout.Unshared mem' root := by
  refine hun.grow ht hi (layout_child_none.2 hp) (h.fresh (Nat.succ_ne_zero l)) (layout_child h.present) ?_ h.others
  intro j hj
  rw [layout_child_none, h.empty (Nat.succ_ne_zero l) j hj]
  exact not_present_zero

/-- A table is added: no page changes. -/
theorem Filled.presentSlot_table (h : Filled root (l + 1) t i mem mem') (hun : layout.Unshared mem root)
    (ht : layout.Reach mem root (l + 1) q t) (hi : i < 512) (hp : ¬ Present (mem t i)) (hn : n < 512 ^ 4) :
    presentSlot mem' root n = presentSlot mem root n := by
  refine presentSlot_congr hn fun t' => ?_
  have hold : layout.Reach mem root 0 (n / 512) t' → mem' t' (n % 512) = mem t' (n % 512) := by
    intro ht'
    refine h.others _ _ _ _ ht' fun heq => ?_
    cases (hun _ _ _ _ _ (heq ▸ ht') ht).1
  rw [h.reach_table hun ht hi hp]
  constructor
  · rintro ⟨ht' | ⟨rfl, -, -⟩, hp'⟩
    · rw [hold ht'] at hp'
      exact ⟨ht', hp'⟩
    · rw [h.empty (Nat.succ_ne_zero l) _ (Nat.mod_lt _ (by decide))] at hp'
      exact absurd hp' not_present_zero
  · rintro ⟨ht', hp'⟩
    rw [hold ht']
    exact ⟨.inl ht', hp'⟩

/-- The tree stays a tree, without huge pages. -/
theorem Filled.noHuge (h : Filled root l t i mem mem') (hun : layout.Unshared mem root)
    (ht : layout.Reach mem root l q t) (hi : i < 512) (hp : ¬ Present (mem t i)) (hhuge : NoHuge mem root) :
    NoHuge mem' root := by
  -- An entry of a table that was there is the one filled, or as it was.
  have hold : ∀ {l' q' t' j}, layout.Reach mem root l' q' t' → l' = ptPGD ∨ l' = ptPMD → j < 512 → Present (mem' t' j) →
      ¬ Huge (mem' t' j) := by
    intro l' q' t' j ht' hl' hj hp'
    by_cases hslot : t' = t ∧ j = i
    · obtain ⟨rfl, rfl⟩ := hslot
      exact h.plain ((hun _ _ _ _ _ ht' ht).1 ▸ hl')
    · rw [h.others _ _ _ _ ht' fun heq hji => hslot ⟨heq, hji⟩] at hp' ⊢
      exact hhuge ht' hl' hj hp'
  intro l' q' t' j ht' hl' hj hp'
  cases l with
  | zero => exact hold ((hun.reach_write ht h.others).1 ht') hl' hj hp'
  | succ l =>
    rcases (h.reach_table hun ht hi hp).1 ht' with ht' | ⟨rfl, -, -⟩
    · exact hold ht' hl' hj hp'
    · rw [h.empty (Nat.succ_ne_zero l) j hj] at hp'
      exact absurd hp' not_present_zero

end Pages

/-! ## The walk -/

section Walk

variable {mappers : Nat → Callback ε} {ok : Machine ε → Prop} {m m' : Machine ε} {root start k : Nat}

/-- The walk has filled the pages from the start up to `k`. -/
structure Filling (mappers : Nat → Callback ε) (ok : Machine ε → Prop) (m : Machine ε) (root start k : Nat)
    (m' : Machine ε) : Prop where
  ok : ok m'
  unshared : layout.Unshared m'.mem root
  noHuge : NoHuge m'.mem root
  kept : ∀ n < 512 ^ 4, ∀ slot, presentSlot m.mem root n = some slot →
    presentSlot m'.mem root n = some slot ∧ m'.mem slot.1 slot.2 = m.mem slot.1 slot.2
  filled : ∀ n < 512 ^ 4, presentSlot m.mem root n = none →
    ((presentSlot m'.mem root n).isSome ↔ start / ptPageSize ≤ n ∧ n < k)
  called : ∃ l va, m' = { callAll mappers l m with currVa := va } ∧
    ((l.filter (·.level = ptPTE)).map (·.currVa)) =
      (absentPages m.mem root (start / ptPageSize) k).map (· * ptPageSize) ∧
    ∀ c ∈ l, c.level = ptPTE → presentSlot m'.mem root (c.currVa / ptPageSize) = some (c.table, c.index)

theorem Filling.currVa (h : Filling mappers ok m root start k m') (va : Nat) (hok : ok { m' with currVa := va }) :
    Filling mappers ok m root start k { m' with currVa := va } := by
  obtain ⟨l, va', rfl, hl⟩ := h.called
  exact ⟨hok, h.unshared, h.noHuge, h.kept, h.filled, l, va, rfl, hl⟩

/-- One more call. -/
theorem callAll_append {l : List Call} {va level t i : Nat} (hm : m' = { callAll mappers l m with currVa := va }) :
    { callAll mappers (l ++ [⟨level, t, i, m'.currVa⟩]) m with currVa := (mappers level t i level m').2.currVa } =
      (mappers level t i level m').2 := by
  have hcall : { callAll mappers l m with currVa := m'.currVa } = m' := by rw [hm]
  have happend : callAll mappers (l ++ [⟨level, t, i, m'.currVa⟩]) m =
      (mappers level t i level { callAll mappers l m with currVa := m'.currVa }).2 := by
    rw [callAll, List.foldl_append]
    rfl
  rw [happend, hcall]

/-- The calls for leaves so far were for pages before `k`. -/
theorem page_of_call {l : List Call} {c : Call} {mem : Nat → Nat → Nat}
    (hl : (l.filter (·.level = ptPTE)).map (·.currVa) =
      (absentPages mem root (start / ptPageSize) k).map (· * ptPageSize)) (hc : c ∈ l) (hlevel : c.level = ptPTE) :
    c.currVa / ptPageSize < k := by
  have hmem : c.currVa ∈ (l.filter (·.level = ptPTE)).map (·.currVa) :=
    List.mem_map_of_mem (List.mem_filter.2 ⟨hc, by simpa using hlevel⟩)
  rw [hl, List.mem_map] at hmem
  obtain ⟨n, hn, heq⟩ := hmem
  have hrange := List.mem_range'_1.1 (List.mem_of_mem_filter hn)
  rw [← heq, Nat.mul_div_cancel _ (by decide)]
  omega

theorem absentPages_succ {mem : Nat → Nat → Nat} {a : Nat} (h : a ≤ k) :
    absentPages mem root a (k + 1) = absentPages mem root a k ++ if (presentSlot mem root k).isNone then [k] else [] := by
  have hlast : a + (k - a) = k := by omega
  rw [absentPages, Nat.succ_sub h, List.range'_1_concat, hlast, List.filter_append, absentPages,
    List.filter_singleton]
  cases (presentSlot mem root k).isNone <;> rfl

/-- A page that is present is passed over. -/
theorem Filling.pass (h : Filling mappers ok m root start k m') (hstart : start / ptPageSize ≤ k) (hk : k < 512 ^ 4)
    (hp : (presentSlot m'.mem root k).isSome) : Filling mappers ok m root start (k + 1) m' := by
  -- It was present before the walk.
  have hold : presentSlot m.mem root k ≠ none := fun hnone => by
    have := (h.filled k hk hnone).1 hp
    omega
  refine ⟨h.ok, h.unshared, h.noHuge, h.kept, fun n hn hnone => ?_, ?_⟩
  · have hne : n ≠ k := fun heq => hold (heq ▸ hnone)
    rw [h.filled n hn hnone]
    omega
  · obtain ⟨l, va, hm, hl, hslots⟩ := h.called
    have hsome : (presentSlot m.mem root k).isNone = false := by simpa [Option.isSome_iff_ne_none] using hold
    refine ⟨l, va, hm, ?_, hslots⟩
    rw [absentPages_succ hstart, hsome, hl]
    simp

variable {t i l q : Nat}

/-- A page is filled. -/
theorem Filling.leaf (h : Filling mappers ok m root start k m') (hfills : Fills mappers root ok)
    (ht : layout.Reach m'.mem root 0 (k / 512) t) (hstart : start / ptPageSize ≤ k) (hk : k < 512 ^ 4)
    (hp : ¬ Present (m'.mem t (k % 512))) (hva : m'.currVa = k * ptPageSize) :
    (mappers 0 t (k % 512) 0 m').1 = .ret .walk ∧
      Extends (fun mem => layout.Reach mem root) m'.mem (mappers 0 t (k % 512) 0 m').2.mem ∧
      Filling mappers ok m root start (k + 1) (mappers 0 t (k % 512) 0 m').2 := by
  have hi : k % 512 < 512 := Nat.mod_lt _ (by decide)
  have haddr : m'.currVa / span 0 = k / 512 * 512 + k % 512 := by
    rw [hva, Nat.div_add_mod']
    exact Nat.mul_div_cancel _ (by decide)
  obtain ⟨hwalk, hfilled, hok⟩ := hfills.fills h.ok ht hi hp haddr
  have hnew : presentSlot m.mem root k = none := by
    refine Option.eq_none_iff_forall_ne_some.2 fun slot hslot => ?_
    have hsome := (h.kept k hk slot hslot).1
    rw [presentSlot_of_reach ht, if_neg hp] at hsome
    cases hsome
  have hthere : presentSlot (mappers 0 t (k % 512) 0 m').2.mem root k = some (t, k % 512) := by
    rw [presentSlot_of_reach ((h.unshared.reach_write ht hfilled.others).2 ht), if_pos hfilled.present]
  refine ⟨hwalk, (h.unshared.reach_write ht hfilled.others).2, hok, h.unshared.write ht hfilled.others, hfilled.noHuge h.unshared ht hi hp h.noHuge, ?_, ?_, ?_⟩
  · intro n hn slot hslot
    have hne : n ≠ k := by
      rintro rfl
      rw [hnew] at hslot
      cases hslot
    obtain ⟨hkept, hword⟩ := h.kept n hn slot hslot
    refine ⟨by rw [hfilled.presentSlot_leaf h.unshared ht hn hne, hkept], ?_⟩
    obtain ⟨ht', hslot', -⟩ := (presentSlot_eq_some hn).1 hkept
    rw [hfilled.others _ _ _ _ ht', hword]
    intro heq hmod
    have hq := (h.unshared _ _ _ _ _ (heq ▸ ht') ht).2
    omega
  · intro n hn hnone
    by_cases hne : n = k
    · subst hne
      rw [hthere]
      simpa using hstart
    · rw [hfilled.presentSlot_leaf h.unshared ht hn hne, h.filled n hn hnone]
      omega
  · obtain ⟨l, va, hm, hl, hslots⟩ := h.called
    refine ⟨l ++ [⟨ptPTE, t, k % 512, k * ptPageSize⟩], (mappers 0 t (k % 512) 0 m').2.currVa, ?_, ?_, ?_⟩
    · rw [← hva, callAll_append hm]
    · rw [absentPages_succ hstart, hnew, List.filter_append, List.map_append, hl]
      simp
    · intro c hc hlevel
      have hpage : k * ptPageSize / ptPageSize = k := Nat.mul_div_cancel _ (by decide)
      rcases List.mem_append.1 hc with hc | hc
      · have hlt := page_of_call hl hc hlevel
        rw [hfilled.presentSlot_leaf h.unshared ht (by omega) (by omega), hslots c hc hlevel]
      · rw [List.mem_singleton] at hc
        subst hc
        rw [hpage, hthere]

/-- A table is added. -/
theorem Filling.table (h : Filling mappers ok m root start k m') (hfills : Fills mappers root ok)
    (ht : layout.Reach m'.mem root (l + 1) q t) (hk : k < 512 ^ 4) (hi : i < 512) (hp : ¬ Present (m'.mem t i))
    (hva : m'.currVa / span (l + 1) = q * 512 + i) :
    (mappers (l + 1) t i (l + 1) m').1 = .ret .walk ∧
      Extends (fun mem => layout.Reach mem root) m'.mem (mappers (l + 1) t i (l + 1) m').2.mem ∧
      layout.Reach (mappers (l + 1) t i (l + 1) m').2.mem root l (q * 512 + i)
        (x86_64Next ((mappers (l + 1) t i (l + 1) m').2.mem t i) (l + 1)) ∧
      Filling mappers ok m root start k (mappers (l + 1) t i (l + 1) m').2 := by
  obtain ⟨hwalk, hfilled, hok⟩ := hfills.fills h.ok ht hi hp hva
  have hpages : ∀ n < 512 ^ 4, presentSlot (mappers (l + 1) t i (l + 1) m').2.mem root n = presentSlot m'.mem root n :=
    fun n hn => hfilled.presentSlot_table h.unshared ht hi hp hn
  have hreach {l' q' t' : Nat} := @Filled.reach_table _ _ _ _ _ _ _ hfilled h.unshared ht hi hp l' q' t'
  refine ⟨hwalk, fun h => hreach.2 (.inl h), hreach.2 (.inr ⟨rfl, rfl, rfl⟩), hok,
    hfilled.unshared_table h.unshared ht hi hp, hfilled.noHuge h.unshared ht hi hp h.noHuge, ?_, ?_, ?_⟩
  · intro n hn slot hslot
    obtain ⟨hkept, hword⟩ := h.kept n hn slot hslot
    refine ⟨by rw [hpages n hn, hkept], ?_⟩
    obtain ⟨ht', -, -⟩ := (presentSlot_eq_some hn).1 hkept
    rw [hfilled.others _ _ _ _ ht', hword]
    intro heq
    cases (h.unshared _ _ _ _ _ (heq ▸ ht') ht).1
  · intro n hn hnone
    rw [hpages n hn, h.filled n hn hnone]
  · obtain ⟨calls, va, hm, hl, hslots⟩ := h.called
    refine ⟨calls ++ [⟨l + 1, t, i, m'.currVa⟩], _, (callAll_append hm).symm, ?_, ?_⟩
    · rw [List.filter_append, List.map_append, hl]
      simp
    · intro c hc hlevel
      rcases List.mem_append.1 hc with hc | hc
      · have hlt := page_of_call hl hc hlevel
        rw [hpages _ (by omega), hslots c hc hlevel]
      · rw [List.mem_singleton.1 hc] at hlevel
        cases hlevel

theorem page_address (hstart : start % ptPageSize = 0) (hk : start / ptPageSize ≤ k) :
    max (k * ptPageSize) start = k * ptPageSize := by
  have hp : ptPageSize = 4096 := rfl
  rw [hp] at hstart hk ⊢
  omega

/-- The walk fills page after page. -/
theorem fill_sweeps (hfills : Fills mappers root ok) (visitors : Nat → Option (Callback ε)) {end_ : Nat}
    (hstart : start % ptPageSize = 0) (hend : pagesBelow end_ ≤ 512 ^ 4) (final : ε) :
    (fillProfile mappers visitors).Sweeps (fun _ _ => True) final start end_ (fun mem => layout.Reach mem root)
      fun mem k m' => mem = m'.mem ∧ Filling mappers ok m root start k m' where
  reset := by
    rintro _ k m' ⟨rfl, h⟩
    exact ⟨rfl, h.currVa 0 (hfills.currVa 0 h.ok)⟩
  leaf := by
    rintro _ k t m₁ o m₂ ⟨rfl, h⟩ ht hk hkend heq -
    have hlt : k < 512 ^ 4 := Nat.lt_of_lt_of_le hkend hend
    rw [page_address hstart hk] at heq
    have h₁ := h.currVa (k * ptPageSize) (hfills.currVa _ h.ok)
    by_cases hp : Present (m₁.mem t (k % 512))
    · rw [fillEntry_present mappers visitors (m := { m₁ with currVa := k * ptPageSize }) hp] at heq
      cases heq
      have hsome : (presentSlot m₁.mem root k).isSome := by rw [presentSlot_of_reach ht, if_pos hp]; rfl
      exact ⟨.inl rfl, _, fun h => h, rfl, h₁.pass hk hlt hsome⟩
    · obtain ⟨hwalk, hext, hnext⟩ := h₁.leaf hfills ht hk hlt hp rfl
      rw [fillEntry_absent mappers visitors (m := { m₁ with currVa := k * ptPageSize }) hp hwalk] at heq
      cases heq
      exact ⟨.inl rfl, _, hext, rfl, hnext⟩
  table := by
    rintro _ l k t m₁ o m₂ ⟨rfl, h⟩ ht hk hkend heq -
    have hlt : k < 512 ^ 4 := Nat.lt_of_lt_of_le hkend hend
    have hi : k / 512 ^ (l + 1) % 512 < 512 := Nat.mod_lt _ (by decide)
    have hslot : k / 512 ^ (l + 2) * 512 + k / 512 ^ (l + 1) % 512 = k / 512 ^ (l + 1) := by
      rw [pow_succ _ (l + 1), ← Nat.div_div_eq_div_mul, Nat.div_add_mod']
    rw [page_address hstart hk] at heq
    have h₁ := h.currVa (k * ptPageSize) (hfills.currVa _ h.ok)
    refine .inl ?_
    by_cases hp : Present (m₁.mem t (k / 512 ^ (l + 1) % 512))
    · rw [fillEntry_present mappers visitors (m := { m₁ with currVa := k * ptPageSize }) hp] at heq
      cases heq
      have hreach := Layout.Reach.child ht hi (layout_child hp)
      rw [layout_fanout, hslot] at hreach
      exact ⟨rfl, _, fun h => h, hreach, rfl, h₁⟩
    · have hva : k * ptPageSize / span (l + 1) = k / 512 ^ (l + 2) * 512 + k / 512 ^ (l + 1) % 512 := by
        rw [hslot, span_div, Nat.mul_div_cancel _ (by decide)]
      obtain ⟨hwalk, hext, hreach, hnext⟩ := h₁.table hfills ht hlt hi hp hva
      rw [fillEntry_absent mappers visitors (m := { m₁ with currVa := k * ptPageSize }) hp hwalk] at heq
      cases heq
      rw [hslot] at hreach
      exact ⟨rfl, _, hext, hreach, rfl, hnext⟩

/-- **A walk that maps** returns 0, and makes its range present. It calls the
mapper of the leaves once for each page of the range that was absent, page
after page, and for nothing else; the leaves that were present are as they
were, and outside the range nothing became present. A walk that visits the
range then visits all of its pages. -/
theorem ptWalkPageRange_fills (hunshared : layout.Unshared m.mem root) (hhuge : NoHuge m.mem root) (hok : ok m)
    (hfills : Fills mappers root ok) (visitors : Nat → Option (Callback ε)) {end_ : Nat}
    (hstart : start % ptPageSize = 0) (hend : end_ % ptPageSize = 0) (hlt : start < end_) (hle : end_ ≤ 2 ^ 48) :
    ∃ m' calls, (fillProfile mappers visitors).ptWalkPageRange ptPML4 root start end_ m = (.ret 0, m') ∧
      m' = { callAll mappers calls m with currVa := 0 } ∧
      (∀ n, start ≤ n * ptPageSize → n * ptPageSize < end_ → (presentSlot m'.mem root n).isSome) ∧
      (calls.filter (·.level = ptPTE)).map (·.currVa) =
        (absentPages m.mem root (start / ptPageSize) (end_ / ptPageSize)).map (· * ptPageSize) ∧
      (∀ c ∈ calls, c.level = ptPTE → presentSlot m'.mem root (c.currVa / ptPageSize) = some (c.table, c.index)) ∧
      (∀ n < 512 ^ 4, ∀ slot, presentSlot m.mem root n = some slot →
        presentSlot m'.mem root n = some slot ∧ m'.mem slot.1 slot.2 = m.mem slot.1 slot.2) ∧
      (∀ n < 512 ^ 4, ¬ (start ≤ n * ptPageSize ∧ n * ptPageSize < end_) →
        ((presentSlot m'.mem root n).isSome ↔ (presentSlot m.mem root n).isSome)) ∧
      ∀ mappers' visitor, ∀ m'' : Machine ε, m''.mem = m'.mem →
        (∀ t i m, (visitor t i ptPTE m).1 = .ret .walk ∨ (visitor t i ptPTE m).1 = .ret .skip) →
        (∀ t i m, SameTree root m''.mem m.mem → SameTree root m''.mem (visitor t i ptPTE m).2.mem) →
        ∃ l, (visitProfile mappers' visitor).ptWalkPageRange ptPML4 root start end_ m'' =
          (.ret 0, { visitAll visitor l m'' with currVa := 0 }) ∧ l.length = (end_ - start) / ptPageSize := by
  have hp : ptPageSize = 4096 := rfl
  have hbelow : pagesBelow end_ = end_ / ptPageSize := by
    have ha : ptPageAlign = 4095 := rfl
    rw [pagesBelow, ha, hp]
    rw [hp] at hend
    omega
  have hpages : pagesBelow end_ ≤ 512 ^ 4 := by
    rw [hbelow, hp]
    omega
  have hstartPages : start / ptPageSize ≤ end_ / ptPageSize := Nat.div_le_div_right (Nat.le_of_lt hlt)
  have hrange : ∀ n, start ≤ n * ptPageSize ∧ n * ptPageSize < end_ ↔ start / ptPageSize ≤ n ∧ n < end_ / ptPageSize := by
    intro n
    rw [hp] at hstart hend ⊢
    omega
  have hbegin : Filling mappers ok m root start (start / ptPageSize) m := by
    refine ⟨hok, hunshared, hhuge, fun n _ slot hslot => ⟨hslot, rfl⟩, fun n _ hnone => ?_, [], m.currVa, rfl, ?_, by simp⟩
    · rw [hnone]
      simp
    · rw [absentPages, Nat.sub_self]
      rfl
  obtain ⟨h0, mem, -, rfl, h⟩ := (fill_sweeps hfills visitors hstart hpages m.extras).ptWalkPageRange
    (fillProfile_advances mappers visitors) (fillProfile_geometry mappers visitors) hlt hle (s := m.mem) (m := m) .root
    ⟨rfl, hbegin⟩ trivial
  have hva := Profile.ptWalkPageRange_currVa _ h0
  rw [hbelow] at h
  generalize hwalk : (fillProfile mappers visitors).ptWalkPageRange ptPML4 root start end_ m = r at h0 hva h
  obtain ⟨o, m'⟩ := r
  dsimp only at h0 hva h
  obtain ⟨calls, va, hm, hcalls, hslots⟩ := h.called
  have hpresent : ∀ n, start / ptPageSize ≤ n → n < end_ / ptPageSize → (presentSlot m'.mem root n).isSome := by
    intro n hn hne
    have hlt' : n < 512 ^ 4 := by omega
    cases hold : presentSlot m.mem root n with
    | none => exact (h.filled n hlt' hold).2 ⟨hn, hne⟩
    | some slot =>
      rw [(h.kept n hlt' slot hold).1]
      rfl
  refine ⟨m', calls, by rw [h0], ?_, ?_, hcalls, hslots, h.kept, ?_, ?_⟩
  · rw [hm] at hva
    dsimp only at hva
    rw [hm, hva]
  · intro n hn hne
    have hin := (hrange n).1 ⟨hn, hne⟩
    exact hpresent n hin.1 hin.2
  · intro n hn hout
    rw [hrange] at hout
    cases hold : presentSlot m.mem root n with
    | none =>
      rw [h.filled n hn hold]
      simpa using hout
    | some slot =>
      rw [(h.kept n hn slot hold).1]
  · intro mappers' visitor m'' hm'' hret hkeep
    rw [← hm''] at hpresent
    refine ⟨_, ptWalkPageRange_visitAll mappers' (by rw [hm'']; exact h.noHuge) hret hkeep hlt hle, ?_⟩
    rw [hbelow, visits_length hstartPages hpresent]
    rw [hp] at hstart hend ⊢
    omega

end Walk

/-! ## Tables in fixed places -/

/-- The address of the table at a place of the tree. -/
def placed (level q : Nat) : Nat := ptPageSize * (level * 2 ^ 30 + q + 1)

/-- A mapper that puts each table in its own place, and maps a page to the
physical page of the same address. -/
def placeMapper (level : Nat) : Callback Unit := fun table i _ m =>
  match level with
  | 0 => (.ret .walk, m.store table i ((m.currVa &&& ptPhysPageMask) ||| (ptPP ||| ptRW)))
  | l + 1 =>
    let f := placed l (m.currVa / span (l + 1))
    (.ret .walk, (m.clear f).store table i (f ||| (ptPP ||| ptRW)))

/-- Every table of the tree is in its place. -/
def InPlace (root : Nat) (m : Machine Unit) : Prop := ∀ l q t, layout.Reach m.mem root l q t → t = placed l q

theorem reach_bound {mem : Nat → Nat → Nat} {root l q t : Nat} (h : layout.Reach mem root l q t) :
    l ≤ 3 ∧ q < 512 ^ (3 - l) := by
  induction h with
  | root => exact ⟨Nat.le_refl _, by decide⟩
  | @child l q t i c _ hi _ ih =>
    rw [layout_fanout] at hi ⊢
    have hpow : 512 ^ (3 - l) = 512 ^ (3 - (l + 1)) * 512 := by
      rw [← pow_succ]
      congr 1
      omega
    rw [hpow]
    omega

theorem placed_inj {l q l' q' : Nat} (hl : q < 2 ^ 30) (hl' : q' < 2 ^ 30) (h : placed l q = placed l' q') :
    l = l' ∧ q = q' := by
  have hsum : l * 2 ^ 30 + q + 1 = l' * 2 ^ 30 + q' + 1 := Nat.eq_of_mul_eq_mul_left (by decide) h
  omega

theorem reach_small {mem : Nat → Nat → Nat} {root l q t : Nat} (h : layout.Reach mem root l q t) : q < 2 ^ 30 := by
  obtain ⟨hl, hq⟩ := reach_bound h
  refine Nat.lt_of_lt_of_le hq ?_
  calc 512 ^ (3 - l) ≤ 512 ^ 3 := Nat.pow_le_pow_right (by decide) (by omega)
    _ ≤ 2 ^ 30 := by decide

section InPlace

variable {m : Machine Unit} {root l q t i : Nat}

theorem InPlace.unshared (h : InPlace root m) : layout.Unshared m.mem root :=
  fun l q l' q' t ht ht' => placed_inj (reach_small ht) (reach_small ht') ((h l q t ht).symm.trans (h l' q' t ht'))

/-- The place below an absent entry is free. -/
theorem InPlace.free (h : InPlace root m) (ht : layout.Reach m.mem root (l + 1) q t) (hi : i < 512)
    (hp : ¬ Present (m.mem t i)) (hsmall : q * 512 + i < 2 ^ 30) (l' q' : Nat) :
    ¬ layout.Reach m.mem root l' q' (placed l (q * 512 + i)) := by
  intro h'
  obtain ⟨rfl, rfl⟩ := placed_inj hsmall (reach_small h') (h l' q' _ h')
  have hlevel := (reach_bound ht).1
  generalize hq : q * 512 + i = p at h'
  generalize placed l p = f at h'
  cases h' with
  | root => exact absurd hlevel (by decide)
  | @child l q₁ t₁ j _ ht₁ hj hc =>
    rw [layout_fanout] at hj hq
    obtain ⟨rfl, rfl⟩ : q = q₁ ∧ i = j := by omega
    rw [h _ _ _ ht₁, ← h _ _ _ ht, layout_child_none.2 hp] at hc
    cases hc

theorem placed_frame (hl : l < 3) (hq : q < 2 ^ 30) : Frame (placed l q) := by
  refine ⟨Nat.mul_mod_right .., ?_⟩
  have hp : ptPageSize = 4096 := rfl
  rw [placed, hp]
  omega

theorem placeMapper_fills (root : Nat) : Fills placeMapper root (InPlace root) where
  currVa _ h := h
  fills := by
    intro l q t i m h ht hi hp hva
    cases l with
    | zero =>
      have hothers : layout.WritesOnly m.mem root t i (placeMapper 0 t i 0 m).2.mem := fun _ _ t' j _ hslot =>
        if_neg fun heq => hslot heq.1 heq.2
      refine ⟨rfl, ⟨?_, fun hl => absurd hl (by decide), hothers, fun h => absurd rfl h, fun h => absurd rfl h⟩, ?_⟩
      · have hword : (placeMapper 0 t i 0 m).2.mem t i = (m.currVa &&& ptPhysPageMask) ||| (ptPP ||| ptRW) := if_pos ⟨rfl, rfl⟩
        rw [hword, (frame_and_mask _).present]
        decide
      · exact fun l' q' t' ht' => h l' q' t' ((h.unshared.reach_write ht hothers).1 ht')
    | succ l =>
      have hbound := reach_bound ht
      have hsmall : q * 512 + i < 2 ^ 30 := by
        have hpow : 512 ^ (3 - (l + 1)) ≤ 512 ^ 2 := Nat.pow_le_pow_right (by decide) (by omega)
        omega
      have hframe : Frame (placed l (q * 512 + i)) := placed_frame (by omega) hsmall
      have hfree := h.free ht hi hp hsmall
      have htf : placed l (q * 512 + i) ≠ t := fun heq => hfree _ _ (heq ▸ ht)
      have hr : placeMapper (l + 1) t i (l + 1) m = (.ret .walk,
          (m.clear (placed l (q * 512 + i))).store t i (placed l (q * 512 + i) ||| (ptPP ||| ptRW))) := by
        rw [placeMapper, hva]
      rw [hr]
      have hword : ((m.clear (placed l (q * 512 + i))).store t i (placed l (q * 512 + i) ||| (ptPP ||| ptRW))).mem t i =
          placed l (q * 512 + i) ||| (ptPP ||| ptRW) := if_pos ⟨rfl, rfl⟩
      have hnext : x86_64Next (((m.clear (placed l (q * 512 + i))).store t i
          (placed l (q * 512 + i) ||| (ptPP ||| ptRW))).mem t i) (l + 1) = placed l (q * 512 + i) := by
        rw [hword]
        exact hframe.next (by decide) _
      have hfilled : Filled root (l + 1) t i m.mem
          ((m.clear (placed l (q * 512 + i))).store t i (placed l (q * 512 + i) ||| (ptPP ||| ptRW))).mem := by
        refine ⟨?_, fun _ => ?_, fun l' q' t' j ht' hslot => ?_, fun _ => ?_, fun _ j _ => ?_⟩
        · rw [hword, hframe.present]
          decide
        · rw [hword, hframe.huge]
          decide
        · have hne : t' ≠ placed l (q * 512 + i) := fun heq => hfree _ _ (heq ▸ ht')
          have hslot : ¬ (t' = t ∧ j = i) := fun heq => hslot heq.1 heq.2
          simp [Machine.store, Machine.clear, hslot, hne]
        · rw [hnext]
          exact hfree
        · rw [hnext]
          simp [Machine.store, Machine.clear, htf]
      refine ⟨rfl, hfilled, fun l' q' t' ht' => ?_⟩
      rcases (hfilled.reach_table h.unshared ht hi hp).1 ht' with ht' | ⟨rfl, rfl, rfl⟩
      · exact h _ _ _ ht'
      · exact hnext

end InPlace

/-- The root of an empty tree, in its place. -/
abbrev placedRoot : Nat := placed ptPML4 0

theorem reach_empty {mem : Nat → Nat → Nat} {root l q t : Nat} (hzero : ∀ i, mem root i = 0)
    (h : layout.Reach mem root l q t) : l = 3 ∧ q = 0 ∧ t = root :=
  h.of_empty fun i _ => layout_child_none.2 (by rw [hzero]; exact not_present_zero)

theorem ptWalkPageRange_fills_placed :
    ∃ m' calls, (fillProfile placeMapper fun _ => none).ptWalkPageRange ptPML4 placedRoot 0x1ff000 0x202000
        ⟨fun _ _ => 0, 0, ()⟩ = (.ret 0, m') ∧
      m' = { callAll placeMapper calls ⟨fun _ _ => 0, 0, ()⟩ with currVa := 0 } ∧
      (∀ n, 0x1ff000 ≤ n * ptPageSize → n * ptPageSize < 0x202000 → (presentSlot m'.mem placedRoot n).isSome) ∧
      (calls.filter (·.level = ptPTE)).map (·.currVa) =
        (absentPages (fun _ _ => 0) placedRoot (0x1ff000 / ptPageSize) (0x202000 / ptPageSize)).map (· * ptPageSize) ∧
      (∀ c ∈ calls, c.level = ptPTE → presentSlot m'.mem placedRoot (c.currVa / ptPageSize) = some (c.table, c.index)) ∧
      (∀ n < 512 ^ 4, ∀ slot, presentSlot (fun _ _ => 0) placedRoot n = some slot →
        presentSlot m'.mem placedRoot n = some slot ∧ m'.mem slot.1 slot.2 = 0) ∧
      (∀ n < 512 ^ 4, ¬ (0x1ff000 ≤ n * ptPageSize ∧ n * ptPageSize < 0x202000) →
        ((presentSlot m'.mem placedRoot n).isSome ↔ (presentSlot (fun _ _ => 0) placedRoot n).isSome)) ∧
      ∀ mappers' visitor, ∀ m'' : Machine Unit, m''.mem = m'.mem →
        (∀ t i m, (visitor t i ptPTE m).1 = .ret .walk ∨ (visitor t i ptPTE m).1 = .ret .skip) →
        (∀ t i m, SameTree placedRoot m''.mem m.mem → SameTree placedRoot m''.mem (visitor t i ptPTE m).2.mem) →
        ∃ l, (visitProfile mappers' visitor).ptWalkPageRange ptPML4 placedRoot 0x1ff000 0x202000 m'' =
          (.ret 0, { visitAll visitor l m'' with currVa := 0 }) ∧ l.length = (0x202000 - 0x1ff000) / ptPageSize := by
  have hplace : InPlace placedRoot ⟨fun _ _ => 0, 0, ()⟩ := by
    intro l q t h
    obtain ⟨rfl, rfl, rfl⟩ := reach_empty (fun _ => rfl) h
    rfl
  exact ptWalkPageRange_fills (m := ⟨fun _ _ => 0, 0, ()⟩) hplace.unshared (fun _ _ _ hp => absurd hp not_present_zero) hplace
    (placeMapper_fills placedRoot) _ (by decide) (by decide) (by decide) (by decide)

end Tyche.Pts
