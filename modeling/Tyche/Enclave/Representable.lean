/-
Whether the page table of an enclave can represent its regions. The driver
compares whole addresses, and `region_check` has no bound for them; the
walker selects entries with bits 12 to 47, and stops behind the last entry of
the root. So two pages of an enclave can share a leaf, and a region that
crosses a multiple of `2 ^ 48` is mapped up to there, with no error
(`region_truncated`).
-/
import Tyche.Enclave.AddressSpace
import Tyche.Enclave.Regions
import Tyche.Pts.Trace

namespace Tyche.Enclave

open Tyche.Pts

/-! ## What mapping a region reaches -/

/-- The pages `map_region` comes to, by their addresses. -/
def mapRegionReached (env : Env) (region : Region) (m : Machine MapInfo) : List Nat :=
  (mapperProfile env).reached ptPML4 m.extras.enclave.cr3 region.start region.end_
    { m with extras := m.extras.setRegion region }

/-- The range of a region that was added. -/
structure Region.Ranged (r : Region) : Prop where
  aligned : r.start % ptPageSize = 0 ∧ r.end_ % ptPageSize = 0
  nonempty : r.start < r.end_
  bound : r.end_ < 2 ^ 64
  fresh : r.dangling = false

/-- The region is in one of the ranges of `2 ^ 48` addresses that the walker
tells apart. -/
def Region.InWindow (r : Region) : Prop := r.start / 2 ^ 48 = (r.end_ - 1) / 2 ^ 48

/-- The regions overlap once the first one is moved up by a multiple of
`2 ^ 48`. -/
def Region.Aliases (r r' : Region) : Prop := ∃ j, 0 < j ∧ r.start + j * 2 ^ 48 < r'.end_ ∧ r'.start < r.end_ + j * 2 ^ 48

section Reached

variable {env : Env} {r : Region} {t i l : Nat} {m : Machine MapInfo}

/-- The mapper fills an entry, or it stops the walk. -/
theorem defaultMapper_fills (env : Env) (t i l : Nat) (m : Machine MapInfo) :
    (defaultMapper env t i l m).1 ≠ .ret .skip ∧ (defaultMapper env t i l m).1 ≠ .ret .visit := by
  have hentry : ∀ isHuge pa rest, (entryPage t i isHuge pa rest m).1 ≠ .ret .skip ∧
      (entryPage t i isHuge pa rest m).1 ≠ .ret .visit := by
    intro isHuge pa rest
    unfold entryPage
    split <;> simp
  unfold defaultMapper
  split
  · simp
  split
  · simp
  dsimp only
  split
  · exact hentry ..
  split
  · simp [normalPage]
  split
  · simp
  · exact hentry ..

/-- No entry is passed over. -/
theorem mapperProfile_descends (env : Env) : (mapperProfile env).Descends := by
  intro t i l m
  by_cases hp : Present (m.mem t i)
  · rw [handleEntry_present env hp]
    simp
  have hhow : (mapperProfile env).how t i (l + 1) m = (.ret .map, m) := if_pos hp
  unfold Profile.handleEntry
  rw [hhow]
  dsimp only
  unfold Profile.mapEntry
  cases hmapper : (mapperProfile env).mappers (l + 1) with
  | none => simp [Profile.visitEntry, mapperProfile, x86_64Profile]
  | some f =>
    rw [mapperProfile_mapper hmapper]
    obtain ⟨hskip, hvisit⟩ := defaultMapper_fills env t i (l + 1) m
    dsimp only
    generalize defaultMapper env t i (l + 1) m = result at hskip hvisit
    obtain ⟨o, m'⟩ := result
    match o with
    | .ret .visit => exact absurd rfl hvisit
    | .ret .skip => exact absurd rfl hskip
    | .ret .walk | .ret .map | .ret .error | .fault | .freed => simp

/-- **If mapping a region returns 0**, it has reached the pages up to the next
multiple of `2 ^ 48`. -/
theorem mem_mapRegionReached (hr : r.Ranged) (h : (mapRegion env r m).1 = .ret 0) {n : Nat} :
    n * ptPageSize ∈ mapRegionReached env r m ↔
      r.start / ptPageSize ≤ n ∧ n < min (r.end_ / ptPageSize) ((r.start / 2 ^ 48 + 1) * 2 ^ 36) := by
  have hreached := (mapperProfile_descends env).reached_eq (mapperProfile_geometry env) hr.nonempty
    (Nat.le_of_lt hr.bound) h
  have hstart : r.start = r.start / ptPageSize * ptPageSize := by
    have := Nat.div_add_mod' r.start ptPageSize
    have := hr.aligned.1
    omega
  rw [pagesBelow_aligned hr.aligned.2] at hreached
  rw [mapRegionReached, hreached, mem_pageAddrs hstart]
  rfl

/-- It has reached all of them if the region is in one window. -/
theorem mapRegion_reaches_iff (hr : r.Ranged) (h : (mapRegion env r m).1 = .ret 0) :
    (∀ n, r.HasPage n → n * ptPageSize ∈ mapRegionReached env r m) ↔ r.InWindow := by
  have hp : ptPageSize = 4096 := rfl
  have ha := hr.aligned
  have hlt := hr.nonempty
  simp only [mem_mapRegionReached hr h, Region.HasPage, Region.InWindow]
  rw [hp] at ha ⊢
  constructor
  · intro hall
    have hlast := hall (r.end_ / 4096 - 1) (by omega)
    omega
  · intro hwindow n hn
    omega

/-- **Mapping a region returns 0** when there is a physical page for each of
its pages: whatever is in memory, and whatever fails. -/
theorem mapRegion_succeeds (env : Env) (m : Machine MapInfo) (hlt : r.start < r.end_) (hbound : r.end_ ≤ 2 ^ 64)
    (hfresh : r.dangling = false) (hsize : ∀ pa ∈ r.pas, sub64 pa.end_ pa.start = ptPageSize)
    (hcount : pagesBelow r.end_ ≤ r.start / ptPageSize + r.pas.length) : (mapRegion env r m).1 = .ret 0 := by
  have htraverses : (mapperProfile env).Traverses Later (mapRegion env r m).2.extras r.start r.end_
      (fun (_ : Unit) _ _ _ => True)
      (fun _ k m => m.extras.region = some r ∧ (∀ pa ∈ m.extras.paRegion, sub64 pa.end_ pa.start = ptPageSize) ∧
        pagesBelow r.end_ ≤ k + m.extras.paRegion.length) False := by
    refine ⟨fun h => h, ?_, ?_⟩
    · rintro s k t m o m' ⟨hregion, hsize, hcount⟩ - hstart hk heq -
      by_cases hp : Present (m.mem t (k % 512))
      · rw [handleEntry_present env (l := 0) (m := { m with currVa := max (k * ptPageSize) r.start }) hp] at heq
        cases heq
        exact .inl ⟨.inl rfl, (), fun h => h, hregion, hsize, by dsimp only; omega⟩
      obtain ⟨pa, rest, hpas⟩ : ∃ pa rest, m.extras.paRegion = pa :: rest :=
        List.exists_cons_of_length_pos (by omega)
      rw [hpas] at hsize hcount
      have hentry := handleEntry_leaf env (m := { m with currVa := max (k * ptPageSize) r.start }) hp hpas hregion
        hfresh (hsize pa (List.mem_cons_self ..))
      rw [hentry] at heq
      cases heq
      refine .inl ⟨.inl rfl, (), fun h => h, hregion, fun pa' hpa' => hsize pa' (List.mem_cons_of_mem _ hpa'), ?_⟩
      rw [List.length_cons] at hcount
      dsimp only
      omega
    · rintro s l k t m o m' ⟨hregion, hsize, hcount⟩ hl - hstart hk heq -
      by_cases hp : Present (m.mem t (k / 512 ^ (l + 1) % 512))
      · rw [handleEntry_present env (l := l + 1) (m := { m with currVa := max (k * ptPageSize) r.start }) hp] at heq
        cases heq
        exact .inl ⟨rfl, (), fun h => h, trivial, hregion, hsize, hcount⟩
      obtain ⟨pa, rest, hpas⟩ : ∃ pa rest, m.extras.paRegion = pa :: rest :=
        List.exists_cons_of_length_pos (by omega)
      have hentry := handleEntry_table env (m := { m with currVa := max (k * ptPageSize) r.start }) hp
        (Nat.le_of_lt_succ hl) hpas hregion hfresh (hsize pa (by rw [hpas]; exact List.mem_cons_self ..))
      rw [hentry] at heq
      cases heq
      obtain ⟨hregion', hpas'⟩ := allocate_keeps env { m with currVa := max (k * ptPageSize) r.start }
      refine .inl ⟨rfl, (), fun h => h, trivial, hregion'.trans hregion, ?_⟩
      show (∀ pa ∈ (allocate _ _).2.extras.paRegion, _) ∧ _ ≤ _ + (allocate _ _).2.extras.paRegion.length
      rw [hpas']
      exact ⟨hsize, hcount⟩
  have hcloses := htraverses.ptWalkPageRange (mapperProfile_advances env) (mapperProfile_geometry env) hlt hbound
    (s := ()) m.extras.enclave.cr3 (m := { m with extras := m.extras.setRegion r }) trivial
    ⟨rfl, hsize, hcount⟩ (Later.refl _)
  exact (hcloses.resolve_right fun h => h.1).1

end Reached

/-! ## The regions that were added -/

/-- The pages of the regions have leaves of their own, and a region is not
mapped in part: if `map_region` returns 0, whatever pages were collected for
it, it has come to every page. -/
structure Representable (regions : List Region) : Prop where
  distinct : ∀ env, ∀ r ∈ regions, ∀ r' ∈ regions, ∀ n n', r.HasPage n → r'.HasPage n' → n ≠ n' →
    (mapperProfile env).leafSlot (n * ptPageSize) ≠ (mapperProfile env).leafSlot (n' * ptPageSize)
  whole : ∀ env, ∀ r ∈ regions, ∀ pas m, (mapRegion env { r with pas := pas } m).1 = .ret 0 →
    ∀ n, r.HasPage n → n * ptPageSize ∈ mapRegionReached env { r with pas := pas } m

theorem regionMerging_keeps_ranged : regionMerging.Keeps Region.Ranged where
  absorb := by
    intro e n _ htouch he hn
    have htouch : e.end_ = n.start := htouch
    exact ⟨⟨he.aligned.1, hn.aligned.2⟩, Nat.lt_trans he.nonempty (htouch ▸ hn.nonempty), hn.bound, hn.fresh⟩
  extend := by
    intro n e _ htouch hn he
    have htouch : e.start = n.end_ := htouch
    exact ⟨⟨hn.aligned.1, he.aligned.2⟩, Nat.lt_trans hn.nonempty (htouch ▸ he.nonempty), he.bound, he.fresh⟩

theorem regions_ranged {l : List Region} {accepted : List AddRegion} (h : Added (fun _ req => req.end_ < 2 ^ 64) l accepted) :
    ∀ r ∈ l, r.Ranged := by
  have hstep : ∀ {l l' req ret} mem, (∀ r ∈ l, r.Ranged) → req.end_ < 2 ^ 64 → addRegion mem req l = (ret, l') →
      ∀ r ∈ l', r.Ranged := by
    intro l l' req ret mem hl hend hadd
    have hl' : ∀ r ∈ (addRegion mem req l).2, r.Ranged := addRegion_keeps regionMerging_keeps_ranged mem hl fun hcheck => by
      obtain ⟨⟨hstart, hstop, -⟩, hlt, -⟩ := regionCheck_iff.1 hcheck
      exact ⟨⟨hstart, hstop⟩, hlt, hend, rfl⟩
    rwa [hadd] at hl'
  induction h with
  | none => simp
  | accept mem req _ hok hadd ih => exact hstep mem ih hok hadd
  | reject mem req _ hok hadd ih => exact hstep mem ih hok hadd

section Slots

variable {r r' : Region}

/-- Regions alias when they have pages a multiple of `2 ^ 36` apart. -/
theorem Region.Ranged.aliases_iff (hr : r.Ranged) (hr' : r'.Ranged) :
    r.Aliases r' ↔ ∃ n n', r.HasPage n ∧ r'.HasPage n' ∧ n < n' ∧ n % 512 ^ 4 = n' % 512 ^ 4 := by
  have hp : ptPageSize = 4096 := rfl
  have ha := hr.aligned
  have ha' := hr'.aligned
  have hlt := hr.nonempty
  have hlt' := hr'.nonempty
  have hpow : 512 ^ 4 = 2 ^ 36 := by decide
  have hspan : 2 ^ 48 = 4096 * 2 ^ 36 := by decide
  have hpos : 0 < 2 ^ 36 := Nat.two_pow_pos _
  simp only [Region.HasPage, Region.Aliases]
  rw [hp] at ha ha' ⊢
  rw [hpow, hspan]
  generalize 2 ^ 36 = w at hpos
  constructor
  · rintro ⟨j, hj, hover, hover'⟩
    have hmul : j * (4096 * w) = 4096 * (j * w) := Nat.mul_left_comm ..
    have hjw : 0 < j * w := Nat.mul_pos hj hpos
    rw [hmul] at hover hover'
    -- The first page that both of them have, once the first one is moved.
    by_cases hle : r.start / 4096 + j * w ≤ r'.start / 4096
    · refine ⟨r'.start / 4096 - j * w, r'.start / 4096, by omega, by omega, by omega, ?_⟩
      have hback : r'.start / 4096 = r'.start / 4096 - j * w + j * w := by omega
      rw [hback, Nat.add_mul_mod_self_right, ← hback]
    · refine ⟨r.start / 4096, r.start / 4096 + j * w, by omega, by omega, by omega, ?_⟩
      rw [Nat.add_mul_mod_self_right]
  · rintro ⟨n, n', hn, hn', hne, hmod⟩
    obtain ⟨j, hj⟩ : w ∣ n' - n := Nat.dvd_of_mod_eq_zero (Nat.sub_mod_eq_zero_of_mod_eq hmod.symm)
    have hmul : j * (4096 * w) = 4096 * (w * j) := by rw [Nat.mul_left_comm, Nat.mul_comm j]
    refine ⟨j, Nat.pos_of_ne_zero ?_, by rw [hmul]; omega, by rw [hmul]; omega⟩
    rintro rfl
    omega

/-- Two pages of the regions share a leaf exactly if one region aliases the
other. -/
theorem distinct_iff {env : Env} (hr : r.Ranged) (hr' : r'.Ranged) :
    (∀ n n', r.HasPage n → r'.HasPage n' → n ≠ n' →
      (mapperProfile env).leafSlot (n * ptPageSize) ≠ (mapperProfile env).leafSlot (n' * ptPageSize)) ↔
    ¬ r.Aliases r' ∧ ¬ r'.Aliases r := by
  have hslot : ∀ n n', (mapperProfile env).leafSlot (n * ptPageSize) = (mapperProfile env).leafSlot (n' * ptPageSize) ↔
      n % 512 ^ 4 = n' % 512 ^ 4 := by
    intro n n'
    rw [(mapperProfile_geometry env).leafSlot_eq_iff, Nat.mul_div_cancel _ (by decide), Nat.mul_div_cancel _ (by decide)]
  rw [hr.aliases_iff hr', hr'.aliases_iff hr]
  constructor
  · intro h
    refine ⟨fun ⟨n, n', hn, hn', hlt, heq⟩ => ?_, fun ⟨n', n, hn', hn, hlt, heq⟩ => ?_⟩
    · exact h n n' hn hn' (Nat.ne_of_lt hlt) ((hslot n n').2 heq)
    · exact h n n' hn hn' (Nat.ne_of_gt hlt) ((hslot n n').2 heq.symm)
  · rintro ⟨h, h'⟩ n n' hn hn' hne heq
    rcases Nat.lt_or_gt_of_ne hne with hlt | hgt
    · exact h ⟨n, n', hn, hn', hlt, (hslot n n').1 heq⟩
    · exact h' ⟨n', n, hn', hn, hgt, ((hslot n n').1 heq).symm⟩

end Slots

/-- The machine of an enclave, with an empty table for its root. -/
def emptyRoot (encl : Encl) : Machine MapInfo where
  mem _ _ := 0
  currVa := 0
  extras := { intermedFlags := 0, region := none, paRegion := [], enclave := { encl with cr3 := 0x100000 }, log := [] }

end Tyche.Enclave
