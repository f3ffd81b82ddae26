/-
The physical memory of an enclave (`add_merge_global`): `all_pages` is kept
sorted, and touching ranges of one type are merged. Whatever the order in
which ranges are added, the list is the canonical one for them.
-/
import Tyche.Enclave.Types
import Tyche.Lib.Ranges

namespace Tyche.Enclave

open Tyche.Ranges

/-- The loop of `add_merge_global`: `before` is the list up to `prev`,
nearest first, and `rest` the list from `iter` on. -/
def addMergeLoop (before rest : List PaRegion) (region : PaRegion) : Int × List PaRegion :=
  match rest with
  | [] => (0, before.reverse ++ [region])
  | iter :: after =>
    if overlap iter.start iter.end_ region.start region.end_ then (-1, before.reverse ++ iter :: after)
    -- The region is on the left.
    else if iter.start > region.end_ ∨ (iter.start = region.end_ ∧ iter.tpe ≠ region.tpe) then
      (0, before.reverse ++ region :: iter :: after)
    else if iter.start = region.end_ ∧ iter.tpe = region.tpe then
      (0, before.reverse ++ { iter with start := region.start } :: after)
    -- The region is on the right.
    else if iter.end_ < region.start ∨ (iter.end_ = region.start ∧ iter.tpe ≠ region.tpe) then
      addMergeLoop (iter :: before) after region
    else if iter.end_ = region.start ∧ iter.tpe = region.tpe then
      if after.head?.any fun next => overlap iter.start region.end_ next.start next.end_ then
        (-1, before.reverse ++ iter :: after)
      else
        -- `iter` is removed, and the loop goes on from `prev`, or from the head.
        match before with
        | [] => addMergeLoop [] after { region with start := iter.start }
        | prev :: before => addMergeLoop before (prev :: after) { region with start := iter.start }
    else addMergeLoop (iter :: before) after region
termination_by before.length + 2 * rest.length

/-- `add_merge_global`. -/
def addMergeGlobal (allPages : List PaRegion) (region : PaRegion) : Int × List PaRegion :=
  addMergeLoop [] allPages region

/-! ## The scan is an insertion of typed ranges -/

/-- Ranges of one type are merged. -/
def paMerging : Merging Nat PaRegion where
  start := (·.start)
  stop := (·.end_)
  same a b := a.tpe == b.tpe
  mergeLeft e n := e.tpe == n.tpe
  mergeRight n e := e.tpe == n.tpe
  absorb e n := { n with start := e.start }
  extend n e := { e with start := n.start }

theorem overlap_eq (s1 e1 s2 e2 : Nat) : overlap s1 e1 s2 e2 = meets s1 e1 s2 e2 := by
  simp only [overlap, meets]
  by_cases h1 : s1 ≤ s2 ∧ s2 < e1 <;> by_cases h2 : s2 ≤ s1 ∧ s1 < e2 <;> simp [h1, h2]

@[simp] theorem paMerging_start (r : PaRegion) : paMerging.start r = r.start := rfl
@[simp] theorem paMerging_stop (r : PaRegion) : paMerging.stop r = r.end_ := rfl
@[simp] theorem paMerging_same (a b : PaRegion) : paMerging.same a b = (a.tpe == b.tpe) := rfl
@[simp] theorem paMerging_mergeLeft (e n : PaRegion) : paMerging.mergeLeft e n = (e.tpe == n.tpe) := rfl
@[simp] theorem paMerging_mergeRight (n e : PaRegion) : paMerging.mergeRight n e = (e.tpe == n.tpe) := rfl
@[simp] theorem paMerging_absorb (e n : PaRegion) : paMerging.absorb e n = { n with start := e.start } := rfl
@[simp] theorem paMerging_extend (n e : PaRegion) : paMerging.extend n e = { e with start := n.start } := rfl

variable {α : Type}

/-- What the driver returns for an insertion. -/
def status (r : Bool × List α) : Int × List α := (if r.1 then 0 else -1, r.2)

@[simp] theorem status_true (l : List α) : status (true, l) = (0, l) := rfl
@[simp] theorem status_false (l : List α) : status (false, l) = (-1, l) := rfl
@[simp] theorem status_ite (c : Prop) [Decidable c] (x y : Bool × List α) :
    status (if c then x else y) = if c then status x else status y := apply_ite status c x y

theorem status_ne_zero {r : Bool × List α} (h : (status r).1 ≠ 0) : r.1 = false := by
  cases hr : r.1 with
  | false => rfl
  | true => exact absurd (if_pos hr) h

theorem addMergeLoop_eq (before rest : List PaRegion) (region : PaRegion) :
    addMergeLoop before rest region = status (paMerging.place before rest region) := by
  match rest with
  | [] => rw [addMergeLoop.eq_def, Merging.place.eq_def]; rfl
  | iter :: after =>
    have next := addMergeLoop_eq (iter :: before) after region
    rw [addMergeLoop.eq_def, Merging.place.eq_def]
    match before with
    | [] =>
      have merged := addMergeLoop_eq [] after { region with start := iter.start }
      simp only [paMerging_start, paMerging_stop, paMerging_same, paMerging_mergeLeft, paMerging_mergeRight,
        paMerging_absorb, paMerging_extend, overlap_eq, gt_iff_lt, beq_iff_eq, beq_eq_false_iff_ne, next, merged,
        status_ite, status_true, status_false]
      split_ifs <;> simp [*]
    | prev :: before =>
      have merged := addMergeLoop_eq before (prev :: after) { region with start := iter.start }
      simp only [paMerging_start, paMerging_stop, paMerging_same, paMerging_mergeLeft, paMerging_mergeRight,
        paMerging_absorb, paMerging_extend, overlap_eq, gt_iff_lt, beq_iff_eq, beq_eq_false_iff_ne, next, merged,
        status_ite, status_true, status_false]
      split_ifs <;> simp [*]
termination_by before.length + 2 * rest.length

theorem paMerging_lawful :
    paMerging.Lawful (fun _ => True) (fun _ => True) (fun a b => a.tpe ≠ b.tpe) fun r _ => r.tpe where
  absorb_start _ _ := rfl
  absorb_stop _ _ := rfl
  extend_start _ _ := rfl
  extend_stop _ _ := rfl
  merges _ _ _ _ _ h := h
  absorb_new _ _ _ _ _ _ := trivial
  absorb_view e n _ _ _ h a _ := by
    have : e.tpe = n.tpe := by simpa using h
    simp [this]
  extend_view e n _ _ _ h _ a _ := by
    have : e.tpe = n.tpe := by simpa using h
    simp [this]
  apart_of_not_same e n h := by
    have : e.tpe ≠ n.tpe := by simpa using h
    exact ⟨this, this.symm⟩
  apart_of_not_merge e n _ _ _ h h' := by simp_all
  apart_absorb e n h p hp := by
    have : e.tpe = n.tpe := by simpa using h
    exact this ▸ hp
  apart_extend e n h := by
    have : e.tpe = n.tpe := by simpa using h
    exact ⟨fun p hp => this ▸ hp, fun q hq => hq⟩

/-! ## The list is canonical -/

/-- The range contains the address. -/
def PaRegion.Covers (r : PaRegion) (a : Nat) : Prop := r.start ≤ a ∧ a < r.end_

/-- Merged ranges cover what they did, and no more. -/
theorem paMerging_keeps_covered (A : Nat → Prop) : paMerging.Keeps fun r => ∀ a, r.Covers a → A a where
  absorb := by
    intro e n _ htouch he hn a ha
    have htouch : e.end_ = n.start := htouch
    by_cases h : a < e.end_
    · exact he a ⟨ha.1, h⟩
    · exact hn a ⟨by omega, ha.2⟩
  extend := by
    intro n e _ htouch hn he a ha
    have htouch : e.start = n.end_ := htouch
    by_cases h : a < n.end_
    · exact hn a ⟨ha.1, h⟩
    · exact he a ⟨by omega, ha.2⟩

/-- An address of the list after an addition is one of the list before it, or
of the range: whatever the order of the list, and the answer. -/
theorem addMergeGlobal_covers {l : List PaRegion} {region r : PaRegion} {a : Nat} (hr : r ∈ (addMergeGlobal l region).2)
    (ha : r.Covers a) : (∃ q ∈ l, q.Covers a) ∨ region.Covers a := by
  rw [addMergeGlobal, addMergeLoop_eq] at hr
  exact (paMerging_keeps_covered fun a => (∃ q ∈ l, q.Covers a) ∨ region.Covers a).place (by simp)
    (fun q hq b hb => .inl ⟨q, hq, hb⟩) (fun b hb => .inr hb) r hr a ha

/-- An addition that is refused adds no range. -/
theorem addMergeGlobal_refused (l : List PaRegion) (region : PaRegion) (h : (addMergeGlobal l region).1 ≠ 0) :
    ∀ r ∈ (addMergeGlobal l region).2, r ∈ l := by
  rw [addMergeGlobal, addMergeLoop_eq] at h ⊢
  exact fun r hr => (Merging.place_refused_mem (status_ne_zero h) r hr).resolve_left (by simp)

/-- Some range of the list contains `a`, with the type `t`. -/
def Typed (l : List PaRegion) (a t : Nat) : Prop := ∃ r ∈ l, r.Covers a ∧ r.tpe = t

/-- Sorted, disjoint, and without touching ranges of one type. -/
def Canonical (l : List PaRegion) : Prop :=
  (∀ r ∈ l, r.start < r.end_) ∧ l.Pairwise fun a b => a.end_ ≤ b.start ∧ (a.end_ = b.start → a.tpe ≠ b.tpe)

theorem canonical_iff {l : List PaRegion} : Canonical l ↔ paMerging.Canonical (·.tpe) l :=
  ⟨fun h => ⟨h.1, h.2⟩, fun h => ⟨h.filled, h.pairs⟩⟩

/-- Addresses in a row that have one type are in one range. -/
theorem Canonical.spans {l : List PaRegion} (h : Canonical l) {s e t : Nat} (hlt : s < e)
    (hall : ∀ a, s ≤ a → a < e → Typed l a t) : ∃ r ∈ l, r.tpe = t ∧ r.start ≤ s ∧ e ≤ r.end_ := by
  obtain ⟨r, hr, hcovers, htpe⟩ := hall s (Nat.le_refl s) hlt
  refine ⟨r, hr, htpe, hcovers.1, Nat.le_of_not_lt fun hend => ?_⟩
  -- The range that has the next address would touch `r`.
  obtain ⟨q, hq, hcovers', htpe'⟩ := hall r.end_ (Nat.le_of_lt hcovers.2) hend
  have hne : r ≠ q := by
    rintro rfl
    exact absurd hcovers'.2 (Nat.lt_irrefl _)
  rcases Merging.Sorted.before_or (canonical_iff.1 h) hr hq hne with ⟨hle, hapart⟩ | ⟨hle, -⟩
  · exact hapart (Nat.le_antisymm hle hcovers'.1) (htpe.trans htpe'.symm)
  · exact absurd (Nat.lt_of_lt_of_le hcovers'.2 hle) (Nat.not_lt.2 (Nat.le_trans hcovers.1 (Nat.le_of_lt hcovers.2)))

/-- An address is in one range. -/
theorem Canonical.count_covers {l : List PaRegion} (h : Canonical l) {r : PaRegion} {a : Nat} (hr : r ∈ l)
    (ha : r.Covers a) : l.countP (fun q => decide (q.start ≤ a ∧ a < q.end_)) = 1 :=
  Merging.Sorted.count_covers (canonical_iff.1 h) hr ha

/-- The range contains no address of a range of the list. -/
def Free (l : List PaRegion) (region : PaRegion) : Prop := ∀ r ∈ l, ∀ a, ¬ (r.Covers a ∧ region.Covers a)

theorem free_iff {l : List PaRegion} {region : PaRegion} (hl : ∀ r ∈ l, r.start < r.end_)
    (hr : region.start < region.end_) :
    Free l region ↔ ∀ r ∈ l, meets r.start r.end_ region.start region.end_ = false := by
  refine forall₂_congr fun r hmem => ?_
  rw [← Bool.not_eq_true, Merging.meets_iff_exists (hl r hmem) hr, not_exists]
  rfl

/-- Added to a canonical list, a range is accepted when it is free; otherwise
the list does not change. -/
theorem addMergeGlobal_cases {l : List PaRegion} {region : PaRegion} (hl : Canonical l)
    (hr : region.start < region.end_) :
    (Free l region ∧ ∃ l', addMergeGlobal l region = (0, l') ∧ Canonical l' ∧
      ∀ a t, Typed l' a t ↔ Typed l a t ∨ (region.Covers a ∧ region.tpe = t)) ∨
    (¬ Free l region ∧ addMergeGlobal l region = (-1, l)) := by
  have hs := canonical_iff.1 hl
  by_cases hfree : Free l region
  · obtain ⟨l', h1, h2, h3⟩ := Merging.place_free paMerging_lawful hs (fun _ _ => trivial) hr trivial
      ((free_iff hl.1 hr).1 hfree)
    refine .inl ⟨hfree, l', ?_, canonical_iff.2 h2, h3⟩
    rw [addMergeGlobal, addMergeLoop_eq, h1, status_true]
  · have hmeet : ∃ r ∈ l, meets r.start r.end_ region.start region.end_ = true := by
      by_contra hnone
      exact hfree ((free_iff hl.1 hr).2 fun r hmem => eq_false_of_ne_true fun h => hnone ⟨r, hmem, h⟩)
    refine .inr ⟨hfree, ?_⟩
    rw [addMergeGlobal, addMergeLoop_eq, Merging.place_met hs hr hmeet, status_false]

/-- One addition, to the list and to the ranges accepted so far. -/
def addOne (s : List PaRegion × List PaRegion) (region : PaRegion) : List PaRegion × List PaRegion :=
  match addMergeGlobal s.1 region with
  | (ret, l) => (l, if ret = 0 then region :: s.2 else s.2)

/-- The list and the accepted ranges after the ranges `rs` were added, in
this order, to an empty list. -/
def addAll (rs : List PaRegion) : List PaRegion × List PaRegion := rs.foldl addOne ([], [])

/-- What additions keep: the list is canonical and has the types of the
accepted ranges. -/
structure Merged (s : List PaRegion × List PaRegion) : Prop where
  canonical : Canonical s.1
  typed : ∀ a t, Typed s.1 a t ↔ Typed s.2 a t

theorem Free.of_typed {l l' : List PaRegion} {region : PaRegion} (hty : ∀ a t, Typed l' a t → Typed l a t)
    (h : Free l region) : Free l' region := by
  rintro r hr a ⟨hc, hc'⟩
  obtain ⟨q, hq, hqc, -⟩ := hty a r.tpe ⟨r, hr, hc, rfl⟩
  exact h q hq a ⟨hqc, hc'⟩

theorem Merged.free_iff {s : List PaRegion × List PaRegion} (h : Merged s) (region : PaRegion) :
    Free s.1 region ↔ Free s.2 region :=
  ⟨.of_typed fun a t => (h.typed a t).2, .of_typed fun a t => (h.typed a t).1⟩

theorem typed_cons {r : PaRegion} {l : List PaRegion} {a t : Nat} :
    Typed (r :: l) a t ↔ (r.Covers a ∧ r.tpe = t) ∨ Typed l a t := by simp [Typed]

theorem Merged.addOne {s : List PaRegion × List PaRegion} {region : PaRegion} (h : Merged s)
    (hr : region.start < region.end_) : Merged (addOne s region) := by
  rcases addMergeGlobal_cases h.canonical hr with ⟨-, l', h1, h2, h3⟩ | ⟨-, h1⟩
  · simp only [Enclave.addOne, h1, if_true]
    exact ⟨h2, fun a t => by rw [h3, h.typed, typed_cons, or_comm]⟩
  · simp only [Enclave.addOne, h1]
    exact ⟨h.canonical, h.typed⟩

/-- A range is accepted exactly when it is free of the accepted ones. -/
theorem Merged.addMergeGlobal_eq {s : List PaRegion × List PaRegion} {region : PaRegion} (h : Merged s)
    (hr : region.start < region.end_) (ret : Int) (l : List PaRegion) (heq : addMergeGlobal s.1 region = (ret, l)) :
    (ret = 0 ∧ Free s.2 region ∧ Merged (l, region :: s.2)) ∨ (ret = -1 ∧ ¬ Free s.2 region ∧ l = s.1) := by
  have hone := h.addOne hr
  rw [← h.free_iff]
  rcases addMergeGlobal_cases h.canonical hr with ⟨hfree, l', h1, -⟩ | ⟨hfree, h1⟩
  · rw [h1] at heq
    cases heq
    simp only [Enclave.addOne, h1, if_true] at hone
    exact .inl ⟨rfl, hfree, hone⟩
  · rw [h1] at heq
    cases heq
    exact .inr ⟨rfl, hfree, rfl⟩

/-- The order of the accepted ranges does not matter. -/
theorem Merged.congr {l acc acc' : List PaRegion} (h : Merged (l, acc)) (hset : ∀ r, r ∈ acc ↔ r ∈ acc') :
    Merged (l, acc') :=
  ⟨h.canonical, fun a t => (h.typed a t).trans (by simp [Typed, hset])⟩

theorem merged_nil : Merged ([], []) := ⟨⟨by simp, .nil⟩, by simp⟩

theorem addAll_merged {rs : List PaRegion} (hrs : ∀ r ∈ rs, r.start < r.end_) : Merged (addAll rs) := by
  refine List.foldlRecOn rs addOne (motive := Merged) merged_nil fun s hs r hr => hs.addOne (hrs r hr)

/-- A canonical list is determined by its types. -/
theorem Canonical.unique {l l' : List PaRegion} (h : Canonical l) (h' : Canonical l')
    (hty : ∀ a t, Typed l a t ↔ Typed l' a t) : l = l' :=
  Merging.Canonical.unique (fun e f h1 h2 h3 => by cases e; cases f; simp_all) (canonical_iff.1 h) (canonical_iff.1 h') hty

/-- **`all_pages` is canonical.** After any additions of non-empty ranges,
in any order: the next one returns 0 exactly when it is free of the ranges
accepted before, and leaves the list as it was when it returns -1; the list
is the one canonical list with the types of the accepted ranges, so it
depends on the set of accepted ranges only. -/
theorem addMergeGlobal_canonical (rs : List PaRegion) (hrs : ∀ r ∈ rs, r.start < r.end_) :
    (∀ region : PaRegion, region.start < region.end_ →
      ((addMergeGlobal (addAll rs).1 region).1 = 0 ↔ Free (addAll rs).2 region) ∧
      ((addMergeGlobal (addAll rs).1 region).1 ≠ 0 → addMergeGlobal (addAll rs).1 region = (-1, (addAll rs).1))) ∧
    Canonical (addAll rs).1 ∧
    (∀ a t, Typed (addAll rs).1 a t ↔ Typed (addAll rs).2 a t) ∧
    (∀ l, Canonical l → (∀ a t, Typed l a t ↔ Typed (addAll rs).2 a t) → l = (addAll rs).1) ∧
    ∀ rs' : List PaRegion, (∀ r ∈ rs', r.start < r.end_) → (∀ r, r ∈ (addAll rs').2 ↔ r ∈ (addAll rs).2) →
      (addAll rs').1 = (addAll rs).1 := by
  have h := addAll_merged hrs
  refine ⟨fun region hr => ?_, h.canonical, h.typed, fun l hl hty => ?_, fun rs' hrs' hset => ?_⟩
  · rw [← h.free_iff]
    rcases addMergeGlobal_cases h.canonical hr with ⟨hfree, l', h1, -⟩ | ⟨hfree, h1⟩
    · simp [h1, hfree]
    · simp [h1, hfree]
  · exact hl.unique h.canonical fun a t => (hty a t).trans (h.typed a t).symm
  · have h' := addAll_merged hrs'
    refine h'.canonical.unique h.canonical fun a t => ?_
    rw [h'.typed, h.typed]
    simp [Typed, hset]

/-- Ranges that are bridged, refused and kept apart by their types. -/
theorem addMergeGlobal_canonical_bridged :
    let rs : List PaRegion := [⟨0x1000, 0x2000, 7⟩, ⟨0x3000, 0x4000, 7⟩, ⟨0x2000, 0x3000, 7⟩, ⟨0x3000, 0x5000, 3⟩,
      ⟨0x4000, 0x5000, 3⟩]
    (∀ region : PaRegion, region.start < region.end_ →
      ((addMergeGlobal (addAll rs).1 region).1 = 0 ↔ Free (addAll rs).2 region) ∧
      ((addMergeGlobal (addAll rs).1 region).1 ≠ 0 → addMergeGlobal (addAll rs).1 region = (-1, (addAll rs).1))) ∧
    Canonical (addAll rs).1 ∧
    (∀ a t, Typed (addAll rs).1 a t ↔ Typed (addAll rs).2 a t) ∧
    (∀ l, Canonical l → (∀ a t, Typed l a t ↔ Typed (addAll rs).2 a t) → l = (addAll rs).1) ∧
    ∀ rs' : List PaRegion, (∀ r ∈ rs', r.start < r.end_) → (∀ r, r ∈ (addAll rs').2 ↔ r ∈ (addAll rs).2) →
      (addAll rs').1 = (addAll rs).1 :=
  addMergeGlobal_canonical _ (by decide)

end Tyche.Enclave
