/-
The regions of an enclave (`add_region`): the list is kept sorted, and a
region is merged with the neighbours that have its type and flags and whose
sources are contiguous with its own.

Two things go wrong. A right neighbour of the same type and flags whose
source is not contiguous is passed over, and the region goes in behind it:
the list is out of order (`regions_sorted_fails`), and a request can be
refused after it was merged with a region (`refused_changes`). And a region
that absorbs its left neighbour keeps its own source, which is then the
source of another address (`sources_fail`).
-/
import Tyche.Enclave.AllPages

namespace Tyche.Enclave

open Tyche.Ranges

/-- The loop of `add_region`: `before` is the list up to `prev`, nearest
first, and `rest` the list from `reg_iter` on. -/
def addRegionLoop (before rest : List Region) (eReg : Region) : Int × List Region :=
  match rest with
  | [] => (0, before.reverse ++ [eReg])
  | regIter :: after =>
    if overlap regIter.start regIter.end_ eReg.start eReg.end_ then (-1, before.reverse ++ regIter :: after)
    -- The region is on the left.
    else if regIter.start > eReg.end_ ∨
        (regIter.start = eReg.end_ ∧ (regIter.tpe ≠ eReg.tpe ∨ regIter.flags ≠ eReg.flags)) then
      (0, before.reverse ++ eReg :: regIter :: after)
    else if regIter.start = eReg.end_ ∧ regIter.src = add64 eReg.src (eReg.end_ - eReg.start) ∧
        regIter.tpe = eReg.tpe ∧ regIter.flags = eReg.flags then
      (0, before.reverse ++ { regIter with start := eReg.start, src := eReg.src } :: after)
    -- The region is on the right.
    else if regIter.end_ < eReg.start ∨
        (regIter.end_ = eReg.start ∧ (regIter.tpe ≠ eReg.tpe ∨ regIter.flags ≠ eReg.flags)) then
      addRegionLoop (regIter :: before) after eReg
    else if regIter.end_ = eReg.start ∧ eReg.src = add64 regIter.src (regIter.end_ - regIter.start) ∧
        regIter.tpe = eReg.tpe ∧ regIter.flags = eReg.flags then
      if after.head?.any fun next => overlap regIter.start eReg.end_ next.start next.end_ then
        (-1, before.reverse ++ regIter :: after)
      else
        -- Only the start is moved: the source stays that of the new region.
        match before with
        | [] => addRegionLoop [] after { eReg with start := regIter.start }
        | prev :: before => addRegionLoop before (prev :: after) { eReg with start := regIter.start }
    else addRegionLoop (regIter :: before) after eReg
termination_by before.length + 2 * rest.length

/-- The region a request is for. -/
def AddRegion.region (req : AddRegion) : Region :=
  { start := req.start, end_ := req.end_, src := req.src, flags := req.flags, tpe := req.tpe }

/-- `add_region`, on the list of the enclave found; `mem` is false when
`kmalloc` fails. -/
def addRegion (mem : Bool) (req : AddRegion) (regions : List Region) : Int × List Region :=
  if regionCheck req = false then (-1, regions)
  else if mem = false then (-1, regions)
  else addRegionLoop [] regions req.region

/-! ## The scan is an insertion -/

/-- Regions of one type and the same flags are merged when their sources are
contiguous. -/
def regionMerging : Merging Nat Region where
  start := (·.start)
  stop := (·.end_)
  same a b := decide (a.tpe = b.tpe ∧ a.flags = b.flags)
  mergeLeft e n := decide (n.src = add64 e.src (e.end_ - e.start) ∧ e.tpe = n.tpe ∧ e.flags = n.flags)
  mergeRight n e := decide (e.src = add64 n.src (n.end_ - n.start) ∧ e.tpe = n.tpe ∧ e.flags = n.flags)
  absorb e n := { n with start := e.start }
  extend n e := { e with start := n.start, src := n.src }

@[simp] theorem regionMerging_start (r : Region) : regionMerging.start r = r.start := rfl
@[simp] theorem regionMerging_stop (r : Region) : regionMerging.stop r = r.end_ := rfl
@[simp] theorem regionMerging_same (a b : Region) :
    regionMerging.same a b = decide (a.tpe = b.tpe ∧ a.flags = b.flags) := rfl
@[simp] theorem regionMerging_mergeLeft (e n : Region) : regionMerging.mergeLeft e n =
    decide (n.src = add64 e.src (e.end_ - e.start) ∧ e.tpe = n.tpe ∧ e.flags = n.flags) := rfl
@[simp] theorem regionMerging_mergeRight (n e : Region) : regionMerging.mergeRight n e =
    decide (e.src = add64 n.src (n.end_ - n.start) ∧ e.tpe = n.tpe ∧ e.flags = n.flags) := rfl
@[simp] theorem regionMerging_absorb (e n : Region) : regionMerging.absorb e n = { n with start := e.start } := rfl
@[simp] theorem regionMerging_extend (n e : Region) :
    regionMerging.extend n e = { e with start := n.start, src := n.src } := rfl

theorem addRegionLoop_eq (before rest : List Region) (eReg : Region) :
    addRegionLoop before rest eReg = status (regionMerging.place before rest eReg) := by
  match rest with
  | [] => rw [addRegionLoop.eq_def, Merging.place.eq_def]; rfl
  | regIter :: after =>
    have next := addRegionLoop_eq (regIter :: before) after eReg
    rw [addRegionLoop.eq_def, Merging.place.eq_def]
    match before with
    | [] =>
      have merged := addRegionLoop_eq [] after { eReg with start := regIter.start }
      simp only [regionMerging_start, regionMerging_stop, regionMerging_same, regionMerging_mergeLeft,
        regionMerging_mergeRight, regionMerging_absorb, regionMerging_extend, overlap_eq, gt_iff_lt, decide_eq_true_eq,
        decide_eq_false_iff_not, not_and_or, next, merged, status_ite, status_true, status_false]
      split_ifs <;> simp [*]
    | prev :: before =>
      have merged := addRegionLoop_eq before (prev :: after) { eReg with start := regIter.start }
      simp only [regionMerging_start, regionMerging_stop, regionMerging_same, regionMerging_mergeLeft,
        regionMerging_mergeRight, regionMerging_absorb, regionMerging_extend, overlap_eq, gt_iff_lt, decide_eq_true_eq,
        decide_eq_false_iff_not, not_and_or, next, merged, status_ite, status_true, status_false]
      split_ifs <;> simp [*]
termination_by before.length + 2 * rest.length

/-- What merging keeps of regions, an addition keeps. -/
theorem addRegion_keeps {P : Region → Prop} (h : regionMerging.Keeps P) (mem : Bool) {req : AddRegion} {l : List Region}
    (hl : ∀ r ∈ l, P r) (hreq : regionCheck req = true → P req.region) : ∀ r ∈ (addRegion mem req l).2, P r := by
  unfold addRegion
  split
  · exact hl
  next hcheck =>
  split
  · exact hl
  · rw [addRegionLoop_eq]
    exact h.place (by simp) hl (hreq (by simpa using hcheck))

theorem addRegion_ret (mem : Bool) (req : AddRegion) (l : List Region) :
    (addRegion mem req l).1 = 0 ∨ (addRegion mem req l).1 = -1 := by
  unfold addRegion
  split
  · exact .inr rfl
  split
  · exact .inr rfl
  rw [addRegionLoop_eq, status]
  split
  · exact .inl rfl
  · exact .inr rfl

/-! ## Requests -/

/-- The request passes the checks and meets no region: it is to be added. -/
def Admissible (regions : List Region) (req : AddRegion) : Prop :=
  regionCheck req = true ∧ ∀ r ∈ regions, overlap r.start r.end_ req.start req.end_ = false

/-- The region starts where the request ends, and has its type and flags. -/
def Abuts (r : Region) (req : AddRegion) : Prop :=
  r.start = req.end_ ∧ r.tpe = req.tpe ∧ r.flags = req.flags

/-- The source of the region starts where that of the request ends. -/
def SrcFollows (r : Region) (req : AddRegion) : Prop := r.src = add64 req.src (req.end_ - req.start)

/-- The request is merged with the region on its left. -/
def Continues (r : Region) (req : AddRegion) : Prop :=
  r.end_ = req.start ∧ r.tpe = req.tpe ∧ r.flags = req.flags ∧ req.src = add64 r.src (r.end_ - r.start)

instance (regions : List Region) (req : AddRegion) : Decidable (Admissible regions req) :=
  inferInstanceAs (Decidable (_ ∧ _))
instance (r : Region) (req : AddRegion) : Decidable (Abuts r req) := inferInstanceAs (Decidable (_ ∧ _))
instance (r : Region) (req : AddRegion) : Decidable (SrcFollows r req) := inferInstanceAs (Decidable (_ = _))
instance (r : Region) (req : AddRegion) : Decidable (Continues r req) := inferInstanceAs (Decidable (_ ∧ _))

/-- Additions to an empty list, each allowed by `ok`: the list reached and
the requests accepted, latest first. -/
inductive Added (ok : List Region → AddRegion → Prop) : List Region → List AddRegion → Prop
  | none : Added ok [] []
  | accept {regions regions' : List Region} {accepted : List AddRegion} (mem : Bool) (req : AddRegion)
      (h : Added ok regions accepted) (hok : ok regions req) (hadd : addRegion mem req regions = (0, regions')) :
      Added ok regions' (req :: accepted)
  | reject {regions regions' : List Region} {accepted : List AddRegion} (mem : Bool) (req : AddRegion)
      (h : Added ok regions accepted) (hok : ok regions req) (hadd : addRegion mem req regions = (-1, regions')) :
      Added ok regions' accepted

/-- Non-empty regions, each behind the one before. -/
def SortedDisjoint (l : List Region) : Prop :=
  (∀ r ∈ l, r.start < r.end_) ∧ l.Pairwise fun a b => a.end_ ≤ b.start

theorem sortedDisjoint_iff {l : List Region} : SortedDisjoint l ↔ regionMerging.Sorted (fun _ _ => True) l :=
  ⟨fun h => ⟨h.1, h.2.imp fun h => ⟨h, fun _ => trivial⟩⟩, fun h => ⟨h.filled, h.pairs.imp fun h => h.1⟩⟩

/-- An addition to a sorted list, when merging is lawful for it: the request
is accepted when it is admissible and there is memory; otherwise the list
does not change. -/
theorem addRegion_cases {β : Type} {view : Region → Nat → β} {P : Region → Prop} {l : List Region} {req : AddRegion}
    (mem : Bool) (hl : SortedDisjoint l)
    (hlaw : Admissible l req → regionMerging.Lawful (· ∈ l) P (fun _ _ => True) view ∧ P req.region) :
    (Admissible l req ∧ ∃ l', addRegion mem req l = (0, l') ∧ SortedDisjoint l' ∧
      ∀ a v, regionMerging.Shows view l' a v ↔ regionMerging.Shows view l a v ∨
        (regionMerging.Covers req.region a ∧ view req.region a = v)) ∨
    addRegion mem req l = (-1, l) := by
  have hs := sortedDisjoint_iff.1 hl
  by_cases hcheck : regionCheck req = true
  · have hlt : regionMerging.start req.region < regionMerging.stop req.region := regionCheck_lt hcheck
    cases mem with
    | false => exact .inr (by simp [addRegion, hcheck])
    | true =>
      have hadd : addRegion true req l = status (regionMerging.place [] l req.region) := by
        simp [addRegion, hcheck, addRegionLoop_eq]
      by_cases hmeet : ∃ r ∈ l, meets r.start r.end_ req.start req.end_ = true
      · exact .inr (by rw [hadd, Merging.place_met hs hlt hmeet, status_false])
      · have hfree : ∀ r ∈ l, meets r.start r.end_ req.start req.end_ = false :=
          fun r hr => eq_false_of_ne_true fun h => hmeet ⟨r, hr, h⟩
        have hadm : Admissible l req := ⟨hcheck, fun r hr => by rw [overlap_eq]; exact hfree r hr⟩
        obtain ⟨hlaw, hP⟩ := hlaw hadm
        obtain ⟨l', h1, h2, h3⟩ := Merging.place_free hlaw hs (fun _ h => h) hlt hP hfree
        exact .inl ⟨hadm, l', by rw [hadd, h1, status_true], sortedDisjoint_iff.2 h2, h3⟩
  · exact .inr (by simp [addRegion, hcheck])

/-! ## The list stays sorted -/

/-- A region that abuts the request on the right has a source that follows
the request's, and then no region continues into the request on the left. -/
def WellPlaced (regions : List Region) (req : AddRegion) : Prop :=
  Admissible regions req → ∀ r ∈ regions, Abuts r req → SrcFollows r req ∧ ∀ q ∈ regions, ¬ Continues q req

instance (regions : List Region) (req : AddRegion) : Decidable (WellPlaced regions req) :=
  inferInstanceAs (Decidable (_ → _))

/-- What the region being added is in the scan: it has grown to the left
only if nothing abuts it. -/
def Placing (l : List Region) (req : AddRegion) (n : Region) : Prop :=
  n.end_ = req.end_ ∧ n.tpe = req.tpe ∧ n.flags = req.flags ∧
    ((∀ r ∈ l, ¬ Abuts r req) ∨ (n = req.region ∧ ∀ r ∈ l, Abuts r req → SrcFollows r req ∧ ∀ q ∈ l, ¬ Continues q req))

theorem regionMerging_placing (l : List Region) (req : AddRegion) :
    regionMerging.Lawful (· ∈ l) (Placing l req) (fun _ _ => True) fun _ _ => () where
  absorb_start _ _ := rfl
  absorb_stop _ _ := rfl
  extend_start _ _ := rfl
  extend_stop _ _ := rfl
  merges e n he hn h hs := by
    obtain ⟨hend, htpe, hflags, hcase⟩ := hn
    have hsame : e.tpe = n.tpe ∧ e.flags = n.flags := by simpa using hs
    have habut : Abuts e req := ⟨Eq.trans h hend, hsame.1.trans htpe, hsame.2.trans hflags⟩
    rcases hcase with hnone | ⟨rfl, hall⟩
    · exact absurd habut (hnone e he)
    · have hsrc : e.src = add64 req.src (req.end_ - req.start) := (hall e he habut).1
      simpa [AddRegion.region, hsrc] using hsame
  absorb_new e n he hn h hm := by
    obtain ⟨hend, htpe, hflags, hcase⟩ := hn
    refine ⟨hend, htpe, hflags, .inl ?_⟩
    rcases hcase with hnone | ⟨rfl, hall⟩
    · exact hnone
    · -- `e` continues into the request, so nothing abuts it.
      intro r hr habut
      have hcont : req.src = add64 e.src (e.end_ - e.start) ∧ e.tpe = req.tpe ∧ e.flags = req.flags := by
        simpa [AddRegion.region] using hm
      exact (hall r hr habut).2 e he ⟨h, hcont.2.1, hcont.2.2, hcont.1⟩
  absorb_view _ _ _ _ _ _ _ _ := by simp
  extend_view _ _ _ _ _ _ _ _ _ := by simp
  apart_of_not_same _ _ _ := ⟨trivial, trivial⟩
  apart_of_not_merge _ _ _ _ _ _ _ := trivial
  apart_absorb _ _ _ _ _ := trivial
  apart_extend _ _ _ := ⟨fun _ _ => trivial, fun _ _ => trivial⟩

theorem WellPlaced.placing {l : List Region} {req : AddRegion} (h : WellPlaced l req) (hadm : Admissible l req) :
    Placing l req req.region := by
  refine ⟨rfl, rfl, rfl, ?_⟩
  by_cases hnone : ∀ r ∈ l, ¬ Abuts r req
  · exact .inl hnone
  · exact .inr ⟨rfl, h hadm⟩

/-- The request covers the address. -/
def AddRegion.Covers (req : AddRegion) (a : Nat) : Prop := req.start ≤ a ∧ a < req.end_

/-- Some region covers the address. -/
def Covered (l : List Region) (a : Nat) : Prop := ∃ r ∈ l, r.start ≤ a ∧ a < r.end_

theorem shows_covered {l : List Region} {a : Nat} : regionMerging.Shows (fun _ _ => ()) l a () ↔ Covered l a := by
  simp [Merging.Shows, Merging.Covers, Covered]

/-- What additions keep: the regions are sorted and cover what the accepted
requests do, each address once. -/
structure Placed (l : List Region) (accepted : List AddRegion) : Prop where
  sorted : SortedDisjoint l
  covered : ∀ a, Covered l a ↔ ∃ q ∈ accepted, q.Covers a
  disjoint : accepted.Pairwise fun p q => ∀ a, ¬ (p.Covers a ∧ q.Covers a)

theorem Admissible.free {l : List Region} {req : AddRegion} (h : Admissible l req)
    (hl : ∀ r ∈ l, r.start < r.end_) {a : Nat} (ha : Covered l a) : ¬ req.Covers a := by
  obtain ⟨r, hr, hra⟩ := ha
  intro hreq
  have hmeet : overlap r.start r.end_ req.start req.end_ = true := by
    rw [overlap_eq, Merging.meets_iff_exists (hl r hr) (regionCheck_lt h.1)]
    exact ⟨a, hra, hreq⟩
  rw [h.2 r hr] at hmeet
  cases hmeet

theorem Placed.accept {l l' : List Region} {accepted : List AddRegion} {req : AddRegion} (h : Placed l accepted)
    (hadm : Admissible l req) (hl' : SortedDisjoint l')
    (hview : ∀ a v, regionMerging.Shows (fun _ _ => ()) l' a v ↔ regionMerging.Shows (fun _ _ => ()) l a v ∨
      (regionMerging.Covers req.region a ∧ () = v)) : Placed l' (req :: accepted) := by
  have hcov : ∀ a, Covered l' a ↔ Covered l a ∨ req.Covers a := by
    intro a
    rw [← shows_covered, ← shows_covered, hview]
    simp [Merging.Covers, AddRegion.region, AddRegion.Covers]
  refine ⟨hl', fun a => ?_, List.pairwise_cons.2 ⟨fun q hq a hboth => ?_, h.disjoint⟩⟩
  · rw [hcov, h.covered]
    simp [or_comm]
  · exact hadm.free h.sorted.1 ((h.covered a).2 ⟨q, hq, hboth.2⟩) hboth.1

theorem Added.placed {l : List Region} {accepted : List AddRegion} (h : Added WellPlaced l accepted) :
    Placed l accepted := by
  induction h with
  | none => exact ⟨⟨by simp, .nil⟩, by simp [Covered], .nil⟩
  | @accept l l₁ accepted mem req _ hok hadd ih =>
    rcases addRegion_cases mem ih.sorted fun hadm => ⟨regionMerging_placing l req, hok.placing hadm⟩ with
      ⟨hadm, l', h1, h2, h3⟩ | h1
    · rw [h1] at hadd
      cases hadd
      exact ih.accept hadm h2 h3
    · rw [h1] at hadd
      cases hadd
  | @reject l l₁ accepted mem req _ hok hadd ih =>
    rcases addRegion_cases mem ih.sorted fun hadm => ⟨regionMerging_placing l req, hok.placing hadm⟩ with
      ⟨-, l', h1, -⟩ | h1
    · rw [h1] at hadd
      cases hadd
    · rw [h1] at hadd
      cases hadd
      exact ih

/-- **The regions stay sorted and disjoint**, and so do the accepted
requests, when every admissible request is well placed. -/
theorem regions_sorted {l : List Region} {accepted : List AddRegion} (h : Added WellPlaced l accepted) :
    SortedDisjoint l ∧ accepted.Pairwise fun p q => ∀ a, ¬ (p.Covers a ∧ q.Covers a) :=
  ⟨h.placed.sorted, h.placed.disjoint⟩

/-- Regions merged on both sides, and one refused. -/
theorem regions_sorted_merged :
    let region : Region := { start := 0x1000, end_ := 0x3000, src := 0x8000, flags := teRead, tpe := 4 }
    let req : AddRegion := ⟨1, 0x2000, 0x3000, 0x9000, teRead, 4⟩
    let req' : AddRegion := ⟨1, 0x1000, 0x2000, 0x8000, teRead, 4⟩
    SortedDisjoint [region] ∧ [req', req].Pairwise fun p q => ∀ a, ¬ (p.Covers a ∧ q.Covers a) := by
  intro region req req'
  have h1 : Added WellPlaced [req.region] [req] := .accept true req .none (by decide) (by decide +kernel)
  have h2 : Added WellPlaced [region] [req', req] := .accept true req' h1 (by decide) (by decide +kernel)
  have h3 : Added WellPlaced [region] [req', req] := .reject true req h2 (by decide) (by decide +kernel)
  exact regions_sorted h3

/-- The request that ends where a region of its type and flags starts, with
a source that is not contiguous, goes in behind it. -/
theorem regions_sorted_fails :
    ¬ ∀ (l : List Region) (accepted : List AddRegion), Added (fun _ _ => True) l accepted →
      SortedDisjoint l ∧ accepted.Pairwise fun p q => ∀ a, ¬ (p.Covers a ∧ q.Covers a) := by
  intro h
  let req : AddRegion := ⟨1, 0x2000, 0x3000, 0x8000, teRead, 4⟩
  let req' : AddRegion := ⟨1, 0x1000, 0x2000, 0xa000, teRead, 4⟩
  have h1 : Added (fun _ _ => True) [req.region] [req] := .accept true req .none trivial (by decide +kernel)
  have h2 : Added (fun _ _ => True) [req.region, req'.region] [req', req] :=
    .accept true req' h1 trivial (by decide +kernel)
  have := (h _ _ h2).1.2
  exact absurd this (by decide)

/-! ## The sources are preserved -/

/-- What abuts the request on the right has a source that follows its own,
and no region continues into the request on the left. -/
def WellSourced (regions : List Region) (req : AddRegion) : Prop :=
  Admissible regions req →
    (∀ r ∈ regions, Abuts r req → SrcFollows r req) ∧ ∀ q ∈ regions, ¬ Continues q req

instance (regions : List Region) (req : AddRegion) : Decidable (WellSourced regions req) :=
  inferInstanceAs (Decidable (_ → _))

/-- What the region says of an address: its source, the flags and the type. -/
def Region.view (r : Region) (a : Nat) : Nat × Nat × Nat := (add64 r.src (a - r.start), r.flags, r.tpe)

theorem add64_add64 (a b c : Nat) : add64 (add64 a b) c = add64 a (b + c) := by
  simp [add64, Nat.add_assoc]

theorem WellSourced.lawful {l : List Region} {req : AddRegion} (h : WellSourced l req) (hadm : Admissible l req) :
    regionMerging.Lawful (· ∈ l) (· = req.region) (fun _ _ => True) Region.view := by
  obtain ⟨hright, hleft⟩ := h hadm
  -- The request is never merged on the left.
  have never : ∀ e ∈ l, regionMerging.stop e = regionMerging.start req.region →
      regionMerging.mergeLeft e req.region = true → False := by
    intro e he hend hm
    have hm : req.src = add64 e.src (e.end_ - e.start) ∧ e.tpe = req.tpe ∧ e.flags = req.flags := by
      simpa [AddRegion.region] using hm
    exact hleft e he ⟨hend, hm.2.1, hm.2.2, hm.1⟩
  exact {
    absorb_start := fun _ _ => rfl
    absorb_stop := fun _ _ => rfl
    extend_start := fun _ _ => rfl
    extend_stop := fun _ _ => rfl
    merges := by
      rintro e n he rfl hend hs
      have hsame : e.tpe = req.tpe ∧ e.flags = req.flags := by simpa [AddRegion.region] using hs
      have hsrc : e.src = add64 req.src (req.end_ - req.start) := hright e he ⟨hend, hsame⟩
      simpa [AddRegion.region, hsrc] using hsame
    absorb_new := by
      rintro e n he rfl hend hm
      exact (never e he hend hm).elim
    absorb_view := by
      rintro e n he rfl hend hm
      exact (never e he hend hm).elim
    extend_view := by
      rintro e n he rfl hend hm hlt a ha
      have hm : e.src = add64 req.src (req.end_ - req.start) ∧ e.tpe = req.tpe ∧ e.flags = req.flags := by
        simpa [AddRegion.region] using hm
      have hend : e.start = req.end_ := hend
      have hlt : req.start < req.end_ := hlt
      have ha : req.start ≤ a := ha
      show (add64 req.src (a - req.start), e.flags, e.tpe) = _
      split
      · rw [hm.2.1, hm.2.2]; rfl
      · next hge =>
        have hge : ¬ a < req.end_ := hge
        have hsplit : a - req.start = (req.end_ - req.start) + (a - req.end_) := by omega
        rw [Region.view, hm.1, hend, add64_add64, hsplit]
    apart_of_not_same := fun _ _ _ => ⟨trivial, trivial⟩
    apart_of_not_merge := fun _ _ _ _ _ _ _ => trivial
    apart_absorb := fun _ _ _ _ _ => trivial
    apart_extend := fun _ _ _ => ⟨fun _ _ => trivial, fun _ _ => trivial⟩ }

/-- What additions keep: the list is sorted, and says of every address what
the accepted requests do. -/
structure Sourced (l : List Region) (accepted : List AddRegion) : Prop where
  sorted : SortedDisjoint l
  views : ∀ a v, regionMerging.Shows Region.view l a v ↔ ∃ q ∈ accepted, q.Covers a ∧ q.region.view a = v

theorem Added.sourced {l : List Region} {accepted : List AddRegion} (h : Added WellSourced l accepted) :
    Sourced l accepted := by
  induction h with
  | none => exact ⟨⟨by simp, .nil⟩, by simp [Merging.Shows]⟩
  | @accept l l₁ accepted mem req _ hok hadd ih =>
    rcases addRegion_cases mem ih.sorted fun hadm => ⟨hok.lawful hadm, rfl⟩ with ⟨hadm, l', h1, h2, h3⟩ | h1
    · rw [h1] at hadd
      cases hadd
      refine ⟨h2, fun a v => ?_⟩
      have hreq : regionMerging.Covers req.region a ↔ req.Covers a := Iff.rfl
      rw [h3, ih.views, hreq]
      simp [or_comm]
    · rw [h1] at hadd
      cases hadd
  | @reject l l₁ accepted mem req _ hok hadd ih =>
    rcases addRegion_cases mem ih.sorted fun hadm => ⟨hok.lawful hadm, rfl⟩ with ⟨-, l', h1, -⟩ | h1
    · rw [h1] at hadd
      cases hadd
    · rw [h1] at hadd
      cases hadd
      exact ih

/-- **Merging preserves the sources**, when every admissible request is well
sourced: exactly one region covers each address of an accepted request, and
says of it what the request did. -/
theorem sources_preserved {l : List Region} {accepted : List AddRegion} (h : Added WellSourced l accepted) :
    ∀ req ∈ accepted, ∀ o < req.end_ - req.start,
      l.countP (fun r => decide (r.start ≤ req.start + o ∧ req.start + o < r.end_)) = 1 ∧
      ∀ r ∈ l, r.start ≤ req.start + o → req.start + o < r.end_ →
        add64 r.src (req.start + o - r.start) = add64 req.src o ∧ r.flags = req.flags ∧ r.tpe = req.tpe := by
  intro req hreq o ho
  have hs := sortedDisjoint_iff.1 h.sourced.sorted
  have hcov : req.Covers (req.start + o) := ⟨by omega, by omega⟩
  obtain ⟨r, hr, hrc, hrv⟩ := (h.sourced.views _ _).2 ⟨req, hreq, hcov, rfl⟩
  refine ⟨hs.count_covers hr hrc, fun q hq hq1 hq2 => ?_⟩
  obtain rfl : q = r := hs.covers_unique hq hr ⟨hq1, hq2⟩ hrc
  simpa [Region.view, AddRegion.region] using hrv

/-- A request merged on the right, between regions it is not merged with. -/
theorem sources_preserved_merged :
    let region : Region := { start := 0x1000, end_ := 0x3000, src := 0x8000, flags := teRead, tpe := 4 }
    let req : AddRegion := ⟨1, 0x2000, 0x3000, 0x9000, teRead, 4⟩
    let req' : AddRegion := ⟨1, 0x1000, 0x2000, 0x8000, teRead, 4⟩
    ∀ q ∈ [req', req], ∀ o < q.end_ - q.start,
      [region].countP (fun r => decide (r.start ≤ q.start + o ∧ q.start + o < r.end_)) = 1 ∧
      ∀ r ∈ [region], r.start ≤ q.start + o → q.start + o < r.end_ →
        add64 r.src (q.start + o - r.start) = add64 q.src o ∧ r.flags = q.flags ∧ r.tpe = q.tpe := by
  intro region req req'
  have h1 : Added WellSourced [req.region] [req] := .accept true req .none (by decide) (by decide +kernel)
  have h2 : Added WellSourced [region] [req', req] := .accept true req' h1 (by decide) (by decide +kernel)
  exact sources_preserved h2

/-- The region that absorbs its left neighbour takes its own source to the
start of the neighbour. -/
theorem sources_fail :
    ¬ ∀ (l : List Region) (accepted : List AddRegion), Added (fun _ _ => True) l accepted →
      ∀ req ∈ accepted, ∀ o < req.end_ - req.start,
        l.countP (fun r => decide (r.start ≤ req.start + o ∧ req.start + o < r.end_)) = 1 ∧
        ∀ r ∈ l, r.start ≤ req.start + o → req.start + o < r.end_ →
          add64 r.src (req.start + o - r.start) = add64 req.src o ∧ r.flags = req.flags ∧ r.tpe = req.tpe := by
  intro h
  let region : Region := { start := 0x1000, end_ := 0x3000, src := 0x9000, flags := teRead, tpe := 4 }
  let req : AddRegion := ⟨1, 0x1000, 0x2000, 0x8000, teRead, 4⟩
  let req' : AddRegion := ⟨1, 0x2000, 0x3000, 0x9000, teRead, 4⟩
  have h1 : Added (fun _ _ => True) [req.region] [req] := .accept true req .none trivial (by decide +kernel)
  have h2 : Added (fun _ _ => True) [region] [req', req] := .accept true req' h1 trivial (by decide +kernel)
  have hsrc := ((h _ _ h2 req' (by simp) 0 (by decide)).2 region (by simp) (by decide) (by decide)).1
  exact absurd hsrc (by decide)

/-! ## A refused request -/

/-- The scan for the request stops at the region: it goes in before it, or is
merged with it. -/
def StopsAt (r : Region) (req : AddRegion) : Prop :=
  r.start > req.end_ ∨ (r.start = req.end_ ∧ (Abuts r req → SrcFollows r req))

instance (r : Region) (req : AddRegion) : Decidable (StopsAt r req) := inferInstanceAs (Decidable (_ ∨ _))

/-- The scan for the request merges it with a region on its left before it
meets another one, or stops. -/
def absorbs (req : AddRegion) : List Region → Bool
  | [] => false
  | r :: after =>
    if overlap r.start r.end_ req.start req.end_ ∨ StopsAt r req then false
    else if Continues r req then !after.head?.any fun next => overlap r.start req.end_ next.start next.end_
    else absorbs req after

/-- A refused region leaves no more regions than there were. -/
theorem addRegionLoop_length {before rest l' : List Region} {eReg : Region}
    (h : addRegionLoop before rest eReg = (-1, l')) : l'.length ≤ before.length + rest.length := by
  rw [addRegionLoop_eq] at h
  have hfalse : (regionMerging.place before rest eReg).1 = false := status_ne_zero (by rw [h]; simp)
  obtain ⟨-, rfl⟩ := Prod.mk.inj h
  exact Merging.place_refused_length hfalse

/-- The scan is refused before it has merged anything, or the list has fewer
regions. -/
theorem addRegionLoop_refused {req : AddRegion} {before rest l' : List Region}
    (h : addRegionLoop before rest req.region = (-1, l')) :
    (absorbs req rest = false → l' = before.reverse ++ rest) ∧
      (absorbs req rest = true → l'.length < before.length + rest.length) := by
  induction rest generalizing before with
  | nil =>
    rw [addRegionLoop.eq_def] at h
    cases h
  | cons r after ih =>
    rw [addRegionLoop.eq_def] at h
    dsimp only at h
    by_cases hover : overlap r.start r.end_ req.start req.end_ = true
    · rw [if_pos (by exact hover)] at h
      cases h
      simp [absorbs, hover]
    rw [if_neg (by exact hover)] at h
    by_cases hbeyond : r.start > req.end_ ∨ (r.start = req.end_ ∧ (r.tpe ≠ req.tpe ∨ r.flags ≠ req.flags))
    · rw [if_pos (by exact hbeyond)] at h
      cases h
    rw [if_neg (by exact hbeyond)] at h
    by_cases hextend : r.start = req.end_ ∧ r.src = add64 req.src (req.end_ - req.start) ∧ r.tpe = req.tpe ∧ r.flags = req.flags
    · rw [if_pos (by exact hextend)] at h
      cases h
    rw [if_neg (by exact hextend)] at h
    have hgo : ¬ (overlap r.start r.end_ req.start req.end_ = true ∨ StopsAt r req) := by
      rintro (h' | h' | ⟨hstart, hsrc⟩)
      · exact hover h'
      · exact hbeyond (.inl h')
      · by_cases hkind : r.tpe = req.tpe ∧ r.flags = req.flags
        · exact hextend ⟨hstart, hsrc ⟨hstart, hkind⟩, hkind⟩
        · exact hbeyond (.inr ⟨hstart, not_and_or.1 hkind⟩)
    by_cases hc : Continues r req
    · have hleft : ¬ (r.end_ < req.start ∨ (r.end_ = req.start ∧ (r.tpe ≠ req.tpe ∨ r.flags ≠ req.flags))) := by
        rintro (hlt | ⟨-, hkind⟩)
        · exact absurd hc.1 (by omega)
        · exact hkind.elim (· hc.2.1) (· hc.2.2.1)
      rw [if_neg (by exact hleft), if_pos (by exact ⟨hc.1, hc.2.2.2, hc.2.1, hc.2.2.1⟩)] at h
      rw [absorbs, if_neg hgo, if_pos hc]
      by_cases hnext : (after.head?.any fun next => overlap r.start req.end_ next.start next.end_) = true
      · rw [if_pos (by exact hnext)] at h
        cases h
        simp [hnext]
      rw [if_neg (by exact hnext)] at h
      -- From here on the list has lost the region.
      have hless : l'.length ≤ before.length + after.length := by
        cases before with
        | nil => simpa using addRegionLoop_length h
        | cons prev before =>
          have := addRegionLoop_length h
          simp only [List.length_cons] at this ⊢
          omega
      refine ⟨fun ha => absurd (by simpa using ha) hnext, fun _ => ?_⟩
      simp only [List.length_cons]
      omega
    · -- The region is passed.
      have hpass : addRegionLoop (r :: before) after req.region = (-1, l') := by
        by_cases hleft : r.end_ < req.start ∨ (r.end_ = req.start ∧ (r.tpe ≠ req.tpe ∨ r.flags ≠ req.flags))
        · rwa [if_pos (by exact hleft)] at h
        · rwa [if_neg (by exact hleft), if_neg fun hm => hc ⟨hm.1, hm.2.2.1, hm.2.2.2, hm.2.1⟩] at h
      rw [absorbs, if_neg hgo, if_neg hc]
      obtain ⟨hkeep, hless⟩ := ih hpass
      refine ⟨fun ha => by simpa using hkeep ha, fun ha => ?_⟩
      have := hless ha
      simp only [List.length_cons] at this ⊢
      omega

/-- **A refused request** leaves the list as it was, in whatever list, exactly
when the scan has merged no region on the left before it is refused. -/
theorem refused_unchanged {mem : Bool} {req : AddRegion} {l l' : List Region} (h : addRegion mem req l = (-1, l')) :
    l' = l ↔ ¬ (regionCheck req = true ∧ mem = true ∧ absorbs req l = true) := by
  simp only [addRegion] at h
  split at h
  · next hcheck =>
    cases h
    simp [hcheck]
  split at h
  · next hmem =>
    cases h
    simp [hmem]
  next hcheck hmem =>
  obtain ⟨hkeep, hless⟩ := addRegionLoop_refused h
  constructor
  · rintro rfl ⟨-, -, ha⟩
    have := hless ha
    simp at this
  · intro hno
    refine hkeep (eq_false_of_ne_true fun ha => hno ⟨by simpa using hcheck, by simpa using hmem, ha⟩)

/-- A request for a part of a region. -/
theorem refused_unchanged_overlap :
    let l : List Region := [{ start := 0x1000, end_ := 0x3000, src := 0x8000, flags := teRead, tpe := 4 }]
    let req : AddRegion := ⟨1, 0x2000, 0x3000, 0x9000, teRead, 4⟩
    (addRegion true req l).2 = l ↔ ¬ (regionCheck req = true ∧ true = true ∧ absorbs req l = true) := by
  intro l req
  have h : addRegion true req l = (-1, (addRegion true req l).2) := by decide +kernel
  exact refused_unchanged h

/-- Three regions, out of order: the request is merged with the first one, and
then refused because of the last one. -/
theorem refused_changes :
    ¬ ∀ (l l' : List Region) (accepted : List AddRegion) (mem : Bool) (req : AddRegion), Added (fun _ _ => True) l accepted →
      addRegion mem req l = (-1, l') → l' = l := by
  intro h
  let req₁ : AddRegion := ⟨1, 0x2000, 0x3000, 0x8000, teRead, 4⟩
  let req₂ : AddRegion := ⟨1, 0x1000, 0x2000, 0xa000, teRead, 4⟩
  let req₃ : AddRegion := ⟨1, 0x4000, 0x5000, 0, teWrite, 4⟩
  let req : AddRegion := ⟨1, 0x3000, 0x5000, 0x9000, teRead, 4⟩
  have h₁ : Added (fun _ _ => True) [req₁.region] [req₁] := .accept true req₁ .none trivial (by decide +kernel)
  have h₂ : Added (fun _ _ => True) [req₁.region, req₂.region] [req₂, req₁] :=
    .accept true req₂ h₁ trivial (by decide +kernel)
  have h₃ : Added (fun _ _ => True) [req₁.region, req₂.region, req₃.region] [req₃, req₂, req₁] :=
    .accept true req₃ h₂ trivial (by decide +kernel)
  have hlist := h _ [req₂.region, req₃.region] _ true req h₃ (by decide +kernel)
  exact absurd hlist (by decide)

end Tyche.Enclave
