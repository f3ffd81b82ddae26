/-
What is collected for a region (`walk_and_collect_region`). Linux reports the
source range part by part: an entry of 4 KiB gives its frame, a hole or an
entry that is refused ends the walk and clears `success`, and a huge page is
passed over. So a walk that succeeds has collected a frame for every page,
unless it passed over a huge page.
-/
import Tyche.Enclave.AddressSpace
import Tyche.Enclave.Effects

namespace Tyche.Enclave

open Tyche.Pts

/-- The walk from an address up to `b` reports every part of the range, in
order and once: an entry is a page, a huge page or a hole is any number of them. -/
inductive Reported (b : Nat) : Nat → List Report → Prop
  | done : Reported b b []
  | pteEntry {a : Nat} {reports : List Report} (pte : Nat) (h : Reported b (a + page) reports) :
      Reported b a (.pteEntry a pte :: reports)
  | hugetlbEntry {a n : Nat} {reports : List Report} (hn : 0 < n) (h : Reported b (a + n * page) reports) :
      Reported b a (.hugetlbEntry :: reports)
  | pteHole {a n : Nat} {reports : List Report} (hn : 0 < n) (h : Reported b (a + n * page) reports) :
      Reported b a (.pteHole :: reports)

/-- The frame of an entry, as it is recorded for the region. -/
def Region.frameOf (r : Region) (pte : Nat) : PaRegion := ⟨pte &&& ptePfnMask, (pte &&& ptePfnMask) + page, r.tpe⟩

/-- Each page of the source range has its frame in the list, by position. -/
structure Region.Backed (r : Region) (reports : List Report) (pas : List PaRegion) : Prop where
  count : pas.length = sub64 r.end_ r.start / page
  frames : ∀ k < pas.length, ∃ pte, .pteEntry (r.src + k * page) pte ∈ reports ∧ pas[k]? = some (r.frameOf pte)
  disjoint : pas.Pairwise fun p q => p.end_ ≤ q.start ∨ q.end_ ≤ p.start

/-- The entries among the reports. -/
def ptes (reports : List Report) : List Nat :=
  reports.filterMap fun | .pteEntry _ pte => some pte | .hugetlbEntry | .pteHole => none

@[simp] theorem ptes_nil : ptes [] = [] := rfl
@[simp] theorem ptes_pteEntry (addr pte : Nat) (reports : List Report) :
    ptes (.pteEntry addr pte :: reports) = pte :: ptes reports := rfl
@[simp] theorem ptes_hugetlbEntry (reports : List Report) : ptes (.hugetlbEntry :: reports) = ptes reports := rfl
@[simp] theorem ptes_pteHole (reports : List Report) : ptes (.pteHole :: reports) = ptes reports := rfl

/-- The log after the frames of these entries were collected. -/
def collectLog : List Nat → List Event → List Event
  | [], log => log
  | pte :: rest, log => collectLog rest (.collect (pte &&& ptePfnMask) :: .kmalloc true :: log)

/-- No report is refused: there is no hole, every entry is valid, no frame is
found twice, and each gets its record. -/
structure Region.Collectable (r : Region) (env : Env) (log : List Event) (reports : List Report) : Prop where
  holes : .pteHole ∉ reports
  valid : ∀ addr pte, .pteEntry addr pte ∈ reports →
    (r.src ≤ addr ∧ addr ≤ add64 r.src (sub64 r.end_ r.start)) ∧ pte &&& pageValid = pageValid
  frames : ((ptes reports).map (· &&& ptePfnMask)).Nodup
  records : ∀ done pte rest, ptes reports = done ++ pte :: rest → env.kmalloc (collectLog done log) = true

section Collect

variable {env : Env} {r : Region} {log : List Event}

/-- Frames are apart unless they are the same. -/
theorem overlap_frames {f g : Nat} (hf : Frame f) (hg : Frame g) :
    overlap f (f + page) g (g + page) = false ↔ f ≠ g := by
  obtain ⟨hf, -⟩ := hf
  obtain ⟨hg, -⟩ := hg
  have hp : ptPageSize = 4096 := rfl
  have hp' : page = 4096 := rfl
  rw [hp] at hf hg
  rw [overlap, hp']
  split
  · simp
    omega
  · split
    · simp
      omega
    · simp
      omega

/-! ## One entry -/

/-- The entry is in the source range and valid, gets its record, and its frame
is apart from those collected before. -/
def Region.Accepts (r : Region) (env : Env) (log : List Event) (addr pte : Nat) : Prop :=
  ((r.src ≤ addr ∧ addr ≤ add64 r.src (sub64 r.end_ r.start)) ∧ pte &&& pageValid = pageValid) ∧
    env.kmalloc log = true ∧ ∀ pa ∈ r.pas, overlap pa.start pa.end_ (pte &&& ptePfnMask) ((pte &&& ptePfnMask) + page) = false

/-- An accepted entry adds its frame, any other one ends the walk. -/
theorem pteEntry_accepts (hr : r.dangling = false) (env : Env) (log : List Event) (addr pte : Nat) :
    (r.Accepts env log addr pte ∧ pteEntry env addr pte r log = (.ret 0, { r with pas := r.pas ++ [r.frameOf pte] },
      collectLog [pte] log)) ∨
    (¬ r.Accepts env log addr pte ∧ (pteEntry env addr pte r log).1 = .ret (-1)) := by
  unfold pteEntry
  by_cases hrange : r.src > addr ∨ add64 r.src (sub64 r.end_ r.start) < addr
  · rw [if_pos hrange]
    exact .inr ⟨fun h => by have := h.1.1; omega, rfl⟩
  rw [if_neg hrange]
  by_cases hvalid : pte &&& pageValid = pageValid
  case neg =>
    rw [if_pos hvalid]
    exact .inr ⟨fun h => hvalid h.1.2, rfl⟩
  rw [if_neg (not_not.2 hvalid)]
  dsimp only
  cases hok : env.kmalloc log with
  | false => exact .inr ⟨fun h => Bool.noConfusion (hok.symm.trans h.2.1), rfl⟩
  | true =>
    rw [if_neg (by simp)]
    by_cases hany : r.pas.any fun curr => overlap curr.start curr.end_ (pte &&& ptePfnMask) ((pte &&& ptePfnMask) + page)
    · right
      refine ⟨fun h => ?_, ?_⟩
      · obtain ⟨pa, hpa, hmet⟩ := List.any_eq_true.1 hany
        rw [h.2.2 pa hpa] at hmet
        cases hmet
      · rw [addPaToRegion, Region.stale, hr]
        simp [hany]
    · left
      refine ⟨⟨⟨by omega, hvalid⟩, hok, by simpa using hany⟩, ?_⟩
      rw [addPaToRegion, Region.stale, hr]
      simp [hany, Region.frameOf, collectLog]

/-! ## The walk -/

/-- The frames of the entries are apart from those of the region. -/
def Region.Apart (r : Region) (reports : List Report) : Prop :=
  ∀ pte ∈ ptes reports, ∀ pa ∈ r.pas, overlap pa.start pa.end_ (pte &&& ptePfnMask) ((pte &&& ptePfnMask) + page) = false

theorem Region.Apart.of_nil (h : r.pas = []) (reports : List Report) : r.Apart reports := by
  intro pte _ pa hpa
  rw [h] at hpa
  cases hpa

/-- The first entry is accepted, and then the others are collected. -/
theorem collectable_cons {addr pte : Nat} {reports : List Report} :
    r.Collectable env log (.pteEntry addr pte :: reports) ∧ r.Apart (.pteEntry addr pte :: reports) ↔
      r.Accepts env log addr pte ∧
        { r with pas := r.pas ++ [r.frameOf pte] }.Collectable env (collectLog [pte] log) reports ∧
        { r with pas := r.pas ++ [r.frameOf pte] }.Apart reports := by
  have hsame : ∀ pte', overlap (r.frameOf pte).start (r.frameOf pte).end_ (pte' &&& ptePfnMask) ((pte' &&& ptePfnMask) + page) =
      false ↔ pte &&& ptePfnMask ≠ pte' &&& ptePfnMask := fun pte' =>
    overlap_frames (frame_and_mask pte) (frame_and_mask pte')
  constructor
  · rintro ⟨⟨hholes, hvalid, hframes, hrecords⟩, hapart⟩
    rw [ptes_pteEntry, List.map_cons, List.nodup_cons] at hframes
    rw [Region.Apart, ptes_pteEntry, List.forall_mem_cons] at hapart
    refine ⟨⟨hvalid addr pte (List.mem_cons_self ..), hrecords [] pte _ rfl, hapart.1⟩, ⟨?_, ?_, hframes.2, ?_⟩, ?_⟩
    · exact fun h => hholes (List.mem_cons_of_mem _ h)
    · exact fun addr' pte' h => hvalid addr' pte' (List.mem_cons_of_mem _ h)
    · intro done pte' rest heq
      exact hrecords (pte :: done) pte' rest (by rw [ptes_pteEntry, heq]; rfl)
    · intro pte' hpte' pa hpa
      rcases List.mem_append.1 hpa with hpa | hpa
      · exact hapart.2 pte' hpte' pa hpa
      · obtain rfl := List.mem_singleton.1 hpa
        exact (hsame pte').2 fun heq => hframes.1 (List.mem_map.2 ⟨pte', hpte', heq.symm⟩)
  · rintro ⟨⟨hfirst, hok, hfree⟩, ⟨hholes, hvalid, hframes, hrecords⟩, hapart⟩
    refine ⟨⟨by simpa using hholes, ?_, ?_, ?_⟩, ?_⟩
    · intro addr' pte' h
      rcases List.mem_cons.1 h with heq | h
      · cases heq
        exact hfirst
      · exact hvalid addr' pte' h
    · rw [ptes_pteEntry, List.map_cons, List.nodup_cons]
      refine ⟨fun h => ?_, hframes⟩
      obtain ⟨pte', hpte', heq⟩ := List.mem_map.1 h
      exact (hsame pte').1 (hapart pte' hpte' _ (by simp)) heq.symm
    · intro done pte' rest heq
      rw [ptes_pteEntry] at heq
      cases done with
      | nil => exact hok
      | cons first done =>
        obtain ⟨rfl, hrest⟩ := List.cons.inj heq
        exact hrecords done pte' rest hrest
    · rw [Region.Apart, ptes_pteEntry, List.forall_mem_cons]
      exact ⟨hfree, fun pte' hpte' pa hpa => hapart pte' hpte' pa (List.mem_append_left _ hpa)⟩

/-- **The walk succeeds exactly when no report is refused**, and has then
collected the frames of all entries. -/
theorem runReports_collects (env : Env) (reports : List Report) : ∀ (r : Region) (log : List Event), r.dangling = false →
    (r.Collectable env log reports ∧ r.Apart reports ∧ runReports env reports r log =
      (.ret 0, { r with pas := r.pas ++ (ptes reports).map r.frameOf }, collectLog (ptes reports) log)) ∨
    (¬ (r.Collectable env log reports ∧ r.Apart reports) ∧ (runReports env reports r log).1 = .ret (-1)) := by
  induction reports with
  | nil =>
    intro r log _
    refine .inl ⟨⟨by simp, by simp, by simp, by simp⟩, by simp [Region.Apart], ?_⟩
    simp [runReports, collectLog]
  | cons report reports ih =>
    intro r log hr
    cases report with
    | pteEntry addr pte =>
      rcases pteEntry_accepts hr env log addr pte with ⟨haccepts, heq⟩ | ⟨hrefused, hret⟩
      · have hrun : runReports env (.pteEntry addr pte :: reports) r log =
            runReports env reports { r with pas := r.pas ++ [r.frameOf pte] } (collectLog [pte] log) := by
          rw [runReports, heq]
          rfl
        rw [hrun, ← and_assoc, collectable_cons]
        rcases ih { r with pas := r.pas ++ [r.frameOf pte] } (collectLog [pte] log) hr with
          ⟨hcollectable, hapart, h⟩ | ⟨hrefused, h⟩
        · left
          refine ⟨⟨haccepts, hcollectable, hapart⟩, ?_⟩
          have hpas : r.pas ++ (ptes (.pteEntry addr pte :: reports)).map r.frameOf =
              r.pas ++ [r.frameOf pte] ++ (ptes reports).map r.frameOf := by simp
          rw [h, hpas]
          rfl
        · exact .inr ⟨fun h => hrefused h.2, h⟩
      · right
        rw [collectable_cons]
        refine ⟨fun h => hrefused h.1, ?_⟩
        rw [runReports]
        split
        next heq =>
          rw [heq] at hret
          cases hret
        · exact hret
    | hugetlbEntry =>
      have hsame : r.Collectable env log (.hugetlbEntry :: reports) ↔ r.Collectable env log reports :=
        ⟨fun h => ⟨fun hm => h.holes (by simp [hm]), fun a p hm => h.valid a p (by simp [hm]), h.frames, h.records⟩,
          fun h => ⟨by simpa using h.holes, by simpa using h.valid, h.frames, h.records⟩⟩
      rw [hsame]
      exact ih r log hr
    | pteHole => exact .inr ⟨fun h => h.1.holes (List.mem_cons_self ..), rfl⟩

/-! ## The pages of the range -/

section Reported

variable {a b : Nat} {reports : List Report}

/-- The entries are of pages of the range, and leave out the huge ones. -/
theorem Reported.count (h : Reported b a reports) : a + (ptes reports).length * page ≤ b ∧
    (.hugetlbEntry ∈ reports → a + ((ptes reports).length + 1) * page ≤ b) := by
  have hp : page = 4096 := rfl
  induction h with
  | done => simp
  | pteEntry pte h ih =>
    simp only [ptes_pteEntry, List.length_cons, List.mem_cons, reduceCtorEq, false_or, hp] at ih ⊢
    exact ⟨by omega, fun hhuge => by have := ih.2 hhuge; omega⟩
  | hugetlbEntry hn h ih =>
    simp only [ptes_hugetlbEntry, List.mem_cons, true_or, true_imp_iff, hp] at ih ⊢
    omega
  | pteHole hn h ih =>
    simp only [ptes_pteHole, List.mem_cons, reduceCtorEq, false_or, hp] at ih ⊢
    exact ⟨by omega, fun hhuge => by have := ih.2 hhuge; omega⟩

/-- Without huge pages and holes, the entries are the pages of the range in order. -/
theorem Reported.entries (h : Reported b a reports) (hhuge : .hugetlbEntry ∉ reports) (hhole : .pteHole ∉ reports) :
    b = a + (ptes reports).length * page ∧
      ∀ k pte, (ptes reports)[k]? = some pte → .pteEntry (a + k * page) pte ∈ reports := by
  induction h with
  | done => simp
  | @pteEntry a reports pte h ih =>
    obtain ⟨hend, hentries⟩ := ih (fun hm => hhuge (List.mem_cons_of_mem _ hm)) fun hm => hhole (List.mem_cons_of_mem _ hm)
    rw [ptes_pteEntry]
    refine ⟨by rw [List.length_cons, Nat.succ_mul]; omega, fun k pte' hk => ?_⟩
    cases k with
    | zero =>
      obtain rfl : pte = pte' := by simpa using hk
      simp
    | succ k =>
      have haddr : a + (k + 1) * page = a + page + k * page := by
        rw [Nat.succ_mul]
        omega
      rw [haddr]
      exact List.mem_cons_of_mem _ (hentries k pte' hk)
  | hugetlbEntry => exact absurd (List.mem_cons_self ..) hhuge
  | pteHole => exact absurd (List.mem_cons_self ..) hhole

end Reported

/-- Frames that differ are disjoint ranges. -/
theorem pairwise_frames {entries : List Nat} (h : (entries.map (· &&& ptePfnMask)).Nodup) :
    (entries.map r.frameOf).Pairwise fun p q => p.end_ ≤ q.start ∨ q.end_ ≤ p.start := by
  have hp : ptPageSize = 4096 := rfl
  have hp' : page = 4096 := rfl
  rw [List.pairwise_map]
  refine (List.pairwise_map.1 h).imp fun {p q} hne => ?_
  have hframes := (overlap_frames (frame_and_mask p) (frame_and_mask q)).2 hne
  simp only [overlap] at hframes
  show (p &&& ptePfnMask) + page ≤ q &&& ptePfnMask ∨ (q &&& ptePfnMask) + page ≤ p &&& ptePfnMask
  grind

/-- **A region that is collected has a frame for each of its pages**, unless
Linux reports a huge page and no report is refused. -/
theorem region_collected (env : Env) (r : Region) (log : List Event) (hpas : r.pas = []) (hr : r.dangling = false)
    (hreported : Reported (r.src + sub64 r.end_ r.start) r.src
      (env.walkPageRange log r.src (add64 r.src (sub64 r.end_ r.start)))) :
    let reports := env.walkPageRange log r.src (add64 r.src (sub64 r.end_ r.start))
    ((walkAndCollectRegion env r log).1 = .ret 0 → r.Backed reports (walkAndCollectRegion env r log).2.1.pas) ↔
      .hugetlbEntry ∉ reports ∨ ¬ r.Collectable env log reports := by
  intro reports
  have hreported : Reported (r.src + sub64 r.end_ r.start) r.src reports := hreported
  have hp : page = 4096 := rfl
  unfold walkAndCollectRegion
  dsimp only
  rcases runReports_collects env reports r log hr with ⟨hcollectable, -, heq⟩ | ⟨hrefused, hret⟩
  · rw [heq]
    simp only [if_true, forall_const, hpas, List.nil_append, hcollectable, not_true_eq_false, or_false]
    constructor
    · intro hbacked hhuge
      have hcount := hbacked.count
      have hle := hreported.count.2 hhuge
      rw [List.length_map, hp] at hcount
      rw [hp] at hle
      omega
    · intro hhuge
      obtain ⟨hend, hentries⟩ := hreported.entries hhuge hcollectable.holes
      refine ⟨?_, fun k hk => ?_, pairwise_frames hcollectable.frames⟩
      · rw [List.length_map, hp]
        rw [hp] at hend
        omega
      · rw [List.length_map] at hk
        have hpte := List.getElem?_eq_getElem hk
        exact ⟨_, hentries k _ hpte, by rw [List.getElem?_map, hpte]; rfl⟩
  · have hfailed : ¬ r.Collectable env log reports := fun h => hrefused ⟨h, .of_nil hpas reports⟩
    refine ⟨fun _ => .inr hfailed, fun _ hzero => ?_⟩
    split at hzero
    next heq =>
      rw [heq] at hret
      cases hret
      cases hzero
    next hother =>
      exact absurd hzero (by rw [hret]; simp)

end Collect

/-- Two pages, of which Linux reports these parts. -/
def walking (reports : List Report) : Env := { plenty with walkPageRange := fun _ _ _ => reports }

/-- Two pages at `0x8000` of the parent. -/
def twoPages : Region := { start := 0x1000, end_ := 0x3000, src := 0x8000, flags := teRead, tpe := 4 }

/-- Both pages are found. -/
theorem region_collected_two :
    let env := walking [.pteEntry 0x8000 0x20005, .pteEntry 0x9000 0x10005]
    let reports := env.walkPageRange [] 0x8000 0xa000
    ((walkAndCollectRegion env twoPages []).1 = .ret 0 → twoPages.Backed reports (walkAndCollectRegion env twoPages []).2.1.pas) ↔
      .hugetlbEntry ∉ reports ∨ ¬ twoPages.Collectable env [] reports :=
  region_collected _ twoPages [] rfl rfl (.pteEntry 0x20005 (.pteEntry 0x10005 .done))

/-- A region of one huge page: nothing is collected, and the walk succeeds. -/
theorem huge_page_skipped :
    ¬ ∀ (env : Env) (r : Region) (log : List Event), r.pas = [] → r.dangling = false →
      Reported (r.src + sub64 r.end_ r.start) r.src (env.walkPageRange log r.src (add64 r.src (sub64 r.end_ r.start))) →
      (walkAndCollectRegion env r log).1 = .ret 0 →
      r.Backed (env.walkPageRange log r.src (add64 r.src (sub64 r.end_ r.start))) (walkAndCollectRegion env r log).2.1.pas := by
  intro h
  have hbacked := h (walking [.hugetlbEntry])
    { start := 0x200000, end_ := 0x400000, src := 0x200000, flags := teRead, tpe := 4 } [] rfl rfl
    (.hugetlbEntry (n := 512) (by decide) .done) rfl
  exact absurd hbacked.count (by decide)

end Tyche.Enclave
