/-
What a commit that fails leaves. Its failure path frees the records of the
pages that were collected, but leaves them in their lists; it leaves
`all_pages` as it is, and takes no transfer back. So the enclave is as it was
only if nothing was recorded: the first page of its memory was not collected
or, where no page was reported at all, the root of the tables was not allocated.
-/
import Tyche.Enclave.Ownership

namespace Tyche.Enclave

open Tyche.Pts
open Tyche.Capa (ptEntry)

/-- One of the events (latest first) transferred the range to the domain, and
none took it back. -/
def Outstanding (events : List Event) (dom start end_ : Nat) : Prop :=
  ∃ later tpe earlier, events = later ++ .transferCapability dom start end_ tpe true :: earlier ∧
    .revokeRegion dom start end_ true ∉ later

/-- The enclave is as it was: nothing is collected, nothing built, and nothing
that was transferred meanwhile is still with the domain. -/
structure Restored (s s' : Site) : Prop where
  regions : s'.encl.regions = s.encl.regions
  pas : ∀ r ∈ s'.encl.regions, r.pas = []
  pts : s'.encl.pts = []
  allPages : s'.encl.allPages = []
  cr3 : s'.encl.cr3 = 0
  transfers : ∀ events, s'.log = events ++ s.log → ∀ dom start end_, ¬ Outstanding events dom start end_

/-- No physical page is recorded in the enclave. -/
structure Encl.Blank (e : Encl) : Prop where
  pas : ∀ r ∈ e.regions, r.pas = []
  allPages : e.allPages = []

/-! ## What is recorded first -/

/-- The first page that the walks of the regions report, or what they find in
its place; huge pages are passed over. -/
def firstReport (env : Env) (log : List Event) : List Region → Option (Region × Report)
  | [] => none
  | r :: rest =>
    match (env.walkPageRange log r.src (add64 r.src (sub64 r.end_ r.start))).find? (· ≠ .hugetlbEntry) with
    | some report => some (r, report)
    | none => firstReport env log rest

/-- The page of the report is collected for the region. -/
def Region.Collects (r : Region) (env : Env) (log : List Event) : Report → Prop
  | .pteEntry addr pte =>
    (r.src ≤ addr ∧ addr ≤ add64 r.src (sub64 r.end_ r.start)) ∧ pte &&& pageValid = pageValid ∧ env.kmalloc log = true
  | .hugetlbEntry | .pteHole => False

/-- The root of the tables is allocated, with its two records. -/
def AllocatesRoot (env : Env) (log : List Event) : Prop :=
  ∃ f, env.allocPages log = some f ∧ f % ptPageSize = 0 ∧ env.kmalloc (.allocPages (some f) :: log) = true ∧
    env.kmalloc (.kmalloc true :: .allocPages (some f) :: log) = true

/-- A commit of the enclave records a page: the first one that is reported or,
if there is none, the root. -/
def Records (env : Env) (log : List Event) (regions : List Region) : Prop :=
  match firstReport env log regions with
  | some (r, report) => r.Collects env log report
  | none => AllocatesRoot env log

/-! ## The pages are collected -/

section Collect

variable (env : Env) {r : Region} {log : List Event}

theorem runReports_skips {reports : List Report} (h : reports.find? (· ≠ .hugetlbEntry) = none) :
    runReports env reports r log = (.ret 0, r, log) := by
  induction reports with
  | nil => rfl
  | cons report reports ih =>
    rw [List.find?_cons] at h
    split at h
    · cases h
    next hskip =>
      obtain rfl : report = .hugetlbEntry := by simpa using hskip
      rw [runReports]
      exact ih h

/-- Huge pages are passed over. -/
theorem runReports_first {reports : List Report} {report : Report} (r : Region) (log : List Event)
    (h : reports.find? (· ≠ .hugetlbEntry) = some report) :
    ∃ rest, runReports env reports r log = runReports env (report :: rest) r log := by
  induction reports with
  | nil => cases h
  | cons first reports ih =>
    rw [List.find?_cons] at h
    split at h
    · obtain rfl := Option.some.inj h
      exact ⟨reports, rfl⟩
    next hskip =>
      obtain rfl : first = .hugetlbEntry := by simpa using hskip
      obtain ⟨rest, heq⟩ := ih h
      exact ⟨rest, by rw [runReports, heq]⟩

theorem pteEntry_pas (addr pte : Nat) (r : Region) (log : List Event) : r.pas <+: (pteEntry env addr pte r log).2.1.pas := by
  unfold pteEntry
  split
  · exact List.prefix_rfl
  split
  · exact List.prefix_rfl
  dsimp only
  split
  · exact List.prefix_rfl
  rcases addPaToRegion_cases r ⟨pte &&& ptePfnMask, (pte &&& ptePfnMask) + page, r.tpe⟩ with ⟨-, heq⟩ | ⟨o, ho, heq⟩
  · rw [heq]
    exact List.prefix_append ..
  · rw [heq]
    split
    next hret => exact absurd (Prod.mk.inj hret).1 ho
    next hret =>
      obtain ⟨-, rfl⟩ := Prod.mk.inj hret
      exact List.prefix_rfl

theorem runReports_pas (reports : List Report) : ∀ r log, r.pas <+: (runReports env reports r log).2.1.pas := by
  induction reports with
  | nil => exact fun _ _ => List.prefix_rfl
  | cons report reports ih =>
    intro r log
    cases report with
    | pteEntry addr pte =>
      have hentry := pteEntry_pas env addr pte r log
      rw [runReports]
      split
      next heq =>
        rw [heq] at hentry
        exact hentry.trans (ih _ _)
      · exact hentry
    | hugetlbEntry => exact ih r log
    | pteHole => exact List.prefix_rfl

theorem pteEntry_collects (addr pte : Nat) (log : List Event) (hr : r.pas = []) :
    (r.Collects env log (.pteEntry addr pte) ∧ ∃ pa log', pteEntry env addr pte r log = (.ret 0, { r with pas := [pa] }, log')) ∨
    (¬ r.Collects env log (.pteEntry addr pte) ∧ ∃ log', pteEntry env addr pte r log = (.ret (-1), r, log')) := by
  unfold pteEntry
  by_cases hrange : r.src > addr ∨ add64 r.src (sub64 r.end_ r.start) < addr
  · rw [if_pos hrange]
    exact .inr ⟨fun h => by have := h.1; omega, log, rfl⟩
  rw [if_neg hrange]
  by_cases hvalid : pte &&& pageValid ≠ pageValid
  · rw [if_pos hvalid]
    exact .inr ⟨fun h => hvalid h.2.1, log, rfl⟩
  rw [if_neg hvalid]
  cases hmalloc : env.kmalloc log with
  | false => exact .inr ⟨fun h => by simp [h.2.2] at hmalloc, .kmalloc false :: log, rfl⟩
  | true =>
    have hadd : addPaToRegion r ⟨pte &&& ptePfnMask, (pte &&& ptePfnMask) + page, r.tpe⟩ =
        (.ret 0, { r with pas := [⟨pte &&& ptePfnMask, (pte &&& ptePfnMask) + page, r.tpe⟩] }) := by
      simp [addPaToRegion, Region.stale, hr]
    dsimp only
    rw [if_neg (by simp), hadd]
    rw [not_or, gt_iff_lt, Nat.not_lt, Nat.not_lt] at hrange
    exact .inl ⟨⟨hrange, not_not.1 hvalid, hmalloc⟩, _, _, rfl⟩

/-- The first page reported is collected, or the callbacks stop there. -/
theorem runReports_report {report : Report} (rest : List Report) (log : List Event) (hr : r.pas = []) (hreport : report ≠ .hugetlbEntry) :
    (r.Collects env log report ∧ (runReports env (report :: rest) r log).2.1.pas ≠ []) ∨
    (¬ r.Collects env log report ∧ ∃ log', runReports env (report :: rest) r log = (.ret (-1), r, log')) := by
  cases report with
  | hugetlbEntry => exact absurd rfl hreport
  | pteHole => exact .inr ⟨fun h => h, log, rfl⟩
  | pteEntry addr pte =>
    rw [runReports]
    rcases pteEntry_collects env addr pte log hr with ⟨hcollects, pa, log', heq⟩ | ⟨hcollects, log', heq⟩
    · rw [heq]
      refine .inl ⟨hcollects, fun hnil => ?_⟩
      have hprefix := runReports_pas env rest { r with pas := [pa] } log'
      have hnil : (runReports env rest { r with pas := [pa] } log').2.1.pas = [] := hnil
      rw [hnil, List.prefix_nil] at hprefix
      cases hprefix
    · rw [heq]
      exact .inr ⟨hcollects, log', rfl⟩

/-- A walk of a region without pages reports none, or one first. -/
theorem walkAndCollectRegion_first (log : List Event) (hr : r.pas = []) :
    match (env.walkPageRange log r.src (add64 r.src (sub64 r.end_ r.start))).find? (· ≠ .hugetlbEntry) with
    | none => walkAndCollectRegion env r log = (.ret 0, r, log)
    | some report => (r.Collects env log report ∧ (walkAndCollectRegion env r log).2.1.pas ≠ []) ∨
        (¬ r.Collects env log report ∧ ∃ log', walkAndCollectRegion env r log = (.ret 1, r, log')) := by
  unfold walkAndCollectRegion
  dsimp only
  split
  next hnone =>
    rw [runReports_skips env hnone]
    rfl
  next report hsome =>
    obtain ⟨rest, hfirst⟩ := runReports_first env r log hsome
    have hreport : report ≠ .hugetlbEntry := by simpa using List.find?_some hsome
    rw [hfirst]
    rcases runReports_report env rest log hr hreport with ⟨hcollects, hpas⟩ | ⟨hcollects, log', heq⟩
    · refine .inl ⟨hcollects, ?_⟩
      split
      next heq =>
        rw [heq] at hpas
        exact hpas
      · exact hpas
    · rw [heq]
      exact .inr ⟨hcollects, log', rfl⟩

/-- The regions that are done with are in front. -/
theorem collectRegions_done (rest : List Region) : ∀ done log, ∃ tail,
    (collectRegions env done rest log).2.1 = done.reverse ++ tail := by
  induction rest with
  | nil => exact fun done _ => ⟨[], by simp [collectRegions]⟩
  | cons r rest ih =>
    intro done log
    rw [collectRegions]
    split
    next r' log' heq =>
      obtain ⟨tail, htail⟩ := ih (r' :: done) log'
      exact ⟨r' :: tail, by rw [htail]; simp⟩
    · exact ⟨_, rfl⟩

/-- **Collecting the pages of regions without any**: a page is collected, or the
regions stay as they are. -/
theorem collectRegions_first (log : List Event) (rest : List Region) : ∀ done, (∀ r ∈ rest, r.pas = []) →
    match firstReport env log rest with
    | none => collectRegions env done rest log = (.ret 0, done.reverse ++ rest, log)
    | some (r, report) => (r.Collects env log report ∧ ∃ q ∈ (collectRegions env done rest log).2.1, q.pas ≠ []) ∨
        (¬ r.Collects env log report ∧ ∃ log', collectRegions env done rest log = (.ret 1, done.reverse ++ rest, log')) := by
  induction rest with
  | nil =>
    intro done _
    simp [firstReport, collectRegions]
  | cons r rest ih =>
    intro done hpas
    obtain ⟨hr, hrest⟩ := List.forall_mem_cons.1 hpas
    have hwalk := walkAndCollectRegion_first env log hr
    rw [firstReport]
    cases hfind : (env.walkPageRange log r.src (add64 r.src (sub64 r.end_ r.start))).find? (· ≠ .hugetlbEntry) with
    | none =>
      rw [hfind] at hwalk
      dsimp only at hwalk ⊢
      rw [collectRegions, hwalk]
      have hih := ih (r :: done) hrest
      rw [List.reverse_cons, List.append_assoc, List.singleton_append] at hih
      exact hih
    | some report =>
      rw [hfind] at hwalk
      dsimp only at hwalk ⊢
      rcases hwalk with ⟨hcollects, hne⟩ | ⟨hcollects, log', heq⟩
      · refine .inl ⟨hcollects, ?_⟩
        rw [collectRegions]
        split
        next r' log' heq =>
          rw [heq] at hne
          obtain ⟨tail, htail⟩ := collectRegions_done env rest (r' :: done) log'
          exact ⟨r', by rw [htail]; simp, hne⟩
        next r' log' _ heq =>
          rw [heq] at hne
          exact ⟨r', by simp, hne⟩
      · refine .inr ⟨hcollects, log', ?_⟩
        rw [collectRegions, heq]
        rfl

end Collect

/-! ## The tables are built -/

/-- `add_merge_global` leaves a range in the list. -/
theorem addMergeGlobal_ne_nil (l : List PaRegion) (region : PaRegion) : (addMergeGlobal l region).2 ≠ [] := by
  rw [addMergeGlobal, addMergeLoop_eq]
  show (paMerging.place [] l region).2 ≠ []
  exact Ranges.Merging.place_ne_nil [] l region

/-- An enclave without pages had none before. -/
theorem Preparation.blank {x y : Encl × List Event} (h : Preparation x y) (hy : y.1.Blank) : x.1.Blank := by
  cases h with
  | kmalloc | noPage | root => exact ⟨hy.pas, hy.allPages⟩
  | collect e log before after r f h hf =>
    have hpas := hy.pas { r with pas := r.pas ++ [⟨f, f + page, r.tpe⟩] } (by simp)
    simp at hpas
  | unused e log f ks allPages hf hks h =>
    rcases h with rfl | ⟨ret, hret, hadd⟩
    · exact ⟨hy.pas, hy.allPages⟩
    · have hne := addMergeGlobal_ne_nil e.allPages ⟨f, add64 f ptPageSize, ptEntry⟩
      rw [hadd] at hne
      exact absurd hy.allPages hne
  | table e log f hf => exact absurd hy.allPages (addMergeGlobal_ne_nil e.allPages ⟨f, add64 f ptPageSize, ptEntry⟩)
  | merge e log r pa hr hpa => exact absurd hy.allPages (addMergeGlobal_ne_nil e.allPages pa)

theorem Preparations.blank {x y : Encl × List Event} (h : Preparations x y) (hy : y.1.Blank) : x.1.Blank := by
  induction h with
  | refl => exact hy
  | tail _ hstep ih => exact ih (hstep.blank hy)

section Build

variable (env : Env) {m : Machine MapInfo}

/-- The root is allocated and recorded, or nothing is. -/
theorem allocate_root (hpages : m.extras.enclave.allPages = []) :
    (AllocatesRoot env m.extras.log ∧ (allocate env m).2.extras.enclave.allPages ≠ []) ∨
    (¬ AllocatesRoot env m.extras.log ∧ (allocate env m).2.extras.enclave.allPages = []) := by
  have hroot : ∀ f, env.allocPages m.extras.log = some f → (AllocatesRoot env m.extras.log ↔ f % ptPageSize = 0 ∧
      env.kmalloc (.allocPages (some f) :: m.extras.log) = true ∧
        env.kmalloc (.kmalloc true :: .allocPages (some f) :: m.extras.log) = true) := by
    intro f hans
    simp [AllocatesRoot, hans]
  unfold allocate
  dsimp only
  split
  next hans => exact .inr ⟨by simp [AllocatesRoot, hans], hpages⟩
  next f hans =>
  rw [hroot f hans]
  split
  next halign => exact .inr ⟨fun h => halign h.1, hpages⟩
  next halign =>
  rw [hans]
  cases hok : env.kmalloc (.allocPages (some f) :: m.extras.log) with
  | false =>
    rw [if_pos (by exact hok)]
    exact .inr ⟨fun h => by simp at h, hpages⟩
  | true =>
  rw [if_neg (by rw [Bool.not_eq_false]; exact hok)]
  have hlog : ∀ region, (onEnclave (fun e => { e with pts := e.pts ++ [region] }) (record (.kmalloc (env.kmalloc
      ((record (.allocPages (some f)) m).clear f).extras.log)) ((record (.allocPages (some f)) m).clear f))).extras.log =
        .kmalloc true :: .allocPages (some f) :: m.extras.log := fun _ => by rw [← hok]; rfl
  rw [hlog]
  cases hok' : env.kmalloc (.kmalloc true :: .allocPages (some f) :: m.extras.log) with
  | false =>
    rw [if_pos rfl]
    exact .inr ⟨fun h => by simp at h, hpages⟩
  | true =>
  rw [if_neg (by simp)]
  refine .inl ⟨⟨not_not.1 halign, rfl, rfl⟩, ?_⟩
  have hne := addMergeGlobal_ne_nil m.extras.enclave.allPages ⟨f, add64 f ptPageSize, ptEntry⟩
  split <;> exact hne

/-- Without physical pages the mapper changes nothing. -/
theorem mapperProfile_idle : (mapperProfile env).Advances fun e f => e.paRegion = [] → f = e where
  refl _ _ := rfl
  trans h h' hpas := by
    obtain rfl := h hpas
    exact h' hpas
  how t i l m := by
    intro _
    show (x86_64HowMap t i l m).2.extras = _
    unfold x86_64HowMap
    split <;> rfl
  mapper := by
    intro l f h t i m hpas
    rw [mapperProfile_mapper h, defaultMapper, hpas]
  visitor h := nomatch h

theorem mapRegion_idle {r : Region} (hr : r.pas = []) (m : Machine MapInfo) :
    (mapRegion env r m).2.extras = m.extras.setRegion r :=
  (mapperProfile_idle env).ptWalkPageRange r.end_ ptPML4 m.extras.enclave.cr3 r.start
    { m with extras := m.extras.setRegion r } hr

/-- And so the regions leave the enclave and the log as they are. -/
theorem buildRegions_idle (regions : List Region) : ∀ m, (∀ r ∈ regions, r.pas = []) →
    (buildRegions env regions m).2.extras.enclave = m.extras.enclave ∧
      (buildRegions env regions m).2.extras.log = m.extras.log := by
  induction regions with
  | nil => exact fun _ _ => ⟨rfl, rfl⟩
  | cons r regions ih =>
    intro m hpas
    obtain ⟨hr, hrest⟩ := List.forall_mem_cons.1 hpas
    have hmap := mapRegion_idle env hr m
    rw [buildRegions]
    split
    next ret m' heq =>
      rw [heq] at hmap
      have hmap : m'.extras = m.extras.setRegion r := hmap
      split
      · rw [hmap]
        exact ⟨rfl, rfl⟩
      rw [if_neg (by simp [hr]), hr]
      obtain ⟨h1, h2⟩ := ih m' hrest
      rw [hmap] at h1 h2
      exact ⟨h1, h2⟩
    all_goals
      next heq =>
        rw [heq] at hmap
        rw [hmap]
        exact ⟨rfl, rfl⟩

/-- **Building the tables of an enclave without pages**: the root is recorded, or
nothing is. -/
theorem buildEnclaveCr3_blank (mem : Nat → Nat → Nat) (log : List Event) {e : Encl} (he : e.Blank) :
    (AllocatesRoot env log ∧ ¬ (buildEnclaveCr3 env mem log e).2.extras.enclave.Blank) ∨
    (¬ AllocatesRoot env log ∧ (buildEnclaveCr3 env mem log e).2.extras.enclave.regions = e.regions ∧
      (buildEnclaveCr3 env mem log e).2.extras.enclave.allPages = []) := by
  let m₁ := rooted (allocate env (building mem log e)).1 (allocate env (building mem log e)).2
  have hbuild : buildEnclaveCr3 env mem log e = buildRegions env e.regions m₁ := buildEnclaveCr3_eq env mem log e
  have hregions : m₁.extras.enclave.regions = e.regions := allocate_building_regions env mem log e
  rw [hbuild]
  rcases allocate_root env (m := building mem log e) he.allPages with ⟨hroot, hne⟩ | ⟨hroot, hpages⟩
  · refine .inl ⟨hroot, fun hblank => hne ?_⟩
    have hprepares := buildRegions_prepares env e.regions m₁ fun r hr => by rwa [hregions]
    exact (hprepares.blank hblank).allPages
  · obtain ⟨hidle, -⟩ := buildRegions_idle env e.regions m₁ he.pas
    rw [hidle]
    exact .inr ⟨hroot, hregions, hpages⟩

end Build

/-! ## The commit fails -/

theorem commitFailure_returns {s s' : Site} (h : commitFailure s = (.ret (-1), s')) :
    s'.encl = { s.encl with regions := s.encl.regions.map deleteRegionPas, pts := [], cr3 := 0 } ∧
      s'.log = frees (s.encl.pts.map (·.start)) ++ s.log := by
  rcases commitFailure_cases s with hfreed | ⟨-, hlog⟩
  · rw [hfreed] at h
    cases h
  · rw [h] at hlog
    unfold commitFailure at h
    split at h
    · cases h
    · obtain ⟨-, rfl⟩ := Prod.mk.inj h
      exact ⟨rfl, hlog⟩

/-- **A commit that returns -1**: the pages are not collected, or the tables are not
built, or a transfer or the seal is refused. -/
theorem commitEnclave_failed {env : Env} {commit : CommitMessage} {s s' : Site}
    (h : commitEnclave env commit s = (.ret (-1), s')) :
    ∃ ret regions log, collectRegions env [] s.encl.regions s.log = (.ret ret, regions, log) ∧
      ((ret ≠ 0 ∧ commitFailure { s with log := log, encl := { s.encl with regions := regions } } = (.ret (-1), s')) ∨
        (ret = 0 ∧ ∃ e events,
          let m := (buildEnclaveCr3 env s.mem log { s.encl with regions := regions }).2
          e.regions = m.extras.enclave.regions ∧ e.allPages = m.extras.enclave.allPages ∧
            (m.extras.enclave.allPages = [] → ∀ dom start end_ tpe, .transferCapability dom start end_ tpe true ∉ events) ∧
            commitFailure ⟨m.mem, events ++ m.extras.log, e⟩ = (.ret (-1), s'))) := by
  have hstops : ∀ {o t}, commitStops o t = (.ret (-1), s') → ∃ ret, o = .ret ret ∧ commitFailure t = (.ret (-1), s') := by
    intro o t hstop
    cases o with
    | ret ret => exact ⟨ret, rfl, hstop⟩
    | fault | freed => cases hstop
  obtain ⟨o, regions, log, hc, ⟨ho, heq⟩ | ⟨rfl, o', m, hb, hcase⟩⟩ := commitEnclave_cases env commit s
  · obtain ⟨ret, rfl, hfail⟩ := hstops (heq.symm.trans h)
    exact ⟨ret, regions, log, hc, .inl ⟨by simpa using ho, hfail⟩⟩
  refine ⟨0, regions, log, hc, .inr ⟨rfl, ?_⟩⟩
  rw [hb]
  rcases hcase with ⟨-, heq⟩ | ⟨-, heq⟩
  · obtain ⟨-, -, hfail⟩ := hstops (heq.symm.trans h)
    exact ⟨m.extras.enclave, [], rfl, rfl, by simp, hfail⟩
  rw [heq] at h
  obtain ⟨ret'', log', ht, hcase⟩ := commitTransfers_cases env commit ⟨m.mem, m.extras.log, m.extras.enclave⟩
  rw [h] at hcase
  have hpages := transferPages_cases env m.extras.enclave m.extras.enclave.allPages m.extras.log
  dsimp only at ht
  rw [ht] at hpages
  have hevents : ∃ events, log' = events ++ m.extras.log ∧ (m.extras.enclave.allPages = [] → events = []) := by
    rcases hpages with heq | ⟨done, pa, rest, hdone, heq⟩
    · refine ⟨_, (Prod.mk.inj heq).2, fun hnil => ?_⟩
      rw [hnil]
      rfl
    · refine ⟨_, (Prod.mk.inj heq).2, fun hnil => ?_⟩
      rw [hnil] at hdone
      simp at hdone
  obtain ⟨events, rfl, hnone⟩ := hevents
  rcases hcase with ⟨-, hfail⟩ | ⟨invoke, ⟨rfl, hfail⟩ | ⟨handle, -, hok⟩⟩
  · exact ⟨m.extras.enclave, events, rfl, rfl, fun hnil => by simp [hnone hnil], hfail.symm⟩
  · exact ⟨{ m.extras.enclave with stack := commit.stack, entry := commit.entry }, .sealDomain m.extras.enclave.tycheHandle m.extras.enclave.cr3 commit.entry commit.stack none :: events,
      rfl, rfl, fun hnil => by simp [hnone hnil], hfail.symm⟩
  · cases hok

/-- Nothing is outstanding when nothing was transferred. -/
theorem not_outstanding {events : List Event} {dom start end_ : Nat}
    (h : ∀ tpe, .transferCapability dom start end_ tpe true ∉ events) : ¬ Outstanding events dom start end_ := by
  rintro ⟨later, tpe, earlier, rfl, -⟩
  exact h tpe (by simp)

theorem deleteRegionPas_blank {regions : List Region} (h : ∀ r ∈ regions, r.pas = []) : regions.map deleteRegionPas = regions := by
  have hsame : regions.map deleteRegionPas = regions.map id := by
    refine List.map_congr_left fun r hr => ?_
    have hdangling : (r.dangling || !r.pas.isEmpty) = r.dangling := by simp [h r hr]
    rw [deleteRegionPas, hdangling]
    rfl
  rw [hsame, List.map_id]

/-- What the failure path leaves, when there were no pages and no transfers. -/
theorem restored_of_failure {s t s' : Site} (events : List Event) (hfail : commitFailure t = (.ret (-1), s'))
    (hregions : t.encl.regions = s.encl.regions) (hblank : t.encl.Blank) (hlog : t.log = events ++ s.log)
    (hevents : ∀ dom start end_ tpe, .transferCapability dom start end_ tpe true ∉ events) : Restored s s' := by
  obtain ⟨hencl, hlog'⟩ := commitFailure_returns hfail
  have hkeep : s'.encl.regions = t.encl.regions := by
    rw [hencl]
    exact deleteRegionPas_blank hblank.pas
  refine ⟨hkeep.trans hregions, ?_, by rw [hencl], ?_, by rw [hencl], fun new hnew dom start end_ => ?_⟩
  · rw [hkeep]
    exact hblank.pas
  · rw [hencl]
    exact hblank.allPages
  · rw [hlog', hlog, ← List.append_assoc, List.append_cancel_right_eq] at hnew
    refine not_outstanding fun tpe hmem => ?_
    rw [← hnew] at hmem
    rcases List.mem_append.1 hmem with hmem | hmem
    · simp [frees] at hmem
    · exact hevents dom start end_ tpe hmem

/-- A failure path that restores the enclave had no page to give up. -/
theorem blank_of_restored {s t s' : Site} (hfail : commitFailure t = (.ret (-1), s')) (h : Restored s s') : t.encl.Blank := by
  obtain ⟨hencl, -⟩ := commitFailure_returns hfail
  have hpas := h.pas
  have hpages := h.allPages
  rw [hencl] at hpas hpages
  exact ⟨fun r hr => hpas (deleteRegionPas r) (List.mem_map_of_mem hr), hpages⟩

theorem Effects.blank {x y : Encl × List Event} (h : Effects x y) (hy : y.1.Blank) : x.1.Blank := by
  induction h with
  | refl => exact hy
  | tail _ hstep ih =>
    refine ih ?_
    cases hstep with
    | prepare hstep => exact hstep.blank hy
    | transfer | sealing => exact ⟨hy.pas, hy.allPages⟩

/-- So there was none before the commit. -/
theorem blank_before {env : Env} {commit : CommitMessage} {s s' : Site} (h : commitEnclave env commit s = (.ret (-1), s'))
    (hrestored : Restored s s') : s.encl.Blank := by
  obtain ⟨mem, e, log, heffects, ⟨o, ho, heq⟩ | heq⟩ := commitEnclave_effects env commit s
  · rw [heq] at h
    exact absurd (Prod.mk.inj h).1 ho
  · exact heffects.blank (blank_of_restored (heq.symm.trans h) hrestored)

/-- Preparations transfer nothing. -/
theorem Preparations.untransferred {x y : Encl × List Event} (h : Preparations x y) :
    ∃ events, y.2 = events ++ x.2 ∧ ∀ dom start end_ tpe, .transferCapability dom start end_ tpe true ∉ events := by
  obtain ⟨events, hlog, hquiet⟩ := h.calls
  exact ⟨events, hlog, fun dom start end_ tpe hmem => by simpa [Event.monitor] using hquiet _ hmem⟩

/-- **The failure of a commit without pages before**: it has recorded one, or has
neither recorded nor transferred any. -/
theorem failure_of_blank {env : Env} {commit : CommitMessage} {s s' : Site}
    (h : commitEnclave env commit s = (.ret (-1), s')) (hblank : s.encl.Blank) :
    ∃ t, commitFailure t = (.ret (-1), s') ∧
      ((Records env s.log s.encl.regions ∧ ¬ t.encl.Blank) ∨
        (¬ Records env s.log s.encl.regions ∧ t.encl.regions = s.encl.regions ∧ t.encl.Blank ∧
          ∃ events, t.log = events ++ s.log ∧ ∀ dom start end_ tpe, .transferCapability dom start end_ tpe true ∉ events)) := by
  obtain ⟨ret, regions, log, hc, hcase⟩ := commitEnclave_failed h
  have hcollect := collectRegions_prepares env [] s.encl.regions s.log rfl
  have hfirst := collectRegions_first env s.log s.encl.regions [] hblank.pas
  rw [hc] at hcollect hfirst
  rw [List.reverse_nil, List.nil_append] at hfirst
  unfold Records
  split at hfirst
  next hnone =>
    -- No page is reported, and the tables are built.
    rw [hnone]
    cases hfirst
    obtain ⟨e, events, hregions, hpages, hnothing, hfail⟩ := (hcase.resolve_left fun hne => hne.1 rfl).2
    refine ⟨_, hfail, ?_⟩
    rcases buildEnclaveCr3_blank env s.mem s.log hblank with ⟨hroot, hne⟩ | ⟨hroot, hregions', hpages'⟩
    · exact .inl ⟨hroot, fun hend => hne ⟨by rw [← hregions]; exact hend.pas, by rw [← hpages]; exact hend.allPages⟩⟩
    obtain ⟨built, hbuilt, hquiet⟩ := (buildEnclaveCr3_prepares env s.mem s.log s.encl).untransferred
    refine .inr ⟨hroot, hregions.trans hregions', ⟨?_, hpages.trans hpages'⟩, events ++ built, ?_, ?_⟩
    · rw [hregions, hregions']
      exact hblank.pas
    · rw [List.append_assoc]
      exact congrArg (events ++ ·) hbuilt
    · intro dom start end_ tpe hmem
      rcases List.mem_append.1 hmem with hmem | hmem
      · exact hnothing hpages' dom start end_ tpe hmem
      · exact hquiet dom start end_ tpe hmem
  next r report hsome =>
    rw [hsome]
    rcases hfirst with ⟨hcollects, q, hq, hne⟩ | ⟨hcollects, log', heq⟩
    · -- A page was collected, and stays in its list.
      have hpages : ¬ Encl.Blank { s.encl with regions := regions } := fun hcollected => hne (hcollected.pas q hq)
      rcases hcase with ⟨-, hfail⟩ | ⟨-, e, events, hregions, hpages', -, hfail⟩
      · exact ⟨_, hfail, .inl ⟨hcollects, hpages⟩⟩
      · refine ⟨_, hfail, .inl ⟨hcollects, fun hend => hpages ?_⟩⟩
        exact (buildEnclaveCr3_prepares env s.mem log { s.encl with regions := regions }).blank
          ⟨by rw [← hregions]; exact hend.pas, by rw [← hpages']; exact hend.allPages⟩
    · cases heq
      have hfail := (hcase.resolve_right fun hzero => by cases hzero.1).2
      exact ⟨_, hfail, .inr ⟨hcollects, rfl, hblank, hcollect.untransferred⟩⟩

/-- **A commit that fails restores the enclave** exactly when no page was recorded
in it before, and the commit records none. -/
theorem failed_commit_restores {env : Env} {commit : CommitMessage} {s s' : Site}
    (h : commitEnclave env commit s = (.ret (-1), s')) :
    Restored s s' ↔ s.encl.Blank ∧ ¬ Records env s.log s.encl.regions := by
  constructor
  · intro hrestored
    have hblank := blank_before h hrestored
    obtain ⟨t, hfail, ⟨-, hpages⟩ | ⟨hrecords, -⟩⟩ := failure_of_blank h hblank
    · exact absurd (blank_of_restored hfail hrestored) hpages
    · exact ⟨hblank, hrecords⟩
  · rintro ⟨hblank, hrecords⟩
    obtain ⟨t, hfail, ⟨h', -⟩ | ⟨-, hregions, hpages, events, hlog, hevents⟩⟩ := failure_of_blank h hblank
    · exact absurd h' hrecords
    · exact restored_of_failure events hfail hregions hpages hlog hevents

/-- A region whose second page is missing: the first one is recorded. -/
theorem failed_commit_restores_hole :
    let env : Env := { plenty with walkPageRange := fun _ _ _ => [.hugetlbEntry, .pteEntry 0x8000 0x20005, .pteHole] }
    let s : Site := ⟨fun _ _ => 0, [],
      { crossing with regions := [{ start := 0x1000, end_ := 0x3000, src := 0x8000, flags := teRead, tpe := 4 }] }⟩
    Restored s (commitEnclave env ⟨0, 0, 0⟩ s).2 ↔ s.encl.Blank ∧ ¬ Records env s.log s.encl.regions := by
  intro env s
  have hret : (commitEnclave env ⟨0, 0, 0⟩ s).1 = .ret (-1) := by decide +kernel
  exact failed_commit_restores (Prod.ext hret rfl)

/-- The first commit of an enclave without regions, whose seal is refused: the
root of the tables stays in `all_pages`, and at the domain. -/
theorem failed_commit_leaves :
    ¬ ∀ (env : Env) (commit : CommitMessage) (s s' : Site), s.encl.Blank → s.encl.pts = [] → s.encl.cr3 = 0 →
      commitEnclave env commit s = (.ret (-1), s') → Restored s s' := by
  intro h
  let s : Site := ⟨fun _ _ => 0, [], { pid := 1, handle := 0, tycheHandle := 1 }⟩
  have hret : (commitEnclave unsealing ⟨0, 0, 0⟩ s).1 = .ret (-1) := by decide +kernel
  have hpages : (commitEnclave unsealing ⟨0, 0, 0⟩ s).2.encl.allPages = [⟨0x100000, 0x101000, ptEntry⟩] := by decide +kernel
  have hrestored := h unsealing ⟨0, 0, 0⟩ s _ ⟨by simp [s], rfl⟩ rfl rfl (Prod.ext hret rfl)
  rw [hrestored.allPages] at hpages
  cases hpages

end Tyche.Enclave
