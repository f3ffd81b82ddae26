/-
What a commit does to its enclave and the log, one effect at a time,
whatever the allocators, the walk of the parent's memory and the monitor
answer. An invariant of every effect is one of every commit.
-/
import Tyche.Enclave.Driver
import Tyche.Enclave.Mapping

namespace Tyche.Enclave

open Tyche.Pts
open Tyche.Capa (ptEntry)

/-- What a commit does next to the enclave before it transfers anything, with
what it adds to the log. -/
inductive Preparation : Encl × List Event → Encl × List Event → Prop
  | kmalloc (e : Encl) (log : List Event) (ok : Bool) : Preparation (e, log) (e, .kmalloc ok :: log)
  | collect (e : Encl) (log : List Event) (before after : List Region) (r : Region) (f : Nat)
      (h : e.regions = before ++ r :: after) (hf : Frame f) :
      Preparation (e, log) ({ e with regions := before ++ { r with pas := r.pas ++ [⟨f, f + page, r.tpe⟩] } :: after },
        .collect f :: log)
  | noPage (e : Encl) (log : List Event) (ans : Option Nat) (h : ∀ f, ans = some f → f % ptPageSize ≠ 0) :
      Preparation (e, log) (e, .allocPages ans :: log)
  -- A page is given back: a record is missing, or its range is not free.
  | unused (e : Encl) (log : List Event) (f : Nat) (ks : List Event) (allPages : List PaRegion)
      (hf : f % ptPageSize = 0) (hks : ∀ k ∈ ks, ∃ ok, k = .kmalloc ok)
      (h : allPages = e.allPages ∨ ∃ ret ≠ 0, addMergeGlobal e.allPages ⟨f, add64 f ptPageSize, ptEntry⟩ = (ret, allPages)) :
      Preparation (e, log) ({ e with allPages := allPages }, .freePages f :: ks ++ .allocPages (some f) :: log)
  | table (e : Encl) (log : List Event) (f : Nat) (hf : f % ptPageSize = 0) :
      Preparation (e, log)
        ({ e with
            pts := e.pts ++ [⟨f, add64 f ptPageSize, ptEntry⟩]
            allPages := (addMergeGlobal e.allPages ⟨f, add64 f ptPageSize, ptEntry⟩).2 },
          .kmalloc true :: .kmalloc true :: .allocPages (some f) :: log)
  | root (e : Encl) (log : List Event) (cr3 : Nat) : Preparation (e, log) ({ e with cr3 := cr3 }, log)
  | merge (e : Encl) (log : List Event) (r : Region) (pa : PaRegion) (hr : r ∈ e.regions) (hpa : pa ∈ r.pas) :
      Preparation (e, log) ({ e with allPages := (addMergeGlobal e.allPages pa).2 }, .kmalloc true :: log)

/-- What a commit does next. -/
inductive Effect : Encl × List Event → Encl × List Event → Prop
  | prepare {x y : Encl × List Event} (h : Preparation x y) : Effect x y
  | transfer (e : Encl) (log : List Event) (pa : PaRegion) (ok : Bool) (h : pa ∈ e.allPages) :
      Effect (e, log) (e, .transferCapability e.tycheHandle pa.start pa.end_ pa.tpe ok :: log)
  | sealing (e : Encl) (log : List Event) (stack entry : Nat) (invoke : Option Nat) :
      Effect (e, log) ({ e with stack := stack, entry := entry, invoke := invoke.getD e.invoke },
        .sealDomain e.tycheHandle e.cr3 entry stack invoke :: log)

/-- One after the other. -/
abbrev Preparations : Encl × List Event → Encl × List Event → Prop := Relation.ReflTransGen Preparation

abbrev Effects : Encl × List Event → Encl × List Event → Prop := Relation.ReflTransGen Effect

theorem Preparations.effects {x y : Encl × List Event} (h : Preparations x y) : Effects x y :=
  Relation.ReflTransGen.mono (fun _ _ h => .prepare h) _ _ h

/-- A page that is given back leaves no range that was not there. -/
theorem unused_mem {e : Encl} {f : Nat} {allPages : List PaRegion}
    (h : allPages = e.allPages ∨ ∃ ret ≠ 0, addMergeGlobal e.allPages ⟨f, add64 f ptPageSize, ptEntry⟩ = (ret, allPages)) :
    ∀ pa ∈ allPages, pa ∈ e.allPages := by
  rcases h with rfl | ⟨ret, hret, hadd⟩
  · exact fun pa hpa => hpa
  · have hrefused := addMergeGlobal_refused e.allPages ⟨f, add64 f ptPageSize, ptEntry⟩
    rw [hadd] at hrefused
    exact hrefused hret

/-! ## The physical pages are collected -/

section Collect

variable (env : Env) {e : Encl} {before after : List Region}

/-- A page is added at the end, or the region stays as it was. -/
theorem addPaToRegion_cases (r : Region) (pa : PaRegion) :
    (r.stale = false ∧ addPaToRegion r pa = (.ret 0, { r with pas := r.pas ++ [pa] })) ∨
    ∃ o, o ≠ .ret 0 ∧ addPaToRegion r pa = (o, r) := by
  unfold addPaToRegion
  split
  · exact .inr ⟨.freed, by simp, rfl⟩
  next hstale =>
    split
    · exact .inr ⟨.ret (-1), by simp, rfl⟩
    · exact .inl ⟨eq_false_of_ne_true hstale, rfl⟩

theorem pteEntry_prepares (addr pte : Nat) (r : Region) (log : List Event) (h : e.regions = before ++ r :: after) :
    Preparations (e, log) ({ e with regions := before ++ (pteEntry env addr pte r log).2.1 :: after },
      (pteEntry env addr pte r log).2.2) := by
  have hsame : ({ e with regions := before ++ r :: after } : Encl) = e := by rw [← h]
  unfold pteEntry
  split
  · rw [hsame]
  split
  · rw [hsame]
  dsimp only
  have hmalloc := Preparation.kmalloc e log (env.kmalloc log)
  split
  · rw [hsame]
    exact .single hmalloc
  rcases addPaToRegion_cases r ⟨pte &&& ptePfnMask, (pte &&& ptePfnMask) + page, r.tpe⟩ with ⟨-, heq⟩ | ⟨o, ho, heq⟩
  · rw [heq]
    exact .tail (.single hmalloc) (.collect e _ before after r _ h (frame_and_mask pte))
  · rw [heq]
    split
    next hret => exact absurd (Prod.mk.inj hret).1 ho
    next hret =>
      obtain ⟨rfl, rfl⟩ := Prod.mk.inj hret
      rw [hsame]
      exact .single hmalloc

theorem runReports_prepares (reports : List Report) (r : Region) (log : List Event) (h : e.regions = before ++ r :: after) :
    Preparations (e, log) ({ e with regions := before ++ (runReports env reports r log).2.1 :: after },
      (runReports env reports r log).2.2) := by
  induction reports generalizing e r log with
  | nil =>
    rw [runReports, ← h]
  | cons report reports ih =>
    cases report with
    | pteEntry addr pte =>
      have hentry := pteEntry_prepares env addr pte r log h
      rw [runReports]
      split
      next r' log' heq =>
        rw [heq] at hentry
        exact hentry.trans (ih r' log' rfl)
      · exact hentry
    | hugetlbEntry => exact ih r log h
    | pteHole =>
      rw [runReports, ← h]

theorem walkAndCollectRegion_prepares (r : Region) (log : List Event) (h : e.regions = before ++ r :: after) :
    Preparations (e, log) ({ e with regions := before ++ (walkAndCollectRegion env r log).2.1 :: after },
      (walkAndCollectRegion env r log).2.2) := by
  have hwalk := runReports_prepares env (env.walkPageRange log r.src (add64 r.src (sub64 r.end_ r.start))) r log h
  unfold walkAndCollectRegion
  dsimp only
  split
  next heq =>
    rw [heq] at hwalk
    exact hwalk
  · exact hwalk

theorem collectRegions_prepares (done rest : List Region) (log : List Event) (h : e.regions = done.reverse ++ rest) :
    Preparations (e, log) ({ e with regions := (collectRegions env done rest log).2.1 },
      (collectRegions env done rest log).2.2) := by
  induction rest generalizing e done log with
  | nil =>
    rw [List.append_nil] at h
    rw [collectRegions, ← h]
  | cons r rest ih =>
    have hwalk := walkAndCollectRegion_prepares env r log h
    rw [collectRegions]
    split
    next r' log' heq =>
      rw [heq] at hwalk
      exact hwalk.trans (ih (r' :: done) log' (by simp))
    next heq =>
      rw [heq] at hwalk
      exact hwalk

end Collect

/-! ## The tables are built -/

theorem allocate_prepares (env : Env) (m : Machine MapInfo) :
    Preparations (m.extras.enclave, m.extras.log) ((allocate env m).2.extras.enclave, (allocate env m).2.extras.log) := by
  rcases allocate_cases env m with ⟨ans, heq, hans⟩ | ⟨f, ks, allPages, heq, hf, hks⟩ | ⟨f, allPages, heq, hf, hadd⟩
  · rw [heq]
    exact .single (.noPage _ _ ans hans)
  · rw [heq]
    have hevents : ∀ k ∈ ks, ∃ ok, k = Event.kmalloc ok := by
      rcases hks with ⟨-, rfl | rfl⟩ | ⟨rfl, -⟩ <;> simp
    have heff := Preparation.unused m.extras.enclave m.extras.log f ks allPages hf hevents
      (hks.imp (fun h => h.1) fun h => h.2)
    simpa [allocated] using Relation.ReflTransGen.single heff
  · rw [heq]
    have heff := Preparation.table m.extras.enclave m.extras.log f hf
    rw [hadd] at heff
    exact .single heff

/-- The callbacks of the mapper prepare pages only. -/
theorem mapperProfile_prepares (env : Env) :
    (mapperProfile env).Advances fun x y => Preparations (x.enclave, x.log) (y.enclave, y.log) where
  refl _ := .refl
  trans h h' := h.trans h'
  how t i l m := by
    show Preparations _ ((x86_64HowMap t i l m).2.extras.enclave, (x86_64HowMap t i l m).2.extras.log)
    unfold x86_64HowMap
    split <;> exact .refl
  mapper := by
    intro l f h t i m
    rw [mapperProfile_mapper h]
    have hpage : ∀ isHuge pa rest, Preparations (m.extras.enclave, m.extras.log)
        ((entryPage t i isHuge pa rest m).2.extras.enclave, (entryPage t i isHuge pa rest m).2.extras.log) := by
      intro isHuge pa rest
      unfold entryPage
      split <;> exact .refl
    unfold defaultMapper
    split
    · exact .refl
    split
    · exact .refl
    dsimp only
    split
    · exact hpage ..
    split
    · exact allocate_prepares env m
    split
    · exact .refl
    · exact hpage ..
  visitor h := nomatch h

theorem mapRegion_prepares (env : Env) (region : Region) (m : Machine MapInfo) :
    Preparations (m.extras.enclave, m.extras.log)
      ((mapRegion env region m).2.extras.enclave, (mapRegion env region m).2.extras.log) :=
  (mapperProfile_prepares env).ptWalkPageRange region.end_ ptPML4 m.extras.enclave.cr3 region.start
    { m with extras := m.extras.setRegion region }

theorem mergePas_prepares (env : Env) {r : Region} (pas : List PaRegion) (m : Machine MapInfo)
    (hr : r ∈ m.extras.enclave.regions) (hpas : ∀ pa ∈ pas, pa ∈ r.pas) :
    Preparations (m.extras.enclave, m.extras.log)
      ((mergePas env pas m).2.extras.enclave, (mergePas env pas m).2.extras.log) := by
  induction pas generalizing m with
  | nil => exact .refl
  | cons curr rest ih =>
    rcases mergePas_cons env curr rest m with heq | ⟨ret, allPages, hadd, hcase⟩
    · rw [heq]
      exact .single (.kmalloc ..)
    · have hmerge := Preparation.merge m.extras.enclave m.extras.log r curr hr (hpas curr (List.mem_cons_self ..))
      rw [hadd] at hmerge
      have hstep : Preparations (m.extras.enclave, m.extras.log)
          ((mergedInto allPages m).extras.enclave, (mergedInto allPages m).extras.log) := .single hmerge
      rcases hcase with ⟨-, heq⟩ | ⟨-, heq⟩
      · rw [heq]
        exact hstep
      · rw [heq]
        exact hstep.trans (ih _ hr fun pa hpa => hpas pa (List.mem_cons_of_mem _ hpa))

theorem buildRegions_prepares (env : Env) (regions : List Region) (m : Machine MapInfo)
    (hregions : ∀ r ∈ regions, r ∈ m.extras.enclave.regions) :
    Preparations (m.extras.enclave, m.extras.log)
      ((buildRegions env regions m).2.extras.enclave, (buildRegions env regions m).2.extras.log) := by
  induction regions generalizing m with
  | nil => exact .refl
  | cons reg regions ih =>
    have hmap := mapRegion_prepares env reg m
    have hlater := mapRegion_later env reg m
    rcases buildRegions_cons env reg regions m with ⟨o, m', heq, -, -, h⟩ |
      ⟨m', heq, ⟨-, -, h⟩ | ⟨-, ret, m'', heq', hcase⟩⟩
    · rw [heq] at hmap
      rwa [h]
    · rw [heq] at hmap
      rwa [h]
    · rw [heq] at hmap hlater
      have hkeep : m'.extras.enclave.regions = m.extras.enclave.regions := by rw [hlater.enclave]
      have hmerge := mergePas_prepares env reg.pas m' (by rw [hkeep]; exact hregions reg (List.mem_cons_self ..))
        fun pa hpa => hpa
      have hmergeLater := mergePas_later env reg.pas m'
      rw [heq'] at hmerge hmergeLater
      rcases hcase with ⟨-, h⟩ | ⟨-, h⟩
      · rw [h]
        exact hmap.trans hmerge
      · rw [h]
        refine hmap.trans (hmerge.trans (ih m'' fun r hr => ?_))
        have hkeep' : m''.extras.enclave.regions = m'.extras.enclave.regions := by rw [hmergeLater.enclave]
        rw [hkeep', hkeep]
        exact hregions r (List.mem_cons_of_mem _ hr)

theorem buildEnclaveCr3_prepares (env : Env) (mem : Nat → Nat → Nat) (log : List Event) (encl : Encl) :
    Preparations (encl, log) ((buildEnclaveCr3 env mem log encl).2.extras.enclave,
      (buildEnclaveCr3 env mem log encl).2.extras.log) := by
  have halloc := allocate_prepares env (building mem log encl)
  have hkeep := allocate_building_regions env mem log encl
  have hregions := buildRegions_prepares env encl.regions
    (rooted (allocate env (building mem log encl)).1 (allocate env (building mem log encl)).2) fun r hr => by rwa [← hkeep] at hr
  rw [buildEnclaveCr3_eq]
  exact halloc.trans (.head (.root ..) hregions)

/-! ## The pages are transferred -/

/-- The transfers of these pages, with the monitor's answer. -/
def transfers (encl : Encl) (ok : Bool) (pages : List PaRegion) : List Event :=
  (pages.map fun pa => Event.transferCapability encl.tycheHandle pa.start pa.end_ pa.tpe ok).reverse

/-- Either all pages are transferred, or those before one that is refused. -/
theorem transferPages_cases (env : Env) (encl : Encl) (pages : List PaRegion) (log : List Event) :
    transferPages env encl pages log = (0, transfers encl true pages ++ log) ∨
    ∃ done pa rest, pages = done ++ pa :: rest ∧
      transferPages env encl pages log = (-1, transfers encl false [pa] ++ transfers encl true done ++ log) := by
  induction pages generalizing log with
  | nil => exact .inl rfl
  | cons pa pages ih =>
    cases hok : env.transferCapability log encl.tycheHandle pa.start pa.end_ pa.tpe with
    | false =>
      right
      refine ⟨[], pa, pages, rfl, ?_⟩
      rw [transferPages, tycheSplitGrant, hok]
      rfl
    | true =>
      have hcons : transferPages env encl (pa :: pages) log =
          transferPages env encl pages (.transferCapability encl.tycheHandle pa.start pa.end_ pa.tpe true :: log) := by
        rw [transferPages, tycheSplitGrant, hok]
        rfl
      rw [hcons]
      rcases ih (.transferCapability encl.tycheHandle pa.start pa.end_ pa.tpe true :: log) with h | ⟨done, q, rest, rfl, h⟩
      · left
        rw [h]
        simp [transfers]
      · right
        refine ⟨pa :: done, q, rest, rfl, ?_⟩
        rw [h]
        simp [transfers]

theorem transfers_effects (encl : Encl) (ok : Bool) {pages : List PaRegion} (log : List Event)
    (h : ∀ pa ∈ pages, pa ∈ encl.allPages) : Effects (encl, log) (encl, transfers encl ok pages ++ log) := by
  induction pages generalizing log with
  | nil => exact .refl
  | cons pa pages ih =>
    have hfirst := Effect.transfer encl log pa ok (h pa (List.mem_cons_self ..))
    have hrest := ih (.transferCapability encl.tycheHandle pa.start pa.end_ pa.tpe ok :: log) fun q hq =>
      h q (List.mem_cons_of_mem _ hq)
    have heq : transfers encl ok (pa :: pages) ++ log =
        transfers encl ok pages ++ .transferCapability encl.tycheHandle pa.start pa.end_ pa.tpe ok :: log := by
      simp [transfers]
    rw [heq]
    exact .head hfirst hrest

theorem transferPages_effects (env : Env) (encl : Encl) (log : List Event) :
    Effects (encl, log) (encl, (transferPages env encl encl.allPages log).2) := by
  rcases transferPages_cases env encl encl.allPages log with h | ⟨done, pa, rest, hpages, h⟩
  · rw [h]
    exact transfers_effects encl true log fun pa hpa => hpa
  · rw [h]
    have hdone := transfers_effects encl true log fun q (hq : q ∈ done) => by rw [hpages]; simp [hq]
    have hrefused := transfers_effects encl false (transfers encl true done ++ log) fun q (hq : q ∈ [pa]) => by
      rw [hpages]
      simp_all
    simpa using hdone.trans hrefused

/-! ## A commit -/

/-- A commit stops after a call: on the failure path if the call returned. -/
def commitStops (o : Outcome Int) (s : Site) : Outcome Int × Site :=
  match o with
  | .ret _ => commitFailure s
  | .fault => (.fault, s)
  | .freed => (.freed, s)

theorem commitFailure_ne (s : Site) : (commitFailure s).1 ≠ .ret 0 := by
  unfold commitFailure
  split <;> simp

theorem commitStops_ne (o : Outcome Int) (s : Site) : (commitStops o s).1 ≠ .ret 0 := by
  cases o with
  | ret v => exact commitFailure_ne s
  | fault | freed => simp [commitStops]

/-- **The stages of a commit**: it stops when the pages are not collected, or the
tables not built, and else goes on to the transfers. -/
theorem commitEnclave_cases (env : Env) (commit : CommitMessage) (s : Site) :
    ∃ o regions log, collectRegions env [] s.encl.regions s.log = (o, regions, log) ∧
      ((o ≠ .ret 0 ∧ commitEnclave env commit s = commitStops o { s with log := log, encl := { s.encl with regions := regions } }) ∨
        (o = .ret 0 ∧ ∃ o' m, buildEnclaveCr3 env s.mem log { s.encl with regions := regions } = (o', m) ∧
          let t : Site := ⟨m.mem, m.extras.log, m.extras.enclave⟩
          (o' ≠ .ret 0 ∧ commitEnclave env commit s = commitStops o' t) ∨
            (o' = .ret 0 ∧ commitEnclave env commit s = commitTransfers env commit t))) := by
  unfold commitEnclave
  rcases hc : collectRegions env [] s.encl.regions s.log with ⟨o, regions, log⟩
  refine ⟨o, regions, log, rfl, ?_⟩
  cases o with
  | fault | freed => exact .inl ⟨by simp, rfl⟩
  | ret ret =>
  dsimp only
  by_cases hret : ret = 0
  case neg => exact .inl ⟨by simp [hret], if_pos hret⟩
  rw [if_neg (not_not.2 hret)]
  refine .inr ⟨by rw [hret], ?_⟩
  rcases hb : buildEnclaveCr3 env s.mem log { s.encl with regions := regions } with ⟨o, m⟩
  refine ⟨o, m, rfl, ?_⟩
  cases o with
  | fault | freed => exact .inl ⟨by simp, rfl⟩
  | ret ret' =>
  dsimp only
  by_cases hret' : ret' = 0
  · exact .inr ⟨by rw [hret'], if_neg (not_not.2 hret')⟩
  · exact .inl ⟨by simp [hret'], if_pos hret'⟩

/-- **A commit that returns 0**: the pages are collected, the tables built, and
all pages transferred. -/
theorem commitEnclave_returns {env : Env} {commit : CommitMessage} {s s' : Site} (h : commitEnclave env commit s = (.ret 0, s')) :
    ∃ regions log m invoke, collectRegions env [] s.encl.regions s.log = (.ret 0, regions, log) ∧
      buildEnclaveCr3 env s.mem log { s.encl with regions := regions } = (.ret 0, m) ∧
      s' = ⟨m.mem, .sealDomain m.extras.enclave.tycheHandle m.extras.enclave.cr3 commit.entry commit.stack (some invoke) ::
          (transfers m.extras.enclave true m.extras.enclave.allPages ++ m.extras.log),
        { m.extras.enclave with stack := commit.stack, entry := commit.entry, invoke := invoke }⟩ := by
  have hstops : ∀ {o t}, commitStops o t ≠ (.ret 0, s') := fun {o t} hstop => commitStops_ne o t (by rw [hstop])
  have hfailed : ∀ {t}, commitFailure t ≠ (.ret 0, s') := fun {t} hfail => commitFailure_ne t (by rw [hfail])
  obtain ⟨o, regions, log, hc, ⟨-, heq⟩ | ⟨rfl, o', m, hb, hcase⟩⟩ := commitEnclave_cases env commit s
  · exact absurd (heq.symm.trans h) hstops
  dsimp only at hcase
  rcases hcase with ⟨-, heq⟩ | ⟨rfl, heq⟩
  · exact absurd (heq.symm.trans h) hstops
  refine ⟨regions, log, m, ?_⟩
  rw [heq] at h
  unfold commitTransfers at h
  rcases transferPages_cases env m.extras.enclave m.extras.enclave.allPages m.extras.log with ht | ⟨done, pa, rest, -, ht⟩
  · rw [ht] at h
    dsimp only at h
    rw [if_neg (by simp)] at h
    unfold tycheSealEnclave at h
    dsimp only at h
    split at h
    · exact absurd h hfailed
    next invoke log' hseal =>
      obtain ⟨hinvoke, hlog⟩ := Prod.mk.inj hseal
      obtain ⟨-, rfl⟩ := Prod.mk.inj h
      rw [hinvoke] at hlog
      rw [← hlog]
      exact ⟨invoke, hc, hb, rfl⟩
  · rw [ht] at h
    exact absurd h hfailed

/-- **What a commit prepares**; it then goes on to the transfers, unless it
failed before. -/
theorem commitEnclave_prepares (env : Env) (commit : CommitMessage) (s : Site) :
    ∃ mem e log, Preparations (s.encl, s.log) (e, log) ∧
      ((∃ o, (o = .fault ∨ o = .freed) ∧ commitEnclave env commit s = (o, ⟨mem, log, e⟩)) ∨
        commitEnclave env commit s = commitFailure ⟨mem, log, e⟩ ∨
        commitEnclave env commit s = commitTransfers env commit ⟨mem, log, e⟩) := by
  have hstops : ∀ {o mem log e}, commitEnclave env commit s = commitStops o ⟨mem, log, e⟩ →
      (∃ o, (o = .fault ∨ o = .freed) ∧ commitEnclave env commit s = (o, ⟨mem, log, e⟩)) ∨
        commitEnclave env commit s = commitFailure ⟨mem, log, e⟩ := by
    intro o mem log e heq
    cases o with
    | ret v => exact .inr heq
    | fault => exact .inl ⟨.fault, .inl rfl, heq⟩
    | freed => exact .inl ⟨.freed, .inr rfl, heq⟩
  have hcollect := collectRegions_prepares env [] s.encl.regions s.log rfl
  obtain ⟨o, regions, log, hc, hcase⟩ := commitEnclave_cases env commit s
  rw [hc] at hcollect
  rcases hcase with ⟨-, heq⟩ | ⟨-, o', m, hb, hcase⟩
  · exact ⟨_, _, _, hcollect, (hstops heq).imp_right .inl⟩
  have hbuild := hcollect.trans (buildEnclaveCr3_prepares env s.mem log { s.encl with regions := regions })
  rw [hb] at hbuild
  rcases hcase with ⟨-, heq⟩ | ⟨-, heq⟩
  · exact ⟨_, _, _, hbuild, (hstops heq).imp_right .inl⟩
  · exact ⟨_, _, _, hbuild, .inr (.inr heq)⟩

/-- The transfers of a commit: one is refused, the domain is not sealed, or the
commit returns 0. -/
theorem commitTransfers_cases (env : Env) (commit : CommitMessage) (s : Site) :
    ∃ ret log, transferPages env s.encl s.encl.allPages s.log = (ret, log) ∧
      ((ret ≠ 0 ∧ commitTransfers env commit s = commitFailure { s with log := log }) ∨
        ∃ invoke,
          let event : Event := .sealDomain s.encl.tycheHandle s.encl.cr3 commit.entry commit.stack invoke
          let encl : Encl := { s.encl with stack := commit.stack, entry := commit.entry }
          (invoke = none ∧ commitTransfers env commit s = commitFailure { s with log := event :: log, encl := encl }) ∨
          ∃ handle, invoke = some handle ∧
            commitTransfers env commit s = (.ret 0, { s with log := event :: log, encl := { encl with invoke := handle } })) := by
  rcases ht : transferPages env s.encl s.encl.allPages s.log with ⟨ret, log⟩
  refine ⟨ret, log, rfl, ?_⟩
  unfold commitTransfers
  rw [ht]
  dsimp only
  by_cases hret : ret = 0
  case neg => exact .inl ⟨hret, if_pos hret⟩
  rw [if_neg (not_not.2 hret)]
  unfold tycheSealEnclave
  dsimp only
  cases hinvoke : env.sealDomain log s.encl.tycheHandle s.encl.cr3 commit.entry commit.stack with
  | none => exact .inr ⟨none, .inl ⟨rfl, rfl⟩⟩
  | some handle => exact .inr ⟨some handle, .inr ⟨handle, rfl, rfl⟩⟩

/-- **What a commit does**: effects, and if it fails, the failure path. -/
theorem commitEnclave_effects (env : Env) (commit : CommitMessage) (s : Site) :
    ∃ mem e log, Effects (s.encl, s.log) (e, log) ∧
      ((∃ o, o ≠ .ret (-1) ∧ commitEnclave env commit s = (o, ⟨mem, log, e⟩)) ∨
        commitEnclave env commit s = commitFailure ⟨mem, log, e⟩) := by
  obtain ⟨mem, e, log, hprepares, ⟨o, ho, heq⟩ | heq | heq⟩ := commitEnclave_prepares env commit s
  · exact ⟨mem, e, log, hprepares.effects, .inl ⟨o, by rcases ho with rfl | rfl <;> simp, heq⟩⟩
  · exact ⟨mem, e, log, hprepares.effects, .inr heq⟩
  have htransfer := hprepares.effects.trans (transferPages_effects env e log)
  obtain ⟨ret, log', ht, ⟨-, hcase⟩ | ⟨invoke, hcase⟩⟩ := commitTransfers_cases env commit ⟨mem, log, e⟩
  · rw [ht] at htransfer
    exact ⟨mem, e, log', htransfer, .inr (heq.trans hcase)⟩
  rw [ht] at htransfer
  have hseal := htransfer.tail (.sealing e log' commit.stack commit.entry invoke)
  rcases hcase with ⟨rfl, hcase⟩ | ⟨handle, rfl, hcase⟩
  · exact ⟨mem, _, _, hseal, .inr (heq.trans hcase)⟩
  · exact ⟨mem, _, _, hseal, .inl ⟨.ret 0, by simp, heq.trans hcase⟩⟩

end Tyche.Enclave
