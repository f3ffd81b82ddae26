/-
What an enclave finds at its addresses after its first commit: at each
address of a region the frame behind the source address of the parent, with
the permissions of the region, and nothing at any other address.
-/
import Tyche.Enclave.Collecting
import Tyche.Enclave.Transfer

namespace Tyche.Enclave

open Tyche.Pts Tyche.Radix

/-- Linux walks the memory of a process that has these entries, by page: each
page of a range is reported once, in order, as its entry or as a hole. -/
structure Walks (env : Env) (pte : Nat → Nat) : Prop where
  reported : ∀ log start end_, start % page = 0 → end_ % page = 0 → start ≤ end_ →
    Reported end_ start (env.walkPageRange log start end_)
  small : ∀ log start end_, .hugetlbEntry ∉ env.walkPageRange log start end_
  entries : ∀ log start end_ addr e, .pteEntry addr e ∈ env.walkPageRange log start end_ → e = pte (addr / page)

/-- A region of user space, that was never collected. -/
structure Region.Plain (r : Region) : Prop where
  aligned : r.start % page = 0 ∧ r.end_ % page = 0 ∧ r.src % page = 0
  nonempty : r.start < r.end_
  low : r.end_ ≤ 2 ^ 47 ∧ r.src + (r.end_ - r.start) ≤ 2 ^ 47
  flags : r.flags ≠ 0
  fresh : r.pas = [] ∧ r.dangling = false

/-- The region with the frames of its source range. -/
def Region.collectedFrom (pte : Nat → Nat) (r : Region) : Region :=
  { r with pas := (List.range ((r.end_ - r.start) / page)).map fun k => r.frameOf (pte (r.src / page + k)) }

/-! ## Requests that do not touch -/

/-- The requests have one type and the same flags, and one ends where the other starts. -/
def AddRegion.Touches (p q : AddRegion) : Prop :=
  p.tpe = q.tpe ∧ p.flags = q.flags ∧ (p.end_ = q.start ∨ q.end_ = p.start)

/-- The request is for user space, and so is its source. -/
def AddRegion.UserSpace (req : AddRegion) : Prop :=
  req.end_ ≤ 2 ^ 47 ∧ req.src + (req.end_ - req.start) ≤ 2 ^ 47

instance (p q : AddRegion) : Decidable (p.Touches q) := inferInstanceAs (Decidable (_ ∧ _))
instance (req : AddRegion) : Decidable req.UserSpace := inferInstanceAs (Decidable (_ ∧ _))

/-- The region starts where a request does, and ends where one does. -/
structure Region.Bordered (accepted : List AddRegion) (r : Region) : Prop where
  first : ∃ q ∈ accepted, q.tpe = r.tpe ∧ q.flags = r.flags ∧ q.start = r.start
  last : ∃ q ∈ accepted, q.tpe = r.tpe ∧ q.flags = r.flags ∧ q.end_ = r.end_
  source : ∃ q ∈ accepted, q.src = r.src
  fresh : r.pas = [] ∧ r.dangling = false

section Touching

variable {accepted : List AddRegion} {l : List Region}

theorem regionMerging_keeps_bordered (accepted : List AddRegion) : regionMerging.Keeps (Region.Bordered accepted) where
  absorb := by
    intro e n hmerge _ he hn
    have hsame : n.src = add64 e.src (e.end_ - e.start) ∧ e.tpe = n.tpe ∧ e.flags = n.flags := by simpa using hmerge
    refine ⟨?_, hn.last, hn.source, hn.fresh⟩
    obtain ⟨q, hq, htpe, hflags, hstart⟩ := he.first
    exact ⟨q, hq, htpe.trans hsame.2.1, hflags.trans hsame.2.2, hstart⟩
  extend := by
    intro n e hmerge _ hn he
    have hsame : e.src = add64 n.src (n.end_ - n.start) ∧ e.tpe = n.tpe ∧ e.flags = n.flags := by simpa using hmerge
    refine ⟨?_, he.last, hn.source, he.fresh⟩
    obtain ⟨q, hq, htpe, hflags, hstart⟩ := hn.first
    exact ⟨q, hq, htpe.trans hsame.2.1.symm, hflags.trans hsame.2.2.symm, hstart⟩

theorem Region.Bordered.later {r : Region} (h : r.Bordered accepted) (req : AddRegion) : r.Bordered (req :: accepted) := by
  obtain ⟨⟨p, hp, h1⟩, ⟨q, hq, h2⟩, ⟨o, ho, h3⟩, h4⟩ := h
  exact ⟨⟨p, List.mem_cons_of_mem _ hp, h1⟩, ⟨q, List.mem_cons_of_mem _ hq, h2⟩, ⟨o, List.mem_cons_of_mem _ ho, h3⟩, h4⟩

/-- A request that touches none of those before is well sourced. -/
theorem wellSourced_of_bordered {req : AddRegion} (hl : ∀ r ∈ l, r.Bordered accepted) (h : ∀ q ∈ accepted, ¬ req.Touches q) :
    WellSourced l req := by
  intro _
  refine ⟨fun r hr habut => ?_, fun r hr hcontinues => ?_⟩
  · obtain ⟨q, hq, htpe, hflags, hstart⟩ := (hl r hr).first
    refine absurd ⟨?_, ?_, .inl ?_⟩ (h q hq)
    · exact (htpe.trans habut.2.1).symm
    · exact (hflags.trans habut.2.2).symm
    · exact (hstart.trans habut.1).symm
  · obtain ⟨q, hq, htpe, hflags, hend⟩ := (hl r hr).last
    refine absurd ⟨?_, ?_, .inr ?_⟩ (h q hq)
    · exact (htpe.trans hcontinues.2.1).symm
    · exact (hflags.trans hcontinues.2.2.1).symm
    · exact hend.trans hcontinues.1

theorem Added.checked {ok : List Region → AddRegion → Prop} (h : Added ok l accepted) : ∀ q ∈ accepted, regionCheck q = true := by
  induction h with
  | none => simp
  | accept mem req h hok hadd ih =>
    refine List.forall_mem_cons.2 ⟨?_, ih⟩
    by_contra hcheck
    rw [addRegion, if_pos (by simpa using hcheck)] at hadd
    cases hadd
  | reject mem req h hok hadd ih => exact ih

theorem AddRegion.region_bordered (req : AddRegion) : req.region.Bordered (req :: accepted) :=
  ⟨⟨req, List.mem_cons_self .., rfl, rfl, rfl⟩, ⟨req, List.mem_cons_self .., rfl, rfl, rfl⟩,
    ⟨req, List.mem_cons_self .., rfl⟩, rfl, rfl⟩

/-- Requests that do not touch, and the regions made of them. -/
structure Laid (accepted : List AddRegion) (l : List Region) : Prop where
  added : Added WellSourced l accepted
  bordered : ∀ r ∈ l, r.Bordered accepted

theorem Laid.accept {l' : List Region} {mem : Bool} {req : AddRegion} (h : Laid accepted l)
    (hadd : addRegion mem req l = (0, l')) (hapart : ∀ q ∈ accepted, ¬ req.Touches q) : Laid (req :: accepted) l' := by
  refine ⟨.accept mem req h.added (wellSourced_of_bordered h.bordered hapart) hadd, fun r hr => ?_⟩
  have hl : ∀ r ∈ l, r.Bordered (req :: accepted) := fun r hr => (h.bordered r hr).later req
  have hkeeps := addRegion_keeps (regionMerging_keeps_bordered (req :: accepted)) mem hl fun _ => req.region_bordered
  rw [hadd] at hkeeps
  exact hkeeps r hr

/-- What a region says of one of its addresses is what a request did. -/
theorem Laid.view (h : Laid accepted l) {r : Region} (hr : r ∈ l) {a : Nat} (h1 : r.start ≤ a) (h2 : a < r.end_) :
    ∃ q ∈ accepted, q.Covers a ∧ q.region.view a = r.view a :=
  (h.added.sourced.views a _).1 ⟨r, hr, ⟨h1, h2⟩, rfl⟩

/-- **The regions of requests for user space** that do not touch can be mapped. -/
theorem Laid.plain (h : Laid accepted l) (huser : ∀ q ∈ accepted, q.UserSpace) : ∀ r ∈ l, r.Plain := by
  intro r hr
  have hne := h.added.sourced.sorted.1 r hr
  obtain ⟨⟨p, hp, -, hflags, hstart⟩, ⟨q, hq, -, -, hend⟩, ⟨o, ho, hsrc⟩, hfresh⟩ := h.bordered r hr
  have hcheckp := regionCheck_iff.1 (h.added.checked p hp)
  have hcheckq := regionCheck_iff.1 (h.added.checked q hq)
  have hchecko := regionCheck_iff.1 (h.added.checked o ho)
  have hlow := (huser q hq).1
  refine ⟨⟨hstart ▸ hcheckp.1.1, hend ▸ hcheckq.1.2.1, hsrc ▸ hchecko.1.2.2⟩, hne, ⟨by omega, ?_⟩, hflags ▸ hcheckp.2.2.1, hfresh⟩
  -- The source of the last address is that of a request.
  obtain ⟨q', hq', hcovers, hview⟩ := h.view hr (a := r.end_ - 1) (by omega) (by omega)
  have hsame : add64 q'.src (r.end_ - 1 - q'.start) = add64 r.src (r.end_ - 1 - r.start) := congrArg Prod.fst hview
  have hbound := (huser q' hq').2
  have hfirst := (huser o ho).2
  obtain ⟨h1, h2⟩ := hcovers
  rw [add64, add64, Nat.mod_eq_of_lt (by omega), Nat.mod_eq_of_lt (by omega)] at hsame
  omega

/-- An address of a request is one of a region, which has the same source, flags
and type for it. -/
theorem Laid.region (h : Laid accepted l) (huser : ∀ q ∈ accepted, q.UserSpace) {q : AddRegion} (hq : q ∈ accepted) {a : Nat}
    (ha : q.Covers a) : ∃ r ∈ l, (r.start ≤ a ∧ a < r.end_) ∧ r.src + (a - r.start) = q.src + (a - q.start) ∧
      r.flags = q.flags ∧ r.tpe = q.tpe := by
  obtain ⟨r, hr, hcovers, hview⟩ := (h.added.sourced.views a (q.region.view a)).2 ⟨q, hq, ha, rfl⟩
  have hcovers : r.start ≤ a ∧ a < r.end_ := hcovers
  have hsame : add64 r.src (a - r.start) = add64 q.src (a - q.start) := congrArg Prod.fst hview
  have hkind := congrArg Prod.snd hview
  have hplain := (h.plain huser r hr).low
  have hbound := (huser q hq).2
  have hlt := regionCheck_lt (h.added.checked q hq)
  obtain ⟨h1, h2⟩ := ha
  rw [add64, add64, Nat.mod_eq_of_lt (by omega), Nat.mod_eq_of_lt (by omega)] at hsame
  exact ⟨r, hr, hcovers, hsame, congrArg Prod.fst hkind, congrArg Prod.snd hkind⟩

end Touching

/-! ## Collected regions -/

section Collect

variable {env : Env} {pte : Nat → Nat} {r : Region} {log log' : List Event}

theorem Region.Plain.source_end (h : r.Plain) :
    sub64 r.end_ r.start = r.end_ - r.start ∧ add64 r.src (sub64 r.end_ r.start) = r.src + (r.end_ - r.start) := by
  have hlow := h.low
  have hne := h.nonempty
  have hsub : sub64 r.end_ r.start = r.end_ - r.start := by
    rw [sub64, show r.end_ + 2 ^ 64 - r.start = r.end_ - r.start + 2 ^ 64 by omega, Nat.add_mod_right,
      Nat.mod_eq_of_lt (by omega)]
  exact ⟨hsub, by rw [hsub, add64, Nat.mod_eq_of_lt (by omega)]⟩

/-- **A region that is collected** has the frames of its source range. -/
theorem walkAndCollectRegion_from (hwalks : Walks env pte) (h : r.Plain) {r' : Region}
    (hcollect : walkAndCollectRegion env r log = (.ret 0, r', log')) : r' = r.collectedFrom pte := by
  obtain ⟨hsub, hend⟩ := h.source_end
  have haligned := h.aligned
  have hne := h.nonempty
  have hp : page = 4096 := rfl
  rw [hp] at haligned
  have hreported := hwalks.reported log r.src (r.src + (r.end_ - r.start)) h.aligned.2.2 (by rw [hp]; omega) (by omega)
  have hsmall := hwalks.small log r.src (r.src + (r.end_ - r.start))
  have hentries := hwalks.entries log r.src (r.src + (r.end_ - r.start))
  unfold walkAndCollectRegion at hcollect
  rw [hend] at hcollect
  dsimp only at hcollect
  rcases runReports_collects env (env.walkPageRange log r.src (r.src + (r.end_ - r.start))) r log h.fresh.2 with
    ⟨hcollectable, -, heq⟩ | ⟨-, hret⟩
  · rw [heq] at hcollect
    obtain ⟨-, hr', -⟩ : _ ∧ _ ∧ _ := by simpa only [Prod.mk.injEq] using hcollect
    obtain ⟨hlen, hfound⟩ := hreported.entries hsmall hcollectable.holes
    -- The entries are those of the pages of the range, in order.
    have hptes : ptes (env.walkPageRange log r.src (r.src + (r.end_ - r.start))) =
        (List.range ((r.end_ - r.start) / page)).map fun k => pte (r.src / page + k) := by
      have hcount : (ptes (env.walkPageRange log r.src (r.src + (r.end_ - r.start)))).length = (r.end_ - r.start) / page := by
        rw [hp] at hlen ⊢
        omega
      refine List.ext_getElem (by simpa using hcount) fun k hk _ => ?_
      have hmem := hfound k _ (List.getElem?_eq_getElem hk)
      rw [hentries _ _ hmem, List.getElem_map, List.getElem_range]
      congr 1
      rw [hp]
      omega
    rw [← hr', hptes, h.fresh.1, List.nil_append, List.map_map]
    rfl
  · -- A walk that was refused does not return 0.
    split at hcollect
    next heq =>
      rw [heq] at hret
      cases hret
      cases hcollect
    next hother =>
      rw [hcollect] at hret
      cases hret

theorem collectRegions_from (hwalks : Walks env pte) (rest : List Region) : ∀ (done : List Region) {log log' : List Event}
    {regions : List Region}, (∀ r ∈ rest, r.Plain) → collectRegions env done rest log = (.ret 0, regions, log') →
      regions = done.reverse ++ rest.map (Region.collectedFrom pte) := by
  induction rest with
  | nil =>
    intro done log log' regions _ hcollect
    rw [collectRegions] at hcollect
    cases hcollect
    simp
  | cons r rest ih =>
    intro done log log' regions hplain hcollect
    obtain ⟨hr, hrest⟩ := List.forall_mem_cons.1 hplain
    rw [collectRegions] at hcollect
    split at hcollect
    next r' log'' heq =>
      have hr' := walkAndCollectRegion_from hwalks hr heq
      rw [ih (r' :: done) hrest hcollect, hr']
      simp
    next hother _ => exact (hother (Prod.mk.inj hcollect).1).elim

end Collect

/-! ## The tables -/

section Tree

variable {env : Env} {pte : Nat → Nat} {r : Region}

theorem Region.Plain.collected (h : r.Plain) (pte : Nat → Nat) : (r.collectedFrom pte).Collected where
  aligned := ⟨h.aligned.1, h.aligned.2.1⟩
  nonempty := h.nonempty
  low := h.low.1
  count := (List.length_map ..).trans (List.length_range ..)
  pages pa hpa := by
    obtain ⟨k, -, rfl⟩ := List.mem_map.1 hpa
    exact ⟨frame_and_mask _, rfl⟩
  fresh := h.fresh.2

theorem Region.Plain.walkable (h : r.Plain) (pte : Nat → Nat) : (r.collectedFrom pte).Walkable where
  nonempty := h.nonempty
  bound := h.low.1.trans (by decide)
  flags := h.flags

/-- The frame of an address of the region is that of its source. -/
theorem Region.Plain.entryAt (h : r.Plain) (pte : Nat → Nat) {va : Nat} (h1 : r.start ≤ va) (h2 : va < r.end_) :
    (r.collectedFrom pte).entryAt (va / ptPageSize) = pageEntry (r.frameOf (pte ((r.src + (va - r.start)) / page))) r.flags false := by
  obtain ⟨hstart, hend, hsrc⟩ := h.aligned
  have hp : page = 4096 := rfl
  have hps : ptPageSize = 4096 := rfl
  rw [hp] at hstart hend hsrc
  have hk : va / ptPageSize - r.start / ptPageSize < (r.end_ - r.start) / page := by rw [hp, hps]; omega
  have hpage : r.src / page + (va / ptPageSize - r.start / ptPageSize) = (r.src + (va - r.start)) / page := by rw [hp, hps]; omega
  show pageEntry (List.getD _ (va / ptPageSize - r.start / ptPageSize) _) r.flags false = _
  rw [Region.collectedFrom, List.getD_eq_getElem _ _ (by simpa using hk), List.getElem_map, List.getElem_range, hpage]

/-- **The tree of a first commit** that returns 0: each page of a region has the
frame of its source, and no other page is mapped. -/
theorem commitEnclave_tree {commit : CommitMessage} {s s' : Site} (hwalks : Walks env pte)
    (hcommit : commitEnclave env commit s = (.ret 0, s')) (hpts : s.encl.pts = []) (hall : s.encl.allPages = [])
    (hplain : ∀ r ∈ s.encl.regions, r.Plain) (hdisjoint : s.encl.regions.Pairwise fun p q => p.end_ ≤ q.start ∨ q.end_ ≤ p.start)
    (hs : Supplied ((s'.encl.regions.flatMap (·.pas)).map (·.start)) s.log s'.log) :
    s'.encl.regions = s.encl.regions.map (Region.collectedFrom pte) ∧
      ∃ shape, Tree s'.mem s'.encl.cr3 shape (space (fun _ => 0) (s.encl.regions.map (Region.collectedFrom pte))) := by
  obtain ⟨regions, log, m, invoke, hcollect, hbuild, rfl⟩ := commitEnclave_returns hcommit
  obtain rfl : regions = s.encl.regions.map (Region.collectedFrom pte) := by
    simpa using collectRegions_from hwalks s.encl.regions [] hplain hcollect
  have hkeep := buildEnclaveCr3_regions env s.mem log { s.encl with regions := s.encl.regions.map (Region.collectedFrom pte) }
  rw [hbuild] at hkeep
  have hprepares := collectRegions_prepares env [] s.encl.regions s.log rfl
  rw [hcollect] at hprepares
  obtain ⟨collected, hlog, -⟩ := hprepares.calls
  dsimp only at hkeep hs hlog ⊢
  refine ⟨hkeep, ?_⟩
  rw [hkeep] at hs
  have hsupplied : Supplied (((s.encl.regions.map (Region.collectedFrom pte)).flatMap (·.pas)).map (·.start)) log m.extras.log := by
    refine hs.part ⟨collected, hlog.symm⟩ ?_
    exact (List.suffix_append ..).trans (List.suffix_cons ..)
  have hcollected : ∀ r ∈ s.encl.regions.map (Region.collectedFrom pte), r.Collected := by
    intro r hr
    obtain ⟨q, hq, rfl⟩ := List.mem_map.1 hr
    exact (hplain q hq).collected pte
  have hused : ∀ r ∈ s.encl.regions.map (Region.collectedFrom pte), ∀ pa ∈ r.pas,
      pa.start ∈ ((s.encl.regions.map (Region.collectedFrom pte)).flatMap (·.pas)).map (·.start) := fun r hr pa hpa =>
    List.mem_map_of_mem (List.mem_flatMap.2 ⟨r, hr, hpa⟩)
  -- The tables are built, so no frame was found twice.
  have hplaces := buildEnclaveCr3_places env s.mem log { s.encl with regions := s.encl.regions.map (Region.collectedFrom pte) }
    (hall ▸ merged_nil.canonical) (fun f _ _ => by simp [hall, Free])
    (fun r hr => ⟨by
      obtain ⟨q, hq, rfl⟩ := List.mem_map.1 hr
      exact (hplain q hq).walkable pte, fun pa hpa => ⟨(hcollected r hr).pages pa hpa, hused r hr pa hpa⟩⟩)
    (by rw [hbuild]; exact hsupplied) (by rw [hbuild])
  obtain ⟨-, -, -, -, -, hnodup⟩ := hplaces
  have hempty : ({ s.encl with regions := s.encl.regions.map (Region.collectedFrom pte) } : Encl).pts = [] := hpts
  have hlast : (buildEnclaveCr3 env s.mem log
      { s.encl with regions := s.encl.regions.map (Region.collectedFrom pte) }).2.extras.log <:+ m.extras.log :=
    ⟨[], by rw [hbuild, List.nil_append]⟩
  obtain ⟨f, m₁, hroot, rfl, hacc, htree⟩ := root_supplied hempty hall hsupplied hlast
  have hpages : (s.encl.regions.map (Region.collectedFrom pte)).Pairwise fun p q => ∀ n, ¬ (p.HasPage n ∧ q.HasPage n) := by
    have hmap : (s.encl.regions.map (Region.collectedFrom pte)).Pairwise fun p q => p.end_ ≤ q.start ∨ q.end_ ≤ p.start :=
      List.pairwise_map.2 hdisjoint
    refine hmap.imp_of_mem fun {p q} hp hq hpq n hn => ?_
    have hps : ptPageSize = 4096 := rfl
    have ha := (hcollected p hp).aligned
    have hb := (hcollected q hq).aligned
    obtain ⟨⟨h1, h2⟩, h3, h4⟩ := hn
    rw [hps] at *
    omega
  rw [hroot] at hbuild
  obtain ⟨shape, -, -, htree⟩ := buildRegions_maps env hcollected hpages hused (by simpa using hnodup) (fun _ _ _ _ => rfl)
    hsupplied hacc htree (by rw [hbuild]; exact Later.refl _)
  rw [hbuild] at htree
  exact ⟨shape, htree⟩

end Tree

/-! ## What the enclave finds -/

/-- The last thing a commit does that returns 0 is to seal the domain. -/
theorem commitEnclave_sealed {env : Env} {commit : CommitMessage} {s s' : Site} (hcommit : commitEnclave env commit s = (.ret 0, s')) :
    ∃ before, s'.log = .sealDomain s'.encl.tycheHandle s'.encl.cr3 commit.entry commit.stack (some s'.encl.invoke) ::
      (before ++ s.log) := by
  obtain ⟨regions, log, m, invoke, hcollect, hbuild, rfl⟩ := commitEnclave_returns hcommit
  have hprepares := collectRegions_prepares env [] s.encl.regions s.log rfl
  have hbuilds := buildEnclaveCr3_prepares env s.mem log { s.encl with regions := regions }
  rw [hcollect] at hprepares
  rw [hbuild] at hbuilds
  obtain ⟨collected, hlog, -⟩ := hprepares.calls
  obtain ⟨built, hlog', -⟩ := hbuilds.calls
  dsimp only at hlog hlog'
  refine ⟨transfers m.extras.enclave true m.extras.enclave.allPages ++ (built ++ collected), ?_⟩
  dsimp only
  rw [hlog', hlog]
  simp

/-- The processor finds at an address of the enclave the frame of an address of
the parent, with these permissions; it is the enclave's own as a page of this type. -/
structure FindsPage (mem : Nat → Nat → Nat) (e : Encl) (events : List Event) (pte : Nat → Nat) (va src flags tpe : Nat) (w : Nat) : Prop where
  walk : pageWalk mem ptPML4 e.cr3 va = some (ptPTE, w)
  frame : w &&& ptPhysPageMask = pte (src / page) &&& ptePfnMask
  permissions : w &&& permissionMask = translateFlags flags
  given : TransferredAs events e.tycheHandle (w &&& ptPhysPageMask) tpe

theorem FindsPage.later {mem : Nat → Nat → Nat} {e : Encl} {events : List Event} {pte : Nat → Nat} {va src flags tpe w : Nat}
    (h : FindsPage mem e events pte va src flags tpe w) (before : List Event) :
    FindsPage mem e (events ++ before) pte va src flags tpe w := by
  obtain ⟨start, end_, hmem, hcovers⟩ := h.given
  exact ⟨h.walk, h.frame, h.permissions, start, end_, List.mem_append_left _ hmem, hcovers⟩

/-- **What an enclave finds** after a first commit that returns 0: at the
addresses of its regions, their sources; nothing elsewhere. -/
theorem commitEnclave_contents {env : Env} {pte : Nat → Nat} {commit : CommitMessage} {s s' : Site} (hwalks : Walks env pte)
    (hcommit : commitEnclave env commit s = (.ret 0, s')) (hpts : s.encl.pts = []) (hall : s.encl.allPages = [])
    (hplain : ∀ r ∈ s.encl.regions, r.Plain) (hdisjoint : s.encl.regions.Pairwise fun p q => p.end_ ≤ q.start ∨ q.end_ ≤ p.start)
    (hs : Supplied ((s'.encl.regions.flatMap (·.pas)).map (·.start)) s.log s'.log) :
    ∃ events, s'.log = events ++ s.log ∧
      (∀ r ∈ s.encl.regions, ∀ va, r.start ≤ va → va < r.end_ → ∃ w,
        FindsPage s'.mem s'.encl events pte va (r.src + (va - r.start)) r.flags r.tpe w) ∧
      (∀ va < 2 ^ 48, (∀ r ∈ s.encl.regions, ¬ (r.start ≤ va ∧ va < r.end_)) → pageWalk s'.mem ptPML4 s'.encl.cr3 va = none) ∧
      .sealDomain s'.encl.tycheHandle s'.encl.cr3 commit.entry commit.stack (some s'.encl.invoke) ∈ events ∧
      HandedOver s'.mem s'.encl events := by
  obtain ⟨hregions, shape, htree⟩ := commitEnclave_tree hwalks hcommit hpts hall hplain hdisjoint hs
  have hcollected : ∀ r ∈ s'.encl.regions, r.Walkable ∧ ∀ pa ∈ r.pas, pa.Page ∧ pa.tpe = r.tpe := by
    rw [hregions]
    intro r hr
    obtain ⟨q, hq, rfl⟩ := List.mem_map.1 hr
    refine ⟨(hplain q hq).walkable pte, fun pa hpa => ⟨((hplain q hq).collected pte).pages pa hpa, ?_⟩⟩
    obtain ⟨k, -, rfl⟩ := List.mem_map.1 hpa
    rfl
  obtain ⟨events, hlog, hover⟩ := commitEnclave_handedOver hcommit hpts hall hcollected hs
  have hps : ptPageSize = 4096 := rfl
  have hp : page = 4096 := rfl
  have hdisjointPages : (s.encl.regions.map (Region.collectedFrom pte)).Pairwise fun p q => ∀ n, ¬ (p.HasPage n ∧ q.HasPage n) := by
    refine List.pairwise_map.2 (hdisjoint.imp_of_mem fun {p q} hp hq hpq n hn => ?_)
    have ha := (hplain p hp).aligned
    have hb := (hplain q hq).aligned
    obtain ⟨⟨h1, h2⟩, h3, h4⟩ := hn
    dsimp only [Region.collectedFrom] at h1 h2 h3 h4
    rw [hps] at *
    omega
  refine ⟨events, hlog, fun r hr va h1 h2 => ?_, fun va hva hnone => ?_, ?_, hover⟩
  · have hr' := hplain r hr
    have hlow := hr'.low.1
    have hva : va < 2 ^ 48 := by omega
    have hmine : (r.collectedFrom pte).HasPage (va / ptPageSize) := (hr'.collected pte).hasPage.2 ⟨h1, h2⟩
    have hspace : space (fun _ => 0) (s.encl.regions.map (Region.collectedFrom pte)) (va / ptPageSize) =
        pageEntry (r.frameOf (pte ((r.src + (va - r.start)) / page))) r.flags false := by
      rw [space_of_mem hdisjointPages (List.mem_map_of_mem hr) hmine, hr'.entryAt pte h1 h2]
    have hframe : (r.frameOf (pte ((r.src + (va - r.start)) / page))).Page := ⟨frame_and_mask _, rfl⟩
    have hwalk : pageWalk s'.mem ptPML4 s'.encl.cr3 va =
        some (ptPTE, pageEntry (r.frameOf (pte ((r.src + (va - r.start)) / page))) r.flags false) := by
      rw [htree.pageWalk_eq hva, hspace, if_pos ((pageEntry_present hframe).2 hr'.flags)]
    refine ⟨_, hwalk, pageEntry_address hframe _, pageEntry_permissions hframe _, ?_⟩
    -- The region that was given with the frame is this one.
    obtain ⟨-, _, hmem, ⟨k, hstart, hk, hmod⟩, -, hgiven⟩ := hover.leaves va hva _ _ hwalk
    rw [hregions] at hmem
    obtain ⟨q, hq, rfl⟩ := List.mem_map.1 hmem
    have hq' := hplain q hq
    have hsame : q = r := by
      by_contra hne
      have : Std.Symm fun p q : Region => p.end_ ≤ q.start ∨ q.end_ ≤ p.start := ⟨fun _ _ h => h.symm⟩
      have hapart : q.end_ ≤ r.start ∨ r.end_ ≤ q.start := hdisjoint.forall hq hr hne
      have hqlow := hq'.low.1
      obtain ⟨hqstart, hqend, -⟩ := hq'.aligned
      rw [lt_pagesBelow] at hk
      dsimp only [Region.collectedFrom] at hstart hk
      rw [hps] at hstart hk hmod
      rw [hp] at hqstart hqend
      omega
    subst hsame
    exact hgiven
  · have hspace : space (fun _ => 0) (s.encl.regions.map (Region.collectedFrom pte)) (va / ptPageSize) = 0 := by
      refine space_of_none fun q hq hqn => ?_
      obtain ⟨r, hr, rfl⟩ := List.mem_map.1 hq
      exact hnone r hr (((hplain r hr).collected pte).hasPage.1 hqn)
    rw [htree.pageWalk_eq hva, hspace, if_neg not_present_zero]
  · obtain ⟨before, hseal⟩ := commitEnclave_sealed hcommit
    rw [hlog, ← List.cons_append] at hseal
    rw [List.append_cancel_right hseal]
    exact List.mem_cons_self ..

/-- The walk of a process with these entries. -/
def walkOf (pte : Nat → Nat) (start end_ : Nat) : List Report :=
  (List.range' (start / page) ((end_ - start) / page)).map fun n => .pteEntry (n * page) (pte n)

theorem walks_walkOf (env : Env) (pte : Nat → Nat) : Walks { env with walkPageRange := fun _ => walkOf pte } pte where
  reported _ start end_ hstart hend hle := by
    have hp : page = 4096 := rfl
    have hwalk : ∀ count n, Reported ((n + count) * page) (n * page)
        ((List.range' n count).map fun n => .pteEntry (n * page) (pte n)) := by
      intro count
      induction count with
      | zero => exact fun n => .done
      | succ count ih =>
        intro n
        have hrest := ih (n + 1)
        rw [Nat.add_assoc, Nat.add_comm 1, Nat.succ_mul] at hrest
        exact .pteEntry (pte n) hrest
    have hreported := hwalk ((end_ - start) / page) (start / page)
    rw [hp] at hstart hend hreported
    rwa [show (start / 4096 + (end_ - start) / 4096) * 4096 = end_ by omega, show start / 4096 * 4096 = start by omega] at hreported
  small _ start end_ h := by simp [walkOf] at h
  entries _ start end_ addr e h := by
    obtain ⟨n, -, heq⟩ := List.mem_map.1 h
    cases heq
    rw [Nat.mul_div_cancel _ (by decide)]

end Tyche.Enclave
