/-
What a commit writes to (`build_enclave_cr3`, `commit_enclave`): while tables
are built, each is in a frame that was obtained for it, and no other frame is
written to.

It depends on the allocations: where one fails, a table is written at frame 0,
and wherever the words there lead.
-/
import Tyche.Enclave.Shortage
import Tyche.Pts.Rights

namespace Tyche.Enclave

open Tyche.Pts Tyche.Radix
open Tyche.Capa (ptEntry)

/-- Every page that was handed out is a frame, other than that of address 0,
and was free. -/
def HandsOutFrames (log : List Event) : Prop := ∀ f l, (.allocPages (some f) :: l) <:+ log → f ≠ 0 ∧ Frame f ∧ held f l = false

/-! ## What is written while tables are built -/

/-- The frame was obtained since `old`. -/
def Obtained (old log : List Event) (f : Nat) : Prop := ∃ l, (.allocPages (some f) :: l) <:+ log ∧ old <:+ l

/-- The tables that are reached were obtained since `old`, and everything else
is as it was. The tables above those of the leaves grant everything. -/
structure Apart (old : List Event) (base mem : Nat → Nat → Nat) (info : MapInfo) : Prop where
  fresh : ∀ {l q t}, layout.Reach mem info.enclave.cr3 l q t → Obtained old info.log t
  spared : ∀ f, ¬ Obtained old info.log f → mem f = base f
  passes : Passes mem info.enclave.cr3

section Building

variable {old : List Event} {base : Nat → Nat → Nat} {m m' : Machine MapInfo} {env : Env} {r : Region} {final : MapInfo}
  {f l t i : Nat}

/-- What was held still is, if nothing was given back. -/
theorem held_of_suffix {events : List Event} (hnone : ∀ ev ∈ events, ev.shortage = false) (h : held f old = true) :
    held f (events ++ old) = true := by
  induction events with
  | nil => exact h
  | cons ev events ih =>
    obtain ⟨hev, hrest⟩ := List.forall_mem_cons.1 hnone
    have hheld := ih hrest
    cases ev with
    | allocPages ans => cases ans <;> simp [held, hheld]
    | freePages g => cases hev
    | _ => exact hheld

theorem shortage_of_suffix {log final : List Event} (h : Shortage old log) (hlater : log <:+ final) : Shortage old final := by
  obtain ⟨events, rfl, ev, hev, hfails⟩ := h
  obtain ⟨more, rfl⟩ := hlater
  exact ⟨more ++ events, (List.append_assoc ..).symm, ev, List.mem_append_right _ hev, hfails⟩

theorem Obtained.later {log log' : List Event} (h : Obtained old log f) (hlater : log <:+ log') : Obtained old log' f := by
  obtain ⟨l, hl, hold⟩ := h
  exact ⟨l, hl.trans hlater, hold⟩

theorem Obtained.earlier {log old' : List Event} (h : Obtained old log f) (hbefore : old' <:+ old) : Obtained old' log f := by
  obtain ⟨l, hl, hold⟩ := h
  exact ⟨l, hl, hbefore.trans hold⟩

/-- A frame that was obtained was not held before, if nothing was given back. -/
theorem Obtained.unheld {log : List Event} (h : Obtained old log f) (hfree : HandsOutFree old log) (hnone : ¬ Shortage old log) :
    held f old = false := by
  obtain ⟨l, ⟨later, rfl⟩, before, rfl⟩ := h
  have hquiet : ∀ ev ∈ later ++ .allocPages (some f) :: before, ev.shortage = false := fun ev hev => by
    by_contra hfails
    exact hnone ⟨later ++ .allocPages (some f) :: before, by simp, ev, hev, by simpa using hfails⟩
  have halign : Event.shortage (.allocPages (some f)) = false := hquiet _ (by simp)
  obtain ⟨-, -, hheld⟩ := hfree f (before ++ old) ⟨later, rfl⟩ (List.suffix_append ..) (by simpa [Event.shortage] using halign)
  by_contra hold
  rw [held_of_suffix (fun ev hev => hquiet ev (by simp [hev])) (by simpa using hold)] at hheld
  cases hheld

/-- A pointer to a new table is written: nothing else is reached, or changed. -/
theorem Apart.link (ha : Apart old base m.mem m.extras) (h : SoundIn old r m.mem m.extras)
    (ht : ReachedAt m.mem m.extras (l + 1) t) (hi : i < 512) (hp : ¬ Present (m.mem t i)) (hframe : Frame f)
    (hunreached : ∀ l q, ¬ layout.Reach m.mem m.extras.enclave.cr3 l q f) {pts allPages : List PaRegion}
    (hm' : m' = (allocated f pts allPages [.kmalloc true, .kmalloc true, .allocPages (some f)] m).store t i (f ||| tableFlags)) :
    Apart old base m'.mem m'.extras := by
  obtain ⟨q, ht⟩ := ht
  have hlater : m.extras.log <:+ m'.extras.log := by
    rw [hm']
    exact List.suffix_append ..
  have hobtained : Obtained old m'.extras.log f := by
    obtain ⟨events, hevents, -⟩ := h.log
    rw [hm']
    exact ⟨m.extras.log, ⟨[.kmalloc true, .kmalloc true], rfl⟩, events, hevents.symm⟩
  have htf : t ≠ f := fun heq => hunreached _ _ (heq ▸ ht)
  have hword : m'.mem t i = f ||| tableFlags := by simp [hm', Machine.store]
  have hlink : layout.child (m'.mem t i) = some f := by
    rw [layout_child (by rw [hword]; exact hframe.present.2 (by decide)), hword]
    exact congrArg some (hframe.next (by decide) 0)
  have hempty : ∀ j < layout.fanout, layout.child (m'.mem f j) = none := by
    intro j _
    have hzero : m'.mem f j = 0 := by simp [hm', Machine.store, allocated, Machine.clear, htf.symm]
    rw [hzero]
    exact layout_child_none.2 not_present_zero
  have hwrites : layout.WritesOnly m.mem m.extras.enclave.cr3 t i m'.mem := by
    intro l' q' t' j ht' hslot
    have hne : t' ≠ f := fun heq => hunreached _ _ (heq ▸ ht')
    have hslot : ¬ (t' = t ∧ j = i) := fun heq => hslot heq.1 heq.2
    simp [hm', Machine.store, allocated, Machine.clear, hne, hslot]
  have hreach : ∀ {l' q' t'}, layout.Reach m'.mem m'.extras.enclave.cr3 l' q' t' →
      layout.Reach m.mem m.extras.enclave.cr3 l' q' t' ∨ t' = f := by
    intro l' q' t' ht'
    have ht' : layout.Reach m'.mem m.extras.enclave.cr3 l' q' t' := by
      rw [hm'] at ht' ⊢
      exact ht'
    exact ((h.unshared.reach_grow ht hi (layout_child_none.2 hp) hunreached hlink hempty hwrites).1 ht').imp_right And.left
  refine ⟨fun {l' q' t'} ht' => ?_, ?_, fun {l' q' t' j} ht' hj hp' => ?_⟩
  · rcases hreach ht' with hold | rfl
    · exact (ha.fresh hold).later hlater
    · exact hobtained
  · intro g hg
    have hgf : g ≠ f := by
      rintro rfl
      exact hg hobtained
    have hgt : g ≠ t := by
      rintro rfl
      exact hg ((ha.fresh ht).later hlater)
    rw [← ha.spared g fun h' => hg (h'.later hlater)]
    funext j
    simp [hm', Machine.store, allocated, Machine.clear, hgf, hgt]
  · rcases hreach ht' with hold | rfl
    · by_cases hslot : t' = t ∧ j = i
      · rw [hslot.1, hslot.2, hword, hframe.entryRights]
        decide
      · have hsame := hwrites _ _ _ j hold fun h1 h2 => hslot ⟨h1, h2⟩
        rw [hsame] at hp' ⊢
        exact ha.passes hold hj hp'
    · exact absurd hp' (layout_child_none.1 (hempty j hj))

/-- A leaf is written. -/
theorem Apart.write (ha : Apart old base m.mem m.extras) (h : SoundIn old r m.mem m.extras)
    (ht : ReachedAt m.mem m.extras 0 t) (i w : Nat) (rest : List PaRegion) :
    Apart old base (m.store t i w).mem { m.extras with paRegion := rest } := by
  obtain ⟨q, ht⟩ := ht
  have hwrites : layout.WritesOnly m.mem m.extras.enclave.cr3 t i (m.store t i w).mem := by
    intro l' q' t' j _ hslot
    have hslot : ¬ (t' = t ∧ j = i) := fun heq => hslot heq.1 heq.2
    simp [Machine.store, hslot]
  refine ⟨fun ht' => ha.fresh ((h.unshared.reach_write ht hwrites).1 ht'), fun g hg => ?_, fun {l' q' t' j} ht' hj hp' => ?_⟩
  · have hgt : g ≠ t := by
      rintro rfl
      exact hg (ha.fresh ht)
    rw [← ha.spared g hg]
    funext j
    simp [Machine.store, hgt]
  · have hold := (h.unshared.reach_write ht hwrites).1 ht'
    -- The table of leaves is not reached above.
    have hslot : ¬ t' = t := by
      rintro rfl
      cases (h.unshared _ _ _ _ _ hold ht).1
    have hsame := hwrites _ _ _ j hold fun h1 => absurd h1 hslot
    rw [hsame] at hp' ⊢
    exact ha.passes hold hj hp'

/-- **At an entry** the mapper writes to the tables that are reached, and to a new one. -/
theorem Apart.handleEntry (ha : Apart old base m.mem m.extras) (h : SoundIn old r m.mem m.extras)
    (hfree : HandsOutFree old final.log) (hnone : ¬ Shortage old final.log) (ht : ReachedAt m.mem m.extras l t) (hi : i < 512)
    {o : Outcome Verdict} (heq : (mapperProfile env).handleEntry t i l m = (o, m')) (hlater : Later m'.extras final) :
    Apart old base m'.mem m'.extras := by
  rcases handleEntry_cases env (t := t) (i := i) (l := l) h.region h.pages ht.level_le with
    ⟨-, heq'⟩ | ⟨hp, ⟨o', heq', -⟩ | ⟨pa, rest, rfl, -, heq'⟩ | ⟨k, rfl, heq'⟩⟩ <;>
    obtain ⟨-, hm'⟩ := Prod.mk.inj (heq.symm.trans heq')
  · rwa [hm']
  · rwa [hm']
  · rw [hm']
    exact ha.write h ht i _ rest
  · have hlog : (Enclave.allocate env m).2.extras.log <:+ final.log := by
      rw [hm'] at hlater
      exact hlater.log
    rcases h.toSound.allocate hfree hlog with ⟨m₁, heq₁, hshort, -⟩ | ⟨f, allPages, heq₁, -, hframe, hunreached⟩
    · rw [heq₁] at hlog
      exact absurd (shortage_of_suffix hshort hlog) hnone
    · have hflags : (allocated f (m.extras.enclave.pts ++ [⟨f, add64 f ptPageSize, ptEntry⟩]) allPages
          [.kmalloc true, .kmalloc true, .allocPages (some f)] m).extras.intermedFlags = tableFlags := h.flags
      rw [heq₁, hflags] at hm'
      exact ha.link h ht hi hp hframe hunreached hm'

/-- **The mapper spares what it did not obtain**, while its tables are sound. -/
theorem mapper_spares (env : Env) (r : Region) (base : Nat → Nat → Nat) (hfree : HandsOutFree old final.log)
    (hnone : ¬ Shortage old final.log) : (mapperProfile env).Guards (fun m => Later m.extras final)
      (fun mem info => SoundIn old r mem info ∧ Apart old base mem info) ReachedAt where
  step := by
    rintro l t i m m' va v ⟨h, ha⟩ ht hi heq hv hlater
    have hpass : Passable old final m' := ⟨hlater, .inl fun hshort => hnone (shortage_of_suffix hshort hlater.log)⟩
    have hkept := (mapper_guards env r hfree).step h ht hi heq hv hpass
    exact ⟨⟨hkept.good, Apart.handleEntry (m := { m with currVa := va }) ha h hfree hnone ht hi heq hlater⟩, hkept.tables⟩
  below := by
    rintro l t i m m' va ⟨h, -⟩ ht hi heq hlater
    exact (mapper_guards env r hfree).below h ht hi heq
      ⟨hlater, .inl fun hshort => hnone (shortage_of_suffix hshort hlater.log)⟩
  stop := by
    rintro l t i m m' va o ⟨h, ha⟩ ht hi heq hnext hdescend
    rcases SoundIn.handleEntry (m := { m with currVa := va }) h hfree ht hi heq with ⟨ho, -⟩ | ⟨-, -, rfl⟩
    · exact absurd ho hdescend
    · exact ⟨⟨h, ha⟩, fun hat => hat⟩

/-- A region is mapped. -/
theorem Apart.mapRegion (ha : Apart old base m.mem m.extras) (h : Sound old m.mem m.extras) (hpas : ∀ pa ∈ r.pas, pa.Page)
    (hfree : HandsOutFree old final.log) (hnone : ¬ Shortage old final.log) (hlater : Later (mapRegion env r m).2.extras final) :
    Sound old (mapRegion env r m).2.mem (mapRegion env r m).2.extras ∧
      Apart old base (mapRegion env r m).2.mem (mapRegion env r m).2.extras := by
  have hstart : SoundIn old r m.mem (m.extras.setRegion r) := ⟨⟨h.unshared, h.tables, h.nonzero, h.log⟩, rfl, rfl, hpas⟩
  have hmet : (mapperProfile env).AllMet (fun x => Later x.extras final) ptPML4 m.extras.enclave.cr3 r.start r.end_
      { m with extras := m.extras.setRegion r } := fun hmeets =>
    ((mapperProfile_advances env).meets hmeets).trans hlater
  have hkept := (mapper_spares env r base hfree hnone).ptWalkPageRange hmet ⟨hstart, ha.fresh, ha.spared, ha.passes⟩ ⟨0, .root⟩
  exact ⟨hkept.good.1.toSound, hkept.good.2⟩

/-- Merging touches no table. -/
theorem Apart.mergePas (ha : Apart old base m.mem m.extras) (pas : List PaRegion) :
    Apart old base (Enclave.mergePas env pas m).2.mem (Enclave.mergePas env pas m).2.extras := by
  have hlater := mergePas_later env pas m
  have hcr3 : (Enclave.mergePas env pas m).2.extras.enclave.cr3 = m.extras.enclave.cr3 := by rw [hlater.enclave]
  refine ⟨fun {l q t} ht => ?_, fun g hg => ?_, ?_⟩
  · rw [mergePas_mem, hcr3] at ht
    exact (ha.fresh ht).later hlater.log
  · rw [mergePas_mem]
    exact ha.spared g fun h => hg (h.later hlater.log)
  · rw [mergePas_mem, hcr3]
    exact ha.passes

/-- **The regions are mapped** to tables that are obtained. -/
theorem Apart.buildRegions {regions : List Region} (hpas : ∀ r ∈ regions, ∀ pa ∈ r.pas, pa.Page)
    (hfree : HandsOutFree old final.log) (hnone : ¬ Shortage old final.log) : ∀ {m : Machine MapInfo},
      Apart old base m.mem m.extras → Sound old m.mem m.extras → Later (buildRegions env regions m).2.extras final →
      Sound old (buildRegions env regions m).2.mem (buildRegions env regions m).2.extras ∧
        Apart old base (buildRegions env regions m).2.mem (buildRegions env regions m).2.extras := by
  induction regions with
  | nil => exact fun ha h _ => ⟨h, ha⟩
  | cons r regions ih =>
    intro m ha h hlater
    have hmapped := ha.mapRegion h (hpas r (List.mem_cons_self ..)) hfree hnone
      ((mapRegion_buildRegions_later env r regions m).trans hlater)
    rcases buildRegions_cons env r regions m with ⟨o, m', hmap, -, -, heq⟩ |
      ⟨m', hmap, ⟨-, -, heq⟩ | ⟨-, ret, m'', hmerge, hcase⟩⟩
    · rw [heq]
      rwa [hmap] at hmapped
    · rw [heq]
      rwa [hmap] at hmapped
    · rw [hmap] at hmapped
      have hmerged : Sound old (Enclave.mergePas env r.pas m').2.mem (Enclave.mergePas env r.pas m').2.extras ∧
          Apart old base (Enclave.mergePas env r.pas m').2.mem (Enclave.mergePas env r.pas m').2.extras :=
        ⟨hmapped.1.mergePas r.pas, hmapped.2.mergePas r.pas⟩
      rw [hmerge] at hmerged
      rcases hcase with ⟨-, heq⟩ | ⟨-, heq⟩
      · rwa [heq]
      · rw [heq] at hlater ⊢
        exact ih (fun q hq => hpas q (List.mem_cons_of_mem _ hq)) hmerged.2 hmerged.1 hlater

end Building

/-- **The tables of an enclave** are built in frames that are obtained, and no
other frame is written to. -/
theorem buildEnclaveCr3_spares {env : Env} {mem : Nat → Nat → Nat} {log : List Event} {encl : Encl}
    (hpas : ∀ r ∈ encl.regions, ∀ pa ∈ r.pas, pa.Page) (hpts : ∀ pa ∈ encl.pts, pa.start ≠ 0)
    (hfree : HandsOutFree log (buildEnclaveCr3 env mem log encl).2.extras.log)
    (hnone : ¬ Shortage log (buildEnclaveCr3 env mem log encl).2.extras.log) :
    Sound log (buildEnclaveCr3 env mem log encl).2.mem (buildEnclaveCr3 env mem log encl).2.extras ∧
      Apart log mem (buildEnclaveCr3 env mem log encl).2.mem (buildEnclaveCr3 env mem log encl).2.extras := by
  obtain ⟨hroot, hsound⟩ := (started_cases hpts hfree).resolve_left fun h => hnone h.2
  refine Apart.buildRegions (m := started env mem log encl) hpas hfree hnone ?_ hsound (Later.refl _)
  -- The root is a frame that was obtained, and is empty.
  have hsuffix := allocate_building_log env mem log encl
  unfold started
  rcases allocate_cases env (building mem log encl) with ⟨ans, heq, -⟩ | ⟨page, ks, allPages, heq, -⟩ |
    ⟨f, allPages, heq, halign, -⟩
  · exact absurd (by rw [heq]) hroot
  · exact absurd (by rw [heq]) hroot
  · rw [heq] at hsuffix ⊢
    have hobtained : Obtained log (.kmalloc true :: .kmalloc true :: .allocPages (some f) :: log) f :=
      ⟨log, ⟨[.kmalloc true, .kmalloc true], rfl⟩, List.suffix_rfl⟩
    have hempty : ∀ i < layout.fanout, layout.child ((allocated f (encl.pts ++ [⟨f, add64 f ptPageSize, ptEntry⟩]) allPages
        [.kmalloc true, .kmalloc true, .allocPages (some f)] (building mem log encl)).mem f i) = none := by
      intro i _
      have hzero : ((building mem log encl).clear f).mem f i = 0 := by simp [Machine.clear]
      exact layout_child_none.2 (hzero ▸ not_present_zero)
    refine ⟨fun {l q t} ht => ?_, fun g hg => ?_, fun {l q t i} ht hi hp => ?_⟩
    · obtain ⟨-, -, rfl⟩ := ht.of_empty hempty
      exact hobtained
    · have hgf : g ≠ f := by
        rintro rfl
        exact hg hobtained
      funext j
      simp [rooted, onEnclave, allocated, building, Machine.clear, hgf]
    · obtain ⟨-, -, rfl⟩ := ht.of_empty hempty
      exact absurd hp (layout_child_none.1 (hempty i hi))

/-! ## A commit -/

/-- The physical pages of the regions are pages. -/
def Encl.PasPages (e : Encl) : Prop := ∀ r ∈ e.regions, ∀ pa ∈ r.pas, pa.Page

section Commit

variable {env : Env} {x y : Encl × List Event}

theorem Preparation.pasPages (h : Preparation x y) (hx : x.1.PasPages) : y.1.PasPages := by
  cases h with
  | collect e log before after r f hregions hf =>
    intro q hq pa hpa
    have hold : ∀ q ∈ before ++ r :: after, ∀ pa ∈ q.pas, pa.Page := hregions ▸ hx
    rcases List.mem_append.1 hq with hq | hq
    · exact hold q (List.mem_append_left _ hq) pa hpa
    rcases List.mem_cons.1 hq with rfl | hq
    · rcases List.mem_append.1 hpa with hpa | hpa
      · exact hold r (List.mem_append_right _ (List.mem_cons_self ..)) pa hpa
      · obtain rfl := List.mem_singleton.1 hpa
        exact ⟨hf, rfl⟩
    · exact hold q (List.mem_append_right _ (List.mem_cons_of_mem _ hq)) pa hpa
  | _ => exact hx

theorem Preparations.pasPages (h : Preparations x y) (hx : x.1.PasPages) : y.1.PasPages := by
  induction h with
  | refl => exact hx
  | tail _ hstep ih => exact hstep.pasPages ih

theorem Effects.pasPages (h : Effects x y) (hx : x.1.PasPages) : y.1.PasPages := by
  induction h with
  | refl => exact hx
  | tail _ hstep ih =>
    cases hstep with
    | prepare hstep => exact hstep.pasPages ih
    | transfer e log pa ok hpa => exact ih
    | sealing e log stack entry invoke => exact ih

theorem commitEnclave_pasPages (env : Env) (commit : CommitMessage) {s : Site} (hs : s.encl.PasPages) :
    (commitEnclave env commit s).2.encl.PasPages := by
  obtain ⟨mem, e, log, heff, ⟨o, -, heq⟩ | heq⟩ := commitEnclave_effects env commit s
  · rw [heq]
    exact heff.pasPages hs
  · have he : e.PasPages := heff.pasPages hs
    rw [heq]
    unfold commitFailure
    split
    · exact he
    · intro r hr
      obtain ⟨q, hq, rfl⟩ := List.mem_map.1 hr
      exact he q hq

/-- Behind the tables, a commit writes to none, and only adds to the log. -/
theorem commitStops_after (o : Outcome Int) (s : Site) : (commitStops o s).2.mem = s.mem ∧ s.log <:+ (commitStops o s).2.log := by
  cases o with
  | ret v =>
    obtain ⟨frees, hlog, -⟩ := commitFailure_log s
    refine ⟨?_, frees, hlog.symm⟩
    show (commitFailure s).2.mem = s.mem
    unfold commitFailure
    split <;> rfl
  | fault | freed => exact ⟨rfl, List.suffix_rfl⟩

theorem commitTransfers_after (env : Env) (commit : CommitMessage) (s : Site) :
    (commitTransfers env commit s).2.mem = s.mem ∧ s.log <:+ (commitTransfers env commit s).2.log := by
  have hfailed : ∀ log e, s.log <:+ log →
      (commitFailure ⟨s.mem, log, e⟩).2.mem = s.mem ∧ s.log <:+ (commitFailure ⟨s.mem, log, e⟩).2.log := fun log e hlog => by
    obtain ⟨hmem, hafter⟩ := commitStops_after (.ret 0) ⟨s.mem, log, e⟩
    exact ⟨hmem, hlog.trans hafter⟩
  obtain ⟨ret, log, ht, hcase⟩ := commitTransfers_cases env commit s
  have hlog : s.log <:+ log := by
    obtain ⟨events, hevents, -⟩ := (transferPages_effects env s.encl s.log).calls
    rw [ht] at hevents
    exact ⟨events, hevents.symm⟩
  rcases hcase with ⟨-, heq⟩ | ⟨invoke, ⟨-, heq⟩ | ⟨handle, -, heq⟩⟩ <;> rw [heq]
  · exact hfailed _ _ hlog
  · exact hfailed _ _ (hlog.trans (List.suffix_cons ..))
  · exact ⟨rfl, hlog.trans (List.suffix_cons ..)⟩

/-- The log grew, but no frame was obtained or returned. -/
def SameFrames (log log' : List Event) : Prop := ∃ events, log' = events ++ log ∧ ∀ ev ∈ events, ev.frameless = true

theorem SameFrames.refl (log : List Event) : SameFrames log log := ⟨[], rfl, by simp⟩

theorem SameFrames.suffix {log log' : List Event} (h : SameFrames log log') : log <:+ log' := by
  obtain ⟨events, rfl, -⟩ := h
  exact List.suffix_append ..

theorem SameFrames.cons {log log' : List Event} (h : SameFrames log log') {ev : Event} (hev : ev.frameless = true) :
    SameFrames log (ev :: log') := by
  obtain ⟨events, rfl, hframeless⟩ := h
  exact ⟨ev :: events, rfl, List.forall_mem_cons.2 ⟨hev, hframeless⟩⟩

theorem SameFrames.trans {log log' log'' : List Event} (h : SameFrames log log') (h' : SameFrames log' log'') :
    SameFrames log log'' := by
  obtain ⟨events, rfl, hframeless⟩ := h
  obtain ⟨events', rfl, hframeless'⟩ := h'
  refine ⟨events' ++ events, (List.append_assoc ..).symm, fun ev hev => ?_⟩
  exact (List.mem_append.1 hev).elim (hframeless' ev) (hframeless ev)

theorem SameFrames.held {log log' : List Event} (h : SameFrames log log') (f : Nat) : held f log' = held f log := by
  obtain ⟨events, rfl, hframeless⟩ := h
  exact held_frameless hframeless

variable (env) in
theorem pteEntry_frames (addr pte : Nat) (r : Region) (log : List Event) : SameFrames log (pteEntry env addr pte r log).2.2 := by
  have hmalloc : SameFrames log (.kmalloc (env.kmalloc log) :: log) := (SameFrames.refl log).cons rfl
  unfold pteEntry
  split
  · exact .refl log
  split
  · exact .refl log
  dsimp only
  split
  · exact hmalloc
  split
  · exact hmalloc.cons rfl
  · exact hmalloc

variable (env) in
theorem runReports_frames (reports : List Report) (r : Region) (log : List Event) :
    SameFrames log (runReports env reports r log).2.2 := by
  induction reports generalizing r log with
  | nil => exact .refl log
  | cons report reports ih =>
    cases report with
    | pteEntry addr pte =>
      have hentry := pteEntry_frames env addr pte r log
      rw [runReports]
      split
      next r' log' heq =>
        rw [heq] at hentry
        exact hentry.trans (ih r' log')
      · exact hentry
    | hugetlbEntry => exact ih r log
    | pteHole => exact .refl log

variable (env) in
/-- While the pages are collected, no frame is obtained or returned. -/
theorem collectRegions_frames (done rest : List Region) (log : List Event) :
    SameFrames log (collectRegions env done rest log).2.2 := by
  induction rest generalizing done log with
  | nil => exact .refl log
  | cons r rest ih =>
    have hwalk : SameFrames log (walkAndCollectRegion env r log).2.2 := by
      have hreports := runReports_frames env (env.walkPageRange log r.src (add64 r.src (sub64 r.end_ r.start))) r log
      unfold walkAndCollectRegion
      dsimp only
      split
      next heq =>
        rw [heq] at hreports
        exact hreports
      · exact hreports
    rw [collectRegions]
    split
    next r' log' heq =>
      rw [heq] at hwalk
      exact hwalk.trans (ih (r' :: done) log')
    next heq =>
      rw [heq] at hwalk
      exact hwalk

/-- **A commit writes to tables** only while it builds them. -/
theorem commitEnclave_writes (env : Env) (commit : CommitMessage) (s : Site) :
    (commitEnclave env commit s).2.mem = s.mem ∧ (commitEnclave env commit s).1 ≠ .ret 0 ∨
    ∃ regions log, collectRegions env [] s.encl.regions s.log = (.ret 0, regions, log) ∧
      let m := (buildEnclaveCr3 env s.mem log { s.encl with regions := regions }).2
      (commitEnclave env commit s).2.mem = m.mem ∧ m.extras.log <:+ (commitEnclave env commit s).2.log ∧
        ((commitEnclave env commit s).1 = .ret 0 → (commitEnclave env commit s).2.encl.cr3 = m.extras.enclave.cr3) := by
  obtain ⟨o, regions, log, hc, ⟨-, heq⟩ | ⟨rfl, o', m, hb, hcase⟩⟩ := commitEnclave_cases env commit s
  · rw [heq]
    exact .inl ⟨(commitStops_after o _).1, commitStops_ne o _⟩
  refine .inr ⟨regions, log, hc, ?_⟩
  rw [hb]
  rcases hcase with ⟨-, heq⟩ | ⟨-, heq⟩
  · rw [heq]
    obtain ⟨hmem, hlog⟩ := commitStops_after o' ⟨m.mem, m.extras.log, m.extras.enclave⟩
    exact ⟨hmem, hlog, fun hret => absurd hret (commitStops_ne o' _)⟩
  · obtain ⟨hmem, hlog⟩ := commitTransfers_after env commit ⟨m.mem, m.extras.log, m.extras.enclave⟩
    rw [heq]
    refine ⟨hmem, hlog, fun hret => ?_⟩
    have hcommit : commitEnclave env commit s = (.ret 0, (commitEnclave env commit s).2) := by rw [← hret, ← heq]
    obtain ⟨regions', log', m', invoke, hc', hb', hs'⟩ := commitEnclave_returns hcommit
    rw [hc] at hc'
    obtain ⟨-, rfl, rfl⟩ : _ ∧ _ ∧ _ := by simpa only [Prod.mk.injEq] using hc'
    rw [hb] at hb'
    obtain ⟨-, rfl⟩ := Prod.mk.inj hb'
    rw [← heq, hs']

section Built

variable (commit : CommitMessage) (s : Site) (hpas : s.encl.PasPages) (hpts : ∀ pa ∈ s.encl.pts, pa.start ≠ 0)
  (hframes : HandsOutFrames (commitEnclave env commit s).2.log)
  (hnone : ∀ regions log, collectRegions env [] s.encl.regions s.log = (.ret 0, regions, log) →
    ¬ Shortage log (buildEnclaveCr3 env s.mem log { s.encl with regions := regions }).2.extras.log)

include hpas hpts hframes hnone

variable (env) in
/-- A commit that is out of the way of others, once it has collected the pages: its
tables are sound, and apart from everything else. -/
theorem commitEnclave_built {regions : List Region} {log : List Event} (hc : collectRegions env [] s.encl.regions s.log = (.ret 0, regions, log))
    (hlog : (buildEnclaveCr3 env s.mem log { s.encl with regions := regions }).2.extras.log <:+ (commitEnclave env commit s).2.log) :
    let m := (buildEnclaveCr3 env s.mem log { s.encl with regions := regions }).2
    SameFrames s.log log ∧ HandsOutFree log m.extras.log ∧ Sound log m.mem m.extras ∧ Apart log s.mem m.mem m.extras := by
  have hsame : SameFrames s.log log := by
    have hframes := collectRegions_frames env [] s.encl.regions s.log
    rwa [hc] at hframes
  have hpas' : ({ s.encl with regions := regions } : Encl).PasPages := by
    have hprepares := collectRegions_prepares env [] s.encl.regions s.log rfl
    rw [hc] at hprepares
    exact hprepares.pasPages hpas
  have hfree : HandsOutFree log (buildEnclaveCr3 env s.mem log { s.encl with regions := regions }).2.extras.log :=
    fun f l hsuffix _ _ => hframes f l (hsuffix.trans hlog)
  exact ⟨hsame, hfree, buildEnclaveCr3_spares hpas' hpts hfree (hnone regions log hc)⟩

variable (env) in
/-- **A commit writes** to frames that it obtained, and that were not held, if
all its tables are allocated; so are the tables that it seals the domain with. -/
theorem commitEnclave_spares :
    (∀ f, (commitEnclave env commit s).2.mem f = s.mem f ∨
        Obtained s.log (commitEnclave env commit s).2.log f ∧ held f s.log = false) ∧
      ((commitEnclave env commit s).1 = .ret 0 → ∀ {l q t},
        layout.Reach (commitEnclave env commit s).2.mem (commitEnclave env commit s).2.encl.cr3 l q t →
          held t s.log = false ∧ held t (commitEnclave env commit s).2.log = true) := by
  rcases commitEnclave_writes env commit s with ⟨hmem, hret⟩ | ⟨regions, log, hc, hmem, hlog, hroot⟩
  · exact ⟨fun f => .inl (congrFun hmem f), fun h => absurd h hret⟩
  obtain ⟨hsame, hfree, hsound, hapart⟩ := commitEnclave_built env commit s hpas hpts hframes hnone hc hlog
  have hunheld : ∀ f, Obtained log (buildEnclaveCr3 env s.mem log { s.encl with regions := regions }).2.extras.log f →
      held f s.log = false := fun f h => by
    rw [← hsame.held f]
    exact h.unheld hfree (hnone regions log hc)
  refine ⟨fun f => ?_, fun hret {l q t} ht => ?_⟩
  · rw [hmem]
    refine Classical.or_iff_not_imp_left.2 fun hchanged => ?_
    have hobtained := not_not.1 (mt (hapart.spared f) hchanged)
    exact ⟨(hobtained.earlier hsame.suffix).later hlog, hunheld f hobtained⟩
  · rw [hmem, hroot hret] at ht
    refine ⟨hunheld t (hapart.fresh ht), ?_⟩
    have hcommit : commitEnclave env commit s = (.ret 0, (commitEnclave env commit s).2) := by rw [← hret]
    obtain ⟨regions', log', m, invoke, hc', hb, hs'⟩ := commitEnclave_returns hcommit
    rw [hc] at hc'
    obtain ⟨-, rfl, rfl⟩ : _ ∧ _ ∧ _ := by simpa only [Prod.mk.injEq] using hc'
    have htable := (hsound.tables ht).2
    rw [hb] at htable
    have htransfers : SameFrames m.extras.log (commitEnclave env commit s).2.log := by
      rw [hs']
      refine SameFrames.cons ⟨_, rfl, fun ev hev => ?_⟩ rfl
      obtain ⟨pa, -, rfl⟩ := List.mem_map.1 (List.mem_reverse.1 hev)
      rfl
    rwa [htransfers.held t]

variable (env) in
/-- The tables of a commit that returns 0 grant everything above the leaves. -/
theorem commitEnclave_passes (hret : (commitEnclave env commit s).1 = .ret 0) :
    Passes (commitEnclave env commit s).2.mem (commitEnclave env commit s).2.encl.cr3 := by
  rcases commitEnclave_writes env commit s with ⟨-, hfails⟩ | ⟨regions, log, hc, hmem, hlog, hroot⟩
  · exact absurd hret hfails
  obtain ⟨-, -, -, hapart⟩ := commitEnclave_built env commit s hpas hpts hframes hnone hc hlog
  rw [hmem, hroot hret]
  exact hapart.passes

end Built

end Commit

end Tyche.Enclave
