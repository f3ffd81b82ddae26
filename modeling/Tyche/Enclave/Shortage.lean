/-
When the allocation of a table fails (`allocate`, `default_mapper`,
`build_enclave_cr3`). Its result is not looked at: NULL becomes the root, or
an entry that is present and refers to frame 0, and the walk goes on there.

While no allocation fails, all tables that are reached are recorded.
-/
import Tyche.Enclave.Frames
import Tyche.Pts.Positions

namespace Tyche.Enclave

open Tyche.Pts Tyche.Radix

/-- The allocation of a table failed: there was no page, or none that is
aligned, or the page was given back. -/
def Event.shortage : Event → Bool
  | .allocPages none | .freePages _ => true
  | .allocPages (some f) => decide (f % ptPageSize ≠ 0)
  | _ => false

/-- Since `old`, the allocation of a table failed. -/
def Shortage (old log : List Event) : Prop := ∃ events, log = events ++ old ∧ ∃ ev ∈ events, ev.shortage = true

/-- Since `old`, the pages that were handed out are frames, other than that of
address 0, and were free. -/
def HandsOutFree (old log : List Event) : Prop := ∀ f l, (.allocPages (some f) :: l) <:+ log → old <:+ l →
  f % ptPageSize = 0 → f ≠ 0 ∧ Frame f ∧ held f l = false

/-- The frame is recorded for a table of the enclave. -/
def Encl.HasTable (e : Encl) (f : Nat) : Prop := ∃ pa ∈ e.pts, pa.start = f

/-- The present entries that are reached, above those of the leaves, refer to
tables of the enclave. -/
def EntriesRecorded (m : Machine MapInfo) : Prop :=
  ∀ l q t i, layout.Reach m.mem m.extras.enclave.cr3 (l + 1) q t → i < 512 → Present (m.mem t i) →
    m.extras.enclave.HasTable (x86_64Next (m.mem t i) (l + 1))

/-- A moment of the loop over the regions: before one is mapped, or wherever
the walk of its addresses is. Merging its pages leaves the tables alone. -/
inductive Moment (env : Env) : List Region → Machine MapInfo → Machine MapInfo → Prop
  | here (regions : List Region) (m : Machine MapInfo) : Moment env regions m m
  | walk {reg : Region} {regions : List Region} {m x : Machine MapInfo} {level table start i : Nat} :
    (mapperProfile env).Meets ptPML4 m.extras.enclave.cr3 reg.start reg.end_ { m with extras := m.extras.setRegion reg }
      level table start i x → Moment env (reg :: regions) m x
  | later {reg : Region} {regions : List Region} {m m' m'' x : Machine MapInfo} : mapRegion env reg m = (.ret 0, m') →
    reg.dangling = false ∨ reg.pas = [] → mergePas env reg.pas m' = (0, m'') → Moment env regions m'' x →
    Moment env (reg :: regions) m x

/-- The machine once the root is set. -/
def started (env : Env) (mem : Nat → Nat → Nat) (log : List Event) (encl : Encl) : Machine MapInfo :=
  rooted (allocate env (building mem log encl)).1 (allocate env (building mem log encl)).2

/-- **Failures are reported**: if the allocation of a table fails, the result
is not 0; and no entry refers to a frame that is not of a table, nor does the
root when the result is 0. -/
structure FailuresReported (env : Env) (mem : Nat → Nat → Nat) (log : List Event) (encl : Encl) : Prop where
  returns : Shortage log (buildEnclaveCr3 env mem log encl).2.extras.log →
    ∃ r ≠ 0, (buildEnclaveCr3 env mem log encl).1 = .ret r
  entries : ∀ x, Moment env encl.regions (started env mem log encl) x → EntriesRecorded x
  root : (buildEnclaveCr3 env mem log encl).1 = .ret 0 →
    (buildEnclaveCr3 env mem log encl).2.extras.enclave.HasTable (buildEnclaveCr3 env mem log encl).2.extras.enclave.cr3

/-! ## Without a failure -/

/-- No allocation of a table failed since `old`, and every table that is
reached is one of the enclave. -/
structure Sound (old : List Event) (mem : Nat → Nat → Nat) (info : MapInfo) : Prop where
  unshared : layout.Unshared mem info.enclave.cr3
  tables : ∀ {l q t}, layout.Reach mem info.enclave.cr3 l q t → info.enclave.HasTable t ∧ held t info.log = true
  nonzero : ∀ pa ∈ info.enclave.pts, pa.start ≠ 0
  log : ∃ events, info.log = events ++ old ∧ ∀ ev ∈ events, ev.shortage = false

/-- The same, while a region is mapped. -/
structure SoundIn (old : List Event) (r : Region) (mem : Nat → Nat → Nat) (info : MapInfo) : Prop extends Sound old mem info where
  region : info.region = some r
  flags : info.intermedFlags = tableFlags
  pages : ∀ pa ∈ info.paRegion, pa.Page

/-- The table is reached, at the level. -/
def ReachedAt (mem : Nat → Nat → Nat) (info : MapInfo) (level table : Nat) : Prop :=
  ∃ q, layout.Reach mem info.enclave.cr3 level q table

/-- Before the end of the call; and there was no failure, or the entries are
all recorded. -/
def Passable (old : List Event) (final : MapInfo) (m : Machine MapInfo) : Prop :=
  Later m.extras final ∧ (¬ Shortage old m.extras.log ∨ EntriesRecorded m)

section Sound

variable {old : List Event} {m : Machine MapInfo} {env : Env} {r : Region} {final : MapInfo}

theorem Sound.not_shortage {mem : Nat → Nat → Nat} {info : MapInfo} (h : Sound old mem info) : ¬ Shortage old info.log := by
  rintro ⟨events, hlog, ev, hev, hfails⟩
  obtain ⟨events', hlog', hnone⟩ := h.log
  obtain rfl := List.append_cancel_right (hlog.symm.trans hlog')
  rw [hnone ev hev] at hfails
  cases hfails

theorem Sound.entries (h : Sound old m.mem m.extras) : EntriesRecorded m :=
  fun _ _ _ _ ht hi hp => (h.tables (.child ht hi (layout_child hp))).1

/-- An allocation without a result leaves a trace. -/
theorem allocate_shortage (h : (allocate env m).1 = none) :
    ∃ events, (allocate env m).2.extras.log = events ++ m.extras.log ∧ ∃ ev ∈ events, ev.shortage = true := by
  rcases allocate_cases env m with ⟨ans, heq, hans⟩ | ⟨page, ks, allPages, heq, -⟩ | ⟨page, allPages, heq, -⟩
  · refine ⟨[.allocPages ans], by rw [heq]; rfl, _, List.mem_cons_self .., ?_⟩
    cases ans with
    | none => rfl
    | some f => exact decide_eq_true (hans f rfl)
  · exact ⟨.freePages page :: ks ++ [.allocPages (some page)], by rw [heq]; rfl, .freePages page, by simp, rfl⟩
  · rw [heq] at h
    cases h

/-- How an allocation ends: it fails, and spares the tables that are reached,
or gives a frame that is none of them. -/
theorem Sound.allocate (h : Sound old m.mem m.extras) (hfree : HandsOutFree old final.log)
    (hlog : (allocate env m).2.extras.log <:+ final.log) :
    (∃ m', Enclave.allocate env m = (none, m') ∧ Shortage old m'.extras.log ∧
      m'.extras.enclave.cr3 = m.extras.enclave.cr3 ∧ m'.extras.enclave.pts = m.extras.enclave.pts ∧
      m'.extras.intermedFlags = m.extras.intermedFlags ∧
      ∀ {l q t}, layout.Reach m.mem m.extras.enclave.cr3 l q t → m'.mem t = m.mem t) ∨
    (∃ f allPages, Enclave.allocate env m = (some f, allocated f (m.extras.enclave.pts ++ [⟨f, add64 f ptPageSize, Capa.ptEntry⟩])
        allPages [.kmalloc true, .kmalloc true, .allocPages (some f)] m) ∧ f ≠ 0 ∧ Frame f ∧
      ∀ l q, ¬ layout.Reach m.mem m.extras.enclave.cr3 l q f) := by
  obtain ⟨events, hevents, -⟩ := h.log
  have hfresh : ∀ f, f % ptPageSize = 0 → (.allocPages (some f) :: m.extras.log) <:+ final.log →
      f ≠ 0 ∧ Frame f ∧ ∀ l q, ¬ layout.Reach m.mem m.extras.enclave.cr3 l q f := by
    intro f halign hsuffix
    obtain ⟨hne, hframe, hheld⟩ := hfree f _ hsuffix ⟨events, hevents.symm⟩ halign
    refine ⟨hne, hframe, fun l q hreach => ?_⟩
    rw [(h.tables hreach).2] at hheld
    cases hheld
  have hshort : (Enclave.allocate env m).1 = none → Shortage old (Enclave.allocate env m).2.extras.log := by
    intro hnone
    obtain ⟨last, hlast, hfails⟩ := allocate_shortage hnone
    refine ⟨last ++ events, by rw [hlast, hevents, List.append_assoc], ?_⟩
    obtain ⟨ev, hev, hfail⟩ := hfails
    exact ⟨ev, List.mem_append_left _ hev, hfail⟩
  rcases allocate_cases env m with ⟨ans, heq, -⟩ | ⟨page, ks, allPages, heq, halign, -⟩ | ⟨page, allPages, heq, halign, -⟩
  · rw [heq] at hshort
    exact .inl ⟨_, heq, hshort rfl, rfl, rfl, rfl, fun _ => rfl⟩
  · rw [heq] at hlog hshort
    have hsuffix : (.allocPages (some page) :: m.extras.log) <:+ final.log := by
      refine List.IsSuffix.trans ⟨.freePages page :: ks, ?_⟩ hlog
      simp [allocated]
    obtain ⟨-, -, hunreached⟩ := hfresh page halign hsuffix
    refine .inl ⟨_, heq, hshort rfl, rfl, rfl, rfl, fun {l q t} ht => ?_⟩
    have hne : t ≠ page := fun heq => hunreached l q (heq ▸ ht)
    simp [allocated, Machine.clear, hne]
  · rw [heq] at hlog
    have hsuffix : (.allocPages (some page) :: m.extras.log) <:+ final.log :=
      List.IsSuffix.trans ⟨[.kmalloc true, .kmalloc true], rfl⟩ hlog
    obtain ⟨hne, hframe, hunreached⟩ := hfresh page halign hsuffix
    exact .inr ⟨page, allPages, heq, hne, hframe, hunreached⟩

variable {l t i : Nat}

/-- The entry that is written without a table is reached, is present, and
refers to frame 0. -/
theorem SoundIn.strays (h : SoundIn old r m.mem m.extras) (ht : ReachedAt m.mem m.extras (l + 1) t) (hi : i < 512)
    (hp : ¬ Present (m.mem t i)) {m' : Machine MapInfo} (hcr3 : m'.extras.enclave.cr3 = m.extras.enclave.cr3)
    (hpts : m'.extras.enclave.pts = m.extras.enclave.pts)
    (hmem : ∀ {l q t}, layout.Reach m.mem m.extras.enclave.cr3 l q t → m'.mem t = m.mem t) :
    ¬ EntriesRecorded (m'.store t i tableFlags) := by
  intro hentries
  obtain ⟨q, ht⟩ := ht
  have hword : (m'.store t i tableFlags).mem t i = tableFlags := by simp [Machine.store]
  have hreach : layout.Reach (m'.store t i tableFlags).mem m'.extras.enclave.cr3 (l + 1) q t := by
    rw [hcr3]
    refine ht.mono fun {l' q' t' j c} ht' hc => ?_
    have hslot : ¬ (t' = t ∧ j = i) := by
      rintro ⟨rfl, rfl⟩
      rw [layout_child_none.2 hp] at hc
      cases hc
    simpa [Machine.store, hslot, hmem ht'] using hc
  have hpresent : Present ((m'.store t i tableFlags).mem t i) := by
    rw [hword]
    decide
  have hnull : x86_64Next tableFlags (l + 1) = 0 := show tableFlags &&& ptPhysPageMask = 0 by decide
  obtain ⟨pa, hpa, heq⟩ := hentries l q t i hreach hi hpresent
  rw [hword, hnull] at heq
  have hpa : pa ∈ m'.extras.enclave.pts := hpa
  rw [hpts] at hpa
  exact h.nonzero pa hpa heq

/-- An entry is filled with a pointer to a new table. -/
theorem SoundIn.link (h : SoundIn old r m.mem m.extras) (ht : ReachedAt m.mem m.extras (l + 1) t) (hi : i < 512)
    (hp : ¬ Present (m.mem t i)) {f : Nat} (hne : f ≠ 0) (hframe : Frame f)
    (hunreached : ∀ l q, ¬ layout.Reach m.mem m.extras.enclave.cr3 l q f) {end_ tpe : Nat} {allPages : List PaRegion}
    {m' : Machine MapInfo} (hm' : m' = (allocated f (m.extras.enclave.pts ++ [⟨f, end_, tpe⟩]) allPages
      [.kmalloc true, .kmalloc true, .allocPages (some f)] m).store t i (f ||| tableFlags)) :
    Kept (SoundIn old r) ReachedAt m m' ∧ ReachedAt m'.mem m'.extras l (x86_64Next (m'.mem t i) (l + 1)) := by
  obtain ⟨q, ht⟩ := ht
  have htf : t ≠ f := fun heq => hunreached _ _ (heq ▸ ht)
  have hword : m'.mem t i = f ||| tableFlags := by simp [hm', Machine.store]
  have hnext : x86_64Next (m'.mem t i) (l + 1) = f := by
    rw [hword]
    exact hframe.next (by decide) _
  have hlink : layout.child (m'.mem t i) = some f := by
    rw [layout_child (by rw [hword]; exact hframe.present.2 (by decide))]
    exact congrArg some hnext
  have hempty : ∀ j < layout.fanout, layout.child (m'.mem f j) = none := by
    intro j _
    have hzero : m'.mem f j = 0 := by simp [hm', Machine.store, allocated, Machine.clear, htf.symm]
    rw [hzero]
    exact layout_child_none.2 not_present_zero
  have hwrites : layout.WritesOnly m.mem m.extras.enclave.cr3 t i m'.mem := by
    intro l' q' t' j ht' hslot
    have hne' : t' ≠ f := fun heq => hunreached _ _ (heq ▸ ht')
    have hslot : ¬ (t' = t ∧ j = i) := fun heq => hslot heq.1 heq.2
    simp [hm', Machine.store, allocated, Machine.clear, hne', hslot]
  have hnone := layout_child_none.2 hp
  have hreach {l' q' t' : Nat} : layout.Reach m'.mem m.extras.enclave.cr3 l' q' t' ↔
      layout.Reach m.mem m.extras.enclave.cr3 l' q' t' ∨ t' = f ∧ l' = l ∧ q' = q * 512 + i :=
    h.unshared.reach_grow ht hi hnone hunreached hlink hempty hwrites
  have hunshared := h.unshared.grow ht hi hnone hunreached hlink hempty hwrites
  rw [hnext]
  subst hm'
  refine ⟨⟨⟨⟨hunshared, ?_, ?_, ?_⟩, h.region, h.flags, h.pages⟩, fun hat => hat.imp fun _ ht' => hreach.2 (.inl ht')⟩,
    _, hreach.2 (.inr ⟨rfl, rfl, rfl⟩)⟩
  · intro l' q' t' ht'
    show Encl.HasTable _ t' ∧ (f == t' || held t' m.extras.log) = true
    rcases hreach.1 ht' with hold | ⟨rfl, -, -⟩
    · obtain ⟨⟨pa, hpa, heq⟩, hheld⟩ := h.tables hold
      exact ⟨⟨pa, List.mem_append_left _ hpa, heq⟩, by simp [hheld]⟩
    · exact ⟨⟨_, List.mem_append_right _ (List.mem_singleton_self _), rfl⟩, by simp⟩
  · intro pa hpa
    rcases List.mem_append.1 hpa with hpa | hpa
    · exact h.nonzero pa hpa
    · obtain rfl := List.mem_singleton.1 hpa
      exact hne
  · obtain ⟨events, hlog, hquiet⟩ := h.log
    have hlast : Event.shortage (.allocPages (some f)) = false := by simp [Event.shortage, hframe.1]
    refine ⟨[.kmalloc true, .kmalloc true, .allocPages (some f)] ++ events, ?_, ?_⟩
    · rw [List.append_assoc, ← hlog]
      rfl
    · exact List.forall_mem_cons.2 ⟨rfl, List.forall_mem_cons.2 ⟨rfl, List.forall_mem_cons.2 ⟨hlast, hquiet⟩⟩⟩

/-- **An absent entry above the leaves** gets a table, as long as there is no
failure or the entries are recorded. -/
theorem SoundIn.grow (h : SoundIn old r m.mem m.extras) (hfree : HandsOutFree old final.log)
    (ht : ReachedAt m.mem m.extras (l + 1) t) (hi : i < 512) (hp : ¬ Present (m.mem t i)) {m' : Machine MapInfo}
    (hm' : m' = (Enclave.allocate env m).2.store t i
      ((Enclave.allocate env m).1.getD 0 ||| (Enclave.allocate env m).2.extras.intermedFlags))
    (hpass : Passable old final m') :
    Kept (SoundIn old r) ReachedAt m m' ∧ ReachedAt m'.mem m'.extras l (x86_64Next (m'.mem t i) (l + 1)) := by
  have hlog : (Enclave.allocate env m).2.extras.log <:+ final.log := by
    rw [hm'] at hpass
    exact hpass.1.log
  rcases h.toSound.allocate hfree hlog with ⟨m₁, heq, hshort, hcr3, hpts, hflags, hmem⟩ |
    ⟨f, allPages, heq, hne, hframe, hunreached⟩
  · have hstored : m' = m₁.store t i tableFlags := by rw [hm', heq, hflags, h.flags, Option.getD_none, Nat.zero_or]
    rw [hstored] at hpass
    exact absurd (hpass.2.resolve_left (not_not_intro hshort)) (h.strays ht hi hp hcr3 hpts hmem)
  · have hflags : (allocated f (m.extras.enclave.pts ++ [⟨f, add64 f ptPageSize, Capa.ptEntry⟩]) allPages
        [.kmalloc true, .kmalloc true, .allocPages (some f)] m).extras.intermedFlags = tableFlags := h.flags
    rw [heq, hflags] at hm'
    exact h.link ht hi hp hne hframe hunreached hm'

/-- **A leaf** is no pointer. -/
theorem SoundIn.write (h : SoundIn old r m.mem m.extras) (ht : ReachedAt m.mem m.extras 0 t) (i w : Nat)
    {rest : List PaRegion} (hrest : ∀ pa ∈ rest, pa.Page) :
    Kept (SoundIn old r) ReachedAt m { m.store t i w with extras := { m.extras with paRegion := rest } } := by
  obtain ⟨q, ht⟩ := ht
  have hwrites : layout.WritesOnly m.mem m.extras.enclave.cr3 t i (m.store t i w).mem := by
    intro l' q' t' j _ hslot
    have hslot : ¬ (t' = t ∧ j = i) := fun heq => hslot heq.1 heq.2
    simp [Machine.store, hslot]
  have hreach {l' q' t' : Nat} : layout.Reach (m.store t i w).mem m.extras.enclave.cr3 l' q' t' ↔
      layout.Reach m.mem m.extras.enclave.cr3 l' q' t' := h.unshared.reach_write ht hwrites
  exact ⟨⟨⟨h.unshared.write ht hwrites, fun ht' => h.tables (hreach.1 ht'), h.nonzero, h.log⟩, h.region, h.flags, hrest⟩,
    fun hat => hat.imp fun _ ht' => hreach.2 ht'⟩

theorem ReachedAt.level_le {mem : Nat → Nat → Nat} {info : MapInfo} (h : ReachedAt mem info l t) : l ≤ ptPML4 := by
  obtain ⟨q, h⟩ := h
  exact h.level_le

/-- **What becomes of the tables** at an entry: the mapper goes on, to a table
below if there is one, or it leaves everything as it is. -/
theorem SoundIn.handleEntry (h : SoundIn old r m.mem m.extras) (hfree : HandsOutFree old final.log) (ht : ReachedAt m.mem m.extras l t)
    (hi : i < 512) {o : Outcome Verdict} {m' : Machine MapInfo} (heq : (mapperProfile env).handleEntry t i l m = (o, m')) :
    (o = .ret .descend ∧ (Passable old final m' → Kept (SoundIn old r) ReachedAt m m' ∧
      ∀ k, l = k + 1 → ReachedAt m'.mem m'.extras k (x86_64Next (m'.mem t i) l))) ∨
    (o ≠ .ret .descend ∧ o ≠ .ret .next ∧ m' = m) := by
  rcases handleEntry_cases env (t := t) (i := i) (l := l) h.region h.pages ht.level_le with
    ⟨hp, heq'⟩ | ⟨hp, ⟨o', heq', hdescend, hnext⟩ | ⟨pa, rest, rfl, hpas, heq'⟩ | ⟨k, rfl, heq'⟩⟩ <;>
    obtain ⟨rfl, hm'⟩ := Prod.mk.inj (heq.symm.trans heq')
  · refine .inl ⟨rfl, fun _ => ?_⟩
    subst hm'
    refine ⟨⟨h, fun hat => hat⟩, ?_⟩
    rintro k rfl
    obtain ⟨q, ht⟩ := ht
    exact ⟨_, ht.child hi (layout_child hp)⟩
  · exact .inr ⟨hdescend, hnext, hm'⟩
  · refine .inl ⟨rfl, fun _ => ⟨?_, fun k hk => absurd hk.symm (Nat.succ_ne_zero k)⟩⟩
    rw [hm']
    exact h.write ht i _ fun p hp => h.pages p (hpas ▸ List.mem_cons_of_mem _ hp)
  · refine .inl ⟨rfl, fun hpass => ?_⟩
    obtain ⟨hkept, hbelow⟩ := h.grow hfree ht hi hp hm' hpass
    refine ⟨hkept, fun k' hk => ?_⟩
    obtain rfl := Nat.succ.inj hk
    exact hbelow

/-- **The mapper keeps the tables sound**, while it can go on. -/
theorem mapper_guards (env : Env) (r : Region) (hfree : HandsOutFree old final.log) :
    (mapperProfile env).Guards (Passable old final) (SoundIn old r) ReachedAt where
  step := by
    intro l t i m m' va v h ht hi heq hv hpass
    rcases SoundIn.handleEntry (m := { m with currVa := va }) h hfree ht hi heq with ⟨-, hkept⟩ | ⟨-, -, rfl⟩
    · exact ⟨(hkept hpass).1.good, (hkept hpass).1.tables⟩
    · exact ⟨h, fun hat => hat⟩
  below := by
    intro l t i m m' va h ht hi heq hpass
    rcases SoundIn.handleEntry (m := { m with currVa := va }) h hfree ht hi heq with ⟨-, hkept⟩ | ⟨hdescend, -⟩
    · exact (hkept hpass).2 l rfl
    · exact absurd rfl hdescend
  stop := by
    intro l t i m m' va o h ht hi heq hnext hdescend
    rcases SoundIn.handleEntry (m := { m with currVa := va }) h hfree ht hi heq with ⟨ho, -⟩ | ⟨-, -, rfl⟩
    · exact absurd ho hdescend
    · exact ⟨h, fun hat => hat⟩

/-! ## The regions -/

/-- Wherever a region is mapped, the tables are sound, and so they are then. -/
theorem Sound.mapRegion (h : Sound old m.mem m.extras) (hpas : ∀ pa ∈ r.pas, pa.Page) (hfree : HandsOutFree old final.log)
    (hpass : (mapperProfile env).AllMet (Passable old final) ptPML4 m.extras.enclave.cr3 r.start r.end_
      { m with extras := m.extras.setRegion r }) :
    Sound old (mapRegion env r m).2.mem (mapRegion env r m).2.extras ∧
      (mapperProfile env).AllMet (fun x => Sound old x.mem x.extras) ptPML4 m.extras.enclave.cr3 r.start r.end_
        { m with extras := m.extras.setRegion r } := by
  have hstart : SoundIn old r m.mem (m.extras.setRegion r) := ⟨⟨h.unshared, h.tables, h.nonzero, h.log⟩, rfl, rfl, hpas⟩
  have hroot : ReachedAt m.mem (m.extras.setRegion r) ptPML4 m.extras.enclave.cr3 := ⟨0, .root⟩
  have hguards := mapper_guards env r hfree
  exact ⟨(hguards.ptWalkPageRange hpass hstart hroot).good.toSound,
    fun hmeets => (hguards.meets hpass hstart hroot hmeets).1.toSound⟩

/-- Merging leaves the tables alone. -/
theorem Sound.mergePas (h : Sound old m.mem m.extras) (pas : List PaRegion) :
    Sound old (mergePas env pas m).2.mem (mergePas env pas m).2.extras := by
  have merged : ∀ {m : Machine MapInfo} ok allPages, Sound old m.mem m.extras →
      Sound old m.mem (onEnclave (fun e => { e with allPages := allPages }) (record (.kmalloc ok) m)).extras := by
    intro m ok allPages h
    obtain ⟨events, hlog, hquiet⟩ := h.log
    exact ⟨h.unshared, h.tables, h.nonzero, .kmalloc ok :: events, congrArg (_ :: ·) hlog, List.forall_mem_cons.2 ⟨rfl, hquiet⟩⟩
  induction pas generalizing m with
  | nil => exact h
  | cons curr rest ih =>
    rcases mergePas_cons env curr rest m with heq | ⟨ret, allPages, -, ⟨-, heq⟩ | ⟨-, heq⟩⟩ <;> rw [heq]
    · exact merged false m.extras.enclave.allPages h
    · exact merged true allPages h
    · exact ih (merged true allPages h)

theorem mapRegion_buildRegions_later (env : Env) (r : Region) (regions : List Region) (m : Machine MapInfo) :
    Later (Enclave.mapRegion env r m).2.extras (buildRegions env (r :: regions) m).2.extras := by
  rcases buildRegions_cons env r regions m with ⟨o, m', heq, -, -, h⟩ | ⟨m', heq, ⟨-, -, h⟩ | ⟨-, ret, m'', heq', hcase⟩⟩
  · rw [h, heq]
    exact Later.refl _
  · rw [h, heq]
    exact Later.refl _
  · have hmerge := mergePas_later env r.pas m'
    rw [heq'] at hmerge
    rw [heq]
    rcases hcase with ⟨-, h⟩ | ⟨-, h⟩ <;> rw [h]
    · exact hmerge
    · exact hmerge.trans (buildRegions_later ..)

theorem buildRegions_next {regions : List Region} {m m' m'' : Machine MapInfo} (hmap : Enclave.mapRegion env r m = (.ret 0, m'))
    (hkept : r.dangling = false ∨ r.pas = []) (hmerge : Enclave.mergePas env r.pas m' = (0, m'')) :
    buildRegions env (r :: regions) m = buildRegions env regions m'' := by
  have hdangling : ¬ (r.dangling = true ∧ r.pas ≠ []) := by
    rintro ⟨hd, hne⟩
    rcases hkept with hkept | hkept
    · rw [hkept] at hd
      cases hd
    · exact hne hkept
  rw [buildRegions, hmap]
  dsimp only
  rw [if_neg (by simp), if_neg hdangling, hmerge]
  exact if_neg (by simp)

/-- A moment comes before the end. -/
theorem Moment.later_end {regions : List Region} {m x : Machine MapInfo} (h : Moment env regions m x) :
    Later x.extras (buildRegions env regions m).2.extras := by
  induction h with
  | here => exact buildRegions_later ..
  | walk hmeets => exact ((mapperProfile_advances env).meets hmeets).trans (mapRegion_buildRegions_later ..)
  | later hmap hkept hmerge _ ih =>
    rw [buildRegions_next hmap hkept hmerge]
    exact ih

/-- **The tables are sound** at all moments, and at the end. -/
theorem Sound.buildRegions {regions : List Region} (hfree : HandsOutFree old final.log)
    (hpas : ∀ r ∈ regions, ∀ pa ∈ r.pas, pa.Page) : ∀ {m : Machine MapInfo}, Sound old m.mem m.extras →
      (∀ x, Moment env regions m x → Passable old final x) →
      Sound old (buildRegions env regions m).2.mem (buildRegions env regions m).2.extras ∧
        ∀ x, Moment env regions m x → Sound old x.mem x.extras := by
  induction regions with
  | nil =>
    intro m h _
    refine ⟨h, fun x hx => ?_⟩
    cases hx
    exact h
  | cons r regions ih =>
    intro m h hpass
    obtain ⟨hmapped, hmet⟩ := h.mapRegion (hpas r (List.mem_cons_self ..)) hfree fun hmeets => hpass _ (.walk hmeets)
    have hmerged : ∀ m', Enclave.mapRegion env r m = (.ret 0, m') →
        Sound old (Enclave.mergePas env r.pas m').2.mem (Enclave.mergePas env r.pas m').2.extras := by
      intro m' hmap
      rw [hmap] at hmapped
      exact hmapped.mergePas r.pas
    have hrest : ∀ {m' m''}, Enclave.mapRegion env r m = (.ret 0, m') → r.dangling = false ∨ r.pas = [] →
        Enclave.mergePas env r.pas m' = (0, m'') →
        Sound old (Enclave.buildRegions env regions m'').2.mem (Enclave.buildRegions env regions m'').2.extras ∧
          ∀ x, Moment env regions m'' x → Sound old x.mem x.extras := by
      intro m' m'' hmap hkept hmerge
      have hsound := hmerged m' hmap
      rw [hmerge] at hsound
      exact ih (fun q hq => hpas q (List.mem_cons_of_mem _ hq)) hsound fun x hx => hpass x (.later hmap hkept hmerge hx)
    refine ⟨?_, fun x hx => ?_⟩
    · rcases buildRegions_cons env r regions m with ⟨o, m', hmap, -, -, heq⟩ |
        ⟨m', hmap, ⟨-, -, heq⟩ | ⟨hkept, ret, m'', hmerge, ⟨-, heq⟩ | ⟨rfl, heq⟩⟩⟩
      · rw [heq]
        rwa [hmap] at hmapped
      · rw [heq]
        rwa [hmap] at hmapped
      · have hsound := hmerged m' hmap
        rw [heq]
        rwa [hmerge] at hsound
      · rw [heq]
        exact (hrest hmap hkept hmerge).1
    · cases hx with
      | here => exact h
      | walk hmeets => exact hmet hmeets
      | later hmap hkept hmerge hx => exact (hrest hmap hkept hmerge).2 x hx

end Sound

/-! ## The call -/

section Call

variable {env : Env} {mem : Nat → Nat → Nat} {log : List Event} {encl : Encl}

/-- Without a root there is a failure; with one, the tables are sound. -/
theorem started_cases (hpts : ∀ pa ∈ encl.pts, pa.start ≠ 0)
    (hfree : HandsOutFree log (buildEnclaveCr3 env mem log encl).2.extras.log) :
    ((allocate env (building mem log encl)).1 = none ∧ Shortage log (buildEnclaveCr3 env mem log encl).2.extras.log) ∨
      (allocate env (building mem log encl)).1 ≠ none ∧
        Sound log (started env mem log encl).mem (started env mem log encl).extras := by
  have hsuffix := allocate_building_log env mem log encl
  by_cases hroot : (allocate env (building mem log encl)).1 = none
  · obtain ⟨events, hevents, ev, hev, hfails⟩ := allocate_shortage hroot
    obtain ⟨more, hmore⟩ := hsuffix
    have hbuilding : (building mem log encl).extras.log = log := rfl
    rw [hevents, hbuilding] at hmore
    refine .inl ⟨hroot, more ++ events, by rw [← hmore, List.append_assoc], ev, List.mem_append_right _ hev, hfails⟩
  · refine .inr ⟨hroot, ?_⟩
    unfold started
    rcases allocate_cases env (building mem log encl) with ⟨ans, heq, -⟩ | ⟨page, ks, allPages, heq, -⟩ |
      ⟨f, allPages, heq, halign, -⟩
    · exact absurd (by rw [heq]) hroot
    · exact absurd (by rw [heq]) hroot
    · rw [heq] at hsuffix ⊢
      obtain ⟨hne, -, -⟩ := hfree f _ (List.IsSuffix.trans ⟨[.kmalloc true, .kmalloc true], rfl⟩ hsuffix)
        List.suffix_rfl halign
      have hempty : ∀ i < layout.fanout, layout.child ((allocated f (encl.pts ++ [⟨f, add64 f ptPageSize, Capa.ptEntry⟩]) allPages
          [.kmalloc true, .kmalloc true, .allocPages (some f)] (building mem log encl)).mem f i) = none := by
        intro i _
        have hzero : (allocated f (encl.pts ++ [⟨f, add64 f ptPageSize, Capa.ptEntry⟩]) allPages
          [.kmalloc true, .kmalloc true, .allocPages (some f)] (building mem log encl)).mem f i = 0 := by
          simp [allocated, Machine.clear]
        rw [hzero]
        exact layout_child_none.2 not_present_zero
      refine ⟨fun l q l' q' t ht ht' => ?_, fun {l q t} ht => ?_, fun pa hpa => ?_, ?_⟩
      · obtain ⟨rfl, rfl, -⟩ := ht.of_empty hempty
        obtain ⟨rfl, rfl, -⟩ := ht'.of_empty hempty
        exact ⟨rfl, rfl⟩
      · obtain ⟨-, -, rfl⟩ := ht.of_empty hempty
        exact ⟨⟨_, List.mem_append_right _ (List.mem_singleton_self _), rfl⟩, by simp [rooted, allocated, onEnclave, held]⟩
      · rcases List.mem_append.1 hpa with hpa | hpa
        · exact hpts pa hpa
        · obtain rfl := List.mem_singleton.1 hpa
          exact hne
      · exact ⟨[.kmalloc true, .kmalloc true, .allocPages (some f)], rfl, by simp [Event.shortage, halign]⟩

/-- **Failures are reported** if there are none, and, where there is a root or
nothing to map, only then. -/
theorem shortage_reported (hpas : ∀ r ∈ encl.regions, ∀ pa ∈ r.pas, pa.Page) (hpts : ∀ pa ∈ encl.pts, pa.start ≠ 0)
    (hfree : HandsOutFree log (buildEnclaveCr3 env mem log encl).2.extras.log) :
    (¬ Shortage log (buildEnclaveCr3 env mem log encl).2.extras.log → FailuresReported env mem log encl) ∧
      ((allocate env (building mem log encl)).1 ≠ none ∨ encl.regions = [] → FailuresReported env mem log encl →
        ¬ Shortage log (buildEnclaveCr3 env mem log encl).2.extras.log) := by
  have hbuild : buildEnclaveCr3 env mem log encl = buildRegions env encl.regions (started env mem log encl) := rfl
  have hlater : ∀ x, Moment env encl.regions (started env mem log encl) x →
      Later x.extras (buildEnclaveCr3 env mem log encl).2.extras := fun x hx => hx.later_end
  constructor
  · intro hnone
    have hstart := ((started_cases hpts hfree).resolve_left fun h => hnone h.2).2
    obtain ⟨hend, hmoments⟩ := hstart.buildRegions hfree hpas fun x hx => by
      refine ⟨hlater x hx, .inl ?_⟩
      rintro ⟨events, hlog, ev, hev, hfails⟩
      obtain ⟨more, hmore⟩ := (hlater x hx).log
      exact hnone ⟨more ++ events, by rw [← hmore, hlog, List.append_assoc], ev, List.mem_append_right _ hev, hfails⟩
    exact ⟨fun hshort => absurd hshort hnone, fun x hx => (hmoments x hx).entries, fun _ => (hend.tables .root).1⟩
  · intro hcase hreported
    rcases started_cases hpts hfree with ⟨hroot, hshort⟩ | ⟨-, hstart⟩
    · intro _
      have hregions := hcase.resolve_left (not_not_intro hroot)
      obtain ⟨r, hr, hret⟩ := hreported.returns hshort
      rw [hbuild, hregions] at hret
      exact hr (Outcome.ret.inj hret).symm
    · exact (hstart.buildRegions hfree hpas fun x hx => ⟨hlater x hx, .inr (hreported.entries x hx)⟩).1.not_shortage

end Call

/-- The answers since the start, checked one by one. -/
def handsOutFreeBy : List Event → Bool
  | [] => true
  | .allocPages (some f) :: l => (f % ptPageSize != 0 || f != 0 && decide (Frame f) && !held f l) && handsOutFreeBy l
  | _ :: l => handsOutFreeBy l

theorem HandsOutFree.of_handsOutFreeBy {log : List Event} (h : handsOutFreeBy log = true) : HandsOutFree [] log := by
  rintro f l ⟨later, rfl⟩ - halign
  induction later with
  | nil =>
    have hf : f ≠ 0 ∧ Frame f ∧ held f l = false := by
      simp only [List.nil_append, handsOutFreeBy, halign, Bool.and_eq_true] at h
      simpa [and_assoc] using h.1
    exact hf
  | cons ev later ih =>
    refine ih ?_
    rw [List.cons_append] at h
    unfold handsOutFreeBy at h
    split at h
    next heq => cases heq
    next heq =>
      obtain ⟨rfl, rfl⟩ := List.cons.inj heq
      exact (Bool.and_eq_true_iff.1 h).2
    next heq =>
      obtain ⟨rfl, rfl⟩ := List.cons.inj heq
      exact h

theorem shortage_nil {log : List Event} : Shortage [] log ↔ log.any Event.shortage = true := by
  simp [Shortage]

/-- An enclave with one page that was collected. -/
def onePageCollected : Encl :=
  { pid := 1, handle := 0, tycheHandle := 1,
    regions := [{ start := 0x1000, end_ := 0x2000, src := 0x8000, flags := teRead, tpe := 4, pas := [⟨0x20000, 0x21000, 4⟩] }] }

theorem onePageCollected_pages : ∀ r ∈ onePageCollected.regions, ∀ pa ∈ r.pas, pa.Page := by decide

theorem shortage_reported_plenty : FailuresReported plenty (fun _ _ => 0) [] onePageCollected :=
  (shortage_reported onePageCollected_pages (by decide) (.of_handsOutFreeBy (by decide +kernel))).1
    (by rw [shortage_nil]; decide +kernel)

/-- The page allocator fails once, for the table below the root. -/
def failingOnce : Env :=
  { plenty with allocPages := fun log =>
      if log.countP (fun e => e matches .allocPages _) = 1 then none else plenty.allocPages log }

/-- The failure is not reported, and the root refers to frame 0. -/
theorem failure_unreported :
    let r := buildEnclaveCr3 failingOnce (fun _ _ => 0) [] onePageCollected
    HandsOutFree [] r.2.extras.log ∧ .allocPages none ∈ r.2.extras.log ∧ r.1 = .ret 0 ∧ r.2.extras.enclave.cr3 = 0x100000 ∧
      r.2.mem 0x100000 0 = tableFlags ∧ ¬ FailuresReported failingOnce (fun _ _ => 0) [] onePageCollected := by
  intro r
  have hret : r.1 = .ret 0 := by decide +kernel
  have hfails : .allocPages none ∈ r.2.extras.log := by decide +kernel
  refine ⟨.of_handsOutFreeBy (by decide +kernel), hfails, hret, by decide +kernel, by decide +kernel, fun h => ?_⟩
  obtain ⟨v, hv, hr⟩ := h.returns ⟨r.2.extras.log, (List.append_nil _).symm, _, hfails, rfl⟩
  exact hv (Outcome.ret.inj (hr.symm.trans hret))

end Tyche.Enclave
