/-
Mapping a region, entry by entry. With allocators that never fail, the
mapper either finds an entry present, or fills it: with a new table, which
is accounted for, or with the next physical page of the region.
-/
import Tyche.Enclave.Mapper

namespace Tyche.Enclave

open Tyche.Pts Tyche.Radix
open Tyche.Capa (ptEntry)

/-! ## What the calls leave as it was -/

/-- The log grows, and of the enclave only the pages change. -/
structure Later (e f : MapInfo) : Prop where
  log : e.log <:+ f.log
  enclave : f.enclave = { e.enclave with pts := f.enclave.pts, allPages := f.enclave.allPages }

theorem Later.refl (e : MapInfo) : Later e e := ⟨List.suffix_rfl, rfl⟩

theorem Later.trans {e f g : MapInfo} (h : Later e f) (h' : Later f g) : Later e g :=
  ⟨h.log.trans h'.log, by rw [h'.enclave, h.enclave]⟩

theorem record_later (e : Event) (m : Machine MapInfo) : Later m.extras (record e m).extras :=
  ⟨List.suffix_cons .., rfl⟩

/-- The machine after an allocation: the page is cleared, the enclave has
these pages, and the driver did `events`. -/
def allocated (page : Nat) (pts allPages : List PaRegion) (events : List Event) (m : Machine MapInfo) :
    Machine MapInfo :=
  { m.clear page with extras := { m.extras with
      enclave := { m.extras.enclave with pts := pts, allPages := allPages }
      log := events ++ m.extras.log } }

theorem allocated_later (page : Nat) (pts allPages : List PaRegion) (events : List Event) (m : Machine MapInfo) :
    Later m.extras (allocated page pts allPages events m).extras := ⟨List.suffix_append .., rfl⟩

/-- How `allocate` ends: without a page, with a page it gave back, or with
one that is recorded. -/
theorem allocate_cases (env : Env) (m : Machine MapInfo) :
    (∃ ans, allocate env m = (none, record (.allocPages ans) m) ∧ ∀ f, ans = some f → f % ptPageSize ≠ 0) ∨
    (∃ page ks allPages, allocate env m = (none, allocated page m.extras.enclave.pts allPages
        (.freePages page :: ks ++ [.allocPages (some page)]) m) ∧ page % ptPageSize = 0 ∧
      ((allPages = m.extras.enclave.allPages ∧ (ks = [.kmalloc false] ∨ ks = [.kmalloc false, .kmalloc true])) ∨
        (ks = [.kmalloc true, .kmalloc true] ∧
          ∃ ret ≠ 0, addMergeGlobal m.extras.enclave.allPages ⟨page, add64 page ptPageSize, ptEntry⟩ =
            (ret, allPages)))) ∨
    (∃ page allPages, allocate env m = (some page, allocated page
        (m.extras.enclave.pts ++ [⟨page, add64 page ptPageSize, ptEntry⟩]) allPages
        [.kmalloc true, .kmalloc true, .allocPages (some page)] m) ∧ page % ptPageSize = 0 ∧
      addMergeGlobal m.extras.enclave.allPages ⟨page, add64 page ptPageSize, ptEntry⟩ = (0, allPages)) := by
  unfold allocate
  dsimp only
  split
  next hans => exact .inl ⟨none, by rw [hans], by simp⟩
  next page hans =>
  split
  next halign => exact .inl ⟨some page, by rw [hans], by simpa using halign⟩
  next halign =>
  have halign : page % ptPageSize = 0 := not_not.1 halign
  rw [hans]
  split
  next hok =>
    refine .inr (.inl ⟨page, [.kmalloc false], m.extras.enclave.allPages, ?_, halign, .inl ⟨rfl, .inl rfl⟩⟩)
    rw [hok]
    rfl
  next hok =>
  rw [Bool.not_eq_false] at hok
  rw [hok]
  split
  next hok' =>
    refine .inr (.inl ⟨page, [.kmalloc false, .kmalloc true], m.extras.enclave.allPages, ?_, halign,
      .inl ⟨rfl, .inr rfl⟩⟩)
    rw [hok']
    simp [failureRemove, record, onEnclave, allocated, Machine.clear]
  next hok' =>
  rw [Bool.not_eq_false] at hok'
  rw [hok']
  generalize hadd : addMergeGlobal _ _ = r
  obtain ⟨ret, allPages⟩ := r
  dsimp only
  split
  next hret =>
    refine .inr (.inl ⟨page, [.kmalloc true, .kmalloc true], allPages, ?_, halign, .inr ⟨rfl, ret, hret, hadd⟩⟩)
    simp [failureRemove, record, onEnclave, allocated, Machine.clear]
  next hret =>
    obtain rfl : ret = 0 := not_not.1 hret
    exact .inr (.inr ⟨page, allPages, rfl, halign, hadd⟩)

theorem allocate_later (env : Env) (m : Machine MapInfo) : Later m.extras (allocate env m).2.extras := by
  rcases allocate_cases env m with ⟨ans, h, -⟩ | ⟨page, ks, allPages, h, -⟩ | ⟨page, allPages, h, -⟩
  · rw [h]
    exact record_later ..
  · rw [h]
    exact allocated_later ..
  · rw [h]
    exact allocated_later ..

theorem allocate_keeps (env : Env) (m : Machine MapInfo) :
    (allocate env m).2.extras.region = m.extras.region ∧ (allocate env m).2.extras.paRegion = m.extras.paRegion := by
  rcases allocate_cases env m with ⟨ans, h, -⟩ | ⟨page, ks, allPages, h, -⟩ | ⟨page, allPages, h, -⟩
  all_goals
    rw [h]
    exact ⟨rfl, rfl⟩

theorem entryPage_later (table i : Nat) (isHuge : Bool) (pa : PaRegion) (rest : List PaRegion) (m : Machine MapInfo) :
    Later m.extras (entryPage table i isHuge pa rest m).2.extras := by
  unfold entryPage
  split
  · exact Later.refl _
  · exact ⟨List.suffix_rfl, rfl⟩

theorem defaultMapper_later (env : Env) (table i lvl : Nat) (m : Machine MapInfo) :
    Later m.extras (defaultMapper env table i lvl m).2.extras := by
  unfold defaultMapper
  split
  · exact Later.refl _
  split
  · exact Later.refl _
  dsimp only
  split
  · exact entryPage_later ..
  split
  · exact allocate_later ..
  split
  · exact Later.refl _
  · exact entryPage_later ..

theorem mapperProfile_mapper {env : Env} {level : Nat} {f : Callback MapInfo}
    (h : (mapperProfile env).mappers level = some f) : f = defaultMapper env := by
  have h : (if level ≤ ptPML4 then some (defaultMapper env) else none) = some f := h
  split at h
  · exact (Option.some.inj h).symm
  · cases h

theorem mapperProfile_advances (env : Env) : (mapperProfile env).Advances Later where
  refl := Later.refl
  trans := Later.trans
  how t i l m := by
    show Later m.extras (x86_64HowMap t i l m).2.extras
    unfold x86_64HowMap
    split <;> exact Later.refl _
  mapper h t i m := by
    rw [mapperProfile_mapper h]
    exact defaultMapper_later ..
  visitor h := nomatch h

theorem setRegion_later (info : MapInfo) (region : Region) : Later info (info.setRegion region) :=
  ⟨List.suffix_rfl, rfl⟩

theorem mapRegion_later (env : Env) (region : Region) (m : Machine MapInfo) :
    Later m.extras (mapRegion env region m).2.extras := by
  have hwalk := (mapperProfile_advances env).ptWalkPageRange region.end_ ptPML4 m.extras.enclave.cr3 region.start
    { m with extras := m.extras.setRegion region }
  exact (setRegion_later m.extras region).trans hwalk

/-- The machine once a range was merged into the pages of the enclave. -/
def mergedInto (allPages : List PaRegion) (m : Machine MapInfo) : Machine MapInfo :=
  onEnclave (fun e => { e with allPages := allPages }) (record (.kmalloc true) m)

theorem mergedInto_later (allPages : List PaRegion) (m : Machine MapInfo) :
    Later m.extras (mergedInto allPages m).extras := (record_later _ m).trans ⟨List.suffix_rfl, rfl⟩

/-- What the loop over the physical pages does with the first one. -/
theorem mergePas_cons (env : Env) (curr : PaRegion) (rest : List PaRegion) (m : Machine MapInfo) :
    (mergePas env (curr :: rest) m = (-1, record (.kmalloc false) m)) ∨
    (∃ ret allPages, addMergeGlobal m.extras.enclave.allPages curr = (ret, allPages) ∧
      ((ret ≠ 0 ∧ mergePas env (curr :: rest) m = (-1, mergedInto allPages m)) ∨
        (ret = 0 ∧ mergePas env (curr :: rest) m = mergePas env rest (mergedInto allPages m)))) := by
  cases hok : env.kmalloc m.extras.log with
  | false =>
    left
    rw [mergePas, hok]
    exact if_pos rfl
  | true =>
    right
    refine ⟨_, _, rfl, ?_⟩
    rw [mergePas, hok]
    by_cases hret : (addMergeGlobal m.extras.enclave.allPages curr).1 = 0
    · exact .inr ⟨hret, if_neg (not_not.2 hret)⟩
    · exact .inl ⟨hret, if_pos hret⟩

theorem mergePas_later (env : Env) (pas : List PaRegion) (m : Machine MapInfo) :
    Later m.extras (mergePas env pas m).2.extras := by
  induction pas generalizing m with
  | nil => exact Later.refl _
  | cons curr rest ih =>
    rcases mergePas_cons env curr rest m with h | ⟨ret, allPages, -, ⟨-, h⟩ | ⟨-, h⟩⟩
    · rw [h]
      exact record_later ..
    · rw [h]
      exact mergedInto_later ..
    · rw [h]
      exact (mergedInto_later ..).trans (ih _)

theorem mergePas_mem (env : Env) (pas : List PaRegion) (m : Machine MapInfo) : (mergePas env pas m).2.mem = m.mem := by
  induction pas generalizing m with
  | nil => rfl
  | cons curr rest ih =>
    rcases mergePas_cons env curr rest m with h | ⟨ret, allPages, -, ⟨-, h⟩ | ⟨-, h⟩⟩
    · rw [h]
      rfl
    · rw [h]
      rfl
    · rw [h, ih]
      rfl

/-- What the loop over the regions does with the first one. -/
theorem buildRegions_cons (env : Env) (reg : Region) (regions : List Region) (m : Machine MapInfo) :
    (∃ o m', mapRegion env reg m = (o, m') ∧ o ≠ .ret 0 ∧ (buildRegions env (reg :: regions) m).1 ≠ .ret 0 ∧
      (buildRegions env (reg :: regions) m).2 = m') ∨
    (∃ m', mapRegion env reg m = (.ret 0, m') ∧
      ((reg.dangling = true ∧ reg.pas ≠ [] ∧ buildRegions env (reg :: regions) m = (.freed, m')) ∨
        (reg.dangling = false ∨ reg.pas = []) ∧ ∃ ret m'', mergePas env reg.pas m' = (ret, m'') ∧
          ((ret ≠ 0 ∧ buildRegions env (reg :: regions) m = (.ret (-1), m'')) ∨
            (ret = 0 ∧ buildRegions env (reg :: regions) m = buildRegions env regions m'')))) := by
  rcases hmap : mapRegion env reg m with ⟨o, m'⟩
  by_cases ho : o = .ret 0
  · subst ho
    right
    refine ⟨m', rfl, ?_⟩
    by_cases hd : reg.dangling = true ∧ reg.pas ≠ []
    · refine .inl ⟨hd.1, hd.2, ?_⟩
      rw [buildRegions, hmap]
      simp [hd]
    · refine .inr ⟨by simpa [Decidable.imp_iff_not_or] using hd, _, _, rfl, ?_⟩
      rw [buildRegions, hmap]
      dsimp only
      rw [if_neg (by simp), if_neg hd]
      by_cases hret : (mergePas env reg.pas m').1 = 0
      · exact .inr ⟨hret, if_neg (not_not.2 hret)⟩
      · exact .inl ⟨hret, if_pos hret⟩
  · left
    refine ⟨o, m', rfl, ho, ?_⟩
    rw [buildRegions, hmap]
    cases o with
    | ret v =>
      have hv : v ≠ 0 := fun h => ho (by rw [h])
      simp [hv]
    | fault => simp
    | freed => simp

theorem buildRegions_later (env : Env) (regions : List Region) (m : Machine MapInfo) :
    Later m.extras (buildRegions env regions m).2.extras := by
  induction regions generalizing m with
  | nil => exact Later.refl _
  | cons reg regions ih =>
    have hmap := mapRegion_later env reg m
    rcases buildRegions_cons env reg regions m with ⟨o, m', heq, -, -, h⟩ |
      ⟨m', heq, ⟨-, -, h⟩ | ⟨-, ret, m'', heq', hcase⟩⟩
    · rw [h]
      rwa [heq] at hmap
    · rw [h]
      rwa [heq] at hmap
    · have hmerge := mergePas_later env reg.pas m'
      rw [heq] at hmap
      rw [heq'] at hmerge
      rcases hcase with ⟨-, h⟩ | ⟨-, h⟩
      · rw [h]
        exact hmap.trans hmerge
      · rw [h]
        exact hmap.trans (hmerge.trans (ih _))

/-- The machine the tables of an enclave are built on. -/
def building (mem : Nat → Nat → Nat) (log : List Event) (encl : Encl) : Machine MapInfo where
  mem := mem
  currVa := 0
  extras := { intermedFlags := 0, region := none, paRegion := [], enclave := encl, log := log }

/-- The enclave gets its root. -/
def rooted (root : Option Nat) (m : Machine MapInfo) : Machine MapInfo :=
  onEnclave (fun e => { e with cr3 := root.getD 0 }) m

section Build

variable (env : Env) (mem : Nat → Nat → Nat) (log : List Event) (encl : Encl)

theorem buildEnclaveCr3_eq : buildEnclaveCr3 env mem log encl = buildRegions env encl.regions
    (rooted (allocate env (building mem log encl)).1 (allocate env (building mem log encl)).2) := rfl

theorem allocate_building_regions : (allocate env (building mem log encl)).2.extras.enclave.regions = encl.regions := by
  rw [(allocate_later env (building mem log encl)).enclave]
  rfl

theorem allocate_building_log :
    (allocate env (building mem log encl)).2.extras.log <:+ (buildEnclaveCr3 env mem log encl).2.extras.log :=
  (buildRegions_later env encl.regions
    (rooted (allocate env (building mem log encl)).1 (allocate env (building mem log encl)).2)).log

theorem buildEnclaveCr3_regions : (buildEnclaveCr3 env mem log encl).2.extras.enclave.regions = encl.regions := by
  rw [buildEnclaveCr3_eq, (buildRegions_later env encl.regions (rooted _ _)).enclave]
  exact allocate_building_regions env mem log encl

end Build

/-! ## The allocators never fail -/

/-- A physical page of 4 KiB. -/
def PaRegion.Page (pa : PaRegion) : Prop := Frame pa.start ∧ pa.end_ = pa.start + ptPageSize

instance (pa : PaRegion) : Decidable pa.Page := inferInstanceAs (Decidable (_ ∧ _))

/-- From `old` on, the allocators never failed: the pages they handed out
are below `2 ^ 52`, and were neither in use nor handed out before. -/
structure Supplied (used : List Nat) (old log : List Event) : Prop where
  page : ∀ {new ans}, (.allocPages ans :: new ++ old) <:+ log →
    ∃ f, ans = some f ∧ Frame f ∧ f ∉ used ∧ .allocPages (some f) ∉ new
  record : ∀ {new ans}, (.kmalloc ans :: new ++ old) <:+ log → ans = true

/-- The answers since the start, checked one by one. -/
def suppliedBy (used : List Nat) : List Event → Bool
  | [] => true
  | .allocPages ans :: l =>
    (ans.any fun f => f % ptPageSize == 0 && f < 2 ^ 52 && !used.contains f && !l.contains (.allocPages (some f))) &&
      suppliedBy used l
  | .kmalloc ok :: l => ok && suppliedBy used l
  | _ :: l => suppliedBy used l

theorem Supplied.of_suppliedBy {used : List Nat} {log : List Event} (h : suppliedBy used log = true) :
    Supplied used [] log := by
  have hsuffix : ∀ {l}, l <:+ log → suppliedBy used l = true := by
    intro l hl
    obtain ⟨pre, rfl⟩ := hl
    induction pre with
    | nil => exact h
    | cons e pre ih =>
      refine ih ?_
      rw [List.cons_append] at h
      cases e <;> simp_all [suppliedBy]
  constructor
  · intro new ans hl
    have hans := hsuffix hl
    rw [List.append_nil] at hans
    simp only [suppliedBy, Bool.and_eq_true, Option.any_eq_true] at hans
    obtain ⟨⟨f, rfl, hf⟩, -⟩ := hans
    exact ⟨f, rfl, by simpa [Frame] using hf.1.1, by simpa using hf.1.2, by simpa using hf.2⟩
  · intro new ans hl
    have hans := hsuffix hl
    rw [List.append_nil] at hans
    simp only [suppliedBy, Bool.and_eq_true] at hans
    exact hans.1

/-- The allocators do not fail in a part of the log either. -/
theorem Supplied.part {used : List Nat} {old old' log log' : List Event} (h : Supplied used old log) (hold : old <:+ old')
    (hlog : log' <:+ log) : Supplied used old' log' := by
  obtain ⟨more, rfl⟩ := hold
  constructor
  · intro new ans hsuffix
    rw [← List.append_assoc] at hsuffix
    obtain ⟨f, hans, hframe, hused, hnew⟩ := h.page (hsuffix.trans hlog)
    exact ⟨f, hans, hframe, hused, fun hmem => hnew (List.mem_append_left _ hmem)⟩
  · intro new ans hsuffix
    rw [← List.append_assoc] at hsuffix
    exact h.record (hsuffix.trans hlog)

/-- The page of a table, as it is recorded. -/
def tablePage (f : Nat) : PaRegion := ⟨f, f + ptPageSize, ptEntry⟩

/-- What the enclave has recorded of its tables, and of the physical pages
merged so far. -/
structure Accounts (used : List Nat) (old : List Event) (info : MapInfo) (tables : List Nat) (merged : List PaRegion) :
    Prop where
  pts : info.enclave.pts = tables.reverse.map tablePage
  pages : Merged (info.enclave.allPages, info.enclave.pts ++ merged)
  frames : ∀ f ∈ tables, Frame f ∧ f ∉ used
  merged : ∀ pa ∈ merged, pa.Page ∧ pa.start ∈ used
  log : ∃ new, info.log = new ++ old ∧ ∀ f ∈ tables, .allocPages (some f) ∈ new

/-- What the enclave has recorded of its tables and of the physical pages
merged so far, over the tables `kept` and the ranges `stale` it had before. -/
structure Stock (kept stale : List PaRegion) (used : List Nat) (old : List Event) (info : MapInfo) (tables : List Nat)
    (merged : List PaRegion) : Prop where
  pts : info.enclave.pts = kept ++ tables.reverse.map tablePage
  pages : Merged (info.enclave.allPages, tables.map tablePage ++ merged ++ stale)
  frames : ∀ f ∈ tables, Frame f ∧ f ∉ used
  merged : ∀ pa ∈ merged, pa.Page ∧ pa.start ∈ used
  stale : ∀ f, Frame f → f ∉ used → Free stale (tablePage f)
  log : ∃ new, info.log = new ++ old ∧ ∀ f ∈ tables, .allocPages (some f) ∈ new

theorem add64_frame {f : Nat} (h : Frame f) : add64 f ptPageSize = f + ptPageSize := by
  have hf := h.2
  have hp : ptPageSize = 4096 := rfl
  rw [Enclave.add64]
  omega

theorem PaRegion.Page.lt {pa : PaRegion} (h : pa.Page) : pa.start < pa.end_ := by
  rw [h.2]
  exact Nat.lt_add_of_pos_right (by decide)

theorem tablePage_page {f : Nat} (h : Frame f) : (tablePage f).Page := ⟨h, rfl⟩

/-- Pages are apart unless they start together. -/
theorem PaRegion.Page.covers {p q : PaRegion} (hp : p.Page) (hq : q.Page) {a : Nat} (h : p.Covers a) (h' : q.Covers a) :
    p.start = q.start := by
  obtain ⟨⟨hp1, -⟩, hp2⟩ := hp
  obtain ⟨⟨hq1, -⟩, hq2⟩ := hq
  obtain ⟨h1, h2⟩ := h
  obtain ⟨h3, h4⟩ := h'
  have hs : ptPageSize = 4096 := rfl
  rw [hs] at hp1 hp2 hq1 hq2
  omega

theorem PaRegion.Page.free {p : PaRegion} {l : List PaRegion} (hp : p.Page) (hl : ∀ q ∈ l, q.Page)
    (hne : ∀ q ∈ l, q.start ≠ p.start) : Free l p :=
  fun q hq _ h => hne q hq ((hl q hq).covers hp h.1 h.2)

theorem PaRegion.Page.of_free {p : PaRegion} {l : List PaRegion} (hp : p.Page) (h : Free l p) :
    ∀ q ∈ l, q.Page → q.start ≠ p.start := by
  intro q hq hqp heq
  exact h q hq q.start ⟨⟨Nat.le_refl _, hqp.lt⟩, by rw [heq], heq ▸ hp.lt⟩

theorem free_append {l l' : List PaRegion} {region : PaRegion} : Free (l ++ l') region ↔ Free l region ∧ Free l' region := by
  simp only [Free, List.mem_append, or_imp, forall_and]

theorem Supplied.record_of_suffix {used : List Nat} {old log l : List Event} (hs : Supplied used old log) {ans : Bool}
    (hlog : (.kmalloc ans :: l) <:+ log) (hl : old <:+ l) : ans = true := by
  obtain ⟨new, rfl⟩ := hl
  exact hs.record hlog

section Stock

variable {kept stale merged : List PaRegion} {used : List Nat} {old : List Event} {info : MapInfo} {tables : List Nat}
  {m : Machine MapInfo}

/-- The allocator's answers, at a moment of the log. -/
theorem Stock.supplied_page (h : Stock kept stale used old info tables merged) {log : List Event}
    (hs : Supplied used old log) {ans : Option Nat} (hlog : (.allocPages ans :: info.log) <:+ log) :
    ∃ f, ans = some f ∧ Frame f ∧ f ∉ used ∧ f ∉ tables := by
  obtain ⟨new, hnew, hall⟩ := h.log
  rw [hnew] at hlog
  obtain ⟨f, hans, hframe, hused, hf⟩ := hs.page hlog
  exact ⟨f, hans, hframe, hused, fun hmem => hf (hall f hmem)⟩

theorem Stock.free_table (h : Stock kept stale used old info tables merged) {f : Nat} (hf : Frame f) (hused : f ∉ used)
    (hnew : f ∉ tables) : Free (tables.map tablePage ++ merged ++ stale) (tablePage f) := by
  refine free_append.2 ⟨free_append.2 ⟨?_, ?_⟩, h.stale f hf hused⟩
  · refine (tablePage_page hf).free (fun q hq => ?_) fun q hq heq => ?_
    · obtain ⟨t, ht, rfl⟩ := List.mem_map.1 hq
      exact tablePage_page (h.frames t ht).1
    · obtain ⟨t, ht, rfl⟩ := List.mem_map.1 hq
      have heq : t = f := heq
      exact hnew (heq ▸ ht)
  · refine (tablePage_page hf).free (fun q hq => (h.merged q hq).1) fun q hq heq => ?_
    have heq : q.start = f := heq
    exact hused (heq ▸ (h.merged q hq).2)

/-- **A table is allocated**, zeroed and recorded. -/
theorem Stock.allocate {env : Env} {final : List Event} (h : Stock kept stale used old m.extras tables merged)
    (hs : Supplied used old final) (hlog : (allocate env m).2.extras.log <:+ final) :
    ∃ f allPages, f ∉ tables ∧
      Enclave.allocate env m = (some f, allocated f (m.extras.enclave.pts ++ [tablePage f]) allPages
        [.kmalloc true, .kmalloc true, .allocPages (some f)] m) ∧
      Stock kept stale used old (allocated f (m.extras.enclave.pts ++ [tablePage f]) allPages
        [.kmalloc true, .kmalloc true, .allocPages (some f)] m).extras (f :: tables) merged := by
  obtain ⟨new, hnew, hall⟩ := h.log
  rcases allocate_cases env m with ⟨ans, heq, hans⟩ | ⟨page, ks, allPages, heq, halign, hks⟩ |
    ⟨page, allPages, heq, halign, hadd⟩
  · rw [heq] at hlog
    obtain ⟨f, rfl, hframe, -⟩ := h.supplied_page hs hlog
    exact absurd hframe.1 (hans f rfl)
  · -- A page is given back only if a record is missing, or its range is not free.
    rw [heq] at hlog
    have hlog : (.freePages page :: ks ++ .allocPages (some page) :: m.extras.log) <:+ final := by
      simpa [allocated] using hlog
    obtain ⟨f, hf, hframe, hused, hfresh⟩ := h.supplied_page hs ((List.suffix_append ..).trans hlog)
    obtain rfl := Option.some.inj hf
    have hmalloc : ∀ ok l, ks = .kmalloc ok :: l → ok = true := by
      rintro ok l rfl
      have hold : old <:+ l ++ .allocPages (some page) :: m.extras.log := by
        rw [hnew]
        exact ⟨l ++ .allocPages (some page) :: new, by simp⟩
      exact hs.record_of_suffix ((List.suffix_cons ..).trans hlog) hold
    rcases hks with ⟨-, rfl | rfl⟩ | ⟨rfl, ret, hret, hadd⟩
    · cases hmalloc false _ rfl
    · cases hmalloc false _ rfl
    · rw [add64_frame hframe] at hadd
      rcases h.pages.addMergeGlobal_eq (tablePage_page hframe).lt ret allPages hadd with ⟨rfl, -⟩ | ⟨-, hmet, -⟩
      · exact absurd rfl hret
      · exact absurd (h.free_table hframe hused hfresh) hmet
  · rw [heq] at hlog
    have hlog : (.kmalloc true :: .kmalloc true :: .allocPages (some page) :: m.extras.log) <:+ final := hlog
    obtain ⟨f, hf, hframe, hused, hfresh⟩ := h.supplied_page hs
      ((List.suffix_cons ..).trans ((List.suffix_cons ..).trans hlog))
    obtain rfl := Option.some.inj hf
    rw [add64_frame hframe] at hadd heq
    rcases h.pages.addMergeGlobal_eq (tablePage_page hframe).lt 0 allPages hadd with ⟨-, -, hmerged⟩ | ⟨h0, -⟩
    · refine ⟨page, allPages, hfresh, heq, ?_, ?_, ?_, h.merged, h.stale, ?_⟩
      · simp [allocated, h.pts]
      · exact hmerged.congr fun r => by simp [tablePage]
      · exact List.forall_mem_cons.2 ⟨⟨hframe, hused⟩, h.frames⟩
      · refine ⟨.kmalloc true :: .kmalloc true :: .allocPages (some page) :: new, by simp [allocated, hnew], ?_⟩
        intro t ht
        rcases List.mem_cons.1 ht with rfl | ht
        · simp
        · simp [hall t ht]
    · cases h0

/-- **A page is merged**, if it is free. -/
theorem Stock.merge (h : Stock kept stale used old m.extras tables merged) {curr : PaRegion} (hcurr : curr.Page)
    (hused : curr.start ∈ used) {ret : Int} {allPages : List PaRegion}
    (hadd : addMergeGlobal m.extras.enclave.allPages curr = (ret, allPages)) :
    (ret = 0 ∧ (∀ q ∈ merged, q.start ≠ curr.start) ∧
      Stock kept stale used old (mergedInto allPages m).extras tables (merged ++ [curr])) ∨
    (ret = -1 ∧ ¬ Free (tables.map tablePage ++ merged ++ stale) curr) := by
  obtain ⟨new, hnew, hall⟩ := h.log
  rcases h.pages.addMergeGlobal_eq hcurr.lt ret allPages hadd with ⟨hret, hfree, hmerged⟩ | ⟨hret, hmet, -⟩
  · refine .inl ⟨hret, fun q hq => ?_, h.pts, ?_, h.frames, ?_, h.stale, .kmalloc true :: new, ?_,
      fun f hf => List.mem_cons_of_mem _ (hall f hf)⟩
    · exact hcurr.of_free hfree q (List.mem_append_left _ (List.mem_append_right _ hq)) (h.merged q hq).1
    · refine hmerged.congr fun r => ?_
      simp only [List.mem_cons, List.mem_append, List.not_mem_nil, or_false]
      tauto
    · intro pa hpa
      rcases List.mem_append.1 hpa with hpa | hpa
      · exact h.merged pa hpa
      · obtain rfl := List.mem_singleton.1 hpa
        exact ⟨hcurr, hused⟩
    · simp [mergedInto, record, onEnclave, hnew]
  · exact .inr ⟨hret, hmet⟩

end Stock

/-- The accounts of an enclave that had nothing recorded. -/
theorem accounts_iff {used : List Nat} {old : List Event} {info : MapInfo} {tables : List Nat} {merged : List PaRegion} :
    Accounts used old info tables merged ↔ Stock [] [] used old info tables merged := by
  have hset : info.enclave.pts = tables.reverse.map tablePage →
      ∀ r, r ∈ info.enclave.pts ++ merged ↔ r ∈ tables.map tablePage ++ merged ++ [] := by
    intro hpts r
    rw [hpts]
    simp
  constructor
  · exact fun h => ⟨h.pts, h.pages.congr (hset h.pts), h.frames, h.merged, fun _ _ _ => by simp [Free], h.log⟩
  · exact fun h => ⟨h.pts, h.pages.congr fun r => (hset h.pts r).symm, h.frames, h.merged, h.log⟩

section Accounts

variable {used : List Nat} {old : List Event} {tables : List Nat} {merged : List PaRegion} {m : Machine MapInfo}

/-- **A free page is merged.** -/
theorem Accounts.merge (h : Accounts used old m.extras tables merged) {curr : PaRegion} (hcurr : curr.Page)
    (hused : curr.start ∈ used) {ret : Int} {allPages : List PaRegion}
    (hadd : addMergeGlobal m.extras.enclave.allPages curr = (ret, allPages)) :
    (ret = 0 ∧ (∀ q ∈ merged, q.start ≠ curr.start) ∧
      Accounts used old (mergedInto allPages m).extras tables (merged ++ [curr])) ∨
    (ret = -1 ∧ ∃ q ∈ merged, q.start = curr.start) := by
  rcases (accounts_iff.1 h).merge hcurr hused hadd with ⟨hret, hfresh, hstock⟩ | ⟨hret, hmet⟩
  · exact .inl ⟨hret, hfresh, accounts_iff.2 hstock⟩
  · refine .inr ⟨hret, ?_⟩
    by_contra hnone
    refine hmet (free_append.2 ⟨free_append.2 ⟨?_, ?_⟩, fun _ h => nomatch h⟩)
    · refine hcurr.free (fun q hq => ?_) fun q hq heq => ?_
      · obtain ⟨t, ht, rfl⟩ := List.mem_map.1 hq
        exact tablePage_page (h.frames t ht).1
      · obtain ⟨t, ht, rfl⟩ := List.mem_map.1 hq
        have heq : t = curr.start := heq
        exact (h.frames t ht).2 (heq ▸ hused)
    · exact hcurr.free (fun q hq => (h.merged q hq).1) fun q hq heq => hnone ⟨q, hq, heq⟩

/-- **A table is allocated**, zeroed and recorded. -/
theorem allocate_supplied {env : Env} {final : List Event}
    (h : Accounts used old m.extras tables merged) (hs : Supplied used old final)
    (hlog : (allocate env m).2.extras.log <:+ final) :
    ∃ f allPages, f ∉ tables ∧
      allocate env m = (some f, allocated f (m.extras.enclave.pts ++ [tablePage f]) allPages
        [.kmalloc true, .kmalloc true, .allocPages (some f)] m) ∧
      Accounts used old (allocated f (m.extras.enclave.pts ++ [tablePage f]) allPages
        [.kmalloc true, .kmalloc true, .allocPages (some f)] m).extras (f :: tables) merged := by
  obtain ⟨f, allPages, hf, heq, hstock⟩ := (accounts_iff.1 h).allocate hs hlog
  exact ⟨f, allPages, hf, heq, accounts_iff.2 hstock⟩

end Accounts

/-! ## The entries of a region -/

/-- The flags of an entry that points to a table. -/
abbrev tableFlags : Nat := ptPP ||| ptRW ||| ptACC ||| ptUSR ||| ptDIRT

/-- While a region is mapped: the tree so far, the physical pages that are
left, and the accounts. -/
structure Mapping (used : List Nat) (old : List Event) (merged : List PaRegion) (reg : Region) (s : Shape Nat)
    (leaf : Nat → Nat) (rest : List PaRegion) (mem : Nat → Nat → Nat) (info : MapInfo) : Prop where
  region : info.region = some reg
  flags : info.intermedFlags = tableFlags
  paRegion : info.paRegion = rest
  pages : ∀ pa ∈ rest, pa.Page
  accounts : Accounts used old info s.tables merged
  tree : Tree mem info.enclave.cr3 s leaf

/-- The same, over what the enclave had recorded before. -/
structure Progress (kept stale : List PaRegion) (used : List Nat) (old : List Event) (merged : List PaRegion) (reg : Region)
    (s : Shape Nat) (leaf : Nat → Nat) (rest : List PaRegion) (mem : Nat → Nat → Nat) (info : MapInfo) : Prop where
  region : info.region = some reg
  flags : info.intermedFlags = tableFlags
  paRegion : info.paRegion = rest
  pages : ∀ pa ∈ rest, pa.Page
  stock : Stock kept stale used old info s.tables merged
  tree : Tree mem info.enclave.cr3 s leaf

theorem mapping_iff {used : List Nat} {old : List Event} {merged : List PaRegion} {reg : Region} {s : Shape Nat}
    {leaf : Nat → Nat} {rest : List PaRegion} {mem : Nat → Nat → Nat} {info : MapInfo} :
    Mapping used old merged reg s leaf rest mem info ↔ Progress [] [] used old merged reg s leaf rest mem info :=
  ⟨fun h => ⟨h.region, h.flags, h.paRegion, h.pages, accounts_iff.1 h.accounts, h.tree⟩,
    fun h => ⟨h.region, h.flags, h.paRegion, h.pages, accounts_iff.2 h.stock, h.tree⟩⟩

theorem PaRegion.Page.size {pa : PaRegion} (h : pa.Page) : sub64 pa.end_ pa.start = ptPageSize := by
  obtain ⟨⟨-, hlt⟩, hend⟩ := h
  have hs : ptPageSize = 4096 := rfl
  rw [sub64, hend, hs]
  omega

section Mapping

variable {kept stale : List PaRegion} {used : List Nat} {old : List Event} {merged : List PaRegion} {reg : Region} {s : Shape Nat}
  {leaf : Nat → Nat} {pa : PaRegion} {rest : List PaRegion} {m : Machine MapInfo} {env : Env} {l q t i : Nat}

theorem handleEntry_present (env : Env) (hp : Present (m.mem t i)) :
    (mapperProfile env).handleEntry t i l m = (.ret .descend, m) := by
  have hhow : (mapperProfile env).how t i l m = (.ret .walk, m) := if_neg (not_not.2 hp)
  rw [Profile.handleEntry, hhow]

/-- An absent entry is left to the mapper. -/
theorem handleEntry_absent (hp : ¬ Present (m.mem t i)) (hl : l ≤ ptPML4) {m' : Machine MapInfo}
    (hmap : defaultMapper env t i l m = (.ret .walk, m')) :
    (mapperProfile env).handleEntry t i l m = (.ret .descend, m') := by
  have hhow : (mapperProfile env).how t i l m = (.ret .map, m) := if_pos hp
  have hmapper : (mapperProfile env).mappers l = some (defaultMapper env) := if_pos hl
  rw [Profile.handleEntry, hhow]
  dsimp only
  rw [Profile.mapEntry, hmapper]
  dsimp only
  rw [hmap]

theorem normalPage_eq : normalPage env t i m = (.ret .walk,
    (allocate env m).2.store t i ((allocate env m).1.getD 0 ||| (allocate env m).2.extras.intermedFlags)) := rfl

theorem page_not_huge (l : Nat) :
    ¬ ((l = ptPGD ∧ ptPageSize = ptPGDPageSize) ∨ (l = ptPMD ∧ ptPageSize = ptPMDPageSize)) := by
  rintro (⟨-, h⟩ | ⟨-, h⟩) <;> exact absurd h (by decide)

/-- A page is no huge page, so the mapper puts a table above the leaves. -/
theorem handleEntry_table (env : Env) (hp : ¬ Present (m.mem t i)) (hl : l + 1 ≤ ptPML4) (hpas : m.extras.paRegion = pa :: rest)
    (hregion : m.extras.region = some reg) (hreg : reg.dangling = false) (hsize : sub64 pa.end_ pa.start = ptPageSize) :
    (mapperProfile env).handleEntry t i (l + 1) m = (.ret .descend,
      (allocate env m).2.store t i ((allocate env m).1.getD 0 ||| (allocate env m).2.extras.intermedFlags)) := by
  refine handleEntry_absent hp hl ?_
  have hlevel : l + 1 = ptPGD ∨ l + 1 = ptPMD ∨ l + 1 = ptPML4 := by
    have h3 : ptPML4 = 3 := rfl
    have h2 : ptPGD = 2 := rfl
    have h1 : ptPMD = 1 := rfl
    omega
  rw [defaultMapper, hpas]
  dsimp only
  rw [if_neg (by simp [hregion, hreg]), hsize, if_neg (page_not_huge _), if_pos hlevel, normalPage_eq]

/-- And at a leaf, the physical page. -/
theorem handleEntry_leaf (env : Env) (hp : ¬ Present (m.mem t i)) (hpas : m.extras.paRegion = pa :: rest)
    (hregion : m.extras.region = some reg) (hreg : reg.dangling = false) (hsize : sub64 pa.end_ pa.start = ptPageSize) :
    (mapperProfile env).handleEntry t i 0 m = (.ret .descend,
      { m.store t i (pageEntry pa reg.flags false) with extras := { m.extras with paRegion := rest } }) := by
  refine handleEntry_absent hp (Nat.zero_le _) ?_
  rw [defaultMapper, hpas]
  dsimp only
  rw [if_neg (by simp [hregion, hreg]), hsize, if_neg (page_not_huge _), if_neg (by decide), if_neg (by decide)]
  unfold entryPage
  split
  next hnone =>
    rw [hregion] at hnone
    cases hnone
  next hsome =>
    rw [hregion] at hsome
    cases hsome
    rfl

/-- Nor is it filled without a physical page, or for a region whose pages were
freed. -/
theorem handleEntry_stuck (env : Env) (hregion : m.extras.region = some reg) (hpas : m.extras.paRegion = rest)
    (hp : ¬ Present (m.mem t i)) (hl : l ≤ ptPML4) (h : rest = [] ∨ reg.dangling = true) :
    ∃ o, (mapperProfile env).handleEntry t i l m = (o, m) ∧ o ≠ .ret .descend ∧ o ≠ .ret .next := by
  have hhow : (mapperProfile env).how t i l m = (.ret .map, m) := if_pos hp
  have hmapper : (mapperProfile env).mappers l = some (defaultMapper env) := if_pos hl
  have hmap : defaultMapper env t i l m = (.ret .error, m) ∨ defaultMapper env t i l m = (.freed, m) := by
    unfold defaultMapper
    rw [hpas, hregion]
    cases rest with
    | nil => exact .inl rfl
    | cons pa rest =>
      right
      have hd : reg.dangling = true := h.resolve_left (by simp)
      simp [hd]
  unfold Profile.handleEntry
  rw [hhow]
  dsimp only
  unfold Profile.mapEntry
  rw [hmapper]
  rcases hmap with hmap | hmap
  · dsimp only
    rw [hmap]
    exact ⟨_, rfl, by simp, by simp⟩
  · dsimp only
    rw [hmap]
    exact ⟨_, rfl, by simp, by simp⟩

/-- **What becomes of an entry** while pages of 4 KiB are mapped. -/
theorem handleEntry_cases (env : Env) (hregion : m.extras.region = some reg) (hpages : ∀ pa ∈ m.extras.paRegion, pa.Page)
    (hl : l ≤ ptPML4) :
    (Present (m.mem t i) ∧ (mapperProfile env).handleEntry t i l m = (.ret .descend, m)) ∨
    ¬ Present (m.mem t i) ∧
      ((∃ o, (mapperProfile env).handleEntry t i l m = (o, m) ∧ o ≠ .ret .descend ∧ o ≠ .ret .next) ∨
        (∃ pa rest, l = 0 ∧ m.extras.paRegion = pa :: rest ∧ (mapperProfile env).handleEntry t i l m = (.ret .descend,
          { m.store t i (pageEntry pa reg.flags false) with extras := { m.extras with paRegion := rest } })) ∨
        (∃ k, l = k + 1 ∧ (mapperProfile env).handleEntry t i l m = (.ret .descend,
          (allocate env m).2.store t i ((allocate env m).1.getD 0 ||| (allocate env m).2.extras.intermedFlags)))) := by
  by_cases hp : Present (m.mem t i)
  · exact .inl ⟨hp, handleEntry_present env hp⟩
  refine .inr ⟨hp, ?_⟩
  by_cases hstuck : m.extras.paRegion = [] ∨ reg.dangling = true
  · exact .inl (handleEntry_stuck env hregion rfl hp hl hstuck)
  rw [not_or, Bool.not_eq_true] at hstuck
  obtain ⟨hne, hfresh⟩ := hstuck
  obtain ⟨pa, rest, hpas⟩ := List.exists_cons_of_ne_nil hne
  have hsize := (hpages pa (by simp [hpas])).size
  cases l with
  | zero => exact .inr (.inl ⟨pa, rest, rfl, hpas, handleEntry_leaf env hp hpas hregion hfresh hsize⟩)
  | succ k => exact .inr (.inr ⟨k, rfl, handleEntry_table env hp hl hpas hregion hfresh hsize⟩)

/-- **An absent entry above the leaves** gets a new table. -/
theorem Progress.grow (env : Env) (h : Progress kept stale used old merged reg s leaf (pa :: rest) m.mem m.extras) (hreg : reg.dangling = false)
    {final : List Event} (hs : Supplied used old final) (ht : s.At (l + 1) q t) (hi : i < 512)
    (hp : ¬ Present (m.mem t i))
    (hlog : ((mapperProfile env).handleEntry t i (l + 1) m).2.extras.log <:+ final) :
    ∃ f m', (mapperProfile env).handleEntry t i (l + 1) m = (.ret .descend, m') ∧ f ∉ s.tables ∧
      x86_64Next (m'.mem t i) (l + 1) = f ∧
      Progress kept stale used old merged reg (s.grow f l (q * 512 + i)) leaf (pa :: rest) m'.mem m'.extras := by
  have hentry := handleEntry_table env hp (h.tree.fits.level ht) h.paRegion h.region hreg
    (h.pages pa (List.mem_cons_self ..)).size
  rw [hentry] at hlog
  have hlog : (allocate env m).2.extras.log <:+ final := hlog
  obtain ⟨f, allPages, hf, heq, hstock⟩ := h.stock.allocate hs hlog
  have hframe : Frame f := (hstock.frames f (List.mem_cons_self ..)).1
  have htf : t ≠ f := fun heq => hf (heq ▸ ht.1)
  have hword : (((allocated f (m.extras.enclave.pts ++ [tablePage f]) allPages
      [.kmalloc true, .kmalloc true, .allocPages (some f)] m).store t i (f ||| tableFlags)).mem t i) = f ||| tableFlags := by
    simp [Machine.store]
  rw [hentry, heq]
  refine ⟨f, _, rfl, hf, ?_, h.region, h.flags, h.paRegion, h.pages, hstock, ?_⟩
  · show x86_64Next (((allocated _ _ _ _ _).store t i (f ||| m.extras.intermedFlags)).mem t i) _ = f
    rw [h.flags, hword]
    exact hframe.next (by decide) _
  · refine h.tree.grow ht hi hp hf hframe (b := tableFlags) (by decide) (by decide) (by decide) ?_ ?_ ?_
    · show ((allocated _ _ _ _ _).store t i (f ||| m.extras.intermedFlags)).mem t i = _
      rw [h.flags, hword]
    · intro j _
      simp [Machine.store, allocated, Machine.clear, htf.symm]
    · intro t' j htf' hslot
      have hslot : ¬ (t' = t ∧ j = i) := fun heq => hslot heq.1 heq.2
      simp [Machine.store, allocated, Machine.clear, htf', hslot]

/-- **An absent leaf** gets the next physical page. -/
theorem Progress.write (env : Env) (h : Progress kept stale used old merged reg s leaf (pa :: rest) m.mem m.extras) (hreg : reg.dangling = false)
    (ht : s.At 0 q t) (hi : i < 512) (hp : ¬ Present (m.mem t i)) :
    ∃ m', (mapperProfile env).handleEntry t i 0 m = (.ret .descend, m') ∧
      Progress kept stale used old merged reg s (Function.update leaf (q * 512 + i) (pageEntry pa reg.flags false)) rest
        m'.mem m'.extras := by
  refine ⟨_, handleEntry_leaf env hp h.paRegion h.region hreg (h.pages pa (List.mem_cons_self ..)).size, h.region, h.flags, rfl,
    fun p hp => h.pages p (List.mem_cons_of_mem _ hp), ?_, ?_⟩
  · exact ⟨h.stock.pts, h.stock.pages, h.stock.frames, h.stock.merged, h.stock.stale, h.stock.log⟩
  · refine h.tree.write ht hi ?_ fun t' j hslot => ?_
    · simp [Machine.store]
    · have hslot : ¬ (t' = t ∧ j = i) := fun heq => hslot heq.1 heq.2
      simp [Machine.store, hslot]

theorem Mapping.grow (env : Env) (h : Mapping used old merged reg s leaf (pa :: rest) m.mem m.extras) (hreg : reg.dangling = false)
    {final : List Event} (hs : Supplied used old final) (ht : s.At (l + 1) q t) (hi : i < 512)
    (hp : ¬ Present (m.mem t i))
    (hlog : ((mapperProfile env).handleEntry t i (l + 1) m).2.extras.log <:+ final) :
    ∃ f m', (mapperProfile env).handleEntry t i (l + 1) m = (.ret .descend, m') ∧ f ∉ s.tables ∧
      x86_64Next (m'.mem t i) (l + 1) = f ∧
      Mapping used old merged reg (s.grow f l (q * 512 + i)) leaf (pa :: rest) m'.mem m'.extras := by
  obtain ⟨f, m', heq, hf, hnext, hprogress⟩ := (mapping_iff.1 h).grow env hreg hs ht hi hp hlog
  exact ⟨f, m', heq, hf, hnext, mapping_iff.2 hprogress⟩

theorem Mapping.write (env : Env) (h : Mapping used old merged reg s leaf (pa :: rest) m.mem m.extras) (hreg : reg.dangling = false)
    (ht : s.At 0 q t) (hi : i < 512) (hp : ¬ Present (m.mem t i)) :
    ∃ m', (mapperProfile env).handleEntry t i 0 m = (.ret .descend, m') ∧
      Mapping used old merged reg s (Function.update leaf (q * 512 + i) (pageEntry pa reg.flags false)) rest
        m'.mem m'.extras := by
  obtain ⟨m', heq, hprogress⟩ := (mapping_iff.1 h).write env hreg ht hi hp
  exact ⟨m', heq, mapping_iff.2 hprogress⟩

end Mapping

end Tyche.Enclave
