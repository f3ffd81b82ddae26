/-
The address space of an enclave (`build_enclave_cr3`): the tree it builds
maps the pages of the regions to the physical pages collected for them, in
order, and nothing else.
-/
import Tyche.Enclave.Mapping
import Tyche.Pts.Sweep

namespace Tyche.Enclave

open Tyche.Pts Tyche.Radix
open Tyche.Capa (ptEntry)

/-- The entry of a page of the region. -/
def Region.entryAt (r : Region) (n : Nat) : Nat :=
  pageEntry (r.pas.getD (n - r.start / ptPageSize) ⟨0, 0, 0⟩) r.flags false

/-- The page is of the region. -/
def Region.HasPage (r : Region) (n : Nat) : Prop := r.start / ptPageSize ≤ n ∧ n < r.end_ / ptPageSize

instance (r : Region) (n : Nat) : Decidable (r.HasPage n) := inferInstanceAs (Decidable (_ ∧ _))

/-- The leaves, once the pages of the region before `k` are mapped. -/
def filled (r : Region) (base : Nat → Nat) (k n : Nat) : Nat :=
  if r.start / ptPageSize ≤ n ∧ n < k then r.entryAt n else base n

/-- A region whose pages can be mapped, each to a physical page. -/
structure Region.Collected (r : Region) : Prop where
  aligned : r.start % ptPageSize = 0 ∧ r.end_ % ptPageSize = 0
  nonempty : r.start < r.end_
  low : r.end_ ≤ 2 ^ 47
  count : r.pas.length = (r.end_ - r.start) / ptPageSize
  pages : ∀ pa ∈ r.pas, pa.Page
  fresh : r.dangling = false

/-- Nothing is mapped before the first page. -/
theorem filled_start (r : Region) (base : Nat → Nat) : filled r base (r.start / ptPageSize) = base := by
  funext n
  rw [filled, if_neg (by omega)]

/-- The next page is mapped. -/
theorem filled_succ {r : Region} {base : Nat → Nat} {k : Nat} (hk : r.start / ptPageSize ≤ k) :
    filled r base (k + 1) = Function.update (filled r base k) k (r.entryAt k) := by
  funext n
  by_cases hn : n = k
  · subst hn
    rw [Function.update_self, filled, if_pos ⟨hk, Nat.lt_succ_self _⟩]
  · rw [Function.update_of_ne hn, filled, filled]
    have hiff : r.start / ptPageSize ≤ n ∧ n < k + 1 ↔ r.start / ptPageSize ≤ n ∧ n < k := by omega
    simp only [hiff]

theorem Region.Collected.length {r : Region} (h : r.Collected) :
    r.start / ptPageSize + r.pas.length = r.end_ / ptPageSize := by
  have hp : ptPageSize = 4096 := rfl
  have ha := h.aligned
  have hlt := h.nonempty
  rw [h.count]
  rw [hp] at ha ⊢
  omega

theorem pageEntry_ne_zero (pa : PaRegion) (flags : Nat) : pageEntry pa flags false ≠ 0 := by
  simp [pageEntry, Nat.or_eq_zero_iff]

theorem pagesBelow_aligned {a : Nat} (h : a % ptPageSize = 0) : pagesBelow a = a / ptPageSize := by
  have hp : ptPageSize = 4096 := rfl
  have ha : ptPageAlign = 4095 := rfl
  rw [hp] at h
  rw [pagesBelow, hp, ha]
  omega

theorem mapperProfile_geometry (env : Env) : (mapperProfile env).Geometry where
  nbLevels := rfl
  nbEntries := rfl
  masks := (@x86_64Profile_geometry MapInfo).masks
  shifts := (@x86_64Profile_geometry MapInfo).shifts

section Region

variable {used : List Nat} {old : List Event} {merged : List PaRegion} {r : Region} {base : Nat → Nat} {env : Env}
  {final : MapInfo}

/-- The pages of the region are mapped one after the other. -/
theorem mapper_sweeps (hr : r.Collected) (hbase : ∀ n, r.HasPage n → base n = 0) (hs : Supplied used old final.log) :
    (mapperProfile env).Sweeps Later final r.start r.end_ Shape.At fun s k m =>
      Mapping used old merged r s (filled r base k) (r.pas.drop (k - r.start / ptPageSize)) m.mem m.extras where
  reset h := h
  leaf := by
    intro s k t m o m' h ht hstart hk heq _
    have hlen := hr.length
    rw [pagesBelow_aligned hr.aligned.2] at hk
    have hi : k % 512 < 512 := Nat.mod_lt _ (by decide)
    -- The leaf is still absent.
    have hword : m.mem t (k % 512) = 0 := by
      rw [h.tree.leaves.word ht hi, layout_fanout, Nat.div_add_mod', filled, if_neg (by omega), hbase k ⟨hstart, hk⟩]
    have habsent : ¬ Present (m.mem t (k % 512)) := by
      rw [hword]
      exact not_present_zero
    have hleft : k - r.start / ptPageSize < r.pas.length := by omega
    rw [List.drop_eq_getElem_cons hleft] at h
    obtain ⟨m₁, heq₁, h₁⟩ := Mapping.write env (m := { m with currVa := max (k * ptPageSize) r.start }) h hr.fresh ht hi
      habsent
    rw [heq₁] at heq
    cases heq
    refine ⟨.inl rfl, s, fun h => h, ?_⟩
    have hentry : r.entryAt k = pageEntry r.pas[k - r.start / ptPageSize] r.flags false := by
      rw [Region.entryAt, List.getD_eq_getElem]
    rw [filled_succ hstart, hentry, Nat.succ_sub hstart]
    rwa [Nat.div_add_mod'] at h₁
  table := by
    intro s l k t m o m' h ht hstart hk heq hlater
    have hlen := hr.length
    rw [pagesBelow_aligned hr.aligned.2] at hk
    have hi : k / 512 ^ (l + 1) % 512 < 512 := Nat.mod_lt _ (by decide)
    have hslot : k / 512 ^ (l + 2) * 512 + k / 512 ^ (l + 1) % 512 = k / 512 ^ (l + 1) := by
      rw [pow_succ _ (l + 1), ← Nat.div_div_eq_div_mul, Nat.div_add_mod']
    refine .inl ?_
    by_cases hp : Present (m.mem t (k / 512 ^ (l + 1) % 512))
    · have hpresent := handleEntry_present env (l := l + 1)
        (m := { m with currVa := max (k * ptPageSize) r.start }) hp
      rw [hpresent] at heq
      cases heq
      refine ⟨rfl, s, fun h => h, ?_, h⟩
      have hat := h.tree.next ht hi hp (l + 1)
      rw [hslot] at hat
      exact hat
    · rw [List.drop_eq_getElem_cons (by omega)] at h
      obtain ⟨f, m₁, heq₁, hf, hnext, h₁⟩ := Mapping.grow env
        (m := { m with currVa := max (k * ptPageSize) r.start }) h hr.fresh hs ht hi hp (by rw [heq]; exact hlater.log)
      rw [heq₁] at heq
      cases heq
      rw [hslot] at h₁
      refine ⟨rfl, s.grow f l (k / 512 ^ (l + 1)), Shape.within_grow hf, ?_, ?_⟩
      · exact (Shape.grow_at hf).2 (.inr ⟨hnext, rfl, rfl⟩)
      · rw [List.drop_eq_getElem_cons (by omega)]
        exact h₁

/-- **A region is mapped.** -/
theorem mapRegion_maps (env : Env) (hr : r.Collected) (hbase : ∀ n, r.HasPage n → base n = 0) (hs : Supplied used old final.log)
    {s : Shape Nat} {m : Machine MapInfo} (h : Accounts used old m.extras s.tables merged)
    (htree : Tree m.mem m.extras.enclave.cr3 s base) (hfinal : Later (mapRegion env r m).2.extras final) :
    ∃ s', (mapRegion env r m).1 = .ret 0 ∧ Accounts used old (mapRegion env r m).2.extras s'.tables merged ∧
      Tree (mapRegion env r m).2.mem (mapRegion env r m).2.extras.enclave.cr3 s'
        fun n => if r.HasPage n then r.entryAt n else base n := by
  have hstart : Mapping used old merged r s (filled r base (r.start / ptPageSize)) (r.pas.drop (r.start / ptPageSize -
      r.start / ptPageSize)) m.mem (m.extras.setRegion r) := by
    rw [filled_start, Nat.sub_self, List.drop_zero]
    exact ⟨rfl, rfl, rfl, hr.pages, ⟨h.pts, h.pages, h.frames, h.merged, h.log⟩, htree⟩
  have hend : r.end_ ≤ 2 ^ 48 := Nat.le_trans hr.low (by decide)
  obtain ⟨hret, s', -, hmap⟩ := (mapper_sweeps hr hbase hs).ptWalkPageRange (mapperProfile_advances env)
    (mapperProfile_geometry env) hr.nonempty hend (m := { m with extras := m.extras.setRegion r }) htree.fits.atRoot hstart
    hfinal
  rw [pagesBelow_aligned hr.aligned.2] at hmap
  exact ⟨s', hret, hmap.accounts, hmap.tree⟩

/-- **The pages of a region are merged** with those of the enclave. -/
theorem mergePas_merges (env : Env) {tables : List Nat} {pas : List PaRegion} {m : Machine MapInfo} {log : List Event}
    (h : Accounts used old m.extras tables merged) (hs : Supplied used old log)
    (hpages : ∀ pa ∈ pas, pa.Page ∧ pa.start ∈ used) (hnodup : ((merged ++ pas).map (·.start)).Nodup)
    (hlog : (mergePas env pas m).2.extras.log <:+ log) :
    (mergePas env pas m).1 = 0 ∧ Accounts used old (mergePas env pas m).2.extras tables (merged ++ pas) := by
  induction pas generalizing m merged with
  | nil => exact ⟨rfl, by simpa [mergePas] using h⟩
  | cons curr rest ih =>
    obtain ⟨hcurr, hcurrUsed⟩ := hpages curr (List.mem_cons_self ..)
    obtain ⟨new, hnew, -⟩ := h.log
    rcases mergePas_cons env curr rest m with heq | ⟨ret, allPages, hadd, hcase⟩
    · rw [heq] at hlog
      cases hs.record_of_suffix hlog ⟨new, hnew.symm⟩
    rcases h.merge hcurr hcurrUsed hadd with ⟨hret, -, hacc⟩ | ⟨-, q, hq, heq⟩
    · obtain ⟨-, heq⟩ := hcase.resolve_left fun hne => hne.1 hret
      rw [heq] at hlog ⊢
      have hnext := ih hacc (fun pa hpa => hpages pa (List.mem_cons_of_mem _ hpa)) (by simpa using hnodup) hlog
      rwa [List.append_assoc, List.singleton_append] at hnext
    · rw [List.map_append, List.nodup_append] at hnodup
      exact absurd heq (hnodup.2.2 _ (List.mem_map_of_mem hq) _ (List.mem_map_of_mem (List.mem_cons_self ..)))

/-- The leaves of an address space with these regions, over other leaves. -/
def space (base : Nat → Nat) (regions : List Region) (n : Nat) : Nat :=
  ((regions.find? fun r => r.HasPage n).map (·.entryAt n)).getD (base n)

theorem space_of_none {regions : List Region} {n : Nat} (h : ∀ r ∈ regions, ¬ r.HasPage n) : space base regions n = base n := by
  have hfind : regions.find? (fun q => q.HasPage n) = none := by
    rw [List.find?_eq_none]
    exact fun q hq => by simpa using h q hq
  rw [space, hfind]
  rfl

theorem space_cons {regions : List Region} (hdisjoint : ∀ q ∈ regions, ∀ n, ¬ (r.HasPage n ∧ q.HasPage n)) :
    space (fun n => if r.HasPage n then r.entryAt n else base n) regions = space base (r :: regions) := by
  funext n
  by_cases hr : r.HasPage n
  · rw [space_of_none fun q hq hqn => hdisjoint q hq n ⟨hr, hqn⟩]
    simp [space, hr]
  · simp [space, hr]

/-- A page is mapped by the region that has it. -/
theorem space_of_mem {regions : List Region} (hdisjoint : regions.Pairwise fun p q => ∀ n, ¬ (p.HasPage n ∧ q.HasPage n))
    (hr : r ∈ regions) {n : Nat} (hn : r.HasPage n) : space base regions n = r.entryAt n := by
  have hfind : regions.find? (fun q => q.HasPage n) = some r := by
    induction regions with
    | nil => cases hr
    | cons q regions ih =>
      rw [List.pairwise_cons] at hdisjoint
      rcases List.mem_cons.1 hr with rfl | hr
      · exact List.find?_cons_of_pos (by simpa using hn)
      · rw [List.find?_cons_of_neg (by simpa using fun hq => hdisjoint.1 r hr n ⟨hq, hn⟩)]
        exact ih hdisjoint.2 hr
  rw [space, hfind, Option.map_some, Option.getD_some]

/-- **The regions are mapped**, and their pages merged. -/
theorem buildRegions_maps (env : Env) {regions : List Region} {s : Shape Nat} {m : Machine MapInfo}
    (hregions : ∀ r ∈ regions, r.Collected)
    (hdisjoint : regions.Pairwise fun p q => ∀ n, ¬ (p.HasPage n ∧ q.HasPage n))
    (hused : ∀ r ∈ regions, ∀ pa ∈ r.pas, pa.start ∈ used)
    (hnodup : ((merged ++ regions.flatMap (·.pas)).map (·.start)).Nodup)
    (hbase : ∀ r ∈ regions, ∀ n, r.HasPage n → base n = 0) (hs : Supplied used old final.log)
    (h : Accounts used old m.extras s.tables merged) (htree : Tree m.mem m.extras.enclave.cr3 s base)
    (hfinal : Later (buildRegions env regions m).2.extras final) :
    ∃ s', (buildRegions env regions m).1 = .ret 0 ∧
      Accounts used old (buildRegions env regions m).2.extras s'.tables (merged ++ regions.flatMap (·.pas)) ∧
      Tree (buildRegions env regions m).2.mem (buildRegions env regions m).2.extras.enclave.cr3 s'
        (space base regions) := by
  induction regions generalizing s m merged base with
  | nil => exact ⟨s, rfl, by simpa [buildRegions] using h, htree⟩
  | cons r regions ih =>
    have hr := hregions r (List.mem_cons_self ..)
    have hmapped := fun hlater => mapRegion_maps env hr (hbase r (List.mem_cons_self ..)) hs h htree hlater
    rcases buildRegions_cons env r regions m with ⟨o, m', heq, ho, -, h2⟩ |
      ⟨m', heq, ⟨hd, -⟩ | ⟨-, ret, m'', heq', hcase⟩⟩
    · rw [heq] at hmapped
      rw [h2] at hfinal
      obtain ⟨-, hret, -⟩ := hmapped hfinal
      exact absurd hret ho
    · rw [hr.fresh] at hd
      cases hd
    have hmergeLater : Later m''.extras final := by
      rcases hcase with ⟨-, h2⟩ | ⟨-, h2⟩
      · rwa [h2] at hfinal
      · rw [h2] at hfinal
        exact (buildRegions_later ..).trans hfinal
    have hmergeLater' := mergePas_later env r.pas m'
    have hmergeMem := mergePas_mem env r.pas m'
    rw [heq'] at hmergeLater' hmergeMem
    rw [heq] at hmapped
    obtain ⟨s', -, hacc, htree'⟩ := hmapped (hmergeLater'.trans hmergeLater)
    have hnodup' : ((merged ++ r.pas).map (·.start)).Nodup := by
      refine List.Nodup.sublist ?_ hnodup
      rw [List.flatMap_cons, ← List.append_assoc]
      exact (List.sublist_append_left ..).map _
    have hmerged := mergePas_merges env hacc hs
      (fun pa hpa => ⟨hr.pages pa hpa, hused r (List.mem_cons_self ..) pa hpa⟩) hnodup'
    rw [heq'] at hmerged
    obtain ⟨hret, hacc'⟩ := hmerged hmergeLater.log
    obtain ⟨-, h2⟩ := hcase.resolve_left fun hne => hne.1 hret
    have hcr3 : m''.extras.enclave.cr3 = m'.extras.enclave.cr3 := by rw [hmergeLater'.enclave]
    dsimp only at htree' hacc' hmergeMem
    rw [← hmergeMem, ← hcr3] at htree'
    rw [List.pairwise_cons] at hdisjoint
    have hbase' : ∀ q ∈ regions, ∀ n, q.HasPage n → (if r.HasPage n then r.entryAt n else base n) = 0 := by
      intro q hq n hn
      rw [if_neg fun hrn => hdisjoint.1 q hq n ⟨hrn, hn⟩]
      exact hbase q (List.mem_cons_of_mem _ hq) n hn
    rw [h2] at hfinal ⊢
    rw [← space_cons hdisjoint.1, List.flatMap_cons, ← List.append_assoc]
    exact ih (fun q hq => hregions q (List.mem_cons_of_mem _ hq)) hdisjoint.2
      (fun q hq => hused q (List.mem_cons_of_mem _ hq)) (by rwa [List.flatMap_cons, ← List.append_assoc] at hnodup) hbase'
      hacc' htree' hfinal

end Region

/-! ## The entries -/

/-- The bits of an entry that say what may be done with its page. -/
abbrev permissionMask : Nat := ptPP ||| ptRW ||| ptUSR ||| ptNX

theorem translateFlags_address (flags : Nat) : translateFlags flags &&& ptPhysPageMask = 0 := by
  unfold translateFlags
  split_ifs <;> decide

theorem translateFlags_permissions (flags : Nat) : translateFlags flags &&& permissionMask = translateFlags flags := by
  unfold translateFlags
  split_ifs <;> decide

theorem present_translateFlags {flags : Nat} : Present (translateFlags flags ||| 0x60) ↔ flags ≠ 0 := by
  unfold translateFlags
  by_cases h : flags = 0
  · simp only [h, ne_eq, not_true_eq_false, if_false, iff_false]
    split_ifs <;> decide
  · simp only [h, ne_eq, not_false_eq_true, if_true, iff_true]
    split_ifs <;> decide

theorem pageEntry_eq {pa : PaRegion} (h : pa.Page) (flags : Nat) :
    pageEntry pa flags false = pa.start ||| (translateFlags flags ||| 0x60) := by
  simp [pageEntry, h.1.and_mask, Nat.or_assoc]

/-- The entry has the address of the page. -/
theorem pageEntry_address {pa : PaRegion} (h : pa.Page) (flags : Nat) :
    pageEntry pa flags false &&& ptPhysPageMask = pa.start := by
  have hlow : 0x60 &&& ptPhysPageMask = 0 := by decide
  rw [pageEntry_eq h, Nat.and_or_distrib_right, Nat.and_or_distrib_right, h.1.and_mask, translateFlags_address, hlow]
  simp

/-- The entry has the permissions of the region. -/
theorem pageEntry_permissions {pa : PaRegion} (h : pa.Page) (flags : Nat) :
    pageEntry pa flags false &&& permissionMask = translateFlags flags := by
  have hlow : 0x60 &&& permissionMask = 0 := by decide
  have haddr : pa.start &&& permissionMask = 0 := by
    have hmask : ptPhysPageMask &&& permissionMask = 0 := by decide
    rw [← h.1.and_mask, Nat.and_assoc, hmask, Nat.and_zero]
  rw [pageEntry_eq h, Nat.and_or_distrib_right, Nat.and_or_distrib_right, haddr, translateFlags_permissions, hlow]
  simp

theorem pageEntry_present {pa : PaRegion} (h : pa.Page) {flags : Nat} :
    Present (pageEntry pa flags false) ↔ flags ≠ 0 := by
  rw [pageEntry_eq h, h.1.present, present_translateFlags]

/-! ## The whole address space -/

theorem Region.Collected.hasPage {r : Region} (h : r.Collected) {va : Nat} :
    r.HasPage (va / ptPageSize) ↔ r.start ≤ va ∧ va < r.end_ := by
  have hp : ptPageSize = 4096 := rfl
  have ha := h.aligned
  rw [Region.HasPage]
  rw [hp] at ha ⊢
  omega

/-- The root of the tree. -/
theorem root_supplied {used : List Nat} {final : List Event} {env : Env} {mem : Nat → Nat → Nat} {log : List Event}
    {encl : Encl} (hpts : encl.pts = []) (hall : encl.allPages = []) (hs : Supplied used log final)
    (hlog : (buildEnclaveCr3 env mem log encl).2.extras.log <:+ final) :
    ∃ f m, buildEnclaveCr3 env mem log encl = buildRegions env encl.regions m ∧ m.extras.enclave.cr3 = f ∧
      Accounts used log m.extras [f] [] ∧ Tree m.mem f ⟨[f], fun _ => (ptPML4, 0)⟩ fun _ => 0 := by
  have hacc : Accounts used log (building mem log encl).extras [] [] := by
    refine ⟨hpts, ?_, by simp, by simp, [], rfl, by simp⟩
    show Merged (encl.allPages, encl.pts ++ [])
    rw [hpts, hall]
    exact merged_nil
  obtain ⟨f, allPages, -, heq, hacc'⟩ := allocate_supplied hacc hs ((allocate_building_log env mem log encl).trans hlog)
  have hbuild := buildEnclaveCr3_eq env mem log encl
  rw [heq] at hbuild
  refine ⟨f, _, hbuild, rfl, ⟨hacc'.pts, hacc'.pages, hacc'.frames, hacc'.merged, hacc'.log⟩, ?_⟩
  refine Tree.of_root (hacc'.frames f (List.mem_cons_self ..)).1 fun i _ => ?_
  simp [rooted, onEnclave, allocated, Machine.clear]

/-- **The address space of an enclave.** With allocators that never fail, the
tree of an enclave maps every page of its regions to the physical page
collected for it, with the permissions of the region, and no other page. -/
theorem buildEnclaveCr3_builds (env : Env) (mem : Nat → Nat → Nat) (log : List Event) (encl : Encl)
    (hpts : encl.pts = []) (hall : encl.allPages = []) (hregions : ∀ r ∈ encl.regions, r.Collected)
    (hdisjoint : encl.regions.Pairwise fun p q => p.end_ ≤ q.start ∨ q.end_ ≤ p.start)
    (hframes : ((encl.regions.flatMap (·.pas)).map (·.start)).Nodup)
    (hs : Supplied ((encl.regions.flatMap (·.pas)).map (·.start)) log (buildEnclaveCr3 env mem log encl).2.extras.log) :
    let m := (buildEnclaveCr3 env mem log encl).2
    (buildEnclaveCr3 env mem log encl).1 = .ret 0 ∧
    (∀ r ∈ encl.regions, ∀ k < (r.end_ - r.start) / page, ∃ pa e, r.pas[k]? = some pa ∧
      leafEntry m.mem m.extras.enclave.cr3 (r.start + k * page) = some e ∧ e &&& ptPhysPageMask = pa.start ∧
      e &&& permissionMask = translateFlags r.flags ∧
      (r.flags ≠ 0 → pageWalk m.mem ptPML4 m.extras.enclave.cr3 (r.start + k * page) = some (ptPTE, e))) ∧
    ∀ va < 2 ^ 48, (∀ r ∈ encl.regions, ¬ (r.start ≤ va ∧ va < r.end_)) →
      pageWalk m.mem ptPML4 m.extras.enclave.cr3 va = none := by
  intro m
  obtain ⟨_, m₁, hbuild, hcr3, hacc, htree⟩ := root_supplied hpts hall hs List.suffix_rfl
  have hdisjointPages : encl.regions.Pairwise fun p q => ∀ n, ¬ (p.HasPage n ∧ q.HasPage n) := by
    refine hdisjoint.imp_of_mem fun {p q} hp hq hpq n hn => ?_
    have hps : ptPageSize = 4096 := rfl
    have ha := (hregions p hp).aligned
    have hb := (hregions q hq).aligned
    obtain ⟨⟨h1, h2⟩, h3, h4⟩ := hn
    rw [hps] at *
    omega
  subst hcr3
  have hnodup : ((([] : List PaRegion) ++ encl.regions.flatMap (·.pas)).map (·.start)).Nodup := hframes
  obtain ⟨s, hret, -, htree⟩ := buildRegions_maps env hregions hdisjointPages
    (fun r hr pa hpa => List.mem_map_of_mem (List.mem_flatMap.2 ⟨r, hr, hpa⟩)) hnodup (fun _ _ _ _ => rfl)
    hs hacc htree (by rw [← hbuild]; exact Later.refl _)
  rw [← hbuild] at hret htree
  have htree : Tree m.mem m.extras.enclave.cr3 s (space (fun _ => 0) encl.regions) := htree
  refine ⟨hret, fun r hr k hk => ?_, fun va hva hnone => ?_⟩
  · have hc := hregions r hr
    have hp : ptPageSize = 4096 := rfl
    have hpage : page = 4096 := rfl
    have hcount := hc.count
    have ha := hc.aligned
    have hlow := hc.low
    have hne := hc.nonempty
    rw [hp] at ha hcount
    rw [hpage] at hk ⊢
    have hlen : k < r.pas.length := by omega
    have hva : r.start + k * 4096 < r.end_ := by omega
    have hn : (r.start + k * 4096) / ptPageSize = r.start / ptPageSize + k := by rw [hp]; omega
    have hmine : r.HasPage ((r.start + k * 4096) / ptPageSize) := hc.hasPage.2 ⟨by omega, hva⟩
    have hspace : space (fun _ => 0) encl.regions ((r.start + k * 4096) / ptPageSize) =
        pageEntry r.pas[k] r.flags false := by
      rw [space_of_mem hdisjointPages hr hmine, Region.entryAt, hn, Nat.add_sub_cancel_left, List.getD_eq_getElem]
    have hPage := hc.pages r.pas[k] (List.getElem_mem hlen)
    have hva' : r.start + k * 4096 < 2 ^ 48 := by omega
    refine ⟨r.pas[k], pageEntry r.pas[k] r.flags false, List.getElem?_eq_getElem hlen, ?_, pageEntry_address hPage _,
      pageEntry_permissions hPage _, fun hflags => ?_⟩
    · rw [← hspace]
      exact htree.leafEntry_eq hva' (by rw [hspace]; exact pageEntry_ne_zero _ _)
    · rw [htree.pageWalk_eq hva', hspace, if_pos ((pageEntry_present hPage).2 hflags)]
  · have hspace : space (fun _ => 0) encl.regions (va / ptPageSize) = 0 :=
      space_of_none fun q hq hqn => hnone q hq ((hregions q hq).hasPage.1 hqn)
    rw [htree.pageWalk_eq hva, hspace, if_neg not_present_zero]

/-- Allocators that hand out one page after the other, and a monitor that
accepts everything. -/
def plenty : Env where
  allocPages log := some (0x100000 + 0x1000 * log.countP fun e => e matches .allocPages _)
  kmalloc _ := true
  walkPageRange _ _ _ := []
  createDomain _ := some 1
  transferCapability _ _ _ _ _ := true
  sealDomain _ _ _ _ _ := some 0
  revokeRegion _ _ _ _ := true
  transition _ _ _ := (0, 0)

/-- Two regions that share tables, the first one across two of level 0. -/
def crossing : Encl where
  pid := 1
  handle := 0
  tycheHandle := 1
  regions := [
    { start := 0x1ff000, end_ := 0x201000, src := 0x8000, flags := teRead ||| teWrite, tpe := 5,
      pas := [⟨0x20000, 0x21000, 5⟩, ⟨0x10000, 0x11000, 5⟩] },
    { start := 0x201000, end_ := 0x202000, src := 0xa000, flags := teRead ||| teExec ||| teUser, tpe := 6,
      pas := [⟨0x30000, 0x31000, 6⟩] }]

theorem buildEnclaveCr3_builds_crossing :
    let m := (buildEnclaveCr3 plenty (fun _ _ => 0) [] crossing).2
    (buildEnclaveCr3 plenty (fun _ _ => 0) [] crossing).1 = .ret 0 ∧
    (∀ r ∈ crossing.regions, ∀ k < (r.end_ - r.start) / page, ∃ pa e, r.pas[k]? = some pa ∧
      leafEntry m.mem m.extras.enclave.cr3 (r.start + k * page) = some e ∧ e &&& ptPhysPageMask = pa.start ∧
      e &&& permissionMask = translateFlags r.flags ∧
      (r.flags ≠ 0 → pageWalk m.mem ptPML4 m.extras.enclave.cr3 (r.start + k * page) = some (ptPTE, e))) ∧
    ∀ va < 2 ^ 48, (∀ r ∈ crossing.regions, ¬ (r.start ≤ va ∧ va < r.end_)) →
      pageWalk m.mem ptPML4 m.extras.enclave.cr3 va = none := by
  have hregions : ∀ r ∈ crossing.regions, r.Collected :=
    List.forall_mem_cons.2 ⟨⟨by decide, by decide, by decide, by decide, by decide, rfl⟩,
      List.forall_mem_singleton.2 ⟨by decide, by decide, by decide, by decide, by decide, rfl⟩⟩
  exact buildEnclaveCr3_builds plenty (fun _ _ => 0) [] crossing rfl rfl hregions (by decide) (by decide)
    (Supplied.of_suppliedBy (by decide +kernel))

end Tyche.Enclave
