/-
Where the pages of an enclave are mapped, whatever its regions: they may be
out of order, overlap, lie above `2 ^ 48`, or have fewer physical pages than
they need. Then the walk may fail; if it does not, every page that is mapped
got a physical page of its own, with the permissions of its region.

Addresses are mapped modulo `2 ^ 48`: the walk of a range ignores what is
above, and ends where its range leaves the tables of the root.
-/
import Tyche.Enclave.AddressSpace

namespace Tyche.Enclave

open Tyche.Pts Tyche.Radix

/-- A page of the address space, with the physical page it was given and the
region it was given for. -/
structure Placement where
  page : Nat
  pa : PaRegion
  region : Region

/-- The entry of the page. -/
def Placement.entry (p : Placement) : Nat := pageEntry p.pa p.region.flags false

/-- The leaves, once these pages are mapped, the last one first. -/
def leavesOf (placed : List Placement) (n : Nat) : Nat :=
  ((placed.find? fun p => p.page == n).map (·.entry)).getD 0

/-- A page of the region is mapped there. -/
def Region.Reaches (r : Region) (n : Nat) : Prop :=
  ∃ k, r.start / ptPageSize ≤ k ∧ k < pagesBelow r.end_ ∧ k % 512 ^ 4 = n

/-- The pages are distinct, and were given physical pages in order. -/
structure Mapped (regions : List Region) (pas : List PaRegion) (placed : List Placement) : Prop where
  pages : (placed.map (·.page)).Nodup
  pas : (placed.reverse.map (·.pa)).Sublist pas
  regions : ∀ p ∈ placed, p.region ∈ regions ∧ p.region.Reaches p.page ∧ p.pa ∈ p.region.pas

/-- A region with a range of addresses that can be walked. -/
structure Region.Walkable (r : Region) : Prop where
  nonempty : r.start < r.end_
  bound : r.end_ ≤ 2 ^ 64
  flags : r.flags ≠ 0

section Placement

variable {placed : List Placement} {n : Nat}

theorem leavesOf_cons (p : Placement) (placed : List Placement) :
    leavesOf (p :: placed) = Function.update (leavesOf placed) p.page p.entry := by
  funext n
  by_cases h : n = p.page
  · subst h
    rw [Function.update_self, leavesOf, List.find?_cons_of_pos (by simp)]
    rfl
  · have hne : (p.page == n) = false := beq_eq_false_iff_ne.2 (Ne.symm h)
    rw [Function.update_of_ne h, leavesOf, List.find?_cons_of_neg (by simp [hne])]
    rfl

/-- A leaf is the entry of a page. -/
theorem leavesOf_ne_zero (h : leavesOf placed n ≠ 0) : ∃ p ∈ placed, p.page = n ∧ leavesOf placed n = p.entry := by
  rw [leavesOf] at h ⊢
  cases hfind : placed.find? fun p => p.page == n with
  | none =>
    rw [hfind] at h
    exact absurd rfl h
  | some p => exact ⟨p, List.mem_of_find?_eq_some hfind, by simpa using List.find?_some hfind, rfl⟩

theorem leavesOf_mem (hnodup : (placed.map (·.page)).Nodup) {p : Placement} (hp : p ∈ placed) :
    leavesOf placed p.page = p.entry := by
  induction placed with
  | nil => cases hp
  | cons q placed ih =>
    rw [List.map_cons, List.nodup_cons] at hnodup
    rw [leavesOf_cons]
    rcases List.mem_cons.1 hp with rfl | hp
    · exact Function.update_self ..
    · have hne : p.page ≠ q.page := fun heq => hnodup.1 (List.mem_map.2 ⟨p, hp, heq⟩)
      rw [Function.update_of_ne hne]
      exact ih hnodup.2 hp

/-- Where nothing is present no page is mapped. -/
theorem not_placed (hnodup : (placed.map (·.page)).Nodup) (hpages : ∀ p ∈ placed, p.pa.Page ∧ p.region.flags ≠ 0)
    (h : ¬ Present (leavesOf placed n)) : ∀ p ∈ placed, p.page ≠ n := by
  rintro p hp rfl
  rw [leavesOf_mem hnodup hp] at h
  exact h ((pageEntry_present (hpages p hp).1).2 (hpages p hp).2)

/-- One more page is mapped, to the next physical page. -/
theorem Mapped.cons {regions : List Region} {pas : List PaRegion} (h : Mapped regions pas placed) (p : Placement)
    (hpages : ∀ q ∈ regions, q.Walkable ∧ ∀ pa ∈ q.pas, pa.Page) (habsent : ¬ Present (leavesOf placed p.page))
    (hp : p.region ∈ regions ∧ p.region.Reaches p.page ∧ p.pa ∈ p.region.pas) :
    Mapped regions (pas ++ [p.pa]) (p :: placed) := by
  have hnew : ∀ q ∈ placed, q.page ≠ p.page := by
    refine not_placed h.pages (fun q hq => ?_) habsent
    obtain ⟨hregion, -, hpas⟩ := h.regions q hq
    exact ⟨(hpages q.region hregion).2 q.pa hpas, (hpages q.region hregion).1.flags⟩
  refine ⟨?_, ?_, List.forall_mem_cons.2 ⟨hp, h.regions⟩⟩
  · rw [List.map_cons, List.nodup_cons]
    refine ⟨fun hmem => ?_, h.pages⟩
    obtain ⟨q, hq, heq⟩ := List.mem_map.1 hmem
    exact hnew q hq heq
  · rw [List.reverse_cons, List.map_append]
    exact h.pas.append (List.Sublist.refl _)

end Placement

/-- The digits of a number below a power of the base. -/
theorem div_mod_digit (a M : Nat) : a / 512 % M * 512 + a % 512 = a % (512 * M) := by
  rw [Nat.mod_mul]
  omega

/-- The table of a page: its place is that of the page modulo `2 ^ 36`. -/
def Below (s : Shape Nat) (l q t : Nat) : Prop := s.At l (q % 512 ^ (3 - l)) t

section Region

variable {kept stale merged before : List PaRegion} {used : List Nat} {old : List Event} {regions : List Region}
  {r : Region} {env : Env} {final : MapInfo} {s : Shape Nat} {placed : List Placement} {m : Machine MapInfo}

/-- While the region is mapped: the tree has the pages placed so far. -/
structure MappingRegion (kept stale merged before : List PaRegion) (used : List Nat) (old : List Event) (regions : List Region)
    (r : Region) (s : Shape Nat) (m : Machine MapInfo) (placed : List Placement) (consumed rest : List PaRegion) : Prop where
  split : r.pas = consumed ++ rest
  progress : Progress kept stale used old merged r s (leavesOf placed) rest m.mem m.extras
  placed : Mapped regions (before ++ consumed) placed

/-- The region is mapped page by page, until the walk goes wrong. -/
theorem mapper_traverses (env : Env) (hr : r ∈ regions) (hwalk : ∀ q ∈ regions, q.Walkable ∧ ∀ pa ∈ q.pas, pa.Page)
    (hs : Supplied used old final.log) :
    (mapperProfile env).Traverses Later final r.start r.end_ Below
      (fun s _ m => ∃ placed consumed rest, MappingRegion kept stale merged before used old regions r s m placed consumed rest)
      True where
  reset := by
    rintro s _ m ⟨placed, consumed, rest, h⟩
    exact ⟨placed, consumed, rest, h.split, h.progress, h.placed⟩
  leaf := by
    rintro s k t m o m' ⟨placed, consumed, rest, h⟩ ht hstart hk heq -
    have hi : k % 512 < 512 := Nat.mod_lt _ (by decide)
    have hslot : k / 512 % 512 ^ 3 * 512 + k % 512 = k % 512 ^ 4 := div_mod_digit k (512 ^ 3)
    have hword : m.mem t (k % 512) = leavesOf placed (k % 512 ^ 4) := by
      rw [h.progress.tree.leaves.word ht hi, layout_fanout, hslot]
    by_cases hp : Present (m.mem t (k % 512))
    · rw [handleEntry_present env (l := 0) (m := { m with currVa := max (k * ptPageSize) r.start }) hp] at heq
      cases heq
      exact .inl ⟨.inl rfl, s, fun h => h, placed, consumed, rest, h.split, h.progress, h.placed⟩
    by_cases hstuck : rest = [] ∨ r.dangling = true
    · obtain ⟨o', heq', hnot⟩ := handleEntry_stuck env (l := 0) (m := { m with currVa := max (k * ptPageSize) r.start })
        h.progress.region h.progress.paRegion hp (Nat.zero_le _) hstuck
      obtain ⟨rfl, -⟩ := Prod.mk.inj (heq.symm.trans heq')
      exact .inr ⟨trivial, hnot⟩
    rw [not_or, Bool.not_eq_true] at hstuck
    obtain ⟨hne, hfresh⟩ := hstuck
    obtain ⟨pa, rest, rfl⟩ := List.exists_cons_of_ne_nil hne
    obtain ⟨m₁, heq₁, h₁⟩ := Progress.write env (m := { m with currVa := max (k * ptPageSize) r.start }) h.progress hfresh
      ht hi hp
    rw [heq₁] at heq
    cases heq
    have hleaf : Function.update (leavesOf placed) (k % 512 ^ 4) (pageEntry pa r.flags false) =
        leavesOf (⟨k % 512 ^ 4, pa, r⟩ :: placed) := (leavesOf_cons ⟨k % 512 ^ 4, pa, r⟩ placed).symm
    rw [hslot, hleaf] at h₁
    have hpaMem : pa ∈ r.pas := by simp [h.split]
    have hmapped := h.placed.cons ⟨k % 512 ^ 4, pa, r⟩ hwalk (by rwa [← hword]) ⟨hr, ⟨k, hstart, hk, rfl⟩, hpaMem⟩
    refine .inl ⟨.inl rfl, s, fun h => h, ⟨k % 512 ^ 4, pa, r⟩ :: placed, consumed ++ [pa], rest, ?_, h₁, ?_⟩
    · simp [h.split]
    · rwa [List.append_assoc] at hmapped
  table := by
    rintro s l k t m o m' ⟨placed, consumed, rest, h⟩ hl ht hstart hk heq hlater
    have hi : k / 512 ^ (l + 1) % 512 < 512 := Nat.mod_lt _ (by decide)
    have hlevel : l + 1 ≤ ptPML4 := Nat.le_of_lt_succ hl
    have hslot : k / 512 ^ (l + 2) % 512 ^ (3 - (l + 1)) * 512 + k / 512 ^ (l + 1) % 512 =
        k / 512 ^ (l + 1) % 512 ^ (3 - l) := by
      have hpow : 512 ^ (3 - l) = 512 * 512 ^ (3 - (l + 1)) := by
        rw [← pow_succ']
        congr 1
        omega
      rw [hpow, ← div_mod_digit, pow_succ _ (l + 1), ← Nat.div_div_eq_div_mul]
    by_cases hp : Present (m.mem t (k / 512 ^ (l + 1) % 512))
    · rw [handleEntry_present env (l := l + 1) (m := { m with currVa := max (k * ptPageSize) r.start }) hp] at heq
      cases heq
      have hat := h.progress.tree.next ht hi hp (l + 1)
      rw [hslot] at hat
      exact .inl ⟨rfl, s, fun h => h, hat, placed, consumed, rest, h.split, h.progress, h.placed⟩
    by_cases hstuck : rest = [] ∨ r.dangling = true
    · obtain ⟨o', heq', hnot⟩ := handleEntry_stuck env (l := l + 1) (m := { m with currVa := max (k * ptPageSize) r.start })
        h.progress.region h.progress.paRegion hp hlevel hstuck
      obtain ⟨rfl, -⟩ := Prod.mk.inj (heq.symm.trans heq')
      exact .inr (.inr ⟨trivial, hnot⟩)
    rw [not_or, Bool.not_eq_true] at hstuck
    obtain ⟨hne, hfresh⟩ := hstuck
    obtain ⟨pa, rest, rfl⟩ := List.exists_cons_of_ne_nil hne
    obtain ⟨f, m₁, heq₁, hf, hnext, h₁⟩ := Progress.grow env (m := { m with currVa := max (k * ptPageSize) r.start })
      h.progress hfresh hs ht hi hp (by rw [heq]; exact hlater.log)
    rw [heq₁] at heq
    cases heq
    rw [hslot] at h₁
    refine .inl ⟨rfl, s.grow f l (k / 512 ^ (l + 1) % 512 ^ (3 - l)), fun hat => Shape.within_grow hf hat, ?_, placed,
      consumed, pa :: rest, h.split, h₁, h.placed⟩
    exact (Shape.grow_at hf).2 (.inr ⟨hnext, rfl, rfl⟩)

/-- **A region is mapped**, if the walk of its addresses returns 0. -/
theorem mapRegion_places (env : Env) (hr : r ∈ regions) (hwalk : ∀ q ∈ regions, q.Walkable ∧ ∀ pa ∈ q.pas, pa.Page)
    (hs : Supplied used old final.log) (hstock : Stock kept stale used old m.extras s.tables merged)
    (htree : Tree m.mem m.extras.enclave.cr3 s (leavesOf placed)) (hplaced : Mapped regions before placed)
    (hfinal : Later (mapRegion env r m).2.extras final) (hret : (mapRegion env r m).1 = .ret 0) :
    ∃ s' placed', Stock kept stale used old (mapRegion env r m).2.extras s'.tables merged ∧
      Tree (mapRegion env r m).2.mem (mapRegion env r m).2.extras.enclave.cr3 s' (leavesOf placed') ∧
      Mapped regions (before ++ r.pas) placed' := by
  have hstart : MappingRegion kept stale merged before used old regions r s { m with extras := m.extras.setRegion r } placed []
      r.pas := by
    refine ⟨rfl, ⟨rfl, rfl, rfl, (hwalk r hr).2, ?_, htree⟩, by rwa [List.append_nil]⟩
    exact ⟨hstock.pts, hstock.pages, hstock.frames, hstock.merged, hstock.stale, hstock.log⟩
  have hroot : Below s ptPML4 (r.start / span (ptPML4 + 1)) m.extras.enclave.cr3 := by
    have hone : 512 ^ (3 - ptPML4) = 1 := by decide
    rw [Below, hone, Nat.mod_one]
    exact htree.fits.atRoot
  have hcloses := (mapper_traverses env hr hwalk hs).ptWalkPageRange (mapperProfile_advances env)
    (mapperProfile_geometry env) (hwalk r hr).1.nonempty (hwalk r hr).1.bound (m := { m with extras := m.extras.setRegion r })
    m.extras.enclave.cr3 hroot ⟨placed, [], r.pas, hstart⟩ hfinal
  obtain ⟨s', -, placed', consumed, rest, h⟩ := hcloses.post hret
  refine ⟨s', placed', h.progress.stock, h.progress.tree, h.placed.pages, ?_, h.placed.regions⟩
  refine h.placed.pas.trans (List.Sublist.append_left ?_ _)
  rw [h.split]
  exact List.sublist_append_left ..

/-- **The pages of a region are merged**, if the loop over them returns 0. -/
theorem mergePas_stock (env : Env) {tables : List Nat} {pas : List PaRegion}
    (h : Stock kept stale used old m.extras tables merged) (hpages : ∀ pa ∈ pas, pa.Page ∧ pa.start ∈ used)
    (hnodup : (merged.map (·.start)).Nodup) (hret : (mergePas env pas m).1 = 0) :
    Stock kept stale used old (mergePas env pas m).2.extras tables (merged ++ pas) ∧
      ((merged ++ pas).map (·.start)).Nodup := by
  induction pas generalizing m merged with
  | nil => exact ⟨by simpa [mergePas] using h, by simpa using hnodup⟩
  | cons curr rest ih =>
    obtain ⟨hcurr, hused⟩ := hpages curr (List.mem_cons_self ..)
    rcases mergePas_cons env curr rest m with heq | ⟨ret, allPages, hadd, ⟨-, heq⟩ | ⟨hzero, heq⟩⟩
    · rw [heq] at hret
      cases hret
    · rw [heq] at hret
      cases hret
    · rcases h.merge hcurr hused hadd with ⟨-, hfresh, hstock⟩ | ⟨hminus, -⟩
      · have hnodup' : ((merged ++ [curr]).map (·.start)).Nodup := by
          rw [List.map_append, List.nodup_append]
          refine ⟨hnodup, by simp, fun a ha b hb heq => ?_⟩
          obtain ⟨q, hq, rfl⟩ := List.mem_map.1 ha
          obtain rfl : b = curr.start := by simpa using hb
          exact hfresh q hq heq
        rw [heq] at hret ⊢
        have hrest := ih hstock (fun pa hpa => hpages pa (List.mem_cons_of_mem _ hpa)) hnodup' hret
        rwa [List.append_assoc, List.singleton_append] at hrest
      · rw [hzero] at hminus
        cases hminus

/-- **The regions are mapped**, and their pages merged, if the loop returns 0. -/
theorem buildRegions_places (env : Env) (todo : List Region) (htodo : ∀ q ∈ todo, q ∈ regions)
    (hwalk : ∀ q ∈ regions, q.Walkable ∧ ∀ pa ∈ q.pas, pa.Page) (hused : ∀ q ∈ regions, ∀ pa ∈ q.pas, pa.start ∈ used)
    (hs : Supplied used old final.log) (hstock : Stock kept stale used old m.extras s.tables merged)
    (htree : Tree m.mem m.extras.enclave.cr3 s (leavesOf placed)) (hplaced : Mapped regions merged placed)
    (hnodup : (merged.map (·.start)).Nodup) (hfinal : Later (buildRegions env todo m).2.extras final)
    (hret : (buildRegions env todo m).1 = .ret 0) :
    ∃ s' placed', Stock kept stale used old (buildRegions env todo m).2.extras s'.tables (merged ++ todo.flatMap (·.pas)) ∧
      Tree (buildRegions env todo m).2.mem (buildRegions env todo m).2.extras.enclave.cr3 s' (leavesOf placed') ∧
      Mapped regions (merged ++ todo.flatMap (·.pas)) placed' ∧
      ((merged ++ todo.flatMap (·.pas)).map (·.start)).Nodup := by
  induction todo generalizing s m merged placed with
  | nil =>
    rw [List.flatMap_nil, List.append_nil]
    exact ⟨s, placed, hstock, htree, hplaced, hnodup⟩
  | cons r todo ih =>
    have hr := htodo r (List.mem_cons_self ..)
    have hmapped := mapRegion_places env hr hwalk hs hstock htree hplaced
    rcases buildRegions_cons env r todo m with ⟨o, m', heq, ho, h1, h2⟩ | ⟨m', heq, ⟨-, -, h⟩ | ⟨-, ret, m'', heq', hcase⟩⟩
    · exact absurd hret h1
    · rw [h] at hret
      cases hret
    obtain ⟨-, h⟩ : ret = 0 ∧ buildRegions env (r :: todo) m = buildRegions env todo m'' := by
      refine hcase.resolve_left fun hfail => ?_
      rw [hfail.2] at hret
      cases hret
    have hzero : ret = 0 := by
      rcases hcase with ⟨hne, hfail⟩ | ⟨hzero, -⟩
      · rw [hfail] at hret
        cases hret
      · exact hzero
    rw [h] at hfinal hret ⊢
    have hmergeLater := mergePas_later env r.pas m'
    have hmergeMem := mergePas_mem env r.pas m'
    rw [heq'] at hmergeLater hmergeMem
    rw [heq] at hmapped
    have hlater := (buildRegions_later env todo m'').trans hfinal
    obtain ⟨s', placed', hstock', htree', hplaced'⟩ := hmapped (hmergeLater.trans hlater) rfl
    have hmerge := mergePas_stock env hstock' (fun pa hpa => ⟨(hwalk r hr).2 pa hpa, hused r hr pa hpa⟩) hnodup
    rw [heq'] at hmerge
    obtain ⟨hstock'', hnodup'⟩ := hmerge hzero
    have hcr3 : m''.extras.enclave.cr3 = m'.extras.enclave.cr3 := by rw [hmergeLater.enclave]
    dsimp only at htree' hstock'' hmergeMem
    rw [← hmergeMem, ← hcr3] at htree'
    rw [List.flatMap_cons, ← List.append_assoc]
    exact ih (fun q hq => htodo q (List.mem_cons_of_mem _ hq)) hstock'' htree' hplaced' hnodup' hfinal hret

end Region

/-- **Where the pages of an enclave are mapped**, if the tables are built: with
allocators that do not fail, and hand out no page in use. -/
theorem buildEnclaveCr3_places (env : Env) {used : List Nat} (mem : Nat → Nat → Nat) (log : List Event) (encl : Encl)
    (hcanonical : Canonical encl.allPages) (hfree : ∀ f, Frame f → f ∉ used → Free encl.allPages (tablePage f))
    (hregions : ∀ r ∈ encl.regions, r.Walkable ∧ ∀ pa ∈ r.pas, pa.Page ∧ pa.start ∈ used)
    (hs : Supplied used log (buildEnclaveCr3 env mem log encl).2.extras.log)
    (hret : (buildEnclaveCr3 env mem log encl).1 = .ret 0) :
    let m := (buildEnclaveCr3 env mem log encl).2
    ∃ s placed, Stock encl.pts encl.allPages used log m.extras s.tables (encl.regions.flatMap (·.pas)) ∧
      Tree m.mem m.extras.enclave.cr3 s (leavesOf placed) ∧ Mapped encl.regions (encl.regions.flatMap (·.pas)) placed ∧
      ((encl.regions.flatMap (·.pas)).map (·.start)).Nodup := by
  have hstock : Stock encl.pts encl.allPages used log (building mem log encl).extras [] [] := by
    refine ⟨by simp [building], ⟨hcanonical, fun a t => by simp [building]⟩, by simp, by simp, hfree, [], rfl, by simp⟩
  obtain ⟨f, allPages, -, heq, hstock'⟩ := hstock.allocate hs (allocate_building_log env mem log encl)
  have hframe := hstock'.frames f (List.mem_cons_self ..)
  let m₁ := allocated f (encl.pts ++ [tablePage f]) allPages [.kmalloc true, .kmalloc true, .allocPages (some f)]
    (building mem log encl)
  have hbuild : buildEnclaveCr3 env mem log encl = buildRegions env encl.regions (rooted (some f) m₁) := by
    rw [buildEnclaveCr3_eq, heq]
    rfl
  have htree : Tree m₁.mem f ⟨[f], fun _ => (ptPML4, 0)⟩ (leavesOf []) := by
    refine Tree.of_root hframe.1 fun i _ => ?_
    simp [m₁, allocated, Machine.clear]
  have hstock₀ : Stock encl.pts encl.allPages used log (rooted (some f) m₁).extras [f] [] :=
    ⟨hstock'.pts, hstock'.pages, hstock'.frames, hstock'.merged, hstock'.stale, hstock'.log⟩
  have hplaced₀ : Mapped encl.regions [] [] := ⟨by simp, by simp, by simp⟩
  have hplaces := buildRegions_places env encl.regions (s := ⟨[f], fun _ => (ptPML4, 0)⟩) (fun q hq => hq)
    (fun q hq => ⟨(hregions q hq).1, fun pa hpa => ((hregions q hq).2 pa hpa).1⟩)
    (fun q hq pa hpa => ((hregions q hq).2 pa hpa).2) hs hstock₀ htree hplaced₀ (by simp)
    (by rw [hbuild]; exact Later.refl _) (by rw [← hbuild]; exact hret)
  rw [← hbuild] at hplaces
  simpa using hplaces

end Tyche.Enclave
