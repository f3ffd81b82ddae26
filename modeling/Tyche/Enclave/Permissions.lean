/-
What the pages of an enclave may be used for: an entry of its page tables
has the permissions of requests that were accepted for its page, and so is
never writable and executable.

This fails when the allocator hands out a frame that is still recorded from
an earlier commit that failed: the frame is refused, the failed allocation
is not noticed, and the table is the page at address 0, whatever it holds.
-/
import Tyche.Enclave.Transfer

namespace Tyche.Enclave

open Tyche.Pts Tyche.Radix
open Tyche.Capa (ptEntry)

/-- The request covers the page, modulo `2 ^ 48`. -/
def AddRegion.CoversPage (req : AddRegion) (n : Nat) : Prop :=
  ∃ a, a % 2 ^ 48 = n * ptPageSize ∧ req.start ≤ a ∧ a + ptPageSize ≤ req.end_

/-- **The entries are permitted**: none is writable and executable, and one
that is present has only permissions of a request for its page. -/
structure Permitted (requests : List AddRegion) (mem : Nat → Nat → Nat) (root : Nat) : Prop where
  exclusive : ∀ q t i, layout.Reach mem root 0 q t → i < 512 → ¬ (mem t i &&& ptRW ≠ 0 ∧ mem t i &&& ptNX = 0)
  asked : ∀ q t i, layout.Reach mem root 0 q t → i < 512 → Present (mem t i) →
    ∃ req ∈ requests, req.CoversPage (q * 512 + i) ∧ (mem t i &&& ptRW ≠ 0 → req.flags &&& teWrite ≠ 0) ∧
      (mem t i &&& ptNX = 0 → req.flags &&& teExec ≠ 0) ∧ (mem t i &&& ptUSR ≠ 0 → req.flags &&& teUser ≠ 0)

/-- The frames of these ranges. -/
def framesOf (pages : List PaRegion) : List Nat :=
  pages.flatMap fun pa => (List.range' (pa.start / ptPageSize) (pagesBelow pa.end_ - pa.start / ptPageSize)).map (· * ptPageSize)

/-! ## Permissions -/

section Flags

variable {flags : Nat}

theorem translateFlags_write (h : translateFlags flags &&& ptRW ≠ 0) : flags &&& teWrite ≠ 0 := by
  intro hzero
  refine h ?_
  unfold translateFlags
  rw [hzero]
  split_ifs <;> first | rfl | contradiction

theorem translateFlags_exec (h : translateFlags flags &&& ptNX = 0) : flags &&& teExec ≠ 0 := by
  intro hzero
  unfold translateFlags at h
  rw [if_pos hzero] at h
  split_ifs at h

theorem translateFlags_user (h : translateFlags flags &&& ptUSR ≠ 0) : flags &&& teUser ≠ 0 := by
  intro hzero
  refine h ?_
  unfold translateFlags
  rw [hzero]
  split_ifs <;> first | rfl | contradiction

/-- A permission of the entry of a page is one of the flags. -/
theorem pageEntry_and {pa : PaRegion} (h : pa.Page) (flags : Nat) {b : Nat} (hb : permissionMask &&& b = b) :
    pageEntry pa flags false &&& b = translateFlags flags &&& b := by
  rw [← pageEntry_permissions h, Nat.and_assoc, hb]

end Flags

/-- A frame that is not of these ranges is free of them. -/
theorem free_framesOf {pages : List PaRegion} {f : Nat} (hf : Frame f) (h : f ∉ framesOf pages) : Free pages (tablePage f) := by
  rintro pa hpa a ⟨⟨h1, h2⟩, h3, h4⟩
  refine h (List.mem_flatMap.2 ⟨pa, hpa, List.mem_map.2 ⟨f / ptPageSize, ?_, Nat.div_mul_cancel (Nat.dvd_of_mod_eq_zero hf.1)⟩⟩)
  have hp : ptPageSize = 4096 := rfl
  have haligned := hf.1
  have h3 : f ≤ a := h3
  have h4 : a < f + ptPageSize := h4
  have hbelow : f / ptPageSize < pagesBelow pa.end_ := by
    rw [lt_pagesBelow, Nat.div_mul_cancel (Nat.dvd_of_mod_eq_zero haligned)]
    omega
  rw [List.mem_range'_1]
  rw [hp] at *
  omega

/-- The requests of a region cover its pages. -/
theorem Region.Asked.coversPage {requests : List AddRegion} {r : Region} (h : r.Asked requests)
    (hchecked : ∀ req ∈ requests, regionCheck req = true ∧ req.Words) {n : Nat} (hn : r.Reaches n) :
    ∃ req ∈ requests, req.CoversPage n ∧ req.flags = r.flags := by
  obtain ⟨k, hstart, hk, rfl⟩ := hn
  rw [lt_pagesBelow] at hk
  have hne := h.nonempty
  have hp : ptPageSize = 4096 := rfl
  have hpage : page = 4096 := rfl
  rw [hp] at hstart hk
  -- An address of the region that is on the page.
  obtain ⟨req, hreq, hcovers, hflags⟩ := h.covered (max (k * 4096) r.start) (Nat.le_max_right ..) (by omega)
  obtain ⟨⟨h1, h2, -⟩, -⟩ := regionCheck_iff.1 (hchecked req hreq).1
  obtain ⟨h3, h4⟩ := hcovers
  rw [hpage] at h1 h2
  refine ⟨req, hreq, ⟨k * ptPageSize, ?_, ?_, ?_⟩, hflags⟩ <;> rw [hp] <;> omega

/-! ## The tables -/

/-- The entries of a tree are permitted, when its pages are of regions that
were asked for. -/
theorem permitted_of_tree {mem : Nat → Nat → Nat} {root : Nat} {s : Shape Nat} {placed : List Placement}
    {requests : List AddRegion} {regions : List Region} {pas : List PaRegion} (htree : Tree mem root s (leavesOf placed))
    (hplaced : Mapped regions pas placed) (hregions : ∀ r ∈ regions, r.Asked requests)
    (hchecked : ∀ req ∈ requests, regionCheck req = true ∧ req.Words) : Permitted requests mem root := by
  -- An entry is absent, or that of a page that was placed.
  have hentry : ∀ q t i, layout.Reach mem root 0 q t → i < 512 → mem t i = 0 ∨ ∃ flags, flags ≠ 0 ∧
      (∀ b, permissionMask &&& b = b → mem t i &&& b = translateFlags flags &&& b) ∧
      ∃ req ∈ requests, req.CoversPage (q * 512 + i) ∧ req.flags = flags := by
    intro q t i ht hi
    rw [htree.leaves.word (htree.fits.reach ht) hi, layout_fanout]
    by_cases hzero : leavesOf placed (q * 512 + i) = 0
    · exact .inl hzero
    · obtain ⟨p, hp, hpage, heq⟩ := leavesOf_ne_zero hzero
      obtain ⟨hr, hreaches, hpa⟩ := hplaced.regions p hp
      have hasked := hregions _ hr
      obtain ⟨req, hreq, hcovers, hflags⟩ := hasked.coversPage hchecked hreaches
      right
      refine ⟨p.region.flags, (hasked.walkable hchecked).flags, fun b hb => ?_, req, hreq, hpage ▸ hcovers, hflags⟩
      rw [heq]
      exact pageEntry_and (hasked.pas _ hpa).1 _ hb
  constructor
  · rintro q t i ht hi ⟨hrw, hnx⟩
    rcases hentry q t i ht hi with hzero | ⟨flags, -, hbits, req, hreq, -, rfl⟩
    · rw [hzero] at hrw
      exact hrw rfl
    · rw [hbits _ (by decide)] at hrw hnx
      exact (regionCheck_iff.1 (hchecked req hreq).1).2.2.2.1 ⟨translateFlags_exec hnx, translateFlags_write hrw⟩
  · intro q t i ht hi hpresent
    rcases hentry q t i ht hi with hzero | ⟨flags, -, hbits, req, hreq, hcovers, rfl⟩
    · rw [hzero] at hpresent
      exact absurd hpresent not_present_zero
    · rw [hbits _ (by decide), hbits _ (by decide), hbits _ (by decide)]
      exact ⟨req, hreq, hcovers, translateFlags_write, translateFlags_exec, translateFlags_user⟩

/-- **The pages of an enclave have the permissions they were asked for**, and
none is writable and executable, once its tables are built: in any run, when
no allocation of the build fails, and no frame is handed out in it that the
enclave has recorded before. -/
theorem permissions_asked (env : Env) (mem : Nat → Nat → Nat) {s : Driver} {requests : Nat → List AddRegion} {pid handle : Nat}
    {c : Cursor Encl} {regions : List Region} {log : List Event} {m : Machine MapInfo} (hrun : Requested env mem s requests)
    (hframes : FramesOnly s.log) (hfind : findEnclave pid handle s.enclaves = some c)
    (hcollect : collectRegions env [] c.elem.regions s.log = (.ret 0, regions, log))
    (hbuild : buildEnclaveCr3 env s.mem log { c.elem with regions := regions } = (.ret 0, m))
    (hs : Supplied (framesOf c.elem.allPages ++ (regions.flatMap (·.pas)).map (·.start)) log m.extras.log) :
    Permitted (requests handle) m.mem m.extras.enclave.cr3 := by
  obtain ⟨hlist, rfl, -⟩ := findEnclave_some hfind
  have hc : c.elem ∈ s.enclaves := hlist ▸ c.elem_mem
  have hprepares := collectRegions_prepares env [] c.elem.regions s.log rfl
  rw [hcollect] at hprepares
  obtain ⟨hchecked, hregions⟩ := (hrun.standing c.elem hc).effects hprepares.effects
  dsimp only at hregions
  have hplaces := buildEnclaveCr3_places env s.mem log { c.elem with regions := regions } (hrun.canonical hframes c.elem hc)
    (fun f hf hused => free_framesOf hf fun h => hused (List.mem_append_left _ h))
    (fun r hr => ⟨(hregions r hr).walkable hchecked, fun pa hpa => ⟨((hregions r hr).pas pa hpa).1,
      List.mem_append_right _ (List.mem_map_of_mem (List.mem_flatMap.2 ⟨r, hr, hpa⟩))⟩⟩)
    (by rw [hbuild]; exact hs) (by rw [hbuild])
  rw [hbuild] at hplaces
  obtain ⟨shape, placed, -, htree, hplaced, -⟩ := hplaces
  exact permitted_of_tree htree hplaced hregions hchecked

theorem permissions_asked_oneRegion :
    let s := (Driver.boot fun _ _ => 0).after onePage
      [(1, .create true), (1, .addRegion (some ⟨0, 0x1000, 0x2000, 0x8000, teRead, 4⟩))]
    let m := (buildEnclaveCr3 onePage s.mem (.collect 0x20000 :: .kmalloc true :: s.log)
      { oneRegion with regions := oneRegionCommitted.regions }).2
    ∃ requests, Requested onePage (fun _ _ => 0) s requests ∧ Permitted (requests 0) m.mem m.extras.enclave.cr3 := by
  intro s m
  have hwords : AddRegion.Words ⟨0, 0x1000, 0x2000, 0x8000, teRead, 4⟩ := by decide
  have hrun : Run onePage (fun _ _ cmd _ => cmd.Words) (Driver.boot fun _ _ => 0) s :=
    run_after _ ⟨by decide, trivial, by decide +kernel, hwords, trivial⟩
  obtain ⟨requests, hrequested⟩ := run_requested hrun
  have hlog : s.log = [.kmalloc true, .createDomain (some 1), .kmalloc true] := by decide +kernel
  have hframes : FramesOnly s.log := by
    intro f hf
    rw [hlog] at hf
    simp at hf
  have hs : Supplied (framesOf [] ++ (oneRegionCommitted.regions.flatMap (·.pas)).map (·.start)) [] m.extras.log :=
    .of_suppliedBy (by decide +kernel)
  have hfind : findEnclave 1 0 s.enclaves = some ⟨[], oneRegion, []⟩ := by decide +kernel
  exact ⟨requests, hrequested, permissions_asked onePage (fun _ _ => 0) hrequested hframes hfind (by decide +kernel)
    (Prod.ext (by decide +kernel) rfl) (hs.part (List.nil_suffix) List.suffix_rfl)⟩

/-- No allocation failed, and every frame that was handed out was in no use: it
was neither held by the driver nor a page of the parent. -/
def neverFailed : List Event → Bool
  | [] => true
  | .allocPages ans :: log =>
    (ans.any fun f => decide (Frame f) && !held f log && !log.contains (.collect f)) && neverFailed log
  | .kmalloc ok :: log => ok && neverFailed log
  | _ :: log => neverFailed log

/-- The first frame is handed out again, and the monitor refuses all transfers. -/
def recycling : Env :=
  { onePage with
    allocPages := fun log => some (0x100000 + 0x1000 * ((log.countP fun e => e matches .allocPages _) - 1))
    transferCapability := fun _ _ _ _ _ => false }

/-- The root of a commit that failed is still recorded. Handed out again, it is
refused, and the tables are what is at address 0. -/
theorem permissions_fail :
    ¬ ∀ (env : Env) (mem : Nat → Nat → Nat) (s : Driver) (requests : Nat → List AddRegion) (pid handle : Nat) (c : Cursor Encl)
      (regions : List Region) (log : List Event) (m : Machine MapInfo), Requested env mem s requests →
      findEnclave pid handle s.enclaves = some c →
      collectRegions env [] c.elem.regions s.log = (.ret 0, regions, log) →
      buildEnclaveCr3 env s.mem log { c.elem with regions := regions } = (.ret 0, m) → neverFailed m.extras.log = true →
        Permitted (requests handle) m.mem m.extras.enclave.cr3 := by
  intro h
  let s := (Driver.boot fun t _ => if t = 0 then 0x3 else 0).after recycling
    [(1, .create true), (1, emptyCommit 0), (1, .addRegion (some ⟨0, 0x1000, 0x2000, 0x8000, teRead, 4⟩))]
  let e : Encl := { oneRegion with allPages := [⟨0x100000, 0x101000, ptEntry⟩] }
  let log : List Event := .collect 0x20000 :: .kmalloc true :: s.log
  let m := (buildEnclaveCr3 recycling s.mem log { e with regions := oneRegionCommitted.regions }).2
  have hwords : AddRegion.Words ⟨0, 0x1000, 0x2000, 0x8000, teRead, 4⟩ := by decide
  have hrun : Run recycling (fun _ _ cmd _ => cmd.Words) (Driver.boot fun t _ => if t = 0 then 0x3 else 0) s :=
    run_after _ ⟨by decide, trivial, by decide +kernel, trivial, by decide +kernel, hwords, trivial⟩
  obtain ⟨requests, hrequested⟩ := run_requested hrun
  have hpermitted := h recycling _ s requests 1 0 ⟨[], e, []⟩ oneRegionCommitted.regions log m hrequested (by decide +kernel)
    (by decide +kernel) (Prod.ext (by decide +kernel) rfl) (by decide +kernel)
  have hcr3 : m.extras.enclave.cr3 = 0 := by decide +kernel
  have hword : m.mem 0 0 = 0x3 ∧ m.mem 0 1 = 0x3 := by decide +kernel
  have hchild : layout.child (m.mem 0 0) = some 0 := by rw [hword.1]; decide
  rw [hcr3] at hpermitted
  have hreach : layout.Reach m.mem 0 0 0 0 :=
    .child (q := 0) (i := 0) (.child (q := 0) (i := 0) (.child (q := 0) (i := 0) .root (by decide) hchild) (by decide) hchild)
      (by decide) hchild
  refine hpermitted.exclusive 0 0 1 hreach (by decide) ?_
  rw [hword.2]
  decide

end Tyche.Enclave
