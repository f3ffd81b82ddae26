/-
What the first commit of an enclave gives to its domain: everything the
enclave can reach, its page tables and the pages they map, each once and
with its own type, and nothing else.
-/
import Tyche.Enclave.Frames
import Tyche.Enclave.Placing
import Tyche.Enclave.Requests
import Mathlib.Data.List.Nodup

namespace Tyche.Enclave

open Tyche.Pts Tyche.Radix
open Tyche.Capa (ptEntry)

/-- A transfer of the whole frame, of this type, was accepted. -/
def TransferredAs (events : List Event) (domain f tpe : Nat) : Prop :=
  ∃ start end_, .transferCapability domain start end_ tpe true ∈ events ∧ start ≤ f ∧ f + ptPageSize ≤ end_

/-- The event is a transfer of the address. -/
def Event.transfersAddr (a : Nat) : Event → Bool
  | .transferCapability _ start end_ _ _ => decide (start ≤ a ∧ a < end_)
  | _ => false

/-- The frames the enclave has recorded: its tables, and the pages of its
regions. -/
def Encl.frames (e : Encl) : List PaRegion := e.pts ++ e.regions.flatMap (·.pas)

/-- **All an enclave reaches was transferred**, once, with the right type: the
tables reached from `cr3`, and what the processor finds for an address. -/
structure HandedOver (mem : Nat → Nat → Nat) (e : Encl) (events : List Event) : Prop where
  tables : ∀ l q t, layout.Reach mem e.cr3 l q t → TransferredAs events e.tycheHandle t ptEntry
  leaves : ∀ va < 2 ^ 48, ∀ l w, pageWalk mem ptPML4 e.cr3 va = some (l, w) → l = ptPTE ∧
    ∃ r ∈ e.regions, r.Reaches (va / ptPageSize) ∧ (∃ pa ∈ r.pas, pa.start = w &&& ptPhysPageMask) ∧
      TransferredAs events e.tycheHandle (w &&& ptPhysPageMask) r.tpe
  recorded : ∀ domain start end_ tpe ok, .transferCapability domain start end_ tpe ok ∈ events →
    domain = e.tycheHandle ∧ ok = true ∧ ∀ a, start ≤ a → a < end_ → ∃ pa ∈ e.frames, pa.Covers a ∧ pa.tpe = tpe
  once : ∀ pa ∈ e.frames, ∀ a, pa.Covers a → events.countP (Event.transfersAddr a) = 1
  apart : ∀ l q t va l' w, layout.Reach mem e.cr3 l q t → va < 2 ^ 48 →
    pageWalk mem ptPML4 e.cr3 va = some (l', w) → w &&& ptPhysPageMask ≠ t
  injective : ∀ va va' l w l' w', va < 2 ^ 48 → va' < 2 ^ 48 → pageWalk mem ptPML4 e.cr3 va = some (l, w) →
    pageWalk mem ptPML4 e.cr3 va' = some (l', w') → w &&& ptPhysPageMask = w' &&& ptPhysPageMask →
    va / ptPageSize = va' / ptPageSize

/-! ## The transfers -/

section Transfers

variable {encl : Encl} {a : Nat}

theorem mem_transfers {ok : Bool} {pages : List PaRegion} {ev : Event} :
    ev ∈ transfers encl ok pages ↔ ∃ pa ∈ pages, Event.transferCapability encl.tycheHandle pa.start pa.end_ pa.tpe ok = ev := by
  rw [transfers, List.mem_reverse, List.mem_map]

theorem countP_transfers (ok : Bool) (pages : List PaRegion) : (transfers encl ok pages).countP (Event.transfersAddr a) =
    pages.countP fun q => decide (q.start ≤ a ∧ a < q.end_) := by
  rw [transfers, List.countP_reverse, List.countP_map]
  rfl

/-- The event is no transfer. -/
def Event.keeps : Event → Bool
  | .transferCapability .. => false
  | _ => true

theorem countP_keeps {events : List Event} (h : ∀ ev ∈ events, ev.keeps = true) :
    events.countP (Event.transfersAddr a) = 0 := by
  rw [List.countP_eq_zero]
  intro ev hev htransfers
  have hkeeps := h ev hev
  cases ev <;> first | cases htransfers | cases hkeeps

theorem Event.keeps_of_monitor {ev : Event} (h : ev.monitor = false) : ev.keeps = true := by
  cases ev <;> first | rfl | cases h

end Transfers

/-! ## A commit that succeeds -/

theorem Region.Asked.walkable {requests : List AddRegion} {r : Region} (h : r.Asked requests)
    (hchecked : ∀ req ∈ requests, regionCheck req = true ∧ req.Words) : r.Walkable := by
  have hne := h.nonempty
  obtain ⟨req, hreq, hcovers, hflags⟩ := h.covered (r.end_ - 1) (by omega) (by omega)
  obtain ⟨hcheck, -, -, hend, -⟩ := hchecked req hreq
  refine ⟨hne, ?_, ?_⟩
  · have hlt := hcovers.2
    omega
  · rw [← hflags]
    exact (regionCheck_iff.1 hcheck).2.2.1

/-- A page of a canonical list is transferred as a whole. -/
theorem transferredAs_page {e : Encl} {events : List Event} (h : Canonical e.allPages) {pa : PaRegion} (hpa : pa.Page)
    (hall : ∀ a, pa.Covers a → Typed e.allPages a pa.tpe) (hevents : ∀ ev ∈ transfers e true e.allPages, ev ∈ events) :
    TransferredAs events e.tycheHandle pa.start pa.tpe := by
  obtain ⟨r, hr, htpe, hstart, hend⟩ := h.spans hpa.lt fun a h1 h2 => hall a ⟨h1, h2⟩
  refine ⟨r.start, r.end_, hevents _ (mem_transfers.2 ⟨r, hr, ?_⟩), hstart, by rwa [hpa.2] at hend⟩
  rw [htpe]

/-- The transfer of all pages hands over what the tree reaches, when the pages
are those of its tables and of the regions. -/
theorem handedOver_of_tree {mem : Nat → Nat → Nat} {e : Encl} {s : Shape Nat} {placed : List Placement} {before after : List Event}
    (htree : Tree mem e.cr3 s (leavesOf placed)) (hplaced : Mapped e.regions (e.regions.flatMap (·.pas)) placed)
    (hnodup : ((e.regions.flatMap (·.pas)).map (·.start)).Nodup) (hpts : e.pts = s.tables.reverse.map tablePage)
    (hmerged : Merged (e.allPages, s.tables.map tablePage ++ e.regions.flatMap (·.pas)))
    (htables : ∀ f ∈ s.tables, Frame f ∧ f ∉ (e.regions.flatMap (·.pas)).map (·.start))
    (hpas : ∀ r ∈ e.regions, ∀ pa ∈ r.pas, pa.Page ∧ pa.tpe = r.tpe) (hkeeps : ∀ ev ∈ after ++ before, ev.keeps = true) :
    HandedOver mem e (after ++ (transfers e true e.allPages ++ before)) := by
  have hall : ∀ ev ∈ transfers e true e.allPages, ev ∈ after ++ (transfers e true e.allPages ++ before) := fun ev hev => by
    simp [hev]
  have hframes : ∀ pa ∈ s.tables.map tablePage ++ e.regions.flatMap (·.pas), pa.Page := by
    intro pa hpa
    rcases List.mem_append.1 hpa with hpa | hpa
    · obtain ⟨f, hf, rfl⟩ := List.mem_map.1 hpa
      exact tablePage_page (htables f hf).1
    · obtain ⟨r, hr, hpa⟩ := List.mem_flatMap.1 hpa
      exact (hpas r hr pa hpa).1
  have hmem : ∀ pa, pa ∈ e.frames ↔ pa ∈ s.tables.map tablePage ++ e.regions.flatMap (·.pas) := by
    simp [Encl.frames, hpts]
  have hgiven : ∀ pa ∈ s.tables.map tablePage ++ e.regions.flatMap (·.pas),
      TransferredAs (after ++ (transfers e true e.allPages ++ before)) e.tycheHandle pa.start pa.tpe := fun pa hpa =>
    transferredAs_page hmerged.canonical (hframes pa hpa)
      (fun a ha => (hmerged.typed a pa.tpe).2 ⟨pa, hpa, ha, rfl⟩) hall
  -- What the processor finds is the entry of a page that was placed.
  have hfound : ∀ va < 2 ^ 48, ∀ l w, pageWalk mem ptPML4 e.cr3 va = some (l, w) → l = ptPTE ∧
      ∃ p ∈ placed, p.page = va / ptPageSize ∧ w &&& ptPhysPageMask = p.pa.start := by
    intro va hva l w hw
    rw [htree.pageWalk_eq hva] at hw
    split at hw
    next hp =>
      obtain ⟨rfl, rfl⟩ := Prod.mk.inj (Option.some.inj hw)
      have hne : leavesOf placed (va / ptPageSize) ≠ 0 := fun h => not_present_zero (h ▸ hp)
      obtain ⟨p, hp, hpage, hentry⟩ := leavesOf_ne_zero hne
      obtain ⟨hr, -, hpa⟩ := hplaced.regions p hp
      refine ⟨rfl, p, hp, hpage, ?_⟩
      rw [hentry]
      exact pageEntry_address (hpas _ hr _ hpa).1 _
    · cases hw
  refine ⟨fun l q t ht => ?_, fun va hva l w hw => ?_, fun domain start end_ tpe ok hev => ?_, fun pa hpa a ha => ?_,
    fun l q t va l' w ht hva hw => ?_, fun va va' l w l' w' hva hva' hw hw' heq => ?_⟩
  · exact hgiven (tablePage t) (List.mem_append_left _ (List.mem_map_of_mem (htree.fits.reach ht).1))
  · obtain ⟨hl, p, hp, hpage, hstart⟩ := hfound va hva l w hw
    obtain ⟨hr, hreaches, hpa⟩ := hplaced.regions p hp
    have hpage' := hgiven p.pa (List.mem_append_right _ (List.mem_flatMap.2 ⟨_, hr, hpa⟩))
    rw [(hpas _ hr _ hpa).2] at hpage'
    rw [hstart, ← hpage]
    exact ⟨hl, p.region, hr, hreaches, ⟨p.pa, hpa, rfl⟩, hpage'⟩
  · have hev : .transferCapability domain start end_ tpe ok ∈ transfers e true e.allPages := by
      rcases List.mem_append.1 hev with hev | hev
      · cases hkeeps _ (List.mem_append_left _ hev)
      · rcases List.mem_append.1 hev with hev | hev
        · exact hev
        · cases hkeeps _ (List.mem_append_right _ hev)
    obtain ⟨pa, hpa, heq⟩ := mem_transfers.1 hev
    cases heq
    refine ⟨rfl, rfl, fun a h1 h2 => ?_⟩
    obtain ⟨q, hq, hcovers, htpe⟩ := (hmerged.typed a pa.tpe).1 ⟨pa, hpa, ⟨h1, h2⟩, rfl⟩
    exact ⟨q, (hmem q).2 hq, hcovers, htpe⟩
  · obtain ⟨r, hr, hcovers, -⟩ := (hmerged.typed a pa.tpe).2 ⟨pa, (hmem pa).1 hpa, ha, rfl⟩
    rw [List.countP_append, List.countP_append, countP_keeps fun ev hev => hkeeps ev (List.mem_append_left _ hev),
      countP_keeps fun ev hev => hkeeps ev (List.mem_append_right _ hev), countP_transfers,
      hmerged.canonical.count_covers hr hcovers]
  · obtain ⟨-, p, hp, -, hstart⟩ := hfound va hva l' w hw
    obtain ⟨hr, -, hpa⟩ := hplaced.regions p hp
    rintro rfl
    refine (htables _ (htree.fits.reach ht).1).2 ?_
    rw [hstart]
    exact List.mem_map_of_mem (List.mem_flatMap.2 ⟨_, hr, hpa⟩)
  · obtain ⟨-, p, hp, hpage, hstart⟩ := hfound va hva l w hw
    obtain ⟨-, p', hp', hpage', hstart'⟩ := hfound va' hva' l' w' hw'
    -- Each physical page was placed once.
    have honce : (placed.map fun p => p.pa.start).Nodup := by
      have hsub := (hplaced.pas.map (·.start)).nodup hnodup
      rwa [List.map_map, List.map_reverse, List.nodup_reverse] at hsub
    have hsame : p = p' := List.inj_on_of_nodup_map honce hp hp' (by rw [← hstart, ← hstart', heq])
    rw [← hpage, ← hpage', hsame]

/-- **A first commit that returns 0** hands over all its enclave reaches. -/
theorem commitEnclave_handedOver {env : Env} {commit : CommitMessage} {s s' : Site}
    (hcommit : commitEnclave env commit s = (.ret 0, s')) (hpts : s.encl.pts = []) (hall : s.encl.allPages = [])
    (hregions : ∀ r ∈ s'.encl.regions, r.Walkable ∧ ∀ pa ∈ r.pas, pa.Page ∧ pa.tpe = r.tpe)
    (hs : Supplied ((s'.encl.regions.flatMap (·.pas)).map (·.start)) s.log s'.log) :
    ∃ events, s'.log = events ++ s.log ∧ HandedOver s'.mem s'.encl events := by
  obtain ⟨regions, log, m, invoke, hcollect, hbuild, rfl⟩ := commitEnclave_returns hcommit
  have hprepares := collectRegions_prepares env [] s.encl.regions s.log rfl
  rw [hcollect] at hprepares
  obtain ⟨collected, hlog, hquiet⟩ := hprepares.calls
  have hbuilds := buildEnclaveCr3_prepares env s.mem log { s.encl with regions := regions }
  have hkeep := buildEnclaveCr3_regions env s.mem log { s.encl with regions := regions }
  rw [hbuild] at hbuilds hkeep
  obtain ⟨built, hlog', hquiet'⟩ := hbuilds.calls
  dsimp only at hlog hlog' hregions hs hkeep
  rw [hkeep] at hregions hs
  -- The allocators did not fail while the tables were built.
  have hsupplied : Supplied ((regions.flatMap (·.pas)).map (·.start)) log m.extras.log := by
    refine hs.part ⟨collected, hlog.symm⟩ ?_
    exact (List.suffix_append ..).trans (List.suffix_cons ..)
  have hfree : ∀ f, Frame f → f ∉ (regions.flatMap (·.pas)).map (·.start) → Free s.encl.allPages (tablePage f) :=
    fun f _ _ => by simp [hall, Free]
  have hplaces := buildEnclaveCr3_places env s.mem log { s.encl with regions := regions } (hall ▸ merged_nil.canonical) hfree
    (fun r hr => ⟨(hregions r hr).1, fun pa hpa => ⟨((hregions r hr).2 pa hpa).1,
      List.mem_map_of_mem (List.mem_flatMap.2 ⟨r, hr, hpa⟩)⟩⟩)
    (by rw [hbuild]; exact hsupplied) (by rw [hbuild])
  rw [hbuild] at hplaces
  obtain ⟨shape, placed, hstock, htree, hplaced, hnodup⟩ := hplaces
  have hstockPts := hstock.pts
  have hmerged := hstock.pages
  dsimp only at hstockPts hmerged hnodup hplaced htree
  rw [hpts, List.nil_append] at hstockPts
  rw [hall, List.append_nil] at hmerged
  rw [← hkeep] at hplaced hnodup hmerged hregions
  refine ⟨[.sealDomain m.extras.enclave.tycheHandle m.extras.enclave.cr3 commit.entry commit.stack (some invoke)] ++
    (transfers m.extras.enclave true m.extras.enclave.allPages ++ (built ++ collected)), ?_, ?_⟩
  · dsimp only
    rw [hlog', hlog]
    simp
  · refine handedOver_of_tree (s := shape) htree hplaced hnodup hstockPts hmerged ?_ (fun r hr => (hregions r hr).2) ?_
    · rw [← hkeep] at hstock
      exact hstock.frames
    · intro ev hev
      simp only [List.singleton_append, List.mem_cons, List.mem_append] at hev
      rcases hev with rfl | hev | hev
      · rfl
      · exact Event.keeps_of_monitor (hquiet' ev hev)
      · exact Event.keeps_of_monitor (hquiet ev hev)

/-- **Everything the enclave can reach is transferred**, once, with the right
type, when an enclave that was never committed is committed, with allocators
that do not fail: in any run of the driver. -/
theorem commit_hands_over (env : Env) (mem : Nat → Nat → Nat) {s t : Driver} {pid : Nat} {commit : CommitMessage}
    {c d : Cursor Encl} (hrun : Run env (fun _ _ cmd _ => cmd.Words) (Driver.boot mem) s)
    (hfind : findEnclave pid commit.handle s.enclaves = some c) (hpts : c.elem.pts = []) (hall : c.elem.allPages = [])
    (hcommit : s.commitEnclave env pid commit = (.ret 0, t)) (hafter : findEnclave pid commit.handle t.enclaves = some d)
    (hs : Supplied ((d.elem.regions.flatMap (·.pas)).map (·.start)) s.log t.log) :
    HandedOver t.mem d.elem (s.did t) := by
  obtain ⟨hlist, hhandle, -⟩ := findEnclave_some hfind
  obtain ⟨requests, hrequested⟩ := run_requested hrun
  have hstanding := hrequested.standing c.elem (hlist ▸ c.elem_mem)
  have hkept := Standing.commitEnclave env commit (s := ⟨s.mem, s.log, c.elem⟩) hstanding
  have hid := (commitEnclave_calls env commit ⟨s.mem, s.log, c.elem⟩).1
  unfold Driver.commitEnclave at hcommit
  rw [hfind] at hcommit
  dsimp only at hcommit
  rcases hsite : Enclave.commitEnclave env commit ⟨s.mem, s.log, c.elem⟩ with ⟨o, site⟩
  rw [hsite] at hcommit hkept hid
  obtain ⟨rfl, rfl⟩ := Prod.mk.inj hcommit
  -- The enclave found afterwards is the one that was committed.
  have hsame : d = c.put site.encl := Option.some.inj (hafter.symm.trans (findEnclave_put hfind hid.handle hid.pid))
  subst hsame
  obtain ⟨events, hlog, hover⟩ := commitEnclave_handedOver hsite hpts hall
    (fun r hr => ⟨(hkept.regions r hr).walkable hkept.checked, (hkept.regions r hr).pas⟩) hs
  rw [did_eq hlog]
  exact hover

/-- A parent with one page at every address, and allocators that do not fail. -/
def onePage : Env := { plenty with walkPageRange := fun _ start _ => [.pteEntry start 0x20007] }

/-- An enclave with a region of one page. -/
def oneRegion : Encl :=
  { pid := 1, handle := 0, tycheHandle := 1, regions := [{ start := 0x1000, end_ := 0x2000, src := 0x8000, flags := teRead, tpe := 4 }] }

/-- The same once it is committed. -/
def oneRegionCommitted : Encl :=
  { oneRegion with
    cr3 := 0x100000
    entry := 0x1000
    stack := 0x2000
    pts := [tablePage 0x100000, tablePage 0x101000, tablePage 0x102000, tablePage 0x103000]
    regions := [{ start := 0x1000, end_ := 0x2000, src := 0x8000, flags := teRead, tpe := 4, pas := [⟨0x20000, 0x21000, 4⟩] }]
    allPages := [⟨0x20000, 0x21000, 4⟩, ⟨0x100000, 0x104000, ptEntry⟩] }

theorem commit_hands_over_oneRegion :
    let s := (Driver.boot fun _ _ => 0).after onePage
      [(1, .create true), (1, .addRegion (some ⟨0, 0x1000, 0x2000, 0x8000, teRead, 4⟩))]
    let t := (s.commitEnclave onePage 1 ⟨0, 0x2000, 0x1000⟩).2
    HandedOver t.mem oneRegionCommitted (s.did t) := by
  intro s t
  have hwords : AddRegion.Words ⟨0, 0x1000, 0x2000, 0x8000, teRead, 4⟩ := by decide
  have hrun : Run onePage (fun _ _ cmd _ => cmd.Words) (Driver.boot fun _ _ => 0) s :=
    run_after _ ⟨by decide, trivial, by decide +kernel, hwords, trivial⟩
  have hs : Supplied ((oneRegionCommitted.regions.flatMap (·.pas)).map (·.start)) [] t.log :=
    .of_suppliedBy (by decide +kernel)
  exact commit_hands_over onePage (fun _ _ => 0) (c := ⟨[], oneRegion, []⟩) (d := ⟨[], oneRegionCommitted, []⟩) hrun
    (by decide +kernel) rfl rfl (Prod.ext (by decide +kernel) rfl) (by decide +kernel) (hs.part (List.nil_suffix) List.suffix_rfl)

end Tyche.Enclave
