/-
Frames the kernel gets back: none should be owned by a domain.

The failure path of a commit returns the page tables of the enclave, whether
the monitor has been given them or not; and the ranges it leaves in
`all_pages` are transferred by the next commit.
-/
import Tyche.Enclave.Frames

namespace Tyche.Enclave

open Tyche.Pts
open Tyche.Capa (ptEntry)

/-- The driver returned the frame, and it is in use by no process that the
driver collected it from, nor by the driver, since. -/
def returned (f : Nat) : List Event → Bool
  | [] => false
  | .freePages g :: log => g == f || returned f log
  | .allocPages (some g) :: log => g != f && returned f log
  | .collect g :: log => g != f && returned f log
  | _ :: log => returned f log

/-- The domains the frame was transferred to, and not revoked from, since the
driver obtained it. -/
def owners (f : Nat) : List Event → List Nat
  | [] => []
  | .allocPages (some g) :: log => if g = f then [] else owners f log
  | .transferCapability dom start end_ _ true :: log =>
    if start ≤ f ∧ f < end_ then dom :: owners f log else owners f log
  | .revokeRegion dom start end_ true :: log =>
    if start ≤ f ∧ f < end_ then (owners f log).filter (· ≠ dom) else owners f log
  | _ :: log => owners f log

/-- The monitor accepted a transfer of the frame. -/
def Granted (f : Nat) (events : List Event) : Prop :=
  ∃ dom start end_ tpe, .transferCapability dom start end_ tpe true ∈ events ∧ start ≤ f ∧ f < end_

/-- A range recorded for the enclave has the frame. -/
def Recorded (e : Encl) (f : Nat) : Prop :=
  (∃ r ∈ e.allPages, r.Covers f) ∨ ∃ r ∈ e.regions, ∃ pa ∈ r.pas, pa.Covers f

/-- A commit that disputes no frame. What it transfers of the pages recorded
before it was not returned, nor handed out again in it; a page it collected
was not handed out in it either; and if it fails, no domain owns a page table
that the enclave had before it, or was obtained in it. -/
def Undisputed (env : Env) (s : Driver) (pid : Nat) (cmd : Command) (t : Driver) : Prop :=
  ∀ commit out c, cmd = .commit commit out → findEnclave pid commit.handle s.enclaves = some c →
    (∀ f, Granted f (s.did t) → Recorded c.elem f → returned f s.log = false ∧ .allocPages (some f) ∉ s.did t) ∧
    (∀ f, .collect f ∈ s.did t → .allocPages (some f) ∉ s.did t) ∧
    ((s.commitEnclave env pid commit).1 = .ret (-1) → ∀ f,
      (f ∈ c.elem.pts.map (·.start) → owners f s.log = []) ∧
      (f ∈ c.elem.pts.map (·.start) ∨ .allocPages (some f) ∈ s.did t → ¬ Granted f (s.did t)))

/-- No frame that was returned is owned. -/
def Unowned (log : List Event) : Prop := ∀ f, f % ptPageSize = 0 → returned f log = true → owners f log = []

/-! ## The log -/

/-- The event says nothing of any frame. -/
def Event.quiet : Event → Bool
  | .kmalloc _ | .createDomain _ | .sealDomain .. | .transition .. | .allocPages none => true
  | .transferCapability _ _ _ _ ok | .revokeRegion _ _ _ ok => !ok
  | _ => false

section Log

variable {f g : Nat} {events log : List Event}

theorem quiet_same (f : Nat) (log : List Event) (h : ∀ ev ∈ events, ev.quiet = true) : held f (events ++ log) = held f log ∧
    returned f (events ++ log) = returned f log ∧ owners f (events ++ log) = owners f log := by
  induction events with
  | nil => exact ⟨rfl, rfl, rfl⟩
  | cons ev events ih =>
    have hev := h ev (List.mem_cons_self ..)
    obtain ⟨h1, h2, h3⟩ := ih fun e he => h e (List.mem_cons_of_mem _ he)
    rw [← h1, ← h2, ← h3]
    unfold Event.quiet at hev
    split at hev
    case h_6 ok | h_7 ok =>
      obtain rfl : ok = false := by simpa using hev
      exact ⟨rfl, rfl, rfl⟩
    case h_8 => cases hev
    all_goals exact ⟨rfl, rfl, rfl⟩

/-- A frame that is held was not returned. -/
theorem returned_of_held (h : held f log = true) : returned f log = false := by
  fun_induction held f log with
  | case1 => cases h
  | case2 g log ih =>
    rw [returned]
    by_cases hg : g = f
    · simp [hg]
    · simp_all
  | case3 g log ih =>
    rw [returned]
    simp_all
  | case4 ev log hnot1 hnot2 ih =>
    cases ev with
    | collect g => simp [returned, ih h]
    | allocPages ans =>
      cases ans with
      | none => exact ih h
      | some g => exact absurd rfl (hnot1 g)
    | freePages g => exact absurd rfl (hnot2 g)
    | _ => exact ih h

theorem granted_append : Granted f (events ++ log) ↔ Granted f events ∨ Granted f log := by
  simp only [Granted, List.mem_append, or_and_right, exists_or]

theorem not_granted_quiet (h : ∀ ev ∈ events, ev.quiet = true) : ¬ Granted f events := by
  rintro ⟨dom, start, end_, tpe, hmem, -⟩
  cases h _ hmem

end Log

/-! ## A commit, for one frame -/

/-- A commit can have recorded the frame for these reasons only: it was
recorded before, collected, or obtained for a page table, which is still held. -/
def Explained (f : Nat) (e : Encl) (old new : List Event) : Prop :=
  Recorded e f ∨ .collect f ∈ new ∨ (.allocPages (some f) ∈ new ∧ held f (new ++ old) = true)

/-- What is known of a frame while the enclave `e` is committed: it has
become `e'`, and the events are `new`. -/
structure Traced (f : Nat) (e : Encl) (old : List Event) (e' : Encl) (new : List Event) : Prop where
  pages : Recorded e' f → Explained f e old new
  grants : Granted f new → Explained f e old new
  freed : returned f (new ++ old) = true →
    (returned f old = true ∧ .collect f ∉ new) ∨ .allocPages (some f) ∈ new
  owned : owners f (new ++ old) ≠ [] → (owners f old ≠ [] ∧ .allocPages (some f) ∉ new) ∨ Granted f new
  tables : f ∈ e'.pts.map (·.start) → f ∈ e.pts.map (·.start) ∨ .allocPages (some f) ∈ new

section Traced

variable {f : Nat} {e e' e'' : Encl} {old new events : List Event}

theorem Traced.start (f : Nat) (e : Encl) (old : List Event) : Traced f e old e [] where
  pages := .inl
  grants := by
    rintro ⟨_, _, _, _, hmem, -⟩
    cases hmem
  freed h := .inl ⟨h, by simp⟩
  owned h := .inl ⟨h, by simp⟩
  tables := .inl

theorem Explained.later (h : Explained f e old new) (hheld : held f (new ++ old) = true → held f (events ++ new ++ old) = true) :
    Explained f e old (events ++ new) := by
  rcases h with h | h | ⟨h, h'⟩
  · exact .inl h
  · exact .inr (.inl (List.mem_append_right _ h))
  · exact .inr (.inr ⟨List.mem_append_right _ h, hheld h'⟩)

/-- Events that do not say anything of the frame, but for a transfer. -/
theorem Traced.same (h : Traced f e old e' new) (hheld : held f (events ++ new ++ old) = held f (new ++ old))
    (hfreed : returned f (events ++ new ++ old) = returned f (new ++ old))
    (howned : owners f (events ++ new ++ old) = owners f (new ++ old) ∨ Granted f events)
    (hcollect : .collect f ∉ events) (halloc : .allocPages (some f) ∉ events) (hpages : Recorded e'' f → Recorded e' f)
    (hgrants : Granted f events → Recorded e' f) (htables : f ∈ e''.pts.map (·.start) → f ∈ e'.pts.map (·.start)) :
    Traced f e old e'' (events ++ new) where
  pages h' := (h.pages (hpages h')).later fun h => by rw [hheld, h]
  grants h' := by
    rcases granted_append.1 h' with h' | h'
    · exact (h.pages (hgrants h')).later fun h => by rw [hheld, h]
    · exact (h.grants h').later fun h => by rw [hheld, h]
  freed h' := by
    rw [hfreed] at h'
    rcases h.freed h' with ⟨h1, h2⟩ | h1
    · exact .inl ⟨h1, by simp [hcollect, h2]⟩
    · exact .inr (List.mem_append_right _ h1)
  owned h' := by
    rcases howned with howned | hgranted
    · rw [howned] at h'
      rcases h.owned h' with ⟨h1, h2⟩ | h1
      · exact .inl ⟨h1, by simp [halloc, h2]⟩
      · exact .inr (granted_append.2 (.inr h1))
    · exact .inr (granted_append.2 (.inl hgranted))
  tables h' := by
    rcases h.tables (htables h') with h1 | h1
    · exact .inl h1
    · exact .inr (List.mem_append_right _ h1)

theorem Traced.quiet (h : Traced f e old e' new) (hevents : ∀ ev ∈ events, ev.quiet = true)
    (hpages : Recorded e'' f → Recorded e' f) (htables : e''.pts = e'.pts) : Traced f e old e'' (events ++ new) := by
  have hlog := quiet_same f (new ++ old) hevents
  rw [← List.append_assoc] at hlog
  refine h.same hlog.1 hlog.2.1 (.inl hlog.2.2) (fun hmem => ?_) (fun hmem => ?_) hpages
    (fun hg => absurd hg (not_granted_quiet hevents)) (by rw [htables]; exact fun h => h)
  · cases hevents _ hmem
  · cases hevents _ hmem

/-- The frame is obtained, and is not owned. -/
theorem Traced.obtained (h : Traced f e old e' new) (halloc : .allocPages (some f) ∈ events) (hgrants : ¬ Granted f events)
    (howned : owners f (events ++ new ++ old) = []) (hheld : held f (new ++ old) = false)
    (hpages : Recorded e'' f → Recorded e' f ∨ held f (events ++ new ++ old) = true) : Traced f e old e'' (events ++ new) where
  pages h' := by
    rcases hpages h' with h' | h'
    · exact (h.pages h').later fun h => by rw [hheld] at h; cases h
    · exact .inr (.inr ⟨List.mem_append_left _ halloc, h'⟩)
  grants h' := (h.grants ((granted_append.1 h').resolve_left hgrants)).later fun h => by rw [hheld] at h; cases h
  freed _ := .inr (List.mem_append_left _ halloc)
  owned h' := absurd howned h'
  tables _ := .inr (List.mem_append_left _ halloc)

/-- The page that starts at an aligned address has no other one. -/
theorem eq_of_page {f g end_ : Nat} (hf : f % ptPageSize = 0) (hg : g % ptPageSize = 0) (hend : end_ ≤ g + ptPageSize)
    (h : g ≤ f ∧ f < end_) : g = f := by
  have hp : ptPageSize = 4096 := rfl
  rw [hp] at hf hg hend
  omega

theorem add64_le (a b : Nat) : add64 a b ≤ a + b := Nat.mod_le ..

/-- What a collected page adds to the records. -/
theorem Recorded.of_collect {before after : List Region} {r : Region} {g : Nat} (hf : f % ptPageSize = 0) (hg : Frame g)
    (hregions : e'.regions = before ++ r :: after)
    (h : Recorded { e' with regions := before ++ { r with pas := r.pas ++ [⟨g, g + page, r.tpe⟩] } :: after } f) :
    Recorded e' f ∨ g = f := by
  rcases h with hpages | ⟨q, hq, pa, hpa, hcovers⟩
  · exact .inl (.inl hpages)
  · have hq : q ∈ before ∨ q = { r with pas := r.pas ++ [⟨g, g + page, r.tpe⟩] } ∨ q ∈ after := by simpa using hq
    rcases hq with hq | rfl | hq
    · exact .inl (.inr ⟨q, by simp [hregions, hq], pa, hpa, hcovers⟩)
    · rcases List.mem_append.1 hpa with hpa | hpa
      · exact .inl (.inr ⟨r, by simp [hregions], pa, hpa, hcovers⟩)
      · obtain rfl := List.mem_singleton.1 hpa
        exact .inr (eq_of_page hf hg.1 (Nat.le_refl _) hcovers)
    · exact .inl (.inr ⟨q, by simp [hregions, hq], pa, hpa, hcovers⟩)

/-- What a merged range adds to them. -/
theorem Recorded.of_merge {pts : List PaRegion} {pa : PaRegion}
    (h : Recorded { e' with pts := pts, allPages := (addMergeGlobal e'.allPages pa).2 } f) : Recorded e' f ∨ pa.Covers f := by
  rcases h with ⟨q, hq, hcovers⟩ | hpas
  · exact (addMergeGlobal_covers hq hcovers).imp_left .inl
  · exact .inl (.inr hpas)

/-- A frame is traced while a page is obtained and given back. -/
theorem Traced.unused (h : Traced f e old e' new) {g : Nat} {ks : List Event} (hks : ∀ k ∈ ks, ∃ ok, k = .kmalloc ok)
    (hnew : g = f → held g (new ++ old) = false) (hrecorded : Recorded e'' f → Recorded e' f) (hpts : e''.pts = e'.pts) :
    Traced f e old e'' (.freePages g :: ks ++ [.allocPages (some g)] ++ new) := by
  have hquiet : ∀ ev ∈ ks, ev.quiet = true := by
    intro ev hev
    obtain ⟨ok, rfl⟩ := hks ev hev
    rfl
  have hlog := quiet_same f (.allocPages (some g) :: (new ++ old)) hquiet
  have hassoc : .freePages g :: ks ++ [.allocPages (some g)] ++ new ++ old =
      .freePages g :: (ks ++ .allocPages (some g) :: (new ++ old)) := by simp
  have hgranted : ¬ Granted f (.freePages g :: ks ++ [.allocPages (some g)]) := by
    rintro ⟨dom, start, end_, tpe, hmem, -⟩
    have hmem : .transferCapability dom start end_ tpe true ∈ ks := by simpa using hmem
    cases hquiet _ hmem
  by_cases hgf : g = f
  · subst hgf
    refine h.obtained (by simp) hgranted ?_ (hnew rfl) fun hr => .inl (hrecorded hr)
    rw [hassoc]
    simp [owners, hlog.2.2]
  · have hcollect : .collect f ∉ .freePages g :: ks ++ [.allocPages (some g)] := by
      intro hmem
      have hmem : .collect f ∈ ks := by simpa using hmem
      cases hquiet _ hmem
    have halloc : .allocPages (some f) ∉ .freePages g :: ks ++ [.allocPages (some g)] := by
      intro hmem
      have hmem : .allocPages (some f) ∈ ks := by simpa [Ne.symm hgf] using hmem
      cases hquiet _ hmem
    have hbeq : (g == f) = false := beq_eq_false_iff_ne.2 hgf
    refine h.same ?_ ?_ (.inl ?_) hcollect halloc hrecorded (fun hg => absurd hg hgranted) (by rw [hpts]; exact fun h => h)
    · rw [hassoc]
      simp [held, hlog.1, bne, hbeq]
    · rw [hassoc]
      simp [returned, hlog.2.1, bne, hbeq]
    · rw [hassoc]
      simp [owners, hlog.2.2, hgf]

/-- A frame is traced while the pages are prepared. -/
theorem Traced.prepare (h : Traced f e old e' new) (hf : f % ptPageSize = 0) {y : Encl × List Event}
    (hstep : Preparation (e', new ++ old) y) (hout : handedOut y.2 = true) :
    ∃ new', y.2 = new' ++ old ∧ Traced f e old y.1 new' := by
  cases hstep with
  | kmalloc _ _ ok => exact ⟨[_] ++ new, rfl, h.quiet (by simp [Event.quiet]) (fun h => h) rfl⟩
  | collect _ _ before after r g hregions hg =>
    refine ⟨[.collect g] ++ new, rfl, ?_⟩
    by_cases hgf : g = f
    · subst hgf
      refine ⟨fun _ => .inr (.inl (by simp)), fun _ => .inr (.inl (by simp)), fun hfreed => ?_, fun howned => ?_,
        fun htables => ?_⟩
      · simp [returned] at hfreed
      · rcases h.owned howned with ⟨h1, h2⟩ | h1
        · exact .inl ⟨h1, by simp [h2]⟩
        · exact .inr (granted_append.2 (.inr h1))
      · rcases h.tables htables with h1 | h1
        · exact .inl h1
        · exact .inr (by simp [h1])
    · refine h.same rfl ?_ (.inl rfl) ?_ (by simp) (fun h => (h.of_collect hf hg hregions).resolve_right hgf) ?_
        fun h => h
      · simp [returned, hgf]
      · simpa using fun heq => hgf heq.symm
      · rintro ⟨_, _, _, _, hmem, -⟩
        simp at hmem
  | noPage _ _ ans hans =>
    cases ans with
    | none => exact ⟨[_] ++ new, rfl, h.quiet (by simp [Event.quiet]) (fun h => h) rfl⟩
    | some g =>
      have haligned : g % ptPageSize = 0 := by simp_all [handedOut]
      exact absurd haligned (hans g rfl)
  | unused _ _ g ks allPages hg hks hpages =>
    refine ⟨.freePages g :: ks ++ [.allocPages (some g)] ++ new, by simp, ?_⟩
    refine h.unused hks (fun hgf => ?_) ?_ rfl
    · have hout : handedOut ((.freePages g :: ks) ++ .allocPages (some g) :: (new ++ old)) = true := hout
      have hout := handedOut_suffix _ hout
      subst hgf
      simp_all [handedOut]
    · rintro (⟨q, hq, hcovers⟩ | hpas)
      · exact .inl ⟨q, unused_mem hpages q hq, hcovers⟩
      · exact .inr hpas
  | table _ _ g hg =>
    refine ⟨[.kmalloc true, .kmalloc true, .allocPages (some g)] ++ new, rfl, ?_⟩
    have hgranted : ¬ Granted f [.kmalloc true, .kmalloc true, .allocPages (some g)] := by
      rintro ⟨_, _, _, _, hmem, -⟩
      simp at hmem
    by_cases hgf : g = f
    · subst hgf
      have hnot : held g (new ++ old) = false := by simp_all [handedOut]
      exact h.obtained (by simp) hgranted (by simp [owners]) hnot fun _ => .inr (by simp [held])
    · have hbeq : (g == f) = false := beq_eq_false_iff_ne.2 hgf
      refine h.same (by simp [held, hbeq]) (by simp [returned, bne, hbeq]) (.inl (by simp [owners, hgf])) (by simp)
        (by simpa using Ne.symm hgf) (fun h => ?_) (fun hg => absurd hg hgranted) (by simp [Ne.symm hgf])
      exact h.of_merge.resolve_right fun hcovers => hgf (eq_of_page hf hg (add64_le ..) hcovers)
  | root _ _ cr3 => exact ⟨[] ++ new, rfl, h.quiet (by simp) (fun h => h) rfl⟩
  | merge _ _ r pa hr hpa =>
    refine ⟨[_] ++ new, rfl, h.quiet (by simp [Event.quiet]) (fun h => ?_) rfl⟩
    exact (Recorded.of_merge h).elim id fun hcovers => .inr ⟨r, hr, pa, hpa, hcovers⟩

/-- **A frame is traced through a commit.** -/
theorem Traced.effect (h : Traced f e old e' new) (hf : f % ptPageSize = 0) {y : Encl × List Event}
    (hstep : Effect (e', new ++ old) y) (hout : handedOut y.2 = true) :
    ∃ new', y.2 = new' ++ old ∧ Traced f e old y.1 new' := by
  cases hstep with
  | prepare hstep => exact h.prepare hf hstep hout
  | transfer _ _ pa ok hpa =>
    refine ⟨[_] ++ new, rfl, ?_⟩
    cases ok with
    | false => exact h.quiet (by simp [Event.quiet]) (fun h => h) rfl
    | true =>
      refine h.same rfl rfl ?_ (by simp) (by simp) (fun h => h) ?_ fun h => h
      · by_cases hcovers : pa.start ≤ f ∧ f < pa.end_
        · exact .inr ⟨_, _, _, _, List.mem_singleton_self _, hcovers⟩
        · exact .inl (if_neg hcovers)
      · rintro ⟨_, _, _, _, hmem, hcovers⟩
        cases List.mem_singleton.1 hmem
        exact .inl ⟨pa, hpa, hcovers⟩
  | sealing _ _ stack entry invoke => exact ⟨[_] ++ new, rfl, h.quiet (by simp [Event.quiet]) (fun h => h) rfl⟩

theorem Traced.effects (f : Nat) (hf : f % ptPageSize = 0) {x y : Encl × List Event} (hsteps : Effects x y)
    (hout : handedOut y.2 = true) : ∃ new, y.2 = new ++ x.2 ∧ Traced f x.1 x.2 y.1 new := by
  induction hsteps with
  | refl => exact ⟨[], rfl, .start ..⟩
  | @tail u v _ hstep ih =>
    obtain ⟨events, hlog, -⟩ := hstep.calls rfl
    obtain ⟨new, hnew, htraced⟩ := ih (handedOut_suffix events (by rw [← hlog]; exact hout))
    obtain ⟨e', log⟩ := u
    obtain rfl : log = new ++ x.2 := hnew
    exact htraced.effect hf hstep hout

/-- Nothing owned is returned by the effects of a commit. -/
theorem Traced.unowned (h : Traced f e old e' new) (hold : returned f old = true → owners f old = [])
    (hstale : Granted f new → Recorded e f → returned f old = false ∧ .allocPages (some f) ∉ new)
    (hcollected : .collect f ∈ new → .allocPages (some f) ∉ new) (hfreed : returned f (new ++ old) = true) :
    owners f (new ++ old) = [] := by
  by_contra howned
  rcases h.owned howned with ⟨hbefore, halloc⟩ | hgranted
  · rcases h.freed hfreed with ⟨hfreed, -⟩ | hmem
    · exact hbefore (hold hfreed)
    · exact halloc hmem
  · rcases h.grants hgranted with hrecorded | hcollect | ⟨-, hheld⟩
    · obtain ⟨h1, h2⟩ := hstale hgranted hrecorded
      rcases h.freed hfreed with ⟨hfreed, -⟩ | hmem
      · rw [h1] at hfreed
        cases hfreed
      · exact h2 hmem
    · rcases h.freed hfreed with ⟨-, hnone⟩ | hmem
      · exact hnone hcollect
      · exact hcollected hcollect hmem
    · rw [returned_of_held hheld] at hfreed
      cases hfreed

/-- A page table that is returned is not owned. -/
theorem Traced.tables_unowned (h : Traced f e old e' new) (htable : f ∈ e'.pts.map (·.start))
    (hbefore : f ∈ e.pts.map (·.start) → owners f old = [])
    (hgranted : f ∈ e.pts.map (·.start) ∨ .allocPages (some f) ∈ new → ¬ Granted f new) : owners f (new ++ old) = [] := by
  by_contra howned
  rcases h.owned howned with ⟨hold, halloc⟩ | hmem
  · rcases h.tables htable with hpts | hmem
    · exact hold (hbefore hpts)
    · exact halloc hmem
  · exact hgranted (h.tables htable) hmem

end Traced

theorem owners_frees (f : Nat) (l : List Nat) (log : List Event) : owners f (frees l ++ log) = owners f log := by
  induction l generalizing log with
  | nil => rfl
  | cons g l ih =>
    rw [frees_cons, ih]
    simp [owners]

theorem returned_frees {f : Nat} {l : List Nat} {log : List Event} (h : returned f (frees l ++ log) = true) :
    f ∈ l ∨ returned f log = true := by
  induction l generalizing log with
  | nil => exact .inr h
  | cons g l ih =>
    rw [frees_cons] at h
    rcases ih h with h | h
    · exact .inl (List.mem_cons_of_mem _ h)
    · rw [returned, Bool.or_eq_true, beq_iff_eq] at h
      rcases h with rfl | h
      · exact .inl (List.mem_cons_self ..)
      · exact .inr h

/-! ## The driver -/

/-- What the failure path does to the log. -/
theorem commitFailure_cases (s : Site) :
    (commitFailure s = (.freed, s)) ∨
    ((commitFailure s).1 = .ret (-1) ∧ (commitFailure s).2.log = frees (s.encl.pts.map (·.start)) ++ s.log) := by
  unfold commitFailure
  split
  · exact .inl rfl
  · refine .inr ⟨rfl, ?_⟩
    simp [frees]

theorem revocations_owners {f dom : Nat} {ok : Bool} {pages : List PaRegion} {log : List Event} :
    returned f (revocations dom ok pages ++ log) = returned f log ∧
      (owners f log = [] → owners f (revocations dom ok pages ++ log) = []) := by
  induction pages generalizing log with
  | nil => exact ⟨rfl, fun h => h⟩
  | cons pa pages ih =>
    have hcons : revocations dom ok (pa :: pages) ++ log =
        revocations dom ok pages ++ .revokeRegion dom pa.start pa.end_ ok :: log := by simp [revocations]
    obtain ⟨h1, h2⟩ := @ih (.revokeRegion dom pa.start pa.end_ ok :: log)
    rw [hcons, h1]
    refine ⟨by simp [returned], fun h => h2 ?_⟩
    cases ok with
    | false => simpa [owners] using h
    | true => simp [owners, h]

theorem Unowned.quiet {log : List Event} (h : Unowned log) (events : List Event) (hevents : ∀ ev ∈ events, ev.quiet = true) :
    Unowned (events ++ log) := by
  intro f hf hfreed
  obtain ⟨-, h2, h3⟩ := quiet_same f log hevents
  rw [h2] at hfreed
  rw [h3]
  exact h f hf hfreed

theorem Unowned.revocations {dom : Nat} {ok : Bool} {pages : List PaRegion} {log : List Event} (h : Unowned log) :
    Unowned (revocations dom ok pages ++ log) := by
  intro f hf hfreed
  obtain ⟨h1, h2⟩ := @revocations_owners f dom ok pages log
  rw [h1] at hfreed
  exact h2 (h f hf hfreed)

theorem Unowned.change {env : Env} {pid : Nat} {s t : Driver} {cmd : Command} {o : Outcome Int} (h : Unowned s.log)
    (hchange : Change env pid s cmd o t) (hout : handedOut t.log = true) (hallowed : Undisputed env s pid cmd t) :
    Unowned t.log := by
  cases hchange with
  | idle cmd tycheIds ks hks =>
    refine h.quiet ks fun k hk => ?_
    rcases hks k hk with ⟨ok, rfl⟩ | rfl <;> rfl
  | debugged handle result index => exact h.quiet [_] (by simp [Event.quiet])
  | entered transition c ret result index hfind => exact h.quiet [_] (by simp [Event.quiet])
  | created out domain hnew => exact h.quiet [_, _] (by simp [Event.quiet])
  | region cmd region c ok ret stack hcmd hfind hcheck hstack hret => exact h.quiet [_] (by simp [Event.quiet])
  | committed commit out c o o' site hfind hcommit ho =>
    obtain ⟨hstale, hcollected, hfails⟩ := hallowed commit out c rfl hfind
    obtain ⟨mem, e, log, heff, hcase⟩ := commitEnclave_effects env commit ⟨s.mem, s.log, c.elem⟩
    rw [hcommit] at hcase
    have hout : handedOut site.log = true := hout
    -- The driver's log is the commit's, and then the frames it returned.
    obtain ⟨tail, hsite, hreturn⟩ : ∃ tail, site.log = tail ++ log ∧ ((tail = []) ∨
        (tail = frees (e.pts.map (·.start)) ∧ o = .ret (-1))) := by
      rcases hcase with ⟨o', -, heq⟩ | heq
      · cases heq
        exact ⟨[], rfl, .inl rfl⟩
      · rcases commitFailure_cases ⟨mem, log, e⟩ with hfail | ⟨hret, hlog⟩
        · rw [hfail] at heq
          cases heq
          exact ⟨[], rfl, .inl rfl⟩
        · rw [← heq] at hret hlog
          exact ⟨_, hlog, .inr ⟨rfl, hret⟩⟩
    intro f hf hfreed
    have hout' := hout
    rw [hsite] at hout'
    obtain ⟨new, hnew, htraced⟩ := Traced.effects f hf heff (handedOut_suffix _ hout')
    have hnew : log = new ++ s.log := hnew
    have hdid : s.did { s with
        enclaves := (c.put site.encl).list
        otherCr3 := if o = .ret 0 then site.encl.cr3 else s.otherCr3
        mem := site.mem
        log := site.log } = tail ++ new := did_eq (by rw [hsite, hnew, List.append_assoc])
    rw [hdid] at hstale hcollected hfails
    have hmem : ∀ ev ∈ new, ev ∈ tail ++ new := fun ev hev => List.mem_append_right _ hev
    have hgrant : Granted f new → Granted f (tail ++ new) := fun hg => granted_append.2 (.inr hg)
    have hunowned : returned f (new ++ s.log) = true → owners f (new ++ s.log) = [] :=
      htraced.unowned (h f hf)
        (fun hg hr => ⟨(hstale f (hgrant hg) hr).1, fun ha => (hstale f (hgrant hg) hr).2 (hmem _ ha)⟩)
        fun hc ha => hcollected f (hmem _ hc) (hmem _ ha)
    replace hfreed : returned f site.log = true := hfreed
    show owners f site.log = []
    rw [hsite, hnew] at hfreed ⊢
    rcases hreturn with rfl | ⟨rfl, rfl⟩
    · exact hunowned hfreed
    · rw [owners_frees]
      rcases returned_frees hfreed with htable | hfreed
      · have hret : (s.commitEnclave env pid commit).1 = .ret (-1) := by
          unfold Driver.commitEnclave
          rw [hfind]
          dsimp only
          rw [hcommit]
        obtain ⟨h1, h2⟩ := hfails hret f
        refine htraced.tables_unowned htable h1 fun hor hg => h2 ?_ (hgrant hg)
        exact hor.imp_right (hmem _)
      · exact hunowned hfreed
  | unrevoked handle c o events hfind hrevoke =>
    rcases hrevoke with ⟨-, done, pa, rest, -, rfl⟩ | ⟨-, rfl⟩
    · rw [List.append_assoc]
      exact h.revocations.revocations
    · exact h.revocations
  | deleted handle c hfind hstale => exact h.revocations

/-- A monitor that accepts all transfers, and seals no domain. -/
def unsealing : Env := { plenty with sealDomain := fun _ _ _ _ _ => none }

end Tyche.Enclave
