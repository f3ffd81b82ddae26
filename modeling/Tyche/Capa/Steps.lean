/-
What a call of the library can do, one effect at a time: each effect is one
exchange with the monitor or the allocator together with the change of the
list that goes with it. `transferCapa_path` and `revokeCapa_path` cut a call
into such effects; an invariant of the effects (`Micro`) is then an
invariant of every run.
-/
import Tyche.Capa.Tracker

namespace Tyche.Capa

/-! ## The primitives -/

theorem alloc_cases {env : Env} {s s' : Tracker} {p} (h : alloc env s = (p, s')) :
    (p = none ∧ s' = { s with log := .alloc none :: s.log }) ∨
      (p = some s.heap ∧ s' = { s with heap := s.heap + 1, log := .alloc (some s.heap) :: s.log }) := by
  simp only [alloc] at h
  split at h <;> cases h
  · exact .inr ⟨rfl, rfl⟩
  · exact .inl ⟨rfl, rfl⟩

theorem tycheCall1_cases {env : Env} {f : VmcallFrame} {s s' : Tracker} {r}
    (h : tycheCall1 env f s = (r, s')) :
    ∃ a, s' = { s with log := .vmcall f a :: s.log } ∧
      ((a.ok = true ∧ r = some a.ret1) ∨ (a.ok = false ∧ r = none)) := by
  simp only [tycheCall1] at h
  split at h <;> rename_i hok <;> cases h
  · exact ⟨_, rfl, .inl ⟨hok, rfl⟩⟩
  · exact ⟨_, rfl, .inr ⟨eq_false_of_ne_true hok, rfl⟩⟩

theorem tycheCall0_cases {env : Env} {f : VmcallFrame} {s s' : Tracker} {r}
    (h : tycheCall0 env f s = (r, s')) : ∃ a, s' = { s with log := .vmcall f a :: s.log } ∧ a.ok = r := by
  simp only [tycheCall0, tycheCall, Prod.mk.injEq] at h
  obtain ⟨h1, rfl⟩ := h
  exact ⟨_, rfl, h1⟩

theorem tycheReadCapa_cases {env : Env} {c : Capability} {s s' : Tracker} {r}
    (h : tycheReadCapa env c s = (r, s')) :
    ∃ a, s' = { s with log := .vmcall { id := tycheRegionGetInfo, value1 := c.handle } a :: s.log } ∧
      ∀ capa, r = some capa → capa =
        { c with
          start := a.ret1, end_ := a.ret2, isOwned := a.ret3 &&& tycheOwned,
          isShared := a.ret3 &&& tycheShared, access := a.ret4, revoks := [] } := by
  simp only [tycheReadCapa] at h
  split at h <;> cases h
  · exact ⟨_, rfl, by rintro _ ⟨⟩; rfl⟩
  · exact ⟨_, rfl, by simp⟩

/-! ## Effects -/

/-- What an effect does to the list; `deliver` is a grant or a share of `c`,
whose record is `r`. -/
inductive Effect
  | idle
  | split (c : Capability) (addr : Nat)
  | deliver (c : Capability) (tpe : Nat) (r : RevokHandle)
  | revoke (c : Capability) (r : RevokHandle)
  | merge (a b : Capability)

/-- A record allocated at `p` and given back before it was in any list. -/
def Object.Unused (p : Nat) : Object → Prop
  | .capa c => c.ptr = p ∧ c.revoks = []
  | .revok r => r.ptr = p

/-- The status a delivery leaves the capability in. -/
def deliverStatus (tpe : Nat) : CapaStatus := if isConfidential tpe then .paused else .shared

def deliverFrame (dom handle tpe : Nat) : VmcallFrame :=
  if isConfidential tpe then grantFrame dom handle tpe else shareFrame dom handle tpe

/-- A delivery is allowed: a grant of an active entry, or a share of one
that is not granted and not shared with the domain yet. -/
def Deliverable (tpe dom : Nat) (c : Capability) : Prop :=
  if isConfidential tpe then c.status = .active
  else c.status ≠ .paused ∧ ∀ r ∈ c.revoks, r.domain ≠ dom

/-- One effect of a call. -/
inductive Micro : Tracker → Effect → Tracker → Prop
  | noMemory (s : Tracker) : Micro s .idle { s with log := .alloc none :: s.log }
  | refused (s : Tracker) (f : VmcallFrame) (a : VmcallAnswer) (ha : a.ok = false) :
      Micro s .idle { s with log := .vmcall f a :: s.log }
  | abandoned (s : Tracker) (f : VmcallFrame) (a : VmcallAnswer) (obj : Object) (ha : a.ok = false)
      (hobj : obj.Unused s.heap) :
      Micro s .idle
        { s with heap := s.heap + 1, log := .dealloc obj :: .vmcall f a :: .alloc (some s.heap) :: s.log }
  | split (s : Tracker) (c : Cursor Capability) (addr : Nat) (a : VmcallAnswer)
      (hl : s.capabilities = c.list) (hs : splittable c.elem addr = true) (ha : a.ok = true) :
      Micro s (.split c.elem addr)
        { s with
          capabilities := (c.put { c.elem with end_ := addr }).list ++
            [{ c.elem with ptr := s.heap, handle := a.ret1, start := addr, revoks := [] }],
          heap := s.heap + 1,
          log := .vmcall (splitFrame c.elem.handle addr) a :: .alloc (some s.heap) :: s.log }
  | deliver (s : Tracker) (c : Cursor Capability) (dom tpe : Nat) (a : VmcallAnswer)
      (hl : s.capabilities = c.list) (hd : Deliverable tpe dom c.elem) (ha : a.ok = true) :
      Micro s (.deliver c.elem tpe ⟨s.heap, dom, a.ret1⟩)
        { s with
          capabilities := (c.put { c.elem with
            status := deliverStatus tpe, revoks := c.elem.revoks ++ [⟨s.heap, dom, a.ret1⟩] }).list,
          heap := s.heap + 1,
          log := .vmcall (deliverFrame dom c.elem.handle tpe) a :: .alloc (some s.heap) :: s.log }
  | revoke (s : Tracker) (c : Cursor Capability) (r : Cursor RevokHandle) (status : CapaStatus) (a : VmcallAnswer)
      (hl : s.capabilities = c.list) (hr : c.elem.revoks = r.list)
      (hs : (status = .active ∧ r.remove = []) ∨
        (status = .shared ∧ c.elem.status = .shared ∧ (c.elem.isOwned ≠ 0 → r.remove ≠ [])))
      (ha : a.ok = true) :
      Micro s (.revoke c.elem r.elem)
        { s with
          capabilities := (c.put { c.elem with status := status, revoks := r.remove }).list,
          log := .dealloc (.revok r.elem) :: .vmcall (revokFrame r.elem.revokHandle) a :: s.log }
  | merge (s : Tracker) (l l' : List Capability) (c d : Capability) (a : VmcallAnswer)
      (hl : s.capabilities = l ++ c :: d :: l') (hc : c.status = .active) (hd : d.status = .active)
      (hadj : c.end_ = d.start) (hacc : c.access = d.access) (ha : a.ok = true) :
      Micro s (.merge c d)
        { s with
          capabilities := l ++ { c with end_ := d.end_ } :: l',
          log := .dealloc (.capa d) :: .vmcall (mergeFrame c.handle d.handle) a :: s.log }

/-- Effects one after the other. -/
inductive Path : Tracker → List Effect → Tracker → Prop
  | nil (s : Tracker) : Path s [] s
  | cons {s t u : Tracker} {e : Effect} {es : List Effect} : Micro s e t → Path t es u → Path s (e :: es) u

theorem Path.one {s t : Tracker} {e : Effect} (h : Micro s e t) : Path s [e] t := .cons h (.nil _)

theorem Path.append {s t u : Tracker} {es fs : List Effect} (h₁ : Path s es t) (h₂ : Path t fs u) :
    Path s (es ++ fs) u := by
  induction h₁ with
  | nil => exact h₂
  | cons h _ ih => exact .cons h (ih h₂)

/-- A property each effect of the path keeps holds at its end. -/
theorem Path.invariant {P : Tracker → Prop} {s t : Tracker} {es : List Effect} (h : Path s es t)
    (step : ∀ e ∈ es, ∀ s t, P s → Micro s e t → P t) (hs : P s) : P t := by
  induction h with
  | nil => exact hs
  | cons hm _ ih =>
    exact ih (fun e he => step e (List.mem_cons_of_mem _ he)) (step _ List.mem_cons_self _ _ hs hm)

/-! ## `split_capa` -/

theorem splitCapa_path {env : Env} {c : Cursor Capability} {addr : Nat} {s s' : Tracker} {r}
    (hl : s.capabilities = c.list) (h : splitCapa env (some c) addr s = (r, s')) :
    (r = none ∧ s' = s) ∨ (r = none ∧ Micro s .idle s') ∨
      ∃ sp, r = some sp ∧ Micro s (.split c.elem addr) s' ∧ s'.capabilities = sp.list ∧
        s'.capabilities = (c.put { c.elem with end_ := addr }).list ++ [sp.elem] ∧
        splittable c.elem addr = true ∧ sp.elem.start = addr ∧ sp.elem.end_ = c.elem.end_ ∧
        sp.elem.status = c.elem.status ∧ sp.elem.revoks = [] := by
  simp only [splitCapa] at h
  split at h
  · cases h; exact .inl ⟨rfl, rfl⟩
  · next hs =>
    have hs : splittable c.elem addr = true := by simpa using hs
    split at h
    · next ha =>
      cases h
      rcases alloc_cases ha with ⟨-, rfl⟩ | ⟨h', -⟩
      · exact .inr (.inl ⟨rfl, .noMemory s⟩)
      · cases h'
    · next ptr t ha =>
      rcases alloc_cases ha with ⟨h', -⟩ | ⟨h', rfl⟩
      · cases h'
      cases h'
      split at h
      · next hc =>
        obtain ⟨a, rfl, ⟨hok, h'⟩ | ⟨hok, -⟩⟩ := tycheCall1_cases hc
        · cases h'
        cases h
        exact .inr (.inl ⟨rfl, .abandoned s _ a (.capa _) hok ⟨rfl, rfl⟩⟩)
      · next hc =>
        obtain ⟨a, rfl, ⟨hok, h'⟩ | ⟨-, h'⟩⟩ := tycheCall1_cases hc
        · cases h'
          cases h
          refine .inr (.inr ⟨_, rfl, ?_, rfl, Cursor.last_list _ _, hs, rfl, rfl, rfl, rfl⟩)
          simpa using Micro.split s c addr a hl hs hok
        · cases h'

/-! ## `transfer_capa` -/

/-- The range of the capability is exactly `[start, end_)`. -/
def Capability.Exact (c : Capability) (start end_ : Nat) : Prop := c.start = start ∧ c.end_ = end_

instance (c : Capability) (start end_ : Nat) : Decidable (c.Exact start end_) :=
  inferInstanceAs (Decidable (_ ∧ _))

/-- The effects of splitting `[start, end_)` out of `c`: a split of `c` at
`start`, then one of its right part, which has no revocation handle. -/
def SplitsOf (c : Capability) (start end_ : Nat) (es : List Effect) : Prop :=
  ∀ e ∈ es, e = .idle ∨
    (¬ c.Exact start end_ ∧ splittable c start = true ∧
      ∃ d a, e = .split d a ∧ ((d = c ∧ a = start) ∨ d.revoks = []))

theorem isolate_path {env : Env} {curr : Cursor Capability} {start end_ : Nat} {s s' : Tracker} {r}
    (hl : s.capabilities = curr.list) (hf : transferable start end_ curr.elem = true)
    (h : isolate env curr start end_ s = (r, s')) :
    ∃ es, Path s es s' ∧ SplitsOf curr.elem start end_ es ∧
      ∀ sp, r = some sp → s'.capabilities = sp.list ∧ sp.elem.Exact start end_ ∧
        sp.elem.status = curr.elem.status := by
  simp only [isolate] at h
  split at h
  · next hx =>
    cases h
    refine ⟨[], .nil s, by simp [SplitsOf], ?_⟩
    rintro sp ⟨⟩
    exact ⟨hl, hx, rfl⟩
  · next hx =>
    have hx : ¬ curr.elem.Exact start end_ := hx
    split at h
    · -- The first split failed.
      next t hsp =>
      cases h
      rcases splitCapa_path hl hsp with ⟨-, rfl⟩ | ⟨-, hm⟩ | ⟨sp, h', -⟩
      · exact ⟨[], .nil _, by simp [SplitsOf], by simp⟩
      · exact ⟨[.idle], .one hm, by simp [SplitsOf], by simp⟩
      · cases h'
    · next sp t hsp =>
      rcases splitCapa_path hl hsp with ⟨h', -⟩ | ⟨h', -⟩ | ⟨sp', h', hm, hc, -, hok, hst, hend, hstat, hnone⟩
      · cases h'
      · cases h'
      cases h'
      have hfirst : SplitsOf curr.elem start end_ [.split curr.elem start] := by
        intro e he
        rw [List.mem_singleton] at he
        exact .inr ⟨hx, hok, _, _, he, .inl ⟨rfl, rfl⟩⟩
      split at h
      · next hgt =>
        split at h
        · -- The second split failed: the first one stays.
          next u hsp₂ =>
          cases h
          rcases splitCapa_path hc hsp₂ with ⟨-, rfl⟩ | ⟨-, hm₂⟩ | ⟨_, h', -⟩
          · exact ⟨_, .one hm, hfirst, by simp⟩
          · refine ⟨[.split curr.elem start, .idle], .cons hm (.one hm₂), ?_, by simp⟩
            intro e he
            rcases List.mem_cons.1 he with rfl | he
            · exact hfirst _ (by simp)
            · exact .inl (by simpa using he)
          · cases h'
        · next right u hsp₂ =>
          cases h
          rcases splitCapa_path hc hsp₂ with ⟨h', -⟩ | ⟨h', -⟩ | ⟨rt, h', hm₂, -, hc₂, -⟩
          · cases h'
          · cases h'
          cases h'
          refine ⟨[.split curr.elem start, .split sp.elem end_], .cons hm (.one hm₂), ?_, ?_⟩
          · intro e he
            rcases List.mem_cons.1 he with rfl | he
            · exact hfirst _ (by simp)
            · exact .inr ⟨hx, hok, _, _, by simpa using he, .inr hnone⟩
          · rintro _ ⟨⟩
            exact ⟨by simpa [Cursor.list] using hc₂, ⟨hst, rfl⟩, hstat⟩
      · -- `end_` lies strictly inside the entry, so the right part always goes beyond it.
        next hle =>
        simp only [transferable, contains, Bool.or_eq_true, Bool.and_eq_true, decide_eq_true_eq] at hf
        rcases hf with hf | hf
        · exact absurd hf hx
        · omega

theorem deliverFrame_confidential {dom handle tpe : Nat} (h : isConfidential tpe = true) :
    deliverFrame dom handle tpe = grantFrame dom handle tpe := by simp [deliverFrame, h]

theorem deliverFrame_shared {dom handle tpe : Nat} (h : isConfidential tpe = false) :
    deliverFrame dom handle tpe = shareFrame dom handle tpe := by simp [deliverFrame, h]

/-- A delivery step: it fails and leaves the list as it was, or hands the
entry over with a fresh record for `dom`. -/
def Delivers (dom tpe : Nat) (c : Capability) (s : Tracker) (ret : Int) (s' : Tracker) : Prop :=
  (ret = -1 ∧ (s' = s ∨ Micro s .idle s')) ∨
    (ret = 0 ∧ ∃ r : RevokHandle, r.domain = dom ∧ Micro s (.deliver c tpe r) s')

theorem grantStep_delivers {env : Env} {dom tpe : Nat} {c : Cursor Capability} {s s' : Tracker} {ret}
    (hl : s.capabilities = c.list) (ht : isConfidential tpe = true) (hst : c.elem.status = .active)
    (h : grantStep env dom tpe c s = (ret, s')) : Delivers dom tpe c.elem s ret s' := by
  simp only [grantStep] at h
  split at h
  · next ha =>
    cases h
    rcases alloc_cases ha with ⟨-, rfl⟩ | ⟨h', -⟩
    · exact .inl ⟨rfl, .inr (.noMemory s)⟩
    · cases h'
  · next ptr t ha =>
    rcases alloc_cases ha with ⟨h', -⟩ | ⟨h', rfl⟩
    · cases h'
    cases h'
    split at h
    · next hc =>
      obtain ⟨a, rfl, ⟨-, h'⟩ | ⟨hok, -⟩⟩ := tycheCall1_cases hc
      · cases h'
      cases h
      -- The status is set back to `ActiveCapa`, which it was.
      have hback : (c.put { c.elem with status := .active }).list = s.capabilities := by
        rw [hl, ← hst]; rfl
      refine .inl ⟨rfl, .inr ?_⟩
      have hm := Micro.abandoned s (grantFrame dom c.elem.handle tpe) a (.revok ⟨s.heap, dom, 0⟩) hok rfl
      simpa [hback, dealloc] using hm
    · next handle u hc =>
      obtain ⟨a, rfl, ⟨hok, h'⟩ | ⟨-, h'⟩⟩ := tycheCall1_cases hc
      · cases h'
        cases h
        refine .inr ⟨rfl, ⟨s.heap, dom, a.ret1⟩, rfl, ?_⟩
        have hm := Micro.deliver s c dom tpe a hl (by simp [Deliverable, ht, hst]) hok
        simpa [deliverStatus, ht, deliverFrame_confidential ht] using hm
      · cases h'

theorem shareStep_delivers {env : Env} {dom tpe : Nat} {c : Cursor Capability} {s s' : Tracker} {ret}
    (hl : s.capabilities = c.list) (ht : isConfidential tpe = false) (hst : c.elem.status ≠ .paused)
    (h : shareStep env dom tpe c s = (ret, s')) : Delivers dom tpe c.elem s ret s' := by
  simp only [shareStep] at h
  split at h
  · cases h; exact .inl ⟨rfl, .inl rfl⟩
  next hnew =>
  split at h
  · next ha =>
    cases h
    rcases alloc_cases ha with ⟨-, rfl⟩ | ⟨h', -⟩
    · exact .inl ⟨rfl, .inr (.noMemory s)⟩
    · cases h'
  · next ptr t ha =>
    rcases alloc_cases ha with ⟨h', -⟩ | ⟨h', rfl⟩
    · cases h'
    cases h'
    split at h
    · next hc =>
      obtain ⟨a, rfl, ⟨-, h'⟩ | ⟨hok, -⟩⟩ := tycheCall1_cases hc
      · cases h'
      cases h
      refine .inl ⟨rfl, .inr ?_⟩
      have hm := Micro.abandoned s (shareFrame dom c.elem.handle tpe) a (.revok ⟨s.heap, dom, 0⟩) hok rfl
      simpa [← hl, dealloc] using hm
    · next handle u hc =>
      obtain ⟨a, rfl, ⟨hok, h'⟩ | ⟨-, h'⟩⟩ := tycheCall1_cases hc
      · cases h'
        cases h
        refine .inr ⟨rfl, ⟨s.heap, dom, a.ret1⟩, rfl, ?_⟩
        have hd : Deliverable tpe dom c.elem := by
          simp only [List.any_eq_true, beq_iff_eq, not_exists, not_and] at hnew
          simpa [Deliverable, ht, hst] using hnew
        have hm := Micro.deliver s c dom tpe a hl hd hok
        simpa [deliverStatus, ht, deliverFrame_shared ht] using hm
      · cases h'

/-- The entry `transfer_capa` works on: found, and allowed by the checks. -/
def Selected (s : Tracker) (start end_ tpe : Nat) (curr : Cursor Capability) : Prop :=
  badTransfer start end_ tpe = false ∧ Cursor.find (transferable start end_) s.capabilities = some curr ∧
    transferAllowed tpe curr.elem = true

theorem transferAllowed_status {tpe : Nat} {c : Capability} (h : transferAllowed tpe c = true) :
    (isConfidential tpe = true → c.status = .active) ∧ (isShared tpe = true → c.status ≠ .paused) := by
  simp only [transferAllowed, Bool.and_eq_true, Bool.not_eq_true', Bool.and_eq_false_iff] at h
  obtain ⟨⟨-, h1⟩, h2⟩ := h
  constructor
  · intro ht
    simpa [ht] using h2
  · intro ht
    simpa [ht] using h1

theorem isShared_of_not_confidential {start end_ tpe : Nat} (hb : badTransfer start end_ tpe = false)
    (ht : isConfidential tpe = false) : isShared tpe = true := by
  simp only [badTransfer, decide_eq_false_iff_not] at hb
  simp only [isConfidential, decide_eq_false_iff_not] at ht
  simp only [isShared, decide_eq_true_eq]
  simp only [minTpe, maxTpe, sharedRO, shared, confidentialRO, confidential] at *
  omega

/-- A transfer: refused before it touches anything, or splits of the entry
it selects and then, when it returns 0, the delivery of `[start, end_)`. -/
theorem transferCapa_path {env : Env} {dom start end_ tpe : Nat} {s s' : Tracker} {ret}
    (h : transferCapa env dom start end_ tpe s = (ret, s')) :
    (ret = -1 ∧ s' = s) ∨
      ∃ curr es t, Selected s start end_ tpe curr ∧ Path s es t ∧ SplitsOf curr.elem start end_ es ∧
        ((ret = -1 ∧ (s' = t ∨ Micro t .idle s')) ∨
          (ret = 0 ∧ ∃ (c : Capability) (r : RevokHandle), Micro t (.deliver c tpe r) s' ∧
            c.Exact start end_ ∧ r.domain = dom)) := by
  simp only [transferCapa] at h
  split at h
  · cases h; exact .inl ⟨rfl, rfl⟩
  next hbad =>
  have hbad : badTransfer start end_ tpe = false := by simpa using hbad
  split at h
  · cases h; exact .inl ⟨rfl, rfl⟩
  next curr hfind =>
  obtain ⟨hlist, hcurr, -⟩ := Cursor.find_some hfind
  split at h
  · cases h; exact .inl ⟨rfl, rfl⟩
  next hok =>
  have hok : transferAllowed tpe curr.elem = true := by simpa using hok
  have hsel : Selected s start end_ tpe curr := ⟨hbad, hfind, hok⟩
  split at h
  · next t hi =>
    cases h
    obtain ⟨es, hp, hs, -⟩ := isolate_path hlist.symm hcurr hi
    exact .inr ⟨curr, es, _, hsel, hp, hs, .inl ⟨rfl, .inl rfl⟩⟩
  · next sp t hi =>
    obtain ⟨es, hp, hs, hsp⟩ := isolate_path hlist.symm hcurr hi
    obtain ⟨hl, hx, hst⟩ := hsp sp rfl
    obtain ⟨hconf, hshare⟩ := transferAllowed_status hok
    have hd : Delivers dom tpe sp.elem t ret s' := by
      split at h
      · next ht => exact grantStep_delivers hl ht (by rw [hst]; exact hconf ht) h
      · next ht =>
        have ht : isConfidential tpe = false := by simpa using ht
        exact shareStep_delivers hl ht (by rw [hst]; exact hshare (isShared_of_not_confidential hbad ht)) h
    refine .inr ⟨curr, es, t, hsel, hp, hs, ?_⟩
    rcases hd with hd | ⟨hret, r, hr, hm⟩
    · exact .inl hd
    · exact .inr ⟨hret, sp.elem, r, hm, hx, hr⟩

/-! ## `revoke_capa` -/

/-- The effects of the merge step. -/
def Merges (es : List Effect) : Prop := ∀ e ∈ es, e = .idle ∨ ∃ a b, e = .merge a b

theorem Merges.nil : Merges [] := by simp [Merges]

theorem Merges.cons {e : Effect} {es : List Effect} (he : e = .idle ∨ ∃ a b, e = .merge a b) (h : Merges es) :
    Merges (e :: es) := by
  intro f hf
  rcases List.mem_cons.1 hf with rfl | hf
  · exact he
  · exact h f hf

/-- The merge on the right would read the revocation handles of a left
neighbour that is not there. -/
def ReadsNull (curr : Cursor Capability) : Prop :=
  curr.before = [] ∧ ∃ next rest, curr.after = next :: rest ∧ mergesRight curr.elem next = true

theorem mergesRight_iff {a b : Capability} : mergesRight a b = true ↔
    a.end_ = b.start ∧ b.isOwned ≠ 0 ∧ b.status = .active ∧ b.access = a.access := by
  simp [mergesRight, and_assoc]

theorem mergesLeft_iff {a b : Capability} : mergesLeft a b = true ↔
    a.end_ = b.start ∧ a.isOwned ≠ 0 ∧ a.status = .active ∧ a.access = b.access ∧ a.revoks = [] := by
  simp [mergesLeft, and_assoc]

theorem mergeRight_path {env : Env} {prev : Option Capability} (curr : Cursor Capability) {s s' : Tracker} {out}
    (hl : s.capabilities = curr.list) (hst : curr.elem.status = .active)
    (h : mergeRight env prev curr s = (out, s')) :
    ∃ es, Path s es s' ∧ Merges es ∧
      (out = .ret 0 ∨ (out = .fault ∧ prev = none ∧ ∃ next rest, curr.after = next :: rest ∧
        mergesRight curr.elem next = true)) := by
  simp only [mergeRight] at h
  split at h
  · cases h; exact ⟨[], .nil _, .nil, .inl rfl⟩
  next next after hafter =>
  split at h
  · cases h; exact ⟨[], .nil _, .nil, .inl rfl⟩
  next hm =>
  have hm : mergesRight curr.elem next = true := by simpa using hm
  split at h
  · cases h; exact ⟨[], .nil _, .nil, .inr ⟨rfl, rfl, next, after, hafter, hm⟩⟩
  split at h
  · cases h; exact ⟨[], .nil _, .nil, .inl rfl⟩
  split at h
  · next hc =>
    obtain ⟨a, rfl, hok⟩ := tycheCall0_cases hc
    cases h
    exact ⟨[.idle], .one (.refused s _ a hok), .cons (.inl rfl) .nil, .inl rfl⟩
  · next hc =>
    obtain ⟨a, rfl, hok⟩ := tycheCall0_cases hc
    cases h
    obtain ⟨hadj, -, hact, hacc⟩ := mergesRight_iff.1 hm
    have hl' : s.capabilities = curr.before.reverse ++ curr.elem :: next :: after := by
      rw [hl, Cursor.list, hafter]
    exact ⟨[.merge curr.elem next], .one (.merge s _ _ _ _ a hl' hst hact hadj hacc.symm hok),
      .cons (.inr ⟨_, _, rfl⟩) .nil, .inl rfl⟩

theorem attemptMerge_path {env : Env} {curr : Cursor Capability} {s s' : Tracker} {out}
    (hl : s.capabilities = curr.list) (hst : curr.elem.status = .active)
    (h : attemptMerge env curr s = (out, s')) :
    ∃ es, Path s es s' ∧ Merges es ∧ (out = .ret 0 ∨ (out = .fault ∧ ReadsNull curr)) := by
  simp only [attemptMerge, hst] at h
  split at h
  · contradiction
  split at h
  · next hb =>
    obtain ⟨es, hp, hm, hout⟩ := mergeRight_path curr hl hst h
    refine ⟨es, hp, hm, hout.imp_right ?_⟩
    rintro ⟨h1, -, h3⟩
    exact ⟨h1, hb, h3⟩
  next prev before hb =>
  have hl' : s.capabilities = before.reverse ++ prev :: curr.elem :: curr.after := by
    rw [hl, Cursor.list, hb]; simp
  -- With a left neighbour at hand the read through `prev` is safe.
  have safe : ∀ {p : Capability} {c : Cursor Capability} {t : Tracker},
      (out = .ret 0 ∨ (out = .fault ∧ some p = none ∧ ∃ next rest, c.after = next :: rest ∧
        mergesRight c.elem next = true)) → out = .ret 0 ∨ (out = .fault ∧ ReadsNull curr) := by
    rintro p c t (h | ⟨-, h, -⟩)
    · exact .inl h
    · cases h
  split at h
  · next hml =>
    obtain ⟨hadj, -, hact, hacc, -⟩ := mergesLeft_iff.1 hml
    split at h
    · next hc =>
      obtain ⟨a, rfl, hok⟩ := tycheCall0_cases hc
      cases h
      exact ⟨[.idle], .one (.refused s _ a hok), .cons (.inl rfl) .nil, .inl rfl⟩
    · next hc =>
      obtain ⟨a, rfl, hok⟩ := tycheCall0_cases hc
      obtain ⟨es, hp, hm, hout⟩ := mergeRight_path ⟨before, { prev with end_ := curr.elem.end_ }, curr.after⟩
        rfl hact h
      exact ⟨_, .cons (.merge s _ _ _ _ a hl' hact hst hadj hacc hok) hp, .cons (.inr ⟨_, _, rfl⟩) hm,
        safe (t := s) hout⟩
  · obtain ⟨es, hp, hm, hout⟩ := mergeRight_path curr hl hst h
    exact ⟨es, hp, hm, safe (t := s) hout⟩

theorem findExact_some {start end_ : Nat} {l : List Capability} {c : Cursor Capability}
    (h : findExact start end_ l = some c) : c.list = l ∧ c.elem.Exact start end_ := by
  obtain ⟨h1, h2, -⟩ := Cursor.find_some h
  exact ⟨h1, of_decide_eq_true h2⟩

/-- With no left neighbour and a right one to merge with, the merge faults. -/
theorem attemptMerge_fault {env : Env} {curr : Cursor Capability} {s : Tracker} (hst : curr.elem.status = .active)
    (h : ReadsNull curr) : (attemptMerge env curr s).1 = .fault := by
  obtain ⟨hb, next, rest, ha, hm⟩ := h
  simp [attemptMerge, hst, hb, mergeRight, ha, hm]

/-- The last revocation handle of the entry goes, and the entry becomes
active. -/
def LastOf (curr : Cursor Capability) : Prop :=
  curr.elem.revoks.length = 1 ∧ (curr.elem.status = .paused ∨ curr.elem.isOwned ≠ 0)

/-- What an accepted revocation returns: 0, or the fault of its merge. -/
def RevokeResult (curr : Cursor Capability) (out : Outcome Int) : Prop :=
  (out = .fault ∧ ReadsNull curr ∧ LastOf curr) ∨ (out = .ret 0 ∧ ¬ (ReadsNull curr ∧ LastOf curr))

/-- The revocation of record `r` of the entry `curr`, then the merge step. -/
def Revokes (curr : Cursor Capability) (r : Cursor RevokHandle) (s : Tracker) (out : Outcome Int)
    (s' : Tracker) : Prop :=
  ∃ t es, Micro s (.revoke curr.elem r.elem) t ∧ Path t es s' ∧ Merges es ∧ RevokeResult curr out

theorem revoke_merge {env : Env} {curr : Cursor Capability} {r : Cursor RevokHandle} {s s' : Tracker}
    {a : VmcallAnswer} {out} (hl : s.capabilities = curr.list) (hr : curr.elem.revoks = r.list)
    (hrest : r.remove = []) (hlast : curr.elem.status = .paused ∨ curr.elem.isOwned ≠ 0) (hok : a.ok = true)
    (h : attemptMerge env (curr.put { curr.elem with revoks := r.remove, status := .active })
      (dealloc (.revok r.elem)
        { s with
          capabilities := (curr.put { curr.elem with revoks := r.remove, status := .active }).list
          log := .vmcall (revokFrame r.elem.revokHandle) a :: s.log }) = (out, s')) :
    Revokes curr r s out s' := by
  obtain ⟨es, hp, hm, hout⟩ := attemptMerge_path rfl rfl h
  have hlen : curr.elem.revoks.length = 1 := by rw [hr, r.list_perm.length_eq, hrest]; rfl
  refine ⟨_, es, .revoke s curr r .active a hl hr (.inl ⟨rfl, hrest⟩) hok, hp, hm, ?_⟩
  by_cases hn : ReadsNull curr
  · -- The entry keeps its range and its place, so the merge reads the same.
    have hout : (attemptMerge env _ _).1 = out := congrArg Prod.fst h
    have hfault : out = .fault := hout.symm.trans (attemptMerge_fault rfl hn)
    exact .inl ⟨hfault, hn, hlen, hlast⟩
  · exact .inr ⟨hout.resolve_right fun h => hn h.2, fun h => hn h.1⟩

/-- The monitor refused a revocation. -/
def Refused (s s' : Tracker) : Prop :=
  ∃ h a, a.ok = false ∧ s' = { s with log := .vmcall (revokFrame h) a :: s.log }

theorem Refused.micro {s s' : Tracker} (h : Refused s s') : Micro s .idle s' := by
  obtain ⟨h, a, hok, rfl⟩ := h
  exact .refused s _ a hok

/-- The entry holds no record of `id`, when a paused one holds one record at
most. -/
def NotGiven (id : Nat) (c : Capability) : Prop :=
  (c.status = .paused → c.revoks.length ≤ 1) → ∀ r ∈ c.revoks, r.domain ≠ id

theorem revokePaused_cases {env : Env} {id : Nat} {curr : Cursor Capability} {s s' : Tracker} {out}
    (hl : s.capabilities = curr.list) (hst : curr.elem.status = .paused)
    (h : revokePaused env id curr s = (out, s')) :
    (out = .ret (-1) ∧ ((s' = s ∧ NotGiven id curr.elem) ∨ Refused s s')) ∨
      ∃ r, r.list = curr.elem.revoks ∧ r.elem.domain = id ∧ Revokes curr r s out s' := by
  simp only [revokePaused] at h
  split at h
  · next hrevoks =>
    cases h
    exact .inl ⟨rfl, .inl ⟨rfl, by simp [NotGiven, hrevoks]⟩⟩
  next revok rest hrevoks =>
  split at h
  · next hrest =>
    cases h
    -- More than one record: ruled out for a paused entry.
    refine .inl ⟨rfl, .inl ⟨rfl, fun hlen => ?_⟩⟩
    have := hlen hst
    have : rest ≠ [] := by simpa using hrest
    have := List.length_pos_iff.2 this
    simp only [hrevoks, List.length_cons] at *
    omega
  next hrest =>
  obtain rfl : rest = [] := by simpa using hrest
  split at h
  · next hid =>
    cases h
    exact .inl ⟨rfl, .inl ⟨rfl, by simpa [NotGiven, hrevoks] using hid⟩⟩
  next hid =>
  have hid : revok.domain = id := by simpa using hid
  split at h
  · next hc =>
    obtain ⟨a, rfl, hok⟩ := tycheCall0_cases hc
    cases h
    exact .inl ⟨rfl, .inr ⟨_, a, hok, rfl⟩⟩
  · next hc =>
    obtain ⟨a, rfl, hok⟩ := tycheCall0_cases hc
    exact .inr ⟨⟨[], revok, []⟩, hrevoks.symm, hid, revoke_merge hl hrevoks rfl (.inl hst) hok h⟩

theorem revokeShared_cases {env : Env} {id : Nat} {curr : Cursor Capability} {s s' : Tracker} {out}
    (hl : s.capabilities = curr.list) (hst : curr.elem.status = .shared)
    (h : revokeShared env id curr s = (out, s')) :
    (out = .ret (-1) ∧ ((s' = s ∧ NotGiven id curr.elem) ∨ Refused s s')) ∨
      ∃ r, r.list = curr.elem.revoks ∧ r.elem.domain = id ∧ Revokes curr r s out s' := by
  simp only [revokeShared] at h
  split at h
  · next hfind =>
    cases h
    exact .inl ⟨rfl, .inl ⟨rfl, fun _ r hr => by simpa using Cursor.find_none hfind r hr⟩⟩
  next r hfind =>
  obtain ⟨hrl, hid, -⟩ := Cursor.find_some hfind
  have hid : r.elem.domain = id := by simpa using hid
  split at h
  · next hc =>
    obtain ⟨a, rfl, hok⟩ := tycheCall0_cases hc
    cases h
    exact .inl ⟨rfl, .inr ⟨_, a, hok, rfl⟩⟩
  · next hc =>
    obtain ⟨a, rfl, hok⟩ := tycheCall0_cases hc
    refine .inr ⟨r, hrl, hid, ?_⟩
    split at h
    · next hlast =>
      simp only [Bool.and_eq_true, List.isEmpty_iff, bne_iff_ne] at hlast
      exact revoke_merge hl hrl.symm hlast.1 (.inr hlast.2) hok h
    · next hlast =>
      cases h
      have hrest : curr.elem.isOwned ≠ 0 → r.remove ≠ [] := fun hown hrest => by simp [hrest, hown] at hlast
      have hm := Micro.revoke s curr r .shared a hl hrl.symm (.inr ⟨rfl, hst, hrest⟩) hok
      refine ⟨_, [], hm, ?_, .nil, .inr ⟨rfl, ?_⟩⟩
      · rw [← hst]
        exact .nil _
      · rintro ⟨-, hlen, hown⟩
        have hrest : r.remove = [] := by
          rw [← hrl, r.list_perm.length_eq, List.length_cons] at hlen
          exact List.length_eq_zero_iff.1 (by omega)
        simp [hrest] at hlast
        simp [hst, hlast] at hown

/-- Revocations, when an active entry has no revocation handle: refused, or
the record of `id` on the entry found is revoked and the merges follow. -/
theorem revokeCapa_cases {env : Env} {id start end_ : Nat} {s s' : Tracker} {out}
    (hact : ∀ c ∈ s.capabilities, c.status = .active → c.revoks = [])
    (h : revokeCapa env id start end_ s = (out, s')) :
    (out = .ret (-1) ∧ ((s' = s ∧ (start < end_ →
        ∀ curr, findExact start end_ s.capabilities = some curr → NotGiven id curr.elem)) ∨ Refused s s')) ∨
      ∃ curr r, start < end_ ∧ findExact start end_ s.capabilities = some curr ∧ r.list = curr.elem.revoks ∧
        r.elem.domain = id ∧ Revokes curr r s out s' := by
  simp only [revokeCapa] at h
  split at h
  · next hge =>
    cases h
    exact .inl ⟨rfl, .inl ⟨rfl, fun hlt => absurd hlt (by omega)⟩⟩
  next hlt =>
  split at h
  · next hfind =>
    cases h
    exact .inl ⟨rfl, .inl ⟨rfl, by simp [hfind]⟩⟩
  next curr hfind =>
  obtain ⟨hl, -⟩ := findExact_some hfind
  have found : NotGiven id curr.elem → start < end_ →
      ∀ c, findExact start end_ s.capabilities = some c → NotGiven id c.elem := by
    intro hn _ c hc
    rw [hfind] at hc
    cases hc
    exact hn
  split at h
  · next hempty =>
    cases h
    rw [List.isEmpty_iff] at hempty
    exact .inl ⟨rfl, .inl ⟨rfl, found (by simp [NotGiven, hempty])⟩⟩
  next hne =>
  split at h
  · next hst =>
    rcases revokePaused_cases hl.symm hst h with h | ⟨r, h1, h2, h3⟩
    · exact .inl ⟨h.1, h.2.imp_left fun ⟨h1, h2⟩ => ⟨h1, found h2⟩⟩
    · exact .inr ⟨curr, r, by omega, hfind, h1, h2, h3⟩
  · next hst =>
    rcases revokeShared_cases hl.symm hst h with h | ⟨r, h1, h2, h3⟩
    · exact .inl ⟨h.1, h.2.imp_left fun ⟨h1, h2⟩ => ⟨h1, found h2⟩⟩
    · exact .inr ⟨curr, r, by omega, hfind, h1, h2, h3⟩
  · next hst =>
    have := hact curr.elem (hl ▸ curr.elem_mem) hst
    simp [this] at hne

end Tyche.Capa
