/-
A transfer and its revocation. Where the range is the whole entry, the
revocation leaves the list as the transfer found it. Where the entry was
split, the pieces are at the tail of the list: the revocation merges list
neighbours, so the left piece stays where the entry was and is merged again
only when the entry was the last one.
-/
import Tyche.Capa.Exclusive
import Mathlib.Data.Finset.Lattice.Lemmas

namespace Tyche.Capa

/-! ## What is compared -/

/-- What an entry says of its range. -/
structure View where
  start : Nat
  end_ : Nat
  access : Nat
  status : CapaStatus
  domains : List Nat
deriving DecidableEq, Repr

def Capability.view (c : Capability) : View := ⟨c.start, c.end_, c.access, c.status, c.revoks.map (·.domain)⟩

/-- The views of the non-empty entries. -/
def views (l : List Capability) : Finset View := ((l.filter fun c => decide (c.start < c.end_)).map (·.view)).toFinset

/-- `c` ends where `d` starts, and both could be one entry. -/
def Mergeable (c d : Capability) : Prop :=
  c.end_ = d.start ∧ c.isOwned ≠ 0 ∧ d.isOwned ≠ 0 ∧ c.status = .active ∧ d.status = .active ∧ c.access = d.access

instance (c d : Capability) : Decidable (Mergeable c d) := inferInstanceAs (Decidable (_ ∧ _))

/-- No two entries could be one. -/
def Unmergeable (l : List Capability) : Prop := l.Pairwise fun c d => ¬ Mergeable c d ∧ ¬ Mergeable d c

instance (l : List Capability) : Decidable (Unmergeable l) := inferInstanceAs (Decidable (List.Pairwise _ _))

theorem mem_views {v : View} {l : List Capability} : v ∈ views l ↔ ∃ c ∈ l, c.start < c.end_ ∧ c.view = v := by
  simp [views, and_assoc]

/-! ## The merges an accepting monitor allows -/

/-- The list after `mergeRight`. -/
def mergedRight (prev : Option Capability) (curr : Cursor Capability) : List Capability :=
  match curr.after with
  | [] => curr.list
  | next :: after =>
    if mergesRight curr.elem next && prev.any (·.revoks.isEmpty) then
      Cursor.list ⟨curr.before, { curr.elem with end_ := next.end_ }, after⟩
    else curr.list

/-- The list after `attemptMerge`. -/
def merged (curr : Cursor Capability) : List Capability :=
  match curr.before with
  | [] => mergedRight none curr
  | prev :: before =>
    if mergesLeft prev curr.elem then
      mergedRight (some { prev with end_ := curr.elem.end_ }) ⟨before, { prev with end_ := curr.elem.end_ }, curr.after⟩
    else mergedRight (some prev) curr

theorem mergedRight_nil {prev : Option Capability} {curr : Cursor Capability} (h : curr.after = []) :
    mergedRight prev curr = curr.list := by
  simp only [mergedRight, h]

theorem mergedRight_cons {prev : Option Capability} {curr : Cursor Capability} {next : Capability}
    {after : List Capability} (h : curr.after = next :: after) : mergedRight prev curr =
      if mergesRight curr.elem next && prev.any (·.revoks.isEmpty) then
        Cursor.list ⟨curr.before, { curr.elem with end_ := next.end_ }, after⟩
      else curr.list := by
  simp only [mergedRight, h]

theorem merged_nil {curr : Cursor Capability} (h : curr.before = []) : merged curr = mergedRight none curr := by
  simp only [merged, h]

theorem merged_cons {curr : Cursor Capability} {prev : Capability} {before : List Capability}
    (h : curr.before = prev :: before) : merged curr =
      if mergesLeft prev curr.elem then
        mergedRight (some { prev with end_ := curr.elem.end_ }) ⟨before, { prev with end_ := curr.elem.end_ }, curr.after⟩
      else mergedRight (some prev) curr := by
  simp only [merged, h]

/-- The event is no refusal of the monitor. -/
def Event.unrefused : Event → Bool
  | .vmcall _ a => a.ok
  | _ => true

/-- The monitor accepted every call among the events. -/
def Unrefused (evs : List Event) : Prop := ∀ e ∈ evs, e.unrefused = true

instance (evs : List Event) : Decidable (Unrefused evs) := inferInstanceAs (Decidable (∀ e ∈ evs, _))

/-- The events of the last part of a call are events of the call. -/
theorem Unrefused.last {s t u : Tracker} (h : Unrefused (newEvents s u)) (hst : s.log <:+ t.log) (htu : t.log <:+ u.log) :
    Unrefused (newEvents t u) := by
  obtain ⟨evs, h₁⟩ := hst
  obtain ⟨evs', h₂⟩ := htu
  rw [newEvents_append h₂.symm]
  rw [newEvents_append (by rw [← h₂, ← h₁, ← List.append_assoc])] at h
  exact fun e he => h e (List.mem_append_left _ he)

theorem mergeRight_merged {env : Env} {prev : Option Capability} {curr : Cursor Capability} {s s' : Tracker}
    (hl : s.capabilities = curr.list) (h : mergeRight env prev curr s = (.ret 0, s'))
    (hok : Unrefused (newEvents s s')) : s'.capabilities = mergedRight prev curr := by
  simp only [mergeRight] at h
  split at h
  · next hafter =>
    cases h
    rw [mergedRight_nil hafter, hl]
  next next after hafter =>
  rw [mergedRight_cons hafter]
  split at h
  · next hm =>
    cases h
    simp [hm, hl]
  next hm =>
  have hm : mergesRight curr.elem next = true := by simpa using hm
  split at h
  · cases h
  next prev =>
  split at h
  · next hrevoks =>
    cases h
    simp [hrevoks, hl]
  next hrevoks =>
  have hrevoks : prev.revoks.isEmpty = true := by simpa using hrevoks
  split at h
  · next hc =>
    obtain ⟨a, rfl, ha⟩ := tycheCall0_cases hc
    cases h
    rw [newEvents_append (List.singleton_append ..).symm] at hok
    have := hok _ (List.mem_singleton_self _)
    rw [Event.unrefused, ha] at this
    cases this
  · next hc =>
    obtain ⟨a, rfl, -⟩ := tycheCall0_cases hc
    cases h
    simp [hm, hrevoks, dealloc]

theorem attemptMerge_merged {env : Env} {curr : Cursor Capability} {s s' : Tracker} (hl : s.capabilities = curr.list)
    (hst : curr.elem.status = .active) (h : attemptMerge env curr s = (.ret 0, s'))
    (hok : Unrefused (newEvents s s')) : s'.capabilities = merged curr := by
  simp only [attemptMerge, hst] at h
  split at h
  · contradiction
  split at h
  · next hbefore =>
    rw [merged_nil hbefore]
    exact mergeRight_merged hl h hok
  next prev before hbefore =>
  rw [merged_cons hbefore]
  split at h
  · next hml =>
    rw [if_pos hml]
    split at h
    · next hc =>
      obtain ⟨a, rfl, ha⟩ := tycheCall0_cases hc
      cases h
      rw [newEvents_append (List.singleton_append ..).symm] at hok
      have := hok _ (List.mem_singleton_self _)
      rw [Event.unrefused, ha] at this
      cases this
    · next t hc =>
      obtain ⟨a, rfl, -⟩ := tycheCall0_cases hc
      obtain ⟨es, hp, -⟩ := mergeRight_path ⟨before, { prev with end_ := curr.elem.end_ }, curr.after⟩ rfl
        (mergesLeft_iff.1 hml).2.2.1 h
      refine mergeRight_merged rfl h (hok.last ?_ hp.log_suffix)
      exact (List.suffix_cons ..).trans (List.suffix_cons ..)
  · next hml =>
    rw [if_neg hml]
    exact mergeRight_merged hl h hok

/-! ## The list after a transfer -/

/-- The left part of a split entry. -/
def Capability.leftOf (c : Capability) (start : Nat) : Capability := { c with end_ := start }

/-- The capability of `[start, end_)` split out of `c`, which holds the one
record `r`. -/
def Capability.middleOf (c : Capability) (start end_ tpe ptr handle : Nat) (r : RevokHandle) : Capability :=
  { c with ptr := ptr, handle := handle, start := start, end_ := end_, status := deliverStatus tpe, revoks := [r] }

/-- The right part of a split entry. -/
def Capability.rightOf (c : Capability) (end_ ptr handle : Nat) : Capability :=
  { c with ptr := ptr, handle := handle, start := end_, revoks := [] }

theorem splitCapa_some {env : Env} {c sp : Cursor Capability} {addr : Nat} {s s' : Tracker}
    (h : splitCapa env (some c) addr s = (some sp, s')) :
    splittable c.elem addr = true ∧ s'.capabilities = sp.list ∧ ∃ ptr handle,
      sp = .last (c.put { c.elem with end_ := addr }).list
        { c.elem with ptr := ptr, handle := handle, start := addr, revoks := [] } := by
  simp only [splitCapa] at h
  split at h
  · cases h
  next hs =>
  have hs : splittable c.elem addr = true := by simpa using hs
  split at h
  · cases h
  split at h
  · cases h
  · cases h
    exact ⟨hs, rfl, _, _, rfl⟩

/-- What the split step gives: the entry itself, or the last but one of the
list, with the right part behind it. -/
theorem isolate_some {env : Env} {curr sp : Cursor Capability} {start end_ : Nat} {s s' : Tracker}
    (hl : s.capabilities = curr.list) (hf : transferable start end_ curr.elem = true)
    (h : isolate env curr start end_ s = (some sp, s')) :
    s'.capabilities = sp.list ∧ ((curr.elem.Exact start end_ ∧ sp = curr) ∨
      (¬ curr.elem.Exact start end_ ∧ splittable curr.elem start = true ∧ end_ < curr.elem.end_ ∧ ∃ p q p' q',
        sp = ⟨(curr.put (curr.elem.leftOf start)).list.reverse,
          { curr.elem with ptr := p, handle := q, start := start, end_ := end_, revoks := [] },
          [curr.elem.rightOf end_ p' q']⟩)) := by
  simp only [isolate] at h
  split at h
  · next hx =>
    cases h
    exact ⟨hl, .inl ⟨hx, rfl⟩⟩
  next hx =>
  have hx : ¬ curr.elem.Exact start end_ := hx
  have hend : end_ < curr.elem.end_ := by
    simp only [transferable, contains, Bool.or_eq_true, Bool.and_eq_true, decide_eq_true_eq] at hf
    rcases hf with hf | hf
    · exact absurd hf hx
    · omega
  split at h
  · cases h
  next split t hsplit =>
  obtain ⟨hok, -, p, q, rfl⟩ := splitCapa_some hsplit
  split at h
  · split at h
    · cases h
    next right u hright =>
    obtain ⟨-, hcaps, p', q', rfl⟩ := splitCapa_some hright
    cases h
    refine ⟨?_, .inr ⟨hx, hok, hend, p, q, p', q', rfl⟩⟩
    rw [hcaps]
    simp [Cursor.list, Cursor.last]
  · next hge => exact absurd hend hge

/-- The entry with a record more, as a transfer leaves it. -/
def Capability.delivered (c : Capability) (tpe : Nat) (r : RevokHandle) : Capability :=
  { c with status := deliverStatus tpe, revoks := c.revoks ++ [r] }

/-- The state after the delivery of `c`, which the monitor accepted with the
answer `a`. -/
def Tracker.handedOver (s : Tracker) (c : Cursor Capability) (dom tpe : Nat) (a : VmcallAnswer) : Tracker :=
  { s with
    capabilities := (c.put (c.elem.delivered tpe ⟨s.heap, dom, a.ret1⟩)).list
    heap := s.heap + 1
    log := .vmcall (deliverFrame dom c.elem.handle tpe) a :: .alloc (some s.heap) :: s.log }

theorem grantStep_zero {env : Env} {dom tpe : Nat} {c : Cursor Capability} {s s' : Tracker}
    (ht : isConfidential tpe = true) (h : grantStep env dom tpe c s = (0, s')) :
    ∃ a : VmcallAnswer, a.ok = true ∧ s' = s.handedOver c dom tpe a := by
  simp only [grantStep] at h
  split at h
  · cases h
  next ha =>
  split at h
  · cases h
  next hc =>
  rcases alloc_cases ha with ⟨h', -⟩ | ⟨h', rfl⟩
  · cases h'
  obtain ⟨a, rfl, ⟨hok, h''⟩ | ⟨-, h''⟩⟩ := tycheCall1_cases hc
  · cases h'
    cases h''
    cases h
    refine ⟨a, hok, ?_⟩
    simp [Tracker.handedOver, Capability.delivered, deliverStatus, deliverFrame, ht]
  · cases h''

theorem shareStep_zero {env : Env} {dom tpe : Nat} {c : Cursor Capability} {s s' : Tracker}
    (ht : isConfidential tpe = false) (h : shareStep env dom tpe c s = (0, s')) :
    ∃ a : VmcallAnswer, a.ok = true ∧ s' = s.handedOver c dom tpe a := by
  simp only [shareStep] at h
  split at h
  · cases h
  split at h
  · cases h
  next ha =>
  split at h
  · cases h
  next hc =>
  rcases alloc_cases ha with ⟨h', -⟩ | ⟨h', rfl⟩
  · cases h'
  obtain ⟨a, rfl, ⟨hok, h''⟩ | ⟨-, h''⟩⟩ := tycheCall1_cases hc
  · cases h'
    cases h''
    cases h
    refine ⟨a, hok, ?_⟩
    simp [Tracker.handedOver, Capability.delivered, deliverStatus, deliverFrame, ht]
  · cases h''

/-- The list after a transfer that returned 0. -/
theorem transferCapa_list {env : Env} {dom start end_ tpe : Nat} {s s' : Tracker}
    (h : transferCapa env dom start end_ tpe s = (0, s')) :
    ∃ curr r, Selected s start end_ tpe curr ∧
      ((curr.elem.Exact start end_ ∧ s'.capabilities = (curr.put (curr.elem.delivered tpe r)).list) ∨
        (¬ curr.elem.Exact start end_ ∧ splittable curr.elem start = true ∧ end_ < curr.elem.end_ ∧ ∃ p q p' q',
          s'.capabilities = (curr.put (curr.elem.leftOf start)).list ++
            [curr.elem.middleOf start end_ tpe p q r, curr.elem.rightOf end_ p' q'])) := by
  simp only [transferCapa] at h
  split at h
  · cases h
  next hbad =>
  have hbad : badTransfer start end_ tpe = false := by simpa using hbad
  split at h
  · cases h
  next curr hfind =>
  obtain ⟨hlist, hcurr, -⟩ := Cursor.find_some hfind
  split at h
  · cases h
  next hok =>
  have hok : transferAllowed tpe curr.elem = true := by simpa using hok
  split at h
  · cases h
  next sp t hi =>
  obtain ⟨-, hsp⟩ := isolate_some hlist.symm hcurr hi
  have hlast : ∃ a : VmcallAnswer, a.ok = true ∧ s' = t.handedOver sp dom tpe a := by
    split at h
    · next ht => exact grantStep_zero ht h
    · next ht => exact shareStep_zero (by simpa using ht) h
  obtain ⟨a, -, rfl⟩ := hlast
  have hcaps : (t.handedOver sp dom tpe a).capabilities = (sp.put (sp.elem.delivered tpe ⟨t.heap, dom, a.ret1⟩)).list := rfl
  refine ⟨curr, ⟨t.heap, dom, a.ret1⟩, ⟨hbad, hfind, hok⟩, ?_⟩
  rcases hsp with ⟨hx, rfl⟩ | ⟨hx, hs, hend, p, q, p', q', rfl⟩
  · exact .inl ⟨hx, hcaps⟩
  · refine .inr ⟨hx, hs, hend, p, q, p', q', ?_⟩
    rw [hcaps]
    simp [Cursor.list, Capability.delivered, Capability.middleOf]

/-! ## The list after a revocation -/

/-- The entry as the revocation of its last record leaves it. -/
def Capability.released (c : Capability) : Capability := { c with revoks := [], status := .active }

/-- The state after the revocation of the one record `r` of the entry, which
the monitor accepted with the answer `a`. -/
def Tracker.freed (s : Tracker) (c : Cursor Capability) (r : RevokHandle) (a : VmcallAnswer) : Tracker :=
  dealloc (.revok r)
    { s with
      capabilities := (c.put c.elem.released).list
      log := .vmcall (revokFrame r.revokHandle) a :: s.log }

/-- The revocation of the one record of an entry: it is refused, or the merges
follow. -/
theorem revokeCapa_one {env : Env} {id start end_ : Nat} {s s' : Tracker} {c : Cursor Capability} {r : RevokHandle} {out}
    (hfind : findExact start end_ s.capabilities = some c) (hrevoks : c.elem.revoks = [r])
    (hlast : c.elem.status = .paused ∨ c.elem.isOwned ≠ 0) (hst : c.elem.status ≠ .active)
    (h : revokeCapa env id start end_ s = (out, s')) :
    (out = .ret (-1) ∧ (s' = s ∨ Refused s s')) ∨
      ∃ a : VmcallAnswer, a.ok = true ∧ attemptMerge env (c.put c.elem.released) (s.freed c r a) = (out, s') := by
  simp only [revokeCapa, hfind, hrevoks] at h
  split at h
  · cases h
    exact .inl ⟨rfl, .inl rfl⟩
  split at h
  · cases h
    exact .inl ⟨rfl, .inl rfl⟩
  split at h
  · simp only [revokePaused, hrevoks] at h
    split at h
    · cases h
      exact .inl ⟨rfl, .inl rfl⟩
    split at h
    · cases h
      exact .inl ⟨rfl, .inl rfl⟩
    split at h
    · next hc =>
      obtain ⟨a, rfl, hok⟩ := tycheCall0_cases hc
      cases h
      exact .inl ⟨rfl, .inr ⟨_, a, hok, rfl⟩⟩
    · next hc =>
      obtain ⟨a, rfl, hok⟩ := tycheCall0_cases hc
      exact .inr ⟨a, hok, h⟩
  · next hshared =>
    have hown : c.elem.isOwned ≠ 0 := hlast.resolve_left (by simp [hshared])
    simp only [revokeShared, hrevoks] at h
    split at h
    · cases h
      exact .inl ⟨rfl, .inl rfl⟩
    next rev hrev =>
    obtain ⟨hl, -⟩ := Cursor.find_some hrev
    obtain ⟨rfl, hrest⟩ : rev.elem = r ∧ rev.remove = [] := by
      have hperm := rev.list_perm
      rw [hl] at hperm
      have := List.singleton_perm.1 hperm
      simp at this
      exact ⟨this.1.symm, this.2⟩
    split at h
    · next hc =>
      obtain ⟨a, rfl, hok⟩ := tycheCall0_cases hc
      cases h
      exact .inl ⟨rfl, .inr ⟨_, a, hok, rfl⟩⟩
    · next hc =>
      obtain ⟨a, rfl, hok⟩ := tycheCall0_cases hc
      simp [hrest, hown] at h
      exact .inr ⟨a, hok, h⟩
  · next h' => exact absurd h' hst

/-- The revocation of the one record of an entry, and its merges. -/
theorem revokeCapa_list {env : Env} {id start end_ : Nat} {s s' : Tracker} {c : Cursor Capability} {r : RevokHandle}
    (hfind : findExact start end_ s.capabilities = some c) (hrevoks : c.elem.revoks = [r]) (hown : c.elem.isOwned ≠ 0)
    (hst : c.elem.status ≠ .active) (h : revokeCapa env id start end_ s = (.ret 0, s'))
    (hok : Unrefused (newEvents s s')) : s'.capabilities = merged (c.put c.elem.released) := by
  rcases revokeCapa_one hfind hrevoks (.inr hown) hst h with ⟨h0, -⟩ | ⟨a, -, h⟩
  · cases h0
  obtain ⟨es, hp, -⟩ := attemptMerge_path rfl rfl h
  refine attemptMerge_merged rfl rfl h (hok.last ?_ hp.log_suffix)
  exact (List.suffix_cons ..).trans (List.suffix_cons ..)

/-! ## The merges of the revocation -/

/-- The entry at a position could be one with no other entry. -/
theorem Unmergeable.other {c : Cursor Capability} {d : Capability} (h : Unmergeable c.list) (hd : d ∈ c.remove) :
    ¬ Mergeable c.elem d ∧ ¬ Mergeable d c.elem := by
  have hperm := (c.list_perm.pairwise_iff fun {_ _} h => ⟨h.2, h.1⟩).1 h
  exact (List.pairwise_cons.1 hperm).1 d hd

/-- Where no neighbour could be one with the entry, nothing is merged. -/
theorem merged_self {c : Cursor Capability} (h : Unmergeable c.list) (hown : c.elem.isOwned ≠ 0)
    (hact : c.elem.status = .active) : merged c = c.list := by
  have hright : ∀ prev, mergedRight prev c = c.list := by
    intro prev
    cases hafter : c.after with
    | nil => exact mergedRight_nil hafter
    | cons next after =>
    have hno : mergesRight c.elem next = false := by
      by_contra hm
      obtain ⟨hadj, hown', hact', hacc⟩ := mergesRight_iff.1 (eq_true_of_ne_false hm)
      exact (h.other (d := next) (by simp [Cursor.remove, hafter])).1 ⟨hadj, hown, hown', hact, hact', hacc.symm⟩
    rw [mergedRight_cons hafter, hno]
    rfl
  cases hbefore : c.before with
  | nil => rw [merged_nil hbefore, hright]
  | cons prev before =>
  have hno : mergesLeft prev c.elem = false := by
    by_contra hm
    obtain ⟨hadj, hown', hact', hacc, -⟩ := mergesLeft_iff.1 (eq_true_of_ne_false hm)
    exact (h.other (d := prev) (by simp [Cursor.remove, hbefore])).2 ⟨hadj, hown', hown, hact', hact, hacc⟩
  rw [merged_cons hbefore, hno]
  exact hright _

/-- The merges of the last entry but one, which could be one with the last. -/
theorem merged_last {l : List Capability} {prev c d : Capability} (hd : mergesRight c d = true) :
    merged ⟨(l ++ [prev]).reverse, c, [d]⟩ =
      if mergesLeft prev c then l ++ [{ prev with end_ := d.end_ }]
      else if prev.revoks.isEmpty then l ++ [prev, { c with end_ := d.end_ }]
      else l ++ [prev, c, d] := by
  obtain ⟨hadj, hown, hact, hacc⟩ := mergesRight_iff.1 hd
  rw [List.reverse_append, List.reverse_singleton, List.singleton_append, merged_cons rfl]
  split_ifs with hm hrevoks
  · obtain ⟨-, -, -, hacc', hnone⟩ := mergesLeft_iff.1 hm
    have hd' : mergesRight { prev with end_ := c.end_ } d = true :=
      mergesRight_iff.2 ⟨hadj, hown, hact, hacc.trans hacc'.symm⟩
    have hfree : prev.revoks.isEmpty = true := by simp [hnone]
    simp only [if_true, mergedRight, hd', Option.any_some, hfree, Bool.and_self, Cursor.list, List.reverse_reverse]
  · simp [mergedRight, hd, hrevoks, Cursor.list]
  · simp [mergedRight, hrevoks, Cursor.list]

/-! ## Grant (or share), then revoke -/

/-- The transfer finds an active entry of the domain, whose range it takes as
a whole; or the last entry of the list; or the head of an entry that is not
the last, with no revocation handle on the last. -/
def Restorable (start end_ : Nat) (l : List Capability) : Prop :=
  ∃ curr ∈ Cursor.find (transferable start end_) l, curr.elem.isOwned ≠ 0 ∧ curr.elem.status = .active ∧
    (curr.elem.Exact start end_ ∨ curr.after = [] ∨
      (curr.elem.start = start ∧ (∀ c ∈ curr.after.getLast?, c.revoks = []) ∧ ∀ c ∈ curr.after, ¬ c.Exact start end_))

instance (start end_ : Nat) (l : List Capability) : Decidable (Restorable start end_ l) :=
  inferInstanceAs (Decidable (∃ curr ∈ Cursor.find _ l, _))

section
variable {env : Env} {dom start end_ tpe p q p' q' : Nat} {s t u : Tracker} {curr : Cursor Capability} {r : RevokHandle}

theorem transferable_exact {c : Capability} (h : c.Exact start end_) : transferable start end_ c = true := by
  simp [transferable, h.1, h.2]

/-- The entry was taken as a whole. -/
theorem restore_exact (hl : Ledger s) (hun : Unmergeable s.capabilities)
    (hfind : Cursor.find (transferable start end_) s.capabilities = some curr) (hown : curr.elem.isOwned ≠ 0)
    (hact : curr.elem.status = .active) (hx : curr.elem.Exact start end_)
    (ht : t.capabilities = (curr.put (curr.elem.delivered tpe r)).list)
    (h : revokeCapa env dom start end_ t = (.ret 0, u)) (hok : Unrefused (newEvents t u)) :
    u.capabilities = s.capabilities := by
  obtain ⟨hlist, -, hbefore⟩ := Cursor.find_some hfind
  have hrevoks : curr.elem.revoks = [] := hl.active _ (hlist ▸ curr.elem_mem) hact
  have hfind' : findExact start end_ t.capabilities = some (curr.put (curr.elem.delivered tpe r)) := by
    rw [ht]
    refine Cursor.find_list _ (fun c hc => ?_) (decide_eq_true hx)
    by_contra hx'
    have := transferable_exact (of_decide_eq_true (eq_true_of_ne_false hx'))
    rw [hbefore c hc] at this
    cases this
  have hone : (curr.elem.delivered tpe r).revoks = [r] := by simp [Capability.delivered, hrevoks]
  rw [revokeCapa_list hfind' hone hown deliverStatus_ne_active h hok]
  have hsame : (curr.elem.delivered tpe r).released = curr.elem := by
    rw [Capability.released, Capability.delivered, ← hrevoks, ← hact]
  rw [Cursor.put_put, Cursor.put_elem, hsame]
  show merged curr = s.capabilities
  rw [merged_self (hlist ▸ hun) hown hact, hlist]

/-- The entry was split, and the revocation finds the part that was given. -/
theorem revoke_split (hlt : start < end_) (hfind : Cursor.find (transferable start end_) s.capabilities = some curr)
    (hown : curr.elem.isOwned ≠ 0) (hno : ∀ c ∈ curr.after, ¬ c.Exact start end_)
    (ht : t.capabilities = (curr.put (curr.elem.leftOf start)).list ++
      [curr.elem.middleOf start end_ tpe p q r, curr.elem.rightOf end_ p' q'])
    (h : revokeCapa env dom start end_ t = (.ret 0, u)) (hok : Unrefused (newEvents t u)) :
    u.capabilities = merged ⟨(curr.put (curr.elem.leftOf start)).list.reverse,
      (curr.elem.middleOf start end_ tpe p q r).released, [curr.elem.rightOf end_ p' q']⟩ := by
  obtain ⟨-, -, hbefore⟩ := Cursor.find_some hfind
  let c : Cursor Capability := ⟨(curr.put (curr.elem.leftOf start)).list.reverse,
    curr.elem.middleOf start end_ tpe p q r, [curr.elem.rightOf end_ p' q']⟩
  have hfind' : findExact start end_ t.capabilities = some c := by
    rw [ht, show _ ++ _ = c.list by simp [c, Cursor.list]]
    refine Cursor.find_list _ (fun d hd => decide_eq_false fun hx => ?_) (by simp [c, Capability.middleOf])
    rcases Cursor.mem_list.1 (List.mem_reverse.1 hd) with rfl | hd
    · have : start = end_ := hx.2
      omega
    · rcases List.mem_append.1 hd with hd | hd
      · have := transferable_exact hx
        rw [hbefore d (List.mem_reverse.1 hd)] at this
        cases this
      · exact hno d hd hx
  exact revokeCapa_list hfind' rfl hown deliverStatus_ne_active h hok

/-- The right piece could be one with the piece given back. -/
theorem mergesRight_pieces (hown : curr.elem.isOwned ≠ 0) (hact : curr.elem.status = .active) :
    mergesRight (curr.elem.middleOf start end_ tpe p q r).released (curr.elem.rightOf end_ p' q') = true :=
  mergesRight_iff.2 ⟨rfl, hown, hact, rfl⟩

/-- The entry was the last one: its pieces are neighbours, and become one
again. -/
theorem restore_last (hown : curr.elem.isOwned ≠ 0) (hact : curr.elem.status = .active) (hrevoks : curr.elem.revoks = [])
    (hlast : curr.after = []) : merged ⟨(curr.put (curr.elem.leftOf start)).list.reverse,
      (curr.elem.middleOf start end_ tpe p q r).released, [curr.elem.rightOf end_ p' q']⟩ = curr.list := by
  have hlist : (curr.put (curr.elem.leftOf start)).list = curr.before.reverse ++ [curr.elem.leftOf start] := by
    simp [Cursor.list, hlast]
  have hleft : mergesLeft (curr.elem.leftOf start) (curr.elem.middleOf start end_ tpe p q r).released = true :=
    mergesLeft_iff.2 ⟨rfl, hown, hact, rfl, hrevoks⟩
  rw [hlist, merged_last (mergesRight_pieces hown hact), if_pos hleft, Cursor.list, hlast]
  rfl

/-- The entry was not the last one: the piece given back is merged with the
right piece or not, and the left piece stays alone. -/
theorem merged_pieces {l : List Capability} {last : Capability} (hown : curr.elem.isOwned ≠ 0)
    (hact : curr.elem.status = .active) (hafter : curr.after = l ++ [last])
    (hleft : mergesLeft last (curr.elem.middleOf start end_ tpe p q r).released = false) :
    merged ⟨(curr.put (curr.elem.leftOf start)).list.reverse,
      (curr.elem.middleOf start end_ tpe p q r).released, [curr.elem.rightOf end_ p' q']⟩ =
      if last.revoks.isEmpty then (curr.put (curr.elem.leftOf start)).list ++
        [{ (curr.elem.middleOf start end_ tpe p q r).released with end_ := curr.elem.end_ }]
      else (curr.put (curr.elem.leftOf start)).list ++
        [(curr.elem.middleOf start end_ tpe p q r).released, curr.elem.rightOf end_ p' q'] := by
  have hlist : (curr.put (curr.elem.leftOf start)).list =
      (curr.before.reverse ++ curr.elem.leftOf start :: l) ++ [last] := by
    simp [Cursor.list, hafter]
  rw [hlist, merged_last (mergesRight_pieces hown hact), hleft]
  simp only [Bool.false_eq_true, if_false, List.append_assoc, List.cons_append, List.nil_append]
  rfl

theorem views_append (l l' : List Capability) : views (l ++ l') = views l ∪ views l' := by
  simp [views]

theorem views_empty {c : Capability} (h : ¬ c.start < c.end_) : views [c] = ∅ := by
  simp [views, h]

theorem views_congr {c d : Capability} (h : c.view = d.view) : views [c] = views [d] := by
  have hstart : c.start = d.start := congrArg View.start h
  have hend : c.end_ = d.end_ := congrArg View.end_ h
  ext v
  simp [mem_views, hstart, hend, h]

theorem views_list (c : Cursor Capability) : views c.list = views c.remove ∪ views [c.elem] := by
  rw [Cursor.list, Cursor.remove, List.append_cons, views_append, views_append, views_append, Finset.union_right_comm]

/-- The transfer and its revocation, with the state between them. -/
structure RoundTrip (env : Env) (dom start end_ tpe : Nat) (s t u : Tracker) : Prop where
  ledger : Ledger s
  transfer : transferCapa env dom start end_ tpe s = (0, t)
  revoke : revokeCapa env dom start end_ t = (.ret 0, u)
  accepted : Unrefused (newEvents s u)

theorem RoundTrip.paths (h : RoundTrip env dom start end_ tpe s t u) : (∃ es, Path s es t) ∧ ∃ es, Path t es u := by
  obtain ⟨es, hp, -⟩ := transferCapa_effects h.transfer
  obtain ⟨es', hp', -⟩ := revokeCapa_effects (h.ledger.path hp).active h.revoke
  exact ⟨⟨es, hp⟩, es', hp'⟩

theorem RoundTrip.unrefused (h : RoundTrip env dom start end_ tpe s t u) : Unrefused (newEvents t u) := by
  obtain ⟨⟨es, hp⟩, es', hp'⟩ := h.paths
  exact h.accepted.last hp.log_suffix hp'.log_suffix

/-- No address is covered more often. -/
theorem RoundTrip.covering_le (h : RoundTrip env dom start end_ tpe s t u) (a : Nat) :
    covering a u.capabilities ≤ covering a s.capabilities := by
  obtain ⟨⟨es, hp⟩, es', hp'⟩ := h.paths
  exact (hp.append hp').invariant (P := fun v => covering a v.capabilities ≤ covering a s.capabilities)
    (fun _ _ _ _ hs hm => (hm.coverage_le a _).trans hs) (Nat.le_refl _)

theorem RoundTrip.lt (h : RoundTrip env dom start end_ tpe s t u) : start < end_ := by
  obtain ⟨curr, r, ⟨hbad, -⟩, -⟩ := transferCapa_list h.transfer
  simp only [badTransfer, decide_eq_false_iff_not] at hbad
  omega

theorem RoundTrip.restores (h : RoundTrip env dom start end_ tpe s t u) (hun : Unmergeable s.capabilities)
    (hr : Restorable start end_ s.capabilities) : views u.capabilities = views s.capabilities := by
  obtain ⟨curr, hfind, hown, hact, hcase⟩ := hr
  have hfind : Cursor.find (transferable start end_) s.capabilities = some curr := hfind
  obtain ⟨hlist, -⟩ := Cursor.find_some hfind
  have hrevoks : curr.elem.revoks = [] := h.ledger.active _ (hlist ▸ curr.elem_mem) hact
  have hlt := h.lt
  obtain ⟨curr', r, ⟨-, hfind', -⟩, ht⟩ := transferCapa_list h.transfer
  obtain rfl : curr = curr' := Option.some.inj (hfind.symm.trans hfind')
  rcases ht with ⟨hx, ht⟩ | ⟨hx, -, hend, p, q, p', q', ht⟩
  · rw [restore_exact h.ledger hun hfind hown hact hx ht h.revoke h.unrefused]
  rcases hcase with hx' | hlast | ⟨rfl, hlast, hno⟩
  · exact absurd hx' hx
  · rw [revoke_split hlt hfind hown (by simp [hlast]) ht h.revoke h.unrefused, restore_last hown hact hrevoks hlast, hlist]
  · rw [revoke_split hlt hfind hown hno ht h.revoke h.unrefused]
    by_cases hafter : curr.after = []
    · rw [restore_last hown hact hrevoks hafter, hlist]
    · obtain ⟨l, last, hl⟩ : ∃ l last, curr.after = l ++ [last] := ⟨_, _, (List.dropLast_append_getLast hafter).symm⟩
      have hfree : last.revoks = [] := hlast last (by simp [hl])
      have hleft : mergesLeft last (curr.elem.middleOf curr.elem.start end_ tpe p q r).released = false := by
        by_contra hm
        obtain ⟨hadj, hown', hact', hacc, -⟩ := mergesLeft_iff.1 (eq_true_of_ne_false hm)
        refine (Unmergeable.other (hlist ▸ hun) (d := last) ?_).2 ⟨hadj, hown', hown, hact', hact, hacc⟩
        simp [Cursor.remove, hl]
      -- The left piece is empty, and the other two are one again.
      rw [merged_pieces hown hact hl hleft, if_pos (by simp [hfree]), ← hlist, views_append, views_list, views_list curr]
      rw [Cursor.put_remove, Cursor.put_elem, views_empty (by simp [Capability.leftOf]), Finset.union_empty]
      congr 1
      refine views_congr ?_
      simp [Capability.view, Capability.middleOf, Capability.released, hact, hrevoks]

/-- Where entries do not overlap, one entry covers an address. -/
theorem covers_unique {a : Nat} {l : List Capability} {c d : Capability} (h : covering a l ≤ 1) (hc : c ∈ l) (hd : d ∈ l)
    (hca : c.covers a = true) (hda : d.covers a = true) : c = d := by
  obtain ⟨b, b', rfl⟩ := List.append_of_mem hc
  by_contra hne
  have hd : d ∈ b ++ b' := by
    rcases List.mem_append.1 hd with hd | hd
    · exact List.mem_append_left _ hd
    · exact List.mem_append_right _ ((List.mem_cons.1 hd).resolve_left fun heq => hne heq.symm)
  have hlist : (⟨b.reverse, c, b'⟩ : Cursor Capability).list = b ++ c :: b' := by simp [Cursor.list]
  have := covers_remove (c := ⟨b.reverse, c, b'⟩) (hlist ▸ h) hca d (by simpa [Cursor.remove] using hd)
  rw [hda] at this
  cases this

/-- The left piece stays where the entry was. -/
theorem left_mem_merged {l : List Capability} {last : Capability} (hown : curr.elem.isOwned ≠ 0)
    (hact : curr.elem.status = .active) (hafter : curr.after = l ++ [last]) :
    curr.elem.leftOf start ∈ merged ⟨(curr.put (curr.elem.leftOf start)).list.reverse,
      (curr.elem.middleOf start end_ tpe p q r).released, [curr.elem.rightOf end_ p' q']⟩ := by
  have hlist : (curr.put (curr.elem.leftOf start)).list =
      (curr.before.reverse ++ curr.elem.leftOf start :: l) ++ [last] := by
    simp [Cursor.list, hafter]
  rw [hlist, merged_last (mergesRight_pieces hown hact)]
  split_ifs <;> simp

/-- Among entries that do not overlap, a round trip that is no round trip of
`Restorable` leaves the entry in pieces. -/
theorem RoundTrip.fragments (h : RoundTrip env dom start end_ tpe s t u)
    (hapart : ∀ a, covering a s.capabilities ≤ 1) {e : Capability} (he : e ∈ s.capabilities) (hown : e.isOwned ≠ 0)
    (hact : e.status = .active) (hstart : e.start ≤ start) (hend : end_ ≤ e.end_)
    (hr : ¬ Restorable start end_ s.capabilities) : views u.capabilities ≠ views s.capabilities := by
  have hlt := h.lt
  obtain ⟨curr, r, ⟨-, hfind, -⟩, ht⟩ := transferCapa_list h.transfer
  obtain ⟨hlist, hcurr, -⟩ := Cursor.find_some hfind
  have hmem : curr.elem ∈ s.capabilities := hlist ▸ curr.elem_mem
  have hcovers : curr.elem.covers start = true := by
    simp only [transferable, contains, Bool.or_eq_true, Bool.and_eq_true, decide_eq_true_eq] at hcurr
    exact covers_iff.2 (by omega)
  obtain rfl : e = curr.elem := covers_unique (hapart start) he hmem (covers_iff.2 (by omega)) hcovers
  have hexact : ¬ curr.elem.Exact start end_ := fun hx => hr ⟨curr, hfind, hown, hact, .inl hx⟩
  rcases ht with ⟨hx, -⟩ | ⟨-, -, hend', p, q, p', q', ht⟩
  · exact absurd hx hexact
  have hafter : curr.after ≠ [] := fun hnil => hr ⟨curr, hfind, hown, hact, .inr (.inl hnil)⟩
  obtain ⟨l, last, hl⟩ : ∃ l last, curr.after = l ++ [last] := ⟨_, _, (List.dropLast_append_getLast hafter).symm⟩
  have hno : ∀ c ∈ curr.after, ¬ c.Exact start end_ := by
    intro c hc hx
    have := covers_remove (hlist ▸ hapart start) hcovers c (by simp [Cursor.remove, hc])
    rw [Bool.eq_false_iff] at this
    exact this (covers_iff.2 ⟨Nat.le_of_eq hx.1, hx.2 ▸ hlt⟩)
  have hu := revoke_split hlt hfind hown hno ht h.revoke h.unrefused
  -- A piece that begins where the entry did, and ends before it.
  obtain ⟨y, hy, hstart', hend''⟩ : ∃ y ∈ u.capabilities, y.covers curr.elem.start = true ∧ y.end_ < curr.elem.end_ := by
    rw [hu]
    by_cases hhead : curr.elem.start = start
    · have hheld : last.revoks ≠ [] := by
        intro hnil
        refine hr ⟨curr, hfind, hown, hact, .inr (.inr ⟨hhead, ?_, hno⟩)⟩
        simpa [hl] using hnil
      have hleft : mergesLeft last (curr.elem.middleOf start end_ tpe p q r).released = false := by
        by_contra hm
        exact hheld (mergesLeft_iff.1 (eq_true_of_ne_false hm)).2.2.2.2
      rw [merged_pieces hown hact hl hleft, if_neg (by simpa using hheld)]
      refine ⟨(curr.elem.middleOf start end_ tpe p q r).released, by simp, covers_iff.2 ?_, hend'⟩
      exact ⟨Nat.le_of_eq hhead.symm, by rw [hhead]; exact hlt⟩
    · refine ⟨_, left_mem_merged hown hact hl, covers_iff.2 ⟨Nat.le_refl _, ?_⟩, ?_⟩
      · show curr.elem.start < start
        omega
      · show start < curr.elem.end_
        omega
  intro heq
  have hview : curr.elem.view ∈ views u.capabilities := heq ▸ mem_views.2 ⟨_, hmem, by omega, rfl⟩
  obtain ⟨x, hx, hx', hview⟩ := mem_views.1 hview
  have h₁ : x.start = curr.elem.start := congrArg View.start hview
  have h₂ : x.end_ = curr.elem.end_ := congrArg View.end_ hview
  have hone := (h.covering_le curr.elem.start).trans (hapart _)
  obtain rfl : x = y := covers_unique hone hx hy (covers_iff.2 (by omega)) hstart'
  omega

end

/-- **Grant (or share), then revoke**, on an entry the domain owns: the
entries say what they said before when the transfer took a whole entry, the
last entry of the list, or the head of an entry where the last one holds no
revocation handle; and only then, unless entries overlap. -/
theorem transfer_revoke_restores {env : Env} {x y : Config} {dom start end_ tpe : Nat} {e : Capability} {t u : Tracker}
    (hx : Started env x) (h : Run env apiCall x y) (hun : Unmergeable y.tracker.capabilities)
    (he : e ∈ y.tracker.capabilities) (hown : e.isOwned ≠ 0) (hact : e.status = .active) (hstart : e.start ≤ start)
    (hend : end_ ≤ e.end_) (ht : transferCapa env dom start end_ tpe y.tracker = (0, t))
    (hu : revokeCapa env dom start end_ t = (.ret 0, u)) (hok : Unrefused (newEvents y.tracker u)) :
    (Restorable start end_ y.tracker.capabilities → views u.capabilities = views y.tracker.capabilities) ∧
      ((∀ a, covering a y.tracker.capabilities ≤ 1) →
        (views u.capabilities = views y.tracker.capabilities ↔ Restorable start end_ y.tracker.capabilities)) := by
  have hround : RoundTrip env dom start end_ tpe y.tracker t u := ⟨h.ledger hx.ledger, ht, hu, hok⟩
  refine ⟨hround.restores hun, fun hapart => ⟨fun hviews => ?_, hround.restores hun⟩⟩
  by_contra hr
  exact hround.fragments hapart he hown hact hstart hend hr hviews

/-- The first page of the second region, granted and revoked. -/
theorem transfer_revoke_restores_granting :
    let env := Env.granting [(0, 0x10000), (0x20000, 0x30000)]
    let s := (Config.start env).tracker
    views (revokeCapa env 1 0x20000 0x21000 (transferCapa env 1 0x20000 0x21000 confidential s).2).2.capabilities =
      views s.capabilities :=
  (transfer_revoke_restores (Config.started (by decide)) .refl (by decide)
    (e := ⟨1, 1, 0x20000, 0x30000, 1, 0, 7, .active, []⟩) (by decide) (by decide) rfl (by decide) (by decide)
    (Prod.ext (by decide) rfl) (Prod.ext (by decide) rfl) (by decide)).1 (by decide)

/-- Two regions; a part of the first one granted and revoked leaves two
entries where there was one. -/
theorem transfer_revoke_fragments :
    ¬ ∀ (env : Env) (x y : Config) (dom start end_ tpe : Nat) (e : Capability) (t u : Tracker), Started env x →
      Run env apiCall x y → Unmergeable y.tracker.capabilities → e ∈ y.tracker.capabilities → e.isOwned ≠ 0 →
      e.status = .active → e.start ≤ start → end_ ≤ e.end_ → transferCapa env dom start end_ tpe y.tracker = (0, t) →
      revokeCapa env dom start end_ t = (.ret 0, u) → Unrefused (newEvents y.tracker u) →
        views u.capabilities = views y.tracker.capabilities := by
  intro h
  let env := Env.granting [(0, 0x10000), (0x20000, 0x30000)]
  have h' := h env _ _ 1 0x2000 0x4000 confidential ⟨0, 0, 0, 0x10000, 1, 0, 7, .active, []⟩ _ _
    (Config.started (by decide)) .refl (by decide) (by decide) (by decide) rfl (by decide) (by decide)
    (Prod.ext (by decide) rfl) (Prod.ext (by decide) rfl) (by decide)
  exact absurd h' (by decide)

end Tyche.Capa
