/-
What was transferred can be revoked, as long as no other transfer splits the
entry that holds its record, and the merge after the revocation does not
read through NULL. Both happen: the split of a shared entry leaves no entry
of the range that was transferred, and the first entry of the list has no
left neighbour to read (`revocable_fails`).
-/
import Tyche.Capa.Exclusive

namespace Tyche.Capa

/-! ## Ranges -/

theorem Capability.Exact.covers {c : Capability} {start end_ : Nat} (h : c.Exact start end_) (hlt : start < end_) :
    c.covers start = true := covers_iff.2 ⟨Nat.le_of_eq h.1, by rw [h.2]; exact hlt⟩

/-- The entry a transfer works on covers the start of its range. -/
theorem transferable_covers {start end_ : Nat} {c : Capability} (hlt : start < end_) (h : transferable start end_ c = true) :
    c.covers start = true := by
  simp only [transferable, contains, Bool.or_eq_true, Bool.and_eq_true, decide_eq_true_eq] at h
  rw [covers_iff]
  omega

/-- One entry covers an address at most. -/
theorem eq_of_covers {a : Nat} {l : List Capability} (hone : covering a l ≤ 1) {c : Cursor Capability} (hlist : c.list = l)
    (hc : c.elem.covers a = true) {d : Capability} (hd : d ∈ l) (hda : d.covers a = true) : d = c.elem := by
  rcases Cursor.mem_list.1 (hlist ▸ hd) with h | h
  · exact h
  · rw [covers_remove (hlist ▸ hone) hc d h] at hda
    cases hda

/-! ## The record of a transfer -/

/-- The entry of exactly `[start, end_)` holds a record of `dom`. -/
def Held (dom start end_ : Nat) (s : Tracker) : Prop :=
  ∃ c ∈ s.capabilities, c.Exact start end_ ∧ ∃ r ∈ c.revoks, r.domain = dom

/-- The entry holds a record of `dom` and has the range. -/
def Capability.holds (c : Capability) (dom start end_ : Nat) : Bool :=
  decide (c.Exact start end_) && c.revoks.any (·.domain == dom)

theorem holds_iff {c : Capability} {dom start end_ : Nat} :
    c.holds dom start end_ = true ↔ c.Exact start end_ ∧ ∃ r ∈ c.revoks, r.domain = dom := by
  simp [Capability.holds]

/-- The effect splits the entry that holds the record, or revokes a record
of the domain in the entry. -/
def Effect.loses (dom start end_ : Nat) : Effect → Bool
  | .split c _ => c.holds dom start end_
  | .revoke c r => decide (c.Exact start end_) && r.domain == dom
  | _ => false

/-- Every other effect keeps the record in an entry of the same range. -/
theorem Held.micro {dom start end_ : Nat} {s t : Tracker} {e : Effect} (h : Held dom start end_ s)
    (hl : Ledger s) (hm : Micro s e t) (he : e.loses dom start end_ = false) : Held dom start end_ t := by
  obtain ⟨d, hd, hx, r', hr', hdom⟩ := h
  cases hm with
  | noMemory => exact ⟨d, hd, hx, r', hr', hdom⟩
  | refused => exact ⟨d, hd, hx, r', hr', hdom⟩
  | abandoned => exact ⟨d, hd, hx, r', hr', hdom⟩
  | split c addr a hcaps =>
    rcases Cursor.mem_list.1 (hcaps ▸ hd) with rfl | hd
    · have : c.elem.holds dom start end_ = true := holds_iff.2 ⟨hx, r', hr', hdom⟩
      rw [Effect.loses, this] at he
      cases he
    · exact ⟨d, List.mem_append_left _ (Cursor.mem_list.2 (.inr hd)), hx, r', hr', hdom⟩
  | deliver c dom tpe a hcaps =>
    rcases Cursor.mem_list.1 (hcaps ▸ hd) with rfl | hd
    · exact ⟨_, Cursor.elem_mem _, hx, r', List.mem_append_left _ hr', hdom⟩
    · exact ⟨d, Cursor.mem_list.2 (.inr hd), hx, r', hr', hdom⟩
  | revoke c r status a hcaps hr =>
    rcases Cursor.mem_list.1 (hcaps ▸ hd) with rfl | hd
    · have hne : r' ≠ r.elem := by
        rintro rfl
        simp [Effect.loses, hx, hdom] at he
      have hrest : r' ∈ r.remove := (Cursor.mem_list.1 (hr ▸ hr')).resolve_left hne
      exact ⟨_, Cursor.elem_mem _, hx, r', hrest, hdom⟩
    · exact ⟨d, Cursor.mem_list.2 (.inr hd), hx, r', hr', hdom⟩
  | merge l l' c c' a hcaps hc hc' =>
    -- Active entries hold no record.
    have h1 : d ≠ c := by
      rintro rfl
      rw [hl.active d hd hc] at hr'
      cases hr'
    have h2 : d ≠ c' := by
      rintro rfl
      rw [hl.active d hd hc'] at hr'
      cases hr'
    refine ⟨d, ?_, hx, r', hr', hdom⟩
    rw [hcaps] at hd
    simp only [List.mem_append, List.mem_cons, h1, h2, false_or] at hd ⊢
    exact hd.imp_right .inr

theorem Micro.capabilities_idle {s t : Tracker} (h : Micro s .idle t) : t.capabilities = s.capabilities := by
  cases h <;> rfl

theorem Held.path {dom start end_ : Nat} {s t : Tracker} {es : List Effect} (h : Held dom start end_ s)
    (hl : Ledger s) (hp : Path s es t) (he : ∀ e ∈ es, e.loses dom start end_ = false) :
    Held dom start end_ t := by
  refine (hp.invariant (P := fun s => Ledger s ∧ Held dom start end_ s) ?_ ⟨hl, h⟩).2
  exact fun e hmem s t hs hm => ⟨hs.1.micro hm, hs.2.micro hs.1 hm (he e hmem)⟩

/-! ## Calls that keep the record -/

/-- The call is a transfer that is about to split the entry that holds the
record of `dom` for `[start, end_)`. -/
def splitsHeld (dom start end_ : Nat) (s : Tracker) : Call → Bool
  | .transfer _ start' end' tpe =>
    match Cursor.find (transferable start' end') s.capabilities with
    | none => false
    | some curr =>
      !badTransfer start' end' tpe && transferAllowed tpe curr.elem && !decide (curr.elem.Exact start' end') &&
        splittable curr.elem start' && curr.elem.holds dom start end_
  | _ => false

/-- A transfer that does not split the entry, or a revocation, but not the
revocation of the transfer itself. -/
def Keeps (dom start end_ : Nat) (s : Tracker) (call : Call) (out : Outcome Int) : Prop :=
  call.isApi = true ∧ splitsHeld dom start end_ s call = false ∧ ¬ (call = .revoke dom start end_ ∧ out = .ret 0)

instance (dom start end_ : Nat) (s : Tracker) (call : Call) (out : Outcome Int) :
    Decidable (Keeps dom start end_ s call out) := inferInstanceAs (Decidable (_ ∧ _))

theorem Merges.keep {es : List Effect} (h : Merges es) (dom start end_ : Nat) :
    ∀ e ∈ es, e.loses dom start end_ = false := by
  intro e he
  rcases h e he with rfl | ⟨a, b, rfl⟩ <;> rfl

theorem Keeps.effects {dom start end_ : Nat} {s : Tracker} {call : Call} {es : List Effect} {out : Outcome Int}
    (h : Keeps dom start end_ s call out) (he : call.Effects s es out) (hout : out ≠ .fault) :
    ∀ e ∈ es, e.loses dom start end_ = false := by
  obtain ⟨hapi, hsplit, hrev⟩ := h
  cases call with
  | split => cases hapi
  | revoke id start' end' =>
    rcases he with ⟨-, rfl | rfl⟩ | ⟨curr, r, merges, rfl, hm, hfind, hr, hid, hres⟩
    · simp
    · simp [Effect.loses]
    · intro e hmem
      rcases List.mem_cons.1 hmem with rfl | hmem
      · -- Were it the transfer's own record, the call would be its revocation.
        have hret : out = .ret 0 := by
          rcases hres with ⟨h, -⟩ | ⟨h, -⟩
          · exact absurd h hout
          · exact h
        obtain ⟨-, hx1, hx2⟩ := findExact_some hfind
        rw [Effect.loses, Bool.and_eq_false_iff, decide_eq_false_iff_not, beq_eq_false_iff_ne]
        by_cases hx : curr.elem.Exact start end_
        · refine .inr fun hdom => hrev ⟨?_, hret⟩
          rw [← hid, hdom, ← hx1, ← hx2, hx.1, hx.2]
        · exact .inl hx
      · exact hm.keep dom start end_ e hmem
  | transfer dom' start' end' tpe =>
    obtain ⟨splits, last, rfl, hs, hlast⟩ := he
    intro e hmem
    rcases List.mem_append.1 hmem with hmem | hmem
    · rcases hs with rfl | ⟨curr, ⟨hbad, hfind, hok⟩, hs⟩
      · cases hmem
      rcases hs e hmem with rfl | ⟨hx, hsp, d, addr, rfl, ⟨rfl, rfl⟩ | hnone⟩
      · rfl
      · simpa [splitsHeld, Effect.loses, hfind, hbad, hok, hx, hsp] using hsplit
      · simp [Effect.loses, Capability.holds, hnone]
    · rcases hlast with ⟨-, rfl | rfl⟩ | ⟨-, c, r, rfl, -⟩
      · cases hmem
      · obtain rfl := List.mem_singleton.1 hmem; rfl
      · obtain rfl := List.mem_singleton.1 hmem; rfl

/-- The record is where it was put, at every point of the run from which
calls can still be made. -/
theorem Held.run {env : Env} {dom start end_ : Nat} {y z : Config} (h : Run env (Keeps dom start end_) y z)
    (hl : Ledger y.tracker) (hy : Held dom start end_ y.tracker) (hlive : z.halted = false) :
    Held dom start end_ z.tracker := by
  induction h with
  | refl => exact hy
  | @tail y' z hyy hs ih =>
    obtain ⟨hgo, call, out, hafter, hkeep⟩ := hs
    simp only [Config.after] at hafter
    cases hafter
    have hl' : Ledger y'.tracker := Run.ledger hyy hl
    obtain ⟨es, hp, he⟩ := Call.run_effects hl'.active (Prod.eta (call.run env y'.tracker)).symm
    exact (ih hgo).path hl' hp (hkeep.effects he (by simpa using hlive))

/-- A transfer that returned 0 leaves a record in an entry of its range. -/
theorem transferCapa_held {env : Env} {dom start end_ tpe : Nat} {s s' : Tracker}
    (h : transferCapa env dom start end_ tpe s = (0, s')) : start < end_ ∧ Held dom start end_ s' := by
  rcases transferCapa_path h with ⟨h', -⟩ | ⟨curr, es, t, ⟨hbad, -⟩, -, -, ⟨h', -⟩ | ⟨-, c, r, hm, hx, hr⟩⟩
  · cases h'
  · cases h'
  · simp only [badTransfer, decide_eq_false_iff_not] at hbad
    refine ⟨by omega, ?_⟩
    cases hm with
    | deliver c dom' _ a hcaps =>
      exact ⟨_, Cursor.elem_mem _, hx, _, List.mem_append_right _ List.mem_cons_self, hr⟩

/-- **What is transferred to a domain is not transferred to it again.** -/
theorem Held.transfer_refused {env : Env} {dom start end_ tpe : Nat} {s : Tracker} (h : Held dom start end_ s) (hl : Ledger s)
    (hone : covering start s.capabilities ≤ 1) : (transferCapa env dom start end_ tpe s).1 ≠ 0 := by
  intro hret
  obtain ⟨d, hd, hx, r, hr, hdom⟩ := h
  obtain ⟨s', hs'⟩ : ∃ s', transferCapa env dom start end_ tpe s = (0, s') := ⟨_, Prod.ext hret rfl⟩
  rcases transferCapa_path hs' with ⟨h0, -⟩ | ⟨curr, es, t, ⟨hbad, hfind, -⟩, hp, hs, ⟨h0, -⟩ | ⟨-, c, r', hm, hcx, hr'⟩⟩
  · cases h0
  · cases h0
  simp only [badTransfer, decide_eq_false_iff_not] at hbad
  have hlt : start < end_ := by omega
  -- The entry found is the one that holds the record, so nothing is split.
  obtain ⟨hlist, hcurr, -⟩ := Cursor.find_some hfind
  have hsame : d = curr.elem := eq_of_covers hone hlist (transferable_covers hlt hcurr) hd (hx.covers hlt)
  have hidle : t.capabilities = s.capabilities := by
    refine hp.invariant (P := fun u => u.capabilities = s.capabilities) (fun e he u v hu hm => ?_) rfl
    rcases hs e he with rfl | ⟨hnot, -⟩
    · rw [hm.capabilities_idle, hu]
    · exact absurd (hsame ▸ hx) hnot
  cases hm with
  | deliver c dom' _ a hcaps hdeliver =>
    have hc : d = c.elem :=
      eq_of_covers (l := t.capabilities) (hidle ▸ hone) hcaps.symm (hcx.covers hlt) (hidle ▸ hd) (hx.covers hlt)
    subst hc
    by_cases ht : isConfidential tpe = true
    · have hact : c.elem.status = .active := by simpa [Deliverable, ht] using hdeliver
      rw [hl.active _ hd hact] at hr
      cases hr
    · have hnone : c.elem.status ≠ .paused ∧ ∀ r ∈ c.elem.revoks, r.domain ≠ dom' := by simpa [Deliverable, ht] using hdeliver
      exact hnone.2 r hr (hdom.trans hr'.symm)

/-! ## Where nothing is revoked -/

theorem revoked_append (evs log : List Event) : revoked (evs ++ log) = revoked evs ++ revoked log := by
  induction evs with
  | nil => rfl
  | cons e evs ih =>
    cases e with
    | vmcall f a =>
      simp only [List.cons_append, revoked, ih]
      split <;> rfl
    | alloc | dealloc => exact ih

/-- The handle an effect revokes. -/
def Effect.handles : Effect → List Nat
  | .revoke _ r => [r.revokHandle]
  | _ => []

theorem Micro.revoked {s t : Tracker} {e : Effect} (h : Micro s e t) : Capa.revoked t.log = e.handles ++ Capa.revoked s.log := by
  cases h with
  | noMemory => rfl
  | refused f a ha => simp [Capa.revoked, Effect.handles, ha]
  | abandoned f a obj ha => simp [Capa.revoked, Effect.handles, ha]
  | split | deliver | merge => simp [Capa.revoked, Effect.handles]
  | revoke c r status a hl hr hs ha => simp [Capa.revoked, Effect.handles, ha]

/-- Where no revocation was accepted, no effect revoked a record. -/
theorem Path.revoked {s t : Tracker} {es : List Effect} (h : Path s es t) :
    ∃ handles, Capa.revoked t.log = handles ++ Capa.revoked s.log ∧ (handles = [] → ∀ e ∈ es, e.handles = []) := by
  induction h with
  | nil => exact ⟨[], rfl, by simp⟩
  | @cons s t u e es hm _ ih =>
    obtain ⟨handles, heq, hnone⟩ := ih
    refine ⟨handles ++ e.handles, by rw [heq, hm.revoked, List.append_assoc], fun hnil => ?_⟩
    obtain ⟨h1, h2⟩ := List.append_eq_nil_iff.1 hnil
    exact List.forall_mem_cons.2 ⟨h2, hnone h1⟩

/-! ## The revocation -/

/-- The revocation of `[start, end_)` would read through NULL: its entry is
the first of the list, is about to become active, and can be merged with the
next one. -/
def faultsOnRevoke (start end_ : Nat) (s : Tracker) : Bool :=
  match findExact start end_ s.capabilities with
  | some ⟨[], curr, next :: _⟩ =>
    mergesRight curr next && curr.revoks.length == 1 && (curr.status == .paused || curr.isOwned != 0)
  | _ => false

theorem faultsOnRevoke_iff {start end_ : Nat} {s : Tracker} {curr : Cursor Capability}
    (hfind : findExact start end_ s.capabilities = some curr) :
    faultsOnRevoke start end_ s = true ↔ ReadsNull curr ∧ LastOf curr := by
  obtain ⟨before, elem, after⟩ := curr
  rw [faultsOnRevoke, hfind]
  cases before <;> cases after <;> simp [ReadsNull, LastOf, and_assoc]

/-- The held record is in the entry that the revocation finds. -/
theorem Held.found {dom start end_ : Nat} {s : Tracker} (h : Held dom start end_ s) (hlt : start < end_)
    (hone : covering start s.capabilities ≤ 1) :
    ∃ curr, findExact start end_ s.capabilities = some curr ∧ ∃ r ∈ curr.elem.revoks, r.domain = dom := by
  obtain ⟨c, hc, hx, hr⟩ := h
  obtain ⟨curr, hfind⟩ := Cursor.find_isSome hc
    (p := fun curr => decide (curr.start = start ∧ curr.end_ = end_)) (by simpa [Capability.Exact] using hx)
  obtain ⟨hlist, hx'⟩ := findExact_some hfind
  -- Another entry of the same range would cover `start` too.
  obtain rfl := eq_of_covers hone hlist (hx'.covers hlt) hc (hx.covers hlt)
  exact ⟨curr, hfind, hr⟩

/-- The event is not a refused revocation. -/
def Event.honoured : Event → Bool
  | .vmcall f a => !f.revokes || a.ok
  | _ => true

/-- The monitor accepted every revocation among the events. -/
def Accepted (evs : List Event) : Prop := ∀ e ∈ evs, e.honoured = true

instance (evs : List Event) : Decidable (Accepted evs) := inferInstanceAs (Decidable (∀ e ∈ evs, _))

theorem Refused.not_accepted {s s' : Tracker} (h : Refused s s') : ¬ Accepted (newEvents s s') := by
  obtain ⟨h, a, hok, rfl⟩ := h
  intro hacc
  rw [newEvents_append (List.singleton_append ..).symm] at hacc
  have := hacc _ (List.mem_singleton_self _)
  simp [Event.honoured, hok] at this

/-- An accepted revocation of a held record returns 0 unless its merge reads
through NULL. -/
theorem Held.revokeCapa {env : Env} {dom start end_ : Nat} {s : Tracker} (h : Held dom start end_ s) (hl : Ledger s)
    (hlt : start < end_) (hone : covering start s.capabilities ≤ 1)
    (hacc : Accepted (newEvents s (Capa.revokeCapa env dom start end_ s).2)) :
    (Capa.revokeCapa env dom start end_ s).1 = .ret 0 ↔ faultsOnRevoke start end_ s = false := by
  obtain ⟨curr, hfind, r, hr, hdom⟩ := h.found hlt hone
  have hcurr : curr.elem ∈ s.capabilities := (findExact_some hfind).1 ▸ curr.elem_mem
  rcases revokeCapa_cases hl.active (Prod.eta (Capa.revokeCapa env dom start end_ s)).symm with
    ⟨-, ⟨-, hnot⟩ | href⟩ | ⟨c, r', -, hfind', -, -, t, es, -, -, -, hres⟩
  · exact absurd hdom (hnot hlt curr hfind (hl.paused _ hcurr) r hr)
  · exact absurd hacc href.not_accepted
  · rw [← Bool.not_eq_true, faultsOnRevoke_iff hfind']
    rcases hres with ⟨hf, hn⟩ | ⟨h0, hn⟩
    · simp [hf, hn]
    · simp [h0, hn]

/-! ## Runs -/

/-- **What was transferred can be revoked.** After a transfer that returned
0, at every point of a run in which no transfer splits the entry that holds
its record, and its own revocation has not returned 0, the revocation
returns 0 when the monitor accepts it, unless its merge reads through
NULL. -/
theorem revocable_of_kept {env : Env} {dom start end_ tpe : Nat} {w x y z : Config} (hw : Started env w)
    (hone : covering start w.tracker.capabilities ≤ 1) (hx : Run env apiCall w x)
    (htransfer : x.after env (.transfer dom start end_ tpe) = (.ret 0, y)) (hz : Run env (Keeps dom start end_) y z)
    (hlive : z.halted = false)
    (hacc : Accepted (newEvents z.tracker (revokeCapa env dom start end_ z.tracker).2)) :
    (revokeCapa env dom start end_ z.tracker).1 = .ret 0 ↔ faultsOnRevoke start end_ z.tracker = false := by
  have hcov : ∀ e s t, Ledger s → covering start s.capabilities ≤ 1 → Micro s e t → covering start t.capabilities ≤ 1 :=
    fun _ _ _ _ h hm => Nat.le_trans (hm.coverage_le start _) h
  obtain ⟨lx, cx⟩ := hx.invariant hw.ledger hcov hone
  obtain ⟨ly, cy⟩ := Config.after_invariant htransfer lx hcov cx
  obtain ⟨lz, cz⟩ := hz.invariant ly hcov cy
  have hheld : start < end_ ∧ Held dom start end_ y.tracker := by
    simp only [Config.after, Call.run, Prod.mk.injEq, Outcome.ret.injEq] at htransfer
    obtain ⟨hret, rfl⟩ := htransfer
    exact transferCapa_held (Prod.ext hret rfl)
  exact (hheld.2.run hz ly hlive).revokeCapa lz hheld.1 cz hacc

/-- A region transferred to one domain, and other parts to others. -/
theorem revocable_of_kept_granting :
    let env := Env.granting [(0, 0x10000)]
    let x := (Config.start env).played env [.transfer 2 0x8000 0x9000 confidential]
    let y := x.played env [.transfer 1 0x2000 0x4000 shared]
    let z := y.played env [.transfer 3 0x5000 0x6000 shared, .revoke 2 0x8000 0x9000]
    (revokeCapa env 1 0x2000 0x4000 z.tracker).1 = .ret 0 ↔ faultsOnRevoke 0x2000 0x4000 z.tracker = false := by
  intro env x y z
  have hx : Run env apiCall (.start env) x := Run.of_plays (fun _ call _ => call.isApi) _ (by decide) fun _ _ _ h => h
  have ht : x.after env (.transfer 1 0x2000 0x4000 shared) = (.ret 0, y) := Prod.ext (by decide) rfl
  have hz : Run env (Keeps 1 0x2000 0x4000) y z :=
    Run.of_plays (fun s call out => decide (Keeps 1 0x2000 0x4000 s call out)) _ (by decide)
      fun _ _ _ h => of_decide_eq_true h
  exact revocable_of_kept (Config.started (by decide)) (by decide) hx ht hz (by decide) (by decide)

/-- The whole region is shared with one domain, then a part of it with
another: the first share can no longer be revoked. -/
theorem revocable_fails :
    ¬ ∀ (env : Env) (dom start end_ tpe : Nat) (w x y z : Config), Started env w → Run env apiCall w x →
      x.after env (.transfer dom start end_ tpe) = (.ret 0, y) →
      Run env (fun _ call out => call.isApi = true ∧ ¬ (call = .revoke dom start end_ ∧ out = .ret 0)) y z →
      z.halted = false → Accepted (newEvents z.tracker (revokeCapa env dom start end_ z.tracker).2) →
        (revokeCapa env dom start end_ z.tracker).1 = .ret 0 := by
  intro h
  have h' := h (Env.granting [(0, 0x10000)]) 1 0 0x10000 shared _ _ _ _ (Config.started (by decide)) .refl
    (Prod.ext (by decide) rfl)
    (Run.of_plays (fun _ call out => call.isApi && decide (¬ (call = .revoke 1 0 0x10000 ∧ out = .ret 0)))
      [.transfer 2 0x2000 0x4000 shared] (by decide)
      fun _ _ _ h => ⟨(Bool.and_eq_true_iff.1 h).1, of_decide_eq_true (Bool.and_eq_true_iff.1 h).2⟩)
    (by decide) (by decide)
  exact absurd h' (by decide)

end Tyche.Capa
