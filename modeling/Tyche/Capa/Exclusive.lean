/-
Confidential transfers are exclusive, as long as no transfer splits a shared
entry away from its revocation handles. `split_capa` refuses an entry that
is shared, but reads `is_shared`, which sharing an entry never sets: the
status is what changes. The handles stay on the left part, and the right
part can be made active again, then granted, while the first share is still
outstanding (`exclusive_fails`).
-/
import Tyche.Capa.Coverage

namespace Tyche.Capa

/-! ## Outstanding transfers, effect by effect -/

/-- The records an effect creates. -/
def Effect.created : Effect → List RevokHandle
  | .deliver _ _ r => [r]
  | _ => []

/-- The handles an effect revokes. -/
def Effect.ended : Effect → List Nat
  | .revoke _ r => [r.revokHandle]
  | _ => []

/-- The outstanding transfers after an effect. -/
def Effect.settle (ts : List Transfer) : Effect → List Transfer
  | .deliver c tpe r => ⟨c.start, c.end_, tpe, r⟩ :: ts
  | .revoke _ r => ts.filter fun t => t.revok.revokHandle != r.revokHandle
  | _ => ts

/-- The effect is neither a delivery nor a revocation. -/
def Effect.Quiet : Effect → Prop
  | .deliver _ _ _ => False
  | .revoke _ _ => False
  | _ => True

theorem Micro.events {s t : Tracker} {e : Effect} (h : Micro s e t) :
    ∃ evs, t.log = evs ++ s.log ∧ (∀ log, granted (evs ++ log) = e.created ++ granted log) ∧
      ∀ log, revoked (evs ++ log) = e.ended ++ revoked log := by
  cases h with
  | noMemory => exact ⟨[_], rfl, fun _ => rfl, fun _ => rfl⟩
  | refused f a ha =>
    exact ⟨[.vmcall f a], rfl, by simp [granted, Effect.created, ha], by simp [revoked, Effect.ended, ha]⟩
  | abandoned f a obj ha =>
    refine ⟨[.dealloc obj, .vmcall f a, .alloc (some s.heap)], rfl, ?_, ?_⟩
    · simp [granted, Effect.created, ha]
    · simp [revoked, Effect.ended, ha]
  | split c addr a =>
    refine ⟨[.vmcall (splitFrame c.elem.handle addr) a, .alloc (some s.heap)], rfl, ?_, ?_⟩
    · simp [granted, Effect.created]
    · simp [revoked, Effect.ended]
  | deliver c dom tpe a hl hd ha =>
    refine ⟨[.vmcall (deliverFrame dom c.elem.handle tpe) a, .alloc (some s.heap)], rfl, ?_, ?_⟩
    · simp [granted, justAllocated, Effect.created, ha]
    · simp [revoked, Effect.ended]
  | revoke c r status a hl hr hs ha =>
    refine ⟨[.dealloc (.revok r.elem), .vmcall (revokFrame r.elem.revokHandle) a], rfl, ?_, ?_⟩
    · simp [granted, Effect.created]
    · simp [revoked, Effect.ended, ha]
  | merge l l' c d a =>
    refine ⟨[.dealloc (.capa d), .vmcall (mergeFrame c.handle d.handle) a], rfl, ?_, ?_⟩
    · simp [granted, Effect.created]
    · simp [revoked, Effect.ended]

theorem Path.events {s t : Tracker} {es : List Effect} (h : Path s es t) :
    ∃ evs, t.log = evs ++ s.log ∧
      (∀ log, granted (evs ++ log) = es.reverse.flatMap Effect.created ++ granted log) ∧
      ∀ log, revoked (evs ++ log) = es.reverse.flatMap Effect.ended ++ revoked log := by
  induction h with
  | nil => exact ⟨[], rfl, fun _ => rfl, fun _ => rfl⟩
  | cons hm _ ih =>
    obtain ⟨evs, h1, h2, h3⟩ := hm.events
    obtain ⟨evs', h1', h2', h3'⟩ := ih
    refine ⟨evs' ++ evs, by rw [h1', h1, List.append_assoc], fun log => ?_, fun log => ?_⟩
    · rw [List.append_assoc, h2', h2]; simp
    · rw [List.append_assoc, h3', h3]; simp

/-- The events of a call create and revoke what its effects do. -/
theorem Path.newEvents {s t : Tracker} {es : List Effect} (h : Path s es t) :
    granted (newEvents s t) = es.reverse.flatMap Effect.created ∧
      revoked (newEvents s t) = es.reverse.flatMap Effect.ended := by
  obtain ⟨evs, h1, h2, h3⟩ := h.events
  rw [newEvents_append h1]
  exact ⟨by simpa [granted] using h2 [], by simpa [revoked] using h3 []⟩

theorem quiet_effects {es : List Effect} (h : ∀ e ∈ es, e.Quiet) :
    es.reverse.flatMap Effect.created = [] ∧ es.reverse.flatMap Effect.ended = [] ∧
      ∀ ts, es.foldl Effect.settle ts = ts := by
  have one : ∀ e : Effect, e.Quiet → e.created = [] ∧ e.ended = [] ∧ ∀ ts, Effect.settle ts e = ts := by
    intro e he
    cases e <;> first | exact he.elim | exact ⟨rfl, rfl, fun _ => rfl⟩
  induction es with
  | nil => exact ⟨rfl, rfl, fun _ => rfl⟩
  | cons e es ih =>
    obtain ⟨h1, h2, h3⟩ := one e (h e List.mem_cons_self)
    obtain ⟨i1, i2, i3⟩ := ih fun e he => h e (List.mem_cons_of_mem _ he)
    refine ⟨by simp [i1, h1], by simp [i2, h2], fun ts => ?_⟩
    rw [List.foldl_cons, h3, i3]

theorem SplitsOf.quiet {c : Capability} {start end_ : Nat} {es : List Effect} (h : SplitsOf c start end_ es) :
    ∀ e ∈ es, e.Quiet := by
  intro e he
  rcases h e he with rfl | ⟨-, -, d, addr, rfl, -⟩ <;> exact trivial

theorem Merges.quiet {es : List Effect} (h : Merges es) : ∀ e ∈ es, e.Quiet := by
  intro e he
  rcases h e he with rfl | ⟨a, b, rfl⟩ <;> exact trivial

theorem filter_none (ts : List Transfer) :
    ts.filter (fun t => !([] : List Nat).contains t.revok.revokHandle) = ts := by simp

/-- The outstanding transfers after a call are those its effects settle. -/
theorem settle_effects {call : Call} {s t : Tracker} {es : List Effect} {out : Outcome Int} (hp : Path s es t)
    (he : call.Effects s es out) (ts : List Transfer) :
    settle call out (newEvents s t) ts = es.foldl Effect.settle ts := by
  obtain ⟨hc, hr⟩ := hp.newEvents
  have idle : (es = [] ∨ es = [.idle]) → ∀ e ∈ es, e.Quiet := by
    rintro (rfl | rfl) <;> simp [Effect.Quiet]
  cases call with
  | split i addr =>
    have hq : ∀ e ∈ es, e.Quiet := by
      intro e h'
      rcases he e h' with rfl | ⟨c, addr, rfl⟩ <;> exact trivial
    obtain ⟨-, h2, h3⟩ := quiet_effects hq
    rw [settle, hr, h2, filter_none, h3]
  | transfer dom start end_ tpe =>
    obtain ⟨splits, last, rfl, hs, hlast⟩ := he
    have hq : ∀ e ∈ splits, e.Quiet := by
      rcases hs with rfl | ⟨curr, -, hs⟩
      · simp
      · exact hs.quiet
    obtain ⟨h1, -, h3⟩ := quiet_effects hq
    rw [List.foldl_append, h3, settle, hc, List.reverse_append, List.flatMap_append, h1, List.append_nil]
    rcases hlast with ⟨rfl, rfl | rfl⟩ | ⟨rfl, c, r, rfl, ⟨hs, he⟩, -⟩
    · rfl
    · rfl
    · simp [Effect.created, Effect.settle, hs, he]
  | revoke id start end_ =>
    rcases he with ⟨-, he⟩ | ⟨curr, r, merges, rfl, hm, -⟩
    · obtain ⟨-, h2, h3⟩ := quiet_effects (idle he)
      rw [settle, hr, h2, filter_none, h3]
    · obtain ⟨-, h2, h3⟩ := quiet_effects hm.quiet
      rw [List.foldl_cons, h3, settle, hr, List.reverse_cons, List.flatMap_append, h2, List.nil_append]
      simp [Effect.ended, Effect.settle, bne, beq_eq_decide]

/-! ## The guard -/

/-- No two transfers that cover `a` are outstanding when one of them is
confidential. -/
def Exclusive (a : Nat) (ts : List Transfer) : Prop :=
  ts.Pairwise fun t u => t.covers a = true → u.covers a = true →
    isConfidential t.tpe = false ∧ isConfidential u.tpe = false

instance (a : Nat) (ts : List Transfer) : Decidable (Exclusive a ts) :=
  inferInstanceAs (Decidable (ts.Pairwise _))

/-- What makes the outstanding transfers exclusive at `a`: one entry covers
`a`, and it holds their records. -/
structure Guarded (a : Nat) (s : Tracker) (ts : List Transfer) : Prop where
  one : covering a s.capabilities ≤ 1
  backed : ∀ t ∈ ts, t.covers a = true → ∃ c ∈ s.capabilities, c.covers a = true ∧ t.revok ∈ c.revoks ∧
    (isConfidential t.tpe = true → c.status = .paused)
  exclusive : Exclusive a ts

/-- The effect splits, at or below `a`, an entry that covers `a` and holds
revocation handles: `a` is left without them. -/
def Effect.tears (a : Nat) : Effect → Bool
  | .split c addr => c.covers a && decide (addr ≤ a) && !c.revoks.isEmpty
  | _ => false

theorem covers_iff {c : Capability} {a : Nat} : c.covers a = true ↔ c.start ≤ a ∧ a < c.end_ := by
  simp [Capability.covers, contains]

/-- Where one entry at most covers `a`, the others do not. -/
theorem covers_remove {a : Nat} {c : Cursor Capability} (h1 : covering a c.list ≤ 1) (hc : c.elem.covers a = true) :
    ∀ d ∈ c.remove, d.covers a = false := by
  have hsum : covering a c.list = covering a c.remove + covering a [c.elem] := coverage_list c
  have hone : covering a [c.elem] = 1 := by simp [coverage, hc]
  have hzero : covering a c.remove = 0 := by omega
  intro d hd
  simpa using List.countP_eq_zero.1 hzero d hd

/-- An effect that creates and revokes nothing keeps the guard, when the
entries that hold records and cover `a` keep both and their status. -/
theorem Guarded.kept {a : Nat} {s t : Tracker} {e : Effect} {ts : List Transfer} (h : Guarded a s ts)
    (hm : Micro s e t)
    (hkeep : ∀ c ∈ s.capabilities, c.covers a = true → c.revoks ≠ [] →
      ∃ d ∈ t.capabilities, d.covers a = true ∧ d.revoks = c.revoks ∧ d.status = c.status) :
    Guarded a t ts where
  one := Nat.le_trans (hm.coverage_le a _) h.one
  backed := by
    intro u hu hcov
    obtain ⟨c, hc, hca, hr, hst⟩ := h.backed u hu hcov
    obtain ⟨d, hd, hda, hdr, hds⟩ := hkeep c hc hca (List.ne_nil_of_mem hr)
    exact ⟨d, hd, hda, hdr ▸ hr, fun ht => hds ▸ hst ht⟩
  exclusive := h.exclusive

theorem Guarded.split {a addr : Nat} {s t : Tracker} {c : Capability} {ts : List Transfer} (h : Guarded a s ts)
    (hm : Micro s (.split c addr) t) (he : (Effect.split c addr).tears a = false) : Guarded a t ts := by
  refine h.kept hm fun d hd hda hdr => ?_
  cases hm with
  | split c _ ans hl hs ha =>
    rw [hl] at hd
    rcases Cursor.mem_list.1 hd with rfl | hd
    · -- The part of `a` keeps the records, so the split is above `a`.
      have hlt : a < addr := by
        simp only [Effect.tears, hda, Bool.true_and, Bool.and_eq_false_iff, decide_eq_false_iff_not,
          Bool.not_eq_false', List.isEmpty_iff] at he
        rcases he with he | he
        · omega
        · exact absurd he hdr
      refine ⟨{ c.elem with end_ := addr }, List.mem_append_left _ (Cursor.elem_mem _), ?_, rfl, rfl⟩
      exact covers_iff.2 ⟨(covers_iff.1 hda).1, hlt⟩
    · exact ⟨d, List.mem_append_left _ (Cursor.mem_list.2 (.inr hd)), hda, rfl, rfl⟩

theorem Guarded.merge {a : Nat} {s t : Tracker} {c d : Capability} {ts : List Transfer} (h : Guarded a s ts)
    (hl : Ledger s) (hm : Micro s (.merge c d) t) : Guarded a t ts := by
  refine h.kept hm fun e he hea her => ?_
  cases hm with
  | merge l l' _ _ ans hcaps hc hd =>
    -- Active entries hold no record.
    have hec : e ≠ c := by rintro rfl; exact her (hl.active _ he hc)
    have hed : e ≠ d := by rintro rfl; exact her (hl.active _ he hd)
    refine ⟨e, ?_, hea, rfl, rfl⟩
    rw [hcaps] at he
    simp only [List.mem_append, List.mem_cons, hec, hed, false_or] at he ⊢
    exact he.imp_right .inr

theorem Guarded.deliver {a tpe : Nat} {s t : Tracker} {c : Capability} {r : RevokHandle} {ts : List Transfer}
    (h : Guarded a s ts) (hl : Ledger s) (hm : Micro s (.deliver c tpe r) t) :
    Guarded a t (Effect.settle ts (.deliver c tpe r)) := by
  have hle := hm.coverage_le a fun _ => true
  cases hm with
  | deliver c dom _ ans hcaps hd ha =>
    -- An earlier transfer that the entry backs is a share, and so is this one.
    have hearlier : ∀ u ∈ ts, u.revok ∈ c.elem.revoks → (isConfidential u.tpe = true → c.elem.status = .paused) →
        isConfidential tpe = false ∧ isConfidential u.tpe = false := by
      intro u _ hr hst
      by_cases ht : isConfidential tpe = true
      · have hact : c.elem.status = .active := by simpa [Deliverable, ht] using hd
        rw [hl.active _ (hcaps ▸ c.elem_mem) hact] at hr
        cases hr
      · have hnp : c.elem.status ≠ .paused := by
          simp only [Deliverable, ht] at hd
          exact hd.1
        exact ⟨eq_false_of_ne_true ht, eq_false_of_ne_true fun hu => hnp (hst hu)⟩
    refine ⟨Nat.le_trans hle h.one, ?_, ?_⟩
    · intro u hu hcov
      rcases List.mem_cons.1 hu with rfl | hu
      · refine ⟨_, Cursor.elem_mem _, hcov, by simp, fun ht => ?_⟩
        simp only [Cursor.put_elem, deliverStatus, ht, if_true]
      · obtain ⟨d, hd', hda, hr, hst⟩ := h.backed u hu hcov
        rcases Cursor.mem_list.1 (hcaps ▸ hd') with rfl | hd'
        · refine ⟨_, Cursor.elem_mem _, hda, List.mem_append_left _ hr, fun ht => ?_⟩
          rw [(hearlier u hu hr hst).2] at ht
          cases ht
        · exact ⟨d, Cursor.mem_list.2 (.inr hd'), hda, hr, hst⟩
    · refine List.pairwise_cons.2 ⟨fun u hu hcov hucov => ?_, h.exclusive⟩
      obtain ⟨d, hd', hda, hr, hst⟩ := h.backed u hu hucov
      rcases Cursor.mem_list.1 (hcaps ▸ hd') with rfl | hd'
      · exact hearlier u hu hr hst
      · -- Two entries would cover `a`.
        have := covers_remove (hcaps ▸ h.one) hcov d hd'
        rw [hda] at this
        cases this

theorem Guarded.revoke {a : Nat} {s t : Tracker} {c : Capability} {r : RevokHandle} {ts : List Transfer}
    (h : Guarded a s ts) (hm : Micro s (.revoke c r) t) : Guarded a t (Effect.settle ts (.revoke c r)) := by
  have hle := hm.coverage_le a fun _ => true
  cases hm with
  | revoke c r status ans hcaps hr hs ha =>
    refine ⟨Nat.le_trans hle h.one, ?_, h.exclusive.sublist List.filter_sublist⟩
    intro u hu hcov
    obtain ⟨hu, hne⟩ := List.mem_filter.1 hu
    obtain ⟨d, hd, hda, hur, hst⟩ := h.backed u hu hcov
    rcases Cursor.mem_list.1 (hcaps ▸ hd) with rfl | hd
    · have hrest : u.revok ∈ r.remove := by
        rw [hr] at hur
        refine (Cursor.mem_list.1 hur).resolve_left ?_
        rintro he
        simp [he] at hne
      refine ⟨_, Cursor.elem_mem _, hda, hrest, fun ht => ?_⟩
      rcases hs with ⟨-, hnil⟩ | ⟨-, hshared, -⟩
      · rw [hnil] at hrest
        cases hrest
      · rw [hst ht] at hshared
        cases hshared
    · exact ⟨d, Cursor.mem_list.2 (.inr hd), hda, hur, hst⟩

/-- Every effect that does not tear an entry at `a` keeps the guard. -/
theorem Guarded.micro {a : Nat} {s t : Tracker} {e : Effect} {ts : List Transfer} (h : Guarded a s ts)
    (hl : Ledger s) (hm : Micro s e t) (he : e.tears a = false) : Guarded a t (Effect.settle ts e) := by
  cases e with
  | idle =>
    have hcaps : t.capabilities = s.capabilities := by cases hm <;> rfl
    exact h.kept hm fun c hc hca _ => ⟨c, hcaps ▸ hc, hca, rfl, rfl⟩
  | split => exact h.split hm he
  | deliver => exact h.deliver hl hm
  | revoke => exact h.revoke hm
  | merge => exact h.merge hl hm

theorem Guarded.path {a : Nat} {s t : Tracker} {es : List Effect} {ts : List Transfer} (h : Guarded a s ts)
    (hl : Ledger s) (hp : Path s es t) (he : ∀ e ∈ es, e.tears a = false) :
    Guarded a t (es.foldl Effect.settle ts) := by
  induction hp generalizing ts with
  | nil => exact h
  | cons hm _ ih =>
    exact ih (h.micro hl hm (he _ List.mem_cons_self)) (hl.micro hm) fun e h' => he e (List.mem_cons_of_mem _ h')

/-! ## Runs -/

/-- The call is a transfer that is about to split, at or below `a`, a shared
entry that covers `a` and holds revocation handles. -/
def tears (a : Nat) (s : Tracker) : Call → Bool
  | .transfer _ start end_ tpe =>
    match Cursor.find (transferable start end_) s.capabilities with
    | none => false
    | some curr =>
      !badTransfer start end_ tpe && transferAllowed tpe curr.elem && !decide (curr.elem.Exact start end_) &&
        splittable curr.elem start && (Effect.split curr.elem start).tears a
  | _ => false

theorem Call.Effects.tears {a : Nat} {s : Tracker} {call : Call} {es : List Effect} {out : Outcome Int}
    (h : call.Effects s es out) (hapi : call.isApi = true) (ht : Capa.tears a s call = false) :
    ∀ e ∈ es, e.tears a = false := by
  cases call with
  | split => cases hapi
  | revoke id start end_ =>
    rcases h with ⟨-, rfl | rfl⟩ | ⟨curr, r, merges, rfl, hm, -⟩
    · simp
    · simp [Effect.tears]
    · intro e he
      rcases List.mem_cons.1 he with rfl | he
      · rfl
      · rcases hm e he with rfl | ⟨a, b, rfl⟩ <;> rfl
  | transfer dom start end_ tpe =>
    obtain ⟨splits, last, rfl, hs, hlast⟩ := h
    intro e he
    rcases List.mem_append.1 he with he | he
    · rcases hs with rfl | ⟨curr, ⟨hbad, hfind, hok⟩, hs⟩
      · cases he
      rcases hs e he with rfl | ⟨hx, hsp, d, addr, rfl, ⟨rfl, rfl⟩ | hnone⟩
      · rfl
      · simpa [Capa.tears, hfind, hbad, hok, hx, hsp] using ht
      · simp [Effect.tears, hnone]
    · rcases hlast with ⟨-, rfl | rfl⟩ | ⟨-, c, r, rfl, -⟩
      · cases he
      · obtain rfl := List.mem_singleton.1 he; rfl
      · obtain rfl := List.mem_singleton.1 he; rfl

/-- A transfer or revocation that does not tear an entry at `a`. -/
def Untorn (a : Nat) (s : Tracker) (call : Call) (_ : Outcome Int) : Prop :=
  call.isApi = true ∧ tears a s call = false

theorem Run.guarded {env : Env} {a : Nat} {x y : Config} (h : Run env (Untorn a) x y) (hl : Ledger x.tracker)
    (hx : Guarded a x.tracker x.outstanding) : Guarded a y.tracker y.outstanding := by
  induction h with
  | refl => exact hx
  | @tail y z hxy hs ih =>
    obtain ⟨-, call, out, hafter, hapi, ht⟩ := hs
    have hy : Ledger y.tracker := Run.ledger hxy hl
    simp only [Config.after] at hafter
    cases hafter
    obtain ⟨es, hp, he⟩ := Call.run_effects hy.active (Prod.eta (call.run env y.tracker)).symm
    have hg := ih.path hy hp (he.tears hapi ht)
    rw [← settle_effects hp he] at hg
    exact hg

/-- **Confidential transfers are exclusive** at every address that one range
of the monitor covers, in every run in which no transfer splits a shared
entry away from the revocation handles it holds for the address. -/
theorem exclusive_of_untorn {env : Env} {a : Nat} {x y : Config} (hx : Started env x)
    (hone : covering a x.tracker.capabilities ≤ 1) (h : Run env (Untorn a) x y) : Exclusive a y.outstanding := by
  have hnone : x.outstanding = [] := by
    obtain ⟨s, -, rfl⟩ := hx
    rfl
  have hg : Guarded a x.tracker x.outstanding := by
    rw [hnone]
    exact ⟨hone, by simp, List.Pairwise.nil⟩
  exact (h.guarded hx.ledger hg).exclusive

/-- Two shares, a revocation and a grant of another part of the region. -/
theorem exclusive_of_untorn_granting :
    let env := Env.granting [(0, 0x10000)]
    let y := (Config.start env).played env [.transfer 1 0x2000 0x4000 shared, .transfer 2 0x2000 0x4000 shared,
      .revoke 1 0x2000 0x4000, .transfer 3 0x8000 0x9000 confidential]
    Exclusive 0x8000 y.outstanding :=
  exclusive_of_untorn (Config.started (by decide)) (by decide)
    (Run.of_plays (fun s call _ => call.isApi && !tears 0x8000 s call) _ (by decide)
      fun _ _ _ h => by simpa [Untorn] using h)

/-- A share of the whole region, a share of a part of it, and the revocation
of the second one: the part can be granted while the first share is
outstanding. -/
theorem exclusive_fails :
    ¬ ∀ (env : Env) (x y : Config) (a : Nat), Started env x →
      (∀ c ∈ x.tracker.capabilities, c.isOwned ≠ 0 ∧ c.isShared = 0) → Run env apiCall x y →
        Exclusive a y.outstanding := by
  intro h
  let env := Env.granting [(0, 0x10000)]
  have h' := h env _ _ 0x2000 (Config.started (by decide)) (by decide)
    (Run.of_plays (fun _ call _ => call.isApi)
      [.transfer 1 0 0x10000 shared, .transfer 2 0x2000 0x4000 shared, .revoke 2 0x2000 0x4000,
        .transfer 3 0x2000 0x4000 confidential] (by decide) fun _ _ _ h => h)
  exact absurd h' (by decide)

end Tyche.Capa
