/-
Revocation handles are accounted for: the records the accepted grants and
shares created are those in the lists of the entries and those freed by an
accepted revocation, each once (`Ledger`). Every effect keeps the ledger, so
every run does.

The merge step frees whole entries and never looks at the revocation handles
of the right one. What makes this safe is that an active entry has none.
-/
import Tyche.Capa.Runs
import Mathlib.Data.List.Nodup

namespace Tyche.Capa

/-! ## The events of one effect -/

@[simp] theorem deliverFrame_delivers {dom handle tpe : Nat} : (deliverFrame dom handle tpe).delivers = true := by
  unfold deliverFrame; split <;> rfl

@[simp] theorem deliverFrame_revokes {dom handle tpe : Nat} : (deliverFrame dom handle tpe).revokes = false := by
  unfold deliverFrame; split <;> rfl

@[simp] theorem deliverFrame_value1 {dom handle tpe : Nat} : (deliverFrame dom handle tpe).value1 = dom := by
  unfold deliverFrame; split <;> rfl

@[simp] theorem splitFrame_delivers {h a : Nat} : (splitFrame h a).delivers = false := rfl
@[simp] theorem splitFrame_revokes {h a : Nat} : (splitFrame h a).revokes = false := rfl
@[simp] theorem mergeFrame_delivers {h a : Nat} : (mergeFrame h a).delivers = false := rfl
@[simp] theorem mergeFrame_revokes {h a : Nat} : (mergeFrame h a).revokes = false := rfl
@[simp] theorem revokFrame_delivers {h : Nat} : (revokFrame h).delivers = false := rfl
@[simp] theorem revokFrame_revokes {h : Nat} : (revokFrame h).revokes = true := rfl
@[simp] theorem revokFrame_value1 {h : Nat} : (revokFrame h).value1 = h := rfl

/-! ## The records in the list -/

/-- The revocation records of all entries. -/
def records (l : List Capability) : List RevokHandle := l.flatMap (·.revoks)

@[simp] theorem records_nil : records [] = [] := rfl
@[simp] theorem records_cons (c : Capability) (l : List Capability) : records (c :: l) = c.revoks ++ records l := rfl
@[simp] theorem records_append (l l' : List Capability) : records (l ++ l') = records l ++ records l' := by
  simp [records]

theorem mem_records {r : RevokHandle} {l : List Capability} : r ∈ records l ↔ ∃ c ∈ l, r ∈ c.revoks := by
  simp [records]

theorem records_list (c : Cursor Capability) :
    records c.list = records c.before.reverse ++ (c.elem.revoks ++ records c.after) := by
  simp [Cursor.list]

/-- The records with those of the entry at the cursor in front. -/
theorem records_perm (c : Cursor Capability) : (records c.list).Perm (c.elem.revoks ++ records c.remove) := by
  rw [records_list, Cursor.remove, records_append, ← List.append_assoc, ← List.append_assoc]
  exact List.perm_append_comm.append_right _

/-- One record less, when it is dropped from the list of the entry. -/
theorem records_revoked {c : Cursor Capability} {r : Cursor RevokHandle} {status : CapaStatus} (hr : c.elem.revoks = r.list) :
    (records c.list).Perm (r.elem :: records (c.put { c.elem with status := status, revoks := r.remove }).list) := by
  have hcut : (c.elem.revoks ++ records c.remove).Perm (r.elem :: (r.remove ++ records c.remove)) := by
    rw [hr]
    exact r.list_perm.append_right _
  have hput := records_perm (c.put { c.elem with status := status, revoks := r.remove })
  exact (records_perm c).trans (hcut.trans (hput.symm.cons _))

/-! ## The ledger -/

/-- A record as the monitor knows it: the domain and the handle. -/
def RevokHandle.key (r : RevokHandle) : Nat × Nat := (r.domain, r.revokHandle)

/-- The accounts of the revocation records. -/
structure Ledger (s : Tracker) : Prop where
  active : ∀ c ∈ s.capabilities, c.status = .active → c.revoks = []
  paused : ∀ c ∈ s.capabilities, c.status = .paused → c.revoks.length ≤ 1
  /-- What was created is in a list or was freed by a revocation. -/
  issued : (granted s.log).Perm (records s.capabilities ++ retired s.log)
  once : ((granted s.log).map (·.ptr)).Nodup
  bound : ∀ r ∈ granted s.log, r.ptr < s.heap
  named : (granted s.log).map (·.key) = deliveries s.log
  revoked : (retired s.log).map (·.revokHandle) = revoked s.log
  freedBound : ∀ r ∈ freedRecords s.log, r.ptr < s.heap
  freed : ∀ r ∈ granted s.log,
    (freedRecords s.log).countP (·.ptr == r.ptr) = if r ∈ retired s.log then 1 else 0
  capas : ∀ c ∈ freedCapas s.log, c.revoks = []

theorem Ledger.nodup {s : Tracker} (h : Ledger s) : (granted s.log).Nodup := List.Nodup.of_map _ h.once

/-- A record in a list has not been freed by a revocation. -/
theorem Ledger.not_retired {s : Tracker} (h : Ledger s) {r : RevokHandle} (hr : r ∈ records s.capabilities) :
    r ∉ retired s.log := by
  have := (h.issued.nodup_iff.1 h.nodup)
  exact List.disjoint_of_nodup_append this hr

theorem Ledger.granted_of_record {s : Tracker} (h : Ledger s) {r : RevokHandle} (hr : r ∈ records s.capabilities) :
    r ∈ granted s.log := h.issued.mem_iff.2 (List.mem_append_left _ hr)

/-- Two created records with one address are one record. -/
theorem Ledger.ptr_inj {s : Tracker} (h : Ledger s) {r r' : RevokHandle} (hr : r ∈ granted s.log)
    (hr' : r' ∈ granted s.log) (hp : r.ptr = r'.ptr) : r = r' := List.inj_on_of_nodup_map h.once hr hr' hp

theorem Fresh.ledger {s : Tracker} (h : Fresh s) : Ledger s := by
  have hlog : ∀ {log : List Event}, (∀ e ∈ log, e.Inert) →
      granted log = [] ∧ deliveries log = [] ∧ Capa.revoked log = [] ∧ retired log = [] ∧
        freedRecords log = [] ∧ freedCapas log = [] := by
    intro log hl
    induction log with
    | nil => simp [granted, deliveries, Capa.revoked, retired, freedRecords, freedCapas]
    | cons e log ih =>
      obtain ⟨h1, h2, h3, h4, h5, h6⟩ := ih fun e he => hl e (List.mem_cons_of_mem _ he)
      have he := hl e List.mem_cons_self
      cases e with
      | alloc p => exact ⟨h1, h2, h3, h4, h5, h6⟩
      | vmcall f a =>
        simp only [Event.Inert] at he
        simp [granted, deliveries, Capa.revoked, retired, freedRecords, freedCapas, he, h1, h2, h3, h4, h5, h6]
      | dealloc o => exact he.elim
  obtain ⟨h1, h2, h3, h4, h5, h6⟩ := hlog h.log
  have hrec : records s.capabilities = [] := by
    rw [records, List.flatMap_eq_nil_iff]
    exact fun c hc => (h.entries c hc).2
  exact {
    active := fun c hc _ => (h.entries c hc).2
    paused := fun c hc _ => by simp [(h.entries c hc).2]
    issued := by simp [h1, hrec, h4]
    once := by simp [h1]
    bound := by simp [h1]
    named := by simp [h1, h2]
    revoked := by simp [h3, h4]
    freedBound := by simp [h5]
    freed := by simp [h1]
    capas := by simp [h6] }

/-! ## Effects keep the ledger -/

/-- Membership of an entry after the entry at the cursor was rewritten. -/
theorem mem_put {c : Cursor Capability} {e d : Capability} (h : d ∈ (c.put e).list) : d = e ∨ d ∈ c.list := by
  rcases Cursor.mem_list.1 h with h | h
  · exact .inl h
  · exact .inr (Cursor.mem_list.2 (.inr h))

theorem deliverStatus_ne_active {tpe : Nat} : deliverStatus tpe ≠ .active := by
  unfold deliverStatus; split <;> decide

/-- The records the events create, revoke and free. -/
def accounts (log : List Event) : List RevokHandle × List (Nat × Nat) × List Nat × List RevokHandle :=
  (granted log, deliveries log, Capa.revoked log, retired log)

/-- An effect that creates and revokes nothing keeps the ledger; the records
it frees (`new`) were allocated by it. -/
theorem Ledger.unchanged {s t : Tracker} (h : Ledger s) (new : List RevokHandle)
    (hacc : accounts t.log = accounts s.log) (hrec : records t.capabilities = records s.capabilities)
    (hheap : s.heap ≤ t.heap) (hfreed : freedRecords t.log = new ++ freedRecords s.log)
    (hnew : ∀ r ∈ new, s.heap ≤ r.ptr ∧ r.ptr < t.heap)
    (hmem : ∀ d ∈ t.capabilities,
      d.revoks = [] ∨ ∃ d' ∈ s.capabilities, d.status = d'.status ∧ d.revoks = d'.revoks)
    (hcapas : ∀ c ∈ freedCapas t.log, c.revoks = []) : Ledger t := by
  simp only [accounts, Prod.mk.injEq] at hacc
  obtain ⟨h1, h2, h3, h4⟩ := hacc
  exact {
    active := by
      intro d hd hst
      rcases hmem d hd with h' | ⟨d', hd', e1, e2⟩
      · exact h'
      · rw [e2]; exact h.active d' hd' (e1 ▸ hst)
    paused := by
      intro d hd hst
      rcases hmem d hd with h' | ⟨d', hd', e1, e2⟩
      · simp [h']
      · rw [e2]; exact h.paused d' hd' (e1 ▸ hst)
    issued := by rw [h1, hrec, h4]; exact h.issued
    once := by rw [h1]; exact h.once
    bound := by rw [h1]; exact fun r hr => Nat.lt_of_lt_of_le (h.bound r hr) hheap
    named := by rw [h1, h2]; exact h.named
    revoked := by rw [h4, h3]; exact h.revoked
    freedBound := by
      rw [hfreed]
      intro r hr
      rcases List.mem_append.1 hr with hr | hr
      · exact (hnew r hr).2
      · exact Nat.lt_of_lt_of_le (h.freedBound r hr) hheap
    freed := by
      -- The records given back are younger than any record created so far.
      rw [h1, h4, hfreed]
      intro r hr
      have hzero : new.countP (·.ptr == r.ptr) = 0 := by
        rw [List.countP_eq_zero]
        intro r' hr'
        have := (hnew r' hr').1
        have := h.bound r hr
        simp only [beq_iff_eq]; omega
      rw [List.countP_append, hzero, Nat.zero_add]
      exact h.freed r hr
    capas := hcapas }

theorem Ledger.idle {s t : Tracker} (h : Ledger s) (hm : Micro s .idle t) : Ledger t := by
  have same : ∀ d ∈ s.capabilities,
      d.revoks = [] ∨ ∃ d' ∈ s.capabilities, d.status = d'.status ∧ d.revoks = d'.revoks :=
    fun d hd => .inr ⟨d, hd, rfl, rfl⟩
  cases hm with
  | noMemory => exact h.unchanged [] rfl rfl (Nat.le_refl _) rfl (by simp) same h.capas
  | refused f a ha =>
    refine h.unchanged [] ?_ rfl (Nat.le_refl _) rfl (by simp) same h.capas
    simp [accounts, granted, deliveries, Capa.revoked, retired, ha]
  | abandoned f a obj ha hobj =>
    cases obj with
    | capa c =>
      refine h.unchanged [] ?_ rfl (Nat.le_succ _) rfl (by simp) same ?_
      · simp [accounts, granted, deliveries, Capa.revoked, retired, ha]
      · intro d hd
        rcases List.mem_cons.1 hd with rfl | hd
        · exact hobj.2
        · exact h.capas d hd
    | revok r =>
      have hr : r.ptr = s.heap := hobj
      refine h.unchanged [r] ?_ rfl (Nat.le_succ _) rfl (by simp [hr]) same h.capas
      simp [accounts, granted, deliveries, Capa.revoked, retired, justRevoked, ha]

/-- A vmcall that neither creates nor revokes a handle keeps the ledger. -/
theorem Ledger.vmcall {s : Tracker} (h : Ledger s) {f : VmcallFrame} (a : VmcallAnswer)
    (hf : f.delivers = false ∧ f.revokes = false) : Ledger { s with log := .vmcall f a :: s.log } := by
  refine h.unchanged [] ?_ rfl (Nat.le_refl _) rfl (by simp) (fun d hd => .inr ⟨d, hd, rfl, rfl⟩) h.capas
  simp [accounts, granted, deliveries, Capa.revoked, retired, hf]

theorem Ledger.split {s t : Tracker} {c : Capability} {addr : Nat} (h : Ledger s)
    (hm : Micro s (.split c addr) t) : Ledger t := by
  cases hm with
  | split c _ a hl hs ha =>
    refine h.unchanged [] ?_ ?_ (Nat.le_succ _) rfl (by simp) ?_ h.capas
    · simp [accounts, granted, deliveries, Capa.revoked, retired]
    · rw [hl, records_append, records_list, records_list]; simp
    · intro d hd
      rcases List.mem_append.1 hd with hd | hd
      · rcases mem_put hd with rfl | hd
        · exact .inr ⟨c.elem, hl ▸ c.elem_mem, rfl, rfl⟩
        · exact .inr ⟨d, hl ▸ hd, rfl, rfl⟩
      · obtain rfl := List.mem_singleton.1 hd
        exact .inl rfl

/-- A merge is of entries that hold no record. -/
theorem Ledger.records_merge {s t : Tracker} {c d : Capability} (h : Ledger s) (hm : Micro s (.merge c d) t) :
    records t.capabilities = records s.capabilities := by
  cases hm with
  | merge l l' _ _ a hl hc hd =>
    have hc' : c.revoks = [] := h.active c (by simp [hl]) hc
    have hd' : d.revoks = [] := h.active d (by simp [hl]) hd
    simp [hl, hc', hd']

theorem Ledger.merge {s t : Tracker} {c d : Capability} (h : Ledger s)
    (hm : Micro s (.merge c d) t) : Ledger t := by
  cases hm with
  | merge l l' _ _ a hl hc hd hadj hacc ha =>
    have hc' : c.revoks = [] := h.active c (by simp [hl]) hc
    have hd' : d.revoks = [] := h.active d (by simp [hl]) hd
    refine h.unchanged [] ?_ ?_ (Nat.le_refl _) rfl (by simp) ?_ ?_
    · simp [accounts, granted, deliveries, Capa.revoked, retired]
    · exact h.records_merge (.merge s l l' _ _ a hl hc hd hadj hacc ha)
    · intro e he
      simp only [List.mem_append, List.mem_cons] at he
      rcases he with he | rfl | he
      · exact .inr ⟨e, by simp [hl, he], rfl, rfl⟩
      · exact .inl hc'
      · exact .inr ⟨e, by simp [hl, he], rfl, rfl⟩
    · intro e he
      rcases List.mem_cons.1 he with rfl | he
      · exact hd'
      · exact h.capas e he

theorem Ledger.deliver {s t : Tracker} {c : Capability} {tpe : Nat} {r : RevokHandle} (h : Ledger s)
    (hm : Micro s (.deliver c tpe r) t) : Ledger t := by
  cases hm with
  | deliver c dom _ a hl hd ha =>
    have h1 : granted (.vmcall (deliverFrame dom c.elem.handle tpe) a :: .alloc (some s.heap) :: s.log) =
        ⟨s.heap, dom, a.ret1⟩ :: granted s.log := by simp [granted, justAllocated, ha]
    have hrec : (records (c.put { c.elem with
        status := deliverStatus tpe, revoks := c.elem.revoks ++ [⟨s.heap, dom, a.ret1⟩] }).list).Perm
          (⟨s.heap, dom, a.ret1⟩ :: records s.capabilities) := by
      rw [hl, records_list, records_list]
      simp only [Cursor.put_before, Cursor.put_elem, Cursor.put_after]
      rw [List.append_assoc c.elem.revoks, ← List.append_assoc, List.singleton_append, ← List.append_assoc]
      exact List.perm_middle
    have hfresh : s.heap ∉ (granted s.log).map (·.ptr) := by
      simp only [List.mem_map, not_exists, not_and]
      intro r hr hp
      have := h.bound r hr
      omega
    exact {
      active := by
        intro d hd hst
        rcases mem_put hd with rfl | hd
        · exact absurd hst deliverStatus_ne_active
        · exact h.active d (hl ▸ hd) hst
      paused := by
        intro d hd' hst
        rcases mem_put hd' with rfl | hd'
        · -- A grant is of an active entry, which has no record yet.
          by_cases ht : isConfidential tpe = true
          · have hact : c.elem.status = .active := by simpa [Deliverable, ht] using hd
            simp [h.active _ (hl ▸ c.elem_mem) hact]
          · simp [deliverStatus, ht] at hst
        · exact h.paused d (hl ▸ hd') hst
      issued := by
        simp only [h1]
        exact (h.issued.cons _).trans (hrec.symm.append_right _)
      once := by
        simp only [h1, List.map_cons, List.nodup_cons]
        exact ⟨hfresh, h.once⟩
      bound := by
        simp only [h1, List.mem_cons, forall_eq_or_imp]
        exact ⟨Nat.lt_succ_self _, fun r hr => Nat.lt_succ_of_lt (h.bound r hr)⟩
      named := by simpa [h1, deliveries, ha, RevokHandle.key] using h.named
      revoked := by simpa [Capa.revoked, retired] using h.revoked
      freedBound := fun r hr => Nat.lt_succ_of_lt (h.freedBound r hr)
      freed := by
        simp only [h1, List.mem_cons, forall_eq_or_imp]
        refine ⟨?_, h.freed⟩
        have hnot : (⟨s.heap, dom, a.ret1⟩ : RevokHandle) ∉ retired s.log := by
          intro hr
          have := h.bound _ (h.issued.mem_iff.2 (List.mem_append_right _ hr))
          simp at this
        have hzero : (freedRecords s.log).countP (·.ptr == s.heap) = 0 := by
          rw [List.countP_eq_zero]
          intro r hr
          have := h.freedBound r hr
          simp only [beq_iff_eq]; omega
        simpa [freedRecords, retired, hnot] using hzero
      capas := h.capas }

theorem Ledger.revoke {s t : Tracker} {c : Capability} {r : RevokHandle} (h : Ledger s)
    (hm : Micro s (.revoke c r) t) : Ledger t := by
  cases hm with
  | revoke c r status a hl hr hs ha =>
    have h1 : granted (.dealloc (.revok r.elem) :: .vmcall (revokFrame r.elem.revokHandle) a :: s.log) =
        granted s.log := by simp [granted]
    have h4 : retired (.dealloc (.revok r.elem) :: .vmcall (revokFrame r.elem.revokHandle) a :: s.log) =
        r.elem :: retired s.log := by simp [retired, justRevoked, ha]
    have hrec : (records s.capabilities).Perm
        (r.elem :: records (c.put { c.elem with status := status, revoks := r.remove }).list) := hl ▸ records_revoked hr
    have hmem : r.elem ∈ records s.capabilities := hrec.mem_iff.2 List.mem_cons_self
    have hnot := h.not_retired hmem
    exact {
      active := by
        intro d hd hst
        rcases mem_put hd with rfl | hd
        · rcases hs with ⟨-, hrest⟩ | ⟨h', -⟩
          · exact hrest
          · rw [h'] at hst; cases hst
        · exact h.active d (hl ▸ hd) hst
      paused := by
        intro d hd hst
        rcases mem_put hd with rfl | hd
        · rcases hs with ⟨h', -⟩ | ⟨h', -⟩ <;> rw [h'] at hst <;> cases hst
        · exact h.paused d (hl ▸ hd) hst
      issued := by
        rw [h1, h4]
        exact h.issued.trans ((hrec.append_right _).trans List.perm_middle.symm)
      once := by rw [h1]; exact h.once
      bound := by rw [h1]; exact h.bound
      named := by rw [h1]; simpa [deliveries] using h.named
      revoked := by rw [h4]; simp [Capa.revoked, ha, h.revoked]
      freedBound := by
        intro r' hr'
        rcases List.mem_cons.1 hr' with rfl | hr'
        · exact h.bound _ (h.granted_of_record hmem)
        · exact h.freedBound r' hr'
      freed := by
        rw [h1, h4]
        intro r' hr'
        show List.countP _ (r.elem :: freedRecords s.log) = _
        rw [List.countP_cons, h.freed r' hr']
        by_cases he : r' = r.elem
        · subst he; simp [hnot]
        · have hne : (r.elem.ptr == r'.ptr) = false := by
            rw [beq_eq_false_iff_ne]
            exact fun hp => he (h.ptr_inj hr' (h.granted_of_record hmem) hp.symm)
          simp [hne, he]
      capas := h.capas }

/-- Every effect keeps the ledger. -/
theorem Ledger.micro {s t : Tracker} {e : Effect} (h : Ledger s) (hm : Micro s e t) : Ledger t := by
  cases e with
  | idle => exact h.idle hm
  | split => exact h.split hm
  | deliver => exact h.deliver hm
  | revoke => exact h.revoke hm
  | merge => exact h.merge hm

theorem Ledger.path {s t : Tracker} {es : List Effect} (h : Ledger s) (hp : Path s es t) : Ledger t :=
  hp.invariant (fun _ _ _ _ h hm => h.micro hm) h

/-! ## Runs keep the ledger -/

/-- A property of the tracker that every effect keeps holds after a call. -/
theorem Config.after_invariant {env : Env} {x y : Config} {call : Call} {out} {P : Tracker → Prop}
    (h : x.after env call = (out, y)) (hx : Ledger x.tracker)
    (step : ∀ e s t, Ledger s → P s → Micro s e t → P t) (hp : P x.tracker) : Ledger y.tracker ∧ P y.tracker := by
  simp only [Config.after] at h
  cases h
  obtain ⟨es, hpath, -⟩ := Call.run_effects hx.active (Prod.eta (call.run env x.tracker)).symm
  exact hpath.invariant (P := fun s => Ledger s ∧ P s)
    (fun e _ s t hs hm => ⟨hs.1.micro hm, step e s t hs.1 hs.2 hm⟩) ⟨hx, hp⟩

/-- A property of the tracker that every effect keeps holds along a run. -/
theorem Run.invariant {env : Env} {allowed x y} {P : Tracker → Prop} (h : Run env allowed x y)
    (hx : Ledger x.tracker) (step : ∀ e s t, Ledger s → P s → Micro s e t → P t) (hp : P x.tracker) :
    Ledger y.tracker ∧ P y.tracker := by
  induction h with
  | refl => exact ⟨hx, hp⟩
  | tail _ hs ih =>
    obtain ⟨-, call, out, hafter, -⟩ := hs
    exact Config.after_invariant hafter ih.1 step ih.2

theorem Run.ledger {env : Env} {allowed x y} (h : Run env allowed x y) (hx : Ledger x.tracker) :
    Ledger y.tracker :=
  (h.invariant (P := fun _ => True) hx (fun _ _ _ _ _ _ => trivial) trivial).1

theorem Started.ledger {env : Env} {x : Config} (h : Started env x) : Ledger x.tracker := by
  obtain ⟨s, hs, rfl⟩ := h
  exact (initDomain_fresh hs).ledger

/-! ## What was created stays accounted for -/

theorem Micro.log_suffix {s t : Tracker} {e : Effect} (h : Micro s e t) : s.log <:+ t.log := by
  cases h <;> simp only [List.suffix_cons_iff, List.suffix_refl, or_true]

theorem Path.log_suffix {s t : Tracker} {es : List Effect} (h : Path s es t) : s.log <:+ t.log := by
  induction h with
  | nil => exact List.suffix_refl _
  | cons hm _ ih => exact hm.log_suffix.trans ih

theorem Run.log_suffix {env : Env} {allowed x y} (h : Run env allowed x y) (hx : Ledger x.tracker) :
    x.tracker.log <:+ y.tracker.log :=
  (h.invariant (P := fun s => x.tracker.log <:+ s.log) hx
    (fun _ _ _ _ hs hm => hs.trans hm.log_suffix) (List.suffix_refl _)).2

theorem granted_suffix {log log' : List Event} (h : log <:+ log') : granted log ⊆ granted log' := by
  obtain ⟨evs, rfl⟩ := h
  induction evs with
  | nil => exact fun _ h => h
  | cons e evs ih =>
    intro r hr
    have := ih hr
    cases e with
    | vmcall f a =>
      simp only [List.cons_append, granted]
      split
      · exact List.mem_append_right _ this
      · exact this
    | alloc => exact this
    | dealloc => exact this

/-- The entries whose list holds the record. -/
def holders (r : RevokHandle) (l : List Capability) : Nat := l.countP fun c => decide (r ∈ c.revoks)

theorem holders_zero {r : RevokHandle} {l : List Capability} (h : r ∉ records l) : holders r l = 0 := by
  rw [holders, List.countP_eq_zero]
  intro c hc hr
  exact h (mem_records.2 ⟨c, hc, of_decide_eq_true hr⟩)

theorem holders_one {r : RevokHandle} {l : List Capability} (hn : (records l).Nodup) (h : r ∈ records l) :
    holders r l = 1 := by
  induction l with
  | nil => simp at h
  | cons c l ih =>
    rw [records_cons] at hn h
    obtain ⟨-, hl, hdis⟩ := List.nodup_append'.1 hn
    by_cases hc : r ∈ c.revoks
    · have hrest : r ∉ records l := fun h' => hdis hc h'
      rw [holders, List.countP_cons, ← holders, holders_zero hrest]
      simp [hc]
    · have hrest : r ∈ records l := (List.mem_append.1 h).resolve_left hc
      rw [holders, List.countP_cons, ← holders, ih hl hrest]
      simp [hc]

theorem Ledger.holders {s : Tracker} (h : Ledger s) {r : RevokHandle} (hr : r ∈ granted s.log) :
    holders r s.capabilities = if r ∈ retired s.log then 0 else 1 := by
  have hn : (records s.capabilities ++ retired s.log).Nodup := h.issued.nodup_iff.1 h.nodup
  split
  · next hret =>
    exact holders_zero fun h' => h.not_retired h' hret
  · next hret =>
    have hrec : r ∈ records s.capabilities := (List.mem_append.1 (h.issued.mem_iff.1 hr)).resolve_right hret
    exact holders_one (List.nodup_append'.1 hn).1 hrec

/-- **Revocation handles are conserved.** At any point `y` of a run, the
accepted grants and shares each created exactly one record. At any later
point `z`, such a record is in the list of exactly one entry as long as no
accepted revocation was of its handle; from then on it is in none, and it
was freed exactly then, once. No entry was ever freed with a record in it. -/
theorem revokHandles_conserved {env : Env} {x y z : Config} (hx : Started env x) (hy : Run env apiCall x y)
    (hz : Run env apiCall y z) :
    (granted y.tracker.log).map (·.key) = deliveries y.tracker.log ∧
      ((granted y.tracker.log).map (·.ptr)).Nodup ∧
      (∀ r ∈ granted y.tracker.log,
        holders r z.tracker.capabilities = (if r ∈ retired z.tracker.log then 0 else 1) ∧
        (freedRecords z.tracker.log).countP (·.ptr == r.ptr) = if r ∈ retired z.tracker.log then 1 else 0) ∧
      (retired z.tracker.log).map (·.revokHandle) = Capa.revoked z.tracker.log ∧
      (∀ c ∈ freedCapas z.tracker.log, c.revoks = []) := by
  have ly := hy.ledger hx.ledger
  have lz := hz.ledger ly
  have hsub := granted_suffix (hz.log_suffix ly)
  exact ⟨ly.named, ly.once, fun r hr => ⟨lz.holders (hsub hr), lz.freed r (hsub hr)⟩, lz.revoked, lz.capas⟩

/-- A region granted, then revoked and merged back. -/
theorem revokHandles_conserved_granting :
    let env := Env.granting [(0, 0x10000)]
    let y := (Config.start env).played env [.transfer 1 0x2000 0x4000 confidential]
    let z := y.played env [.revoke 1 0x2000 0x4000]
    (granted y.tracker.log).map (·.key) = deliveries y.tracker.log ∧
      ((granted y.tracker.log).map (·.ptr)).Nodup ∧
      (∀ r ∈ granted y.tracker.log,
        holders r z.tracker.capabilities = (if r ∈ retired z.tracker.log then 0 else 1) ∧
        (freedRecords z.tracker.log).countP (·.ptr == r.ptr) = if r ∈ retired z.tracker.log then 1 else 0) ∧
      (retired z.tracker.log).map (·.revokHandle) = Capa.revoked z.tracker.log ∧
      (∀ c ∈ freedCapas z.tracker.log, c.revoks = []) :=
  revokHandles_conserved (Config.started (by decide))
    (Run.of_plays (fun _ call _ => call.isApi) _ (by decide) fun _ _ _ h => h)
    (Run.of_plays (fun _ call _ => call.isApi) _ (by decide) fun _ _ _ h => h)

end Tyche.Capa
