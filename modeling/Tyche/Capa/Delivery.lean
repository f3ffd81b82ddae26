/-
What a transfer hands over, and what it leaves behind. A transfer that
returns 0 delivered the range it was asked for, with rights of the entry it
was cut from (`transfer_exact`). The entry need not be one the domain owns
alone: the checks of `split_capa` are not made for a range that is a whole
entry (`granted_owned`). A transfer that returns -1 leaves the pieces of the
splits it made (`failed_transfer_keeps`).
-/
import Tyche.Capa.Restore
import Mathlib.Data.Nat.Bitwise

namespace Tyche.Capa

/-! ## Rights -/

theorem right_iff (a i : Nat) : a &&& 1 <<< i ≠ 0 ↔ a.testBit i = true := by
  rw [Nat.one_shiftLeft, Nat.and_two_pow]
  cases a.testBit i <;> simp

theorem accessIsLess_iff {a1 a2 : Nat} :
    accessIsLess a1 a2 = true ↔ ∀ i < 3, a1.testBit i = true → a2.testBit i = true := by
  have h0 := fun a => right_iff a 0
  have h1 := fun a => right_iff a 1
  have h2 := fun a => right_iff a 2
  have hall : (∀ i < 3, a1.testBit i = true → a2.testBit i = true) ↔
      (a1.testBit 0 = true → a2.testBit 0 = true) ∧ (a1.testBit 1 = true → a2.testBit 1 = true) ∧
        (a1.testBit 2 = true → a2.testBit 2 = true) := by
    constructor
    · intro h
      exact ⟨h 0 (by decide), h 1 (by decide), h 2 (by decide)⟩
    · rintro ⟨g0, g1, g2⟩ i hi
      match i, hi with
      | 0, _ => exact g0
      | 1, _ => exact g1
      | 2, _ => exact g2
  rw [hall, ← h0, ← h0, ← h1, ← h1, ← h2, ← h2]
  simp only [accessIsLess, capaRead, capaWrite, capaExec]
  split_ifs <;> simp_all

theorem translateAccess_lt (tpe : Nat) : translateAccess tpe < 2 ^ 3 := by
  unfold translateAccess
  split_ifs <;> decide

/-- The rights of a type that `access_is_less` lets through are rights of the
entry, one by one. -/
theorem accessIsLess_included {tpe access : Nat} (h : accessIsLess (translateAccess tpe) access = true) :
    translateAccess tpe &&& access = translateAccess tpe := by
  refine Nat.eq_of_testBit_eq fun i => ?_
  rw [Nat.testBit_and]
  cases ht : (translateAccess tpe).testBit i with
  | false => rfl
  | true =>
    have hi : i < 3 := by
      by_contra hge
      rw [Nat.testBit_lt_two_pow ((translateAccess_lt tpe).trans_le (Nat.pow_le_pow_right (by decide) (by omega)))] at ht
      cases ht
    rw [accessIsLess_iff.1 h i hi ht]
    rfl

/-! ## Up to the delivery -/

/-- The entry a transfer is about to deliver, when nothing failed before. -/
def beforeDelivery (env : Env) (start end_ tpe : Nat) (s : Tracker) : Option (Cursor Capability) × Tracker :=
  if badTransfer start end_ tpe then (none, s)
  else
    match Cursor.find (transferable start end_) s.capabilities with
    | none => (none, s)
    | some curr => if transferAllowed tpe curr.elem = false then (none, s) else isolate env curr start end_ s

/-- A transfer is the search and the splits, then the delivery. -/
theorem transferCapa_eq (env : Env) (dom start end_ tpe : Nat) (s : Tracker) :
    transferCapa env dom start end_ tpe s =
      match beforeDelivery env start end_ tpe s with
      | (none, t) => (-1, t)
      | (some c, t) => if isConfidential tpe then grantStep env dom tpe c t else shareStep env dom tpe c t := by
  simp only [transferCapa, beforeDelivery]
  split
  · rfl
  cases Cursor.find (transferable start end_) s.capabilities with
  | none => rfl
  | some curr =>
    dsimp only
    split
    · rfl
    · rcases isolate env curr start end_ s with ⟨_ | c, t⟩ <;> rfl

section
variable {env : Env} {dom start end_ tpe : Nat} {s s' t : Tracker} {c : Cursor Capability}

theorem beforeDelivery_some (h : beforeDelivery env start end_ tpe s = (some c, t)) :
    ∃ curr, Selected s start end_ tpe curr ∧ isolate env curr start end_ s = (some c, t) := by
  simp only [beforeDelivery] at h
  split at h
  · cases h
  next hbad =>
  split at h
  · cases h
  next curr hfind =>
  split at h
  · cases h
  next hok =>
  exact ⟨curr, ⟨by simpa using hbad, hfind, by simpa using hok⟩, h⟩

/-- Before the delivery there are splits, and the entry has the range. -/
theorem beforeDelivery_path (h : beforeDelivery env start end_ tpe s = (some c, t)) :
    ∃ curr es, Selected s start end_ tpe curr ∧ Path s es t ∧ SplitsOf curr.elem start end_ es ∧
      t.capabilities = c.list ∧ c.elem.Exact start end_ ∧ c.elem.status = curr.elem.status := by
  obtain ⟨curr, hsel, hi⟩ := beforeDelivery_some h
  obtain ⟨hlist, hcurr, -⟩ := Cursor.find_some hsel.2.1
  obtain ⟨es, hp, hs, hc⟩ := isolate_path hlist.symm hcurr hi
  exact ⟨curr, es, hsel, hp, hs, hc c rfl⟩

/-- A transfer that comes to no entry has failed. -/
theorem transferCapa_none (hb : beforeDelivery env start end_ tpe s = (none, t)) :
    transferCapa env dom start end_ tpe s = (-1, t) := by
  rw [transferCapa_eq, hb]

/-- A transfer that comes to an entry delivers it, or fails there. -/
theorem transferCapa_some {ret : Int} (hb : beforeDelivery env start end_ tpe s = (some c, t))
    (h : transferCapa env dom start end_ tpe s = (ret, s')) : Delivers dom tpe c.elem t ret s' := by
  obtain ⟨curr, es, ⟨hbad, -, hok⟩, -, -, hl, -, hst⟩ := beforeDelivery_path hb
  obtain ⟨hconf, hshare⟩ := transferAllowed_status hok
  rw [transferCapa_eq, hb] at h
  dsimp only at h
  split at h
  · next ht => exact grantStep_delivers hl ht (by rw [hst]; exact hconf ht) h
  · next ht =>
    have ht : isConfidential tpe = false := by simpa using ht
    exact shareStep_delivers hl ht (by rw [hst]; exact hshare (isShared_of_not_confidential hbad ht)) h

/-- A transfer that returned 0 delivered the entry it had come to. -/
theorem transferCapa_zero (h : transferCapa env dom start end_ tpe s = (0, s')) :
    ∃ c t a, beforeDelivery env start end_ tpe s = (some c, t) ∧ a.ok = true ∧ s' = t.handedOver c dom tpe a := by
  rcases hb : beforeDelivery env start end_ tpe s with ⟨_ | c, t⟩
  · rw [transferCapa_none hb] at h
    cases h
  rw [transferCapa_eq, hb] at h
  have hlast : ∃ a : VmcallAnswer, a.ok = true ∧ s' = t.handedOver c dom tpe a := by
    dsimp only at h
    split at h
    · next ht => exact grantStep_zero ht h
    · next ht => exact shareStep_zero (by simpa using ht) h
  obtain ⟨a, ha, hs'⟩ := hlast
  exact ⟨c, t, a, rfl, ha, hs'⟩

/-! ## The range and the rights -/

/-- The accepted grants and shares, latest first. -/
def handovers : List Event → List VmcallFrame
  | [] => []
  | .vmcall f a :: log => if f.delivers && a.ok then f :: handovers log else handovers log
  | _ :: log => handovers log

/-- An effect that delivers and revokes nothing is no handover. -/
theorem Micro.handovers {e : Effect} (h : Micro s e t) (he : e.Quiet) :
    ∃ evs, t.log = evs ++ s.log ∧ ∀ log, Capa.handovers (evs ++ log) = Capa.handovers log := by
  cases h with
  | noMemory => exact ⟨[_], rfl, fun _ => rfl⟩
  | refused f a ha => exact ⟨[.vmcall f a], rfl, by simp [Capa.handovers, ha]⟩
  | abandoned f a obj ha => exact ⟨[.dealloc obj, .vmcall f a, .alloc (some s.heap)], rfl, by simp [Capa.handovers, ha]⟩
  | split c addr a =>
    refine ⟨[.vmcall (splitFrame c.elem.handle addr) a, .alloc (some s.heap)], rfl, ?_⟩
    simp [Capa.handovers]
  | merge l l' c d a =>
    refine ⟨[.dealloc (.capa d), .vmcall (mergeFrame c.handle d.handle) a], rfl, ?_⟩
    simp [Capa.handovers]
  | deliver => exact he.elim
  | revoke => exact he.elim

theorem Path.handovers {es : List Effect} (h : Path s es t) (hq : ∀ e ∈ es, e.Quiet) :
    ∃ evs, t.log = evs ++ s.log ∧ ∀ log, Capa.handovers (evs ++ log) = Capa.handovers log := by
  induction h with
  | nil => exact ⟨[], rfl, fun _ => rfl⟩
  | cons hm _ ih =>
    obtain ⟨evs, h1, h2⟩ := hm.handovers (hq _ List.mem_cons_self)
    obtain ⟨evs', h1', h2'⟩ := ih fun e he => hq e (List.mem_cons_of_mem _ he)
    exact ⟨evs' ++ evs, by rw [h1', h1, List.append_assoc], fun log => by rw [List.append_assoc, h2', h2]⟩

/-- Splits leave every record where it is. -/
theorem SplitsOf.records {d : Capability} {es : List Effect} (hs : SplitsOf d start end_ es) (h : Path s es t) :
    records t.capabilities = records s.capabilities := by
  refine h.invariant (P := fun u => Capa.records u.capabilities = Capa.records s.capabilities) ?_ rfl
  intro e he u v hu hm
  rcases hs e he with rfl | ⟨-, -, c, a, rfl, -⟩
  · cases hm <;> exact hu
  · cases hm with
    | split c addr a hl =>
      rw [← hu, hl, records_append, records_list, records_list]
      simp

theorem records_delivered (r : RevokHandle) :
    (records (c.put (c.elem.delivered tpe r)).list).Perm (r :: records c.list) := by
  refine (records_perm _).trans ?_
  simp only [Cursor.put_elem, Capability.delivered, Cursor.put_remove, List.append_assoc, List.singleton_append]
  exact List.perm_middle.trans ((records_perm c).symm.cons r)

end

/-- **A transfer that returns 0 hands over exactly the range**, and no more
rights: one grant or share was accepted, for the domain, of an entry of
exactly the range, with rights of the entry found, and the list holds one
record more, of the domain, on that entry. -/
theorem transfer_exact {env : Env} {dom start end_ tpe : Nat} {s s' : Tracker}
    (h : transferCapa env dom start end_ tpe s = (0, s')) :
    ∃ c t r, beforeDelivery env start end_ tpe s = (some c, t) ∧ t.capabilities = c.list ∧
      handovers (newEvents s s') =
        [if isConfidential tpe then grantFrame dom c.elem.handle tpe else shareFrame dom c.elem.handle tpe] ∧
      c.elem.Exact start end_ ∧
      (∃ curr, Cursor.find (transferable start end_) s.capabilities = some curr ∧ curr.elem.start ≤ start ∧
        end_ ≤ curr.elem.end_ ∧ translateAccess tpe &&& curr.elem.access = translateAccess tpe) ∧
      s'.capabilities = (c.put (c.elem.delivered tpe r)).list ∧ r.domain = dom ∧
      (records s'.capabilities).Perm (r :: records s.capabilities) := by
  obtain ⟨c, t, a, hb, ha, rfl⟩ := transferCapa_zero h
  obtain ⟨curr, es, ⟨-, hfind, hok⟩, hp, hs, hl, hx, -⟩ := beforeDelivery_path hb
  refine ⟨c, t, ⟨t.heap, dom, a.ret1⟩, hb, hl, ?_, hx, ⟨curr, hfind, ?_⟩, rfl, rfl, ?_⟩
  · obtain ⟨evs, hlog, hq⟩ := hp.handovers hs.quiet
    have hnew : (t.handedOver c dom tpe a).log =
        (.vmcall (deliverFrame dom c.elem.handle tpe) a :: .alloc (some t.heap) :: evs) ++ s.log := by
      simp [Tracker.handedOver, hlog]
    have hnone : handovers evs = [] := by simpa [handovers] using hq []
    rw [newEvents_append hnew]
    show _ = [deliverFrame dom c.elem.handle tpe]
    simp [handovers, ha, hnone]
  · obtain ⟨-, hcurr, -⟩ := Cursor.find_some hfind
    simp only [transferAllowed, Bool.and_eq_true] at hok
    simp only [transferable, contains, Bool.or_eq_true, Bool.and_eq_true, decide_eq_true_eq] at hcurr
    exact ⟨by omega, by omega, accessIsLess_included hok.1.1⟩
  · rw [← hs.records hp, hl]
    exact records_delivered _

/-- A share out of the middle of a region. -/
theorem transfer_exact_granting :
    let env := Env.granting [(0, 0x10000)]
    let s := (Config.start env).tracker
    let s' := (transferCapa env 1 0x2000 0x4000 sharedRO s).2
    ∃ c t r, beforeDelivery env 0x2000 0x4000 sharedRO s = (some c, t) ∧ t.capabilities = c.list ∧
      handovers (newEvents s s') =
        [if isConfidential sharedRO then grantFrame 1 c.elem.handle sharedRO else shareFrame 1 c.elem.handle sharedRO] ∧
      c.elem.Exact 0x2000 0x4000 ∧
      (∃ curr, Cursor.find (transferable 0x2000 0x4000) s.capabilities = some curr ∧ curr.elem.start ≤ 0x2000 ∧
        0x4000 ≤ curr.elem.end_ ∧ translateAccess sharedRO &&& curr.elem.access = translateAccess sharedRO) ∧
      s'.capabilities = (c.put (c.elem.delivered sharedRO r)).list ∧ r.domain = 1 ∧
      (records s'.capabilities).Perm (r :: records s.capabilities) :=
  transfer_exact (Prod.ext (by decide) rfl)

/-! ## Ownership -/

/-- The domain owns the entry, alone, and has given it to no one. -/
structure Capability.Sole (c : Capability) : Prop where
  owned : c.isOwned ≠ 0
  unshared : c.isShared = 0
  kept : c.revoks = []

instance (c : Capability) : Decidable c.Sole :=
  decidable_of_iff (c.isOwned ≠ 0 ∧ c.isShared = 0 ∧ c.revoks = []) ⟨fun h => ⟨h.1, h.2.1, h.2.2⟩, fun h => ⟨h.1, h.2, h.3⟩⟩

/-- If the range is a whole entry, the domain owns that entry and it is not
shared: what `split_capa` checks of an entry it splits. -/
def WholeOwned (start end_ : Nat) (s : Tracker) : Prop :=
  ∀ curr ∈ Cursor.find (transferable start end_) s.capabilities,
    curr.elem.Exact start end_ → curr.elem.isOwned ≠ 0 ∧ curr.elem.isShared = 0

instance (start end_ : Nat) (s : Tracker) : Decidable (WholeOwned start end_ s) :=
  inferInstanceAs (Decidable (∀ curr ∈ Cursor.find _ s.capabilities, _))

theorem splittable_owned {c : Capability} {addr : Nat} (h : splittable c addr = true) : c.isOwned ≠ 0 ∧ c.isShared = 0 := by
  simp [splittable] at h
  exact h.1.2

/-- **What a grant is made of.** At any point of any run, an entry that is
granted was owned, unshared and given to no one just before, exactly when
the range is part of an entry, or a whole entry that is owned and unshared. -/
theorem granted_owned {env : Env} {x y : Config} {dom start end_ tpe : Nat} {s' : Tracker} (hx : Started env x)
    (h : Run env anyCall x y) (ht : isConfidential tpe = true)
    (hret : transferCapa env dom start end_ tpe y.tracker = (0, s')) :
    ∃ c t a, beforeDelivery env start end_ tpe y.tracker = (some c, t) ∧
      s'.log = .vmcall (grantFrame dom c.elem.handle tpe) a :: .alloc (some t.heap) :: t.log ∧
      (c.elem.Sole ↔ WholeOwned start end_ y.tracker) := by
  have hl : Ledger y.tracker := h.ledger hx.ledger
  obtain ⟨c, t, a, hb, -, rfl⟩ := transferCapa_zero hret
  refine ⟨c, t, a, hb, by simp [Tracker.handedOver, deliverFrame, ht], ?_⟩
  obtain ⟨curr, ⟨-, hfind, hok⟩, hi⟩ := beforeDelivery_some hb
  obtain ⟨hlist, hcurr, -⟩ := Cursor.find_some hfind
  obtain ⟨-, ⟨hx, rfl⟩ | ⟨hx, hs, -, p, q, p', q', rfl⟩⟩ := isolate_some hlist.symm hcurr hi
  · -- The entry itself, which is active and so holds no record.
    have hact : c.elem.status = .active := (transferAllowed_status hok).1 ht
    have hnone : c.elem.revoks = [] := hl.active _ (hlist ▸ c.elem_mem) hact
    constructor
    · rintro hsole d hd -
      obtain rfl : c = d := Option.some.inj (hfind.symm.trans hd)
      exact ⟨hsole.owned, hsole.unshared⟩
    · intro hwhole
      obtain ⟨hown, hsh⟩ := hwhole c hfind hx
      exact ⟨hown, hsh, hnone⟩
  · -- A part of it: `split_capa` has checked the entry.
    obtain ⟨hown, hsh⟩ := splittable_owned hs
    refine ⟨fun _ d hd hdx => ?_, fun _ => ⟨hown, hsh, rfl⟩⟩
    obtain rfl : curr = d := Option.some.inj (hfind.symm.trans hd)
    exact absurd hdx hx

/-- A monitor that reports the flags for every range, and accepts every call. -/
def Env.flagged (flags : Nat) (regions : List (Nat × Nat)) : Env where
  vmcall log f :=
    if f.id = tycheRegionGetInfo then { (Env.granting regions).vmcall log f with ret3 := flags }
    else (Env.granting regions).vmcall log f
  alloc _ := true

/-- An owned region, granted as a whole. -/
theorem granted_owned_granting :
    let env := Env.granting [(0, 0x10000)]
    let s := (Config.start env).tracker
    let s' := (transferCapa env 1 0 0x10000 confidential s).2
    ∃ c t a, beforeDelivery env 0 0x10000 confidential s = (some c, t) ∧
      s'.log = .vmcall (grantFrame 1 c.elem.handle confidential) a :: .alloc (some t.heap) :: t.log ∧
      (c.elem.Sole ↔ WholeOwned 0 0x10000 s) :=
  granted_owned (Config.started (by decide)) .refl (by decide) (Prod.ext (by decide) rfl)

/-- A region reported as shared, and not owned, is granted as a whole. -/
theorem granted_unowned :
    ¬ ∀ (env : Env) (x y : Config) (dom start end_ tpe : Nat) (c : Cursor Capability) (t s' : Tracker), Started env x →
      Run env anyCall x y → isConfidential tpe = true → beforeDelivery env start end_ tpe y.tracker = (some c, t) →
      transferCapa env dom start end_ tpe y.tracker = (0, s') → c.elem.Sole := by
  intro h
  let env := Env.flagged tycheShared [(0, 0x10000)]
  have h' := h env _ _ 1 0 0x10000 confidential ⟨[], ⟨0, 0, 0, 0x10000, 0, 2, 7, .active, []⟩, []⟩ _ _
    (Config.started (by decide)) .refl (by decide) (Prod.ext (by decide) rfl) (Prod.ext (by decide) rfl)
  exact absurd h' (by decide)

/-! ## A failed transfer -/

/-- The first split of the transfer is made: the transfer passes its checks,
and neither the allocator nor the monitor refuses. -/
def splitsFirst (env : Env) (start end_ tpe : Nat) (s : Tracker) : Bool :=
  match Cursor.find (transferable start end_) s.capabilities with
  | none => false
  | some curr =>
    !badTransfer start end_ tpe && transferAllowed tpe curr.elem && !decide (curr.elem.Exact start end_) &&
      splittable curr.elem start && env.alloc s.log &&
      (env.vmcall (.alloc (some s.heap) :: s.log) (splitFrame curr.elem.handle start)).ok

section
variable {env : Env} {dom start end_ tpe : Nat} {s s' : Tracker}

/-- A split succeeds when the entry can be split, and nobody refuses. -/
theorem splitCapa_isSome {c : Cursor Capability} {addr : Nat} : (splitCapa env (some c) addr s).1.isSome =
    (splittable c.elem addr && env.alloc s.log &&
      (env.vmcall (.alloc (some s.heap) :: s.log) (splitFrame c.elem.handle addr)).ok) := by
  cases hs : splittable c.elem addr with
  | false => simp [splitCapa, hs]
  | true =>
    cases ha : env.alloc s.log with
    | false => simp [splitCapa, hs, alloc, ha]
    | true =>
      by_cases hv : (env.vmcall (.alloc (some s.heap) :: s.log) (splitFrame c.elem.handle addr)).ok = true <;>
        simp [splitCapa, hs, alloc, ha, tycheSplitCapa, tycheCall1, tycheCall, hv]

theorem splitCapa_fails {c : Cursor Capability} {addr : Nat} (hl : s.capabilities = c.list)
    (h : splitCapa env (some c) addr s = (none, s')) : s' = s ∨ Micro s .idle s' := by
  rcases splitCapa_path hl h with ⟨-, rfl⟩ | ⟨-, hm⟩ | ⟨sp, h', -⟩
  · exact .inl rfl
  · exact .inr hm
  · cases h'

/-- A split that fails leaves the list alone. -/
theorem splitCapa_none {c : Cursor Capability} {addr : Nat} (hl : s.capabilities = c.list)
    (h : splitCapa env (some c) addr s = (none, s')) : s'.capabilities = s.capabilities := by
  rcases splitCapa_fails hl h with rfl | hm
  · rfl
  · cases hm <;> rfl

/-- A split that succeeds adds an entry. -/
theorem splitCapa_length {c sp : Cursor Capability} {addr : Nat} (hl : s.capabilities = c.list)
    (h : splitCapa env (some c) addr s = (some sp, s')) :
    s'.capabilities = sp.list ∧ s'.capabilities.length = s.capabilities.length + 1 := by
  obtain ⟨-, hcaps, p, q, rfl⟩ := splitCapa_some h
  refine ⟨hcaps, ?_⟩
  rw [hcaps, hl]
  simp [Cursor.last, Cursor.list]
  omega

/-- The split step leaves the list alone when it has nothing to split, or
its first split fails. -/
theorem isolate_keeps {curr : Cursor Capability} (hl : s.capabilities = curr.list) :
    (isolate env curr start end_ s).2.capabilities = s.capabilities ↔
      curr.elem.Exact start end_ ∨ (splitCapa env (some curr) start s).1.isSome = false := by
  by_cases hx : curr.elem.Exact start end_
  · have hx' : curr.elem.start = start ∧ curr.elem.end_ = end_ := hx
    simp [isolate, hx, hx']
  have hx' : ¬ (curr.elem.start = start ∧ curr.elem.end_ = end_) := hx
  simp only [isolate, hx', hx, if_false, false_or]
  rcases hfirst : splitCapa env (some curr) start s with ⟨_ | sp, t⟩
  · simp [splitCapa_none hl hfirst]
  obtain ⟨hsp, hlen⟩ := splitCapa_length hl hfirst
  -- The list is longer after the first split, and no shorter after the second.
  have hlonger : ∀ u : Tracker, t.capabilities.length ≤ u.capabilities.length → u.capabilities ≠ s.capabilities := by
    intro u hu heq
    rw [heq] at hu
    omega
  simp only [Option.isSome_some, Bool.true_eq_false, iff_false]
  split
  · rcases hsecond : splitCapa env (some sp) end_ t with ⟨_ | right, u⟩
    · exact hlonger u (Nat.le_of_eq (congrArg List.length (splitCapa_none hsp hsecond)).symm)
    · have hlen' := (splitCapa_length hsp hsecond).2
      exact hlonger u (by omega)
  · exact hlonger t (Nat.le_refl _)

theorem beforeDelivery_keeps : (beforeDelivery env start end_ tpe s).2.capabilities = s.capabilities ↔
    splitsFirst env start end_ tpe s = false := by
  simp only [beforeDelivery, splitsFirst]
  cases hbad : badTransfer start end_ tpe with
  | true => cases Cursor.find (transferable start end_) s.capabilities <;> simp
  | false =>
    cases hfind : Cursor.find (transferable start end_) s.capabilities with
    | none => simp
    | some curr =>
      dsimp only
      cases hok : transferAllowed tpe curr.elem with
      | false => simp
      | true =>
        simp only [Bool.false_eq_true, Bool.true_eq_false, if_false]
        rw [isolate_keeps (Cursor.find_some hfind).1.symm, splitCapa_isSome]
        by_cases hx : curr.elem.Exact start end_ <;> simp [hx, Bool.and_assoc]

/-- A transfer that fails at the delivery, or before, adds nothing to what
was done before the delivery. -/
theorem transferCapa_failed (h : transferCapa env dom start end_ tpe s = (-1, s')) :
    s'.capabilities = (beforeDelivery env start end_ tpe s).2.capabilities := by
  rcases hb : beforeDelivery env start end_ tpe s with ⟨_ | c, t⟩
  · rw [transferCapa_none hb] at h
    cases h
    rfl
  rcases transferCapa_some hb h with ⟨-, rfl | hm⟩ | ⟨h0, -⟩
  · rfl
  · cases hm <;> rfl
  · cases h0

end

/-- **What a failed transfer leaves behind.** The list is as it was before
the call exactly when the first split was not made: whatever fails after it,
the splits are not undone. -/
theorem failed_transfer_keeps {env : Env} {dom start end_ tpe : Nat} {s s' : Tracker}
    (h : transferCapa env dom start end_ tpe s = (-1, s')) :
    s'.capabilities = s.capabilities ↔ splitsFirst env start end_ tpe s = false := by
  rw [transferCapa_failed h]
  exact beforeDelivery_keeps

/-- A monitor with the ranges that accepts every call but grants. -/
def Env.ungranting (regions : List (Nat × Nat)) : Env where
  vmcall log f := if f.id = tycheDomainGrantRegion then { result := 1 } else (Env.granting regions).vmcall log f
  alloc _ := true

/-- The grant of a whole region, refused. -/
theorem failed_transfer_keeps_ungranting :
    let env := Env.ungranting [(0, 0x10000)]
    let s := (Config.start env).tracker
    (transferCapa env 1 0 0x10000 confidential s).2.capabilities = s.capabilities ↔
      splitsFirst env 0 0x10000 confidential s = false := by
  intro env s
  have hret : transferCapa env 1 0 0x10000 confidential s = (-1, (transferCapa env 1 0 0x10000 confidential s).2) :=
    Prod.ext (by decide) rfl
  exact failed_transfer_keeps hret

/-- The grant of a part of a region, refused: the region is left in three
pieces. -/
theorem failed_transfer_splits :
    ¬ ∀ (env : Env) (x y : Config) (dom start end_ tpe : Nat) (s' : Tracker), Started env x → Run env apiCall x y →
      transferCapa env dom start end_ tpe y.tracker = (-1, s') → s'.capabilities = y.tracker.capabilities := by
  intro h
  let env := Env.ungranting [(0, 0x10000)]
  have h' := h env _ _ 1 0x2000 0x4000 confidential _ (Config.started (by decide)) .refl (Prod.ext (by decide) rfl)
  exact absurd h' (by decide)

end Tyche.Capa
