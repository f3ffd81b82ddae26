/-
Memory that is only ever given confidentially: the domains hold what the
driver gave them and the monitor did not take back, and two of them never
hold the same address.

The library may lose track of shared memory, when it splits an entry that
holds revocation handles. It never splits such an entry around an address
that is only given confidentially: the entry is paused, and no transfer is
allowed on it.
-/
import Tyche.Enclave.Deletion

namespace Tyche.Capa

/-- An entry at the address that holds a record is paused. -/
def Sole (a : Nat) (s : Tracker) : Prop := ∀ c ∈ s.capabilities, c.covers a = true → c.revoks ≠ [] → c.status = .paused

/-- The effect takes no records away from the address, and delivers it
confidentially only. -/
def Effect.Confines (a : Nat) : Effect → Prop
  | .split c _ => c.covers a = true → c.revoks = []
  | .deliver c tpe _ => c.covers a = true → isConfidential tpe = true
  | _ => True

section Sole

variable {a : Nat} {s t : Tracker} {e : Effect}

theorem Sole.micro (h : Sole a s) (hl : Ledger s) (hm : Micro s e t) (he : e.Confines a) : Sole a t := by
  cases hm with
  | noMemory => exact h
  | refused => exact h
  | abandoned => exact h
  | split c addr ans hcaps hs =>
    have hin : contains c.elem.start c.elem.end_ addr = true := by
      unfold splittable at hs
      exact (Bool.and_eq_true_iff.1 hs).2
    have haddr : c.elem.start ≤ addr ∧ addr ≤ c.elem.end_ := by
      unfold contains at hin
      simp only [decide_eq_true_eq] at hin
      omega
    intro d hd hda hdr
    rcases List.mem_append.1 hd with hd | hd
    · rcases Cursor.mem_list.1 hd with rfl | hd
      · have hca : c.elem.covers a = true := by
          have hcovers := covers_iff.1 hda
          simp only [Cursor.put_elem] at hcovers
          exact covers_iff.2 ⟨hcovers.1, by omega⟩
        exact absurd (he hca) hdr
      · exact h d (hcaps ▸ Cursor.mem_list.2 (.inr hd)) hda hdr
    · obtain rfl := List.mem_singleton.1 hd
      exact absurd rfl hdr
  | deliver c dom tpe ans hcaps hd ha =>
    intro d hd hda hdr
    rcases Cursor.mem_list.1 hd with rfl | hd
    · have hca : c.elem.covers a = true := hda
      simp only [Cursor.put_elem, deliverStatus, he hca, if_true]
    · exact h d (hcaps ▸ Cursor.mem_list.2 (.inr hd)) hda hdr
  | revoke c r status ans hcaps hr hs =>
    intro d hd hda hdr
    rcases Cursor.mem_list.1 hd with rfl | hd
    · rcases hs with ⟨-, hnil⟩ | ⟨-, hshared, -⟩
      · exact absurd hnil hdr
      · have hne : c.elem.revoks ≠ [] := by
          rw [hr]
          exact List.ne_nil_of_mem r.elem_mem
        rw [h c.elem (hcaps ▸ c.elem_mem) hda hne] at hshared
        cases hshared
    · exact h d (hcaps ▸ Cursor.mem_list.2 (.inr hd)) hda hdr
  | merge l l' c d ans hcaps hc hd =>
    have hmem : ∀ x, x ∈ l ∨ x ∈ l' → x ∈ s.capabilities := by
      intro x hx
      rw [hcaps]
      rcases hx with hx | hx <;> simp [hx]
    have hnone : c.revoks = [] := hl.active c (by simp [hcaps]) hc
    intro x hx hxa hxr
    rcases List.mem_append.1 hx with hx | hx
    · exact h x (hmem x (.inl hx)) hxa hxr
    rcases List.mem_cons.1 hx with rfl | hx
    · exact absurd hnone hxr
    · exact h x (hmem x (.inr hx)) hxa hxr

end Sole

/-! ## The effects of a call -/

section Calls

variable {a : Nat} {s t : Tracker} {es : List Effect} {out : Outcome Int}

/-- Every type that a transfer admits is shared or confidential. -/
theorem isShared_or_isConfidential {start end_ tpe : Nat} (h : badTransfer start end_ tpe = false) :
    isShared tpe = true ∨ isConfidential tpe = true := by
  have hrange := of_decide_eq_false h
  simp only [isShared, isConfidential, decide_eq_true_eq, minTpe, maxTpe, sharedRO, shared, confidentialRO, confidential] at hrange ⊢
  omega

/-- An entry that a transfer is allowed on is not paused. -/
theorem Selected.not_paused {start end_ tpe : Nat} {curr : Cursor Capability} (h : Selected s start end_ tpe curr) :
    curr.elem.status ≠ .paused := by
  obtain ⟨hbad, -, hallowed⟩ := h
  obtain ⟨hconfidential, hshared⟩ := transferAllowed_status hallowed
  rcases isShared_or_isConfidential hbad with htpe | htpe
  · exact hshared htpe
  · rw [hconfidential htpe]
    decide

/-- What a call does confines the address, if a transfer that is accepted
there is confidential. -/
theorem Call.Effects.confines {call : Call} (h : call.Effects s es out) (hapi : call.isApi = true) (hs : Sole a s)
    (hcall : ∀ dom start end_ tpe, call = .transfer dom start end_ tpe → out = .ret 0 → start ≤ a → a < end_ →
      isConfidential tpe = true) : ∀ e ∈ es, e.Confines a := by
  cases call with
  | split => cases hapi
  | revoke id start end_ =>
    rcases h with ⟨-, rfl | rfl⟩ | ⟨curr, r, merges, rfl, hm, -⟩
    · simp
    · simp [Effect.Confines]
    · intro e he
      rcases List.mem_cons.1 he with rfl | he
      · trivial
      · rcases hm e he with rfl | ⟨x, y, rfl⟩ <;> trivial
  | transfer dom start end_ tpe =>
    obtain ⟨splits, last, rfl, hsplits, hlast⟩ := h
    intro e he
    rcases List.mem_append.1 he with he | he
    · rcases hsplits with rfl | ⟨curr, hsel, hsplits⟩
      · cases he
      rcases hsplits e he with rfl | ⟨-, -, d, addr, rfl, ⟨rfl, rfl⟩ | hnone⟩
      · trivial
      · intro hcovers
        have hmem : curr.elem ∈ s.capabilities := (Cursor.find_some hsel.2.1).1 ▸ curr.elem_mem
        by_contra hrevoks
        exact hsel.not_paused (hs _ hmem hcovers hrevoks)
      · exact fun _ => hnone
    · rcases hlast with ⟨-, rfl | rfl⟩ | ⟨hret, c, r, rfl, ⟨hstart, hend⟩, -⟩
      · cases he
      · obtain rfl := List.mem_singleton.1 he
        trivial
      · obtain rfl := List.mem_singleton.1 he
        intro hcovers
        obtain ⟨h1, h2⟩ := covers_iff.1 hcovers
        exact hcall _ _ _ _ rfl hret (hstart ▸ h1) (hend ▸ h2)

theorem Sole.path (h : Sole a s) (hl : Ledger s) (hp : Path s es t) (he : ∀ e ∈ es, e.Confines a) : Sole a t := by
  refine (hp.invariant (P := fun s => Ledger s ∧ Sole a s) ?_ ⟨hl, h⟩).2
  exact fun e hmem s t hs hm => ⟨hs.1.micro hm, hs.2.micro hs.1 hm (he e hmem)⟩

end Calls

/-! ## The record at the address -/

section Record

variable {a dom start end_ : Nat} {s t : Tracker} {e : Effect} {es : List Effect}

/-- The effect puts a record of the domain into the entry of the range. -/
def Effect.Records (dom start end_ : Nat) : Effect → Prop
  | .deliver c _ r => c.Exact start end_ ∧ r.domain = dom
  | _ => False

/-- A record at the address was there before, or is put there now. -/
theorem Held.of_micro (h : Held dom start end_ t) (h1 : start ≤ a) (h2 : a < end_) (hl : Ledger s) (hm : Micro s e t)
    (he : e.Confines a) : Held dom start end_ s ∨ e.Records dom start end_ := by
  obtain ⟨d, hd, hx, r', hr', hdom⟩ := h
  cases hm with
  | noMemory => exact .inl ⟨d, hd, hx, r', hr', hdom⟩
  | refused => exact .inl ⟨d, hd, hx, r', hr', hdom⟩
  | abandoned => exact .inl ⟨d, hd, hx, r', hr', hdom⟩
  | split c addr ans hcaps hs =>
    have hin : contains c.elem.start c.elem.end_ addr = true := by
      unfold splittable at hs
      exact (Bool.and_eq_true_iff.1 hs).2
    rcases List.mem_append.1 hd with hd | hd
    · rcases Cursor.mem_list.1 hd with rfl | hd
      · -- The left part covers the address, so it has no records.
        have hcovers : c.elem.covers a = true := by
          obtain ⟨hx1, hx2⟩ := hx
          have hx1 : c.elem.start = start := hx1
          have hx2 : addr = end_ := hx2
          unfold contains at hin
          simp only [decide_eq_true_eq] at hin
          exact covers_iff.2 ⟨by omega, by omega⟩
        have hnone : c.elem.revoks = [] := he hcovers
        simp only [Cursor.put_elem, hnone, List.not_mem_nil] at hr'
      · exact .inl ⟨d, hcaps ▸ Cursor.mem_list.2 (.inr hd), hx, r', hr', hdom⟩
    · obtain rfl := List.mem_singleton.1 hd
      cases hr'
  | deliver c dom' tpe ans hcaps hd' ha =>
    rcases Cursor.mem_list.1 hd with rfl | hd
    · rcases List.mem_append.1 hr' with hr' | hr'
      · exact .inl ⟨c.elem, hcaps ▸ c.elem_mem, hx, r', hr', hdom⟩
      · obtain rfl := List.mem_singleton.1 hr'
        exact .inr ⟨hx, hdom⟩
    · exact .inl ⟨d, hcaps ▸ Cursor.mem_list.2 (.inr hd), hx, r', hr', hdom⟩
  | revoke c r status ans hcaps hr hs =>
    rcases Cursor.mem_list.1 hd with rfl | hd
    · refine .inl ⟨c.elem, hcaps ▸ c.elem_mem, hx, r', ?_, hdom⟩
      rw [hr]
      exact Cursor.mem_list.2 (.inr hr')
    · exact .inl ⟨d, hcaps ▸ Cursor.mem_list.2 (.inr hd), hx, r', hr', hdom⟩
  | merge l l' c d' ans hcaps hc hd' =>
    have hnone : c.revoks = [] := hl.active c (by simp [hcaps]) hc
    rcases List.mem_append.1 hd with hd | hd
    · exact .inl ⟨d, by simp [hcaps, hd], hx, r', hr', hdom⟩
    rcases List.mem_cons.1 hd with rfl | hd
    · have hr' : r' ∈ c.revoks := hr'
      rw [hnone] at hr'
      cases hr'
    · exact .inl ⟨d, by simp [hcaps, hd], hx, r', hr', hdom⟩

theorem Held.of_path (hp : Path s es t) (hl : Ledger s) (h : Held dom start end_ t) (h1 : start ≤ a) (h2 : a < end_)
    (he : ∀ e ∈ es, e.Confines a) : Held dom start end_ s ∨ ∃ e ∈ es, e.Records dom start end_ := by
  induction hp with
  | nil => exact .inl h
  | cons hm _ ih =>
    rcases ih (hl.micro hm) h fun e hmem => he e (List.mem_cons_of_mem _ hmem) with hheld | ⟨e, hmem, hrecords⟩
    · rcases hheld.of_micro h1 h2 hl hm (he _ (List.mem_cons_self ..)) with hheld | hrecords
      · exact .inl hheld
      · exact .inr ⟨_, List.mem_cons_self .., hrecords⟩
    · exact .inr ⟨e, List.mem_cons_of_mem _ hmem, hrecords⟩

/-- A confined effect loses the record only by revoking it. -/
theorem Effect.Confines.loses (h : e.Confines a) (h1 : start ≤ a) (h2 : a < end_) (hloses : e.loses dom start end_ = true) :
    ∃ c r, e = .revoke c r ∧ c.Exact start end_ ∧ r.domain = dom := by
  cases e with
  | split c addr =>
    obtain ⟨hx, r, hr, -⟩ := holds_iff.1 hloses
    have hnone : c.revoks = [] := h (covers_iff.2 ⟨hx.1 ▸ h1, hx.2 ▸ h2⟩)
    rw [hnone] at hr
    cases hr
  | revoke c r =>
    have hboth : c.Exact start end_ ∧ r.domain = dom := by simpa [Effect.loses] using hloses
    exact ⟨c, r, rfl, hboth⟩
  | idle | deliver | merge => cases hloses

/-- Two records at an address that one entry covers are the same. -/
theorem Sole.unique (h : Sole a s) (hl : Ledger s) (hone : covering a s.capabilities ≤ 1) {c d : Capability} (hc : c ∈ s.capabilities)
    (hd : d ∈ s.capabilities) (hca : c.covers a = true) (hda : d.covers a = true) {q r : RevokHandle} (hq : q ∈ c.revoks)
    (hr : r ∈ d.revoks) : c = d ∧ q = r := by
  obtain ⟨before, after, hlist⟩ := List.append_of_mem hc
  have hsame : d = c := by
    let k : Cursor Capability := ⟨before.reverse, c, after⟩
    have hk : s.capabilities = k.list := by simp [k, Cursor.list, hlist]
    rcases Cursor.mem_list.1 (hk ▸ hd) with hd | hd
    · exact hd
    · rw [covers_remove (hk ▸ hone) hca d hd] at hda
      cases hda
  subst hsame
  have hlen := hl.paused d hd (h d hd hda (List.ne_nil_of_mem hr))
  obtain ⟨i, hi, rfl⟩ := List.mem_iff_getElem.1 hq
  obtain ⟨j, hj, rfl⟩ := List.mem_iff_getElem.1 hr
  obtain rfl : i = j := by omega
  exact ⟨rfl, rfl⟩

/-- Once a record at the address is revoked, nobody has one there. -/
theorem Sole.revoked (h : Sole a s) (hl : Ledger s) (hone : covering a s.capabilities ≤ 1) {c : Capability} {r : RevokHandle}
    (hm : Micro s (.revoke c r) t) (hx : c.Exact start end_) (h1 : start ≤ a) (h2 : a < end_) : ¬ Held dom start end_ t := by
  cases hm with
  | revoke c r status ans hcaps hr hs =>
    have hca : c.elem.covers a = true := covers_iff.2 ⟨hx.1 ▸ h1, hx.2 ▸ h2⟩
    have hmem : c.elem ∈ s.capabilities := hcaps ▸ c.elem_mem
    have hlen : r.list.length ≤ 1 := by
      rw [← hr]
      exact hl.paused _ hmem (h _ hmem hca (by rw [hr]; exact List.ne_nil_of_mem r.elem_mem))
    rintro ⟨d, hd, hxd, r', hr', -⟩
    rcases Cursor.mem_list.1 hd with rfl | hd
    · have hr' : r' ∈ r.remove := hr'
      have hpos := List.length_pos_of_mem hr'
      simp only [Cursor.list, Cursor.remove, List.length_append, List.length_cons] at hlen hpos
      omega
    · have hda := covers_remove (hcaps ▸ hone) hca d hd
      rw [covers_iff.2 ⟨hxd.1 ▸ h1, hxd.2 ▸ h2⟩] at hda
      cases hda

end Record

end Tyche.Capa

namespace Tyche.Enclave

open Tyche.Pts (Outcome)
open Tyche.Capa (Tracker Ledger covering isConfidential)

/-- The event does not transfer the address, or does so confidentially, or was
refused. -/
def Event.confidentialAt (a : Nat) : Event → Bool
  | .transferCapability _ start end_ tpe true => isConfidential tpe || !Capa.contains start end_ a
  | _ => true

/-- All that was accepted at the address was confidential. -/
def OnlyConfidential (a : Nat) (log : List Event) : Prop := ∀ ev ∈ log, ev.confidentialAt a = true

instance (a : Nat) (log : List Event) : Decidable (OnlyConfidential a log) := inferInstanceAs (Decidable (∀ _ ∈ _, _))

/-- The range has the address. -/
def Due.Covers (d : Due) (a : Nat) : Prop := d.start ≤ a ∧ a < d.end_

/-- The event transferred the range to the domain. -/
def Event.Gives (d : Due) (ev : Event) : Prop := ∃ tpe, ev = .transferCapability d.domain d.start d.end_ tpe true

/-- The event is a revocation of the range that the monitor accepted. -/
def Library.TakesBack (lib : Library) (d : Due) (log : List Event) (ev : Event) : Prop :=
  ev.call = some (.revoke d.domain d.start d.end_) ∧
    Capa.revoked (Capa.newEvents (lib.after log) (lib.after (ev :: log))) ≠ []

/-- The range was transferred to the domain, and was not taken back since. -/
def Library.Given (lib : Library) (d : Due) : List Event → Prop
  | [] => False
  | ev :: log => ev.Gives d ∨ (lib.Given d log ∧ ¬ lib.TakesBack d log ev)

/-- What the domains hold of the address is what they were given. -/
structure Confined (lib : Library) (a : Nat) (log : List Event) : Prop where
  sole : Capa.Sole a (lib.after log)
  held : ∀ d : Due, d.Covers a → (d.Held (lib.after log) ↔ lib.Given d log)

section Confined

variable {env : Env} {lib : Library} {a : Nat} {log : List Event} {ev : Event}

theorem confined_start (lib : Library) (a : Nat) : Confined lib a [] := by
  have hfresh := (Capa.initDomain_fresh lib.init).entries
  refine ⟨fun c hc _ hrevoks => absurd (hfresh c hc).2 hrevoks, fun d _ => ⟨?_, False.elim⟩⟩
  rintro ⟨-, c, hc, -, r, hr, -⟩
  rw [(hfresh c hc).2] at hr
  cases hr

/-- An event that is no call of the library for a range. -/
theorem Confined.other (h : Confined lib a log) (hcall : ev.call = none) : Confined lib a (ev :: log) := by
  have hcaps : (lib.after (ev :: log)).capabilities = (lib.after log).capabilities := by
    show (ev.forward (lib.monitor log) (lib.after log)).capabilities = _
    rcases forward_none (lib.monitor log) (lib.after log) hcall with heq | ⟨f, ans, -, -, heq⟩ <;> rw [heq]
  refine ⟨fun c hc => h.sole c (hcaps ▸ hc), fun d hd => ?_⟩
  have hsame : d.Held (lib.after (ev :: log)) ↔ d.Held (lib.after log) := by
    unfold Due.Held Capa.Held
    rw [hcaps]
  have hgives : ¬ ev.Gives d := by
    rintro ⟨tpe, rfl⟩
    cases hcall
  have htakes : ¬ lib.TakesBack d log ev := by
    rintro ⟨hrevoke, -⟩
    rw [hcall] at hrevoke
    cases hrevoke
  rw [hsame, h.held d hd, Library.Given, or_iff_right hgives, and_iff_left htakes]

/-- A transfer. -/
theorem Confined.transfer (h : Confined lib a log) {domain start end_ tpe : Nat} {ok : Bool}
    (hev : (Event.transferCapability domain start end_ tpe ok).Answered (env.forwarding lib) log)
    (honly : OnlyConfidential a (.transferCapability domain start end_ tpe ok :: log)) :
    Confined lib a (.transferCapability domain start end_ tpe ok :: log) := by
  have hl := (lib.orderly log).ledger
  have hok : ok = decide ((Capa.transferCapa (lib.monitor log) domain start end_ tpe (lib.after log)).1 = 0) := hev
  obtain ⟨es, hp, hes⟩ := Capa.Call.run_effects hl.active
    (Prod.eta ((Capa.Call.transfer domain start end_ tpe).run (lib.monitor log) (lib.after log))).symm
  have hret : ((Capa.Call.transfer domain start end_ tpe).run (lib.monitor log) (lib.after log)).1 = .ret 0 → ok = true := by
    intro hret
    rw [hok, decide_eq_true_eq]
    exact Capa.Outcome.ret.inj hret
  have hconfines : ∀ e ∈ es, e.Confines a := by
    refine hes.confines rfl h.sole fun dom' start' end' tpe' hcall hzero h1 h2 => ?_
    obtain ⟨rfl, rfl, rfl, rfl⟩ := Capa.Call.transfer.inj hcall
    obtain rfl := hret hzero
    have hat : (isConfidential tpe || !Capa.contains start end_ a) = true := honly _ (List.mem_cons_self ..)
    have hin : Capa.contains start end_ a = true := decide_eq_true ⟨h1, h2⟩
    rwa [hin, Bool.not_true, Bool.or_false] at hat
  refine ⟨h.sole.path hl hp hconfines, fun d hd => ?_⟩
  have hnot : ¬ lib.TakesBack d log (.transferCapability domain start end_ tpe ok) := fun htakes => nomatch htakes.1
  rw [Library.Given, and_iff_left hnot, ← h.held d hd]
  obtain ⟨splits, last, rfl, hsplits, hlast⟩ := hes
  constructor
  · rintro ⟨hlt, hheld⟩
    rcases Capa.Held.of_path hp hl hheld hd.1 hd.2 hconfines with hbefore | ⟨e, he, hrecords⟩
    · exact .inr ⟨hlt, hbefore⟩
    -- The record is the one of this transfer.
    rcases List.mem_append.1 he with he | he
    · rcases hsplits with rfl | ⟨curr, -, hsplits⟩
      · cases he
      · rcases hsplits e he with rfl | ⟨-, -, c, addr, rfl, -⟩ <;> exact hrecords.elim
    · rcases hlast with ⟨-, rfl | rfl⟩ | ⟨hzero, c, r, rfl, hexact, hdomain⟩
      · cases he
      · obtain rfl := List.mem_singleton.1 he
        exact hrecords.elim
      · obtain rfl := List.mem_singleton.1 he
        obtain ⟨hx, hdom⟩ := hrecords
        refine .inl ⟨tpe, ?_⟩
        rw [hret hzero, ← hx.1, ← hx.2, ← hdom, hexact.1, hexact.2, hdomain]
  · rintro (⟨tpe', heq⟩ | ⟨hlt, hheld⟩)
    · obtain ⟨rfl, rfl, rfl, rfl, rfl⟩ := Event.transferCapability.inj heq
      exact (held_of_transfer hev).1
    · refine ⟨hlt, hheld.path hl hp fun e he => ?_⟩
      by_contra hloses
      obtain ⟨c, r, rfl, -⟩ := (hconfines e he).loses hd.1 hd.2 (by simpa using hloses)
      rcases List.mem_append.1 he with he | he
      · rcases hsplits with rfl | ⟨curr, -, hsplits⟩
        · cases he
        · rcases hsplits _ he with heq | ⟨-, -, c, addr, heq, -⟩ <;> cases heq
      · rcases hlast with ⟨-, rfl | rfl⟩ | ⟨-, c, r, rfl, -⟩ <;> simp at he

/-- A revocation. -/
theorem Confined.revoke (h : Confined lib a log) {domain start end_ : Nat} {ok : Bool} :
    Confined lib a (.revokeRegion domain start end_ ok :: log) := by
  have horderly := lib.orderly log
  have hl := horderly.ledger
  obtain ⟨es, hp, hes⟩ := Capa.Call.run_effects hl.active
    (Prod.eta ((Capa.Call.revoke domain start end_).run (lib.monitor log) (lib.after log))).symm
  have hconfines : ∀ e ∈ es, e.Confines a := hes.confines rfl h.sole fun _ _ _ _ hcall => nomatch hcall
  refine ⟨h.sole.path hl hp hconfines, fun d hd => ?_⟩
  have hgives : ¬ Event.Gives d (.revokeRegion domain start end_ ok) := fun hgives => nomatch hgives.choose_spec
  have hrevoked : Capa.revoked (Capa.newEvents (lib.after log) (lib.after (.revokeRegion domain start end_ ok :: log))) =
      es.reverse.flatMap Capa.Effect.ended := hp.newEvents.2
  rw [Library.Given, or_iff_right hgives, ← h.held d hd, Library.TakesBack, hrevoked]
  rcases hes with ⟨-, hidle⟩ | ⟨curr, r, merges, rfl, hmerges, hfind, hr, hdomain, -⟩
  · -- Nothing was revoked.
    have hnone : es.reverse.flatMap Capa.Effect.ended = [] := by rcases hidle with rfl | rfl <;> rfl
    have hquiet : ∀ e ∈ es, e = .idle := by rcases hidle with rfl | rfl <;> simp
    rw [hnone, and_iff_left (fun htakes => htakes.2 rfl)]
    constructor
    · rintro ⟨hlt, hheld⟩
      rcases Capa.Held.of_path hp hl hheld hd.1 hd.2 hconfines with hbefore | ⟨e, he, hrecords⟩
      · exact ⟨hlt, hbefore⟩
      · obtain rfl := hquiet e he
        exact hrecords.elim
    · rintro ⟨hlt, hheld⟩
      refine ⟨hlt, hheld.path hl hp fun e he => ?_⟩
      obtain rfl := hquiet e he
      rfl
  obtain ⟨hlist, hexact⟩ := Capa.findExact_some hfind
  have hmem : curr.elem ∈ (lib.after log).capabilities := hlist ▸ curr.elem_mem
  have hrelem : r.elem ∈ curr.elem.revoks := hr ▸ r.elem_mem
  have hsome : (Capa.Effect.revoke curr.elem r.elem :: merges).reverse.flatMap Capa.Effect.ended ≠ [] := by
    simp [Capa.Effect.ended]
  rw [and_iff_left hsome]
  have hrecords : ∀ e ∈ Capa.Effect.revoke curr.elem r.elem :: merges, ¬ e.Records d.domain d.start d.end_ := by
    intro e he
    rcases List.mem_cons.1 he with rfl | he
    · exact id
    · rcases hmerges e he with rfl | ⟨x, y, rfl⟩ <;> exact id
  constructor
  · rintro ⟨hlt, hheld⟩
    refine ⟨⟨hlt, ?_⟩, fun hcall => ?_⟩
    · rcases Capa.Held.of_path hp hl hheld hd.1 hd.2 hconfines with hbefore | ⟨e, he, hrecord⟩
      · exact hbefore
      · exact absurd hrecord (hrecords e he)
    · -- It was the record of this range, and no other was at the address.
      obtain ⟨rfl, rfl, rfl⟩ := Capa.Call.revoke.inj (Option.some.inj hcall)
      cases hp with
      | cons hm hrest =>
        rcases Capa.Held.of_path hrest (hl.micro hm) hheld hd.1 hd.2 fun e he => hconfines e (List.mem_cons_of_mem _ he) with
          hmid | ⟨e, he, hrecord⟩
        · exact h.sole.revoked hl (horderly.apart a) hm hexact hd.1 hd.2 hmid
        · exact hrecords e (List.mem_cons_of_mem _ he) hrecord
  · rintro ⟨⟨hlt, hheld⟩, hcall⟩
    refine ⟨hlt, hheld.path hl hp fun e he => ?_⟩
    by_contra hloses
    obtain ⟨c, q, rfl, hx, hdom⟩ := (hconfines e he).loses hd.1 hd.2 (by simpa using hloses)
    rcases List.mem_cons.1 he with heq | he
    · obtain ⟨rfl, rfl⟩ := Capa.Effect.revoke.inj heq
      refine hcall ?_
      rw [← hdom, hdomain, ← hx.1, ← hx.2, hexact.1, hexact.2]
      rfl
    · rcases hmerges _ he with heq | ⟨x, y, heq⟩ <;> cases heq

/-- **One event** keeps the address confined. -/
theorem Confined.event (h : Confined lib a log) (hev : ev.Answered (env.forwarding lib) log) (honly : OnlyConfidential a (ev :: log)) :
    Confined lib a (ev :: log) := by
  cases ev with
  | transferCapability domain start end_ tpe ok => exact h.transfer hev honly
  | revokeRegion domain start end_ ok => exact h.revoke
  | allocPages | freePages | kmalloc | collect | createDomain | sealDomain | transition => exact h.other rfl

theorem confined_of_answers (hanswers : Answers (env.forwarding lib) log) (honly : OnlyConfidential a log) : Confined lib a log := by
  induction log with
  | nil => exact confined_start lib a
  | cons ev log ih =>
    have hbefore := ih hanswers.2 fun ev hmem => honly ev (List.mem_cons_of_mem _ hmem)
    exact hbefore.event hanswers.1 honly

end Confined

end Tyche.Enclave
