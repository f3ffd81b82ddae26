/-
Runs of the library: a successful `init_domain`, then any calls, whatever
the monitor and the allocator answer. A call that faults is the last one.

A run also keeps the transfers that are outstanding, read off the events of
each call: a transfer from the moment it returned 0, until the revocation
handle it obtained is passed to an accepted revocation.
-/
import Tyche.Capa.Steps
import Mathlib.Logic.Relation

namespace Tyche.Capa

/-! ## Reading the events -/

/-- The monitor was asked to grant or share a region. -/
def VmcallFrame.delivers (f : VmcallFrame) : Bool :=
  f.id == tycheDomainGrantRegion || f.id == tycheDomainShareRegion

/-- The monitor was asked to revoke a handle. -/
def VmcallFrame.revokes (f : VmcallFrame) : Bool := f.id == tycheDomainRevokRegion

/-- The accepted grants and shares: the domain and the handle obtained. -/
def deliveries : List Event → List (Nat × Nat)
  | [] => []
  | .vmcall f a :: log => if f.delivers && a.ok then (f.value1, a.ret1) :: deliveries log else deliveries log
  | _ :: log => deliveries log

/-- The address the latest event allocated. -/
def justAllocated : List Event → Option Nat
  | .alloc p :: _ => p
  | _ => none

/-- The records of the accepted grants and shares: the one allocated just
before the vmcall, which the vmcall fills. -/
def granted : List Event → List RevokHandle
  | [] => []
  | .vmcall f a :: log =>
    if f.delivers && a.ok then
      ((justAllocated log).map fun p => ⟨p, f.value1, a.ret1⟩).toList ++ granted log
    else granted log
  | _ :: log => granted log

/-- The handles of the accepted revocations. -/
def revoked : List Event → List Nat
  | [] => []
  | .vmcall f a :: log => if f.revokes && a.ok then f.value1 :: revoked log else revoked log
  | _ :: log => revoked log

/-- The latest event is an accepted revocation. -/
def justRevoked : List Event → Bool
  | .vmcall f a :: _ => f.revokes && a.ok
  | _ => false

/-- The records freed right after an accepted revocation. -/
def retired : List Event → List RevokHandle
  | [] => []
  | .dealloc (.revok r) :: log => if justRevoked log then r :: retired log else retired log
  | _ :: log => retired log

/-- The records given back to the deallocator. -/
def freedRecords : List Event → List RevokHandle
  | [] => []
  | .dealloc (.revok r) :: log => r :: freedRecords log
  | _ :: log => freedRecords log

/-- The capabilities given back to the deallocator, as they were then. -/
def freedCapas : List Event → List Capability
  | [] => []
  | .dealloc (.capa c) :: log => c :: freedCapas log
  | _ :: log => freedCapas log

/-! ## Calls -/

/-- A call of the library. `split_capa` is given a pointer to the `i`-th
entry of the list, or NULL past its end. -/
inductive Call
  | split (i addr : Nat)
  | transfer (dom start end_ tpe : Nat)
  | revoke (id start end_ : Nat)
deriving DecidableEq, Repr

def Call.run (env : Env) : Call → Tracker → Outcome Int × Tracker
  | .split i addr, s =>
    let (sp, s) := splitCapa env (Cursor.nth s.capabilities i) addr s
    (.ret (if sp.isSome then 0 else -1), s)
  | .transfer dom start end_ tpe, s =>
    let (ret, s) := transferCapa env dom start end_ tpe s
    (.ret ret, s)
  | .revoke id start end_, s => revokeCapa env id start end_ s

/-- The call is `transfer_capa` or `revoke_capa`. -/
def Call.isApi : Call → Bool
  | .split _ _ => false
  | _ => true

/-- What a call does: its effects, and what it returns with them. -/
def Call.Effects (s : Tracker) (es : List Effect) (out : Outcome Int) : Call → Prop
  | .split _ _ => ∀ e ∈ es, e = .idle ∨ ∃ c addr, e = .split c addr
  | .transfer dom start end_ tpe =>
    ∃ splits last, es = splits ++ last ∧
      (splits = [] ∨ ∃ curr, Selected s start end_ tpe curr ∧ SplitsOf curr.elem start end_ splits) ∧
      ((out = .ret (-1) ∧ (last = [] ∨ last = [.idle])) ∨
        (out = .ret 0 ∧ ∃ (c : Capability) (r : RevokHandle),
          last = [.deliver c tpe r] ∧ c.Exact start end_ ∧ r.domain = dom))
  | .revoke id start end_ =>
    (out = .ret (-1) ∧ (es = [] ∨ es = [.idle])) ∨
      ∃ (curr : Cursor Capability) (r : Cursor RevokHandle) (merges : List Effect),
        es = .revoke curr.elem r.elem :: merges ∧ Merges merges ∧
        findExact start end_ s.capabilities = some curr ∧ r.list = curr.elem.revoks ∧ r.elem.domain = id ∧
        RevokeResult curr out

/-- A failing step: nothing, or one effect that leaves the list alone. -/
theorem idle_path {s t : Tracker} (h : t = s ∨ Micro s .idle t) :
    ∃ es, Path s es t ∧ (es = [] ∨ es = [.idle]) := by
  rcases h with rfl | hm
  · exact ⟨[], .nil _, .inl rfl⟩
  · exact ⟨[.idle], .one hm, .inr rfl⟩

theorem splitCapa_effects {env : Env} {i addr : Nat} {s s' : Tracker} {r}
    (h : splitCapa env (Cursor.nth s.capabilities i) addr s = (r, s')) (out : Outcome Int) :
    ∃ es, Path s es s' ∧ Call.Effects s es out (.split i addr) := by
  cases hc : Cursor.nth s.capabilities i with
  | none =>
    rw [hc] at h
    cases h
    exact ⟨[], .nil _, by simp [Call.Effects]⟩
  | some c =>
    rw [hc] at h
    rcases splitCapa_path (Cursor.nth_some hc).symm h with ⟨-, rfl⟩ | ⟨-, hm⟩ | ⟨sp, -, hm, -⟩
    · exact ⟨[], .nil _, by simp [Call.Effects]⟩
    · exact ⟨[.idle], .one hm, by simp [Call.Effects]⟩
    · exact ⟨[.split c.elem addr], .one hm, by simp [Call.Effects]⟩

theorem transferCapa_effects {env : Env} {dom start end_ tpe : Nat} {s s' : Tracker} {ret}
    (h : transferCapa env dom start end_ tpe s = (ret, s')) :
    ∃ es, Path s es s' ∧ Call.Effects s es (.ret ret) (.transfer dom start end_ tpe) := by
  rcases transferCapa_path h with ⟨rfl, rfl⟩ | ⟨curr, es, t, hsel, hp, hs, hlast⟩
  · exact ⟨[], .nil _, [], [], rfl, .inl rfl, .inl ⟨rfl, .inl rfl⟩⟩
  have hsplits : es = [] ∨ ∃ curr, Selected s start end_ tpe curr ∧ SplitsOf curr.elem start end_ es :=
    .inr ⟨curr, hsel, hs⟩
  rcases hlast with ⟨rfl, h'⟩ | ⟨rfl, c, r, hm, hx, hr⟩
  · obtain ⟨last, hp', hlast⟩ := idle_path h'
    exact ⟨_, hp.append hp', es, last, rfl, hsplits, .inl ⟨rfl, hlast⟩⟩
  · exact ⟨_, hp.append (.one hm), es, _, rfl, hsplits, .inr ⟨rfl, c, r, rfl, hx, hr⟩⟩

theorem revokeCapa_effects {env : Env} {id start end_ : Nat} {s s' : Tracker} {out}
    (hact : ∀ c ∈ s.capabilities, c.status = .active → c.revoks = [])
    (h : revokeCapa env id start end_ s = (out, s')) :
    ∃ es, Path s es s' ∧ Call.Effects s es out (.revoke id start end_) := by
  rcases revokeCapa_cases hact h with ⟨hout, h'⟩ | ⟨curr, r, -, hf, hr, hid, t, es, hm, hp, hmerges, hout⟩
  · obtain ⟨es, hp, hes⟩ := idle_path (h'.imp (·.1) Refused.micro)
    exact ⟨es, hp, .inl ⟨hout, hes⟩⟩
  · exact ⟨_, .cons hm hp, .inr ⟨curr, r, es, rfl, hmerges, hf, hr, hid, hout⟩⟩

/-- Every call is a path of the effects listed for it. -/
theorem Call.run_effects {env : Env} {call : Call} {s s' : Tracker} {out}
    (hact : ∀ c ∈ s.capabilities, c.status = .active → c.revoks = [])
    (h : call.run env s = (out, s')) : ∃ es, Path s es s' ∧ call.Effects s es out := by
  cases call with
  | split i addr =>
    simp only [Call.run] at h
    cases h
    exact splitCapa_effects rfl _
  | transfer dom start end_ tpe =>
    simp only [Call.run] at h
    cases h
    exact transferCapa_effects rfl
  | revoke id start end_ => exact revokeCapa_effects hact h

/-! ## Runs -/

/-- A transfer that returned 0 and the record it obtained. -/
structure Transfer where
  start : Nat
  end_ : Nat
  tpe : Nat
  revok : RevokHandle
deriving DecidableEq, Repr

def Transfer.covers (t : Transfer) (a : Nat) : Bool := contains t.start t.end_ a

/-- The outstanding transfers after a call that added the events `evs`. -/
def settle (call : Call) (out : Outcome Int) (evs : List Event) (ts : List Transfer) : List Transfer :=
  match call with
  | .transfer _ start end_ tpe =>
    if out = .ret 0 then (granted evs).map (fun r => ⟨start, end_, tpe, r⟩) ++ ts else ts
  | .split _ _ | .revoke _ _ _ => ts.filter fun t => !(revoked evs).contains t.revok.revokHandle

/-- A point of a run. After a fault there is no further call. -/
structure Config where
  tracker : Tracker
  outstanding : List Transfer
  halted : Bool
deriving DecidableEq, Repr

/-- The events a call added to the log. -/
def newEvents (s s' : Tracker) : List Event := s'.log.take (s'.log.length - s.log.length)

theorem newEvents_append {s s' : Tracker} {evs : List Event} (h : s'.log = evs ++ s.log) : newEvents s s' = evs := by
  rw [newEvents, h, List.length_append, Nat.add_sub_cancel, List.take_left]

/-- The configuration a call leads to. -/
def Config.after (env : Env) (x : Config) (call : Call) : Outcome Int × Config :=
  let (out, s) := call.run env x.tracker
  (out, ⟨s, settle call out (newEvents x.tracker s) x.outstanding, out = .fault⟩)

/-- A call made when `allowed` holds of the state before it, the call and
its outcome. -/
def Step (env : Env) (allowed : Tracker → Call → Outcome Int → Prop) (x y : Config) : Prop :=
  x.halted = false ∧ ∃ call out, x.after env call = (out, y) ∧ allowed x.tracker call out

/-- Any number of allowed calls. -/
def Run (env : Env) (allowed : Tracker → Call → Outcome Int → Prop) : Config → Config → Prop :=
  Relation.ReflTransGen (Step env allowed)

/-- Any call. -/
def anyCall : Tracker → Call → Outcome Int → Prop := fun _ _ _ => True

/-- Any `transfer_capa` or `revoke_capa`. -/
def apiCall : Tracker → Call → Outcome Int → Prop := fun _ call _ => call.isApi = true

/-- The library before `init_domain`. -/
def Tracker.boot : Tracker := ⟨0, [], 0, []⟩

/-- A successful `init_domain` ended here. -/
def Started (env : Env) (x : Config) : Prop :=
  ∃ s, initDomain env true true true .boot = (0, s) ∧ x = ⟨s, [], false⟩

/-! ## After `init_domain` -/

/-- An event of the enumeration of the capabilities. -/
def Event.Inert : Event → Prop
  | .alloc _ => True
  | .vmcall f _ => f.delivers = false ∧ f.revokes = false
  | .dealloc _ => False

/-- What the enumeration keeps: the entries are active, without revocation
handles, and the log holds its own events only. -/
structure Fresh (s : Tracker) : Prop where
  entries : ∀ c ∈ s.capabilities, c.status = .active ∧ c.revoks = []
  log : ∀ e ∈ s.log, e.Inert

theorem Fresh.vmcall {s : Tracker} (h : Fresh s) {f : VmcallFrame} (a : VmcallAnswer)
    (hf : f.delivers = false ∧ f.revokes = false) : Fresh { s with log := .vmcall f a :: s.log } :=
  ⟨h.entries, by simpa using ⟨hf, h.log⟩⟩

theorem Fresh.call1 {env : Env} {f : VmcallFrame} {s s' : Tracker} {r} (h : Fresh s)
    (hc : tycheCall1 env f s = (r, s')) (hf : f.delivers = false ∧ f.revokes = false) : Fresh s' := by
  obtain ⟨a, rfl, -⟩ := tycheCall1_cases hc
  exact h.vmcall a hf

theorem readEntries_fresh {env : Env} {n i : Nat} {s s' : Tracker} {b} (h : readEntries env n i s = (b, s'))
    (hs : Fresh s) : Fresh s' := by
  induction n generalizing i s with
  | zero => simp only [readEntries] at h; cases h; exact hs
  | succ n ih =>
    simp only [readEntries] at h
    have halloc : ∀ {p t}, alloc env s = (p, t) → Fresh t := by
      intro p t ha
      rcases alloc_cases ha with ⟨-, rfl⟩ | ⟨-, rfl⟩ <;>
        exact ⟨hs.entries, by simpa [Event.Inert] using hs.log⟩
    split at h
    · next ha => cases h; exact halloc ha
    next ptr t ha =>
    have ht := halloc ha
    split at h
    · next hr => cases h; exact ht.call1 hr ⟨rfl, rfl⟩
    next handle u hr =>
    have hu : Fresh u := ht.call1 hr ⟨rfl, rfl⟩
    split at h
    · next hi =>
      cases h
      obtain ⟨a, rfl, -⟩ := tycheReadCapa_cases hi
      exact hu.vmcall a ⟨rfl, rfl⟩
    next capa v hi =>
    have hv : Fresh v ∧ capa.revoks = [] := by
      obtain ⟨a, rfl, hcapa⟩ := tycheReadCapa_cases hi
      exact ⟨hu.vmcall a ⟨rfl, rfl⟩, by rw [hcapa capa rfl]⟩
    split at h
    · cases h; exact hv.1
    · refine ih h ⟨?_, hv.1.log⟩
      intro c hc
      rcases List.mem_append.1 hc with hc | hc
      · exact hv.1.entries c hc
      · obtain rfl := List.mem_singleton.1 hc
        exact ⟨rfl, hv.2⟩

theorem initDomain_fresh {env : Env} {s : Tracker} (h : initDomain env true true true .boot = (0, s)) :
    Fresh s := by
  simp only [initDomain] at h
  split at h
  · simp at h
  split at h
  · simp at h
  next id t ht =>
  split at h
  · simp at h
  next nb u hu =>
  have h0 : Fresh { Tracker.boot with capabilities := [] } := ⟨by simp, by simp [Tracker.boot]⟩
  have h1 : Fresh t := h0.call1 ht (by decide)
  have h2 : Fresh u := Fresh.call1 (s := { t with id := id }) ⟨h1.entries, h1.log⟩ hu (by decide)
  split at h
  · next hr => cases h; exact readEntries_fresh hr h2
  · simp at h

/-! ## Playing a run -/

/-- Where `init_domain` leads. -/
def Config.start (env : Env) : Config := ⟨(initDomain env true true true .boot).2, [], false⟩

theorem Config.started {env : Env} (h : (initDomain env true true true .boot).1 = 0) :
    Started env (.start env) :=
  ⟨_, Prod.ext h rfl, rfl⟩

/-- The calls made one after the other. -/
def Config.played (env : Env) (x : Config) (calls : List Call) : Config :=
  calls.foldl (fun x call => (x.after env call).2) x

/-- No call but the last faults, and `ok` allows each. -/
def Config.plays (env : Env) (ok : Tracker → Call → Outcome Int → Bool) (x : Config) : List Call → Bool
  | [] => true
  | call :: calls =>
    !x.halted && ok x.tracker call (x.after env call).1 && (x.after env call).2.plays env ok calls

theorem Run.of_plays {env : Env} {allowed} {x : Config} (ok : Tracker → Call → Outcome Int → Bool)
    (calls : List Call) (h : x.plays env ok calls = true) (hok : ∀ s call out, ok s call out = true → allowed s call out) :
    Run env allowed x (x.played env calls) := by
  induction calls generalizing x with
  | nil => exact .refl
  | cons call calls ih =>
    simp only [Config.plays, Bool.and_eq_true, Bool.not_eq_true'] at h
    exact .head ⟨h.1.1, call, _, rfl, hok _ _ _ h.1.2⟩ (ih h.2)

/-- A monitor that reports the given ranges as owned, with every right, and
accepts every call, under an allocator that never fails. -/
def Env.granting (regions : List (Nat × Nat)) : Env where
  vmcall log f :=
    if f.id = tycheConfigNbRegions then { result := 0, ret1 := regions.length }
    else if f.id = tycheConfigReadRegion then { result := 0, ret1 := f.value1 }
    else if f.id = tycheRegionGetInfo then
      match regions[f.value1]? with
      | some (start, end_) => { result := 0, ret1 := start, ret2 := end_, ret3 := tycheOwned, ret4 := 7 }
      | none => { result := 1 }
    else { result := 0, ret1 := regions.length + log.length }
  alloc _ := true

end Tyche.Capa
