/-
`init_domain`, for any answers of the allocator and the monitor: the
handles it enumerates before it stops, the capabilities it leaves when it
succeeds, and the records it gives back when it does not.
-/
import Tyche.Capa.Runs
import Mathlib.Data.List.Nodup

namespace Tyche.Capa

/-- The addresses the allocator gave. -/
def obtained : List Event → List Nat
  | [] => []
  | .alloc (some ptr) :: log => ptr :: obtained log
  | _ :: log => obtained log

/-! ## What the monitor says of a handle -/

def entryFrame (i : Nat) : VmcallFrame := { id := tycheConfigReadRegion, value1 := i, value2 := 1 }

def infoFrame (handle : Nat) : VmcallFrame := { id := tycheRegionGetInfo, value1 := handle }

/-- A record from the allocator, and the monitor's two answers about the
handle it is for. -/
structure Description where
  ptr : Nat
  entry : VmcallAnswer
  info : VmcallAnswer
deriving DecidableEq, Repr

/-- What the answers describe. -/
def Description.capability (d : Description) : Capability where
  ptr := d.ptr
  handle := d.entry.ret1
  start := d.info.ret1
  end_ := d.info.ret2
  isOwned := d.info.ret3 &&& tycheOwned
  isShared := d.info.ret3 &&& tycheShared
  access := d.info.ret4
  status := .active
  revoks := []

/-- The monitor knows the handle, and it is not for a revocation. -/
def Description.Accepted (d : Description) : Prop :=
  d.entry.ok = true ∧ d.info.ok = true ∧ d.info.ret4 &&& capaRevok = 0

instance Description.decidableAccepted (d : Description) : Decidable d.Accepted := inferInstanceAs (Decidable (_ ∧ _))

/-- The events of reading handle `i`, latest first. -/
def Description.events (i : Nat) (d : Description) : List Event :=
  [.vmcall (infoFrame d.entry.ret1) d.info, .vmcall (entryFrame i) d.entry, .alloc (some d.ptr)]

/-- The log, after the handles from `i` on were read. -/
def enumerated : Nat → List Description → List Event → List Event
  | _, [], log => log
  | i, d :: ds, log => enumerated (i + 1) ds (d.events i ++ log)

/-- What the monitor says of handle `i`. -/
def Env.describe (env : Env) (i heap : Nat) (log : List Event) : Description :=
  let entry := env.vmcall (.alloc (some heap) :: log) (entryFrame i)
  { ptr := heap, entry,
    info := env.vmcall (.vmcall (entryFrame i) entry :: .alloc (some heap) :: log) (infoFrame entry.ret1) }

/-- Of the `n` handles from `i` on, the monitor accepts each for which there
is a record, up to the first for which there is none. -/
def Env.Describes (env : Env) : (n i heap : Nat) → List Event → Prop
  | 0, _, _, _ => True
  | n + 1, i, heap, log => env.alloc log = true → (env.describe i heap log).Accepted ∧
      env.Describes n (i + 1) (heap + 1) ((env.describe i heap log).events i ++ log)

instance Env.decidableDescribes (env : Env) : (n i heap : Nat) → (log : List Event) → Decidable (env.Describes n i heap log)
  | 0, _, _, _ => isTrue trivial
  | n + 1, i, heap, log =>
    have := env.decidableDescribes n (i + 1) (heap + 1) ((env.describe i heap log).events i ++ log)
    inferInstanceAs (Decidable (_ → _ ∧ _))

/-! ## All or nothing -/

/-- The capabilities are those of the handles, in order, by the answers of
the monitor in the log. -/
def Complete (s s' : Tracker) : Prop :=
  ∃ id size ds, s'.log =
      enumerated 0 ds (.vmcall { id := tycheConfigNbRegions } size :: .vmcall { id := tycheDomainGetOwnId } id :: s.log) ∧
    ds.length = size.ret1 ∧ s'.capabilities = ds.map (·.capability)

/-- There are no capabilities, and each record was given back once. -/
def Undone (s s' : Tracker) : Prop :=
  s'.capabilities = [] ∧
    ∀ ptr ∈ obtained (newEvents s s'), ((freedCapas (newEvents s s')).map (·.ptr)).count ptr = 1

def AllOrNothing (s : Tracker) (r : Int × Tracker) : Prop := (r.1 = 0 → Complete s r.2) ∧ (r.1 = -1 → Undone s r.2)

/-- The monitor answers for the domain, and accepts what it is asked for. -/
def Env.Introduces (env : Env) (s : Tracker) : Prop :=
  let id := env.vmcall s.log { id := tycheDomainGetOwnId }
  let log := .vmcall { id := tycheDomainGetOwnId } id :: s.log
  let size := env.vmcall log { id := tycheConfigNbRegions }
  id.ok = true → size.ok = true →
    env.Describes size.ret1 0 s.heap (.vmcall { id := tycheConfigNbRegions } size :: log)

/-! ## The events -/

theorem obtained_append (new old : List Event) : obtained (new ++ old) = obtained new ++ obtained old := by
  induction new with
  | nil => rfl
  | cons e new ih =>
    cases e with
    | alloc ptr => cases ptr <;> simp [obtained, ih]
    | vmcall f a => simp [obtained, ih]
    | dealloc obj => simp [obtained, ih]

theorem freedCapas_append (new old : List Event) : freedCapas (new ++ old) = freedCapas new ++ freedCapas old := by
  induction new with
  | nil => rfl
  | cons e new ih =>
    cases e with
    | dealloc obj => cases obj <;> simp [freedCapas, ih]
    | vmcall f a => simp [freedCapas, ih]
    | alloc ptr => simp [freedCapas, ih]

theorem enumerated_append (ds : List Description) : ∀ i new old,
    enumerated i ds (new ++ old) = enumerated i ds new ++ old := by
  induction ds with
  | nil => exact fun _ _ _ => rfl
  | cons d ds ih =>
    intro i new old
    rw [enumerated, enumerated, ← List.append_assoc, ih]

theorem obtained_enumerated (ds : List Description) : ∀ i log,
    obtained (enumerated i ds log) = (ds.map (·.ptr)).reverse ++ obtained log := by
  induction ds with
  | nil => exact fun _ _ => rfl
  | cons d ds ih =>
    intro i log
    rw [enumerated, ih, obtained_append]
    simp [Description.events, obtained]

theorem freedCapas_enumerated (ds : List Description) : ∀ i log, freedCapas (enumerated i ds log) = freedCapas log := by
  induction ds with
  | nil => exact fun _ _ => rfl
  | cons d ds ih =>
    intro i log
    rw [enumerated, ih, freedCapas_append]
    rfl

/-- The events of the `failure` path. -/
def releases (l : List Capability) : List Event := (l.map fun c => .dealloc (.capa c)).reverse

theorem obtained_releases (l : List Capability) : obtained (releases l) = [] := by
  induction l with
  | nil => rfl
  | cons c l ih =>
    have hcons : releases (c :: l) = releases l ++ [.dealloc (.capa c)] := by simp [releases]
    rw [hcons, obtained_append, ih]
    rfl

theorem freedCapas_releases (l : List Capability) : freedCapas (releases l) = l.reverse := by
  induction l with
  | nil => rfl
  | cons c l ih =>
    have hcons : releases (c :: l) = releases l ++ [.dealloc (.capa c)] := by simp [releases]
    rw [hcons, freedCapas_append, ih, List.reverse_cons]
    rfl

theorem releaseAll_eq (l : List Capability) : ∀ s : Tracker,
    releaseAll l { s with capabilities := l } = { s with capabilities := [], log := releases l ++ s.log } := by
  induction l with
  | nil => exact fun _ => rfl
  | cons c l ih =>
    intro s
    have hcons : releases (c :: l) = releases l ++ [.dealloc (.capa c)] := by simp [releases]
    have hrest := ih { s with log := .dealloc (.capa c) :: s.log }
    rw [hcons, List.append_assoc]
    exact hrest

/-! ## The enumeration -/

section Read

variable {env : Env} {n i : Nat} {s : Tracker}

theorem readEntries_unallocated (h : env.alloc s.log = false) :
    readEntries env (n + 1) i s = (false, { s with log := .alloc none :: s.log }) := by
  simp [readEntries, alloc, h]

/-- The record of an accepted handle is linked. -/
theorem readEntries_accepted (h : env.alloc s.log = true) (hd : (env.describe i s.heap s.log).Accepted) :
    readEntries env (n + 1) i s = readEntries env n (i + 1)
      { s with
        capabilities := s.capabilities ++ [(env.describe i s.heap s.log).capability],
        heap := s.heap + 1, log := (env.describe i s.heap s.log).events i ++ s.log } := by
  obtain ⟨hentry, hinfo, hrevok⟩ := hd
  simp only [Env.describe, entryFrame, infoFrame] at hentry hinfo hrevok
  simp [readEntries, alloc, h, ecsReadEntry, tycheCall1, tycheCall, tycheReadCapa, hentry, hinfo, hrevok, Env.describe,
    Description.capability, Description.events, entryFrame, infoFrame]

/-- The record of a handle that is not accepted is neither linked nor freed. -/
theorem readEntries_refused (h : env.alloc s.log = true) (hd : ¬ (env.describe i s.heap s.log).Accepted) :
    ∃ calls, obtained calls = [] ∧ freedCapas calls = [] ∧ readEntries env (n + 1) i s =
      (false, { s with heap := s.heap + 1, log := calls ++ .alloc (some s.heap) :: s.log }) := by
  by_cases hentry : (env.describe i s.heap s.log).entry.ok = true
  · refine ⟨[.vmcall (infoFrame (env.describe i s.heap s.log).entry.ret1) (env.describe i s.heap s.log).info,
      .vmcall (entryFrame i) (env.describe i s.heap s.log).entry], rfl, rfl, ?_⟩
    by_cases hinfo : (env.describe i s.heap s.log).info.ok = true
    · have hrevok : (env.describe i s.heap s.log).info.ret4 &&& capaRevok ≠ 0 := fun hrevok => hd ⟨hentry, hinfo, hrevok⟩
      simp only [Env.describe, entryFrame, infoFrame] at hentry hinfo hrevok ⊢
      simp [readEntries, alloc, h, ecsReadEntry, tycheCall1, tycheCall, tycheReadCapa, hentry, hinfo, hrevok]
    · simp only [Env.describe, entryFrame, infoFrame, Bool.not_eq_true] at hentry hinfo ⊢
      simp [readEntries, alloc, h, ecsReadEntry, tycheCall1, tycheCall, tycheReadCapa, hentry, hinfo]
  · refine ⟨[.vmcall (entryFrame i) (env.describe i s.heap s.log).entry], rfl, rfl, ?_⟩
    simp only [Env.describe, entryFrame, Bool.not_eq_true] at hentry ⊢
    simp [readEntries, alloc, h, ecsReadEntry, tycheCall1, tycheCall, hentry]

end Read

/-- The state after these handles. -/
def Tracker.read (s : Tracker) (i : Nat) (ds : List Description) : Tracker :=
  { s with
    capabilities := s.capabilities ++ ds.map (·.capability)
    heap := s.heap + ds.length
    log := enumerated i ds s.log }

/-- How the enumeration ends, after the handles `ds`: it is complete, or no
record was given for the next handle, or one was given and is lost. -/
def Enumerates (env : Env) (n i : Nat) (s : Tracker) (ds : List Description) : Prop :=
  env.Describes n i s.heap s.log ∧ ds.length = n ∧ readEntries env n i s = (true, s.read i ds) ∨
  env.Describes n i s.heap s.log ∧
    readEntries env n i s = (false, { s.read i ds with log := .alloc none :: (s.read i ds).log }) ∨
  ¬ env.Describes n i s.heap s.log ∧ ∃ calls, obtained calls = [] ∧ freedCapas calls = [] ∧
    readEntries env n i s = (false, { s.read i ds with
      heap := (s.read i ds).heap + 1, log := calls ++ .alloc (some (s.read i ds).heap) :: (s.read i ds).log })

theorem readEntries_enumerates (env : Env) (n : Nat) : ∀ i s,
    ∃ ds : List Description, ds.map (·.ptr) = List.range' s.heap ds.length ∧ Enumerates env n i s ds := by
  induction n with
  | zero => exact fun i s => ⟨[], rfl, .inl ⟨trivial, rfl, by simp [readEntries, Tracker.read, enumerated]⟩⟩
  | succ n ih =>
    intro i s
    have hnil : s.read i [] = s := by simp [Tracker.read, enumerated]
    by_cases h : env.alloc s.log = true
    · by_cases hd : (env.describe i s.heap s.log).Accepted
      · generalize hfirst : env.describe i s.heap s.log = d at hd
        obtain ⟨ds, hptrs, hends⟩ := ih (i + 1) { s with
          capabilities := s.capabilities ++ [d.capability], heap := s.heap + 1, log := d.events i ++ s.log }
        have hread : Tracker.read { s with
            capabilities := s.capabilities ++ [d.capability], heap := s.heap + 1, log := d.events i ++ s.log } (i + 1) ds =
            s.read i (d :: ds) := by
          simp [Tracker.read, enumerated, Nat.add_comm, Nat.add_left_comm]
        have hdescribes : env.Describes (n + 1) i s.heap s.log ↔
            env.Describes n (i + 1) (s.heap + 1) (d.events i ++ s.log) := by
          rw [Env.Describes, hfirst]
          exact ⟨fun hall => (hall h).2, fun hrest _ => ⟨hd, hrest⟩⟩
        have hstep := readEntries_accepted (n := n) h (hfirst ▸ hd)
        rw [hfirst] at hstep
        have hptr : d.ptr = s.heap := by rw [← hfirst]; rfl
        refine ⟨d :: ds, by rw [List.map_cons, hptrs, hptr]; rfl, ?_⟩
        unfold Enumerates at hends ⊢
        rw [hread] at hends
        rw [hdescribes, hstep, List.length_cons, Nat.succ_inj]
        exact hends
      · obtain ⟨calls, hobtained, hfreed, hrefused⟩ := readEntries_refused (n := n) h hd
        refine ⟨[], rfl, .inr (.inr ⟨fun hall => hd (hall h).1, calls, hobtained, hfreed, ?_⟩)⟩
        rw [hnil]
        exact hrefused
    · refine ⟨[], rfl, .inr (.inl ⟨fun htrue => absurd htrue h, ?_⟩)⟩
      rw [hnil]
      exact readEntries_unallocated (Bool.eq_false_iff.2 h)

/-! ## The whole call -/

section Failure

variable {s t : Tracker} {ds : List Description} (calls : List Event)
  (hptrs : ds.map (·.ptr) = List.range' s.heap ds.length) (hcaps : t.capabilities = ds.map (·.capability))
  (hlog : t.log = calls ++ s.log) (hfreed : freedCapas calls = [])
include hcaps hlog hfreed

/-- The `failure` path gives back the records of the capabilities. -/
theorem releaseAll_events :
    (releaseAll t.capabilities t).capabilities = [] ∧
      obtained (newEvents s (releaseAll t.capabilities t)) = obtained calls ∧
      (freedCapas (newEvents s (releaseAll t.capabilities t))).map (·.ptr) = (ds.map (·.ptr)).reverse := by
  have hreleased : releaseAll t.capabilities t = { t with capabilities := [], log := releases t.capabilities ++ t.log } :=
    releaseAll_eq t.capabilities t
  have hnew : newEvents s (releaseAll t.capabilities t) = releases t.capabilities ++ calls := by
    apply newEvents_append
    rw [hreleased, List.append_assoc, ← hlog]
  refine ⟨by rw [hreleased], ?_, ?_⟩
  · rw [hnew, obtained_append, obtained_releases, List.nil_append]
  · rw [hnew, freedCapas_append, freedCapas_releases, hfreed, List.append_nil, hcaps, List.map_reverse, List.map_map]
    rfl

include hptrs

/-- If these were all there are, nothing is lost. -/
theorem undone_of_linked (hobtained : obtained calls = (ds.map (·.ptr)).reverse) : Undone s (releaseAll t.capabilities t) := by
  obtain ⟨hnone, hgiven, hback⟩ := releaseAll_events calls hcaps hlog hfreed
  refine ⟨hnone, fun ptr hptr => ?_⟩
  rw [hgiven, hobtained, List.mem_reverse] at hptr
  rw [hback, List.count_reverse]
  refine List.count_eq_one_of_mem ?_ hptr
  rw [hptrs]
  exact List.nodup_range'

/-- The record behind the last capability is lost. -/
theorem not_undone_of_unlinked (hobtained : s.heap + ds.length ∈ obtained calls) : ¬ Undone s (releaseAll t.capabilities t) := by
  intro hundone
  obtain ⟨-, hgiven, hback⟩ := releaseAll_events calls hcaps hlog hfreed
  have hcount := hundone.2 (s.heap + ds.length) (by rw [hgiven]; exact hobtained)
  rw [hback, hptrs, List.count_reverse] at hcount
  have hmem : s.heap + ds.length ∈ List.range' s.heap ds.length := List.count_pos_iff.1 (by omega)
  rw [List.mem_range'_1] at hmem
  omega

end Failure

/-- Without records there is nothing to give back. -/
theorem undone_of_none {s t : Tracker} (calls : List Event) (hcaps : t.capabilities = []) (hlog : t.log = calls ++ s.log)
    (hobtained : obtained calls = []) : Undone s t := by
  refine ⟨hcaps, fun ptr hptr => ?_⟩
  rw [newEvents_append hlog, hobtained] at hptr
  cases hptr

theorem tycheCall1_ok (env : Env) (f : VmcallFrame) (s : Tracker) (h : (env.vmcall s.log f).ok = true) :
    tycheCall1 env f s =
      (some (env.vmcall s.log f).ret1, { s with log := .vmcall f (env.vmcall s.log f) :: s.log }) := by
  simp [tycheCall1, tycheCall, h]

theorem tycheCall1_failed (env : Env) (f : VmcallFrame) (s : Tracker) (h : (env.vmcall s.log f).ok = false) :
    tycheCall1 env f s = (none, { s with log := .vmcall f (env.vmcall s.log f) :: s.log }) := by
  simp [tycheCall1, tycheCall, h]

theorem allOrNothing_success {s t : Tracker} : AllOrNothing s (0, t) ↔ Complete s t :=
  ⟨fun h => h.1 rfl, fun h => ⟨fun _ => h, fun hret => absurd hret (by simp)⟩⟩

theorem allOrNothing_failure {s t : Tracker} : AllOrNothing s (-1, t) ↔ Undone s t :=
  ⟨fun h => h.2 rfl, fun h => ⟨fun hret => absurd hret (by simp), fun _ => h⟩⟩

/-- The call, once the monitor has answered for the domain. -/
theorem readEntries_all_or_nothing (env : Env) (s : Tracker) (id : Nat) (answer size : VmcallAnswer) :
    let log := .vmcall { id := tycheConfigNbRegions } size :: .vmcall { id := tycheDomainGetOwnId } answer :: s.log
    AllOrNothing s (match readEntries env size.ret1 0 { s with id := id, capabilities := [], log := log } with
      | (true, s) => (0, s)
      | (false, s) => (-1, releaseAll s.capabilities s)) ↔ env.Describes size.ret1 0 s.heap log := by
  intro log
  obtain ⟨ds, hptrs, hends⟩ := readEntries_enumerates env size.ret1 0 { s with id := id, capabilities := [], log := log }
  have hptrs : ds.map (·.ptr) = List.range' s.heap ds.length := hptrs
  have hlog : enumerated 0 ds log = enumerated 0 ds (log.take 2) ++ s.log := enumerated_append ds 0 (log.take 2) s.log
  have hobtained : obtained (enumerated 0 ds (log.take 2)) = (ds.map (·.ptr)).reverse := by
    rw [obtained_enumerated]
    exact List.append_nil _
  have hfreed : freedCapas (enumerated 0 ds (log.take 2)) = [] := freedCapas_enumerated ..
  rcases hends with ⟨hdescribes, hlength, hread⟩ | ⟨hdescribes, hread⟩ | ⟨hlost, calls, hnone, hkept, hread⟩
  · rw [hread, allOrNothing_success]
    exact ⟨fun _ => hdescribes, fun _ => ⟨answer, size, ds, rfl, hlength, rfl⟩⟩
  · rw [hread, allOrNothing_failure]
    refine ⟨fun _ => hdescribes, fun _ => ?_⟩
    refine undone_of_linked (.alloc none :: enumerated 0 ds (log.take 2)) hptrs rfl ?_ hfreed hobtained
    exact congrArg (Event.alloc none :: ·) hlog
  · rw [hread, allOrNothing_failure]
    refine ⟨fun hundone => absurd hundone ?_, fun hdescribes => absurd hdescribes hlost⟩
    refine not_undone_of_unlinked (calls ++ .alloc (some (s.heap + ds.length)) :: enumerated 0 ds (log.take 2)) hptrs rfl
      ?_ ?_ ?_
    · show calls ++ .alloc (some (s.heap + ds.length)) :: enumerated 0 ds log = _
      rw [hlog, List.append_assoc]
      rfl
    · rw [freedCapas_append, hkept]
      exact hfreed
    · rw [obtained_append]
      exact List.mem_append_right _ (List.mem_cons_self ..)

/-- **`init_domain` is all or nothing** exactly when no record is lost: the
monitor accepts each handle that a record was given for. -/
theorem initDomain_all_or_nothing (env : Env) (allocator deallocator print : Bool) (s : Tracker) :
    AllOrNothing s (initDomain env allocator deallocator print s) ↔
      if allocator = false ∨ deallocator = false ∨ print = false then s.capabilities = [] else env.Introduces s := by
  unfold initDomain
  by_cases hnull : allocator = false ∨ deallocator = false ∨ print = false
  · rw [if_pos hnull, if_pos hnull, allOrNothing_failure]
    exact ⟨fun h => h.1, fun hcaps => undone_of_none [] hcaps rfl rfl⟩
  rw [if_neg hnull, if_neg hnull]
  unfold tycheGetDomainId ecsReadSize Env.Introduces
  dsimp only
  generalize hanswer : env.vmcall s.log { id := tycheDomainGetOwnId } = answer
  cases hid : answer.ok with
  | false =>
    have hcall := tycheCall1_failed env { id := tycheDomainGetOwnId } { s with capabilities := [] }
      (by rw [← hid, ← hanswer])
    rw [hcall, allOrNothing_failure]
    simp only [reduceCtorEq, false_imp_iff, iff_true]
    exact undone_of_none [_] rfl rfl rfl
  | true =>
    have hcall := tycheCall1_ok env { id := tycheDomainGetOwnId } { s with capabilities := [] }
      (by rw [← hid, ← hanswer])
    rw [hcall]
    simp only [hanswer, true_imp_iff]
    generalize hsize : env.vmcall (.vmcall { id := tycheDomainGetOwnId } answer :: s.log) { id := tycheConfigNbRegions } = size
    cases hok : size.ok with
    | false =>
      have hcall := tycheCall1_failed env { id := tycheConfigNbRegions }
        { s with id := answer.ret1, capabilities := [], log := .vmcall { id := tycheDomainGetOwnId } answer :: s.log }
        (by rw [← hok, ← hsize])
      rw [hcall, allOrNothing_failure, hsize]
      simp only [reduceCtorEq, false_imp_iff, iff_true]
      exact undone_of_none [_, _] rfl rfl rfl
    | true =>
      have hcall := tycheCall1_ok env { id := tycheConfigNbRegions }
        { s with id := answer.ret1, capabilities := [], log := .vmcall { id := tycheDomainGetOwnId } answer :: s.log }
        (by rw [← hok, ← hsize])
      rw [hcall, hsize]
      simp only [true_imp_iff]
      exact readEntries_all_or_nothing env s answer.ret1 answer size

/-- A monitor with one handle, which it does not tell. -/
def Env.withholding : Env where
  vmcall _ f := if f.id = tycheConfigReadRegion then { result := -1 } else { result := 0, ret1 := 1 }
  alloc _ := true

/-- The record for its handle is lost. -/
theorem record_lost :
    let r := initDomain .withholding true true true .boot
    r.1 = -1 ∧ obtained (newEvents .boot r.2) = [0] ∧ freedCapas (newEvents .boot r.2) = [] ∧ ¬ AllOrNothing .boot r := by
  have hobtained : obtained (newEvents .boot (initDomain .withholding true true true .boot).2) = [0] := by decide
  have hfreed : freedCapas (newEvents .boot (initDomain .withholding true true true .boot).2) = [] := by decide
  refine ⟨by decide, hobtained, hfreed, fun h => ?_⟩
  have hcount := (h.2 (by decide)).2 0 (by rw [hobtained]; exact List.mem_singleton_self 0)
  rw [hfreed] at hcount
  cases hcount

end Tyche.Capa
