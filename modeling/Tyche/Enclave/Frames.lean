/-
The frames of the page tables: what the driver obtained from the page
allocator and has not returned is what the enclaves have recorded.

A deletion breaks this. It frees the records of an enclave and forgets its
page tables: their frames are held by nobody, and are never returned.
-/
import Tyche.Enclave.Commands

namespace Tyche.Enclave

open Tyche.Pts
open Tyche.Capa (ptEntry)

/-- The driver holds the frame: it was handed out, and not returned since. -/
def held (f : Nat) : List Event → Bool
  | [] => false
  | .allocPages (some g) :: log => g == f || held f log
  | .freePages g :: log => g != f && held f log
  | _ :: log => held f log

/-- Every frame that was handed out is aligned, and was not held. -/
def handedOut : List Event → Bool
  | [] => true
  | .allocPages (some f) :: log => f % ptPageSize == 0 && !held f log && handedOut log
  | _ :: log => handedOut log

/-- Every frame that was returned was held. -/
def returnedOnce : List Event → Bool
  | [] => true
  | .freePages f :: log => held f log && returnedOnce log
  | _ :: log => returnedOnce log

/-- The frames recorded for the page tables of these enclaves. -/
def recorded (enclaves : List Encl) : List Nat := enclaves.flatMap fun encl => encl.pts.map (·.start)

/-- **The frames are accounted for.** -/
structure Accounted (s : Driver) : Prop where
  frames : ∀ f, held f s.log = true ↔ f ∈ recorded s.enclaves
  distinct : (recorded s.enclaves).Nodup
  returned : returnedOnce s.log = true

/-- What was done since the state before. -/
def Driver.did (s t : Driver) : List Event := t.log.take (t.log.length - s.log.length)

theorem did_eq {s t : Driver} {events : List Event} (h : t.log = events ++ s.log) : s.did t = events := by
  rw [Driver.did, h, List.length_append, Nat.add_sub_cancel, List.take_left]

/-- A deletion is of an enclave without page tables, or the monitor refuses
one of its revocations. -/
def NoTablesDeleted (s : Driver) (pid : Nat) (cmd : Command) (t : Driver) : Prop :=
  ∀ handle c, cmd = .delete handle → findEnclave pid handle s.enclaves = some c →
    c.elem.pts = [] ∨ ∃ start end_, .revokeRegion c.elem.tycheHandle start end_ false ∈ s.did t

/-! ## The log -/

/-- The event neither obtains nor returns a frame. -/
def Event.frameless : Event → Bool
  | .allocPages _ | .freePages _ => false
  | _ => true

section Log

variable {f : Nat} {ev : Event} {events log : List Event}

theorem held_frameless (h : ∀ ev ∈ events, ev.frameless = true) : held f (events ++ log) = held f log := by
  induction events with
  | nil => rfl
  | cons ev events ih =>
    have hev := h ev (List.mem_cons_self ..)
    rw [← ih fun e he => h e (List.mem_cons_of_mem _ he)]
    cases ev <;> first | rfl | cases hev

theorem returnedOnce_frameless (h : ∀ ev ∈ events, ev.frameless = true) :
    returnedOnce (events ++ log) = returnedOnce log := by
  induction events with
  | nil => rfl
  | cons ev events ih =>
    have hev := h ev (List.mem_cons_self ..)
    rw [← ih fun e he => h e (List.mem_cons_of_mem _ he)]
    cases ev <;> first | rfl | cases hev

theorem handedOut_suffix (events : List Event) (h : handedOut (events ++ log) = true) : handedOut log = true := by
  induction events with
  | nil => exact h
  | cons ev events ih =>
    refine ih ?_
    unfold handedOut at h
    split at h
    next heq => cases heq
    next heq =>
      obtain ⟨-, rfl⟩ := List.cons.inj heq
      rw [Bool.and_eq_true] at h
      exact h.2
    next heq =>
      obtain ⟨-, rfl⟩ := List.cons.inj heq
      exact h

/-- The frames of a list are returned, one after the other. -/
def frees (l : List Nat) : List Event := (l.map Event.freePages).reverse

@[simp] theorem frees_nil : frees [] = [] := rfl

theorem frees_cons (f : Nat) (l : List Nat) : frees (f :: l) ++ log = frees l ++ .freePages f :: log := by simp [frees]

theorem held_frees (l : List Nat) : held f (frees l ++ log) = (held f log && !l.contains f) := by
  induction l generalizing log with
  | nil => simp
  | cons g l ih =>
    rw [frees_cons, ih, List.contains_cons, held]
    by_cases h : g = f
    · simp [h]
    · have h' : f ≠ g := Ne.symm h
      simp [bne, beq_eq_false_iff_ne.2 h, beq_eq_false_iff_ne.2 h']

theorem returnedOnce_frees {l : List Nat} (hnodup : l.Nodup) (hl : ∀ f ∈ l, held f log = true)
    (h : returnedOnce log = true) : returnedOnce (frees l ++ log) = true := by
  induction l generalizing log with
  | nil => exact h
  | cons g l ih =>
    rw [List.nodup_cons] at hnodup
    rw [frees_cons]
    refine ih hnodup.2 (fun f hf => ?_) ?_
    · have hne : g ≠ f := fun heq => hnodup.1 (heq ▸ hf)
      rw [held, hl f (List.mem_cons_of_mem _ hf)]
      simpa using hne
    · rw [returnedOnce, hl g (List.mem_cons_self ..), h]
      rfl

end Log

/-! ## One enclave -/

/-- The frames are accounted for, when the other enclaves record `others`. -/
structure Balanced (others : List Nat) (x : Encl × List Event) : Prop where
  frames : ∀ f, held f x.2 = true ↔ f ∈ others ++ x.1.pts.map (·.start)
  distinct : (others ++ x.1.pts.map (·.start)).Nodup
  returned : returnedOnce x.2 = true

section Balanced

variable {others : List Nat} {x y : Encl × List Event}

/-- What touches no frame keeps the balance. -/
theorem Balanced.frameless (h : Balanced others x) {e : Encl} (events : List Event) (hpts : e.pts = x.1.pts)
    (hevents : ∀ ev ∈ events, ev.frameless = true) : Balanced others (e, events ++ x.2) := by
  refine ⟨fun f => ?_, by rw [hpts]; exact h.distinct, ?_⟩
  · rw [held_frameless hevents, hpts]
    exact h.frames f
  · rw [returnedOnce_frameless hevents]
    exact h.returned

theorem Balanced.prepare (h : Balanced others x) (hstep : Preparation x y) (hout : handedOut y.2 = true) :
    Balanced others y := by
  cases hstep with
  | kmalloc e log ok => exact h.frameless [.kmalloc ok] rfl (by simp [Event.frameless])
  | collect e log before after r f hregions hf => exact h.frameless [.collect f] rfl (by simp [Event.frameless])
  | noPage e log ans hans =>
    -- A page that is not aligned is lost, but the allocator hands out none.
    cases ans with
    | none => exact ⟨h.frames, h.distinct, h.returned⟩
    | some f =>
      have haligned : f % ptPageSize = 0 := by simp_all [handedOut]
      exact absurd haligned (hans f rfl)
  | unused e log f ks allPages hf hks hpages =>
    have hmalloc : ∀ k ∈ ks, k.frameless = true := by
      intro k hk
      obtain ⟨ok, rfl⟩ := hks k hk
      rfl
    have hout : handedOut ((.freePages f :: ks) ++ .allocPages (some f) :: log) = true := hout
    have hfresh : held f log = false := by
      have hout := handedOut_suffix _ hout
      simp_all [handedOut]
    refine ⟨fun g => ?_, h.distinct, ?_⟩
    · show held g (.freePages f :: (ks ++ .allocPages (some f) :: log)) = true ↔ _
      rw [held, held_frameless hmalloc, held, ← h.frames g]
      by_cases hg : f = g
      · simp [← hg, hfresh]
      · simp [hg]
    · have hreturned : returnedOnce (.allocPages (some f) :: log) = true := h.returned
      show returnedOnce (.freePages f :: (ks ++ .allocPages (some f) :: log)) = true
      rw [returnedOnce, held_frameless hmalloc, returnedOnce_frameless hmalloc, hreturned]
      simp [held]
  | table e log f hf =>
    have hfresh : held f log = false := by simp_all [handedOut]
    have hnew : f ∉ others ++ e.pts.map (·.start) := by
      rw [← h.frames f, hfresh]
      simp
    refine ⟨fun g => ?_, ?_, h.returned⟩
    · show (f == g || held g log) = true ↔ _
      have hadded : g ∈ others ++ (e.pts ++ [(⟨f, add64 f ptPageSize, ptEntry⟩ : PaRegion)]).map (·.start) ↔
          f = g ∨ g ∈ others ++ e.pts.map (·.start) := by
        rw [List.map_append, ← List.append_assoc, List.mem_append, or_comm, List.map_singleton, List.mem_singleton,
          eq_comm]
      rw [Bool.or_eq_true, h.frames g, hadded, beq_iff_eq]
    · rw [List.map_append, ← List.append_assoc, List.nodup_append]
      exact ⟨h.distinct, by simp, fun a ha b hb heq => hnew (by simp_all)⟩
  | root e log cr3 => exact ⟨h.frames, h.distinct, h.returned⟩
  | merge e log r pa hr hpa => exact h.frameless [.kmalloc true] rfl (by simp [Event.frameless])

theorem Balanced.effect (h : Balanced others x) (hstep : Effect x y) (hout : handedOut y.2 = true) : Balanced others y := by
  cases hstep with
  | prepare hstep => exact h.prepare hstep hout
  | transfer e log pa ok hpa => exact h.frameless [_] rfl (by simp [Event.frameless])
  | sealing e log stack entry invoke => exact h.frameless [_] rfl (by simp [Event.frameless])

theorem Balanced.effects (h : Balanced others x) (hsteps : Effects x y) (hout : handedOut y.2 = true) : Balanced others y := by
  induction hsteps with
  | refl => exact h
  | tail _ hstep ih =>
    obtain ⟨events, hlog, -⟩ := hstep.calls rfl
    rw [hlog] at hout
    exact (ih (handedOut_suffix _ hout)).effect hstep (by rw [hlog]; exact hout)

/-- The failure path returns the frames of the enclave. -/
theorem Balanced.commitFailure {s : Site} (h : Balanced others (s.encl, s.log)) :
    Balanced others ((commitFailure s).2.encl, (commitFailure s).2.log) := by
  unfold Enclave.commitFailure
  split
  · exact h
  · have hfrees : (s.encl.pts.map fun r => Event.freePages r.start).reverse = frees (s.encl.pts.map (·.start)) := by
      simp [frees]
    have hdistinct := h.distinct
    rw [List.nodup_append] at hdistinct
    obtain ⟨hothers, hpts, hdisjoint⟩ := hdistinct
    rw [hfrees]
    refine ⟨fun f => ?_, by simpa using hothers, returnedOnce_frees hpts (fun f hf => ?_) h.returned⟩
    · rw [held_frees, Bool.and_eq_true, h.frames f, List.mem_append]
      simp only [Bool.not_eq_true', List.contains_eq_mem, decide_eq_false_iff_not, List.map_nil, List.append_nil]
      exact ⟨fun hf => hf.1.resolve_right hf.2, fun hf => ⟨.inl hf, fun hmem => hdisjoint f hf f hmem rfl⟩⟩
    · exact (h.frames f).2 (List.mem_append_right _ hf)

theorem Balanced.commitEnclave (env : Env) (commit : CommitMessage) {s : Site} (h : Balanced others (s.encl, s.log))
    (hout : handedOut (Enclave.commitEnclave env commit s).2.log = true) :
    Balanced others ((Enclave.commitEnclave env commit s).2.encl, (Enclave.commitEnclave env commit s).2.log) := by
  obtain ⟨mem, e, log, heff, hcase⟩ := commitEnclave_effects env commit s
  rcases hcase with ⟨o, -, heq⟩ | heq
  · rw [heq] at hout ⊢
    exact h.effects heff hout
  · rw [heq] at hout ⊢
    obtain ⟨events, hlog, -⟩ := commitFailure_log ⟨mem, log, e⟩
    rw [hlog] at hout
    exact Balanced.commitFailure (h.effects heff (handedOut_suffix _ hout))

end Balanced

/-! ## The driver -/

theorem recorded_perm (c : Cursor Encl) : (recorded c.list).Perm (recorded c.remove ++ c.elem.pts.map (·.start)) := by
  have hperm := c.list_perm.flatMap_right fun encl => encl.pts.map (·.start)
  rw [List.flatMap_cons] at hperm
  exact hperm.trans List.perm_append_comm

/-- An enclave is balanced with the others. -/
theorem accounted_iff {s : Driver} {c : Cursor Encl} (h : s.enclaves = c.list) :
    Accounted s ↔ Balanced (recorded c.remove) (c.elem, s.log) := by
  have hperm := recorded_perm c
  constructor
  · rintro ⟨h1, h2, h3⟩
    rw [h] at h1 h2
    exact ⟨fun f => (h1 f).trans hperm.mem_iff, hperm.nodup_iff.1 h2, h3⟩
  · rintro ⟨h1, h2, h3⟩
    refine ⟨fun f => ?_, ?_, h3⟩
    · rw [h]
      exact (h1 f).trans hperm.mem_iff.symm
    · rw [h]
      exact hperm.nodup_iff.2 h2

theorem Accounted.frameless {s t : Driver} (h : Accounted s) (hrecorded : recorded t.enclaves = recorded s.enclaves)
    (events : List Event) (hlog : t.log = events ++ s.log) (hevents : ∀ ev ∈ events, ev.frameless = true) :
    Accounted t := by
  refine ⟨fun f => ?_, by rw [hrecorded]; exact h.distinct, ?_⟩
  · rw [hlog, held_frameless hevents, hrecorded]
    exact h.frames f
  · rw [hlog, returnedOnce_frameless hevents]
    exact h.returned

theorem recorded_put {c : Cursor Encl} {e : Encl} (h : e.pts = c.elem.pts) : recorded (c.put e).list = recorded c.list := by
  simp [recorded, Cursor.list, h]

theorem revocations_frameless (dom : Nat) (ok : Bool) (pages : List PaRegion) :
    ∀ ev ∈ revocations dom ok pages, ev.frameless = true := by
  intro ev hev
  obtain ⟨pa, -, rfl⟩ := List.mem_map.1 (List.mem_reverse.1 hev)
  rfl

theorem revocations_accepted {dom : Nat} {pages : List PaRegion} (dom' start end_ : Nat) :
    .revokeRegion dom' start end_ false ∉ revocations dom true pages := by
  intro hmem
  obtain ⟨pa, -, heq⟩ := List.mem_map.1 (List.mem_reverse.1 hmem)
  cases heq

theorem Accounted.change {env : Env} {pid : Nat} {s t : Driver} {cmd : Command} {o : Outcome Int} (h : Accounted s)
    (hchange : Change env pid s cmd o t) (hout : handedOut t.log = true) (hallowed : NoTablesDeleted s pid cmd t) :
    Accounted t := by
  cases hchange with
  | idle cmd tycheIds ks hks =>
    refine h.frameless rfl _ rfl fun k hk => ?_
    rcases hks k hk with ⟨ok, rfl⟩ | rfl <;> rfl
  | debugged handle result index => exact h.frameless rfl [_] rfl (by simp [Event.frameless])
  | entered transition c ret result index hfind =>
    refine h.frameless ?_ [_] rfl (by simp [Event.frameless])
    rw [← (findEnclave_some hfind).1]
    exact recorded_put rfl
  | created out domain hnew =>
    exact h.frameless (by simp [recorded]) [_, _] rfl (by simp [Event.frameless])
  | region cmd region c ok ret stack hcmd hfind hcheck hstack hret =>
    refine h.frameless ?_ [_] rfl (by simp [Event.frameless])
    rw [← (findEnclave_some hfind).1]
    exact recorded_put rfl
  | committed commit out c o o' site hfind hcommit ho =>
    have hbalanced := (accounted_iff (findEnclave_some hfind).1.symm).1 h
    have hsite := hbalanced.commitEnclave env commit (s := ⟨s.mem, s.log, c.elem⟩)
      (by rw [hcommit]; exact hout)
    rw [hcommit] at hsite
    exact (accounted_iff (c := c.put site.encl) rfl).2 hsite
  | unrevoked handle c o events hfind hrevoke =>
    refine h.frameless rfl _ rfl fun ev hev => ?_
    rcases hrevoke with ⟨-, done, pa, rest, -, rfl⟩ | ⟨-, rfl⟩
    · rcases List.mem_append.1 hev with hev | hev <;> exact revocations_frameless _ _ _ ev hev
    · exact revocations_frameless _ _ _ ev hev
  | deleted handle c hfind hstale =>
    have hpts : c.elem.pts = [] := by
      refine (hallowed handle c rfl hfind).resolve_right ?_
      rintro ⟨start, end_, hmem⟩
      rw [did_eq rfl] at hmem
      exact revocations_accepted _ _ _ hmem
    refine h.frameless ?_ _ rfl (revocations_frameless c.elem.tycheHandle true c.elem.allPages)
    rw [← (findEnclave_some hfind).1]
    simp [recorded, Cursor.list, Cursor.remove, hpts]

/-- **The frames of the page tables are accounted for**, as long as no enclave
is deleted with its page tables: the driver holds the frames that the listed
enclaves have recorded, each once, and every frame it returned it held. -/
theorem frames_accounted (env : Env) (mem : Nat → Nat → Nat) {s : Driver}
    (hrun : Run env NoTablesDeleted (Driver.boot mem) s) (hout : handedOut s.log = true) : Accounted s := by
  induction hrun with
  | refl => exact ⟨by simp [Driver.boot, held, recorded], .nil, rfl⟩
  | @tail u v _ hstep ih =>
    obtain ⟨pid, cmd, out, heq, -, hallowed⟩ := hstep
    have hchange := ioctl_change env pid u cmd
    rw [heq] at hchange
    obtain ⟨events, hlog, -⟩ := hchange.calls
    refine (ih (handedOut_suffix events ?_)).change hchange hout hallowed
    rw [← hlog]
    exact hout

/-- A commit of an enclave without regions. -/
def emptyCommit (handle : Nat) : Command := .commit ⟨handle, 0, 0⟩ true

/-- Two enclaves are created, one is committed, and the other one deleted. -/
theorem frames_accounted_committed :
    Accounted ((Driver.boot fun _ _ => 0).after plenty
      [(1, .create true), (2, .create true), (1, emptyCommit 0), (2, .delete 1)]) := by
  have hpts : ∀ handle c, Command.delete 1 = .delete handle → findEnclave 2 handle ((Driver.boot fun _ _ => 0).after plenty
      [(1, .create true), (2, .create true), (1, emptyCommit 0)]).enclaves = some c → c.elem.pts = [] := by
    intro handle c hcmd hfind
    cases hcmd
    have hfound : (findEnclave 2 1 ((Driver.boot fun _ _ => 0).after plenty
        [(1, .create true), (2, .create true), (1, emptyCommit 0)]).enclaves).map (·.elem.pts) = some [] := by
      decide +kernel
    rw [hfind] at hfound
    exact Option.some.inj hfound
  have hadmits : Admits plenty NoTablesDeleted (Driver.boot fun _ _ => 0)
      [(1, .create true), (2, .create true), (1, emptyCommit 0), (2, .delete 1)] :=
    ⟨by decide, (fun _ _ h => nomatch h), by decide, (fun _ _ h => nomatch h), by decide +kernel,
      (fun _ _ h => nomatch h), by decide +kernel, fun handle c hcmd hfind => .inl (hpts handle c hcmd hfind), trivial⟩
  exact frames_accounted plenty (fun _ _ => 0) (run_after _ hadmits) (by decide +kernel)

/-- The root of a committed enclave is still held once the enclave is deleted. -/
theorem delete_keeps_frames :
    let s := (Driver.boot fun _ _ => 0).after plenty [(1, .create true), (1, emptyCommit 0), (1, .delete 0)]
    Run plenty (fun _ _ _ _ => True) (Driver.boot fun _ _ => 0) s ∧ handedOut s.log = true ∧ s.enclaves = [] ∧
      held 0x100000 s.log = true ∧ 0x100000 ∉ recorded s.enclaves :=
  ⟨run_after _ ⟨by decide, trivial, by decide +kernel, trivial, by decide +kernel, trivial, trivial⟩, by decide +kernel,
    by decide +kernel, by decide +kernel, by decide +kernel⟩

end Tyche.Enclave
