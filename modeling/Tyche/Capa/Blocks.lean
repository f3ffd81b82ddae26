/-
The memory of the library: each block that the allocator gave is a
capability of the list, or a revocation record of one, or was given back.
It is one of these only, so no block is lost, none is given back twice, and
none that was given back is still in use.

The merge step of `revoke_capa` frees a whole entry and leaves its records
alone; it has none, because an active entry has none.
-/
import Tyche.Capa.Handles
import Tyche.Capa.Startup

namespace Tyche.Capa

/-- The block of an object. -/
def Object.ptr : Object → Nat
  | .capa c => c.ptr
  | .revok r => r.ptr

/-- The blocks given back to the allocator. -/
def freedBlocks : List Event → List Nat
  | [] => []
  | .dealloc obj :: log => obj.ptr :: freedBlocks log
  | _ :: log => freedBlocks log

/-- The blocks of a capability: its own, and those of its records. -/
def Capability.blocks (c : Capability) : List Nat := c.ptr :: c.revoks.map (·.ptr)

/-- The blocks in use. -/
def blocks (l : List Capability) : List Nat := l.flatMap (·.blocks)

/-- Each block that was obtained is in use or was given back. -/
structure Conserved (s : Tracker) : Prop where
  all : (obtained s.log).Perm (blocks s.capabilities ++ freedBlocks s.log)
  once : (obtained s.log).Nodup
  bound : ∀ p ∈ obtained s.log, p < s.heap

section Blocks

variable {s t : Tracker} {e : Effect}

@[simp] theorem blocks_append (l l' : List Capability) : blocks (l ++ l') = blocks l ++ blocks l' := List.flatMap_append

@[simp] theorem blocks_cons (c : Capability) (l : List Capability) : blocks (c :: l) = c.blocks ++ blocks l := rfl

/-- The blocks with those of the entry at the cursor in front. -/
theorem blocks_perm (c : Cursor Capability) : (blocks c.list).Perm (c.elem.blocks ++ blocks c.remove) :=
  c.list_perm.flatMap_right _

/-- Blocks that are new, or move from one place to another. -/
theorem Conserved.moved (h : Conserved s) (new : List Nat) (hlog : obtained t.log = new ++ obtained s.log)
    (hall : (blocks t.capabilities ++ freedBlocks t.log).Perm (new ++ (blocks s.capabilities ++ freedBlocks s.log)))
    (hheap : t.heap = s.heap + new.length) (hnew : new = [] ∨ new = [s.heap]) : Conserved t where
  all := by
    rw [hlog]
    exact (h.all.append_left new).trans hall.symm
  once := by
    rw [hlog]
    rcases hnew with rfl | rfl
    · exact h.once
    · exact List.nodup_cons.2 ⟨fun hmem => Nat.lt_irrefl _ (h.bound _ hmem), h.once⟩
  bound := by
    rw [hlog, hheap]
    intro p hp
    rcases List.mem_append.1 hp with hp | hp
    · rcases hnew with rfl | rfl
      · cases hp
      · obtain rfl := List.mem_singleton.1 hp
        exact Nat.lt_succ_self _
    · exact Nat.lt_of_lt_of_le (h.bound p hp) (Nat.le_add_right ..)

/-- The entry at the cursor is rewritten, and some of its blocks change. -/
theorem blocks_put (c : Cursor Capability) (d : Capability) : (blocks (c.put d).list).Perm (d.blocks ++ blocks c.remove) :=
  blocks_perm (c.put d)

theorem Conserved.micro (h : Conserved s) (hl : Ledger s) (hm : Micro s e t) : Conserved t := by
  cases hm with
  | noMemory => exact h.moved [] rfl (.refl _) rfl (.inl rfl)
  | refused => exact h.moved [] rfl (.refl _) rfl (.inl rfl)
  | abandoned f a obj ha hobj =>
    have hptr : obj.ptr = s.heap := by
      cases obj with
      | capa c => exact hobj.1
      | revok r => exact hobj
    refine h.moved [s.heap] rfl ?_ rfl (.inr rfl)
    show (blocks s.capabilities ++ obj.ptr :: freedBlocks s.log).Perm (s.heap :: (blocks s.capabilities ++ freedBlocks s.log))
    rw [hptr]
    exact List.perm_middle
  | split c addr a hcaps =>
    refine h.moved [s.heap] rfl ?_ rfl (.inr rfl)
    have hput : (blocks (c.put { c.elem with end_ := addr }).list).Perm (blocks s.capabilities) := by
      rw [hcaps]
      exact (blocks_put c _).trans (blocks_perm c).symm
    show (blocks (_ ++ [_]) ++ freedBlocks s.log).Perm (s.heap :: (blocks s.capabilities ++ freedBlocks s.log))
    rw [blocks_append, List.append_assoc]
    exact (hput.append_right _).trans List.perm_middle
  | deliver c dom tpe a hcaps =>
    refine h.moved [s.heap] rfl ?_ rfl (.inr rfl)
    have hblocks : ({ c.elem with status := deliverStatus tpe, revoks := c.elem.revoks ++ [⟨s.heap, dom, a.ret1⟩] } : Capability).blocks =
        c.elem.blocks ++ [s.heap] := by simp [Capability.blocks]
    have hput : (blocks (c.put { c.elem with
        status := deliverStatus tpe, revoks := c.elem.revoks ++ [⟨s.heap, dom, a.ret1⟩] }).list).Perm
          (s.heap :: blocks s.capabilities) := by
      rw [hcaps]
      refine (blocks_put c _).trans ?_
      rw [hblocks, List.append_assoc, List.singleton_append]
      exact List.perm_middle.trans ((blocks_perm c).symm.cons _)
    exact hput.append_right _
  | revoke c r status a hcaps hr =>
    refine h.moved [] rfl ?_ rfl (.inl rfl)
    have hblocks : c.elem.blocks.Perm
        (r.elem.ptr :: ({ c.elem with status := status, revoks := r.remove } : Capability).blocks) := by
      have hrecords := (r.list_perm.map (·.ptr)).cons c.elem.ptr
      rw [Capability.blocks, hr]
      exact hrecords.trans (.swap ..)
    have hput : (blocks s.capabilities).Perm
        (r.elem.ptr :: blocks (c.put { c.elem with status := status, revoks := r.remove }).list) := by
      rw [hcaps]
      exact (blocks_perm c).trans ((hblocks.append_right _).trans ((blocks_put c _).symm.cons _))
    exact List.perm_middle.trans (hput.symm.append_right _)
  | merge l l' c d a hcaps hc hd =>
    refine h.moved [] rfl ?_ rfl (.inl rfl)
    -- The entry that is freed has no record.
    have hnone : d.blocks = [d.ptr] := by
      have hrevoks : d.revoks = [] := hl.active d (by simp [hcaps]) hd
      rw [Capability.blocks, hrevoks]
      rfl
    show (blocks (l ++ { c with end_ := d.end_ } :: l') ++ d.ptr :: freedBlocks s.log).Perm _
    rw [hcaps, blocks_append, blocks_cons, blocks_append, blocks_cons, blocks_cons, hnone]
    have hfreed := @List.perm_middle _ d.ptr (blocks l ++ (c.blocks ++ blocks l')) (freedBlocks s.log)
    refine hfreed.trans ?_
    have hmoved := @List.perm_middle _ d.ptr (blocks l ++ c.blocks) (blocks l' ++ freedBlocks s.log)
    simpa [List.append_assoc] using hmoved.symm

end Blocks

/-! ## After `init_domain` -/

theorem freedBlocks_enumerated (ds : List Description) : ∀ i log, freedBlocks (enumerated i ds log) = freedBlocks log := by
  induction ds with
  | nil => exact fun _ _ => rfl
  | cons d ds ih =>
    intro i log
    rw [enumerated, ih]
    rfl

/-- The blocks obtained for the handles are those of the capabilities. -/
theorem Conserved.read {s : Tracker} (h : Conserved s) (i : Nat) {ds : List Description}
    (hptrs : ds.map (·.ptr) = List.range' s.heap ds.length) : Conserved (s.read i ds) := by
  have hobtained : obtained (s.read i ds).log = (ds.map (·.ptr)).reverse ++ obtained s.log := obtained_enumerated ds i s.log
  have hblocks : blocks (ds.map (·.capability)) = ds.map (·.ptr) := by
    clear hptrs
    induction ds with
    | nil => rfl
    | cons d ds ih => exact congrArg (d.ptr :: ·) (ih (obtained_enumerated ds i s.log))
  constructor
  · rw [hobtained]
    show ((ds.map (·.ptr)).reverse ++ obtained s.log).Perm
      (blocks (s.capabilities ++ ds.map (·.capability)) ++ freedBlocks (enumerated i ds s.log))
    rw [blocks_append, hblocks, freedBlocks_enumerated]
    have hall := (List.reverse_perm (ds.map (·.ptr))).append h.all
    refine hall.trans ?_
    rw [← List.append_assoc]
    exact List.perm_append_comm.append_right _
  · rw [hobtained, List.nodup_append', List.nodup_reverse, hptrs]
    refine ⟨List.nodup_range', h.once, fun p hp hold => ?_⟩
    have hlow := (List.mem_range'_1.1 (List.mem_reverse.1 hp)).1
    have hhigh := h.bound p hold
    omega
  · rw [hobtained, hptrs]
    intro p hp
    show p < s.heap + ds.length
    rcases List.mem_append.1 hp with hp | hp
    · exact (List.mem_range'_1.1 (List.mem_reverse.1 hp)).2
    · have hhigh := h.bound p hp
      omega

/-- A vmcall obtains nothing. -/
theorem Conserved.call1 {env : Env} {f : VmcallFrame} {s s' : Tracker} {r} (h : Conserved s) (hc : tycheCall1 env f s = (r, s')) :
    Conserved s' := by
  obtain ⟨a, rfl, -⟩ := tycheCall1_cases hc
  exact h.moved [] rfl (.refl _) rfl (.inl rfl)

theorem initDomain_conserved {env : Env} {s : Tracker} (h : initDomain env true true true .boot = (0, s)) : Conserved s := by
  have hempty : Conserved { Tracker.boot with capabilities := [] } := ⟨.refl _, .nil, by simp [obtained, Tracker.boot]⟩
  unfold initDomain at h
  rw [if_neg (by simp)] at h
  split at h
  · cases h
  next id t hid =>
  split at h
  · cases h
  next nbCapa u hsize =>
  have ht : Conserved { t with id := id } := ⟨(hempty.call1 hid).all, (hempty.call1 hid).once, (hempty.call1 hid).bound⟩
  have hu : Conserved u := ht.call1 hsize
  obtain ⟨ds, hptrs, ⟨-, -, hread⟩ | ⟨-, hread⟩ | ⟨-, calls, -, -, hread⟩⟩ := readEntries_enumerates env nbCapa 0 u
  all_goals rw [hread] at h
  · cases h
    exact hu.read 0 hptrs
  · cases h
  · cases h

/-- **The blocks are conserved**: in every run, each block that the allocator
gave is in use, once, or was given back, once. -/
theorem blocks_conserved {env : Env} {allowed : Tracker → Call → Outcome Int → Prop} {x y : Config} (hx : Started env x)
    (h : Run env allowed x y) :
    (obtained y.tracker.log).Perm (blocks y.tracker.capabilities ++ freedBlocks y.tracker.log) ∧
      (blocks y.tracker.capabilities ++ freedBlocks y.tracker.log).Nodup := by
  have hstart : Conserved x.tracker := by
    obtain ⟨s, hs, rfl⟩ := hx
    exact initDomain_conserved hs
  have hend := (h.invariant (P := Conserved) hx.ledger (fun _ _ _ hl hs hm => hs.micro hl hm) hstart).2
  exact ⟨hend.all, hend.all.nodup_iff.1 hend.once⟩

/-- A region is cut in three to grant its middle, which is revoked: the pieces
are merged again, and two blocks and the record are given back. -/
theorem blocks_conserved_granting :
    let env := Env.granting [(0, 0x10000)]
    let y := (Config.start env).played env [.transfer 1 0x2000 0x4000 confidential, .revoke 1 0x2000 0x4000]
    (obtained y.tracker.log).Perm (blocks y.tracker.capabilities ++ freedBlocks y.tracker.log) ∧
      (blocks y.tracker.capabilities ++ freedBlocks y.tracker.log).Nodup := by
  intro env y
  have hrun : Run env apiCall (Config.start env) y := Run.of_plays (fun _ call _ => call.isApi) _ (by decide) fun _ _ _ h => h
  exact blocks_conserved (Config.started (by decide)) hrun

end Tyche.Capa
