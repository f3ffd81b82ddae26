/-
The list of capabilities mirrors the table of regions that the monitor keeps
for the domain: the library changes an entry when, and only when, the monitor
accepted the change of its region.
-/
import Tyche.Capa.Handles

namespace Tyche.Capa

/-! ## The monitor's table -/

/-- A region of the domain: `handle -> [start, end_)`. -/
structure MonitorRegion where
  handle : Nat
  start : Nat
  end_ : Nat
deriving DecidableEq, Repr

abbrev Table := List MonitorRegion

def Table.handles (t : Table) : List Nat := t.map (·.handle)

/-- The region is the one with the handle, and has the address. -/
def MonitorRegion.hit (r : MonitorRegion) (handle addr : Nat) : Bool :=
  decide (r.handle = handle ∧ r.start ≤ addr ∧ addr < r.end_)

/-- The region ends at the address, and a new one has the rest. -/
def Table.split (t : Table) (handle addr newHandle : Nat) : Table :=
  t.flatMap fun r => if r.hit handle addr then [⟨handle, r.start, addr⟩, ⟨newHandle, addr, r.end_⟩] else [r]

/-- The first region covers both, and the second is gone. -/
def Table.merge (t : Table) (h1 h2 : Nat) : Table :=
  match t.find? (·.handle = h2) with
  | none => t
  | some r2 => (t.filter (·.handle ≠ h2)).map fun r => if r.handle = h1 then { r with end_ := r2.end_ } else r

/-- A call changes the table only if it is accepted, and a split or a merge. -/
def Table.step (t : Table) (f : VmcallFrame) (a : VmcallAnswer) : Table :=
  if a.ok = false then t
  else if f.id = tycheRegionSplit then t.split f.value1 f.value2 a.ret1
  else if f.id = tycheRegionMerge then t.merge f.value1 f.value2
  else t

/-- The table after the events (latest first), from the one at boot. -/
def Table.after (t : Table) : List Event → Table
  | [] => t
  | .vmcall f a :: log => (t.after log).step f a
  | _ :: log => t.after log

/-- The monitor answers by its table: the handle of a new region is fresh, and
the enumeration goes through the regions one by one. -/
structure Table.Answers (t : Table) (f : VmcallFrame) (a : VmcallAnswer) : Prop where
  fresh : f.id = tycheRegionSplit → (∃ r ∈ t, r.hit f.value1 f.value2 = true) → a.ret1 ∉ t.handles
  size : f.id = tycheConfigNbRegions → a.ret1 = t.length
  entry : f.id = tycheConfigReadRegion → ∀ r ∈ t[f.value1]?, a.ret1 = r.handle
  info : f.id = tycheRegionGetInfo → ∀ r ∈ t, r.handle = f.value1 → a.ret1 = r.start ∧ a.ret2 = r.end_

instance (t : Table) (f : VmcallFrame) (a : VmcallAnswer) : Decidable (t.Answers f a) :=
  decidable_of_iff ((f.id = tycheRegionSplit → (∃ r ∈ t, r.hit f.value1 f.value2 = true) → a.ret1 ∉ t.handles) ∧
      (f.id = tycheConfigNbRegions → a.ret1 = t.length) ∧
      (f.id = tycheConfigReadRegion → ∀ r ∈ t[f.value1]?, a.ret1 = r.handle) ∧
      (f.id = tycheRegionGetInfo → ∀ r ∈ t, r.handle = f.value1 → a.ret1 = r.start ∧ a.ret2 = r.end_))
    ⟨fun h => ⟨h.1, h.2.1, h.2.2.1, h.2.2.2⟩, fun h => ⟨h.fresh, h.size, h.entry, h.info⟩⟩

/-- Every call the monitor accepted was answered by its table. -/
def Table.Kept (t : Table) : List Event → Prop
  | [] => True
  | .vmcall f a :: log => (a.ok = true → (t.after log).Answers f a) ∧ t.Kept log
  | _ :: log => t.Kept log

instance Table.decidableKept (t : Table) : (log : List Event) → Decidable (t.Kept log)
  | [] => isTrue trivial
  | .vmcall _ _ :: log =>
    have := t.decidableKept log
    inferInstanceAs (Decidable (_ ∧ _))
  | .alloc _ :: log => t.decidableKept log
  | .dealloc _ :: log => t.decidableKept log

theorem Table.Kept.suffix {t : Table} {log log' : List Event} (h : t.Kept log') (hs : log <:+ log') : t.Kept log := by
  obtain ⟨evs, rfl⟩ := hs
  induction evs with
  | nil => exact h
  | cons e evs ih =>
    cases e with
    | vmcall f a => exact ih h.2
    | alloc p => exact ih h
    | dealloc o => exact ih h

theorem Table.step_refused {t : Table} {f : VmcallFrame} {a : VmcallAnswer} (h : a.ok = false) : t.step f a = t := if_pos h

theorem Table.step_other {t : Table} {f : VmcallFrame} {a : VmcallAnswer} {n : Nat} (hid : f.id = n)
    (hsplit : n ≠ tycheRegionSplit) (hmerge : n ≠ tycheRegionMerge) : t.step f a = t := by
  rw [Table.step, hid, if_neg hsplit, if_neg hmerge, ite_self]

/-! ## Splits and merges of a table -/

section Table

variable {t t' : Table} {handle addr newHandle h1 h2 : Nat}

theorem Table.split_perm (h : t.Perm t') : (t.split handle addr newHandle).Perm (t'.split handle addr newHandle) :=
  h.flatMap_right _

/-- Regions of other handles are not split. -/
theorem Table.split_of_notMem (h : handle ∉ t.handles) : t.split handle addr newHandle = t := by
  induction t with
  | nil => rfl
  | cons r t ih =>
    rw [Table.handles, List.map_cons, List.mem_cons, not_or] at h
    have hr : r.hit handle addr = false := decide_eq_false fun hhit => h.1 hhit.1.symm
    have ht : Table.split t handle addr newHandle = t := ih h.2
    rw [Table.split] at ht
    rw [Table.split, List.flatMap_cons, hr, ht]
    rfl

/-- The one region of the handle is split. -/
theorem Table.split_cons {r : MonitorRegion} (hr : r.hit handle addr = true) (h : handle ∉ t.handles) :
    Table.split (r :: t) handle addr newHandle = ⟨handle, r.start, addr⟩ :: ⟨newHandle, addr, r.end_⟩ :: t := by
  have ht : Table.split t handle addr newHandle = t := Table.split_of_notMem h
  rw [Table.split] at ht
  rw [Table.split, List.flatMap_cons, hr, ht]
  rfl

theorem Table.find_handle {r : MonitorRegion} (hnodup : t.handles.Nodup) (hr : r ∈ t) :
    t.find? (·.handle = r.handle) = some r := by
  induction t with
  | nil => cases hr
  | cons q t ih =>
    obtain ⟨hq, hnodup⟩ := List.nodup_cons.1 hnodup
    rcases List.mem_cons.1 hr with rfl | hr
    · exact List.find?_cons_of_pos (by simp)
    · have hne : q.handle ≠ r.handle := fun heq => hq (List.mem_map.2 ⟨r, hr, heq.symm⟩)
      rw [List.find?_cons_of_neg (by simpa using hne)]
      exact ih hnodup hr

theorem Table.merge_perm (h : t.Perm t') (hnodup : t.handles.Nodup) : (t.merge h1 h2).Perm (t'.merge h1 h2) := by
  have hfind : t.find? (·.handle = h2) = t'.find? (·.handle = h2) := by
    cases ht : t.find? (·.handle = h2) with
    | none =>
      rw [List.find?_eq_none] at ht
      exact (List.find?_eq_none.2 fun r hr => ht r (h.mem_iff.2 hr)).symm
    | some r =>
      obtain rfl : r.handle = h2 := by simpa using List.find?_some ht
      have hnodup' : Table.handles t' |>.Nodup := (h.map _).nodup_iff.1 hnodup
      exact (Table.find_handle hnodup' (h.mem_iff.1 (List.mem_of_find?_eq_some ht))).symm
  rw [Table.merge, Table.merge, hfind]
  split
  · exact h
  · exact (h.filter _).map _

/-- The second region is dropped, and the first one has its end. -/
theorem Table.merge_cons {r1 r2 : MonitorRegion} (hnodup : Table.handles (r1 :: r2 :: t) |>.Nodup) :
    Table.merge (r1 :: r2 :: t) r1.handle r2.handle = { r1 with end_ := r2.end_ } :: t := by
  have hfind : List.find? (·.handle = r2.handle) (r1 :: r2 :: t) = some r2 := Table.find_handle hnodup (by simp)
  simp only [Table.handles, List.map_cons, List.nodup_cons, List.mem_cons, not_or] at hnodup
  obtain ⟨⟨h12, h1⟩, h2, -⟩ := hnodup
  have hrest : ∀ r ∈ t, r.handle ≠ r1.handle ∧ r.handle ≠ r2.handle := fun r hr =>
    ⟨fun heq => h1 (heq ▸ List.mem_map_of_mem hr), fun heq => h2 (heq ▸ List.mem_map_of_mem hr)⟩
  have hfilter : List.filter (·.handle ≠ r2.handle) (r1 :: r2 :: t) = r1 :: t := by
    rw [List.filter_cons_of_pos (by simpa using h12), List.filter_cons_of_neg (by simp), List.filter_eq_self.2]
    exact fun r hr => by simpa using (hrest r hr).2
  have hmap : t.map (fun r => if r.handle = r1.handle then { r with end_ := r2.end_ } else r) = t := by
    rw [List.map_congr_left fun r hr => if_neg (hrest r hr).1, List.map_id']
  rw [Table.merge, hfind]
  dsimp only
  rw [hfilter, List.map_cons, hmap, if_pos rfl]

end Table

/-! ## The mirror -/

/-- The region an entry tracks. -/
def Capability.region (c : Capability) : MonitorRegion := ⟨c.handle, c.start, c.end_⟩

/-- The entries track the regions of the table, each once. -/
structure Mirrors (boot : Table) (s : Tracker) : Prop where
  perm : (s.capabilities.map (·.region)).Perm (boot.after s.log)
  nodup : (s.capabilities.map (·.handle)).Nodup

section Mirrors

variable {boot : Table} {s t : Tracker}

theorem handles_region (l : List Capability) : Table.handles (l.map (·.region)) = l.map (·.handle) := by
  rw [Table.handles, List.map_map]
  rfl

/-- The table, with the region of an entry in front. -/
theorem Mirrors.table (h : Mirrors boot s) {c : Cursor Capability} (hl : s.capabilities = c.list) :
    (boot.after s.log).Perm (c.elem.region :: c.remove.map (·.region)) ∧ c.elem.handle ∉ c.remove.map (·.handle) ∧
      (boot.after s.log).handles.Nodup := by
  have hperm := h.perm
  have hnodup := h.nodup
  have hhandles : (boot.after s.log).handles.Perm (s.capabilities.map (·.handle)) := by
    rw [← handles_region]
    exact (h.perm.map _).symm
  refine ⟨?_, ?_, hhandles.nodup_iff.2 hnodup⟩
  · rw [hl] at hperm
    exact hperm.symm.trans (c.list_perm.map _)
  · rw [hl] at hnodup
    exact (List.nodup_cons.1 ((c.list_perm.map _).nodup_iff.1 hnodup)).1

/-- The entries keep their handles and ranges, and the monitor its table. -/
theorem Mirrors.same (h : Mirrors boot s) (hcaps : t.capabilities.map (·.region) = s.capabilities.map (·.region))
    (htable : boot.after t.log = boot.after s.log) : Mirrors boot t := by
  refine ⟨by rw [hcaps, htable]; exact h.perm, ?_⟩
  rw [← handles_region, hcaps, handles_region]
  exact h.nodup

theorem region_put {c : Cursor Capability} {e : Capability} (h : e.region = c.elem.region) :
    (c.put e).list.map (·.region) = c.list.map (·.region) := by
  simp [Cursor.list, h]

theorem Mirrors.split {c : Capability} {addr : Nat} (h : Mirrors boot s) (hm : Micro s (.split c addr) t)
    (hkept : boot.Kept t.log) : Mirrors boot t := by
  cases hm with
  | split c _ a hl hs ha =>
    obtain ⟨hperm, hrest, -⟩ := h.table hl
    have hhit : c.elem.region.hit c.elem.handle addr = true := by
      simp [splittable, contains] at hs
      exact decide_eq_true ⟨rfl, hs.2⟩
    have hfresh : a.ret1 ∉ s.capabilities.map (·.handle) := by
      rw [← handles_region]
      have hnew := (hkept.1 ha).fresh rfl ⟨c.elem.region, hperm.mem_iff.2 (List.mem_cons_self ..), hhit⟩
      exact fun hmem => hnew ((h.perm.map _).mem_iff.1 hmem)
    have htable : boot.after (.vmcall (splitFrame c.elem.handle addr) a :: .alloc (some s.heap) :: s.log) =
        (boot.after s.log).split c.elem.handle addr a.ret1 := by
      rw [Table.after, Table.step, ha]
      rfl
    constructor
    · have hsplit : ((boot.after s.log).split c.elem.handle addr a.ret1).Perm
          (⟨c.elem.handle, c.elem.start, addr⟩ :: ⟨a.ret1, addr, c.elem.end_⟩ :: c.remove.map (·.region)) :=
        (Table.split_perm hperm).trans (List.Perm.of_eq (Table.split_cons hhit (by rwa [handles_region])))
      dsimp only
      rw [htable, List.map_append]
      refine List.Perm.trans ?_ hsplit.symm
      refine (List.perm_append_singleton _ _).trans (((Cursor.list_perm _).map _).cons _ |>.trans ?_)
      exact List.Perm.swap ..
    · rw [List.map_append]
      refine (List.perm_append_singleton _ _).nodup_iff.2 (List.nodup_cons.2 ?_)
      have hsame : ((c.put { c.elem with end_ := addr }).list.map (·.handle)) = s.capabilities.map (·.handle) := by
        rw [hl]
        simp [Cursor.list]
      rw [hsame]
      exact ⟨hfresh, h.nodup⟩

theorem Mirrors.merge {c d : Capability} (h : Mirrors boot s) (hm : Micro s (.merge c d) t) : Mirrors boot t := by
  cases hm with
  | merge l l' _ _ a hl hc hd hadj hacc ha =>
    have hperm : (s.capabilities.map (·.region)).Perm (c.region :: d.region :: (l ++ l').map (·.region)) := by
      have hcaps : s.capabilities.Perm (c :: d :: (l ++ l')) := by
        rw [hl]
        exact List.perm_middle.trans (List.perm_middle.cons c)
      exact hcaps.map _
    have hnodup : (Table.handles (c.region :: d.region :: (l ++ l').map (·.region))).Nodup := by
      have hhandles := (hperm.map MonitorRegion.handle).nodup_iff
      refine hhandles.1 ?_
      have hold := h.nodup
      rwa [← handles_region] at hold
    have htable : boot.after (.dealloc (.capa d) :: .vmcall (mergeFrame c.handle d.handle) a :: s.log) =
        (boot.after s.log).merge c.handle d.handle := by
      show (boot.after s.log).step (mergeFrame c.handle d.handle) a = _
      rw [Table.step, ha]
      rfl
    constructor
    · have hmerge : ((boot.after s.log).merge c.handle d.handle).Perm
          (⟨c.handle, c.start, d.end_⟩ :: (l ++ l').map (·.region)) := by
        refine (Table.merge_perm (h.perm.symm.trans hperm) ?_).trans (List.Perm.of_eq (Table.merge_cons hnodup))
        exact ((h.perm.symm.trans hperm).map _).nodup_iff.2 hnodup
      dsimp only
      rw [htable]
      refine List.Perm.trans ?_ hmerge.symm
      exact (@List.perm_middle _ _ l l').map Capability.region
    · have hold := h.nodup
      rw [hl] at hold
      refine hold.sublist ?_
      simp only [List.map_append, List.map_cons]
      exact ((List.sublist_cons_self ..).cons_cons _).append_left _

theorem deliverFrame_id {dom handle tpe : Nat} : (deliverFrame dom handle tpe).id = tycheDomainGrantRegion ∨
    (deliverFrame dom handle tpe).id = tycheDomainShareRegion := by
  unfold deliverFrame
  split
  · exact .inl rfl
  · exact .inr rfl

/-- **Every effect keeps the mirror.** -/
theorem Mirrors.micro {e : Effect} (h : Mirrors boot s) (hm : Micro s e t) (hkept : boot.Kept t.log) : Mirrors boot t := by
  cases e with
  | idle =>
    cases hm with
    | noMemory => exact h.same rfl rfl
    | refused f a ha => exact h.same rfl (Table.step_refused ha)
    | abandoned f a obj ha => exact h.same rfl (Table.step_refused ha)
  | split c addr => exact h.split hm hkept
  | deliver c tpe r =>
    cases hm with
    | deliver c dom _ a hl =>
      refine h.same ?_ ?_
      · rw [hl]
        exact region_put rfl
      · rcases deliverFrame_id with hid | hid
        · exact Table.step_other hid (by decide) (by decide)
        · exact Table.step_other hid (by decide) (by decide)
  | revoke c r =>
    cases hm with
    | revoke c r status a hl =>
      refine h.same ?_ (Table.step_other (n := tycheDomainRevokRegion) rfl (by decide) (by decide))
      rw [hl]
      exact region_put rfl
  | merge c d => exact h.merge hm

end Mirrors

/-! ## After `init_domain` -/

theorem Table.after_alloc {boot : Table} {env : Env} {s s' : Tracker} {p} (h : alloc env s = (p, s')) :
    boot.after s'.log = boot.after s.log ∧ s'.capabilities = s.capabilities := by
  rcases alloc_cases h with ⟨-, rfl⟩ | ⟨-, rfl⟩ <;> exact ⟨rfl, rfl⟩

/-- A call that is neither a split nor a merge, and what the table says of its answer. -/
theorem Table.after_call1 {boot : Table} {env : Env} {f : VmcallFrame} {s s' : Tracker} {r : Nat}
    (h : tycheCall1 env f s = (some r, s')) {n : Nat} (hid : f.id = n) (hsplit : n ≠ tycheRegionSplit)
    (hmerge : n ≠ tycheRegionMerge) (hkept : boot.Kept s'.log) :
    boot.after s'.log = boot.after s.log ∧ s'.capabilities = s.capabilities ∧
      ∃ a, a.ret1 = r ∧ (boot.after s.log).Answers f a := by
  obtain ⟨a, rfl, ⟨hok, hr⟩ | ⟨-, hr⟩⟩ := tycheCall1_cases h
  · exact ⟨Table.step_other hid hsplit hmerge, rfl, a, (Option.some.inj hr).symm, hkept.1 hok⟩
  · cases hr

theorem alloc_suffix {env : Env} {s s' : Tracker} {p} (h : alloc env s = (p, s')) : s.log <:+ s'.log := by
  rcases alloc_cases h with ⟨-, rfl⟩ | ⟨-, rfl⟩ <;> exact List.suffix_cons ..

theorem tycheCall1_suffix {env : Env} {f : VmcallFrame} {s s' : Tracker} {r} (h : tycheCall1 env f s = (r, s')) :
    s.log <:+ s'.log := by
  obtain ⟨a, rfl, -⟩ := tycheCall1_cases h
  exact List.suffix_cons ..

theorem tycheReadCapa_some {env : Env} {c capa : Capability} {s s' : Tracker} (h : tycheReadCapa env c s = (some capa, s')) :
    ∃ a, a.ok = true ∧ s' = { s with log := .vmcall { id := tycheRegionGetInfo, value1 := c.handle } a :: s.log } ∧
      capa.region = ⟨c.handle, a.ret1, a.ret2⟩ := by
  simp only [tycheReadCapa] at h
  split at h
  next hok =>
    cases h
    exact ⟨_, hok, rfl, rfl⟩
  next => cases h

theorem tycheReadCapa_suffix {env : Env} {c : Capability} {s s' : Tracker} {r} (h : tycheReadCapa env c s = (r, s')) :
    s.log <:+ s'.log := by
  obtain ⟨a, rfl, -⟩ := tycheReadCapa_cases h
  exact List.suffix_cons ..

/-- The log only grows in the enumeration. -/
theorem readEntries_suffix {env : Env} {n i : Nat} {s s' : Tracker} {b} (h : readEntries env n i s = (b, s')) :
    s.log <:+ s'.log := by
  induction n generalizing i s with
  | zero =>
    cases h
    exact List.suffix_rfl
  | succ n ih =>
    simp only [readEntries] at h
    split at h
    · next ha =>
      cases h
      exact alloc_suffix ha
    next ha =>
    split at h
    · next hentry =>
      cases h
      exact (alloc_suffix ha).trans (tycheCall1_suffix hentry)
    next hentry =>
    have hu := (alloc_suffix ha).trans (tycheCall1_suffix hentry)
    split at h
    · next hinfo =>
      cases h
      exact hu.trans (tycheReadCapa_suffix hinfo)
    next hinfo =>
    have hv := hu.trans (tycheReadCapa_suffix hinfo)
    split at h
    · cases h
      exact hv
    · have hrest := ih h
      exact hv.trans hrest

/-- The enumeration: what was read so far are the first regions of the table. -/
theorem readEntries_mirrors {env : Env} {boot : Table} {n i : Nat} {s s' : Tracker}
    (h : readEntries env n i s = (true, s')) (hlog : boot.after s.log = boot)
    (hcaps : s.capabilities.map (·.region) = boot.take i) (hn : i + n ≤ boot.length) (hkept : boot.Kept s'.log) :
    s'.capabilities.map (·.region) = boot.take (i + n) ∧ boot.after s'.log = boot := by
  induction n generalizing i s with
  | zero =>
    cases h
    exact ⟨hcaps, hlog⟩
  | succ n ih =>
    simp only [readEntries] at h
    split at h
    · cases h
    next ptr t ha =>
    split at h
    · cases h
    next handle u hentry =>
    split at h
    · cases h
    next capa v hinfo =>
    split at h
    · cases h
    have hsuffix := readEntries_suffix h
    have hkeptv : boot.Kept v.log := hkept.suffix hsuffix
    obtain ⟨hlogt, hcapst⟩ := @Table.after_alloc boot _ _ _ _ ha
    have hkeptu : boot.Kept u.log := hkeptv.suffix (tycheReadCapa_suffix hinfo)
    obtain ⟨hlogu, hcapsu, b, rfl, hanswer⟩ := Table.after_call1 hentry (n := tycheConfigReadRegion) rfl
      (by decide) (by decide) hkeptu
    rw [hlogt, hlog] at hlogu hanswer
    obtain ⟨a, hok, rfl, hregion⟩ := tycheReadCapa_some hinfo
    have hi : i < boot.length := by omega
    -- The answers are the handle and the range of region `i`.
    have hhandle : b.ret1 = boot[i].handle := hanswer.entry rfl _ (List.getElem?_eq_getElem hi)
    have hrange := (hkeptv.1 hok).info rfl boot[i] (by rw [hlogu]; exact List.getElem_mem hi) hhandle.symm
    have hread : capa.region = boot[i] := by
      rw [hregion, hhandle, hrange.1, hrange.2]
    have hlogv : boot.after (.vmcall { id := tycheRegionGetInfo, value1 := b.ret1 } a :: u.log) = boot := by
      rw [Table.after, Table.step_other (n := tycheRegionGetInfo) rfl (by decide) (by decide), hlogu]
    have hnext := ih h hlogv ?_ (by omega)
    · rwa [Nat.add_right_comm, Nat.add_assoc] at hnext
    · have hcaps' : u.capabilities.map (·.region) = boot.take i := by rw [hcapsu, hcapst, hcaps]
      rw [List.map_append, hcaps', List.map_singleton]
      have hlast : Capability.region { capa with status := .active } = boot[i] := hread
      rw [hlast, List.take_append_getElem]

theorem initDomain_mirrors {env : Env} {boot : Table} {s : Tracker} (h : initDomain env true true true .boot = (0, s))
    (hnodup : boot.handles.Nodup) (hkept : boot.Kept s.log) : Mirrors boot s := by
  simp only [initDomain] at h
  split at h
  · simp at h
  split at h
  · simp at h
  next id t hid =>
  split at h
  · simp at h
  next nb u hsize =>
  split at h
  case h_2 => simp at h
  next hread =>
  cases h
  have hkeptu : boot.Kept u.log := hkept.suffix (readEntries_suffix hread)
  have hsuffix := tycheCall1_suffix hsize
  have hkeptt : boot.Kept t.log := hkeptu.suffix hsuffix
  obtain ⟨hlogt, hcapst, -⟩ := Table.after_call1 hid (n := tycheDomainGetOwnId) rfl (by decide) (by decide) hkeptt
  obtain ⟨hlogu, hcapsu, a, rfl, hanswer⟩ := Table.after_call1 hsize (n := tycheConfigNbRegions) rfl (by decide) (by decide)
    hkeptu
  have hlogt : boot.after t.log = boot := hlogt
  have hlogu : boot.after u.log = boot := hlogu.trans hlogt
  have hlen : a.ret1 = boot.length := by
    rw [hanswer.size rfl]
    exact congrArg List.length hlogt
  have hcaps : u.capabilities = [] := hcapsu.trans hcapst
  obtain ⟨hcaps, hlog⟩ := readEntries_mirrors hread hlogu (by rw [hcaps]; rfl) (by omega) hkept
  rw [Nat.zero_add, hlen, List.take_length] at hcaps
  refine ⟨by rw [hcaps, hlog], ?_⟩
  rw [← handles_region, hcaps]
  exact hnodup

/-- The list of a run mirrors the table of a monitor that answers by it. -/
theorem Run.mirrors {env : Env} {boot : Table} {allowed} {x y : Config} (hnodup : boot.handles.Nodup) (hx : Started env x)
    (h : Run env allowed x y) (hkept : boot.Kept y.tracker.log) : Mirrors boot y.tracker := by
  have hstart : boot.Kept x.tracker.log → Mirrors boot x.tracker := by
    obtain ⟨s, hs, rfl⟩ := hx
    exact initDomain_mirrors hs hnodup
  exact (h.invariant (P := fun s => boot.Kept s.log → Mirrors boot s) hx.ledger
    (fun _ s t _ hs hm hkept => (hs (hkept.suffix hm.log_suffix)).micro hm hkept) hstart).2 hkept

/-- **The list mirrors the monitor's table**: after a successful `init_domain`
and any transfers and revocations, accepted or not, the entries are the
regions of the table, under distinct handles. -/
theorem capabilities_mirror {env : Env} {boot : Table} {x y : Config} (hnodup : boot.handles.Nodup)
    (hx : Started env x) (h : Run env apiCall x y) (hkept : boot.Kept y.tracker.log) :
    (y.tracker.capabilities.map (·.region)).Perm (boot.after y.tracker.log) ∧
      (y.tracker.capabilities.map (·.handle)).Nodup := by
  have hmirrors := h.mirrors hnodup hx hkept
  exact ⟨hmirrors.perm, hmirrors.nodup⟩

/-- A monitor with two regions: a share from the middle of the first one, a
refused grant, and the revocation of the share. -/
theorem capabilities_mirror_granting :
    let env := Env.granting [(0, 0x10000), (0x20000, 0x30000)]
    let boot : Table := [⟨0, 0, 0x10000⟩, ⟨1, 0x20000, 0x30000⟩]
    let y := (Config.start env).played env [.transfer 1 0x2000 0x4000 shared, .transfer 2 0x2000 0x4000 confidential,
      .revoke 1 0x2000 0x4000]
    (y.tracker.capabilities.map (·.region)).Perm (boot.after y.tracker.log) ∧
      (y.tracker.capabilities.map (·.handle)).Nodup :=
  capabilities_mirror (by decide) (Config.started (by decide))
    (Run.of_plays (fun _ call _ => call.isApi) _ (by decide) fun _ _ _ h => h) (by decide)

end Tyche.Capa
