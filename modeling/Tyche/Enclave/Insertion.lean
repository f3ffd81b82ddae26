/-
The loops of `add_region` and `add_merge_global` in the heap. The cursor moves
both ways over the list, and the region that is inserted grows: but a loop
over `n` nodes is left after at most `2 * n + 1` iterations, without an access
to NULL or to a node that was freed, and the list is then the one that the
scan over sequences gives.
-/
import Tyche.Dll.List
import Tyche.Enclave.Regions
import Tyche.Lib.Loop

namespace Tyche.Enclave

open Tyche.Dll Tyche.Loop Tyche.Ranges
open Tyche.Capa (Outcome)

/-! ## The heap -/

/-- A list in the heap, and the nodes that are allocated, less their links. -/
structure Heap (α ρ : Type) where
  list : DllList α
  records : α → Option ρ

section Heap

variable {α ρ : Type}

/-- A pointer that can be followed, if it is not NULL. -/
def Heap.allocated (h : Heap α ρ) (p : Option α) : Bool := p.all fun a => (h.records a).isSome

variable [DecidableEq α]

def Heap.write (h : Heap α ρ) (a : α) (r : ρ) : Heap α ρ := { h with records := Function.update h.records a (some r) }

def Heap.kfree (h : Heap α ρ) (a : α) : Heap α ρ := { h with records := Function.update h.records a none }

/-- `dll_remove`, which follows the links of the node. -/
def Heap.remove (h : Heap α ρ) (elem : α) : Option (Heap α ρ) :=
  if h.allocated (h.list.prev elem) ∧ h.allocated (h.list.next elem) then some { h with list := dllRemove h.list elem }
  else none

/-- `dll_add_after`, which follows the `next` of the node before. -/
def Heap.addAfter (h : Heap α ρ) (elem previous : α) : Option (Heap α ρ) :=
  if h.allocated (some elem) ∧ h.allocated (some previous) ∧ h.allocated (h.list.next previous) then
    some { h with list := dllAddAfter h.list elem previous }
  else none

/-- `dll_add_first`, which follows the head. -/
def Heap.addFirst (h : Heap α ρ) (elem : α) : Option (Heap α ρ) :=
  if h.allocated (some elem) ∧ h.allocated h.list.head then some { h with list := dllAddFirst h.list elem } else none

end Heap

/-! ## The loops -/

/-- The variables of a loop: `iter`, `prev` and `region` (`reg_iter`, `prev`
and `e_reg` in `add_region`), and the heap. -/
structure Scan (α ρ : Type) where
  heap : Heap α ρ
  iter : Option α
  prev : Option α
  region : Option α

/-- How the loop is left: at its end or with a `break`, with `goto failure`,
or in an access to what is not allocated. -/
inductive Exit
  | done
  | failure
  | fault
deriving DecidableEq, Repr

section Loops

variable {α ρ : Type}

/-- Before the first iteration. -/
def Scan.start (h : Heap α ρ) (region : α) : Scan α ρ := ⟨h, h.list.head, none, some region⟩

/-- `next != NULL && overlap(iter->start, region->end, next->start, next->end)`,
unless that follows a pointer to what is not allocated. -/
def Heap.overlapsNext (h : Heap α ρ) (m : Merging Nat ρ) (next : Option α) (e n : ρ) : Option Bool :=
  match next with
  | none => some false
  | some next => (h.records next).map fun f => overlap (m.start e) (m.stop n) (m.start f) (m.stop f)

variable [DecidableEq α]

/-- The node is merged into the region and removed. The loop goes on from the
node before, or from the head. -/
def Scan.stepBack (s : Scan α ρ) (iter region : α) (merged : ρ) : Next (Scan α ρ) (Exit × Scan α ρ) :=
  match (s.heap.write region merged).remove iter with
  | none => .leave (.fault, s)
  | some heap =>
    let heap := heap.kfree iter
    match s.prev with
    | none => .again { s with heap := heap, iter := heap.list.head, prev := none }
    | some prev =>
      if heap.allocated (some prev) then .again { s with heap := heap, iter := some prev, prev := heap.list.prev prev }
      else .leave (.fault, s)

/-- The body of the loop at a node, whose record is `e`; that of the region is
`n`. What is compared and merged of them is `m`. -/
def Scan.entry (m : Merging Nat ρ) (s : Scan α ρ) (iter region : α) (e n : ρ) : Next (Scan α ρ) (Exit × Scan α ρ) :=
  if overlap (m.start e) (m.stop e) (m.start n) (m.stop n) then .leave (.failure, s)
  -- The region is on the left.
  else if m.start e > m.stop n ∨ (m.start e = m.stop n ∧ m.same e n = false) then .leave (.done, s)
  else if m.start e = m.stop n ∧ m.mergeRight n e = true then
    .leave (.done, { s with heap := (s.heap.write iter (m.extend n e)).kfree region, region := none, prev := none })
  -- The region is on the right.
  else if m.stop e < m.start n ∨ (m.stop e = m.start n ∧ m.same e n = false) then
    .again { s with prev := some iter, iter := s.heap.list.next iter }
  else if m.stop e = m.start n ∧ m.mergeLeft e n = true then
    match s.heap.overlapsNext m (s.heap.list.next iter) e n with
    | none => .leave (.fault, s)
    | some true => .leave (.failure, s)
    | some false => s.stepBack iter region (m.absorb e n)
  else .again { s with prev := some iter, iter := s.heap.list.next iter }

/-- An iteration: the condition of the loop, and its body. -/
def Scan.step (m : Merging Nat ρ) (s : Scan α ρ) : Next (Scan α ρ) (Exit × Scan α ρ) :=
  match s.iter, s.region with
  | none, _ => .leave (.done, s)
  | some _, none => .leave (.fault, s)
  | some iter, some region =>
    match s.heap.records iter, s.heap.records region with
    | some e, some n => s.entry m iter region e n
    | _, _ => .leave (.fault, s)

/-- What follows the loop: nothing if the region was merged, else it is added
to the list. -/
def Scan.finish (s : Scan α ρ) : Option (Heap α ρ) :=
  match s.region, s.prev with
  | none, _ => some s.heap
  | some region, some prev => s.heap.addAfter region prev
  | some region, none => s.heap.addFirst region

end Loops

/-! ## A place in the list -/

section Places

variable {α ρ : Type} {h : Heap α ρ} {l l₁ l₂ : List (α × ρ)} {a : α} {r : ρ}

/-- The list in the heap has these nodes, with these records. -/
structure Heap.Holds (h : Heap α ρ) (l : List (α × ρ)) : Prop where
  list : Represents h.list (l.map Prod.fst)
  records : ∀ p ∈ l, h.records p.1 = some p.2

/-- A node that is allocated, and not in the list. -/
structure Heap.Apart (h : Heap α ρ) (l : List (α × ρ)) (a : α) (r : ρ) : Prop where
  notMem : a ∉ l.map Prod.fst
  record : h.records a = some r

theorem Heap.Apart.ne (ha : h.Apart l a r) {p : α × ρ} (hp : p ∈ l) : p.1 ≠ a :=
  fun heq => ha.notMem (heq ▸ List.mem_map_of_mem hp)

theorem Heap.Holds.allocated (hl : h.Holds l) {p : Option (α × ρ)} (hp : ∀ q, p = some q → q ∈ l) :
    h.allocated (p.map Prod.fst) = true := by
  cases p with
  | none => rfl
  | some q => simp [Heap.allocated, hl.records q (hp q rfl)]

theorem Heap.Apart.allocated (ha : h.Apart l a r) : h.allocated (some a) = true := by
  simp [Heap.allocated, ha.record]

/-- A node in the list, and its neighbours. -/
theorem Heap.Holds.split {p : α × ρ} (hl : h.Holds (l₁ ++ p :: l₂)) :
    h.list.prev p.1 = l₁.getLast?.map Prod.fst ∧ h.list.next p.1 = l₂.head?.map Prod.fst ∧
      (∀ q ∈ l₁, q.1 ≠ p.1) ∧ ∀ q ∈ l₂, q.1 ≠ p.1 := by
  have hlist := hl.list
  rw [List.map_append, List.map_cons] at hlist
  obtain ⟨hprev, hnext, -, -, hp₁, hp₂, -⟩ := hlist.split
  refine ⟨by simpa using hprev, by simpa using hnext, fun q hq heq => hp₁ ?_, fun q hq heq => hp₂ ?_⟩
  · exact heq ▸ List.mem_map_of_mem hq
  · exact heq ▸ List.mem_map_of_mem hq

variable [DecidableEq α]

/-- The node apart is written. -/
theorem Heap.Apart.write_holds (ha : h.Apart l a r) (hl : h.Holds l) (r' : ρ) : (h.write a r').Holds l :=
  ⟨hl.list, fun p hp => (Function.update_of_ne (ha.ne hp) ..).trans (hl.records p hp)⟩

/-- It is freed. -/
theorem Heap.Apart.kfree_holds (ha : h.Apart l a r) (hl : h.Holds l) : (h.kfree a).Holds l :=
  ⟨hl.list, fun p hp => (Function.update_of_ne (ha.ne hp) ..).trans (hl.records p hp)⟩

/-- A node that was not allocated is, and its links are initialised. -/
theorem Heap.Holds.alloc (hl : h.Holds l) (ha : h.records a = none) (r : ρ) :
    ({ h.write a r with list := dllInitElem h.list a } : Heap α ρ).Holds l ∧
      ({ h.write a r with list := dllInitElem h.list a } : Heap α ρ).Apart l a r := by
  have hne : ∀ p ∈ l, p.1 ≠ a := by
    rintro p hp rfl
    rw [hl.records p hp] at ha
    cases ha
  have hnotMem : a ∉ l.map Prod.fst := by simpa using fun r' hr' => hne (a, r') hr' rfl
  refine ⟨⟨dllInitElem_represents hl.list hnotMem, fun p hp => ?_⟩, hnotMem, Function.update_self ..⟩
  exact (Function.update_of_ne (hne p hp) ..).trans (hl.records p hp)

/-- A node of the list is written. -/
theorem Heap.Holds.write {p : α × ρ} (hl : h.Holds (l₁ ++ p :: l₂)) (r' : ρ) :
    (h.write p.1 r').Holds (l₁ ++ (p.1, r') :: l₂) := by
  obtain ⟨-, -, hp₁, hp₂⟩ := hl.split
  refine ⟨by simpa [Heap.write] using hl.list, fun q hq => ?_⟩
  rcases List.mem_append.1 hq with hq | hq
  · exact (Function.update_of_ne (hp₁ q hq) ..).trans (hl.records q (List.mem_append_left _ hq))
  · rcases List.mem_cons.1 hq with rfl | hq
    · exact Function.update_self ..
    · exact (Function.update_of_ne (hp₂ q hq) ..).trans (hl.records q (by simp [hq]))

/-- A node is removed and freed. -/
theorem Heap.Holds.remove {p : α × ρ} (hl : h.Holds (l₁ ++ p :: l₂)) :
    ∃ h', h.remove p.1 = some h' ∧ (h'.kfree p.1).Holds (l₁ ++ l₂) ∧ h'.records = h.records := by
  obtain ⟨hprev, hnext, hp₁, hp₂⟩ := hl.split
  have hlist := hl.list
  rw [List.map_append, List.map_cons] at hlist
  refine ⟨{ h with list := dllRemove h.list p.1 }, ?_, ⟨?_, fun q hq => ?_⟩, rfl⟩
  · rw [Heap.remove, if_pos]
    rw [hprev, hnext]
    exact ⟨hl.allocated fun q hq => List.mem_append_left _ (List.mem_of_getLast? hq),
      hl.allocated fun q hq => by simp [List.mem_of_head? hq]⟩
  · rw [List.map_append]
    exact dllRemove_represents hlist
  · have hne : q.1 ≠ p.1 := (List.mem_append.1 hq).elim (hp₁ q) (hp₂ q)
    exact (Function.update_of_ne hne ..).trans (hl.records q (by simpa [or_left_comm] using .inr (List.mem_append.1 hq)))

/-- A node is added after another one. -/
theorem Heap.Apart.addAfter {p : α × ρ} (ha : h.Apart (l₁ ++ p :: l₂) a r) (hl : h.Holds (l₁ ++ p :: l₂)) :
    ∃ h', h.addAfter a p.1 = some h' ∧ h'.Holds (l₁ ++ p :: (a, r) :: l₂) := by
  obtain ⟨-, hnext, -⟩ := hl.split
  have hlist := hl.list
  have hnotMem := ha.notMem
  rw [List.map_append, List.map_cons] at hlist hnotMem
  refine ⟨{ h with list := dllAddAfter h.list a p.1 }, ?_, ?_, fun q hq => ?_⟩
  · rw [Heap.addAfter, if_pos]
    rw [hnext]
    refine ⟨ha.allocated, ?_, hl.allocated fun q hq => by simp [List.mem_of_head? hq]⟩
    simp [Heap.allocated, hl.records p (by simp)]
  · rw [List.map_append, List.map_cons, List.map_cons]
    exact dllAddAfter_represents hlist hnotMem
  · have hq : q = (a, r) ∨ q ∈ l₁ ++ p :: l₂ := by
      simp only [List.mem_append, List.mem_cons] at hq ⊢
      tauto
    rcases hq with rfl | hq
    · exact ha.record
    · exact hl.records q hq

/-- A node is added at the head. -/
theorem Heap.Apart.addFirst (ha : h.Apart l a r) (hl : h.Holds l) :
    ∃ h', h.addFirst a = some h' ∧ h'.Holds ((a, r) :: l) := by
  refine ⟨{ h with list := dllAddFirst h.list a }, ?_, dllAddFirst_represents hl.list ha.notMem, ?_⟩
  · rw [Heap.addFirst, if_pos]
    rw [hl.list.head, List.head?_map]
    exact ⟨ha.allocated, hl.allocated fun q hq => List.mem_of_head? hq⟩
  · exact List.forall_mem_cons.2 ⟨ha.record, hl.records⟩

end Places

/-! ## The loop is the scan -/

section Position

variable {α ρ : Type}

/-- What the loop has passed, nearest first, what is ahead of it, and the
region. -/
structure Position (α ρ : Type) where
  before : List (α × ρ)
  rest : List (α × ρ)
  region : α × ρ

/-- The nodes of the list. -/
def Position.nodes (g : Position α ρ) : List (α × ρ) := g.before.reverse ++ g.rest

/-- What is left to do: a node that is ahead may be passed, and then removed
from behind. -/
def Position.left (g : Position α ρ) : Nat := g.before.length + 2 * g.rest.length

/-- Where the region ends up. -/
def Position.placed (m : Merging Nat ρ) (g : Position α ρ) : Bool × List (α × ρ) :=
  (m.carrying α).place g.before g.rest g.region

/-- The loop is at the position. -/
structure Scan.At (s : Scan α ρ) (g : Position α ρ) : Prop where
  nodes : s.heap.Holds g.nodes
  apart : s.heap.Apart g.nodes g.region.1 g.region.2
  iter : s.iter = g.rest.head?.map Prod.fst
  prev : s.prev = g.before.head?.map Prod.fst
  region : s.region = some g.region.1

variable {m : Merging Nat ρ} {s : Scan α ρ} {g g' : Position α ρ} {before after : List (α × ρ)} {p n : α × ρ}
  {t : Exit × Scan α ρ}

theorem Scan.start_at {h : Heap α ρ} {l : List (α × ρ)} {a : α} {r : ρ} (hl : h.Holds l) (ha : h.Apart l a r) :
    (Scan.start h a).At ⟨[], l, (a, r)⟩ :=
  ⟨hl, ha, hl.list.head.trans List.head?_map, rfl, rfl⟩

/-- Where the loop goes on when the node was removed. -/
def Position.back (before after : List (α × ρ)) (region : α × ρ) : Position α ρ :=
  match before with
  | [] => ⟨[], after, region⟩
  | q :: before => ⟨before, q :: after, region⟩

theorem Position.back_nodes (before after : List (α × ρ)) (region : α × ρ) :
    (back before after region).nodes = before.reverse ++ after := by
  cases before <;> simp [back, nodes]

/-- The scan at a node decides as the loop does. -/
theorem Position.placed_cons (m : Merging Nat ρ) (before after : List (α × ρ)) (p n : α × ρ) :
    (⟨before, p :: after, n⟩ : Position α ρ).placed m =
    if overlap (m.start p.2) (m.stop p.2) (m.start n.2) (m.stop n.2) then (false, before.reverse ++ p :: after)
    else if m.start p.2 > m.stop n.2 ∨ (m.start p.2 = m.stop n.2 ∧ m.same p.2 n.2 = false) then
      (true, before.reverse ++ n :: p :: after)
    else if m.start p.2 = m.stop n.2 ∧ m.mergeRight n.2 p.2 = true then
      (true, before.reverse ++ (p.1, m.extend n.2 p.2) :: after)
    else if m.stop p.2 < m.start n.2 ∨ (m.stop p.2 = m.start n.2 ∧ m.same p.2 n.2 = false) then
      (⟨p :: before, after, n⟩ : Position α ρ).placed m
    else if m.stop p.2 = m.start n.2 ∧ m.mergeLeft p.2 n.2 = true then
      if after.head?.any fun f => overlap (m.start p.2) (m.stop n.2) (m.start f.2) (m.stop f.2) then
        (false, before.reverse ++ p :: after)
      else (back before after (n.1, m.absorb p.2 n.2)).placed m
    else (⟨p :: before, after, n⟩ : Position α ρ).placed m := by
  simp only [overlap_eq]
  rw [placed, Merging.place.eq_def]
  cases before <;> rfl

/-- The node after this one is compared. -/
theorem Scan.At.overlapsNext (h : s.At ⟨before, p :: after, n⟩) (e r : ρ) :
    s.heap.overlapsNext m (s.heap.list.next p.1) e r =
      some (after.head?.any fun f => overlap (m.start e) (m.stop r) (m.start f.2) (m.stop f.2)) := by
  have hnodes : s.heap.Holds (before.reverse ++ p :: after) := h.nodes
  rw [hnodes.split.2.1]
  cases after with
  | nil => rfl
  | cons f after =>
    have hf : s.heap.records f.1 = some f.2 := hnodes.records f (by simp)
    simp [Heap.overlapsNext, hf]

variable [DecidableEq α]

/-- How the loop is to be left at the position. -/
def Position.Due (m : Merging Nat ρ) (g : Position α ρ) : Exit × Scan α ρ → Prop
  | (.done, s) => ∃ h l, s.finish = some h ∧ g.placed m = (true, l) ∧ h.Holds l
  | (.failure, s) => ∃ l r, g.placed m = (false, l) ∧ s.heap.Holds l ∧ s.heap.Apart l g.region.1 r
  | (.fault, _) => False

theorem Position.Due.congr (h : g'.Due m t) (hplaced : g'.placed m = g.placed m) (hregion : g'.region.1 = g.region.1) :
    g.Due m t := by
  obtain ⟨exit, s⟩ := t
  cases exit with
  | done =>
    obtain ⟨h', l, hfinish, hl, hholds⟩ := h
    exact ⟨h', l, hfinish, hplaced ▸ hl, hholds⟩
  | failure =>
    obtain ⟨l, r, hl, hholds, hapart⟩ := h
    exact ⟨l, r, hplaced ▸ hl, hholds, hregion ▸ hapart⟩
  | fault => exact h

/-- The region is added behind what was passed. -/
theorem Scan.At.finish (h : s.At g) : ∃ h', s.finish = some h' ∧ h'.Holds (g.before.reverse ++ g.region :: g.rest) := by
  obtain ⟨before, rest, region⟩ := g
  have hnodes := h.nodes
  have hapart := h.apart
  cases before with
  | nil =>
    obtain ⟨h', hadd, hholds⟩ := hapart.addFirst hnodes
    exact ⟨h', by rw [Scan.finish, h.region, h.prev]; exact hadd, hholds⟩
  | cons q before =>
    simp only [Position.nodes, List.reverse_cons, List.append_assoc, List.singleton_append] at hnodes hapart
    obtain ⟨h', hadd, hholds⟩ := hapart.addAfter hnodes
    refine ⟨h', by rw [Scan.finish, h.region, h.prev]; exact hadd, ?_⟩
    simpa only [List.reverse_cons, List.append_assoc, List.singleton_append] using hholds

/-- A node is merged into the region and removed. -/
theorem Scan.At.stepBack (h : s.At ⟨before, p :: after, n⟩) (r : ρ) :
    ∃ s', s.stepBack p.1 n.1 r = .again s' ∧ s'.At (Position.back before after (n.1, r)) := by
  have hapart : s.heap.Apart (before.reverse ++ p :: after) n.1 n.2 := h.apart
  have hnodes : (s.heap.write n.1 r).Holds (before.reverse ++ p :: after) := hapart.write_holds h.nodes r
  obtain ⟨h', hremove, hholds, hrecords⟩ := hnodes.remove
  have hne : n.1 ≠ p.1 := (hapart.ne (by simp)).symm
  have hapart' : (h'.kfree p.1).Apart (before.reverse ++ after) n.1 r := by
    refine ⟨fun hmem => hapart.notMem ?_, ?_⟩
    · simp only [List.map_append, List.map_cons, List.mem_append, List.mem_cons] at hmem ⊢
      tauto
    · show Function.update h'.records p.1 none n.1 = some r
      rw [Function.update_of_ne hne, hrecords]
      exact Function.update_self ..
  rw [Scan.stepBack, hremove]
  dsimp only
  cases before with
  | nil =>
    rw [h.prev]
    refine ⟨_, rfl, hholds, hapart', ?_, rfl, h.region⟩
    exact hholds.list.head.trans List.head?_map
  | cons q before =>
    have hsplit : (h'.kfree p.1).Holds (before.reverse ++ q :: after) := by simpa using hholds
    -- `prev` is in the list still, so its links can be read.
    have hq : (h'.kfree p.1).allocated (some q.1) = true := by
      simp [Heap.allocated, hsplit.records q (by simp)]
    rw [h.prev]
    dsimp only [List.head?_cons, Option.map_some]
    rw [if_pos hq]
    refine ⟨_, rfl, hsplit, ?_, rfl, ?_, h.region⟩
    · rw [Position.back_nodes]
      exact hapart'
    · show (h'.kfree p.1).list.prev q.1 = before.head?.map Prod.fst
      rw [hsplit.split.1, List.getLast?_reverse]

/-- A node is passed. -/
theorem Scan.At.pass (h : s.At ⟨before, p :: after, n⟩)
    (hplaced : (⟨before, p :: after, n⟩ : Position α ρ).placed m = (⟨p :: before, after, n⟩ : Position α ρ).placed m) :
    (Next.again { s with prev := some p.1, iter := s.heap.list.next p.1 }).Meets Scan.At Position.left (Position.Due m)
      ⟨before, p :: after, n⟩ := by
  have heq : (⟨p :: before, after, n⟩ : Position α ρ).nodes = (⟨before, p :: after, n⟩ : Position α ρ).nodes := by
    simp [Position.nodes]
  refine ⟨⟨p :: before, after, n⟩, ?_, ?_, fun t ht => ht.congr hplaced.symm rfl⟩
  · exact ⟨heq ▸ h.nodes, heq ▸ h.apart, h.nodes.split.2.1, rfl, h.region⟩
  · -- What is passed counts once, what is ahead twice.
    simp only [Position.left, List.length_cons]
    omega

/-- The region is merged into the node. -/
theorem Scan.At.extend (h : s.At ⟨before, p :: after, n⟩) (e : ρ)
    (hplaced : (⟨before, p :: after, n⟩ : Position α ρ).placed m = (true, before.reverse ++ (p.1, e) :: after)) :
    (⟨before, p :: after, n⟩ : Position α ρ).Due m
      (.done, { s with heap := (s.heap.write p.1 e).kfree n.1, region := none, prev := none }) := by
  have hnodes : s.heap.Holds (before.reverse ++ p :: after) := h.nodes
  have hapart : s.heap.Apart (before.reverse ++ p :: after) n.1 n.2 := h.apart
  have hapart' : (s.heap.write p.1 e).Apart (before.reverse ++ (p.1, e) :: after) n.1 n.2 := by
    refine ⟨by simpa using hapart.notMem, ?_⟩
    exact (Function.update_of_ne (hapart.ne (by simp)).symm ..).trans hapart.record
  exact ⟨_, _, rfl, hplaced, hapart'.kfree_holds (hnodes.write e)⟩

/-- The node is merged into the region. -/
theorem Scan.At.absorb (h : s.At ⟨before, p :: after, n⟩) (r : ρ)
    (hplaced : (⟨before, p :: after, n⟩ : Position α ρ).placed m = (Position.back before after (n.1, r)).placed m) :
    (s.stepBack p.1 n.1 r).Meets Scan.At Position.left (Position.Due m) ⟨before, p :: after, n⟩ := by
  obtain ⟨s', hback, hat⟩ := h.stepBack r
  rw [hback]
  refine ⟨_, hat, ?_, fun t ht => ht.congr hplaced.symm ?_⟩
  · cases before <;> simp [Position.back, Position.left]
  · cases before <;> rfl

/-- The body of the loop does what the scan does at the node. -/
theorem Scan.At.entry (h : s.At ⟨before, p :: after, n⟩) (m : Merging Nat ρ) :
    (s.entry m p.1 n.1 p.2 n.2).Meets Scan.At Position.left (Position.Due m) ⟨before, p :: after, n⟩ := by
  have hplaced := Position.placed_cons m before after p n
  unfold Scan.entry
  by_cases hmeet : overlap (m.start p.2) (m.stop p.2) (m.start n.2) (m.stop n.2) = true
  · rw [if_pos hmeet] at hplaced ⊢
    exact ⟨_, _, hplaced, h.nodes, h.apart⟩
  rw [if_neg hmeet] at hplaced ⊢
  by_cases hbreak : m.start p.2 > m.stop n.2 ∨ (m.start p.2 = m.stop n.2 ∧ m.same p.2 n.2 = false)
  · rw [if_pos hbreak] at hplaced ⊢
    obtain ⟨h', hfinish, hholds⟩ := h.finish
    exact ⟨h', _, hfinish, hplaced, hholds⟩
  rw [if_neg hbreak] at hplaced ⊢
  by_cases hright : m.start p.2 = m.stop n.2 ∧ m.mergeRight n.2 p.2 = true
  · rw [if_pos hright] at hplaced ⊢
    exact h.extend _ hplaced
  rw [if_neg hright] at hplaced ⊢
  by_cases hskip : m.stop p.2 < m.start n.2 ∨ (m.stop p.2 = m.start n.2 ∧ m.same p.2 n.2 = false)
  · rw [if_pos hskip] at hplaced ⊢
    exact h.pass hplaced
  rw [if_neg hskip] at hplaced ⊢
  by_cases hleft : m.stop p.2 = m.start n.2 ∧ m.mergeLeft p.2 n.2 = true
  · rw [if_pos hleft] at hplaced ⊢
    rw [h.overlapsNext]
    cases hnext : after.head?.any fun f => overlap (m.start p.2) (m.stop n.2) (m.start f.2) (m.stop f.2) with
    | true =>
      rw [hnext, if_pos rfl] at hplaced
      exact ⟨_, _, hplaced, h.nodes, h.apart⟩
    | false =>
      rw [hnext, if_neg (by simp)] at hplaced
      exact h.absorb _ hplaced
  · rw [if_neg hleft] at hplaced ⊢
    exact h.pass hplaced

/-- **An iteration**: the loop is left as the scan ends, or goes on with less
to do. -/
theorem Scan.At.step (h : s.At g) (m : Merging Nat ρ) : (s.step m).Meets Scan.At Position.left (Position.Due m) g := by
  obtain ⟨before, rest, n⟩ := g
  cases rest with
  | nil =>
    obtain ⟨h', hfinish, hholds⟩ := h.finish
    have hplaced : (⟨before, [], n⟩ : Position α ρ).placed m = (true, before.reverse ++ [n]) := by
      rw [Position.placed, Merging.place.eq_def]
    rw [Scan.step, h.iter]
    exact ⟨h', _, hfinish, hplaced, hholds⟩
  | cons p after =>
    have hp : s.heap.records p.1 = some p.2 := h.nodes.records p (by simp [Position.nodes])
    have hstep : s.step m = s.entry m p.1 n.1 p.2 n.2 := by
      rw [Scan.step, h.iter, h.region]
      simp [hp, h.apart.record]
    rw [hstep]
    exact h.entry m

/-- **The loop ends**, as the scan of the list does. -/
theorem Scan.run_ends {h : Heap α ρ} {l : List (α × ρ)} {a : α} {r : ρ} (m : Merging Nat ρ) (hl : h.Holds l)
    (ha : h.Apart l a r) :
    ∃ t, run (Scan.step m) (2 * l.length + 1) (.start h a) = some t ∧ (⟨[], l, (a, r)⟩ : Position α ρ).Due m t := by
  have hend := Loop.run_ends Scan.At Position.left (Position.Due m) (fun _ _ hat => hat.step m)
    (Scan.start_at hl ha)
  rwa [Position.left, List.length_nil, Nat.zero_add] at hend

end Position

/-! ## `add_region` and `add_merge_global` -/

/-- What the loop of `add_region` compares, in machine words, and merges. -/
def regionWords : Merging Nat Region where
  start := (·.start)
  stop := (·.end_)
  same regIter eReg := decide (regIter.tpe = eReg.tpe ∧ regIter.flags = eReg.flags)
  mergeLeft regIter eReg := decide (eReg.src = add64 regIter.src (sub64 regIter.end_ regIter.start) ∧
    regIter.tpe = eReg.tpe ∧ regIter.flags = eReg.flags)
  mergeRight eReg regIter := decide (regIter.src = add64 eReg.src (sub64 eReg.end_ eReg.start) ∧
    regIter.tpe = eReg.tpe ∧ regIter.flags = eReg.flags)
  absorb regIter eReg := { eReg with start := regIter.start }
  extend eReg regIter := { regIter with start := eReg.start, src := eReg.src }

section Functions

variable {α ρ : Type} [DecidableEq α]

/-- An iteration of the loop of `add_region`. -/
def addRegionStep : Scan α Region → Next (Scan α Region) (Exit × Scan α Region) := Scan.step regionWords

/-- An iteration of the loop of `add_merge_global`. -/
def addMergeStep : Scan α PaRegion → Next (Scan α PaRegion) (Exit × Scan α PaRegion) := Scan.step paMerging

/-- What follows a loop, with what is done at the label `failure`. -/
def Scan.settle (failure : Heap α ρ → Heap α ρ) : Exit × Scan α ρ → Outcome Int × Heap α ρ
  | (.done, s) =>
    match s.finish with
    | none => (.fault, s.heap)
    | some h => (.ret 0, h)
  | (.failure, s) => (.ret (-1), failure s.heap)
  | (.fault, s) => (.fault, s.heap)

/-- `add_region` in the heap, if `n` iterations are enough; `eReg` is what
`kmalloc` returns. -/
def addRegionIn (n : Nat) (eReg : Option α) (req : AddRegion) (h : Heap α Region) : Option (Outcome Int × Heap α Region) :=
  if regionCheck req = false then some (.ret (-1), h)
  else
    match eReg with
    | none => some (.ret (-1), h)
    | some eReg =>
      let h := { h.write eReg req.region with list := dllInitElem h.list eReg }
      (run addRegionStep n (.start h eReg)).map (Scan.settle (·.kfree eReg))

/-- `add_merge_global` in the heap, if `n` iterations are enough. -/
def addMergeGlobalIn (n : Nat) (region : Option α) (h : Heap α PaRegion) : Option (Outcome Int × Heap α PaRegion) :=
  match region with
  | none => some (.ret (-1), h)
  | some region => (run addMergeStep n (.start h region)).map (Scan.settle id)

/-- **The insertion loops end.** In a heap that has a list of any nodes, and
any region apart from it, the loops are left after at most `2 * n + 1`
iterations for `n` nodes, and not because they lost their way. -/
theorem insertions_end :
    (∀ (h : Heap α Region) (l : List (α × Region)) (eReg : α) (r : Region), h.Holds l → h.Apart l eReg r →
      ∃ exit s, run addRegionStep (2 * l.length + 1) (.start h eReg) = some (exit, s) ∧ exit ≠ .fault) ∧
    ∀ (h : Heap α PaRegion) (l : List (α × PaRegion)) (region : α) (r : PaRegion), h.Holds l → h.Apart l region r →
      ∃ exit s, run addMergeStep (2 * l.length + 1) (.start h region) = some (exit, s) ∧ exit ≠ .fault := by
  refine ⟨fun h l eReg r hl ha => ?_, fun h l region r hl ha => ?_⟩
  · obtain ⟨⟨exit, s⟩, hrun, hdue⟩ := Scan.run_ends regionWords hl ha
    exact ⟨exit, s, hrun, fun heq => by subst heq; exact hdue⟩
  · obtain ⟨⟨exit, s⟩, hrun, hdue⟩ := Scan.run_ends paMerging hl ha
    exact ⟨exit, s, hrun, fun heq => by subst heq; exact hdue⟩

end Functions

section Sample

variable {ρ : Type} {r₁ r₂ r : ρ}

/-- A list of the nodes 1 and 2, and the node 3 apart. -/
def twoNodes (r₁ r₂ r : ρ) : Heap Nat ρ where
  list := ⟨some 1, some 2, fun a => if a = 2 then some 1 else none, fun a => if a = 1 then some 2 else none⟩
  records a := if a = 1 then some r₁ else if a = 2 then some r₂ else if a = 3 then some r else none

theorem twoNodes_holds : (twoNodes r₁ r₂ r).Holds [(1, r₁), (2, r₂)] :=
  ⟨⟨rfl, rfl, ⟨rfl, rfl, rfl, rfl, trivial⟩, by simp⟩, by simp [twoNodes]⟩

theorem twoNodes_apart : (twoNodes r₁ r₂ r).Apart [(1, r₁), (2, r₂)] 3 r := ⟨by simp, rfl⟩

end Sample

/-- Both nodes are merged into the region: the second one, and then, a step
back, the first one. -/
theorem insertions_end_back :
    (∃ exit s, run addRegionStep 5 (.start (twoNodes { start := 0x1000, end_ := 0x2000, src := 0x9000, flags := teRead, tpe := 4 }
        { start := 0x2000, end_ := 0x3000, src := 0x9000, flags := teRead, tpe := 4 }
        { start := 0x3000, end_ := 0x4000, src := 0xa000, flags := teRead, tpe := 4 }) 3) = some (exit, s) ∧ exit ≠ .fault) ∧
    ∃ exit s, run addMergeStep 5 (.start (twoNodes ⟨0x1000, 0x2000, 7⟩ ⟨0x2000, 0x3000, 7⟩ ⟨0x3000, 0x4000, 7⟩) 3) =
      some (exit, s) ∧ exit ≠ .fault :=
  ⟨insertions_end.1 _ [_, _] 3 _ twoNodes_holds twoNodes_apart, insertions_end.2 _ [_, _] 3 _ twoNodes_holds twoNodes_apart⟩

/-! ## They are the insertions in sequences -/

section Functions

variable {α ρ : Type} [DecidableEq α] {m : Merging Nat ρ} {h : Heap α ρ} {l : List (α × ρ)} {a : α} {r : ρ}

theorem Position.Due.settle {g : Position α ρ} {t : Exit × Scan α ρ} (hdue : g.Due m t) {failure : Heap α ρ → Heap α ρ}
    (hfailure : ∀ {h l r}, Heap.Holds h l → Heap.Apart h l g.region.1 r → (failure h).Holds l) :
    ∃ h', Scan.settle failure t = (.ret (status (g.placed m)).1, h') ∧ h'.Holds (status (g.placed m)).2 := by
  obtain ⟨exit, s⟩ := t
  cases exit with
  | done =>
    obtain ⟨h', l, hfinish, hl, hholds⟩ := hdue
    rw [hl, Scan.settle, hfinish]
    exact ⟨h', rfl, hholds⟩
  | failure =>
    obtain ⟨l, r, hl, hholds, hapart⟩ := hdue
    rw [hl]
    exact ⟨failure s.heap, rfl, hfailure hholds hapart⟩
  | fault => exact hdue.elim

/-- The loop and what follows it: the scan of the list, in the heap. -/
theorem Scan.run_settle {m' : Merging Nat ρ} {P : ρ → Prop} (hom : Merging.Hom m m' id P) (hkeeps : m.Keeps P) (hl : h.Holds l)
    (ha : h.Apart l a r) (hP : ∀ p ∈ l, P p.2) (hr : P r) {failure : Heap α ρ → Heap α ρ}
    (hfailure : ∀ {h l r}, Heap.Holds h l → Heap.Apart h l a r → (failure h).Holds l) :
    ∃ h' l', (run (Scan.step m) (2 * l.length + 1) (.start h a)).map (Scan.settle failure) =
        some (.ret (status (m'.place [] (l.map Prod.snd) r)).1, h') ∧ h'.Holds l' ∧
      l'.map Prod.snd = (status (m'.place [] (l.map Prod.snd) r)).2 ∧ ∀ p ∈ l', P p.2 := by
  obtain ⟨t, hrun, hdue⟩ := Scan.run_ends m hl ha
  obtain ⟨h', hsettle, hholds⟩ := hdue.settle hfailure
  have hplace : m'.place (([] : List (α × ρ)).map Prod.snd) (l.map Prod.snd) (a, r).2 =
      ((m.carrying α).place [] l (a, r)).map id (List.map Prod.snd) :=
    hom.carrying.place hkeeps.carrying (by simp) hP hr
  rw [List.map_nil] at hplace
  refine ⟨h', _, by rw [hrun, hplace, Option.map_some, hsettle]; rfl, hholds, by rw [hplace]; rfl, ?_⟩
  exact hkeeps.carrying.place (by simp) hP hr

theorem add64_sub64 {a b : Nat} (c : Nat) (h : b ≤ a) : add64 c (sub64 a b) = add64 c (a - b) := by
  unfold add64 sub64
  omega

/-- The source of a region that does not wrap is compared as in `regionMerging`. -/
theorem regionWords_hom : Merging.Hom regionWords regionMerging id fun r => r.start ≤ r.end_ where
  start _ := rfl
  stop _ := rfl
  same _ _ := rfl
  mergeLeft e n he _ := by
    show decide (n.src = add64 e.src (e.end_ - e.start) ∧ _) = decide (n.src = add64 e.src (sub64 e.end_ e.start) ∧ _)
    rw [add64_sub64 e.src he]
    rfl
  mergeRight n e hn _ := by
    show decide (e.src = add64 n.src (n.end_ - n.start) ∧ _) = decide (e.src = add64 n.src (sub64 n.end_ n.start) ∧ _)
    rw [add64_sub64 n.src hn]
    rfl
  absorb _ _ := rfl
  extend _ _ := rfl

theorem regionWords_keeps : regionWords.Keeps fun r => r.start ≤ r.end_ where
  absorb _ ht he hn := Nat.le_trans he (Nat.le_trans (Nat.le_of_eq ht) hn)
  extend _ ht hn he := Nat.le_trans hn (Nat.le_trans (Nat.le_of_eq ht.symm) he)

/-- **`add_region` in the heap** returns, and leaves the list that it leaves
of the sequence. -/
theorem addRegionIn_eq {h : Heap α Region} {l : List (α × Region)} (hl : h.Holds l) (hle : ∀ p ∈ l, p.2.start ≤ p.2.end_)
    {eReg : Option α} (hnew : ∀ a, eReg = some a → h.records a = none) (req : AddRegion) :
    ∃ h' l', addRegionIn (2 * l.length + 1) eReg req h =
        some (.ret (addRegion eReg.isSome req (l.map Prod.snd)).1, h') ∧ h'.Holds l' ∧
      l'.map Prod.snd = (addRegion eReg.isSome req (l.map Prod.snd)).2 ∧ ∀ p ∈ l', p.2.start ≤ p.2.end_ := by
  unfold addRegionIn addRegion
  by_cases hcheck : regionCheck req = false
  · rw [if_pos hcheck, if_pos hcheck]
    exact ⟨h, l, rfl, hl, rfl, hle⟩
  rw [if_neg hcheck, if_neg hcheck]
  cases eReg with
  | none => exact ⟨h, l, rfl, hl, rfl, hle⟩
  | some a =>
    obtain ⟨hl', ha⟩ := hl.alloc (hnew a rfl) req.region
    have hreq : req.start ≤ req.end_ := Nat.le_of_lt (regionCheck_lt (by simpa using hcheck))
    obtain ⟨h', l', hrun, hholds, hmap, hle'⟩ := Scan.run_settle regionWords_hom regionWords_keeps hl' ha hle hreq
      fun hholds hapart => hapart.kfree_holds hholds
    rw [← addRegionLoop_eq] at hrun hmap
    exact ⟨h', l', hrun, hholds, hmap, hle'⟩

/-- **`add_merge_global` in the heap** returns, and leaves the list that it
leaves of the sequence. -/
theorem addMergeGlobalIn_eq {h : Heap α PaRegion} {l : List (α × PaRegion)} {region : α} {r : PaRegion} (hl : h.Holds l)
    (ha : h.Apart l region r) :
    ∃ h' l', addMergeGlobalIn (2 * l.length + 1) (some region) h =
        some (.ret (addMergeGlobal (l.map Prod.snd) r).1, h') ∧ h'.Holds l' ∧
      l'.map Prod.snd = (addMergeGlobal (l.map Prod.snd) r).2 := by
  have hkeeps : paMerging.Keeps fun _ => True := ⟨fun _ _ _ _ => trivial, fun _ _ _ _ => trivial⟩
  obtain ⟨h', l', hrun, hholds, hmap, -⟩ := Scan.run_settle (.refl _) hkeeps hl ha (fun _ _ => trivial) trivial
    fun hholds _ => hholds
  rw [← addMergeLoop_eq] at hrun hmap
  exact ⟨h', l', hrun, hholds, hmap⟩

theorem addRegionIn_unique {h : Heap α Region} {n n' : Nat} {eReg : Option α} {req : AddRegion}
    {out out' : Outcome Int × Heap α Region} (heq : addRegionIn n eReg req h = some out)
    (heq' : addRegionIn n' eReg req h = some out') : out = out' := by
  unfold addRegionIn at heq heq'
  split at heq
  next hcheck =>
    rw [if_pos hcheck] at heq'
    exact Option.some.inj (heq.symm.trans heq')
  next hcheck =>
    rw [if_neg hcheck] at heq'
    cases eReg with
    | none => exact Option.some.inj (heq.symm.trans heq')
    | some a =>
      obtain ⟨t, hrun, rfl⟩ := Option.map_eq_some_iff.1 heq
      obtain ⟨t', hrun', rfl⟩ := Option.map_eq_some_iff.1 heq'
      rw [run_unique hrun hrun']

/-- The heaps that requests lead to from an empty list, and the requests
accepted, latest first. A node that `kmalloc` returns is not allocated. -/
inductive AddedIn : Heap α Region → List AddRegion → Prop
  | init (h : Heap α Region) : AddedIn { h with list := dllInitList h.list } []
  | step {h h' : Heap α Region} {accepted : List AddRegion} {n : Nat} {eReg : Option α} {req : AddRegion} {ret : Int}
      (hin : AddedIn h accepted) (hnew : ∀ a, eReg = some a → h.records a = none)
      (hadd : addRegionIn n eReg req h = some (.ret ret, h')) :
      AddedIn h' (if ret = 0 then req :: accepted else accepted)

theorem addMergeGlobalIn_unique {h : Heap α PaRegion} {n n' : Nat} {region : Option α} {out out' : Outcome Int × Heap α PaRegion}
    (heq : addMergeGlobalIn n region h = some out) (heq' : addMergeGlobalIn n' region h = some out') : out = out' := by
  unfold addMergeGlobalIn at heq heq'
  cases region with
  | none => exact Option.some.inj (heq.symm.trans heq')
  | some region =>
    obtain ⟨t, hrun, rfl⟩ := Option.map_eq_some_iff.1 heq
    obtain ⟨t', hrun', rfl⟩ := Option.map_eq_some_iff.1 heq'
    rw [run_unique hrun hrun']

/-- The heaps that pages lead to from an empty list, and the pages accepted,
latest first. Each is copied to a node that is not allocated before. -/
inductive PlacedIn : Heap α PaRegion → List PaRegion → Prop
  | init (h : Heap α PaRegion) : PlacedIn { h with list := dllInitList h.list } []
  | step {h h' : Heap α PaRegion} {accepted : List PaRegion} {n : Nat} {copy : α} {page : PaRegion} {ret : Int}
      (hin : PlacedIn h accepted) (hlt : page.start < page.end_) (hnew : h.records copy = none)
      (hadd : addMergeGlobalIn n (some copy) { h.write copy page with list := dllInitElem h.list copy } = some (.ret ret, h')) :
      PlacedIn h' (if ret = 0 then page :: accepted else accepted)

/-- **Pages in the heap are merged.** Whatever they were, and in which order,
the list in the heap is the canonical one of the pages accepted, and the next
page returns 0 exactly when it is free of them. -/
theorem PlacedIn.merges_pages {h : Heap α PaRegion} {accepted : List PaRegion} (hin : PlacedIn h accepted) :
    ∃ l, h.Holds l ∧ Canonical (l.map Prod.snd) ∧ (∀ a t, Typed (l.map Prod.snd) a t ↔ Typed accepted a t) ∧
      ∀ copy page, h.records copy = none → page.start < page.end_ → ∃ ret h',
        addMergeGlobalIn (2 * l.length + 1) (some copy) { h.write copy page with list := dllInitElem h.list copy } =
          some (.ret ret, h') ∧ (ret = 0 ↔ Free accepted page) := by
  suffices hmerged : ∃ l, h.Holds l ∧ Merged (l.map Prod.snd, accepted) by
    obtain ⟨l, hl, hmerged⟩ := hmerged
    refine ⟨l, hl, hmerged.canonical, hmerged.typed, fun copy page hnew hlt => ?_⟩
    obtain ⟨hl', ha⟩ := hl.alloc hnew page
    obtain ⟨h', -, hadd, -⟩ := addMergeGlobalIn_eq hl' ha
    rcases hcall : addMergeGlobal (l.map Prod.snd) page with ⟨ret, pages⟩
    rw [hcall] at hadd
    refine ⟨_, h', hadd, ?_⟩
    rcases hmerged.addMergeGlobal_eq hlt ret pages hcall with ⟨rfl, hfree, -⟩ | ⟨rfl, hfree, -⟩ <;> simp [hfree]
  induction hin with
  | init h => exact ⟨[], ⟨⟨rfl, rfl, trivial, List.nodup_nil⟩, by simp⟩, merged_nil⟩
  | @step h h' accepted n copy page ret hin hlt hnew hadd ih =>
    obtain ⟨l, hl, hmerged⟩ := ih
    obtain ⟨hl', ha⟩ := hl.alloc hnew page
    obtain ⟨h'', l', hadd', hholds, hmap⟩ := addMergeGlobalIn_eq hl' ha
    obtain ⟨hret, rfl⟩ := Prod.mk.inj (addMergeGlobalIn_unique hadd hadd')
    obtain rfl := Outcome.ret.inj hret
    refine ⟨l', hholds, ?_⟩
    rcases hcall : addMergeGlobal (l.map Prod.snd) page with ⟨ret, pages⟩
    rw [hcall] at hmap
    rw [hmap]
    rcases hmerged.addMergeGlobal_eq hlt ret pages hcall with ⟨rfl, -, hplaced⟩ | ⟨rfl, -, rfl⟩
    · exact hplaced
    · exact hmerged

end Functions

/-- A heap with no node. -/
def noNodes (ρ : Type) : Heap Nat ρ := ⟨⟨none, none, fun _ => none, fun _ => none⟩, fun _ => none⟩

/-- The second page is merged with the first, and the third one is refused. -/
theorem PlacedIn.merges_pages_thrice : ∃ (h : Heap Nat PaRegion) (accepted : List PaRegion), PlacedIn h accepted ∧ accepted.length = 2 ∧
    ∃ l, h.Holds l ∧ Canonical (l.map Prod.snd) ∧ (∀ a t, Typed (l.map Prod.snd) a t ↔ Typed accepted a t) ∧
      ∀ copy page, h.records copy = none → page.start < page.end_ → ∃ ret h',
        addMergeGlobalIn (2 * l.length + 1) (some copy) { h.write copy page with list := dllInitElem h.list copy } =
          some (.ret ret, h') ∧ (ret = 0 ↔ Free accepted page) := by
  have hone := @PlacedIn.step Nat _ _ _ _ 1 1 ⟨0x2000, 0x3000, 7⟩ 0 (.init (noNodes PaRegion)) (by decide) rfl rfl
  have htwo := @PlacedIn.step Nat _ _ _ _ 3 2 ⟨0x1000, 0x2000, 7⟩ 0 hone (by decide) rfl rfl
  have hthree := @PlacedIn.step Nat _ _ _ _ 3 3 ⟨0x1000, 0x2000, 7⟩ (-1) htwo (by decide) rfl rfl
  exact ⟨_, _, hthree, rfl, PlacedIn.merges_pages hthree⟩

end Tyche.Enclave
