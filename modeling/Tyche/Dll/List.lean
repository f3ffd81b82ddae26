/-
The intrusive doubly linked list (`dll.h`): its macros as updates of the
links in the heap, and the sequences they implement.

The elements of `α` are the pointers other than NULL.
-/
import Mathlib.Data.List.Infix
import Mathlib.Logic.Function.Basic

namespace Tyche.Dll

variable {α : Type}

/-- A `dll_list`, and the links (`dll_elem`) of everything in the heap. -/
@[ext] structure DllList (α : Type) where
  head : Option α
  tail : Option α
  prev : α → Option α
  next : α → Option α

/-- `dll_init_list`. -/
def dllInitList (d : DllList α) : DllList α := { d with head := none, tail := none }

/-- `dll_is_empty`. -/
def dllIsEmpty (d : DllList α) : Bool := d.head.isNone && d.tail.isNone

section Macros

variable [DecidableEq α]

def DllList.setNext (d : DllList α) (a : α) (p : Option α) : DllList α := { d with next := Function.update d.next a p }

def DllList.setPrev (d : DllList α) (a : α) (p : Option α) : DllList α := { d with prev := Function.update d.prev a p }

/-- The write of a neighbour's `next`, unless there is none. -/
def DllList.setNextOf (d : DllList α) (neighbour : Option α) (p : Option α) : DllList α :=
  match neighbour with
  | none => d
  | some a => d.setNext a p

/-- The write of a neighbour's `prev`, unless there is none. -/
def DllList.setPrevOf (d : DllList α) (neighbour : Option α) (p : Option α) : DllList α :=
  match neighbour with
  | none => d
  | some a => d.setPrev a p

section Links

variable (d : DllList α) (a b : α) (p : Option α)

@[simp] theorem DllList.setNext_head : (d.setNext a p).head = d.head := rfl
@[simp] theorem DllList.setNext_tail : (d.setNext a p).tail = d.tail := rfl
@[simp] theorem DllList.setNext_prev : (d.setNext a p).prev = d.prev := rfl
@[simp] theorem DllList.setPrev_head : (d.setPrev a p).head = d.head := rfl
@[simp] theorem DllList.setPrev_tail : (d.setPrev a p).tail = d.tail := rfl
@[simp] theorem DllList.setPrev_next : (d.setPrev a p).next = d.next := rfl

@[simp] theorem DllList.setNext_next : (d.setNext a p).next b = if b = a then p else d.next b :=
  Function.update_apply ..

@[simp] theorem DllList.setPrev_prev : (d.setPrev a p).prev b = if b = a then p else d.prev b :=
  Function.update_apply ..

variable (n : Option α)

@[simp] theorem DllList.setNextOf_head : (d.setNextOf n p).head = d.head := by cases n <;> rfl
@[simp] theorem DllList.setNextOf_tail : (d.setNextOf n p).tail = d.tail := by cases n <;> rfl
@[simp] theorem DllList.setNextOf_prev : (d.setNextOf n p).prev = d.prev := by cases n <;> rfl
@[simp] theorem DllList.setPrevOf_head : (d.setPrevOf n p).head = d.head := by cases n <;> rfl
@[simp] theorem DllList.setPrevOf_tail : (d.setPrevOf n p).tail = d.tail := by cases n <;> rfl
@[simp] theorem DllList.setPrevOf_next : (d.setPrevOf n p).next = d.next := by cases n <;> rfl

@[simp] theorem DllList.setNextOf_next : (d.setNextOf n p).next b = if n = some b then p else d.next b := by
  cases n <;> simp [setNextOf, eq_comm]

@[simp] theorem DllList.setPrevOf_prev : (d.setPrevOf n p).prev b = if n = some b then p else d.prev b := by
  cases n <;> simp [setPrevOf, eq_comm]

end Links

/-- `dll_init_elem`. -/
def dllInitElem (d : DllList α) (elem : α) : DllList α :=
  let d := d.setPrev elem none
  d.setNext elem none

/-- `dll_add`. It follows the tail if there is a head. -/
def dllAdd (d : DllList α) (elem : α) : Option (DllList α) :=
  match d.head with
  | none => some { d with head := some elem, tail := some elem }
  | some _ =>
    match d.tail with
    | none => none
    | some tail =>
      let d := d.setNext tail (some elem)
      let d := d.setPrev elem d.tail
      some { d with tail := some elem }

/-- `dll_add_after`. -/
def dllAddAfter (d : DllList α) (elem previous : α) : DllList α :=
  let d := d.setNext elem (d.next previous)
  let d := d.setPrev elem (some previous)
  let d := d.setNext previous (some elem)
  let d := d.setPrevOf (d.next elem) (some elem)
  if d.tail = some previous then { d with tail := some elem } else d

/-- `dll_add_first`. -/
def dllAddFirst (d : DllList α) (elem : α) : DllList α :=
  let d := d.setPrev elem none
  let d := d.setNext elem d.head
  let d := d.setPrevOf d.head (some elem)
  let d := { d with head := some elem }
  if d.tail = none then { d with tail := some elem } else d

/-- `dll_remove`. -/
def dllRemove (d : DllList α) (elem : α) : DllList α :=
  let d := d.setNextOf (d.prev elem) (d.next elem)
  let d := d.setPrevOf (d.next elem) (d.prev elem)
  let d := if d.head = some elem then { d with head := d.next elem } else d
  let d := if d.tail = some elem then { d with tail := d.prev elem } else d
  let d := d.setNext elem none
  d.setPrev elem none

/-- The operations on a list, and the initialisation of an element. -/
inductive Op (α : Type)
  | initElem (elem : α)
  | add (elem : α)
  | addFirst (elem : α)
  | addAfter (elem previous : α)
  | remove (elem : α)
deriving DecidableEq, Repr

/-- The element an operation is about. -/
def Op.elem : Op α → α
  | .initElem elem | .add elem | .addFirst elem | .addAfter elem _ | .remove elem => elem

/-- What the macros do, unless they follow NULL. -/
def Op.apply (d : DllList α) : Op α → Option (DllList α)
  | .initElem elem => some (dllInitElem d elem)
  | .add elem => dllAdd d elem
  | .addFirst elem => some (dllAddFirst d elem)
  | .addAfter elem previous => some (dllAddAfter d elem previous)
  | .remove elem => some (dllRemove d elem)

/-! ## The sequences -/

/-- Insertion after an element. -/
def insertAfter (elem previous : α) : List α → List α
  | [] => []
  | a :: l => if a = previous then a :: elem :: l else a :: insertAfter elem previous l

/-- The operation on sequences. -/
def Op.onList (l : List α) : Op α → List α
  | .initElem _ => l
  | .add elem => l ++ [elem]
  | .addFirst elem => elem :: l
  | .addAfter elem previous => insertAfter elem previous l
  | .remove elem => l.erase elem

/-- What the callers owe: an element that comes in is not in the list, and its
links are NULL. -/
def Op.Allowed (d : DllList α) (l : List α) : Op α → Prop
  | .initElem elem => elem ∉ l
  | .add elem | .addFirst elem => elem ∉ l ∧ d.prev elem = none ∧ d.next elem = none
  | .addAfter elem previous => elem ∉ l ∧ d.prev elem = none ∧ d.next elem = none ∧ previous ∈ l
  | .remove elem => elem ∈ l

/-- The lists reached by the operations, in a heap of any contents, with the
sequences they stand for. -/
inductive Reached : DllList α → List α → Prop
  | init (d : DllList α) : Reached (dllInitList d) []
  | step {d d' : DllList α} {l : List α} {op : Op α} : Reached d l → op.Allowed d l → op.apply d = some d' →
      Reached d' (op.onList l)

end Macros

/-! ## The invariant -/

/-- The links of the elements of `l` between the neighbours `p` and `q`. -/
def Linked (d : DllList α) : Option α → List α → Option α → Prop
  | _, [], _ => True
  | p, a :: l, q => d.prev a = p ∧ d.next a = l.head?.or q ∧ Linked d (some a) l q

section Linked

variable {d d' : DllList α} {p q : Option α} {l l' : List α}

theorem linked_append : Linked d p (l ++ l') q ↔ Linked d p l (l'.head?.or q) ∧ Linked d (l.getLast?.or p) l' q := by
  induction l generalizing p with
  | nil => simp [Linked]
  | cons a l ih =>
    have hhead : ((l ++ l').head?.or q) = l.head?.or (l'.head?.or q) := by cases l <;> simp
    have hlast : (l.getLast?.or (some a)) = (a :: l).getLast?.or p := by
      cases l <;> simp [List.getLast?_cons]
    rw [List.cons_append, Linked, Linked, ih, hhead, hlast]
    simp [and_assoc]

theorem Linked.congr (h : Linked d p l q) (hsame : ∀ a ∈ l, d'.prev a = d.prev a ∧ d'.next a = d.next a) :
    Linked d' p l q := by
  induction l generalizing p with
  | nil => trivial
  | cons a l ih =>
    obtain ⟨hprev, hnext⟩ := hsame a (List.mem_cons_self ..)
    obtain ⟨h1, h2, h3⟩ := h
    exact ⟨hprev.trans h1, hnext.trans h2, ih h3 fun b hb => hsame b (List.mem_cons_of_mem _ hb)⟩

theorem Linked.prev_head (h : Linked d p l q) {a : α} (ha : l.head? = some a) : d.prev a = p := by
  cases l with
  | nil => cases ha
  | cons b l =>
    obtain rfl := Option.some.inj ha
    exact h.1

theorem Linked.next_last (h : Linked d p l q) {a : α} (ha : l.getLast? = some a) : d.next a = q := by
  induction l using List.reverseRecOn with
  | nil => cases ha
  | append_singleton l b _ =>
    rw [List.getLast?_concat] at ha
    obtain rfl := Option.some.inj ha
    exact (linked_append.1 h).2.2.1

/-- The ends get other neighbours. -/
theorem Linked.relink [DecidableEq α] {p' q' : Option α} (h : Linked d p l q) (hnodup : l.Nodup)
    (hprev : ∀ a ∈ l, d'.prev a = if l.head? = some a then p' else d.prev a)
    (hnext : ∀ a ∈ l, d'.next a = if l.getLast? = some a then q' else d.next a) : Linked d' p' l q' := by
  induction l generalizing p p' with
  | nil => trivial
  | cons a l ih =>
    obtain ⟨-, hnexta, h⟩ := h
    obtain ⟨ha, hnodup⟩ := List.nodup_cons.1 hnodup
    have hne : ∀ b ∈ l, a ≠ b := fun b hb heq => ha (heq ▸ hb)
    refine ⟨by simpa using hprev a (List.mem_cons_self ..), ?_, ih h hnodup (fun b hb => ?_) fun b hb => ?_⟩
    · have hnext := hnext a (List.mem_cons_self ..)
      cases l with
      | nil => simpa using hnext
      | cons c l =>
        have hlast : (a :: c :: l).getLast? ≠ some a := fun heq =>
          ha (List.mem_of_getLast? (List.getLast?_cons_cons.symm.trans heq))
        rw [if_neg hlast] at hnext
        rw [hnext, hnexta]
        rfl
    · rw [hprev b (List.mem_cons_of_mem _ hb), List.head?_cons, if_neg (by simpa using hne b hb)]
      split
      next hhead => exact h.prev_head hhead
      next => rfl
    · rw [hnext b (List.mem_cons_of_mem _ hb)]
      cases l with
      | nil => cases hb
      | cons c l => rw [List.getLast?_cons_cons]

end Linked

/-- Where a traversal leads: from `p` along `f` it meets the elements of the
list, and then NULL. -/
def Follows (f : α → Option α) : Option α → List α → Prop
  | none, [] => True
  | some a, b :: l => a = b ∧ Follows f (f a) l
  | _, _ => False

/-- The heap holds the sequence. -/
structure Represents (d : DllList α) (l : List α) : Prop where
  head : d.head = l.head?
  tail : d.tail = l.getLast?
  linked : Linked d none l none
  nodup : l.Nodup

section Represents

variable {d : DllList α} {l : List α}

theorem Linked.follows_next {p : Option α} (h : Linked d p l none) : Follows d.next l.head? l := by
  induction l generalizing p with
  | nil => trivial
  | cons a l ih =>
    obtain ⟨-, hnext, h⟩ := h
    refine ⟨rfl, ?_⟩
    rw [hnext, Option.or_none]
    exact ih h

theorem Linked.follows_prev {q : Option α} (h : Linked d none l q) : Follows d.prev l.getLast? l.reverse := by
  induction l using List.reverseRecOn generalizing q with
  | nil => trivial
  | append_singleton l a ih =>
    obtain ⟨h, hprev, -⟩ := linked_append.1 h
    rw [List.getLast?_concat, List.reverse_concat]
    refine ⟨rfl, ?_⟩
    rw [hprev, Option.or_none]
    exact ih h

/-- The links of an element in the list are its neighbours. -/
theorem Represents.split {l₁ l₂ : List α} {a : α} (h : Represents d (l₁ ++ a :: l₂)) :
    d.prev a = l₁.getLast? ∧ d.next a = l₂.head? ∧ Linked d none l₁ (some a) ∧ Linked d (some a) l₂ none ∧
      a ∉ l₁ ∧ a ∉ l₂ ∧ ∀ b ∈ l₁, b ∉ l₂ := by
  obtain ⟨h₁, hprev, hnext, h₂⟩ := linked_append.1 h.linked
  have hnodup := h.nodup
  rw [List.nodup_append, List.nodup_cons] at hnodup
  obtain ⟨-, ⟨ha₂, -⟩, hne⟩ := hnodup
  rw [Option.or_none] at hprev hnext
  refine ⟨hprev, hnext, h₁, h₂, fun ha => hne a ha a (List.mem_cons_self ..) rfl, ha₂, fun b hb hb' => ?_⟩
  exact hne b hb b (List.mem_cons_of_mem _ hb') rfl

end Represents

/-! ## The operations -/

section Operations

variable [DecidableEq α] {d d' : DllList α} {l l₁ l₂ : List α} {elem previous : α}

theorem dllInitElem_represents (h : Represents d l) (he : elem ∉ l) : Represents (dllInitElem d elem) l where
  head := h.head
  tail := h.tail
  linked := h.linked.congr fun a ha => by
    have hne : a ≠ elem := fun heq => he (heq ▸ ha)
    simp [dllInitElem, hne]
  nodup := h.nodup

theorem dllAdd_represents (h : Represents d l) (he : elem ∉ l) (hprev : d.prev elem = none) (hnext : d.next elem = none) :
    ∃ d', dllAdd d elem = some d' ∧ Represents d' (l ++ [elem]) := by
  induction l using List.reverseRecOn with
  | nil =>
    refine ⟨{ d with head := some elem, tail := some elem }, by simp [dllAdd, h.head], rfl, rfl, ?_, by simp⟩
    exact ⟨hprev, hnext, trivial⟩
  | append_singleton l t _ =>
    have hhead : ∃ a, d.head = some a := by
      rw [h.head]
      cases l <;> simp
    obtain ⟨a, ha⟩ := hhead
    have htail : d.tail = some t := by rw [h.tail, List.getLast?_concat]
    obtain ⟨hprevt, -, hl, -, ht, -⟩ := h.split
    have hte : t ≠ elem := fun heq => he (by simp [heq])
    refine ⟨{ (d.setNext t (some elem)).setPrev elem (some t) with tail := some elem }, ?_, ?_, ?_, ?_, ?_⟩
    · simp [dllAdd, ha, htail]
    · show d.head = _
      rw [h.head]
      cases l <;> simp
    · rw [List.getLast?_concat]
    · rw [linked_append, linked_append, List.getLast?_concat]
      refine ⟨⟨hl.congr fun b hb => ?_, ?_, ?_, trivial⟩, ?_, ?_, trivial⟩
      · have hbt : b ≠ t := fun heq => ht (heq ▸ hb)
        have hbe : b ≠ elem := fun heq => he (by simp [← heq, hb])
        simp [hbt, hbe]
      · simp [hte, hprevt]
      · simp
      · simp
      · simp [hte.symm, hnext]
    · have hne : ∀ a ∈ l ++ [t], a ≠ elem := fun a ha heq => he (heq ▸ ha)
      exact List.nodup_append.2 ⟨h.nodup, by simp, by simpa using hne⟩

theorem dllAddFirst_represents (h : Represents d l) (he : elem ∉ l) : Represents (dllAddFirst d elem) (elem :: l) := by
  cases l with
  | nil =>
    refine ⟨?_, ?_, ⟨?_, ?_, trivial⟩, by simp⟩ <;> simp [dllAddFirst, h.head, h.tail]
  | cons a l =>
    obtain ⟨-, hnext, -, hl, -, ha, -⟩ := (show Represents d ([] ++ a :: l) from h).split
    have hae : a ≠ elem := fun heq => he (by simp [heq])
    have htail : ∃ t, d.tail = some t := by
      rw [h.tail]
      exact Option.isSome_iff_exists.1 (by simp)
    obtain ⟨t, ht⟩ := htail
    refine ⟨?_, ?_, ⟨?_, ?_, ?_, ?_, hl.congr fun b hb => ?_⟩, List.nodup_cons.2 ⟨he, h.nodup⟩⟩
    · simp [dllAddFirst, h.head, ht]
    · rw [List.getLast?_cons_cons, ← h.tail]
      simp [dllAddFirst, h.head, ht]
    · simp [dllAddFirst, h.head, ht, hae]
    · simp [dllAddFirst, h.head, ht]
    · simp [dllAddFirst, h.head, ht]
    · simp [dllAddFirst, h.head, ht, hae, hnext]
    · have hba : b ≠ a := fun heq => ha (heq ▸ hb)
      have hbe : b ≠ elem := fun heq => he (by simp [← heq, hb])
      simp [dllAddFirst, h.head, ht, hba.symm, hbe]

theorem insertAfter_append (hp : previous ∉ l₁) :
    insertAfter elem previous (l₁ ++ previous :: l₂) = l₁ ++ previous :: elem :: l₂ := by
  induction l₁ with
  | nil => simp [insertAfter]
  | cons a l₁ ih =>
    have hne : a ≠ previous := fun heq => hp (by simp [heq])
    rw [List.cons_append, insertAfter, if_neg hne, ih fun h => hp (List.mem_cons_of_mem _ h)]
    rfl

theorem dllAddAfter_represents (h : Represents d (l₁ ++ previous :: l₂)) (he : elem ∉ l₁ ++ previous :: l₂) :
    Represents (dllAddAfter d elem previous) (l₁ ++ previous :: elem :: l₂) := by
  obtain ⟨hprev, hnext, hl₁, hl₂, hp₁, hp₂, hdisjoint⟩ := h.split
  have hpe : previous ≠ elem := fun heq => he (by simp [heq])
  have hl₁' : ∀ b ∈ l₁, b ≠ elem ∧ b ≠ previous := fun b hb =>
    ⟨fun heq => he (by simp [← heq, hb]), fun heq => hp₁ (heq ▸ hb)⟩
  have hl₂' : ∀ b ∈ l₂, b ≠ elem ∧ b ≠ previous := fun b hb =>
    ⟨fun heq => he (by simp [← heq, hb]), fun heq => hp₂ (heq ▸ hb)⟩
  have hnodup : (l₁ ++ previous :: elem :: l₂).Nodup := by
    have hperm : (l₁ ++ previous :: elem :: l₂).Perm (elem :: (l₁ ++ previous :: l₂)) := by
      rw [List.append_cons, List.append_cons l₁ previous l₂]
      exact List.perm_middle
    exact hperm.nodup_iff.2 (List.nodup_cons.2 ⟨he, h.nodup⟩)
  cases l₂ with
  | nil =>
    have htail : d.tail = some previous := by rw [h.tail, List.getLast?_concat]
    have hnext : d.next previous = none := hnext
    refine ⟨?_, ?_, linked_append.2 ⟨hl₁.congr fun b hb => ?_, ?_, ?_, ?_, ?_, trivial⟩, hnodup⟩
    · simp [dllAddAfter, hpe.symm, hnext, htail, h.head, List.head?_append]
    · simp [dllAddAfter, hpe.symm, hnext, htail]
    · simp [dllAddAfter, hpe.symm, hnext, htail, hl₁' b hb]
    · simp [dllAddAfter, hpe, hpe.symm, hnext, htail, hprev]
    · simp [dllAddAfter, hpe.symm, hnext, htail]
    · simp [dllAddAfter, hpe.symm, hnext, htail]
    · simp [dllAddAfter, hpe.symm, hnext, htail]
  | cons n l₃ =>
    have hnext : d.next previous = some n := hnext
    have htail : d.tail = (n :: l₃).getLast? := by
      rw [h.tail]
      simp [List.getLast?_cons]
    have htail' : d.tail ≠ some previous := fun heq => hp₂ (List.mem_of_getLast? (htail.symm.trans heq))
    obtain ⟨-, hnextn, hl₃⟩ := hl₂
    obtain ⟨hne, hnp⟩ := hl₂' n (List.mem_cons_self ..)
    have hn : n ∉ l₃ := (List.nodup_cons.1 (List.nodup_append.1 h.nodup).2.1 |>.2 |> List.nodup_cons.1).1
    have hd : dllAddAfter d elem previous =
        (((d.setNext elem (some n)).setPrev elem (some previous)).setNext previous (some elem)).setPrevOf (some n) (some elem) := by
      simp [dllAddAfter, hpe.symm, hnext, htail']
    rw [hd]
    refine ⟨?_, ?_, linked_append.2 ⟨hl₁.congr fun b hb => ?_, ?_, ?_, ?_, ?_, ?_, ?_, hl₃.congr fun b hb => ?_⟩, hnodup⟩
    · simp [h.head, List.head?_append]
    · simp [htail, List.getLast?_cons]
    · have hbn : n ≠ b := fun heq => hdisjoint b hb (by simp [heq])
      simp [hl₁' b hb, hbn]
    · simp [hpe, hnp, hprev]
    · simp
    · simp [hne]
    · simp [hpe.symm]
    · simp
    · simp [hne, hnp, hnextn]
    · have hbn : n ≠ b := fun heq => hn (heq ▸ hb)
      simp [hl₂' b (List.mem_cons_of_mem _ hb), hbn]

/-- What a removal leaves, if the element is no neighbour of itself. -/
theorem dllRemove_eq (hprev : d.prev elem ≠ some elem) (hnext : d.next elem ≠ some elem) :
    dllRemove d elem =
      { head := if d.head = some elem then d.next elem else d.head
        tail := if d.tail = some elem then d.prev elem else d.tail
        prev := fun b => if b = elem then none else if d.next elem = some b then d.prev elem else d.prev b
        next := fun b => if b = elem then none else if d.prev elem = some b then d.next elem else d.next b } := by
  unfold dllRemove
  refine DllList.ext ?_ ?_ (funext fun b => ?_) (funext fun b => ?_)
  · dsimp only
    split_ifs <;> simp_all
  · dsimp only
    split_ifs <;> simp_all
  · dsimp only
    split_ifs <;> simp_all
  · dsimp only
    split_ifs <;> simp_all

theorem dllRemove_represents (h : Represents d (l₁ ++ elem :: l₂)) : Represents (dllRemove d elem) (l₁ ++ l₂) := by
  obtain ⟨hprev, hnext, hl₁, hl₂, he₁, he₂, hdisjoint⟩ := h.split
  have hne₁ : ∀ b ∈ l₁, b ≠ elem := fun b hb heq => he₁ (heq ▸ hb)
  have hne₂ : ∀ b ∈ l₂, b ≠ elem := fun b hb heq => he₂ (heq ▸ hb)
  have hnodup : (l₁ ++ l₂).Nodup := h.nodup.sublist ((List.sublist_cons_self ..).append_left _)
  obtain ⟨hnodup₁, hnodup₂, -⟩ := List.nodup_append.1 hnodup
  rw [dllRemove_eq (by rw [hprev]; exact fun heq => he₁ (List.mem_of_getLast? heq))
    (by rw [hnext]; exact fun heq => he₂ (List.mem_of_head? heq)), hprev, hnext, h.head, h.tail]
  refine ⟨?_, ?_, linked_append.2 ⟨hl₁.relink hnodup₁ (fun b hb => ?_) fun b hb => ?_,
    hl₂.relink hnodup₂ (fun b hb => ?_) fun b hb => ?_⟩, hnodup⟩
  · cases l₁ with
    | nil => simp
    | cons a l₁ => simp [hne₁ a (List.mem_cons_self ..)]
  · induction l₂ using List.reverseRecOn with
    | nil => simp
    | append_singleton l₂ a _ =>
      have hne : a ≠ elem := hne₂ a (by simp)
      simp [List.getLast?_append, List.getLast?_cons, hne]
  · have hhead : l₂.head? ≠ some b := fun heq => hdisjoint b hb (List.mem_of_head? heq)
    simp only [hne₁ b hb, hhead, if_false]
    split
    next heq => exact hl₁.prev_head heq
    next => rfl
  · simp only [hne₁ b hb, if_false, Option.or_none]
  · simp only [hne₂ b hb, if_false, Option.or_none]
  · have hlast : l₁.getLast? ≠ some b := fun heq => hdisjoint b (List.mem_of_getLast? heq) hb
    simp only [hne₂ b hb, hlast, if_false]
    split
    next heq => exact hl₂.next_last heq
    next => rfl

/-! ## Runs -/

/-- The two are next to each other. -/
def Adjacent (l : List α) (a b : α) : Prop := [a, b] <:+: l ∨ [b, a] <:+: l

/-- The sequence in which the element of the operation has its neighbours. -/
def Op.around (l : List α) : Op α → List α
  | .remove _ => l
  | op => op.onList l

/-- **An operation on the heap is one on the sequence.** -/
theorem Represents.step (h : Represents d l) {op : Op α} (hop : op.Allowed d l) :
    ∃ d', op.apply d = some d' ∧ Represents d' (op.onList l) := by
  cases op with
  | initElem elem => exact ⟨_, rfl, dllInitElem_represents h hop⟩
  | add elem => exact dllAdd_represents h hop.1 hop.2.1 hop.2.2
  | addFirst elem => exact ⟨_, rfl, dllAddFirst_represents h hop.1⟩
  | addAfter elem previous =>
    obtain ⟨he, -, -, hp⟩ := hop
    obtain ⟨l₁, l₂, rfl⟩ := List.append_of_mem hp
    have hp₁ := h.split.2.2.2.2.1
    refine ⟨_, rfl, ?_⟩
    rw [Op.onList, insertAfter_append hp₁]
    exact dllAddAfter_represents h he
  | remove elem =>
    obtain ⟨l₁, l₂, -, rfl, herase⟩ := List.exists_erase_eq hop
    refine ⟨_, rfl, ?_⟩
    rw [Op.onList, herase]
    exact dllRemove_represents h

/-- Only the element and its neighbours are written. -/
theorem Represents.frame (h : Represents d l) {op : Op α} (hop : op.Allowed d l) (hd : op.apply d = some d') {a : α}
    (ha : a ≠ op.elem) (hadjacent : ¬ Adjacent (op.around l) a op.elem) : d'.prev a = d.prev a ∧ d'.next a = d.next a := by
  cases op with
  | initElem elem =>
    have ha : a ≠ elem := ha
    obtain rfl := Option.some.inj hd
    simp [dllInitElem, ha]
  | add elem =>
    have ha : a ≠ elem := ha
    have hd : dllAdd d elem = some d' := hd
    unfold dllAdd at hd
    split at hd
    · obtain rfl := Option.some.inj hd
      exact ⟨rfl, rfl⟩
    split at hd
    · cases hd
    next t ht =>
      obtain rfl := Option.some.inj hd
      have hat : a ≠ t := by
        rintro rfl
        rw [h.tail, List.getLast?_eq_some_iff] at ht
        obtain ⟨l₀, rfl⟩ := ht
        exact hadjacent (.inl ⟨l₀, [], by simp [Op.around, Op.onList, Op.elem]⟩)
      simp [ha, hat]
  | addFirst elem =>
    have ha : a ≠ elem := ha
    obtain rfl := Option.some.inj hd
    have hhead : d.head ≠ some a := by
      intro heq
      rw [h.head, List.head?_eq_some_iff] at heq
      obtain ⟨l₀, rfl⟩ := heq
      exact hadjacent (.inr ⟨[], l₀, rfl⟩)
    unfold dllAddFirst
    dsimp only
    split <;> simp [ha, hhead]
  | addAfter elem previous =>
    have ha : a ≠ elem := ha
    obtain ⟨he, -, -, hp⟩ := hop
    obtain ⟨l₁, l₂, rfl⟩ := List.append_of_mem hp
    obtain ⟨-, hnext, -, -, hp₁, -⟩ := h.split
    obtain rfl := Option.some.inj hd
    have haround : Op.around (l₁ ++ previous :: l₂) (.addAfter elem previous) = l₁ ++ previous :: elem :: l₂ :=
      insertAfter_append hp₁
    rw [haround] at hadjacent
    have hpe : previous ≠ elem := fun heq => he (by simp [heq])
    have hap : a ≠ previous := by
      rintro rfl
      exact hadjacent (.inl ⟨l₁, l₂, by simp [Op.elem]⟩)
    have han : d.next previous ≠ some a := by
      intro heq
      rw [hnext, List.head?_eq_some_iff] at heq
      obtain ⟨l₃, rfl⟩ := heq
      exact hadjacent (.inr ⟨l₁ ++ [previous], l₃, by simp [Op.elem]⟩)
    unfold dllAddAfter
    dsimp only
    split <;> simp [ha, hap, han, hpe.symm]
  | remove elem =>
    have ha : a ≠ elem := ha
    obtain ⟨l₁, l₂, rfl⟩ := List.append_of_mem hop
    obtain ⟨hprev, hnext, -, -, he₁, he₂, -⟩ := h.split
    obtain rfl := Option.some.inj hd
    have hap : l₁.getLast? ≠ some a := by
      intro heq
      obtain ⟨l₀, rfl⟩ := List.getLast?_eq_some_iff.1 heq
      exact hadjacent (.inl ⟨l₀, l₂, by simp [Op.around, Op.elem]⟩)
    have han : l₂.head? ≠ some a := by
      intro heq
      obtain ⟨l₃, rfl⟩ := List.head?_eq_some_iff.1 heq
      exact hadjacent (.inr ⟨l₁, l₃, by simp [Op.around, Op.elem]⟩)
    rw [dllRemove_eq (by rw [hprev]; exact fun heq => he₁ (List.mem_of_getLast? heq))
      (by rw [hnext]; exact fun heq => he₂ (List.mem_of_head? heq)), hprev, hnext]
    simp [ha, hap, han]

theorem Reached.represents (h : Reached d l) : Represents d l := by
  induction h with
  | init d => exact ⟨rfl, rfl, trivial, List.nodup_nil⟩
  | step _ hop hd ih =>
    obtain ⟨d', hd', h'⟩ := ih.step hop
    rw [hd] at hd'
    obtain rfl := Option.some.inj hd'
    exact h'

/-- **The list implements sequences.** Whatever the operations were, the list
holds the sequence they lead to, forwards and backwards; the next operation
never follows NULL, unlinks what it removes, and writes no links but those of
its element and the neighbours. -/
theorem reached_sequence (h : Reached d l) :
    Follows d.next d.head l ∧ Follows d.prev d.tail l.reverse ∧
    (d.head = none ↔ l = []) ∧ (d.tail = none ↔ l = []) ∧ (dllIsEmpty d = true ↔ l = []) ∧
    ∀ op : Op α, op.Allowed d l → ∃ d', op.apply d = some d' ∧
      (∀ elem, op = .remove elem → d'.prev elem = none ∧ d'.next elem = none) ∧
      ∀ a, a ≠ op.elem → ¬ Adjacent (op.around l) a op.elem → d'.prev a = d.prev a ∧ d'.next a = d.next a := by
  have hr := h.represents
  have hhead : d.head = none ↔ l = [] := by rw [hr.head, List.head?_eq_none_iff]
  have htail : d.tail = none ↔ l = [] := by rw [hr.tail, List.getLast?_eq_none_iff]
  refine ⟨?_, ?_, hhead, htail, ?_, fun op hop => ?_⟩
  · rw [hr.head]
    exact hr.linked.follows_next
  · rw [hr.tail]
    exact hr.linked.follows_prev
  · simp [dllIsEmpty, hhead, htail]
  · obtain ⟨d', hd', -⟩ := hr.step hop
    refine ⟨d', hd', ?_, fun a ha hadjacent => hr.frame hop hd' ha hadjacent⟩
    rintro elem rfl
    obtain rfl := Option.some.inj hd'
    simp [dllRemove]

end Operations

/-- Three elements in a list, the second one put after the first. -/
theorem reached_three : ∃ d : DllList Nat, Reached d [1, 2, 3] := by
  have h₀ : Reached _ ([] : List Nat) := .init ⟨none, none, some, some⟩
  have hop : ∀ {d : DllList Nat} {l} (e : Nat), Reached d l → e ∉ l → Reached (dllInitElem d e) l := by
    intro d l e h he
    exact h.step (show Op.Allowed d l (.initElem e) from he) rfl
  have h₁ : Reached _ [1] := (hop 1 h₀ (by decide)).step (show Op.Allowed _ _ (.addFirst 1) by
    simp [Op.Allowed, dllInitElem]) rfl
  have h₂ : Reached _ [1, 3] := (hop 3 h₁ (by decide)).step (show Op.Allowed _ _ (.add 3) by
    simp [Op.Allowed, dllInitElem]) rfl
  exact ⟨_, (hop 2 h₂ (by decide)).step (show Op.Allowed _ _ (.addAfter 2 1) by simp [Op.Allowed, dllInitElem]) rfl⟩

theorem reached_sequence_three : ∃ d : DllList Nat, Reached d [1, 2, 3] ∧ Follows d.next d.head [1, 2, 3] ∧
    Follows d.prev d.tail [3, 2, 1] := by
  obtain ⟨d, h⟩ := reached_three
  obtain ⟨hnext, hprev, -⟩ := reached_sequence h
  exact ⟨d, h, hnext, hprev⟩

end Tyche.Dll
