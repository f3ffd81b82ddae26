/-
A position in a list: what a pointer to a node of a doubly linked list
gives access to. The nodes before the position are kept nearest first, so
the node's `prev` is the head of `before` and its `next` the head of
`after`.
-/
import Mathlib.Data.List.Basic

namespace Tyche

/-- A node of a list with its neighbours: `before` is nearest first. -/
structure Cursor (α : Type) where
  before : List α
  elem : α
  after : List α
deriving DecidableEq, Repr

namespace Cursor

variable {α : Type}

/-- The list the cursor is a position in. -/
def list (c : Cursor α) : List α := c.before.reverse ++ c.elem :: c.after

/-- The same position, its element rewritten in place. -/
def put (c : Cursor α) (a : α) : Cursor α := { c with elem := a }

/-- The list without the element at the cursor. -/
def remove (c : Cursor α) : List α := c.before.reverse ++ c.after

@[simp] theorem put_elem (c : Cursor α) (a : α) : (c.put a).elem = a := rfl
@[simp] theorem put_before (c : Cursor α) (a : α) : (c.put a).before = c.before := rfl
@[simp] theorem put_after (c : Cursor α) (a : α) : (c.put a).after = c.after := rfl
@[simp] theorem put_put (c : Cursor α) (a b : α) : (c.put a).put b = c.put b := rfl
@[simp] theorem put_remove (c : Cursor α) (a : α) : (c.put a).remove = c.remove := rfl

theorem elem_mem (c : Cursor α) : c.elem ∈ c.list := by simp [list]

theorem mem_list {c : Cursor α} {a : α} : a ∈ c.list ↔ a = c.elem ∨ a ∈ c.remove := by
  simp only [list, remove, List.mem_append, List.mem_cons]; tauto

theorem list_perm (c : Cursor α) : c.list.Perm (c.elem :: c.remove) :=
  List.perm_middle

/-- The first position of `l`, from the left, whose element satisfies `p`;
`before` are the elements already passed. -/
def findFrom (p : α → Bool) (before : List α) : List α → Option (Cursor α)
  | [] => none
  | a :: l => if p a then some ⟨before, a, l⟩ else findFrom p (a :: before) l

/-- The position at which a `dll_foreach` over `l` that breaks on `p` stops. -/
def find (p : α → Bool) (l : List α) : Option (Cursor α) := findFrom p [] l

/-- The `i`-th position of `l`. -/
def nth (l : List α) (i : Nat) : Option (Cursor α) :=
  l[i]?.map fun a => ⟨(l.take i).reverse, a, l.drop (i + 1)⟩

/-- The position of an element appended to `l`. -/
def last (l : List α) (a : α) : Cursor α := ⟨l.reverse, a, []⟩

@[simp] theorem last_list (l : List α) (a : α) : (last l a).list = l ++ [a] := by simp [last, list]
@[simp] theorem last_elem (l : List α) (a : α) : (last l a).elem = a := rfl
@[simp] theorem last_remove (l : List α) (a : α) : (last l a).remove = l := by simp [last, remove]

theorem findFrom_some {p : α → Bool} {b l : List α} {c : Cursor α} (h : findFrom p b l = some c) :
    c.list = b.reverse ++ l ∧ p c.elem = true ∧ ∀ a ∈ c.before, a ∈ b ∨ p a = false := by
  induction l generalizing b with
  | nil => cases h
  | cons a l ih =>
    simp only [findFrom] at h
    split at h
    · next hp => cases h; exact ⟨rfl, hp, fun a ha => .inl ha⟩
    · next hp =>
      obtain ⟨h1, h2, h3⟩ := ih h
      refine ⟨by simpa using h1, h2, fun x hx => ?_⟩
      rcases h3 x hx with h | h
      · rcases List.mem_cons.1 h with rfl | h
        · exact .inr (by simpa using hp)
        · exact .inl h
      · exact .inr h

/-- The position found is one of the list's, and the first that satisfies `p`. -/
theorem find_some {p : α → Bool} {l : List α} {c : Cursor α} (h : find p l = some c) :
    c.list = l ∧ p c.elem = true ∧ ∀ a ∈ c.before, p a = false := by
  obtain ⟨h1, h2, h3⟩ := findFrom_some h
  exact ⟨by simpa using h1, h2, fun a ha => (h3 a ha).resolve_left (by simp)⟩

theorem findFrom_append {p : α → Bool} {b l l' : List α} {a : α} (hl : ∀ x ∈ l, p x = false) (ha : p a = true) :
    findFrom p b (l ++ a :: l') = some ⟨l.reverse ++ b, a, l'⟩ := by
  induction l generalizing b with
  | nil => simp [findFrom, ha]
  | cons x l ih =>
    have hx : p x = false := hl x (by simp)
    simp only [List.cons_append, findFrom, hx, Bool.false_eq_true, if_false]
    rw [ih fun y hy => hl y (by simp [hy])]
    simp

/-- The search stops at a position whose element satisfies `p` and is the
first that does. -/
theorem find_list {p : α → Bool} (c : Cursor α) (hb : ∀ x ∈ c.before, p x = false) (ha : p c.elem = true) :
    find p c.list = some c := by
  rw [find, list, findFrom_append (by simpa using hb) ha]
  simp

theorem findFrom_none {p : α → Bool} {b l : List α} (h : findFrom p b l = none) : ∀ a ∈ l, p a = false := by
  induction l generalizing b with
  | nil => simp
  | cons a l ih =>
    simp only [findFrom] at h
    split at h
    · cases h
    · next hp =>
      intro x hx
      rcases List.mem_cons.1 hx with rfl | hx
      · simpa using hp
      · exact ih h x hx

theorem find_none {p : α → Bool} {l : List α} (h : find p l = none) : ∀ a ∈ l, p a = false :=
  findFrom_none h

/-- A search succeeds when some element satisfies `p`. -/
theorem find_isSome {p : α → Bool} {l : List α} {a : α} (ha : a ∈ l) (hp : p a = true) :
    ∃ c, find p l = some c := by
  cases h : find p l with
  | some c => exact ⟨c, rfl⟩
  | none => rw [find_none h a ha] at hp; cases hp

theorem nth_some {l : List α} {i : Nat} {c : Cursor α} (h : nth l i = some c) : c.list = l := by
  simp only [nth, Option.map_eq_some_iff] at h
  obtain ⟨a, ha, rfl⟩ := h
  obtain ⟨hi, rfl⟩ := List.getElem?_eq_some_iff.1 ha
  simp [list]

end Cursor

end Tyche
