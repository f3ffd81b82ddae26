/-
Resources that a program acquires and releases.

What is held is a multiset, and a release of what is not held fails. A piece
of a program turns what it needs into what it leaves, beside whatever else is
held, so the pieces are specified apart and composed.
-/
import Mathlib.Algebra.Order.Group.Multiset

namespace Tyche.Ledger

/-- An operation on the resources. -/
inductive Op (ρ : Type)
  | acquire (r : ρ)
  | release (r : ρ)
deriving DecidableEq, Repr

variable {ρ : Type} [DecidableEq ρ]

/-- What is held after the operations, if each releases what is held. -/
def after : List (Op ρ) → Multiset ρ → Option (Multiset ρ)
  | [], held => some held
  | .acquire r :: ops, held => after ops (r ::ₘ held)
  | .release r :: ops, held => if r ∈ held then after ops (held.erase r) else none

theorem after_append (ops ops' : List (Op ρ)) (held : Multiset ρ) : after (ops ++ ops') held = (after ops held).bind (after ops') := by
  induction ops generalizing held with
  | nil => rfl
  | cons op ops ih =>
    cases op with
    | acquire r => exact ih _
    | release r =>
      rw [List.cons_append, after, after]
      split
      · exact ih _
      · rfl

/-- Nothing that is not held was released on the way. -/
theorem after_prefix {ops ops' : List (Op ρ)} {held : Multiset ρ} (h : ops <+: ops') (hafter : after ops' held ≠ none) :
    after ops held ≠ none := by
  obtain ⟨rest, rfl⟩ := h
  rw [after_append] at hafter
  exact fun hnone => hafter (by rw [hnone]; rfl)

/-! ## Pieces of a program -/

/-- The operations turn what they need into what they leave, whatever else is held. -/
def Turns (ops : List (Op ρ)) (needs leaves : Multiset ρ) : Prop :=
  ∀ rest, after ops (needs + rest) = some (leaves + rest)

section Turns

variable {ops ops' : List (Op ρ)} {p q r : Multiset ρ}

theorem Turns.nil (p : Multiset ρ) : Turns [] p p := fun _ => rfl

theorem Turns.append (h : Turns ops p q) (h' : Turns ops' q r) : Turns (ops ++ ops') p r := by
  intro rest
  rw [after_append, h rest]
  exact h' rest

theorem Turns.of_eq {p' q' : Multiset ρ} (h : Turns ops p q) (hp : p = p') (hq : q = q') : Turns ops p' q' := hp ▸ hq ▸ h

/-- The rest is kept. -/
theorem Turns.frame (h : Turns ops p q) (kept : Multiset ρ) : Turns ops (p + kept) (q + kept) := by
  intro rest
  rw [Multiset.add_assoc, h, Multiset.add_assoc]

theorem Turns.after (h : Turns ops p q) : Ledger.after ops p = some q := by
  have hrest := h 0
  rwa [add_zero, add_zero] at hrest

theorem turns_acquire (r : ρ) : Turns [.acquire r] 0 {r} := by
  intro rest
  rw [zero_add]
  rfl

theorem turns_release (r : ρ) : Turns [.release r] {r} 0 := by
  intro rest
  rw [Ledger.after, Multiset.singleton_add, if_pos (Multiset.mem_cons_self r rest), Multiset.erase_cons_head, zero_add]
  rfl

/-- All are acquired, one after the other. -/
theorem turns_acquires (rs : List ρ) : Turns (rs.map .acquire) 0 rs := by
  induction rs with
  | nil => exact .nil 0
  | cons r rs ih =>
    intro rest
    have hrest := ih (r ::ₘ rest)
    rw [zero_add] at hrest ⊢
    rw [List.map_cons, Ledger.after, hrest, Multiset.add_cons, ← Multiset.cons_add, Multiset.cons_coe]

theorem turns_releases (rs : List ρ) : Turns (rs.map .release) rs 0 := by
  induction rs with
  | nil => exact .nil 0
  | cons r rs ih =>
    have hfirst := (turns_release r).frame (rs : Multiset ρ)
    rw [zero_add, Multiset.singleton_add, Multiset.cons_coe] at hfirst
    exact hfirst.append ih

end Turns

end Tyche.Ledger
