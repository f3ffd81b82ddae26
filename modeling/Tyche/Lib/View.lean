/-
Memory seen through a translation of addresses, a byte at a time: loads and
stores, numbers of several bytes, and what it means that a range was copied.

A view is faithful if no byte is behind two addresses. Then what is stored
through it is loaded at that address, and nowhere else.
-/
import Mathlib.Logic.Function.Basic
import Tyche.Lib.Bytes

namespace Tyche

/-- The byte behind an address, and whether it may be written. -/
structure Place where
  addr : Nat
  writable : Bool
deriving DecidableEq

/-- What is behind the addresses, if they are mapped. -/
abbrev View := Nat → Option Place

namespace View

variable (v : View)

def load (mem : Nat → UInt8) (a : Nat) : Option UInt8 := (v a).map fun p => mem p.addr

def store (mem : Nat → UInt8) (a : Nat) (b : UInt8) : Option (Nat → UInt8) :=
  (v a).bind fun p => if p.writable then some (Function.update mem p.addr b) else none

/-- The `n` bytes from an address on. -/
def loadBytes (mem : Nat → UInt8) (a : Nat) : Nat → Option (List UInt8)
  | 0 => some []
  | n + 1 => (v.load mem a).bind fun b => (loadBytes mem (a + 1) n).map (b :: ·)

/-- The number of `n` bytes at an address, the lowest one first. -/
def loadNumber (mem : Nat → UInt8) (a n : Nat) : Option Nat := (v.loadBytes mem a n).map Bytes.number

/-- No byte is behind two addresses. -/
def Faithful : Prop := ∀ {a b p q}, v a = some p → v b = some q → p.addr = q.addr → a = b

variable {v} {mem mem' mem'' : Nat → UInt8} {a n : Nat} {b : UInt8}

theorem load_eq_some : v.load mem a = some b ↔ ∃ p, v a = some p ∧ mem p.addr = b := by
  rw [load, Option.map_eq_some_iff]

theorem store_eq_some : v.store mem a b = some mem' ↔
    ∃ p, v a = some p ∧ p.writable = true ∧ mem' = Function.update mem p.addr b := by
  rw [store, Option.bind_eq_some_iff]
  refine exists_congr fun p => and_congr_right fun _ => ?_
  split
  next hp => exact ⟨fun h => ⟨hp, (Option.some.inj h).symm⟩, fun h => congrArg some h.2.symm⟩
  next hp => exact ⟨fun h => (Option.some_ne_none _ h.symm).elim, fun h => absurd h.1 hp⟩

/-- Views that agree on a range load the same of it. -/
theorem loadBytes_congr {w : View} (h : ∀ k < n, v.load mem (a + k) = w.load mem' (a + k)) :
    v.loadBytes mem a n = w.loadBytes mem' a n := by
  induction n generalizing a with
  | zero => rfl
  | succ n ih =>
    have hfirst := h 0 (Nat.succ_pos n)
    have hrest := ih (a := a + 1) fun k hk => by
      have hnext := h (k + 1) (Nat.succ_lt_succ hk)
      rwa [show a + (k + 1) = a + 1 + k by omega] at hnext
    rw [Nat.add_zero] at hfirst
    rw [loadBytes, loadBytes, hfirst, hrest]

theorem loadNumber_congr {w : View} (h : ∀ k < n, v.load mem (a + k) = w.load mem' (a + k)) :
    v.loadNumber mem a n = w.loadNumber mem' a n := by
  rw [loadNumber, loadNumber, loadBytes_congr h]

/-! ## A copy -/

/-- Each byte from `dst` on is the one from `src` on in the memory before, and no
other byte is changed. -/
structure Copied (v : View) (src dst n : Nat) (mem mem' : Nat → UInt8) : Prop where
  bytes : ∀ k < n, v.load mem' (dst + k) = v.load mem (src + k)
  others : ∀ x, (∀ k < n, ∀ p, v (dst + k) = some p → p.addr ≠ x) → mem' x = mem x

variable {src dst : Nat}

theorem Copied.refl (src dst : Nat) (mem : Nat → UInt8) : Copied v src dst 0 mem mem :=
  ⟨fun _ hk => absurd hk (Nat.not_lt_zero _), fun _ _ => rfl⟩

/-- Outside of the range, the same is loaded. -/
theorem Copied.load_eq (h : Copied v src dst n mem mem') (hv : v.Faithful) (ha : ∀ k < n, dst + k ≠ a) : v.load mem' a = v.load mem a := by
  unfold load
  cases hp : v a with
  | none => rfl
  | some p =>
    have hsame : mem' p.addr = mem p.addr := h.others p.addr fun k hk q hq heq => ha k hk (hv hq hp heq)
    rw [Option.map_some, Option.map_some, hsame]

/-- **One more byte** is copied. -/
theorem Copied.step (h : Copied v src dst n mem mem') (hv : v.Faithful) (hsrc : ∀ k < n, dst + k ≠ src + n)
    (hload : v.load mem' (src + n) = some b) (hstore : v.store mem' (dst + n) b = some mem'') :
    Copied v src dst (n + 1) mem mem'' := by
  obtain ⟨p, hp, -, rfl⟩ := store_eq_some.1 hstore
  constructor
  · intro k hk
    rcases Nat.lt_succ_iff_lt_or_eq.1 hk with hk | rfl
    · rw [← h.bytes k hk]
      unfold load
      cases hq : v (dst + k) with
      | none => rfl
      | some q =>
        have hne : q.addr ≠ p.addr := fun heq => by
          have hsame := hv hq hp heq
          omega
        rw [Option.map_some, Option.map_some, Function.update_of_ne hne]
    · rw [← h.load_eq hv hsrc, hload, load, hp, Option.map_some, Function.update_self]
  · intro x hx
    rw [Function.update_of_ne (hx n (Nat.lt_succ_self n) p hp).symm]
    exact h.others x fun k hk => hx k (Nat.lt_succ_of_lt hk)

end View

end Tyche
