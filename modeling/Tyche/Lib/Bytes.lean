/-
Buffers of bytes: numbers with the lowest byte first, slices, and strings,
which end before the first byte 0. A comparison with a string of a buffer
reads it up to the first difference, and may run out of the buffer.
-/
import Mathlib.Algebra.Group.Nat.Defs
import Mathlib.Data.List.Infix

namespace Tyche.Bytes

/-- The number with these bytes, the lowest one first. -/
def number : List UInt8 → Nat
  | [] => 0
  | b :: bytes => b.toNat + 256 * number bytes

/-- The `len` bytes from `off` on, as far as there are any. -/
def slice (buf : List UInt8) (off len : Nat) : List UInt8 := (buf.drop off).take len

/-- The string at the start of the buffer, if it ends there. -/
def cstring : List UInt8 → Option (List UInt8)
  | [] => none
  | b :: buf => if b = 0 then some [] else (cstring buf).map (b :: ·)

/-- Whether the string is the one at the start of the buffer; `none` when
the comparison runs out of it. -/
def strcmp : (s buf : List UInt8) → Option Bool
  | _, [] => none
  | [], b :: _ => some (b == 0)
  | c :: s, b :: buf => if c = b then strcmp s buf else some false

/-! ## Numbers -/

theorem number_lt (bytes : List UInt8) : number bytes < 256 ^ bytes.length := by
  induction bytes with
  | nil => exact Nat.one_pos
  | cons b bytes ih =>
    have hb : b.toNat < 256 := b.toNat_lt
    rw [number, List.length_cons, Nat.pow_succ]
    omega

theorem number_slice_lt (buf : List UInt8) (off len : Nat) : number (slice buf off len) < 256 ^ len :=
  calc number (slice buf off len) < 256 ^ (slice buf off len).length := number_lt _
    _ ≤ 256 ^ len := Nat.pow_le_pow_right (by decide) (List.length_take_le ..)

theorem length_slice {buf : List UInt8} {off len : Nat} (h : off + len ≤ buf.length) : (slice buf off len).length = len := by
  rw [slice, List.length_take, List.length_drop]
  omega

/-! ## Strings -/

theorem cstring_eq_none {buf : List UInt8} : cstring buf = none ↔ 0 ∉ buf := by
  induction buf with
  | nil => simp [cstring]
  | cons b buf ih =>
    rw [cstring]
    split
    next hb => simp [hb]
    next hb => simp [ih, Ne.symm hb]

/-- A string without the byte 0 is the one of the buffer exactly when the
buffer starts with it and a 0. -/
theorem cstring_eq_some {s : List UInt8} (hs : 0 ∉ s) : ∀ {buf : List UInt8}, cstring buf = some s ↔ s ++ [0] <+: buf := by
  induction s with
  | nil =>
    intro buf
    cases buf with
    | nil => simp [cstring]
    | cons b buf =>
      rw [cstring, List.nil_append, List.cons_prefix_cons]
      split
      next hb => simp [hb]
      next hb => simp [Ne.symm hb]
  | cons c s ih =>
    intro buf
    have hc : 0 ≠ c := fun h => hs (h ▸ List.mem_cons_self ..)
    have hrest : 0 ∉ s := fun h => hs (List.mem_cons_of_mem _ h)
    cases buf with
    | nil => simp [cstring]
    | cons b buf =>
      rw [cstring, List.cons_append, List.cons_prefix_cons, ← ih hrest]
      split
      next hb => simp [hb, hc.symm]
      next hb => cases h : cstring buf <;> simp [eq_comm]

/-- A comparison runs out of a buffer that the string goes beyond. -/
theorem strcmp_eq_none : ∀ {s buf : List UInt8}, strcmp s buf = none ↔ buf <+: s
  | _, [] => by simp [strcmp]
  | [], b :: buf => by simp [strcmp]
  | c :: s, b :: buf => by
    rw [strcmp, List.cons_prefix_cons]
    split
    next h => simp [h, strcmp_eq_none]
    next h => simp [Ne.symm h]

theorem strcmp_eq_true : ∀ {s buf : List UInt8}, strcmp s buf = some true ↔ s ++ [0] <+: buf
  | _, [] => by simp [strcmp]
  | [], b :: buf => by
    rw [strcmp, List.nil_append, List.cons_prefix_cons, Option.some_inj, beq_iff_eq, and_iff_left List.nil_prefix]
    exact eq_comm
  | c :: s, b :: buf => by
    rw [strcmp, List.cons_append, List.cons_prefix_cons]
    split
    next h => simp [h, strcmp_eq_true]
    next h => simp [h]

/-- Where the string of the buffer ends there, so does the comparison. -/
theorem strcmp_cstring {s t buf : List UInt8} (hs : 0 ∉ s) (h : cstring buf = some t) :
    strcmp s buf = some (decide (t = s)) := by
  cases hcmp : strcmp s buf with
  | none =>
    have hmem : 0 ∈ buf := by
      by_contra hnot
      rw [cstring_eq_none.2 hnot] at h
      cases h
    exact absurd ((strcmp_eq_none.1 hcmp).subset hmem) hs
  | some equal =>
    have hiff : equal = true ↔ t = s := by
      rw [← Option.some_inj, ← hcmp, strcmp_eq_true, ← cstring_eq_some hs, h, Option.some_inj]
    cases equal <;> simpa using hiff

end Tyche.Bytes
