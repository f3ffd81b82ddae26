/-
The tree of tables in memory: what the processor finds for an address, and
what the two writes of a mapping do to it, the one of a leaf and the one of
a pointer to a new table.
-/
import Tyche.Lib.Radix
import Tyche.Pts.X86

namespace Tyche.Pts

open Tyche.Bits Tyche.Radix

/-- The entry is present. -/
def Present (e : Nat) : Prop := e &&& ptPP = ptPP

/-- The entry, above the tables of leaves, maps a huge page. -/
def Huge (e : Nat) : Prop := e &&& ptPSE = ptPSE

instance (e : Nat) : Decidable (Present e) := inferInstanceAs (Decidable (_ = _))
instance (e : Nat) : Decidable (Huge e) := inferInstanceAs (Decidable (_ = _))

/-- What the processor finds for an address below a table: the level and the
entry of the page. -/
def pageWalk (mem : Nat → Nat → Nat) : (level table va : Nat) → Option (Nat × Nat)
  | 0, table, va =>
    let e := mem table (va / span 0 % 512)
    if Present e then some (0, e) else none
  | level + 1, table, va =>
    let e := mem table (va / span (level + 1) % 512)
    if ¬ Present e then none
    else if Huge e then some (level + 1, e)
    else pageWalk mem level (x86_64Next e (level + 1)) va

/-- The tables of x86-64 as a radix tree over the pages of 48-bit addresses. -/
def layout : Layout Nat Nat where
  fanout := 512
  height := ptPML4
  child e := if Present e then some (x86_64Next e 0) else none

/-- The entry of the address's page in the table of level 0, if the tables
lead there. -/
def leafEntry (mem : Nat → Nat → Nat) (root va : Nat) : Option Nat := layout.lookup mem ptPML4 root (va / ptPageSize)

@[simp] theorem layout_fanout : layout.fanout = 512 := rfl
@[simp] theorem layout_height : layout.height = 3 := rfl

theorem layout_child {e : Nat} (h : Present e) : layout.child e = some (x86_64Next e 0) := if_pos h

theorem layout_child_none {e : Nat} : layout.child e = none ↔ ¬ Present e := by simp [layout]

theorem not_present_zero : ¬ Present 0 := by decide

/-! ## Entries -/

/-- A physical address an entry can hold. -/
def Frame (f : Nat) : Prop := f % ptPageSize = 0 ∧ f < 2 ^ 52

instance (f : Nat) : Decidable (Frame f) := inferInstanceAs (Decidable (_ ∧ _))

theorem Frame.and_mask {f : Nat} (h : Frame f) : f &&& ptPhysPageMask = f :=
  and_mask_eq_self (n := 40) (s := 12) h.1 h.2

theorem frame_and_mask (e : Nat) : Frame (e &&& ptPhysPageMask) :=
  ⟨and_mask_mod e 40 12, and_mask_lt e 40 12⟩

theorem Frame.and_low {f b : Nat} (h : Frame f) (hb : b < ptPageSize) : f &&& b = 0 := and_eq_zero (s := 12) h.1 hb

/-- The flags of an entry are outside its address. -/
theorem Frame.next {f b : Nat} (h : Frame f) (hb : b &&& ptPhysPageMask = 0) (level : Nat) :
    x86_64Next (f ||| b) level = f := by
  rw [x86_64Next, Nat.and_or_distrib_right, h.and_mask, hb, Nat.or_zero]

theorem Frame.present {f b : Nat} (h : Frame f) : Present (f ||| b) ↔ Present b := by
  rw [Present, Present, Nat.and_or_distrib_right, h.and_low (by decide), Nat.zero_or]

theorem Frame.huge {f b : Nat} (h : Frame f) : Huge (f ||| b) ↔ Huge b := by
  rw [Huge, Huge, Nat.and_or_distrib_right, h.and_low (by decide), Nat.zero_or]

/-! ## The tree -/

/-- Memory holds a tree of tables with these leaves, and no huge pages. -/
structure Tree (mem : Nat → Nat → Nat) (root : Nat) (s : Shape Nat) (leaf : Nat → Nat) : Prop where
  fits : s.Fits layout mem root
  leaves : Leaves layout mem s 0 leaf
  plain : ∀ {l q t i}, s.At (l + 1) q t → i < 512 → ¬ Huge (mem t i)
  frames : ∀ t ∈ s.tables, Frame t

section Tree

variable {mem mem' : Nat → Nat → Nat} {root : Nat} {s : Shape Nat} {leaf : Nat → Nat}

/-- What the processor finds is the leaf, if it is present. -/
theorem Tree.pageWalk_eq (h : Tree mem root s leaf) {va : Nat} (hva : va < 2 ^ 48) :
    pageWalk mem ptPML4 root va =
      if Present (leaf (va / ptPageSize)) then some (0, leaf (va / ptPageSize)) else none := by
  -- Below a table, the processor finds what the lookup does.
  have hwalk : ∀ l t, s.At l (va / ptPageSize / 512 ^ (l + 1)) t →
      pageWalk mem l t va = (layout.lookup mem l t (va / ptPageSize)).bind fun e =>
        if Present e then some (0, e) else none := by
    intro l
    induction l with
    | zero =>
      intro t _
      rw [pageWalk, span_div, pow_zero, Nat.div_one]
      rfl
    | succ l ih =>
      intro t ht
      have hi : va / ptPageSize / 512 ^ (l + 1) % 512 < 512 := Nat.mod_lt _ (by decide)
      rw [pageWalk, span_div]
      by_cases hp : Present (mem t (va / ptPageSize / 512 ^ (l + 1) % 512))
      · have hc := layout_child hp
        have hchild := h.fits.down ht hi hc
        rw [layout_fanout, pow_succ _ (l + 1), ← Nat.div_div_eq_div_mul, Nat.div_add_mod'] at hchild
        simp only [hp, not_true_eq_false, if_false, h.plain ht hi]
        rw [Layout.lookup, layout_fanout, hc, Option.bind_some]
        exact ih _ hchild
      · simp only [hp, not_false_eq_true, if_true]
        rw [Layout.lookup, layout_fanout, layout_child_none.2 hp]
        rfl
  have hn : va / ptPageSize < 512 ^ 4 := by
    rw [Nat.div_lt_iff_lt_mul (by decide)]
    exact hva
  have hroot : s.At ptPML4 (va / ptPageSize / 512 ^ (ptPML4 + 1)) root := by
    rw [Nat.div_eq_of_lt hn]
    exact h.fits.atRoot
  obtain ⟨hsome, hleaf⟩ := h.leaves.lookup h.fits (by decide) hn
  rw [hwalk _ _ hroot]
  cases hl : layout.lookup mem ptPML4 root (va / ptPageSize) with
  | some e => rw [Option.bind_some, ← hsome e hl]
  | none =>
    have hzero : leaf (va / ptPageSize) = 0 := by
      by_contra hne
      rw [layout_height, hl] at hleaf
      cases hleaf hne
    rw [hzero, if_neg not_present_zero]
    rfl

theorem Tree.leafEntry_eq (h : Tree mem root s leaf) {va : Nat} (hva : va < 2 ^ 48) (hne : leaf (va / ptPageSize) ≠ 0) :
    leafEntry mem root va = some (leaf (va / ptPageSize)) := by
  have hn : va / ptPageSize < 512 ^ 4 := by
    rw [Nat.div_lt_iff_lt_mul (by decide)]
    exact hva
  exact (h.leaves.lookup h.fits (by decide) hn).2 hne

/-- A present entry leads to a table one level down. -/
theorem Tree.next (h : Tree mem root s leaf) {l q t i : Nat} (ht : s.At (l + 1) q t) (hi : i < 512)
    (hp : Present (mem t i)) (level : Nat) : s.At l (q * 512 + i) (x86_64Next (mem t i) level) :=
  h.fits.down ht hi (layout_child hp)

/-- A root without entries. -/
theorem Tree.of_root (hroot : Frame root) (hzero : ∀ i < 512, mem root i = 0) :
    Tree mem root ⟨[root], fun _ => (ptPML4, 0)⟩ fun _ => 0 where
  fits := Shape.fits_root fun i hi => by rw [hzero i hi]; exact layout_child_none.2 not_present_zero
  leaves := ⟨fun ht _ => absurd ht.2 (by simp), fun hn => absurd rfl hn⟩
  plain := by
    intro l q t i ht hi
    rw [List.mem_singleton.1 ht.1, hzero i hi]
    decide
  frames := by simpa using hroot

/-- A leaf is written. -/
theorem Tree.write (h : Tree mem root s leaf) {q t i w : Nat} (ht : s.At 0 q t) (hi : i < 512) (hw : mem' t i = w)
    (hmem : ∀ t' j, (t' = t → j ≠ i) → mem' t' j = mem t' j) :
    Tree mem' root s (Function.update leaf (q * 512 + i) w) where
  fits := h.fits.write_leaf ht fun t' hne => funext fun j => hmem t' j fun heq => absurd heq hne
  leaves := h.leaves.write h.fits ht hi hw hmem
  plain := by
    intro l q' t' j ht' hj
    rw [hmem t' j]
    · exact h.plain ht' hj
    · rintro rfl
      have := ht'.2.symm.trans ht.2
      simp at this
  frames := h.frames

/-- A pointer to a new empty table is written where nothing was present. -/
theorem Tree.grow (h : Tree mem root s leaf) {l q t i f b : Nat} (ht : s.At (l + 1) q t) (hi : i < 512)
    (hp : ¬ Present (mem t i)) (hf : f ∉ s.tables) (hframe : Frame f) (hb : b &&& ptPhysPageMask = 0) (hpres : Present b)
    (hhuge : ¬ Huge b) (hw : mem' t i = f ||| b) (hzero : ∀ j < 512, mem' f j = 0)
    (hmem : ∀ t' j, t' ≠ f → (t' = t → j ≠ i) → mem' t' j = mem t' j) :
    Tree mem' root (s.grow f l (q * 512 + i)) leaf where
  fits := by
    refine h.fits.grow ht hi (layout_child_none.2 hp) hf ?_ (fun j hj => ?_) hmem
    · rw [hw, layout_child (hframe.present.2 hpres), hframe.next hb]
    · rw [hzero j hj]
      exact layout_child_none.2 not_present_zero
  leaves := h.leaves.grow h.fits ht hi (layout_child_none.2 hp) hf hzero hmem
  plain := by
    intro l' q' t' j ht' hj
    rcases (Shape.grow_at hf).1 ht' with hold | ⟨rfl, -, -⟩
    · by_cases hslot : t' = t ∧ j = i
      · rw [hslot.1, hslot.2, hw, hframe.huge]
        exact hhuge
      · rw [hmem t' j (fun heq => hf (heq ▸ hold.1)) fun heq hji => hslot ⟨heq, hji⟩]
        exact h.plain hold hj
    · rw [hzero j hj]
      decide
  frames := List.forall_mem_cons.2 ⟨hframe, h.frames⟩

end Tree

end Tyche.Pts
