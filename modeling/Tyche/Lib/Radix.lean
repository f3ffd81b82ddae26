/-
Radix trees kept in memory. A table has `fanout` words; the tables of level 0
hold the leaves, and a word of a table above may point to a child, one level
down. Leaf `n` is found along the digits of `n`, the first one in the root.

A tree in memory is described by its shape: which tables it has, and the
place (a level, and the leading digits of its leaves) of each.
-/
import Mathlib.Logic.Function.Basic
import Mathlib.Data.List.Basic
import Mathlib.Algebra.Order.Group.Nat

namespace Tyche.Radix

variable {τ W : Type}

theorem digits_div {b q i : Nat} (hi : i < b) : (q * b + i) / b = q := by
  rw [Nat.mul_comm, Nat.mul_add_div (by omega), Nat.div_eq_of_lt hi, Nat.add_zero]

theorem digits_mod {b q i : Nat} (hi : i < b) : (q * b + i) % b = i := by
  rw [Nat.mul_comm, Nat.mul_add_mod, Nat.mod_eq_of_lt hi]

/-- How tables are read. The root is at level `height`. -/
structure Layout (τ W : Type) where
  fanout : Nat
  height : Nat
  child : W → Option τ

/-- The word of leaf `n` below the table `t`, if there are tables down to it. -/
def Layout.lookup (r : Layout τ W) (mem : τ → Nat → W) : (level : Nat) → (t : τ) → (n : Nat) → Option W
  | 0, t, n => some (mem t (n % r.fanout))
  | level + 1, t, n =>
    (r.child (mem t (n / r.fanout ^ (level + 1) % r.fanout))).bind fun c => r.lookup mem level c n

/-- Where leaf `n` is below the table `t`, if there are tables down to it. -/
def Layout.slot (r : Layout τ W) (mem : τ → Nat → W) : (level : Nat) → (t : τ) → (n : Nat) → Option (τ × Nat)
  | 0, t, n => some (t, n % r.fanout)
  | level + 1, t, n =>
    (r.child (mem t (n / r.fanout ^ (level + 1) % r.fanout))).bind fun c => r.slot mem level c n

/-- The table is reached from the root, at this place. -/
inductive Layout.Reach (r : Layout τ W) (mem : τ → Nat → W) (root : τ) : Nat → Nat → τ → Prop
  | root : r.Reach mem root r.height 0 root
  | child {l q : Nat} {t : τ} {i : Nat} {c : τ} : r.Reach mem root (l + 1) q t → i < r.fanout →
      r.child (mem t i) = some c → r.Reach mem root l (q * r.fanout + i) c

theorem Layout.Reach.level_le {r : Layout τ W} {mem : τ → Nat → W} {root : τ} {l q : Nat} {t : τ} (h : r.Reach mem root l q t) :
    l ≤ r.height := by
  induction h with
  | root => exact Nat.le_refl _
  | child _ _ _ ih => exact Nat.le_of_succ_le ih

/-- What is reached stays, if the pointers on the way do. -/
theorem Layout.Reach.mono {r : Layout τ W} {mem mem' : τ → Nat → W} {root : τ} {l q : Nat} {t : τ} (h : r.Reach mem root l q t)
    (hmem : ∀ {l q t i c}, r.Reach mem root (l + 1) q t → r.child (mem t i) = some c → r.child (mem' t i) = some c) :
    r.Reach mem' root l q t := by
  induction h with
  | root => exact .root
  | child hp hi hc ih => exact .child ih hi (hmem hp hc)

/-- From a root without children, nothing else is reached. -/
theorem Layout.Reach.of_empty {r : Layout τ W} {mem : τ → Nat → W} {root : τ} {l q : Nat} {t : τ} (h : r.Reach mem root l q t)
    (hempty : ∀ i < r.fanout, r.child (mem root i) = none) : l = r.height ∧ q = 0 ∧ t = root := by
  induction h with
  | root => exact ⟨rfl, rfl, rfl⟩
  | child _ hi hc ih =>
    rw [ih.2.2, hempty _ hi] at hc
    cases hc

/-- From the root, a leaf is found where it is found below the tables over it. -/
theorem Layout.Reach.slot {r : Layout τ W} {mem : τ → Nat → W} {root : τ} {l q : Nat} {t : τ}
    (h : r.Reach mem root l q t) {n : Nat} (hn : n / r.fanout ^ (l + 1) = q) :
    r.slot mem r.height root n = r.slot mem l t n := by
  induction h with
  | root => rfl
  | @child l q t i c _ hi hc ih =>
    have hq : n / r.fanout ^ (l + 1 + 1) = q := by
      rw [pow_succ, ← Nat.div_div_eq_div_mul, hn, digits_div hi]
    rw [ih hq, Layout.slot, hn, digits_mod hi, hc, Option.bind_some]

section Reach

variable {r : Layout τ W} {mem mem' : τ → Nat → W} {root : τ}

/-- The leaves a path from the root can tell apart are found where it leads. -/
theorem Layout.slot_eq_some {n : Nat} (hn : n < r.fanout ^ (r.height + 1)) {t : τ} {i : Nat} :
    r.slot mem r.height root n = some (t, i) ↔ r.Reach mem root 0 (n / r.fanout) t ∧ i = n % r.fanout := by
  have hbelow : ∀ l t', r.Reach mem root l (n / r.fanout ^ (l + 1)) t' → r.slot mem l t' n = some (t, i) →
      r.Reach mem root 0 (n / r.fanout) t ∧ i = n % r.fanout := by
    intro l
    induction l with
    | zero =>
      intro t' ht' hslot
      rw [Nat.zero_add, pow_one] at ht'
      cases hslot
      exact ⟨ht', rfl⟩
    | succ l ih =>
      intro t' ht' hslot
      rw [Layout.slot, Option.bind_eq_some_iff] at hslot
      obtain ⟨c, hc, hslot⟩ := hslot
      have hpos : 0 < r.fanout := by
        refine Nat.pos_of_ne_zero fun h0 => ?_
        rw [h0, Nat.zero_pow (Nat.succ_pos _)] at hn
        exact Nat.not_lt_zero _ hn
      have hchild := Reach.child ht' (Nat.mod_lt _ hpos) hc
      rw [pow_succ _ (l + 1), ← Nat.div_div_eq_div_mul, Nat.div_add_mod'] at hchild
      exact ih c hchild hslot
  constructor
  · intro hslot
    refine hbelow r.height root ?_ hslot
    rw [Nat.div_eq_of_lt hn]
    exact .root
  · rintro ⟨ht, rfl⟩
    rw [ht.slot (by rw [Nat.zero_add, pow_one])]
    rfl

/-- No table is reached at two places. -/
def Layout.Unshared (r : Layout τ W) (mem : τ → Nat → W) (root : τ) : Prop :=
  ∀ l q l' q' t, r.Reach mem root l q t → r.Reach mem root l' q' t → l = l' ∧ q = q'

/-- All tables that are reached have the words they had, but for word `i` of `t`. -/
def Layout.WritesOnly (r : Layout τ W) (mem : τ → Nat → W) (root t : τ) (i : Nat) (mem' : τ → Nat → W) : Prop :=
  ∀ l q t' j, r.Reach mem root l q t' → (t' = t → j ≠ i) → mem' t' j = mem t' j

/-- A leaf is written: what is reached stays the same. -/
theorem Layout.Unshared.reach_write (h : r.Unshared mem root) {q : Nat} {t : τ} {i : Nat} (ht : r.Reach mem root 0 q t)
    (hmem : r.WritesOnly mem root t i mem') {l' q' : Nat} {t' : τ} :
    r.Reach mem' root l' q' t' ↔ r.Reach mem root l' q' t' := by
  have hsame : ∀ {l q t'} j, r.Reach mem root (l + 1) q t' → mem' t' j = mem t' j := fun j ht' =>
    hmem _ _ _ j ht' fun heq => absurd (h _ _ _ _ _ (heq ▸ ht') ht).1 (Nat.succ_ne_zero _)
  constructor
  · intro h'
    induction h' with
    | root => exact .root
    | child _ hi hc ih => exact .child ih hi (by rwa [← hsame _ ih])
  · exact fun h' => h'.mono fun hp hc => by rwa [hsame _ hp]

/-- A pointer to a fresh table is written where there was none: that table is reached too. -/
theorem Layout.Unshared.reach_grow (h : r.Unshared mem root) {l q : Nat} {t f : τ} {i : Nat}
    (ht : r.Reach mem root (l + 1) q t) (hi : i < r.fanout) (hnone : r.child (mem t i) = none)
    (hf : ∀ l q, ¬ r.Reach mem root l q f) (hlink : r.child (mem' t i) = some f)
    (hempty : ∀ j < r.fanout, r.child (mem' f j) = none) (hmem : r.WritesOnly mem root t i mem') {l' q' : Nat} {t' : τ} :
    r.Reach mem' root l' q' t' ↔ r.Reach mem root l' q' t' ∨ (t' = f ∧ l' = l ∧ q' = q * r.fanout + i) := by
  have hold : ∀ {l q t}, r.Reach mem root l q t → r.Reach mem' root l q t := fun h' =>
    h'.mono fun {l q t' j c} hp hc => by
      rw [hmem _ _ _ j hp, hc]
      rintro rfl rfl
      rw [hnone] at hc
      cases hc
  constructor
  · intro h'
    induction h' with
    | root => exact .inl .root
    | @child l' q' t' j c _ hj hc ih =>
      rcases ih with hp | ⟨rfl, -, -⟩
      · by_cases hslot : t' = t ∧ j = i
        · obtain ⟨rfl, rfl⟩ := hslot
          obtain ⟨hl, rfl⟩ := h _ _ _ _ _ hp ht
          obtain rfl := Nat.succ.inj hl
          rw [hlink] at hc
          exact .inr ⟨(Option.some.inj hc).symm, rfl, rfl⟩
        · rw [hmem _ _ _ j hp fun heq hji => hslot ⟨heq, hji⟩] at hc
          exact .inl (.child hp hj hc)
      · rw [hempty j hj] at hc
        cases hc
  · rintro (h' | ⟨rfl, rfl, rfl⟩)
    · exact hold h'
    · exact .child (hold ht) hi hlink

theorem Layout.Unshared.write (h : r.Unshared mem root) {q : Nat} {t : τ} {i : Nat} (ht : r.Reach mem root 0 q t)
    (hmem : r.WritesOnly mem root t i mem') : r.Unshared mem' root := fun _ _ _ _ _ h1 h2 =>
  h _ _ _ _ _ ((h.reach_write ht hmem).1 h1) ((h.reach_write ht hmem).1 h2)

theorem Layout.Unshared.grow (h : r.Unshared mem root) {l q : Nat} {t f : τ} {i : Nat}
    (ht : r.Reach mem root (l + 1) q t) (hi : i < r.fanout) (hnone : r.child (mem t i) = none)
    (hf : ∀ l q, ¬ r.Reach mem root l q f) (hlink : r.child (mem' t i) = some f)
    (hempty : ∀ j < r.fanout, r.child (mem' f j) = none) (hmem : r.WritesOnly mem root t i mem') :
    r.Unshared mem' root := by
  intro l₁ q₁ l₂ q₂ t' h1 h2
  rw [h.reach_grow ht hi hnone hf hlink hempty hmem] at h1 h2
  rcases h1 with h1 | ⟨rfl, rfl, rfl⟩
  · rcases h2 with h2 | ⟨rfl, -, -⟩
    · exact h _ _ _ _ _ h1 h2
    · exact absurd h1 (hf _ _)
  · rcases h2 with h2 | ⟨-, rfl, rfl⟩
    · exact absurd h2 (hf _ _)
    · exact ⟨rfl, rfl⟩

end Reach

/-- The tables of a tree, and their places. -/
structure Shape (τ : Type) where
  tables : List τ
  place : τ → Nat × Nat

/-- The table is in the tree, at this place. -/
def Shape.At (s : Shape τ) (l q : Nat) (t : τ) : Prop := t ∈ s.tables ∧ s.place t = (l, q)

/-- The tables of `s` are in `s'`, where they were. -/
def Shape.Within (s s' : Shape τ) : Prop := ∀ {l q t}, s.At l q t → s'.At l q t

theorem Shape.Within.refl (s : Shape τ) : s.Within s := fun h => h

theorem Shape.Within.trans {s s' s'' : Shape τ} (h : s.Within s') (h' : s'.Within s'') : s.Within s'' :=
  fun ht => h' (h ht)

/-- The shape with one more table. -/
def Shape.grow [DecidableEq τ] (s : Shape τ) (f : τ) (l q : Nat) : Shape τ :=
  ⟨f :: s.tables, Function.update s.place f (l, q)⟩

/-- The memory holds a tree of this shape. -/
structure Shape.Fits (r : Layout τ W) (mem : τ → Nat → W) (root : τ) (s : Shape τ) : Prop where
  nodup : s.tables.Nodup
  atRoot : s.At r.height 0 root
  top : ∀ {q t}, s.At r.height q t → t = root
  level : ∀ {l q t}, s.At l q t → l ≤ r.height
  down : ∀ {l q t i c}, s.At (l + 1) q t → i < r.fanout → r.child (mem t i) = some c →
    s.At l (q * r.fanout + i) c
  up : ∀ {l q c}, s.At l q c → l < r.height →
    ∃ t, s.At (l + 1) (q / r.fanout) t ∧ r.child (mem t (q % r.fanout)) = some c

section Grow

variable [DecidableEq τ] {s : Shape τ} {f t : τ} {l q l' q' : Nat}

theorem Shape.grow_at (hf : f ∉ s.tables) :
    (s.grow f l q).At l' q' t ↔ s.At l' q' t ∨ (t = f ∧ l' = l ∧ q' = q) := by
  unfold Shape.At Shape.grow
  by_cases htf : t = f
  · subst htf
    simp [hf, eq_comm]
  · simp [htf]

theorem Shape.within_grow (hf : f ∉ s.tables) : s.Within (s.grow f l q) :=
  fun h => (Shape.grow_at hf).2 (.inl h)

end Grow

section Fits

variable {r : Layout τ W} {mem : τ → Nat → W} {root : τ} {s : Shape τ}

/-- A tree has one table at a place. -/
theorem Shape.Fits.unique (h : s.Fits r mem root) {l q : Nat} {t t' : τ} (ht : s.At l q t) (ht' : s.At l q t') :
    t = t' := by
  obtain ⟨k, hk⟩ := Nat.exists_eq_add_of_le (h.level ht)
  induction k generalizing l q t t' with
  | zero =>
    have hl : l = r.height := hk.symm
    subst hl
    rw [h.top ht, h.top ht']
  | succ k ih =>
    obtain ⟨p, hp, hc⟩ := h.up ht (by omega)
    obtain ⟨p', hp', hc'⟩ := h.up ht' (by omega)
    rw [ih hp hp' (by omega)] at hc
    exact Option.some.inj (hc.symm.trans hc')

/-- Over a table there are tables at every level. -/
theorem Shape.Fits.ancestor (h : s.Fits r mem root) {l q : Nat} {c : τ} (hc : s.At l q c) {k : Nat}
    (hk : l + k ≤ r.height) : ∃ t, s.At (l + k) (q / r.fanout ^ k) t := by
  induction k with
  | zero => exact ⟨c, by simpa using hc⟩
  | succ k ih =>
    obtain ⟨t, ht⟩ := ih (by omega)
    obtain ⟨p, hp, -⟩ := h.up ht (by omega)
    rw [Nat.div_div_eq_div_mul, ← pow_succ] at hp
    exact ⟨p, hp⟩

theorem Shape.Fits.reach (h : s.Fits r mem root) {l q : Nat} {t : τ} (ht : r.Reach mem root l q t) : s.At l q t := by
  induction ht with
  | root => exact h.atRoot
  | child _ hi hc ih => exact h.down ih hi hc

/-- What is found below a table is a word of the leaf table. -/
theorem Shape.Fits.lookup_some (h : s.Fits r mem root) {l n : Nat} {t : τ} {w : W}
    (ht : s.At l (n / r.fanout ^ (l + 1)) t) (hfan : 0 < r.fanout) (hw : r.lookup mem l t n = some w) :
    ∃ c, s.At 0 (n / r.fanout) c ∧ mem c (n % r.fanout) = w := by
  induction l generalizing t with
  | zero => exact ⟨t, by simpa using ht, by simpa [Layout.lookup] using hw⟩
  | succ l ih =>
    obtain ⟨c, hc, hw⟩ := Option.bind_eq_some_iff.1 hw
    have hc' := h.down ht (Nat.mod_lt _ hfan) hc
    rw [pow_succ _ (l + 1), ← Nat.div_div_eq_div_mul, Nat.div_add_mod'] at hc'
    exact ih hc' hw

/-- Every leaf table is found from the tables over it. -/
theorem Shape.Fits.lookup_of_at (h : s.Fits r mem root) {l n : Nat} {t c : τ}
    (ht : s.At l (n / r.fanout ^ (l + 1)) t) (hc : s.At 0 (n / r.fanout) c) :
    r.lookup mem l t n = some (mem c (n % r.fanout)) := by
  induction l generalizing t with
  | zero =>
    have htc : t = c := h.unique ht (by simpa using hc)
    rw [Layout.lookup, htc]
  | succ l ih =>
    have hl := h.level ht
    -- The table over `c` at the next level has its parent in `t`.
    obtain ⟨p, hp⟩ := h.ancestor hc (k := l) (by omega)
    rw [Nat.zero_add, Nat.div_div_eq_div_mul, ← pow_succ'] at hp
    obtain ⟨t', ht', hchild⟩ := h.up hp (by omega)
    rw [Nat.div_div_eq_div_mul, ← pow_succ] at ht'
    obtain rfl := h.unique ht ht'
    rw [Layout.lookup, hchild, Option.bind_some]
    exact ih hp

/-- A leaf table has its words from memory: a write to one leaves the shape. -/
theorem Shape.Fits.write_leaf (h : s.Fits r mem root) {mem' : τ → Nat → W} {q : Nat} {t : τ} (ht : s.At 0 q t)
    (hmem : ∀ t', t' ≠ t → mem' t' = mem t') : s.Fits r mem' root := by
  have inner : ∀ {l q' t'}, s.At (l + 1) q' t' → mem' t' = mem t' := by
    intro l q' t' ht'
    refine hmem t' fun heq => ?_
    subst heq
    have := ht'.2.symm.trans ht.2
    simp at this
  refine { h with down := ?_, up := ?_ }
  · intro l q' t' i c ht' hi hc
    rw [inner ht'] at hc
    exact h.down ht' hi hc
  · intro l q' c hc hl
    obtain ⟨t', ht', hchild⟩ := h.up hc hl
    exact ⟨t', ht', by rw [inner ht']; exact hchild⟩

/-- An empty table becomes the child of a word that had none. -/
theorem Shape.Fits.grow [DecidableEq τ] (h : s.Fits r mem root) {mem' : τ → Nat → W} {l q i : Nat} {t f : τ}
    (ht : s.At (l + 1) q t) (hi : i < r.fanout) (hnone : r.child (mem t i) = none) (hf : f ∉ s.tables)
    (hchild : r.child (mem' t i) = some f) (hempty : ∀ j < r.fanout, r.child (mem' f j) = none)
    (hmem : ∀ t' j, t' ≠ f → (t' = t → j ≠ i) → mem' t' j = mem t' j) :
    (s.grow f l (q * r.fanout + i)).Fits r mem' root := by
  have hlevel := h.level ht
  have htf : t ≠ f := fun heq => hf (heq ▸ ht.1)
  refine ⟨List.nodup_cons.2 ⟨hf, h.nodup⟩, Shape.within_grow hf h.atRoot, ?_, ?_, ?_, ?_⟩
  · intro q' t' ht'
    rcases (Shape.grow_at hf).1 ht' with ht' | ⟨-, hl, -⟩
    · exact h.top ht'
    · omega
  · intro l' q' t' ht'
    rcases (Shape.grow_at hf).1 ht' with ht' | ⟨-, hl, -⟩
    · exact h.level ht'
    · omega
  · intro l' q' t' j c ht' hj hc
    rcases (Shape.grow_at hf).1 ht' with hold | ⟨rfl, -, -⟩
    · have htf' : t' ≠ f := fun heq => hf (heq ▸ hold.1)
      by_cases hslot : t' = t ∧ j = i
      · obtain ⟨rfl, rfl⟩ := hslot
        have hplace : l' = l ∧ q' = q := by simpa using hold.2.symm.trans ht.2
        rw [hchild, Option.some.injEq] at hc
        exact (Shape.grow_at hf).2 (.inr ⟨hc.symm, by omega, by rw [hplace.2]⟩)
      · rw [hmem t' j htf' fun heq hji => hslot ⟨heq, hji⟩] at hc
        exact Shape.within_grow hf (h.down hold hj hc)
    · rw [hempty j hj] at hc
      cases hc
  · intro l' q' c hc hl'
    rcases (Shape.grow_at hf).1 hc with hc | ⟨rfl, rfl, rfl⟩
    · obtain ⟨t', ht', hchild'⟩ := h.up hc hl'
      refine ⟨t', Shape.within_grow hf ht', ?_⟩
      rw [hmem t' _ (fun heq => hf (heq ▸ ht'.1))]
      · exact hchild'
      · rintro rfl rfl
        rw [hnone] at hchild'
        cases hchild'
    · refine ⟨t, Shape.within_grow hf ?_, ?_⟩
      · rw [digits_div hi]
        exact ht
      · rw [digits_mod hi]
        exact hchild

/-- A root without children. -/
theorem Shape.fits_root {r : Layout τ W} {mem : τ → Nat → W} {root : τ}
    (hempty : ∀ i < r.fanout, r.child (mem root i) = none) :
    Shape.Fits r mem root ⟨[root], fun _ => (r.height, 0)⟩ := by
  have only : ∀ {l q t}, Shape.At ⟨[root], fun _ => (r.height, 0)⟩ l q t → t = root ∧ r.height = l ∧ 0 = q := by
    intro l q t ht
    simpa [Shape.At] using ht
  refine ⟨by simp, ⟨by simp, rfl⟩, fun ht => (only ht).1, fun ht => ?_, fun ht hi hc => ?_, fun ht hl => ?_⟩
  · exact Nat.le_of_eq (only ht).2.1.symm
  · rw [(only ht).1, hempty _ hi] at hc
    cases hc
  · exact absurd hl (by rw [(only ht).2.1]; exact Nat.lt_irrefl _)

end Fits

/-! ## The leaves -/

/-- The leaf tables of the tree hold the words of `leaf`, and have every word
that is not `zero`. -/
structure Leaves (r : Layout τ W) (mem : τ → Nat → W) (s : Shape τ) (zero : W) (leaf : Nat → W) : Prop where
  word : ∀ {q t i}, s.At 0 q t → i < r.fanout → mem t i = leaf (q * r.fanout + i)
  table : ∀ {n}, leaf n ≠ zero → ∃ t, s.At 0 (n / r.fanout) t

section Leaves

variable {r : Layout τ W} {mem mem' : τ → Nat → W} {root : τ} {s : Shape τ} {zero : W} {leaf : Nat → W}

/-- The lookup from the root finds the leaves. -/
theorem Leaves.lookup (h : Leaves r mem s zero leaf) (hs : s.Fits r mem root) (hfan : 0 < r.fanout) {n : Nat}
    (hn : n < r.fanout ^ (r.height + 1)) :
    (∀ w, r.lookup mem r.height root n = some w → w = leaf n) ∧
    (leaf n ≠ zero → r.lookup mem r.height root n = some (leaf n)) := by
  have hroot : s.At r.height (n / r.fanout ^ (r.height + 1)) root := by
    rw [Nat.div_eq_of_lt hn]
    exact hs.atRoot
  have hword : ∀ {t}, s.At 0 (n / r.fanout) t → mem t (n % r.fanout) = leaf n := by
    intro t ht
    rw [h.word ht (Nat.mod_lt _ hfan), Nat.div_add_mod']
  refine ⟨fun w hw => ?_, fun hleaf => ?_⟩
  · obtain ⟨c, hc, hcw⟩ := hs.lookup_some hroot hfan hw
    rw [← hcw, hword hc]
  · obtain ⟨t, ht⟩ := h.table hleaf
    rw [hs.lookup_of_at hroot ht, hword ht]

/-- A word is written in a leaf table. -/
theorem Leaves.write (h : Leaves r mem s zero leaf) (hs : s.Fits r mem root) {q i : Nat} {t : τ} {w : W}
    (ht : s.At 0 q t) (hi : i < r.fanout) (hw : mem' t i = w)
    (hmem : ∀ t' j, (t' = t → j ≠ i) → mem' t' j = mem t' j) :
    Leaves r mem' s zero (Function.update leaf (q * r.fanout + i) w) := by
  constructor
  · intro q' t' j ht' hj
    by_cases hn : q' * r.fanout + j = q * r.fanout + i
    · -- The same leaf is in the same table.
      have hj' : j = i := by rw [← digits_mod (q := q') hj, hn, digits_mod hi]
      have hq' : q' = q := by rw [← digits_div (q := q') hj, hn, digits_div hi]
      subst hj' hq'
      rw [hs.unique ht' ht, hw, Function.update_self]
    · rw [Function.update_of_ne hn, ← h.word ht' hj]
      refine hmem t' j ?_
      rintro rfl rfl
      have hq : q' = q := by simpa using ht'.2.symm.trans ht.2
      exact hn (by rw [hq])
  · intro n hn
    by_cases hni : n = q * r.fanout + i
    · exact ⟨t, by rw [hni, digits_div hi]; exact ht⟩
    · rw [Function.update_of_ne hni] at hn
      exact h.table hn

/-- A new table has no leaves. -/
theorem Leaves.grow [DecidableEq τ] (h : Leaves r mem s zero leaf) (hs : s.Fits r mem root) {l q i : Nat} {t f : τ}
    (ht : s.At (l + 1) q t) (hi : i < r.fanout) (hnone : r.child (mem t i) = none) (hf : f ∉ s.tables)
    (hzero : ∀ j < r.fanout, mem' f j = zero)
    (hmem : ∀ t' j, t' ≠ f → (t' = t → j ≠ i) → mem' t' j = mem t' j) :
    Leaves r mem' (s.grow f l (q * r.fanout + i)) zero leaf := by
  constructor
  · intro q' t' j ht' hj
    rcases (Shape.grow_at hf).1 ht' with hold | ⟨rfl, rfl, rfl⟩
    · rw [hmem t' j fun heq => hf (heq ▸ hold.1)]
      · exact h.word hold hj
      · rintro rfl rfl
        have := hold.2.symm.trans ht.2
        simp at this
    · rw [hzero j hj]
      by_contra hleaf
      -- A leaf there would have had a table under the word that had no child.
      obtain ⟨c, hc⟩ := h.table fun heq => hleaf heq.symm
      rw [digits_div hj] at hc
      obtain ⟨p, hp, hchild⟩ := hs.up hc (hs.level ht)
      rw [digits_div hi] at hp
      rw [hs.unique hp ht, digits_mod hi, hnone] at hchild
      cases hchild
  · intro n hn
    obtain ⟨t', ht'⟩ := h.table hn
    exact ⟨t', Shape.within_grow hf ht'⟩

end Leaves

end Tyche.Radix
