/-
What the processor lets a program do at an address: of the rights to a page,
those that all entries on the way to it grant.
-/
import Tyche.Pts.Tables

namespace Tyche.Pts

open Tyche.Bits Tyche.Radix

/-- What may be done with a page, besides reading it as the kernel. -/
structure Rights where
  write : Bool
  exec : Bool
  user : Bool
deriving DecidableEq

/-- Everything may be done. -/
def Rights.all : Rights := ⟨true, true, true⟩

/-- What both grant. -/
def Rights.both (p q : Rights) : Rights := ⟨p.write && q.write, p.exec && q.exec, p.user && q.user⟩

@[simp] theorem Rights.all_both (p : Rights) : Rights.all.both p = p := rfl

/-- What an entry grants. -/
def entryRights (e : Nat) : Rights := ⟨decide (e &&& ptRW ≠ 0), decide (e &&& ptNX = 0), decide (e &&& ptUSR ≠ 0)⟩

/-- `pageWalk`, with what all entries on the way grant. -/
def accessWalk (mem : Nat → Nat → Nat) : (level table va : Nat) → Option (Nat × Nat × Rights)
  | 0, table, va =>
    let e := mem table (va / span 0 % 512)
    if Present e then some (0, e, entryRights e) else none
  | level + 1, table, va =>
    let e := mem table (va / span (level + 1) % 512)
    if ¬ Present e then none
    else if Huge e then some (level + 1, e, entryRights e)
    else (accessWalk mem level (x86_64Next e (level + 1)) va).map fun r => (r.1, r.2.1, (entryRights e).both r.2.2)

/-- The rights of an entry are among the bits of this mask. -/
theorem entryRights_and {m : Nat} (hrw : m &&& ptRW = ptRW) (hnx : m &&& ptNX = ptNX) (husr : m &&& ptUSR = ptUSR) (e : Nat) :
    entryRights (e &&& m) = entryRights e := by
  unfold entryRights
  rw [Nat.and_assoc, Nat.and_assoc, Nat.and_assoc, hrw, hnx, husr]

/-- An address has no rights. -/
theorem Frame.entryRights {f : Nat} (h : Frame f) (b : Nat) : Pts.entryRights (f ||| b) = Pts.entryRights b := by
  have hnone : ∀ m, ptPhysPageMask &&& m = 0 → (f ||| b) &&& m = b &&& m := by
    intro m hm
    rw [Nat.and_or_distrib_right, ← h.and_mask, Nat.and_assoc, hm, Nat.and_zero, Nat.zero_or]
  unfold Pts.entryRights
  rw [hnone ptRW (by decide), hnone ptNX (by decide), hnone ptUSR (by decide)]

/-- Above the tables of leaves, everything is granted. -/
def Passes (mem : Nat → Nat → Nat) (root : Nat) : Prop :=
  ∀ {l q t i}, layout.Reach mem root (l + 1) q t → i < 512 → Present (mem t i) → entryRights (mem t i) = .all

section Walk

variable {mem mem' : Nat → Nat → Nat} {root : Nat}

/-- **The rights at an address** are those of its last entry, if everything is
granted above. -/
theorem accessWalk_eq (h : Passes mem root) (va : Nat) :
    accessWalk mem ptPML4 root va = (pageWalk mem ptPML4 root va).map fun r => (r.1, r.2, entryRights r.2) := by
  have hbelow : ∀ l q t, layout.Reach mem root l q t →
      accessWalk mem l t va = (pageWalk mem l t va).map fun r => (r.1, r.2, entryRights r.2) := by
    intro l
    induction l with
    | zero =>
      intro q t ht
      rw [accessWalk, pageWalk]
      split <;> rfl
    | succ l ih =>
      intro q t ht
      rw [accessWalk, pageWalk]
      split
      · rfl
      next hp =>
      split
      · rfl
      · have hp := not_not.1 hp
        have hi : va / span (l + 1) % 512 < 512 := Nat.mod_lt _ (by decide)
        have hnext := ih _ (x86_64Next (mem t (va / span (l + 1) % 512)) (l + 1)) (ht.child hi (layout_child hp))
        rw [hnext, h ht hi hp, Option.map_map]
        rfl
  exact hbelow ptPML4 0 root .root

/-- No other table is reached, if those that are reached are the same. -/
theorem reach_of_same (h : ∀ {l q t}, layout.Reach mem root l q t → mem' t = mem t) {l q t : Nat}
    (ht : layout.Reach mem' root l q t) : layout.Reach mem root l q t := by
  induction ht with
  | root => exact .root
  | child _ hi hc ih =>
    rw [h ih] at hc
    exact ih.child hi hc

/-- The processor grants the same, if the tables that are reached are the same. -/
theorem accessWalk_congr (h : ∀ {l q t}, layout.Reach mem root l q t → mem' t = mem t) (va : Nat) :
    accessWalk mem' ptPML4 root va = accessWalk mem ptPML4 root va := by
  have hbelow : ∀ l q t, layout.Reach mem root l q t → accessWalk mem' l t va = accessWalk mem l t va := by
    intro l
    induction l with
    | zero =>
      intro q t ht
      rw [accessWalk, accessWalk, h ht]
    | succ l ih =>
      intro q t ht
      rw [accessWalk, accessWalk, h ht]
      split
      · rfl
      next hp =>
      split
      · rfl
      · have hnext := ih _ (x86_64Next (mem t (va / span (l + 1) % 512)) (l + 1))
          (ht.child (Nat.mod_lt _ (by decide)) (layout_child (not_not.1 hp)))
        rw [hnext]
  exact hbelow ptPML4 0 root .root

end Walk

end Tyche.Pts
