/-
A profile whose callbacks keep more than another profile's do, and otherwise
do the same: its walks are those of the other, once that is forgotten.
-/
import Tyche.Pts.Walk
import Mathlib.Data.Option.Defs

namespace Tyche.Pts

variable {ε ε' α : Type} {p' : Profile ε'} {p : Profile ε} {f : ε' → ε}

/-- The machine, with a part of its extras only. -/
def Machine.over (f : ε' → ε) (m : Machine ε') : Machine ε := { mem := m.mem, currVa := m.currVa, extras := f m.extras }

/-- What a call ends with, with a part of the extras only. -/
def erased (f : ε' → ε) (r : Outcome α × Machine ε') : Outcome α × Machine ε := (r.1, r.2.over f)

/-- The callback does what the other one does, but for the rest of the extras. -/
def Covers (f : ε' → ε) (c' : Callback ε') (c : Callback ε) : Prop :=
  ∀ table i level m, erased f (c' table i level m) = c table i level (m.over f)

/-- The profile does what the other one does, but for the rest of the extras. -/
structure Profile.Erases (p' : Profile ε') (p : Profile ε) (f : ε' → ε) : Prop where
  nbLevels : p'.nbLevels = p.nbLevels
  nbEntries : p'.nbEntries = p.nbEntries
  masks : p'.masks = p.masks
  shifts : p'.shifts = p.shifts
  next : p'.next = p.next
  how : Covers f p'.how p.how
  mappers : ∀ level, Option.Rel (Covers f) (p'.mappers level) (p.mappers level)
  visitors : ∀ level, Option.Rel (Covers f) (p'.visitors level) (p.visitors level)

section Erases

variable (h : p'.Erases p f) (table i level start end_ : Nat) (m : Machine ε')
include h

theorem Profile.Erases.getIndex (addr : Nat) : p'.getIndex addr level = p.getIndex addr level := by
  rw [Profile.getIndex, Profile.getIndex, h.masks, h.shifts]

theorem Profile.Erases.entryVa : p'.entryVa level start i = p.entryVa level start i := by
  rw [Profile.entryVa, Profile.entryVa, h.getIndex, h.masks, h.shifts]

theorem Profile.Erases.visitEntry : erased f (p'.visitEntry table i level m) = p.visitEntry table i level (m.over f) := by
  have hrel := h.visitors level
  unfold Profile.visitEntry
  generalize p'.visitors level = slot' at hrel ⊢
  generalize p.visitors level = slot at hrel ⊢
  cases hrel with
  | none => rfl
  | @some visitor' visitor hvisitor =>
    dsimp only
    rw [← hvisitor table i level m]
    obtain ⟨o, m'⟩ := visitor' table i level m
    match o with
    | .ret .walk | .ret .visit | .ret .map | .ret .skip | .ret .error | .fault | .freed => rfl

theorem Profile.Erases.mapEntry : erased f (p'.mapEntry table i level m) = p.mapEntry table i level (m.over f) := by
  have hrel := h.mappers level
  unfold Profile.mapEntry
  generalize p'.mappers level = slot' at hrel ⊢
  generalize p.mappers level = slot at hrel ⊢
  cases hrel with
  | none => exact h.visitEntry table i level m
  | @some mapper' mapper hmapper =>
    dsimp only
    rw [← hmapper table i level m]
    obtain ⟨o, m'⟩ := mapper' table i level m
    match o with
    | .ret .visit => exact h.visitEntry table i level m'
    | .ret .walk | .ret .map | .ret .skip | .ret .error | .fault | .freed => rfl

theorem Profile.Erases.handleEntry : erased f (p'.handleEntry table i level m) = p.handleEntry table i level (m.over f) := by
  unfold Profile.handleEntry
  rw [← h.how table i level m]
  obtain ⟨o, m'⟩ := p'.how table i level m
  match o with
  | .ret .visit => exact h.visitEntry table i level m'
  | .ret .map => exact h.mapEntry table i level m'
  | .ret .walk | .ret .skip | .ret .error | .fault | .freed => rfl

/-- The loop over a table is that of the other profile, if the walks below are. -/
theorem Profile.Erases.walkEntries {walkNext' : Nat → Nat → Machine ε' → Outcome Int × Machine ε'}
    {walkNext : Nat → Nat → Machine ε → Outcome Int × Machine ε}
    (hnext : ∀ next va m, erased f (walkNext' next va m) = walkNext next va (m.over f)) (n : Nat) :
    ∀ i m, erased f (p'.walkEntries walkNext' table level start end_ n i m) =
      p.walkEntries walkNext table level start end_ n i (m.over f) := by
  induction n with
  | zero => exact fun _ _ => rfl
  | succ n ih =>
    intro i m
    unfold Profile.walkEntries
    dsimp only
    rw [h.entryVa]
    by_cases hge : p.entryVa level start i ≥ end_
    · rw [if_pos hge, if_pos hge]
      rfl
    rw [if_neg hge, if_neg hge]
    have hentry := h.handleEntry table i level { m with currVa := p.entryVa level start i }
    have hcurr : Machine.over f { m with currVa := p.entryVa level start i } =
        { m.over f with currVa := p.entryVa level start i } := rfl
    rw [hcurr] at hentry
    rw [← hentry]
    obtain ⟨o, m'⟩ := p'.handleEntry table i level { m with currVa := p.entryVa level start i }
    rcases o with (_ | _ | _) | _ | _
    case ret.next => exact ih _ _
    case ret.descend =>
      show erased f (if level = 0 then _ else _) = if level = 0 then _ else _
      by_cases hlevel : level = 0
      · rw [if_pos hlevel, if_pos hlevel]
        exact ih _ _
      · rw [if_neg hlevel, if_neg hlevel]
        have hwalk := hnext (p'.next (m'.mem table i) level) (p.entryVa level start i) m'
        rw [h.next] at hwalk ⊢
        have hmem : (m'.over f).mem table i = m'.mem table i := rfl
        dsimp only [erased]
        rw [hmem, ← hwalk]
        obtain ⟨o, m''⟩ := walkNext' (p.next (m'.mem table i) level) (p.entryVa level start i) m'
        rcases o with r | _ | _
        case ret =>
          show erased f (if r = -1 then _ else _) = if r = -1 then _ else _
          by_cases hr : r = -1
          · rw [if_pos hr, if_pos hr]
            rfl
          · rw [if_neg hr, if_neg hr]
            exact ih _ _
        case fault | freed => rfl
    case ret.error | fault | freed => rfl

/-- **The walk is that of the other profile.** -/
theorem Profile.Erases.ptWalkPageRange : ∀ root start m,
    erased f (p'.ptWalkPageRange level root start end_ m) = p.ptWalkPageRange level root start end_ (m.over f) := by
  induction level with
  | zero =>
    intro root start m
    unfold Profile.ptWalkPageRange
    rw [h.nbLevels, h.nbEntries, h.getIndex]
    split
    · exact h.walkEntries _ _ _ _ (fun _ _ _ => rfl) _ _ _
    · rfl
  | succ level ih =>
    intro root start m
    unfold Profile.ptWalkPageRange
    rw [h.nbLevels, h.nbEntries, h.getIndex]
    split
    · exact h.walkEntries _ _ _ _ (fun next va m => ih next va m) _ _ _
    · rfl

end Erases

end Tyche.Pts
