/-
The page-table library (`pts_api.h`, `lib.c`): the walk of a range of
virtual addresses through a tree of tables, with callbacks that map, visit
or skip the entries, and two rules for proofs about a walk.

A pointer to an entry is the physical address of its table, which is page
aligned, and its index. Words are 64 bits wide; an index is 32.
-/
import Mathlib.Algebra.Group.Nat.Defs

namespace Tyche.Pts

/-- `callback_action_t`. -/
inductive CallbackAction
  | walk
  | visit
  | map
  | skip
  | error
deriving DecidableEq, Repr

/-- What a call ends with: a value, a failed `TEST`, which writes through
NULL, or the use of memory that was freed. -/
inductive Outcome (α : Type)
  | ret (v : α)
  | fault
  | freed
deriving DecidableEq, Repr

/-- What the callbacks work on: the tables in memory, and what the profile
carries for them (`curr_va` and `extras`). -/
structure Machine (ε : Type) where
  mem : Nat → Nat → Nat
  currVa : Nat
  extras : ε

/-- The entry `i` of a table is written. -/
def Machine.store {ε : Type} (m : Machine ε) (table i entry : Nat) : Machine ε :=
  { m with mem := fun t j => if t = table ∧ j = i then entry else m.mem t j }

/-- A table is filled with zeros. -/
def Machine.clear {ε : Type} (m : Machine ε) (table : Nat) : Machine ε :=
  { m with mem := fun t j => if t = table then 0 else m.mem t j }

/-- `callback_t`, on the entry `i` of a table, at a level. -/
abbrev Callback (ε : Type) := Nat → Nat → Nat → Machine ε → Outcome CallbackAction × Machine ε

/-- `pt_profile_t`, less the functions that only the callbacks use. -/
structure Profile (ε : Type) where
  nbLevels : Nat
  nbEntries : Nat
  visitors : Nat → Option (Callback ε)
  mappers : Nat → Option (Callback ε)
  masks : Nat → Nat
  shifts : Nat → Nat
  how : Callback ε
  next : Nat → Nat → Nat

variable {ε : Type}

/-- `get_index`. -/
def Profile.getIndex (p : Profile ε) (addr level : Nat) : Nat :=
  ((addr &&& p.masks level) >>> p.shifts level) % 2 ^ 32

/-- The address of entry `i`, in a walk of its table from `start`. -/
def Profile.entryVa (p : Profile ε) (level start i : Nat) : Nat :=
  let va := (start &&& (2 ^ 64 - 1 - p.masks level)) ||| ((i <<< p.shifts level) % 2 ^ 64)
  -- The lower bits are cleared once the walk is past the start.
  if i ≠ p.getIndex start level then ((va >>> p.shifts level) <<< p.shifts level) % 2 ^ 64 else va

/-- Where the loop goes from an entry. -/
inductive Verdict
  | next
  | descend
  | error
deriving DecidableEq, Repr

/-- The entry from the label `visit` on. -/
def Profile.visitEntry (p : Profile ε) (table i level : Nat) (m : Machine ε) : Outcome Verdict × Machine ε :=
  match p.visitors level with
  | none => (.ret .descend, m)
  | some visitor =>
    match visitor table i level m with
    | (.ret .walk, m) => (.ret .descend, m)
    | (.ret .skip, m) => (.ret .next, m)
    | (.ret .error, m) => (.ret .error, m)
    | (.ret .visit, m) | (.ret .map, m) => (.fault, m)
    | (.fault, m) => (.fault, m)
    | (.freed, m) => (.freed, m)

/-- The entry from the label `map` on. -/
def Profile.mapEntry (p : Profile ε) (table i level : Nat) (m : Machine ε) : Outcome Verdict × Machine ε :=
  match p.mappers level with
  | none => p.visitEntry table i level m
  | some mapper =>
    match mapper table i level m with
    | (.ret .walk, m) => (.ret .descend, m)
    | (.ret .visit, m) => p.visitEntry table i level m
    | (.ret .skip, m) => (.ret .next, m)
    | (.ret .error, m) => (.ret .error, m)
    | (.ret .map, m) => (.fault, m)
    | (.fault, m) => (.fault, m)
    | (.freed, m) => (.freed, m)

/-- The callbacks of an entry. -/
def Profile.handleEntry (p : Profile ε) (table i level : Nat) (m : Machine ε) : Outcome Verdict × Machine ε :=
  match p.how table i level m with
  | (.ret .skip, m) => (.ret .next, m)
  | (.ret .visit, m) => p.visitEntry table i level m
  | (.ret .map, m) => p.mapEntry table i level m
  | (.ret .walk, m) => (.ret .descend, m)
  | (.ret .error, m) => (.ret .error, m)
  | (.fault, m) => (.fault, m)
  | (.freed, m) => (.freed, m)

/-- The loop of `pt_walk_page_range` over the last `n` entries of a table,
from `i` on. `walkNext` walks the next level, and there is none below level 0. -/
def Profile.walkEntries (p : Profile ε) (walkNext : Nat → Nat → Machine ε → Outcome Int × Machine ε)
    (table level start end_ : Nat) : Nat → Nat → Machine ε → Outcome Int × Machine ε
  | 0, _, m => (.ret 0, { m with currVa := 0 })
  | n + 1, i, m =>
    let va := p.entryVa level start i
    if va ≥ end_ then (.ret 0, { m with currVa := 0 })
    else match p.handleEntry table i level { m with currVa := va } with
      | (.ret .next, m) => p.walkEntries walkNext table level start end_ n (i + 1) m
      | (.ret .descend, m) =>
        if level = 0 then p.walkEntries walkNext table level start end_ n (i + 1) m
        else match walkNext (p.next (m.mem table i) level) va m with
          | (.ret r, m) =>
            if r = -1 then (.fault, m) else p.walkEntries walkNext table level start end_ n (i + 1) m
          | (.fault, m) => (.fault, m)
          | (.freed, m) => (.freed, m)
      | (.ret .error, m) => (.ret (-1), m)
      | (.fault, m) => (.fault, m)
      | (.freed, m) => (.freed, m)

/-- `pt_walk_page_range`. -/
def Profile.ptWalkPageRange (p : Profile ε) : (level : Nat) → (root start end_ : Nat) → Machine ε →
    Outcome Int × Machine ε
  | 0, root, start, end_, m =>
    if start < end_ ∧ 0 < p.nbLevels then
      p.walkEntries (fun _ _ m => (.fault, m)) root 0 start end_ (p.nbEntries - p.getIndex start 0)
        (p.getIndex start 0) m
    else (.fault, m)
  | level + 1, root, start, end_, m =>
    if start < end_ ∧ level + 1 < p.nbLevels then
      p.walkEntries (fun next va m => p.ptWalkPageRange level next va end_ m) root (level + 1) start end_
        (p.nbEntries - p.getIndex start (level + 1)) (p.getIndex start (level + 1)) m
    else (.fault, m)

/-! ## The address at the end -/

theorem Profile.walkEntries_currVa (p : Profile ε) {walkNext : Nat → Nat → Machine ε → Outcome Int × Machine ε}
    {table level start end_ n : Nat} : ∀ {i m}, (p.walkEntries walkNext table level start end_ n i m).1 = .ret 0 →
      (p.walkEntries walkNext table level start end_ n i m).2.currVa = 0 := by
  induction n with
  | zero => exact fun _ => rfl
  | succ n ih =>
    intro i m h
    unfold Profile.walkEntries at h ⊢
    dsimp only at h ⊢
    split at h
    next hge => rw [if_pos hge]
    next hlt =>
      rw [if_neg hlt]
      split at h
      · exact ih h
      · split at h
        next hlevel =>
          rw [if_pos hlevel]
          exact ih h
        next hlevel =>
          rw [if_neg hlevel]
          split at h
          · split at h
            · cases h
            next hr =>
              rw [if_neg hr]
              exact ih h
          all_goals cases h
      all_goals cases h

/-- A walk that returns 0 resets the current address. -/
theorem Profile.ptWalkPageRange_currVa (p : Profile ε) {level root start end_ : Nat} {m : Machine ε}
    (h : (p.ptWalkPageRange level root start end_ m).1 = .ret 0) :
    (p.ptWalkPageRange level root start end_ m).2.currVa = 0 := by
  cases level <;> unfold Profile.ptWalkPageRange at h ⊢ <;> split at h
  case zero.isTrue hc | succ.isTrue hc =>
    rw [if_pos hc]
    exact p.walkEntries_currVa h
  all_goals cases h

/-! ## What the callbacks keep, the walk keeps -/

/-- Every callback takes its extras to later ones, whatever it returns. -/
structure Profile.Advances (p : Profile ε) (later : ε → ε → Prop) : Prop where
  refl : ∀ e, later e e
  trans : ∀ {e f g}, later e f → later f g → later e g
  how : ∀ t i l m, later m.extras (p.how t i l m).2.extras
  mapper : ∀ {l f}, p.mappers l = some f → ∀ t i m, later m.extras (f t i l m).2.extras
  visitor : ∀ {l f}, p.visitors l = some f → ∀ t i m, later m.extras (f t i l m).2.extras

section Advances

variable {p : Profile ε} {later : ε → ε → Prop}

theorem Profile.Advances.visitEntry (h : p.Advances later) (t i l : Nat) (m : Machine ε) :
    later m.extras (p.visitEntry t i l m).2.extras := by
  unfold Profile.visitEntry
  cases hv : p.visitors l with
  | none => exact h.refl _
  | some visitor =>
    have hlater := h.visitor hv t i m
    dsimp only
    split <;> simp_all

theorem Profile.Advances.mapEntry (h : p.Advances later) (t i l : Nat) (m : Machine ε) :
    later m.extras (p.mapEntry t i l m).2.extras := by
  unfold Profile.mapEntry
  cases hf : p.mappers l with
  | none => exact h.visitEntry t i l m
  | some mapper =>
    have hlater := h.mapper hf t i m
    dsimp only
    split
    case h_2 m' heq =>
      rw [heq] at hlater
      exact h.trans hlater (h.visitEntry t i l m')
    all_goals simp_all

theorem Profile.Advances.handleEntry (h : p.Advances later) (t i l : Nat) (m : Machine ε) :
    later m.extras (p.handleEntry t i l m).2.extras := by
  have hlater := h.how t i l m
  unfold Profile.handleEntry
  split
  case h_2 m' heq =>
    rw [heq] at hlater
    exact h.trans hlater (h.visitEntry t i l m')
  case h_3 m' heq =>
    rw [heq] at hlater
    exact h.trans hlater (h.mapEntry t i l m')
  all_goals simp_all

theorem Profile.Advances.walkEntries (h : p.Advances later)
    {walkNext : Nat → Nat → Machine ε → Outcome Int × Machine ε}
    (hnext : ∀ next va m, later m.extras (walkNext next va m).2.extras) (table level start end_ n : Nat) :
    ∀ i m, later m.extras (p.walkEntries walkNext table level start end_ n i m).2.extras := by
  induction n with
  | zero => exact fun _ _ => h.refl _
  | succ n ih =>
    intro i m
    have hentry := h.handleEntry table i level { m with currVa := p.entryVa level start i }
    unfold Profile.walkEntries
    dsimp only
    split
    · exact h.refl _
    split
    case h_1 m' heq =>
      rw [heq] at hentry
      exact h.trans hentry (ih _ _)
    case h_2 m' heq =>
      rw [heq] at hentry
      refine h.trans hentry ?_
      split
      · exact ih _ _
      have hwalk := hnext (p.next (m'.mem table i) level) (p.entryVa level start i) m'
      split
      next heq' =>
        rw [heq'] at hwalk
        split
        · exact hwalk
        · exact h.trans hwalk (ih _ _)
      all_goals simp_all
    all_goals simp_all

theorem Profile.Advances.ptWalkPageRange (h : p.Advances later) (end_ level : Nat) :
    ∀ root start m, later m.extras (p.ptWalkPageRange level root start end_ m).2.extras := by
  induction level with
  | zero =>
    intro root start m
    unfold Profile.ptWalkPageRange
    split
    · exact h.walkEntries (fun _ _ _ => h.refl _) ..
    · exact h.refl _
  | succ level ih =>
    intro root start m
    unfold Profile.ptWalkPageRange
    split
    · exact h.walkEntries ih ..
    · exact h.refl _

end Advances

/-! ## The rule for a walk -/

/-- An invariant of a walk up to `end_`, in its loops: `J g level table start i m`
before entry `i` of a table that is walked from `start`, and `Post g level table start m`
when its walk is over. `g` is what the walk of a table remembers. A step may
count on all that follows it up to `final`, and goes wrong only if `stuck`. -/
structure Profile.Walks {γ : Type} (p : Profile ε) (later : ε → ε → Prop) (final : ε) (end_ : Nat)
    (J : γ → Nat → Nat → Nat → Nat → Machine ε → Prop) (Post : γ → Nat → Nat → Nat → Machine ε → Prop)
    (stuck : Prop) : Prop where
  finish : ∀ {g level table start i m}, J g level table start i m →
    (p.nbEntries ≤ i ∨ end_ ≤ p.entryVa level start i) → Post g level table start { m with currVa := 0 }
  next : ∀ {g level table start i m m'}, J g level table start i m → i < p.nbEntries →
    p.entryVa level start i < end_ →
    p.handleEntry table i level { m with currVa := p.entryVa level start i } = (.ret .next, m') →
    later m'.extras final → J g level table start (i + 1) m'
  leaf : ∀ {g table start i m m'}, J g 0 table start i m → i < p.nbEntries → p.entryVa 0 start i < end_ →
    p.handleEntry table i 0 { m with currVa := p.entryVa 0 start i } = (.ret .descend, m') →
    later m'.extras final → J g 0 table start (i + 1) m'
  enter : ∀ {g level table start i m m'}, J g (level + 1) table start i m → i < p.nbEntries →
    p.entryVa (level + 1) start i < end_ →
    p.handleEntry table i (level + 1) { m with currVa := p.entryVa (level + 1) start i } = (.ret .descend, m') →
    later m'.extras final →
    ∃ g', J g' level (p.next (m'.mem table i) (level + 1)) (p.entryVa (level + 1) start i)
        (p.getIndex (p.entryVa (level + 1) start i) level) m' ∧
      ∀ m'', later m'.extras m''.extras → later m''.extras final →
        Post g' level (p.next (m'.mem table i) (level + 1)) (p.entryVa (level + 1) start i) m'' →
        J g (level + 1) table start (i + 1) m''
  stop : ∀ {g level table start i m m'} {o : Outcome Verdict}, J g level table start i m → i < p.nbEntries →
    p.entryVa level start i < end_ →
    p.handleEntry table i level { m with currVa := p.entryVa level start i } = (o, m') → later m'.extras final →
    o ≠ .ret .next → o ≠ .ret .descend → stuck

section Walks

variable {γ : Type} {p : Profile ε} {later : ε → ε → Prop} {final : ε} {end_ : Nat}
  {J : γ → Nat → Nat → Nat → Nat → Machine ε → Prop} {Post : γ → Nat → Nat → Nat → Machine ε → Prop} {stuck : Prop}

/-- How a walk ends: with 0 and the postcondition, unless it went wrong. -/
def Ends (stuck : Prop) (post : Machine ε → Prop) (r : Outcome Int × Machine ε) : Prop :=
  (r.1 = .ret 0 ∧ post r.2) ∨ stuck

/-- The same, and if it went wrong the walk does not return 0. -/
def Closes (stuck : Prop) (post : Machine ε → Prop) (r : Outcome Int × Machine ε) : Prop :=
  (r.1 = .ret 0 ∧ post r.2) ∨ (stuck ∧ (r.1 = .ret (-1) ∨ r.1 = .fault ∨ r.1 = .freed))

theorem Closes.ends {post : Machine ε → Prop} {r : Outcome Int × Machine ε} (h : Closes stuck post r) : Ends stuck post r :=
  h.imp_right And.left

/-- A walk that returns 0 has not gone wrong. -/
theorem Closes.post {post : Machine ε → Prop} {r : Outcome Int × Machine ε} (h : Closes stuck post r) (hr : r.1 = .ret 0) :
    post r.2 := by
  rcases h with ⟨-, hpost⟩ | ⟨-, h | h | h⟩
  · exact hpost
  all_goals
    rw [hr] at h
    cases h

theorem Profile.Walks.walkEntries_leaves (h : p.Walks later final end_ J Post stuck) (ha : p.Advances later)
    {walkNext : Nat → Nat → Machine ε → Outcome Int × Machine ε}
    (hnext : ∀ next va m, later m.extras (walkNext next va m).2.extras) (g : γ) (table start n : Nat) :
    ∀ i m, i + n = p.nbEntries ∨ n = 0 ∧ p.nbEntries ≤ i → J g 0 table start i m →
      later (p.walkEntries walkNext table 0 start end_ n i m).2.extras final →
      Closes stuck (Post g 0 table start) (p.walkEntries walkNext table 0 start end_ n i m) := by
  induction n with
  | zero => exact fun i m hi hJ _ => .inl ⟨rfl, h.finish hJ (.inl (by omega))⟩
  | succ n ih =>
    intro i m hi hJ hfinal
    unfold Profile.walkEntries at hfinal ⊢
    dsimp only at hfinal ⊢
    split at hfinal
    next hge =>
      rw [if_pos hge]
      exact .inl ⟨rfl, h.finish hJ (.inr hge)⟩
    next hlt =>
      rw [if_neg hlt]
      have hlt : p.entryVa 0 start i < end_ := Nat.lt_of_not_le hlt
      split at hfinal
      case h_1 m' heq =>
        have hm' := ha.trans (ha.walkEntries hnext table 0 start end_ n (i + 1) m') hfinal
        exact ih _ _ (by omega) (h.next hJ (by omega) hlt heq hm') hfinal
      case h_2 m' heq =>
        rw [if_pos rfl] at hfinal ⊢
        have hm' := ha.trans (ha.walkEntries hnext table 0 start end_ n (i + 1) m') hfinal
        exact ih _ _ (by omega) (h.leaf hJ (by omega) hlt heq hm') hfinal
      all_goals
        next heq => exact .inr ⟨h.stop hJ (by omega) hlt heq hfinal (by simp) (by simp), by simp⟩

theorem Profile.Walks.walkEntries_tables (h : p.Walks later final end_ J Post stuck) (ha : p.Advances later)
    {walkNext : Nat → Nat → Machine ε → Outcome Int × Machine ε} {level : Nat}
    (hnext : ∀ next va m, later m.extras (walkNext next va m).2.extras)
    (hwalk : ∀ g next va m, va < end_ → J g level next va (p.getIndex va level) m →
      later (walkNext next va m).2.extras final → Closes stuck (Post g level next va) (walkNext next va m))
    (g : γ) (table start n : Nat) :
    ∀ i m, i + n = p.nbEntries ∨ n = 0 ∧ p.nbEntries ≤ i → J g (level + 1) table start i m →
      later (p.walkEntries walkNext table (level + 1) start end_ n i m).2.extras final →
      Closes stuck (Post g (level + 1) table start) (p.walkEntries walkNext table (level + 1) start end_ n i m) := by
  induction n with
  | zero => exact fun i m hi hJ _ => .inl ⟨rfl, h.finish hJ (.inl (by omega))⟩
  | succ n ih =>
    intro i m hi hJ hfinal
    unfold Profile.walkEntries at hfinal ⊢
    dsimp only at hfinal ⊢
    split at hfinal
    next hge =>
      rw [if_pos hge]
      exact .inl ⟨rfl, h.finish hJ (.inr hge)⟩
    next hlt =>
      rw [if_neg hlt]
      have hlt : p.entryVa (level + 1) start i < end_ := Nat.lt_of_not_le hlt
      split at hfinal
      case h_1 m' heq =>
        have hm' := ha.trans (ha.walkEntries hnext table (level + 1) start end_ n (i + 1) m') hfinal
        exact ih _ _ (by omega) (h.next hJ (by omega) hlt heq hm') hfinal
      case h_2 m' heq =>
        rw [if_neg (Nat.succ_ne_zero level)] at hfinal ⊢
        have hlater := hnext (p.next (m'.mem table i) (level + 1)) (p.entryVa (level + 1) start i) m'
        -- The loop goes on from `m''`, unless the nested walk failed.
        have hm'' : later (walkNext (p.next (m'.mem table i) (level + 1)) (p.entryVa (level + 1) start i) m').2.extras
            final := by
          split at hfinal
          next heq' =>
            rw [heq']
            split at hfinal
            · exact hfinal
            · exact ha.trans (ha.walkEntries hnext ..) hfinal
          all_goals next heq' => rw [heq']; exact hfinal
        obtain ⟨g', hJ', hback⟩ := h.enter hJ (by omega) hlt heq (ha.trans hlater hm'')
        rcases hwalk g' _ _ m' hlt hJ' hm'' with ⟨hr, hpost⟩ | ⟨hstuck, hfail⟩
        · split at hfinal
          next r m'' heq' =>
            rw [heq'] at hlater hm'' hr hpost
            cases hr
            rw [if_neg (by decide)] at hfinal ⊢
            exact ih _ _ (by omega) (hback m'' hlater hm'' hpost) hfinal
          all_goals
            next heq' =>
              rw [heq'] at hr
              cases hr
        · refine .inr ⟨hstuck, ?_⟩
          rcases hfail with hr | hr | hr
          all_goals
            split at hfinal
            all_goals
              next heq' =>
                rw [heq'] at hr
                cases hr <;> simp
      all_goals
        next heq => exact .inr ⟨h.stop hJ (by omega) hlt heq hfinal (by simp) (by simp), by simp⟩

/-- **The rule for a walk**, with what it returns if it went wrong. -/
theorem Profile.Walks.ptWalkPageRange_closes (h : p.Walks later final end_ J Post stuck) (ha : p.Advances later)
    {level : Nat} (hlevel : level < p.nbLevels) :
    ∀ g root start m, start < end_ → J g level root start (p.getIndex start level) m →
      later (p.ptWalkPageRange level root start end_ m).2.extras final →
      Closes stuck (Post g level root start) (p.ptWalkPageRange level root start end_ m) := by
  induction level with
  | zero =>
    intro g root start m hlt hJ hfinal
    unfold Profile.ptWalkPageRange at hfinal ⊢
    rw [if_pos ⟨hlt, hlevel⟩] at hfinal ⊢
    exact h.walkEntries_leaves ha (fun _ _ _ => ha.refl _) _ _ _ _ _ _ (by omega) hJ hfinal
  | succ level ih =>
    intro g root start m hlt hJ hfinal
    unfold Profile.ptWalkPageRange at hfinal ⊢
    rw [if_pos ⟨hlt, hlevel⟩] at hfinal ⊢
    exact h.walkEntries_tables ha (ha.ptWalkPageRange end_ level)
      (fun g next va m hva => ih (by omega) g next va m hva) _ _ _ _ _ _ (by omega) hJ hfinal

/-- **The rule for a walk.** -/
theorem Profile.Walks.ptWalkPageRange (h : p.Walks later final end_ J Post stuck) (ha : p.Advances later)
    {level : Nat} (hlevel : level < p.nbLevels) :
    ∀ g root start m, start < end_ → J g level root start (p.getIndex start level) m →
      later (p.ptWalkPageRange level root start end_ m).2.extras final →
      Ends stuck (Post g level root start) (p.ptWalkPageRange level root start end_ m) :=
  fun g root start m hlt hJ hfinal => (h.ptWalkPageRange_closes ha hlevel g root start m hlt hJ hfinal).ends

end Walks

end Tyche.Pts
