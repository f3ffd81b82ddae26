/-
The errors of the callbacks. A profile is made to note what each of its
callbacks returns; its walks go as they did. An error in the table that a
walk starts from is returned as -1. One in a table below is returned as -1
to the level above, which asserts that this does not happen.
-/
import Tyche.Pts.Erasure
import Tyche.Pts.X86

namespace Tyche.Pts

variable {ε : Type}

/-- What a callback returned, for an entry of a level. -/
structure Answer where
  level : Nat
  result : Outcome CallbackAction
deriving DecidableEq, Repr

/-- The callback, which notes what it returns before the earlier answers. -/
def watched (f : Callback ε) : Callback (ε × List Answer) := fun table i level m =>
  let r := f table i level (m.over Prod.fst)
  (r.1, { mem := r.2.mem, currVa := r.2.currVa, extras := (r.2.extras, ⟨level, r.1⟩ :: m.extras.2) })

/-- The profile, which notes what each of its callbacks returns. -/
def Profile.watching (p : Profile ε) : Profile (ε × List Answer) where
  nbLevels := p.nbLevels
  nbEntries := p.nbEntries
  visitors level := (p.visitors level).map watched
  mappers level := (p.mappers level).map watched
  masks := p.masks
  shifts := p.shifts
  how := watched p.how
  next := p.next

/-- What the callbacks return in a walk, the last answer first. -/
def Profile.answers (p : Profile ε) (level root start end_ : Nat) (m : Machine ε) : List Answer :=
  (p.watching.ptWalkPageRange level root start end_ { mem := m.mem, currVa := m.currVa, extras := (m.extras, []) }).2.extras.2

/-- The callbacks return, each an action that its position allows. -/
structure Profile.Allowed (p : Profile ε) : Prop where
  how : ∀ t i l m, ∃ action, (p.how t i l m).1 = .ret action
  mapper : ∀ {l f}, p.mappers l = some f → ∀ t i m, ∃ action, (f t i l m).1 = .ret action ∧ action ≠ .map
  visitor : ∀ {l f}, p.visitors l = some f → ∀ t i m, ∃ action, (f t i l m).1 = .ret action ∧ action ≠ .map ∧ action ≠ .visit

/-- The first error is the last answer, and the walk returns -1. -/
def Profile.ReportsErrors (p : Profile ε) (level root start end_ : Nat) (m : Machine ε) : Prop :=
  ∀ later a earlier, p.answers level root start end_ m = later ++ a :: earlier → a.result = .ret .error →
    later = [] ∧ (p.ptWalkPageRange level root start end_ m).1 = .ret (-1)

/-! ## The walk goes as before -/

theorem watched_covers (f : Callback ε) : Covers Prod.fst (watched f) f := fun _ _ _ _ => rfl

theorem Profile.watching_erases (p : Profile ε) : p.watching.Erases p Prod.fst where
  nbLevels := rfl
  nbEntries := rfl
  masks := rfl
  shifts := rfl
  next := rfl
  how := watched_covers p.how
  mappers level := by
    show Option.Rel _ ((p.mappers level).map watched) _
    cases p.mappers level with
    | none => exact .none
    | some mapper => exact .some (watched_covers mapper)
  visitors level := by
    show Option.Rel _ ((p.visitors level).map watched) _
    cases p.visitors level with
    | none => exact .none
    | some visitor => exact .some (watched_covers visitor)

theorem Profile.watching_ptWalkPageRange (p : Profile ε) (level root start end_ : Nat) (m : Machine (ε × List Answer)) :
    (p.watching.ptWalkPageRange level root start end_ m).1 =
      (p.ptWalkPageRange level root start end_ (m.over Prod.fst)).1 := by
  rw [← p.watching_erases.ptWalkPageRange level end_ root start m]
  rfl

/-! ## Where an error goes -/

/-- No answer is an error. -/
def Quiet (answers : List Answer) : Prop := ∀ a ∈ answers, a.result ≠ .ret .error

/-- The last answer is an error for an entry of the level, and the first one. -/
def FailsAt (level : Nat) (answers : List Answer) : Prop := ∃ earlier, answers = ⟨level, .ret .error⟩ :: earlier ∧ Quiet earlier

theorem Quiet.nil : Quiet [] := by simp [Quiet]

theorem Quiet.append {new old : List Answer} (hnew : Quiet new) (hold : Quiet old) : Quiet (new ++ old) := fun a ha =>
  (List.mem_append.1 ha).elim (hnew a) (hold a)

theorem Quiet.singleton {level : Nat} {action : CallbackAction} (h : action ≠ .error) : Quiet [⟨level, .ret action⟩] := by
  simpa [Quiet] using h

theorem FailsAt.append {level : Nat} {new old : List Answer} (hnew : FailsAt level new) (hold : Quiet old) :
    FailsAt level (new ++ old) := by
  obtain ⟨earlier, rfl, hearlier⟩ := hnew
  exact ⟨earlier ++ old, rfl, hearlier.append hold⟩

theorem FailsAt.singleton (level : Nat) : FailsAt level [⟨level, .ret .error⟩] := ⟨[], rfl, .nil⟩

/-- How the callbacks of an entry end, and the answers they add. -/
def EntryEnds (level : Nat) (r : Outcome Verdict × Machine (ε × List Answer)) (old : List Answer) : Prop :=
  ∃ new, r.2.extras.2 = new ++ old ∧
    ((r.1 = .ret .next ∨ r.1 = .ret .descend) ∧ Quiet new ∨ r.1 = .ret .error ∧ FailsAt level new)

/-- How a walk from a level ends, and the answers it adds: an error of the
level is returned, and one below ends in the failed assertion. -/
def WalkEnds (level : Nat) (r : Outcome Int × Machine (ε × List Answer)) (old : List Answer) : Prop :=
  ∃ new, r.2.extras.2 = new ++ old ∧
    (r.1 = .ret 0 ∧ Quiet new ∨ r.1 = .ret (-1) ∧ FailsAt level new ∨ r.1 = .fault ∧ ∃ l < level, FailsAt l new)

/-- Answers that are no errors do not change how it ends. -/
theorem EntryEnds.after {level : Nat} {r : Outcome Verdict × Machine (ε × List Answer)} {new old : List Answer}
    (h : EntryEnds level r (new ++ old)) (hnew : Quiet new) : EntryEnds level r old := by
  obtain ⟨latest, heq, hend⟩ := h
  refine ⟨latest ++ new, by rw [heq, List.append_assoc], ?_⟩
  rcases hend with ⟨hret, hquiet⟩ | ⟨hret, hfails⟩
  · exact .inl ⟨hret, hquiet.append hnew⟩
  · exact .inr ⟨hret, hfails.append hnew⟩

theorem WalkEnds.after {level : Nat} {r : Outcome Int × Machine (ε × List Answer)} {new old : List Answer}
    (h : WalkEnds level r (new ++ old)) (hnew : Quiet new) : WalkEnds level r old := by
  obtain ⟨latest, heq, hend⟩ := h
  refine ⟨latest ++ new, by rw [heq, List.append_assoc], ?_⟩
  rcases hend with ⟨hret, hquiet⟩ | ⟨hret, hfails⟩ | ⟨hret, l, hl, hfails⟩
  · exact .inl ⟨hret, hquiet.append hnew⟩
  · exact .inr (.inl ⟨hret, hfails.append hnew⟩)
  · exact .inr (.inr ⟨hret, l, hl, hfails.append hnew⟩)

section Allowed

variable {p : Profile ε} (h : p.Allowed) (table i level start end_ : Nat) (m : Machine (ε × List Answer))
include h

theorem Profile.Allowed.visitEntry : EntryEnds level (p.watching.visitEntry table i level m) m.extras.2 := by
  unfold Profile.visitEntry
  have hslot : p.watching.visitors level = (p.visitors level).map watched := rfl
  rw [hslot]
  cases hvisitor : p.visitors level with
  | none => exact ⟨[], rfl, .inl ⟨.inr rfl, .nil⟩⟩
  | some visitor =>
    obtain ⟨action, hret, hmap, hvisit⟩ := h.visitor hvisitor table i (m.over Prod.fst)
    have hcall : watched visitor table i level m = (.ret action, (watched visitor table i level m).2) :=
      Prod.ext hret rfl
    have hnotes : (watched visitor table i level m).2.extras.2 = [⟨level, .ret action⟩] ++ m.extras.2 := by
      simp [watched, hret]
    dsimp only [Option.map_some]
    rw [hcall]
    cases action with
    | walk => exact ⟨_, hnotes, .inl ⟨.inr rfl, .singleton (by simp)⟩⟩
    | skip => exact ⟨_, hnotes, .inl ⟨.inl rfl, .singleton (by simp)⟩⟩
    | error => exact ⟨_, hnotes, .inr ⟨rfl, .singleton level⟩⟩
    | visit => exact absurd rfl hvisit
    | map => exact absurd rfl hmap

theorem Profile.Allowed.mapEntry : EntryEnds level (p.watching.mapEntry table i level m) m.extras.2 := by
  unfold Profile.mapEntry
  have hslot : p.watching.mappers level = (p.mappers level).map watched := rfl
  rw [hslot]
  cases hmapper : p.mappers level with
  | none => exact h.visitEntry table i level m
  | some mapper =>
    obtain ⟨action, hret, hmap⟩ := h.mapper hmapper table i (m.over Prod.fst)
    have hcall : watched mapper table i level m = (.ret action, (watched mapper table i level m).2) :=
      Prod.ext hret rfl
    have hnotes : (watched mapper table i level m).2.extras.2 = [⟨level, .ret action⟩] ++ m.extras.2 := by
      simp [watched, hret]
    dsimp only [Option.map_some]
    rw [hcall]
    cases action with
    | walk => exact ⟨_, hnotes, .inl ⟨.inr rfl, .singleton (by simp)⟩⟩
    | skip => exact ⟨_, hnotes, .inl ⟨.inl rfl, .singleton (by simp)⟩⟩
    | error => exact ⟨_, hnotes, .inr ⟨rfl, .singleton level⟩⟩
    | visit =>
      have hvisit := h.visitEntry table i level (watched mapper table i level m).2
      rw [hnotes] at hvisit
      exact hvisit.after (.singleton (by simp))
    | map => exact absurd rfl hmap

theorem Profile.Allowed.handleEntry : EntryEnds level (p.watching.handleEntry table i level m) m.extras.2 := by
  unfold Profile.handleEntry
  obtain ⟨action, hret⟩ := h.how table i level (m.over Prod.fst)
  have hcall : p.watching.how table i level m = (.ret action, (watched p.how table i level m).2) := Prod.ext hret rfl
  have hnotes : (watched p.how table i level m).2.extras.2 = [⟨level, .ret action⟩] ++ m.extras.2 := by
    simp [watched, hret]
  rw [hcall]
  cases action with
  | walk => exact ⟨_, hnotes, .inl ⟨.inr rfl, .singleton (by simp)⟩⟩
  | skip => exact ⟨_, hnotes, .inl ⟨.inl rfl, .singleton (by simp)⟩⟩
  | error => exact ⟨_, hnotes, .inr ⟨rfl, .singleton level⟩⟩
  | visit =>
    have hvisit := h.visitEntry table i level (watched p.how table i level m).2
    rw [hnotes] at hvisit
    exact hvisit.after (.singleton (by simp))
  | map =>
    have hmap := h.mapEntry table i level (watched p.how table i level m).2
    rw [hnotes] at hmap
    exact hmap.after (.singleton (by simp))

/-- The loop over a table, if the walks of the tables below end so. -/
theorem Profile.Allowed.walkEntries
    {walkNext : Nat → Nat → Machine (ε × List Answer) → Outcome Int × Machine (ε × List Answer)}
    (hnext : ∀ next va (m : Machine (ε × List Answer)), va < end_ → 0 < level →
      WalkEnds (level - 1) (walkNext next va m) m.extras.2) (n : Nat) :
    ∀ i (m : Machine (ε × List Answer)),
      WalkEnds level (p.watching.walkEntries walkNext table level start end_ n i m) m.extras.2 := by
  induction n with
  | zero => exact fun _ _ => ⟨[], rfl, .inl ⟨rfl, .nil⟩⟩
  | succ n ih =>
    intro i m
    unfold Profile.walkEntries
    dsimp only
    by_cases hge : p.watching.entryVa level start i ≥ end_
    · rw [if_pos hge]
      exact ⟨[], rfl, .inl ⟨rfl, .nil⟩⟩
    rw [if_neg hge]
    obtain ⟨new, hnotes, hentry⟩ := h.handleEntry table i level { m with currVa := p.watching.entryVa level start i }
    generalize p.watching.handleEntry table i level { m with currVa := p.watching.entryVa level start i } = r at hnotes hentry ⊢
    obtain ⟨o, m'⟩ := r
    have hnotes : m'.extras.2 = new ++ m.extras.2 := hnotes
    rcases hentry with ⟨rfl | rfl, hquiet⟩ | ⟨rfl, hfails⟩
    · have hrest := ih (i + 1) m'
      rw [hnotes] at hrest
      exact hrest.after hquiet
    · show WalkEnds level (if level = 0 then _ else _) _
      by_cases hlevel : level = 0
      · rw [if_pos hlevel]
        have hrest := ih (i + 1) m'
        rw [hnotes] at hrest
        exact hrest.after hquiet
      rw [if_neg hlevel]
      have hbelow := hnext (p.watching.next (m'.mem table i) level) (p.watching.entryVa level start i) m' (by omega) (by omega)
      rw [hnotes] at hbelow
      obtain ⟨new', hnotes', hend⟩ := hbelow.after hquiet
      generalize walkNext (p.watching.next (m'.mem table i) level) (p.watching.entryVa level start i) m' = r at hnotes' hend ⊢
      obtain ⟨o, m''⟩ := r
      have hnotes' : m''.extras.2 = new' ++ m.extras.2 := hnotes'
      rcases hend with ⟨rfl, hquiet'⟩ | ⟨rfl, hfails⟩ | ⟨rfl, l, hl, hfails⟩
      · have hrest := ih (i + 1) m''
        rw [hnotes'] at hrest
        exact hrest.after hquiet'
      · exact ⟨new', hnotes', .inr (.inr ⟨rfl, level - 1, by omega, hfails⟩)⟩
      · exact ⟨new', hnotes', .inr (.inr ⟨rfl, l, by omega, hfails⟩)⟩
    · exact ⟨new, hnotes, .inr (.inl ⟨rfl, hfails⟩)⟩

theorem Profile.Allowed.ptWalkPageRange : ∀ root start (m : Machine (ε × List Answer)), start < end_ → level < p.nbLevels →
    WalkEnds level (p.watching.ptWalkPageRange level root start end_ m) m.extras.2 := by
  induction level with
  | zero =>
    intro root start m hlt hlevel
    unfold Profile.ptWalkPageRange
    rw [if_pos ⟨hlt, hlevel⟩]
    exact h.walkEntries _ _ _ _ (fun _ _ _ _ hpos => absurd hpos (Nat.lt_irrefl 0)) _ _ _
  | succ level ih =>
    intro root start m hlt hlevel
    unfold Profile.ptWalkPageRange
    rw [if_pos ⟨hlt, hlevel⟩]
    have hbelow : ∀ next va (m : Machine (ε × List Answer)), va < end_ → 0 < level + 1 →
        WalkEnds (level + 1 - 1) (p.watching.ptWalkPageRange level next va end_ m) m.extras.2 :=
      fun next va m hva _ => ih next va m hva (by omega)
    exact h.walkEntries _ _ _ _ hbelow _ _ _

end Allowed

/-- **Errors are reported** exactly when no callback fails below the level
that the walk starts from. -/
theorem errors_reported {p : Profile ε} (h : p.Allowed) (level root start end_ : Nat) (m : Machine ε)
    (hrange : start < end_) (hlevel : level < p.nbLevels) :
    p.ReportsErrors level root start end_ m ↔
      ∀ a ∈ p.answers level root start end_ m, a.result = .ret .error → a.level = level := by
  obtain ⟨new, hnotes, hend⟩ :=
    h.ptWalkPageRange level end_ root start { mem := m.mem, currVa := m.currVa, extras := (m.extras, []) } hrange hlevel
  rw [List.append_nil] at hnotes
  rw [p.watching_ptWalkPageRange] at hend
  have hanswers : p.answers level root start end_ m = new := hnotes
  unfold Profile.ReportsErrors
  rw [hanswers]
  have hwalk : ({ mem := m.mem, currVa := m.currVa, extras := (m.extras, []) } : Machine (ε × List Answer)).over Prod.fst = m :=
    rfl
  rw [hwalk] at hend
  rcases hend with ⟨-, hquiet⟩ | ⟨hret, earlier, rfl, hquiet⟩ | ⟨hret, l, hl, earlier, rfl, hquiet⟩
  · constructor
    · exact fun _ a ha herr => absurd herr (hquiet a ha)
    · rintro - later a earlier rfl herr
      exact absurd herr (hquiet a (by simp))
  · constructor
    · intro _ a ha herr
      rcases List.mem_cons.1 ha with rfl | ha
      · rfl
      · exact absurd herr (hquiet a ha)
    · intro _ later a earlier' heq herr
      refine ⟨?_, hret⟩
      cases later with
      | nil => rfl
      | cons first later =>
        -- An error after the first one would be among the earlier answers.
        obtain ⟨-, hearlier⟩ := List.cons.inj heq
        exact absurd herr (hquiet a (by simp [hearlier]))
  · constructor
    · intro hreports
      have := (hreports [] _ earlier rfl rfl).2
      rw [hret] at this
      cases this
    · intro hlevels
      have heq : l = level := hlevels _ (List.mem_cons_self ..) rfl
      omega

/-- The visitor of the leaves fails. -/
def failingLeaves : Profile Unit :=
  { x86_64Profile with visitors := fun level => if level = ptPTE then some fun _ _ _ m => (.ret .error, m) else none }

theorem failingLeaves_allowed : failingLeaves.Allowed where
  how t i l m := by
    show ∃ action, (x86_64HowVisitLeaves t i l m).1 = .ret action
    unfold x86_64HowVisitLeaves
    dsimp only
    split
    · exact ⟨.skip, rfl⟩
    · split
      · exact ⟨.visit, rfl⟩
      · exact ⟨.walk, rfl⟩
  mapper h := by cases h
  visitor {l f} h t i m := by
    have hslot : (if l = ptPTE then some fun _ _ _ m => (.ret .error, m) else none : Option (Callback Unit)) = some f := h
    split at hslot
    · cases hslot
      exact ⟨.error, rfl, by simp, by simp⟩
    · cases hslot

/-- A table at `0x1000`, with entries that refer to the table itself. -/
def selfMapped : Machine Unit := { mem := fun _ _ => 0x1000 ||| ptPP, currVa := 0, extras := () }

theorem errors_reported_leaf : failingLeaves.ReportsErrors ptPTE 0x1000 0 0x1000 selfMapped :=
  (errors_reported failingLeaves_allowed ptPTE 0x1000 0 0x1000 selfMapped (by decide) (by decide)).2 (by decide +kernel)

/-- The same error, in a walk from the root, ends it in a failed assertion. -/
theorem leaf_error_asserted : failingLeaves.Allowed ∧
    failingLeaves.answers ptPML4 0x1000 0 0x1000 selfMapped = [⟨ptPTE, .ret .error⟩, ⟨ptPTE, .ret .visit⟩,
      ⟨ptPMD, .ret .walk⟩, ⟨ptPGD, .ret .walk⟩, ⟨ptPML4, .ret .walk⟩] ∧
    (failingLeaves.ptWalkPageRange ptPML4 0x1000 0 0x1000 selfMapped).1 = .fault ∧
    ¬ failingLeaves.ReportsErrors ptPML4 0x1000 0 0x1000 selfMapped := by
  have hanswers : failingLeaves.answers ptPML4 0x1000 0 0x1000 selfMapped = [⟨ptPTE, .ret .error⟩, ⟨ptPTE, .ret .visit⟩,
      ⟨ptPMD, .ret .walk⟩, ⟨ptPGD, .ret .walk⟩, ⟨ptPML4, .ret .walk⟩] := by decide +kernel
  have hwalk : (failingLeaves.ptWalkPageRange ptPML4 0x1000 0 0x1000 selfMapped).1 = .fault := by decide +kernel
  refine ⟨failingLeaves_allowed, hanswers, hwalk, fun h => ?_⟩
  have hret := (h [] _ _ hanswers rfl).2
  rw [hwalk] at hret
  cases hret

end Tyche.Pts
