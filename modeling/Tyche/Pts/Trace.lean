/-
The pages a walk reaches. A profile is made to note the address of every
leaf entry it comes to; its walks go as they did. If they return 0 and pass
over no table, what they noted is every page of the range, as far as the
tables of the root go.
-/
import Tyche.Pts.Erasure
import Tyche.Pts.Sweep

namespace Tyche.Pts

variable {ε α : Type}

/-- The machine, with notes beside its extras. -/
def Machine.noting (notes : List Nat) (m : Machine ε) : Machine (ε × List Nat) :=
  { mem := m.mem, currVa := m.currVa, extras := (m.extras, notes) }

/-- The machine, without the notes. -/
def Machine.plain (m : Machine (ε × List Nat)) : Machine ε :=
  { mem := m.mem, currVa := m.currVa, extras := m.extras.1 }

/-- What a call ends with, with notes beside it. -/
def noted (notes : List Nat) (r : Outcome α × Machine ε) : Outcome α × Machine (ε × List Nat) :=
  (r.1, r.2.noting notes)

/-- The callback, which leaves the notes as they are. -/
def beside (f : Callback ε) : Callback (ε × List Nat) := fun table i level m =>
  noted m.extras.2 (f table i level m.plain)

/-- The profile, which notes the address of each leaf entry before anything
is done with it. -/
def Profile.tracing (p : Profile ε) : Profile (ε × List Nat) where
  nbLevels := p.nbLevels
  nbEntries := p.nbEntries
  visitors level := (p.visitors level).map beside
  mappers level := (p.mappers level).map beside
  masks := p.masks
  shifts := p.shifts
  how table i level m :=
    noted (if level = 0 then m.currVa :: m.extras.2 else m.extras.2) (p.how table i level m.plain)
  next := p.next

/-- The addresses of the leaf entries that a walk comes to, in order. -/
def Profile.reached (p : Profile ε) (level root start end_ : Nat) (m : Machine ε) : List Nat :=
  (p.tracing.ptWalkPageRange level root start end_ (m.noting [])).2.extras.2.reverse

@[simp] theorem Machine.plain_noting (notes : List Nat) (m : Machine ε) : (m.noting notes).plain = m := rfl

@[simp] theorem Machine.noting_notes (notes : List Nat) (m : Machine ε) : (m.noting notes).extras.2 = notes := rfl

theorem beside_noting (f : Callback ε) (table i level : Nat) (notes : List Nat) (m : Machine ε) :
    beside f table i level (m.noting notes) = noted notes (f table i level m) := rfl

/-! ## The walk goes as before -/

section Tracing

variable (p : Profile ε) (table i level start end_ : Nat) (notes : List Nat) (m : Machine ε)

theorem Profile.tracing_visitEntry :
    p.tracing.visitEntry table i level (m.noting notes) = noted notes (p.visitEntry table i level m) := by
  unfold Profile.visitEntry
  have hvisitor : p.tracing.visitors level = (p.visitors level).map beside := rfl
  rw [hvisitor]
  cases p.visitors level with
  | none => rfl
  | some visitor =>
    dsimp only [Option.map_some]
    rw [beside_noting]
    obtain ⟨o, m'⟩ := visitor table i level m
    match o with
    | .ret .walk | .ret .visit | .ret .map | .ret .skip | .ret .error | .fault | .freed => rfl

theorem Profile.tracing_mapEntry :
    p.tracing.mapEntry table i level (m.noting notes) = noted notes (p.mapEntry table i level m) := by
  unfold Profile.mapEntry
  have hmapper : p.tracing.mappers level = (p.mappers level).map beside := rfl
  rw [hmapper]
  cases p.mappers level with
  | none => exact p.tracing_visitEntry table i level notes m
  | some mapper =>
    dsimp only [Option.map_some]
    rw [beside_noting]
    obtain ⟨o, m'⟩ := mapper table i level m
    match o with
    | .ret .visit => exact p.tracing_visitEntry table i level notes m'
    | .ret .walk | .ret .map | .ret .skip | .ret .error | .fault | .freed => rfl

theorem Profile.tracing_handleEntry : p.tracing.handleEntry table i level (m.noting notes) =
    noted (if level = 0 then m.currVa :: notes else notes) (p.handleEntry table i level m) := by
  unfold Profile.handleEntry
  have hhow : p.tracing.how table i level (m.noting notes) =
      noted (if level = 0 then m.currVa :: notes else notes) (p.how table i level m) := rfl
  rw [hhow]
  obtain ⟨o, m'⟩ := p.how table i level m
  match o with
  | .ret .visit => exact p.tracing_visitEntry table i level _ m'
  | .ret .map => exact p.tracing_mapEntry table i level _ m'
  | .ret .walk | .ret .skip | .ret .error | .fault | .freed => rfl

theorem Profile.tracing_erases : p.tracing.Erases p Prod.fst where
  nbLevels := rfl
  nbEntries := rfl
  masks := rfl
  shifts := rfl
  next := rfl
  how _ _ _ _ := rfl
  mappers level := by
    show Option.Rel _ ((p.mappers level).map beside) _
    cases p.mappers level with
    | none => exact .none
    | some mapper => exact .some fun _ _ _ _ => rfl
  visitors level := by
    show Option.Rel _ ((p.visitors level).map beside) _
    cases p.visitors level with
    | none => exact .none
    | some visitor => exact .some fun _ _ _ _ => rfl

/-- **The walk goes as before.** -/
theorem Profile.tracing_ptWalkPageRange (level root start : Nat) (m : Machine ε) (notes : List Nat) : ∃ notes',
    p.tracing.ptWalkPageRange level root start end_ (m.noting notes) =
      noted notes' (p.ptWalkPageRange level root start end_ m) := by
  have herased := p.tracing_erases.ptWalkPageRange level end_ root start (m.noting notes)
  have hplain : (m.noting notes).over Prod.fst = m := rfl
  rw [hplain] at herased
  exact ⟨_, by rw [← herased]; rfl⟩

end Tracing

/-! ## What is reached -/

/-- Pages `start` to `stop`, the first one perhaps in part. -/
def pageAddrs (first start stop : Nat) : List Nat :=
  (List.range' start (stop - start)).map fun k => max (k * ptPageSize) first

theorem pageAddrs_succ {first start stop : Nat} (h : start ≤ stop) :
    pageAddrs first start (stop + 1) = pageAddrs first start stop ++ [max (stop * ptPageSize) first] := by
  rw [pageAddrs, pageAddrs, Nat.succ_sub h, List.range'_1_concat, List.map_append, Nat.add_sub_cancel' h]
  rfl

theorem mem_pageAddrs {first start stop n : Nat} (hfirst : first = start * ptPageSize) :
    n * ptPageSize ∈ pageAddrs first start stop ↔ start ≤ n ∧ n < stop := by
  have hp : ptPageSize = 4096 := rfl
  simp only [pageAddrs, List.mem_map, List.mem_range'_1, hfirst, hp]
  constructor
  · rintro ⟨k, hk, heq⟩
    omega
  · exact fun h => ⟨n, by omega, by omega⟩

/-- No entry above the leaves is passed over. -/
def Profile.Descends (p : Profile ε) : Prop := ∀ t i l m, (p.handleEntry t i (l + 1) m).1 ≠ .ret .next

section Reached

variable {p : Profile ε} {start end_ : Nat}

theorem Profile.Geometry.tracing (geo : p.Geometry) : p.tracing.Geometry :=
  ⟨geo.nbLevels, geo.nbEntries, geo.masks, geo.shifts⟩

/-- The pages are noted one after the other. -/
theorem Profile.Descends.traverses (h : p.Descends) (final : ε × List Nat) :
    p.tracing.Traverses (fun _ _ => True) final start end_ (fun (_ : Unit) _ _ _ => True)
      (fun _ k m => start / ptPageSize ≤ k ∧ m.extras.2.reverse = pageAddrs start (start / ptPageSize) k) True where
  reset h := h
  leaf := by
    rintro s k t m o m' ⟨hle, hnotes⟩ - hstart hk heq -
    by_cases ho : o = .ret .descend ∨ o = .ret .next
    · refine .inl ⟨ho, (), fun h => h, Nat.le_succ_of_le hle, ?_⟩
      have hentry := p.tracing_handleEntry t (k % 512) 0 m.extras.2 { m.plain with currVa := max (k * ptPageSize) start }
      have hcurr : Machine.noting m.extras.2 { m.plain with currVa := max (k * ptPageSize) start } =
          { m with currVa := max (k * ptPageSize) start } := rfl
      rw [hcurr, heq] at hentry
      rw [(Prod.mk.inj hentry).2, Machine.noting_notes, if_pos rfl, List.reverse_cons, hnotes, pageAddrs_succ hle]
    · exact .inr ⟨trivial, not_or.1 ho⟩
  table := by
    rintro s l k t m o m' ⟨hle, hnotes⟩ - - hstart hk heq -
    have hentry := p.tracing_handleEntry t (k / 512 ^ (l + 1) % 512) (l + 1) m.extras.2
      { m.plain with currVa := max (k * ptPageSize) start }
    have hcurr : Machine.noting m.extras.2 { m.plain with currVa := max (k * ptPageSize) start } =
        { m with currVa := max (k * ptPageSize) start } := rfl
    rw [hcurr, heq] at hentry
    obtain ⟨ho, hm⟩ := Prod.mk.inj hentry
    by_cases hdescend : o = .ret .descend
    · refine .inl ⟨hdescend, (), fun h => h, trivial, hle, ?_⟩
      rw [hm, Machine.noting_notes, if_neg (Nat.succ_ne_zero l), hnotes]
    · refine .inr (.inr ⟨trivial, hdescend, ?_⟩)
      rw [ho]
      exact h t (k / 512 ^ (l + 1) % 512) l { m.plain with currVa := max (k * ptPageSize) start }

/-- **A walk that returns 0 has reached** every page of its range, as far as
the tables of the root go. -/
theorem Profile.Descends.reached_eq (h : p.Descends) (geo : p.Geometry) (hlt : start < end_) (hend : end_ ≤ 2 ^ 64)
    {root : Nat} {m : Machine ε} (hret : (p.ptWalkPageRange ptPML4 root start end_ m).1 = .ret 0) :
    p.reached ptPML4 root start end_ m = pageAddrs start (start / ptPageSize)
      (min (pagesBelow end_) ((start / span (ptPML4 + 1) + 1) * 512 ^ (ptPML4 + 1))) := by
  have hadvances : p.tracing.Advances fun _ _ => True :=
    ⟨fun _ => trivial, fun _ _ => trivial, fun _ _ _ _ => trivial, fun _ _ _ _ => trivial, fun _ _ _ _ => trivial⟩
  have hwalk := (h.traverses (m.extras, [])).ptWalkPageRange hadvances geo.tracing hlt hend (s := ()) root
    (m := m.noting []) trivial ⟨Nat.le_refl _, by simp [pageAddrs]⟩ trivial
  obtain ⟨notes', hsame⟩ := p.tracing_ptWalkPageRange end_ ptPML4 root start m []
  obtain ⟨-, -, -, hnotes⟩ := hwalk.post (by rw [hsame]; exact hret)
  exact hnotes

end Reached

end Tyche.Pts
