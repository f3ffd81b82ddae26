/-
Lists of half-open ranges kept sorted: the insertion that scans such a list
once, refuses a range that meets another, and merges the new range with the
neighbours it touches. What an entry says of an address is its view; the
insertion adds the view of the new range and changes nothing else. A list in
which touching neighbours never agree is the only one with its view.
-/
import Mathlib.Data.List.Pairwise
import Mathlib.Order.Basic
import Mathlib.Tactic.Order
import Mathlib.Tactic.Tauto

namespace Tyche.Ranges

variable {ι α β : Type} [LinearOrder ι]

/-- The ranges have a point in common: one starts inside the other. -/
def meets (s₁ e₁ s₂ e₂ : ι) : Bool := decide (s₁ ≤ s₂ ∧ s₂ < e₁) || decide (s₂ ≤ s₁ ∧ s₁ < e₂)

/-- How entries are compared and merged. `mergeLeft e n` lets the new range
`n` absorb the entry `e` it starts at the end of, `mergeRight n e` lets `n`
extend the entry `e` it ends at the start of. -/
structure Merging (ι α : Type) where
  start : α → ι
  stop : α → ι
  same : α → α → Bool
  mergeLeft : α → α → Bool
  mergeRight : α → α → Bool
  absorb : α → α → α
  extend : α → α → α

namespace Merging

variable (m : Merging ι α)

/-- The scan with `before` behind it (nearest first) and `rest` ahead. When
the new range absorbs an entry, the scan steps back to the one before. -/
def place (before rest : List α) (n : α) : Bool × List α :=
  match rest with
  | [] => (true, before.reverse ++ [n])
  | e :: after =>
    if meets (m.start e) (m.stop e) (m.start n) (m.stop n) then (false, before.reverse ++ e :: after)
    else if m.stop n < m.start e ∨ (m.start e = m.stop n ∧ m.same e n = false) then
      (true, before.reverse ++ n :: e :: after)
    else if m.start e = m.stop n ∧ m.mergeRight n e = true then
      (true, before.reverse ++ m.extend n e :: after)
    else if m.stop e < m.start n ∨ (m.stop e = m.start n ∧ m.same e n = false) then
      place (e :: before) after n
    else if m.stop e = m.start n ∧ m.mergeLeft e n = true then
      if after.head?.any fun f => meets (m.start e) (m.stop n) (m.start f) (m.stop f) then
        (false, before.reverse ++ e :: after)
      else
        match before with
        | [] => place [] after (m.absorb e n)
        | p :: before => place before (p :: after) (m.absorb e n)
    else place (e :: before) after n
termination_by before.length + 2 * rest.length

/-- The entry covers the point. -/
def Covers (e : α) (a : ι) : Prop := m.start e ≤ a ∧ a < m.stop e

/-- The list says `v` of the point `a`. -/
def Shows (view : α → ι → β) (l : List α) (a : ι) (v : β) : Prop := ∃ e ∈ l, m.Covers e a ∧ view e a = v

/-- `a` ends before `b` starts; where they touch they are apart. -/
def Before (apart : α → α → Prop) (a b : α) : Prop := m.stop a ≤ m.start b ∧ (m.stop a = m.start b → apart a b)

/-- Non-empty ranges in order, touching neighbours apart. -/
structure Sorted (apart : α → α → Prop) (l : List α) : Prop where
  filled : ∀ e ∈ l, m.start e < m.stop e
  pairs : l.Pairwise (m.Before apart)

variable {m}

theorem meets_iff {s₁ e₁ s₂ e₂ : ι} (h₁ : s₁ < e₁) (h₂ : s₂ < e₂) :
    meets s₁ e₁ s₂ e₂ = false ↔ e₁ ≤ s₂ ∨ e₂ ≤ s₁ := by
  simp only [meets, Bool.or_eq_false_iff, decide_eq_false_iff_not, not_and, not_lt]
  constructor
  · rintro ⟨h, h'⟩
    rcases le_total s₁ s₂ with hs | hs
    · exact .inl (h hs)
    · exact .inr (h' hs)
  · rintro (h | h)
    · exact ⟨fun _ => h, fun _ => by order⟩
    · exact ⟨fun _ => by order, fun _ => h⟩

/-- Ranges that meet have a point in common. -/
theorem meets_iff_exists {s₁ e₁ s₂ e₂ : ι} (h₁ : s₁ < e₁) (h₂ : s₂ < e₂) :
    meets s₁ e₁ s₂ e₂ = true ↔ ∃ a, (s₁ ≤ a ∧ a < e₁) ∧ s₂ ≤ a ∧ a < e₂ := by
  simp only [meets, Bool.or_eq_true, decide_eq_true_eq]
  constructor
  · rintro (h | h)
    · exact ⟨s₂, h, le_rfl, h₂⟩
    · exact ⟨s₁, ⟨le_rfl, h₁⟩, h⟩
  · rintro ⟨a, ⟨h1, h2⟩, h3, h4⟩
    rcases le_total s₁ s₂ with hs | hs
    · exact .inl ⟨hs, by order⟩
    · exact .inr ⟨hs, by order⟩

theorem shows_append {view : α → ι → β} {l l' : List α} {a : ι} {v : β} :
    m.Shows view (l ++ l') a v ↔ m.Shows view l a v ∨ m.Shows view l' a v := by
  simp [Shows, or_and_right, exists_or]

theorem shows_cons {view : α → ι → β} {e : α} {l : List α} {a : ι} {v : β} :
    m.Shows view (e :: l) a v ↔ (m.Covers e a ∧ view e a = v) ∨ m.Shows view l a v := by
  simp [Shows]

/-! ## What merging keeps of the entries -/

variable (m) in
/-- A property of entries that two merged entries pass on. -/
structure Keeps (P : α → Prop) : Prop where
  absorb : ∀ {e n}, m.mergeLeft e n = true → m.stop e = m.start n → P e → P n → P (m.absorb e n)
  extend : ∀ {n e}, m.mergeRight n e = true → m.start e = m.stop n → P n → P e → P (m.extend n e)

/-- The scan keeps it too, whatever the order of the entries. -/
theorem Keeps.place {P : α → Prop} (h : m.Keeps P) {before rest : List α} {n : α} (hbefore : ∀ e ∈ before, P e)
    (hrest : ∀ e ∈ rest, P e) (hn : P n) : ∀ e ∈ (m.place before rest n).2, P e := by
  match rest with
  | [] =>
    rw [Merging.place.eq_def]
    simpa [or_imp, forall_and] using ⟨hbefore, hn⟩
  | x :: after =>
    obtain ⟨hx, hafter⟩ := List.forall_mem_cons.1 hrest
    have hstep : ∀ e ∈ (m.place (x :: before) after n).2, P e :=
      h.place (List.forall_mem_cons.2 ⟨hx, hbefore⟩) hafter hn
    have hlist : ∀ y : List α, (∀ e ∈ y, P e) → ∀ e ∈ before.reverse ++ y, P e := by
      intro y hy e he
      rcases List.mem_append.1 he with he | he
      · exact hbefore e (List.mem_reverse.1 he)
      · exact hy e he
    rw [Merging.place.eq_def]
    dsimp only
    split
    · exact hlist _ hrest
    split
    · exact hlist _ (List.forall_mem_cons.2 ⟨hn, hrest⟩)
    split
    next hm => exact hlist _ (List.forall_mem_cons.2 ⟨h.extend hm.2 hm.1 hn hx, hafter⟩)
    split
    · exact hstep
    split
    next hm =>
      have hmerged := h.absorb hm.2 hm.1 hx hn
      split
      · exact hlist _ hrest
      match before with
      | [] => exact h.place (by simp) hafter hmerged
      | p :: before =>
        obtain ⟨hp, hbefore⟩ := List.forall_mem_cons.1 hbefore
        exact h.place hbefore (List.forall_mem_cons.2 ⟨hp, hafter⟩) hmerged
    · exact hstep
termination_by before.length + 2 * rest.length

/-- A map of entries that comparing and merging do not notice, where `P`. -/
structure Hom (m : Merging ι α) (m' : Merging ι β) (f : α → β) (P : α → Prop) : Prop where
  start : ∀ e, m'.start (f e) = m.start e
  stop : ∀ e, m'.stop (f e) = m.stop e
  same : ∀ e n, m'.same (f e) (f n) = m.same e n
  mergeLeft : ∀ e n, P e → P n → m'.mergeLeft (f e) (f n) = m.mergeLeft e n
  mergeRight : ∀ n e, P n → P e → m'.mergeRight (f n) (f e) = m.mergeRight n e
  absorb : ∀ e n, m'.absorb (f e) (f n) = f (m.absorb e n)
  extend : ∀ n e, m'.extend (f n) (f e) = f (m.extend n e)

/-- The scan does not notice it either. -/
theorem Hom.place {m' : Merging ι β} {f : α → β} {P : α → Prop} (h : Hom m m' f P) (hk : m.Keeps P) {before rest : List α}
    {n : α} (hbefore : ∀ e ∈ before, P e) (hrest : ∀ e ∈ rest, P e) (hn : P n) :
    m'.place (before.map f) (rest.map f) (f n) = (m.place before rest n).map id (List.map f) := by
  match rest with
  | [] =>
    rw [List.map_nil, Merging.place.eq_def, Merging.place.eq_def]
    simp
  | e :: after =>
    obtain ⟨he, hafter⟩ := List.forall_mem_cons.1 hrest
    have hpass : m'.place ((e :: before).map f) (after.map f) (f n) = (m.place (e :: before) after n).map id (List.map f) :=
      h.place hk (List.forall_mem_cons.2 ⟨he, hbefore⟩) hafter hn
    rw [List.map_cons] at hpass
    have hnext : ((after.map f).head?.any fun x => meets (m.start e) (m.stop n) (m'.start x) (m'.stop x)) =
        after.head?.any fun x => meets (m.start e) (m.stop n) (m.start x) (m.stop x) := by
      cases after <;> simp [h.start, h.stop]
    rw [List.map_cons, Merging.place.eq_def, Merging.place.eq_def m]
    dsimp only
    rw [h.start, h.stop, h.start, h.stop, h.same, h.mergeLeft e n he hn, h.mergeRight n e hn he, hnext, hpass]
    by_cases hmeet : meets (m.start e) (m.stop e) (m.start n) (m.stop n) = true
    · simp [hmeet]
    rw [if_neg hmeet, if_neg hmeet]
    by_cases hbreak : m.stop n < m.start e ∨ (m.start e = m.stop n ∧ m.same e n = false)
    · simp [hbreak]
    rw [if_neg hbreak, if_neg hbreak]
    by_cases hright : m.start e = m.stop n ∧ m.mergeRight n e = true
    · simp [hright, h.extend]
    rw [if_neg hright, if_neg hright]
    by_cases hskip : m.stop e < m.start n ∨ (m.stop e = m.start n ∧ m.same e n = false)
    · rw [if_pos hskip, if_pos hskip]
    rw [if_neg hskip, if_neg hskip]
    by_cases hleft : m.stop e = m.start n ∧ m.mergeLeft e n = true
    · rw [if_pos hleft, if_pos hleft]
      by_cases hmeets : (after.head?.any fun x => meets (m.start e) (m.stop n) (m.start x) (m.stop x)) = true
      · rw [if_pos hmeets, if_pos hmeets]
        simp
      rw [if_neg hmeets, if_neg hmeets]
      have hmerged := hk.absorb hleft.2 hleft.1 he hn
      match before with
      | [] =>
        have hback : m'.place ([].map f) (after.map f) (f (m.absorb e n)) =
            (m.place [] after (m.absorb e n)).map id (List.map f) := h.place hk (by simp) hafter hmerged
        rw [List.map_nil, h.absorb]
        exact hback
      | p :: before =>
        obtain ⟨hp, hbefore⟩ := List.forall_mem_cons.1 hbefore
        have hback : m'.place (before.map f) ((p :: after).map f) (f (m.absorb e n)) =
            (m.place before (p :: after) (m.absorb e n)).map id (List.map f) :=
          h.place hk hbefore (List.forall_mem_cons.2 ⟨hp, hafter⟩) hmerged
        rw [List.map_cons, h.absorb]
        exact hback
    · rw [if_neg hleft, if_neg hleft]
termination_by before.length + 2 * rest.length

variable {κ : Type}

variable (m) in
/-- Entries that carry something along: what is merged is carried by the one
that is kept. -/
def carrying (κ : Type) : Merging ι (κ × α) where
  start e := m.start e.2
  stop e := m.stop e.2
  same e n := m.same e.2 n.2
  mergeLeft e n := m.mergeLeft e.2 n.2
  mergeRight n e := m.mergeRight n.2 e.2
  absorb e n := (n.1, m.absorb e.2 n.2)
  extend n e := (e.1, m.extend n.2 e.2)

omit [LinearOrder ι] in
/-- Entries are scanned by what is compared of them. -/
theorem Hom.carrying {m' : Merging ι α} {P : α → Prop} (h : Hom m m' id P) :
    Hom (m.carrying κ) m' Prod.snd fun e => P e.2 where
  start e := h.start e.2
  stop e := h.stop e.2
  same e n := h.same e.2 n.2
  mergeLeft e n := h.mergeLeft e.2 n.2
  mergeRight n e := h.mergeRight n.2 e.2
  absorb e n := h.absorb e.2 n.2
  extend n e := h.extend n.2 e.2

omit [LinearOrder ι] in
theorem Hom.refl (P : α → Prop) : Hom m m id P :=
  ⟨fun _ => rfl, fun _ => rfl, fun _ _ => rfl, fun _ _ _ _ => rfl, fun _ _ _ _ => rfl, fun _ _ => rfl, fun _ _ => rfl⟩

omit [LinearOrder ι] in
theorem Keeps.carrying {P : α → Prop} (h : m.Keeps P) : (m.carrying κ).Keeps fun e => P e.2 :=
  ⟨fun hm ht he hn => h.absorb hm ht he hn, fun hm ht hn he => h.extend hm ht hn he⟩

/-- A range that is refused leaves entries of the list only. -/
theorem place_refused_mem {before rest : List α} {n : α} (h : (m.place before rest n).1 = false) :
    ∀ e ∈ (m.place before rest n).2, e ∈ before ∨ e ∈ rest := by
  fun_induction place m before rest n
  case case1 | case3 | case4 => cases h
  case case2 | case6 => simp
  case case5 ih | case7 ih | case8 ih | case9 ih =>
    intro f hf
    have hmem := ih h f hf
    simp only [List.mem_cons] at hmem ⊢
    grind

/-- And no more of them. -/
theorem place_refused_length {before rest : List α} {n : α} (h : (m.place before rest n).1 = false) :
    (m.place before rest n).2.length ≤ before.length + rest.length := by
  fun_induction place m before rest n
  case case1 | case3 | case4 => cases h
  case case2 | case6 => simp
  case case5 ih | case7 ih | case8 ih | case9 ih =>
    have hlength := ih h
    simp only [List.length_cons] at hlength ⊢
    omega

/-- The scan leaves an entry: the range, or the one it met. -/
theorem place_ne_nil (before rest : List α) (n : α) : (m.place before rest n).2 ≠ [] := by
  fun_induction place m before rest n
  case case1 | case2 | case3 | case4 | case6 => simp
  case case5 ih | case7 ih | case8 ih | case9 ih => exact ih

/-! ## A range that meets an entry is refused -/

theorem place_refused {before rest : List α} {n : α} (hr : rest.Pairwise fun a b => m.stop a ≤ m.start b)
    (hf : ∀ e ∈ rest, m.start e < m.stop e)
    (h : ∃ e ∈ rest, meets (m.start e) (m.stop e) (m.start n) (m.stop n) = true) (hn : m.start n < m.stop n) :
    m.place before rest n = (false, before.reverse ++ rest) := by
  induction rest generalizing before with
  | nil => simp at h
  | cons e after ih =>
    obtain ⟨hea, hr⟩ := List.pairwise_cons.1 hr
    have he := hf e List.mem_cons_self
    by_cases hm : meets (m.start e) (m.stop e) (m.start n) (m.stop n) = true
    · rw [place.eq_def]
      exact if_pos hm
    have hcut := (meets_iff he hn).1 (eq_false_of_ne_true hm)
    -- The entry it meets is further on.
    obtain ⟨x, hx, hxm⟩ : ∃ e ∈ after, meets (m.start e) (m.stop e) (m.start n) (m.stop n) = true := by
      obtain ⟨x, hx, hxm⟩ := h
      rcases List.mem_cons.1 hx with rfl | hx
      · exact absurd hxm hm
      · exact ⟨x, hx, hxm⟩
    have hxs := hea x hx
    have hxf := hf x (List.mem_cons_of_mem _ hx)
    have hxn : m.start x < m.stop n ∧ m.start n < m.stop x := by
      have := mt (meets_iff hxf hn).2 (by simp [hxm])
      push Not at this
      exact ⟨this.2, this.1⟩
    have hen : m.stop e ≤ m.start n := by
      rcases hcut with h | h
      · exact h
      · order
    have next : m.place (e :: before) after n = (false, before.reverse ++ e :: after) := by
      rw [ih hr (fun e he => hf e (List.mem_cons_of_mem _ he)) ⟨x, hx, hxm⟩]
      simp
    rw [place.eq_def]
    dsimp only
    rw [if_neg hm, if_neg (by rintro (h | ⟨h, -⟩) <;> order), if_neg (by rintro ⟨h, -⟩; order)]
    split
    · exact next
    split
    · -- The next entry starts no later than the one it meets.
      have hhead : (after.head?.any fun f => meets (m.start e) (m.stop n) (m.start f) (m.stop f)) = true := by
        cases after with
        | nil => cases hx
        | cons f after =>
          have hfs : m.start f ≤ m.start x := by
            rcases List.mem_cons.1 hx with rfl | hx
            · exact le_rfl
            · have := (List.pairwise_cons.1 hr).1 x hx
              have := hf f (by simp)
              order
          have := hea f List.mem_cons_self
          simp only [List.head?_cons, Option.any_some, meets, Bool.or_eq_true, decide_eq_true_eq]
          exact .inl ⟨by order, by order⟩
      rw [if_pos hhead]
    · exact next

/-! ## A range that meets none is placed -/

/-- What merging keeps, for entries that satisfy `E` and new ranges that
satisfy `P`: the ends, the views, and that touching entries are apart. -/
structure Lawful (m : Merging ι α) (E P : α → Prop) (apart : α → α → Prop) (view : α → ι → β) : Prop where
  absorb_start : ∀ e n, m.start (m.absorb e n) = m.start e
  absorb_stop : ∀ e n, m.stop (m.absorb e n) = m.stop n
  extend_start : ∀ n e, m.start (m.extend n e) = m.start n
  extend_stop : ∀ n e, m.stop (m.extend n e) = m.stop e
  /-- Nothing that agrees and touches on the right is passed over. -/
  merges : ∀ e n, E e → P n → m.start e = m.stop n → m.same e n = true → m.mergeRight n e = true
  absorb_new : ∀ e n, E e → P n → m.stop e = m.start n → m.mergeLeft e n = true → P (m.absorb e n)
  absorb_view : ∀ e n, E e → P n → m.stop e = m.start n → m.mergeLeft e n = true →
    ∀ a, m.start e ≤ a → view (m.absorb e n) a = if a < m.stop e then view e a else view n a
  extend_view : ∀ e n, E e → P n → m.start e = m.stop n → m.mergeRight n e = true → m.start n < m.stop n →
    ∀ a, m.start n ≤ a → view (m.extend n e) a = if a < m.stop n then view n a else view e a
  apart_of_not_same : ∀ e n, m.same e n = false → apart e n ∧ apart n e
  apart_of_not_merge : ∀ e n, E e → P n → m.stop e = m.start n → m.same e n = true → m.mergeLeft e n = false →
    apart e n
  apart_absorb : ∀ e n, m.mergeLeft e n = true → ∀ p, apart p e → apart p (m.absorb e n)
  apart_extend : ∀ e n, m.mergeRight n e = true →
    (∀ p, apart p n → apart p (m.extend n e)) ∧ ∀ q, apart e q → apart (m.extend n e) q

section
variable {E P : α → Prop} {apart : α → α → Prop} {view : α → ι → β} {before after rest : List α} {e n : α}

theorem Before.of_lt {a b : α} (h : m.stop a < m.start b) : m.Before apart a b :=
  ⟨le_of_lt h, fun he => absurd he (ne_of_lt h)⟩

/-- A range between two parts of a sorted list. -/
theorem Sorted.between {l l' : List α} (h : m.Sorted apart (l ++ l')) (hn : m.start n < m.stop n)
    (hl : ∀ p ∈ l, m.Before apart p n) (hl' : ∀ q ∈ l', m.Before apart n q) : m.Sorted apart (l ++ n :: l') := by
  obtain ⟨h1, h2, h3⟩ := List.pairwise_append.1 h.pairs
  refine ⟨?_, List.pairwise_append.2 ⟨h1, List.pairwise_cons.2 ⟨hl', h2⟩, ?_⟩⟩
  · intro e he
    simp only [List.mem_append, List.mem_cons] at he
    rcases he with he | rfl | he
    · exact h.filled e (by simp [he])
    · exact hn
    · exact h.filled e (by simp [he])
  · intro p hp q hq
    rcases List.mem_cons.1 hq with rfl | hq
    · exact hl p hp
    · exact h3 p hp q hq

theorem Sorted.sublist {l l' : List α} (h : m.Sorted apart l) (hs : l'.Sublist l) : m.Sorted apart l' :=
  ⟨fun e he => h.filled e (hs.subset he), h.pairs.sublist hs⟩

/-- What the entries around `e` are to it. -/
theorem Sorted.around (h : m.Sorted apart (before.reverse ++ e :: after)) :
    (∀ p ∈ before, m.Before apart p e) ∧ ∀ q ∈ after, m.Before apart e q := by
  obtain ⟨-, h2, h3⟩ := List.pairwise_append.1 h.pairs
  exact ⟨fun p hp => h3 p (by simpa using hp) e List.mem_cons_self, (List.pairwise_cons.1 h2).1⟩

/-- A range that ends before `e` does ends before what follows. -/
theorem Sorted.before_after (h : m.Sorted apart (before.reverse ++ e :: after)) (hn : m.stop n ≤ m.start e) :
    ∀ q ∈ after, m.Before apart n q := by
  intro q hq
  have he := h.filled e (by simp)
  have hq' := (h.around.2 q hq).1
  exact .of_lt (by order)

/-- The new range goes in front of `e`. -/
theorem Sorted.stop_here (h : m.Sorted apart (before.reverse ++ e :: after)) (hn : m.start n < m.stop n)
    (hp : ∀ p ∈ before, m.Before apart p n) (he : m.Before apart n e) :
    m.Sorted apart (before.reverse ++ n :: e :: after) := by
  refine h.between hn (fun p hp' => hp p (by simpa using hp')) fun q hq => ?_
  rcases List.mem_cons.1 hq with rfl | hq
  · exact he
  · exact h.before_after he.1 q hq

/-- The entry is replaced by one that covers the new range too. -/
theorem Sorted.extended (hl : m.Lawful E P apart view) (h : m.Sorted apart (before.reverse ++ e :: after))
    (hn : m.start n < m.stop n) (hp : ∀ p ∈ before, m.Before apart p n) (he : m.start e = m.stop n)
    (hm : m.mergeRight n e = true) : m.Sorted apart (before.reverse ++ m.extend n e :: after) := by
  obtain ⟨h1, h2⟩ := hl.apart_extend e n hm
  have hstop := h.filled e (by simp)
  have hrest : m.Sorted apart (before.reverse ++ after) := h.sublist (by simp)
  refine hrest.between ?_ ?_ ?_
  · rw [hl.extend_start, hl.extend_stop]
    order
  · intro p hp'
    obtain ⟨hle, hap⟩ := hp p (by simpa using hp')
    rw [Before, hl.extend_start]
    exact ⟨hle, fun heq => h1 p (hap heq)⟩
  · intro q hq
    obtain ⟨hle, hap⟩ := h.around.2 q hq
    rw [Before, hl.extend_stop]
    exact ⟨hle, fun heq => h2 q (hap heq)⟩

theorem covers_extend (hl : m.Lawful E P apart view) (he : m.start e = m.stop n) (hn : m.start n < m.stop n)
    (hf : m.start e < m.stop e) (hE : E e) (hP : P n) (hm : m.mergeRight n e = true) {a : ι} {v : β} :
    (m.Covers (m.extend n e) a ∧ view (m.extend n e) a = v) ↔
      (m.Covers e a ∧ view e a = v) ∨ (m.Covers n a ∧ view n a = v) := by
  simp only [Covers, hl.extend_start, hl.extend_stop]
  by_cases ha : m.start n ≤ a
  · rw [hl.extend_view e n hE hP he hm hn a ha]
    by_cases hlt : a < m.stop n
    · have h1 : a < m.stop e := by order
      have h2 : ¬ m.start e ≤ a := by order
      simp [ha, hlt, h1, h2]
    · have h1 : m.start e ≤ a := by order
      simp [ha, hlt, h1]
  · have h1 : ¬ m.start e ≤ a := by order
    simp [ha, h1]

theorem covers_absorb (hl : m.Lawful E P apart view) (he : m.stop e = m.start n) (hn : m.start n < m.stop n)
    (hf : m.start e < m.stop e) (hE : E e) (hP : P n) (hm : m.mergeLeft e n = true) {a : ι} {v : β} :
    (m.Covers (m.absorb e n) a ∧ view (m.absorb e n) a = v) ↔
      (m.Covers e a ∧ view e a = v) ∨ (m.Covers n a ∧ view n a = v) := by
  simp only [Covers, hl.absorb_start, hl.absorb_stop]
  by_cases ha : m.start e ≤ a
  · rw [hl.absorb_view e n hE hP he hm a ha]
    by_cases hlt : a < m.stop e
    · have h1 : a < m.stop n := by order
      have h2 : ¬ m.start n ≤ a := by order
      simp [ha, hlt, h1, h2]
    · have h1 : m.start n ≤ a := by order
      simp [ha, hlt, h1]
  · have h1 : ¬ m.start n ≤ a := by order
    simp [ha, h1]

/-- Past an entry the new range continues, what it does not meet comes after
it. -/
theorem Sorted.free_after (h : m.Sorted apart (before.reverse ++ e :: after)) (he : m.stop e = m.start n)
    (hn : m.start n < m.stop n)
    (hfree : ∀ x ∈ after, meets (m.start x) (m.stop x) (m.start n) (m.stop n) = false) :
    ∀ q ∈ after, m.stop n ≤ m.start q := by
  intro q hq
  have hf := h.filled q (by simp [hq])
  have hle := (h.around.2 q hq).1
  rcases (meets_iff hf hn).1 (hfree q hq) with h' | h'
  · order
  · exact h'

/-- The new range has absorbed `e`: the scan goes on without it. -/
theorem Sorted.absorbed (hl : m.Lawful E P apart view) (h : m.Sorted apart (before.reverse ++ e :: after))
    (he : m.stop e = m.start n) (hn : m.start n < m.stop n) (hm : m.mergeLeft e n = true)
    (hfree : ∀ x ∈ after, meets (m.start x) (m.stop x) (m.start n) (m.stop n) = false) :
    m.start (m.absorb e n) < m.stop (m.absorb e n) ∧ (∀ p ∈ before, m.Before apart p (m.absorb e n)) ∧
      ∀ x ∈ before.reverse ++ after,
        meets (m.start x) (m.stop x) (m.start (m.absorb e n)) (m.stop (m.absorb e n)) = false := by
  have hf := h.filled e (by simp)
  have hnew : m.start (m.absorb e n) < m.stop (m.absorb e n) := by
    rw [hl.absorb_start, hl.absorb_stop]
    order
  refine ⟨hnew, ?_, ?_⟩
  · intro p hp
    obtain ⟨hle, hap⟩ := h.around.1 p hp
    rw [Before, hl.absorb_start]
    exact ⟨hle, fun heq => hl.apart_absorb e n hm p (hap heq)⟩
  · intro x hx
    have hx' : x ∈ before ∨ x ∈ after := by simpa using hx
    rw [meets_iff (h.filled x (by simpa [or_left_comm] using .inr hx')) hnew, hl.absorb_start, hl.absorb_stop]
    rcases hx' with hx | hx
    · exact .inl (h.around.1 x hx).1
    · exact .inr (h.free_after he hn hfree x hx)

/-- A range that meets no entry ahead is placed: the list stays sorted, and
its view is that of the range added to what it was. -/
theorem place_accepted (hl : m.Lawful E P apart view) (hs : m.Sorted apart (before.reverse ++ rest))
    (hE : ∀ e ∈ before.reverse ++ rest, E e) (hp : ∀ p ∈ before, m.Before apart p n) (hn : m.start n < m.stop n)
    (hP : P n) (hfree : ∀ e ∈ rest, meets (m.start e) (m.stop e) (m.start n) (m.stop n) = false) :
    ∃ l, m.place before rest n = (true, l) ∧ m.Sorted apart l ∧
      ∀ a v, m.Shows view l a v ↔ m.Shows view (before.reverse ++ rest) a v ∨ (m.Covers n a ∧ view n a = v) := by
  fun_induction place m before rest n with
  | case1 before n =>
    refine ⟨_, rfl, ?_, fun a v => ?_⟩
    · exact hs.between hn (fun p hp' => hp p (by simpa using hp')) (by simp)
    · simp [Shows, or_and_right, exists_or]
  | case2 before n e after hm => rw [hfree e List.mem_cons_self] at hm; cases hm
  | case3 before n e after hm hbreak =>
    refine ⟨_, rfl, ?_, fun a v => ?_⟩
    · refine hs.stop_here hn hp ?_
      rcases hbreak with h | ⟨h, hns⟩
      · exact .of_lt h
      · exact ⟨le_of_eq h.symm, fun _ => (hl.apart_of_not_same e n hns).2⟩
    · simp only [shows_append, shows_cons]
      grind
  | case4 before n e after hm hbreak hright =>
    have he : e ∈ before.reverse ++ e :: after := by simp
    refine ⟨_, rfl, ?_, fun a v => ?_⟩
    · exact hs.extended hl hn hp hright.1 hright.2
    · simp only [shows_append, shows_cons,
        covers_extend hl hright.1 hn (hs.filled e he) (hE e he) hP hright.2]
      grind
  | case5 before n e after hm hbreak hright hskip ih =>
    have he : m.Before apart e n := by
      rcases hskip with h | ⟨h, hns⟩
      · exact .of_lt h
      · exact ⟨le_of_eq h, fun _ => (hl.apart_of_not_same e n hns).1⟩
    have hl' : (e :: before).reverse ++ after = before.reverse ++ e :: after := by simp
    obtain ⟨l, h1, h2, h3⟩ := ih (hl' ▸ hs) (hl' ▸ hE) (List.forall_mem_cons.2 ⟨he, hp⟩) hn hP
      fun e he => hfree e (List.mem_cons_of_mem _ he)
    exact ⟨l, h1, h2, hl' ▸ h3⟩
  | case6 before n e after hm hbreak hright hskip hleft hnext =>
    -- The merged range meets the next entry only if the new one did.
    exfalso
    cases after with
    | nil => simp at hnext
    | cons f after =>
      have hfree' := fun x hx => hfree x (List.mem_cons_of_mem _ hx)
      have hle := hs.free_after hleft.1 hn hfree' f List.mem_cons_self
      have hef : m.start e < m.stop n := by
        have := hs.filled e (by simp)
        order
      have hfalse := (meets_iff hef (hs.filled f (by simp))).2 (.inl hle)
      simp [hfalse] at hnext
  | case7 n e after hm hbreak hright hskip hleft hnext ih =>
    obtain ⟨h1, h2, h3⟩ := hs.absorbed hl hleft.1 hn hleft.2 fun x hx => hfree x (List.mem_cons_of_mem _ hx)
    have he : e ∈ ([] : List α).reverse ++ e :: after := by simp
    obtain ⟨l, hp1, hp2, hp3⟩ := ih (hs.sublist (by simp)) (fun x hx => hE x (by simp at hx ⊢; exact .inr hx)) h2 h1
      (hl.absorb_new e n (hE e he) hP hleft.1 hleft.2) h3
    refine ⟨l, hp1, hp2, fun a v => ?_⟩
    rw [hp3, covers_absorb hl hleft.1 hn (hs.filled e he) (hE e he) hP hleft.2]
    simp only [shows_append, shows_cons, or_assoc, or_comm]
  | case8 n e after hm hbreak hright hskip hleft hnext p before ih =>
    have hl' : (p :: before).reverse ++ after = before.reverse ++ p :: after := by simp
    obtain ⟨h1, h2, h3⟩ := hs.absorbed hl hleft.1 hn hleft.2 fun x hx => hfree x (List.mem_cons_of_mem _ hx)
    have he : e ∈ (p :: before).reverse ++ e :: after := by simp
    have hsub : ((p :: before).reverse ++ after).Sublist ((p :: before).reverse ++ e :: after) := by simp
    obtain ⟨l, hp1, hp2, hp3⟩ := ih (hl' ▸ hs.sublist hsub) (fun x hx => hE x (hsub.subset (hl' ▸ hx)))
      (fun q hq => h2 q (List.mem_cons_of_mem _ hq)) h1 (hl.absorb_new e n (hE e he) hP hleft.1 hleft.2)
      (fun x hx => h3 x (by rw [hl']; exact List.mem_append_right _ hx))
    refine ⟨l, hp1, hp2, fun a v => ?_⟩
    rw [hp3, covers_absorb hl hleft.1 hn (hs.filled e he) (hE e he) hP hleft.2, ← hl']
    simp only [shows_append, shows_cons, or_assoc, or_comm]
  | case9 before n e after hm hbreak hright hskip hleft ih =>
    have he : e ∈ before.reverse ++ e :: after := by simp
    -- The entry touches on the left and agrees, but may not be merged.
    have hcut := (meets_iff (hs.filled e he) hn).1 (hfree e List.mem_cons_self)
    have htouch : m.stop e = m.start n ∧ m.same e n = true := by
      rcases hcut with h | h
      · have heq : m.stop e = m.start n := le_antisymm h (not_lt.1 fun h' => hskip (.inl h'))
        exact ⟨heq, by simpa using fun hs => hskip (.inr ⟨heq, hs⟩)⟩
      · have heq : m.start e = m.stop n := (le_antisymm h (not_lt.1 fun h' => hbreak (.inl h'))).symm
        have hsame : m.same e n = true := by simpa using fun hs => hbreak (.inr ⟨heq, hs⟩)
        exact absurd ⟨heq, hl.merges e n (hE e he) hP heq hsame⟩ hright
    have hbefore : m.Before apart e n := by
      refine ⟨le_of_eq htouch.1, fun _ => hl.apart_of_not_merge e n (hE e he) hP htouch.1 htouch.2 ?_⟩
      exact eq_false_of_ne_true fun h => hleft ⟨htouch.1, h⟩
    have hl' : (e :: before).reverse ++ after = before.reverse ++ e :: after := by simp
    obtain ⟨l, h1, h2, h3⟩ := ih (hl' ▸ hs) (hl' ▸ hE) (List.forall_mem_cons.2 ⟨hbefore, hp⟩) hn hP
      fun e he => hfree e (List.mem_cons_of_mem _ he)
    exact ⟨l, h1, h2, hl' ▸ h3⟩

/-- The whole insertion, of a range that meets no entry. -/
theorem place_free {l : List α} (hl : m.Lawful E P apart view) (hs : m.Sorted apart l) (hE : ∀ e ∈ l, E e)
    (hn : m.start n < m.stop n) (hP : P n)
    (hfree : ∀ e ∈ l, meets (m.start e) (m.stop e) (m.start n) (m.stop n) = false) :
    ∃ l', m.place [] l n = (true, l') ∧ m.Sorted apart l' ∧
      ∀ a v, m.Shows view l' a v ↔ m.Shows view l a v ∨ (m.Covers n a ∧ view n a = v) := by
  have hs' : m.Sorted apart (([] : List α).reverse ++ l) := hs
  exact place_accepted hl hs' hE (by simp) hn hP hfree

/-- The whole insertion, of a range that meets an entry. -/
theorem place_met {l : List α} (hs : m.Sorted apart l) (hn : m.start n < m.stop n)
    (h : ∃ e ∈ l, meets (m.start e) (m.stop e) (m.start n) (m.stop n) = true) : m.place [] l n = (false, l) :=
  place_refused (hs.pairs.imp fun h => h.1) hs.filled h hn

/-- Of two entries of a sorted list, one is before the other. -/
theorem Sorted.before_or {l : List α} (hs : m.Sorted apart l) {f : α} (he : e ∈ l) (hf : f ∈ l) (hne : e ≠ f) :
    m.Before apart e f ∨ m.Before apart f e := by
  induction l with
  | nil => cases he
  | cons g l ih =>
    obtain ⟨hgl, hpairs⟩ := List.pairwise_cons.1 hs.pairs
    rcases List.mem_cons.1 he with rfl | he' <;> rcases List.mem_cons.1 hf with rfl | hf'
    · exact absurd rfl hne
    · exact .inl (hgl f hf')
    · exact .inr (hgl e he')
    · exact ih ⟨fun x hx => hs.filled x (List.mem_cons_of_mem _ hx), hpairs⟩ he' hf'

/-- Entries of a sorted list that cover the same point are one. -/
theorem Sorted.covers_unique {l : List α} (hs : m.Sorted apart l) {a : ι} {f : α} (he : e ∈ l) (hf : f ∈ l)
    (hc : m.Covers e a) (hc' : m.Covers f a) : e = f := by
  induction l with
  | nil => cases he
  | cons g l ih =>
    obtain ⟨hgl, -⟩ := List.pairwise_cons.1 hs.pairs
    have behind : ∀ x ∈ l, m.Covers x a → ¬ m.Covers g a := by
      intro x hx hxa hga
      have h1 := (hgl x hx).1
      have h2 := hxa.1
      have h3 := hga.2
      order
    rcases List.mem_cons.1 he with rfl | he' <;> rcases List.mem_cons.1 hf with rfl | hf'
    · rfl
    · exact absurd hc (behind f hf' hc')
    · exact absurd hc' (behind e he' hc)
    · exact ih (hs.sublist (List.sublist_cons_self g l)) he' hf'

/-- Of the entries of a sorted list, one at most covers a point. -/
theorem Sorted.count_covers {l : List α} (hs : m.Sorted apart l) {a : ι} (he : e ∈ l) (hc : m.Covers e a) :
    l.countP (fun f => decide (m.start f ≤ a ∧ a < m.stop f)) = 1 := by
  induction l with
  | nil => cases he
  | cons f l ih =>
    obtain ⟨hfl, hpairs⟩ := List.pairwise_cons.1 hs.pairs
    have htail : m.Sorted apart l := hs.sublist (List.sublist_cons_self f l)
    rw [List.countP_cons]
    by_cases hf : m.start f ≤ a ∧ a < m.stop f
    · -- The others start behind `f`.
      have hzero : l.countP (fun f => decide (m.start f ≤ a ∧ a < m.stop f)) = 0 := by
        rw [List.countP_eq_zero]
        intro g hg hga
        have h1 := (hfl g hg).1
        have h2 := (of_decide_eq_true hga).1
        have h3 := hf.2
        order
      rw [hzero, if_pos (decide_eq_true hf)]
    · have hne : e ∈ l := by
        rcases List.mem_cons.1 he with rfl | he
        · exact absurd hc hf
        · exact he
      rw [ih htail hne, if_neg (by simpa using hf)]

end

/-! ## Canonical lists -/

section
variable {label : α → β}

/-- Touching neighbours carry different labels. -/
abbrev Canonical (m : Merging ι α) (label : α → β) (l : List α) : Prop := m.Sorted (fun a b => label a ≠ label b) l

theorem Sorted.tail {apart : α → α → Prop} {e : α} {l : List α} (h : m.Sorted apart (e :: l)) : m.Sorted apart l :=
  h.sublist (List.sublist_cons_self e l)

theorem Sorted.head_le {apart : α → α → Prop} {e f : α} {l : List α} (h : m.Sorted apart (e :: l)) (hf : f ∈ l) :
    m.stop e ≤ m.start f := ((List.pairwise_cons.1 h.pairs).1 f hf).1

/-- What the head of a sorted list shows, it alone shows. -/
theorem Sorted.shows_head {apart : α → α → Prop} {view : α → ι → β} {e : α} {l : List α}
    (h : m.Sorted apart (e :: l)) {a : ι} (ha : m.Covers e a) {v : β} :
    m.Shows view (e :: l) a v ↔ view e a = v := by
  rw [shows_cons]
  refine ⟨?_, fun hv => .inl ⟨ha, hv⟩⟩
  rintro (⟨-, hv⟩ | ⟨f, hf, hc, -⟩)
  · exact hv
  · have h1 := h.head_le hf
    have h2 := ha.2
    have h3 := hc.1
    order

theorem Sorted.start_le {apart : α → α → Prop} {view : α → ι → β} {e : α} {l : List α}
    (h : m.Sorted apart (e :: l)) {a : ι} {v : β} (hs : m.Shows view (e :: l) a v) : m.start e ≤ a := by
  obtain ⟨f, hf, hc, -⟩ := hs
  rcases List.mem_cons.1 hf with rfl | hf
  · exact hc.1
  · have h1 := h.head_le hf
    have h2 := h.filled e List.mem_cons_self
    have h3 := hc.1
    order

theorem Covers.start {e : α} (h : m.start e < m.stop e) : m.Covers e (m.start e) := ⟨le_rfl, h⟩

/-- Heads of canonical lists with the same view do not end later than each
other. -/
theorem Canonical.stop_le {e f : α} {l l' : List α} (h : m.Canonical label (e :: l)) (h' : m.Canonical label (f :: l'))
    (hs : ∀ a v, m.Shows (fun e _ => label e) (e :: l) a v ↔ m.Shows (fun e _ => label e) (f :: l') a v)
    (hstart : m.start e = m.start f) (hlabel : label e = label f) : m.stop f ≤ m.stop e := by
  by_contra hlt
  rw [not_le] at hlt
  have he := h.filled e List.mem_cons_self
  have hcov : m.Covers f (m.stop e) := ⟨by order, hlt⟩
  -- Past its end `e` is continued by an entry of its own label.
  obtain ⟨g, hg, hgc, hgl⟩ := (hs (m.stop e) (label f)).2 ((h'.shows_head hcov).2 rfl)
  rcases List.mem_cons.1 hg with rfl | hg
  · exact absurd hgc.2 (lt_irrefl _)
  · have hle := h.head_le hg
    have heq : m.stop e = m.start g := le_antisymm hle hgc.1
    exact ((List.pairwise_cons.1 h.pairs).1 g hg).2 heq (hlabel.trans hgl.symm)

/-- **Canonical lists are determined by their view**, when an entry is by
its ends and its label. -/
theorem Canonical.unique (ext : ∀ e f, m.start e = m.start f → m.stop e = m.stop f → label e = label f → e = f)
    {l l' : List α} (h : m.Canonical label l) (h' : m.Canonical label l')
    (hs : ∀ a v, m.Shows (fun e _ => label e) l a v ↔ m.Shows (fun e _ => label e) l' a v) : l = l' := by
  induction l generalizing l' with
  | nil =>
    cases l' with
    | nil => rfl
    | cons f l' =>
      have hf := Covers.start (h'.filled f List.mem_cons_self)
      have := (hs _ _).2 ((h'.shows_head hf).2 rfl)
      simp [Shows] at this
  | cons e l ih =>
    have he := Covers.start (h.filled e List.mem_cons_self)
    cases l' with
    | nil =>
      have := (hs _ _).1 ((h.shows_head he).2 rfl)
      simp [Shows] at this
    | cons f l' =>
      have hf := Covers.start (h'.filled f List.mem_cons_self)
      have hstart : m.start e = m.start f :=
        le_antisymm (h.start_le ((hs _ _).2 ((h'.shows_head hf).2 rfl)))
          (h'.start_le ((hs _ _).1 ((h.shows_head he).2 rfl)))
      have hlabel : label e = label f :=
        ((h'.shows_head (hstart ▸ hf)).1 ((hs _ _).1 ((h.shows_head he).2 rfl))).symm
      have hstop : m.stop e = m.stop f :=
        le_antisymm (h'.stop_le h (fun a v => (hs a v).symm) hstart.symm hlabel.symm)
          (h.stop_le h' hs hstart hlabel)
      obtain rfl := ext e f hstart hstop hlabel
      -- The tails show what is past the common head.
      have tail : ∀ {l l' : List α}, m.Canonical label (e :: l) → (∀ a v, m.Shows (fun e _ => label e) (e :: l) a v →
          m.Shows (fun e _ => label e) (e :: l') a v) →
          ∀ a v, m.Shows (fun e _ => label e) l a v → m.Shows (fun e _ => label e) l' a v := by
        intro l l' h hs a v hv
        have hout : ¬ m.Covers e a := by
          obtain ⟨g, hg, hc, -⟩ := hv
          have h1 := h.head_le hg
          have h2 := hc.1
          rintro ⟨-, h3⟩
          order
        rcases shows_cons.1 (hs a v (shows_cons.2 (.inr hv))) with ⟨hc, -⟩ | hv'
        · exact absurd hc hout
        · exact hv'
      rw [ih h.tail h'.tail fun a v =>
        ⟨tail h (fun a v => (hs a v).1) a v, tail h' (fun a v => (hs a v).2) a v⟩]

end

end Merging

end Tyche.Ranges
