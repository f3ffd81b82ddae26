/-
The revocation of a range. It is all or nothing, and what is recorded of the
other addresses stays, as long as no range is reversed (`revocation_atomic`).
The merge step that follows joins the entry with its neighbours as it should,
but for the test on the right neighbour: it reads the handles of the left
one, which may hold some, or not be there (`merge_joins`).
-/
import Tyche.Capa.Restore

namespace Tyche.Capa

/-! ## What is recorded of an address -/

/-- The status and the domains of the entries that cover an address. -/
def standing (a : Nat) (l : List Capability) : List (CapaStatus × List Nat) :=
  (l.filter (·.covers a)).map fun c => (c.status, c.revoks.map (·.domain))

section
variable {a : Nat}

@[simp] theorem standing_nil : standing a [] = [] := rfl

@[simp] theorem standing_append (l l' : List Capability) : standing a (l ++ l') = standing a l ++ standing a l' := by
  simp [standing]

theorem standing_cons (c : Capability) (l : List Capability) :
    standing a (c :: l) = (if c.covers a then [(c.status, c.revoks.map (·.domain))] else []) ++ standing a l := by
  cases h : c.covers a <;> simp [standing, h]

/-- An entry that does not cover the address is rewritten. -/
theorem standing_put {c : Cursor Capability} {e : Capability} (hc : c.elem.covers a = false) (he : e.covers a = false) :
    standing a (c.put e).list = standing a c.list := by
  simp [Cursor.list, standing_cons, hc, he]

/-- Two adjacent entries that no domain has a share of become one. -/
theorem standing_join {c d : Capability} (hc : c.start ≤ c.end_) (hd : d.start ≤ d.end_) (hadj : c.end_ = d.start)
    (hst : c.status = d.status) (hcr : c.revoks = []) (hdr : d.revoks = []) (l l' : List Capability) :
    standing a (l ++ { c with end_ := d.end_ } :: l') = standing a (l ++ c :: d :: l') := by
  have hcover : Capability.covers { c with end_ := d.end_ } a = (c.covers a || d.covers a) := by
    rw [Bool.eq_iff_iff, Bool.or_eq_true, covers_iff, covers_iff, covers_iff]
    show c.start ≤ a ∧ a < d.end_ ↔ _
    omega
  have hone : ¬ (c.covers a = true ∧ d.covers a = true) := by
    rw [covers_iff, covers_iff]
    omega
  simp only [standing_append, standing_cons, hcr, hdr, hst, List.map_nil]
  cases hca : c.covers a <;> cases hda : d.covers a <;> simp_all

end

/-- The merge step keeps every record. -/
theorem Merges.records {s t : Tracker} {es : List Effect} (hm : Merges es) (hp : Path s es t) (hl : Ledger s) :
    records t.capabilities = records s.capabilities := by
  refine (hp.invariant (P := fun u => Ledger u ∧ Capa.records u.capabilities = Capa.records s.capabilities) ?_ ⟨hl, rfl⟩).2
  intro e he u v ⟨hlu, hrec⟩ hmicro
  refine ⟨hlu.micro hmicro, ?_⟩
  rcases hm e he with rfl | ⟨c, d, rfl⟩
  · cases hmicro <;> exact hrec
  · exact (hlu.records_merge hmicro).trans hrec

/-- The merge step changes nothing that is recorded of an address. -/
theorem Merges.standing {s t : Tracker} {es : List Effect} (hm : Merges es) (hp : Path s es t) (hl : Ledger s)
    (hord : Ordered s.capabilities) (a : Nat) : standing a t.capabilities = standing a s.capabilities := by
  refine (hp.invariant (P := fun u => (Ledger u ∧ Ordered u.capabilities) ∧
    Capa.standing a u.capabilities = Capa.standing a s.capabilities) ?_ ⟨⟨hl, hord⟩, rfl⟩).2
  intro e he u v ⟨⟨hlu, hou⟩, hstand⟩ hmicro
  refine ⟨⟨hlu.micro hmicro, hou.micro hmicro⟩, ?_⟩
  rcases hm e he with rfl | ⟨c, d, rfl⟩
  · cases hmicro <;> exact hstand
  · rw [← hstand]
    cases hmicro with
    | merge l l' _ _ ans hcaps hc hd hadj =>
      have hmemc : c ∈ u.capabilities := by simp [hcaps]
      have hmemd : d ∈ u.capabilities := by simp [hcaps]
      rw [hcaps]
      exact standing_join (hou c hmemc) (hou d hmemd) hadj (hc.trans hd.symm) (hlu.active c hmemc hc) (hlu.active d hmemd hd)
        l l'

/-- The accepted revocation of a record takes it from the list, and leaves the
addresses outside the range alone. -/
theorem Micro.revoke_standing {s t : Tracker} {c : Capability} {r : RevokHandle} (hm : Micro s (.revoke c r) t) :
    (records s.capabilities).Perm (r :: records t.capabilities) ∧
      ∀ a, c.covers a = false → standing a t.capabilities = standing a s.capabilities := by
  cases hm with
  | revoke c r status ans hl hr =>
    rw [hl]
    exact ⟨records_revoked hr, fun a ha => standing_put ha ha⟩

/-- **A revocation is all or nothing.** At any point of any run, when no range
the monitor reported is reversed: a revocation that returns -1 changed
nothing, and none was accepted. One that returns 0 had exactly one
revocation accepted, of the record of the domain on the entry of exactly the
range; that record is gone, the others stay, and so does what is recorded of
the addresses outside the range. -/
theorem revocation_atomic {env : Env} {x y : Config} {id start end_ : Nat} {out : Outcome Int} {s' : Tracker}
    (hx : Started env x) (hord : ∀ c ∈ x.tracker.capabilities, c.start ≤ c.end_) (h : Run env anyCall x y)
    (hret : revokeCapa env id start end_ y.tracker = (out, s')) :
    (out = .ret (-1) →
      revoked (newEvents y.tracker s') = [] ∧ s'.capabilities = y.tracker.capabilities) ∧
      (out = .ret 0 → ∃ curr r, findExact start end_ y.tracker.capabilities = some curr ∧ r ∈ curr.elem.revoks ∧
        r.domain = id ∧ revoked (newEvents y.tracker s') = [r.revokHandle] ∧
        (records y.tracker.capabilities).Perm (r :: records s'.capabilities) ∧
        ∀ a, ¬ (start ≤ a ∧ a < end_) → standing a s'.capabilities = standing a y.tracker.capabilities) := by
  obtain ⟨hl, ho⟩ := h.invariant (P := fun s => Ordered s.capabilities) hx.ledger (fun _ _ _ _ hs hm => hs.micro hm) hord
  rcases revokeCapa_cases hl.active hret with ⟨hout, hfail⟩ | ⟨curr, r, -, hfind, hr, hid, t, es, hm, hp, hmerges, hres⟩
  · refine ⟨fun _ => ?_, fun h0 => by rw [hout] at h0; cases h0⟩
    rcases hfail with ⟨rfl, -⟩ | hrefused
    · exact ⟨by simp [newEvents, revoked], rfl⟩
    · have hidle := hrefused.micro
      refine ⟨(Path.one hidle).newEvents.2, ?_⟩
      cases hidle <;> rfl
  · refine ⟨fun h1 => ?_, fun _ => ⟨curr, r.elem, hfind, hr ▸ r.elem_mem, hid, ?_, ?_, fun a ha => ?_⟩⟩
    · rcases hres with ⟨h', -⟩ | ⟨h', -⟩ <;> rw [h'] at h1 <;> cases h1
    · rw [(Path.cons hm hp).newEvents.2, List.reverse_cons, List.flatMap_append, (quiet_effects hmerges.quiet).2.1]
      rfl
    · rw [hmerges.records hp (hl.micro hm)]
      exact hm.revoke_standing.1
    · have hno : curr.elem.covers a = false := by
        obtain ⟨-, hstart, hend⟩ := findExact_some hfind
        rw [Bool.eq_false_iff, Ne, covers_iff, hstart, hend]
        exact ha
      rw [hmerges.standing hp (hl.micro hm) (ho.micro hm) a]
      exact hm.revoke_standing.2 a hno

/-- A region granted, then revoked and merged back. -/
theorem revocation_atomic_granting :
    let env := Env.granting [(0, 0x10000)]
    let y := (Config.start env).played env [.transfer 1 0x2000 0x4000 confidential]
    let z := revokeCapa env 1 0x2000 0x4000 y.tracker
    (z.1 = .ret (-1) → revoked (newEvents y.tracker z.2) = [] ∧ z.2.capabilities = y.tracker.capabilities) ∧
      (z.1 = .ret 0 → ∃ curr r, findExact 0x2000 0x4000 y.tracker.capabilities = some curr ∧ r ∈ curr.elem.revoks ∧
        r.domain = 1 ∧ revoked (newEvents y.tracker z.2) = [r.revokHandle] ∧
        (records y.tracker.capabilities).Perm (r :: records z.2.capabilities) ∧
        ∀ a, ¬ (0x2000 ≤ a ∧ a < 0x4000) → standing a z.2.capabilities = standing a y.tracker.capabilities) :=
  revocation_atomic (Config.started (by decide)) (by decide)
    (Run.of_plays (fun _ _ _ => true) _ (by decide) fun _ _ _ _ => trivial) rfl

/-- A reversed range reported by the monitor: the merge of the region given
back with it takes addresses from the list that the revocation is not about. -/
theorem revocation_loses :
    ¬ ∀ (env : Env) (x y : Config) (id start end_ : Nat) (s' : Tracker), Started env x → Run env apiCall x y →
      revokeCapa env id start end_ y.tracker = (.ret 0, s') →
        ∀ a, ¬ (start ≤ a ∧ a < end_) → standing a s'.capabilities = standing a y.tracker.capabilities := by
  intro h
  let env := Env.granting [(0, 0x1000), (0x1000, 0x2000), (0x2000, 0x800)]
  have h' := h env _ _ 1 0x1000 0x2000 _ (Config.started (by decide))
    (Run.of_plays (fun _ call _ => call.isApi) [.transfer 1 0x1000 0x2000 confidential] (by decide) fun _ _ _ h => h)
    (Prod.ext (by decide) rfl) 0x900 (by decide)
  exact absurd h' (by decide)

/-! ## The merge step -/

/-- The left neighbour, when it could be one with the entry, has become so. -/
def joinLeft (curr : Cursor Capability) : Cursor Capability :=
  match curr.before with
  | [] => curr
  | prev :: before =>
    if prev.end_ = curr.elem.start ∧ prev.isOwned ≠ 0 ∧ prev.status = .active ∧ prev.access = curr.elem.access ∧
        prev.revoks = [] then
      ⟨before, { prev with end_ := curr.elem.end_ }, curr.after⟩
    else curr

/-- The right neighbour likewise. -/
def joinRight (curr : Cursor Capability) : Cursor Capability :=
  match curr.after with
  | [] => curr
  | next :: after =>
    if curr.elem.end_ = next.start ∧ next.isOwned ≠ 0 ∧ next.status = .active ∧ next.access = curr.elem.access ∧
        next.revoks = [] then
      ⟨curr.before, { curr.elem with end_ := next.end_ }, after⟩
    else curr

/-- The list in which the entry is one with each neighbour that allows it. -/
def joined (curr : Cursor Capability) : List Capability := (joinRight (joinLeft curr)).list

/-- The right neighbour could be one with the entry, and the left one, if it
is there, holds revocation handles. -/
def Misjudged (curr : Cursor Capability) : Prop :=
  ∃ next ∈ curr.after.head?, (curr.elem.end_ = next.start ∧ next.isOwned ≠ 0 ∧ next.status = .active ∧
    next.access = curr.elem.access ∧ next.revoks = []) ∧ ∀ prev ∈ curr.before.head?, prev.revoks ≠ []

instance (curr : Cursor Capability) : Decidable (Misjudged curr) :=
  inferInstanceAs (Decidable (∃ next ∈ curr.after.head?, _))

section
variable {env : Env} {s s' : Tracker} {curr : Cursor Capability}

theorem joinRight_list {prev : Capability} (hprev : prev.revoks = [])
    (hnext : ∀ next ∈ curr.after, next.status = .active → next.revoks = []) :
    mergedRight (some prev) curr = (joinRight curr).list := by
  cases hafter : curr.after with
  | nil => simp only [mergedRight_nil hafter, joinRight, hafter]
  | cons next after =>
    have hn := hnext next (by simp [hafter])
    rw [mergedRight_cons hafter]
    simp only [joinRight, hafter, Option.any_some, hprev, List.isEmpty_nil, Bool.and_true]
    by_cases hm : mergesRight curr.elem next = true
    · obtain ⟨h1, h2, h3, h4⟩ := mergesRight_iff.1 hm
      rw [if_pos hm, if_pos ⟨h1, h2, h3, h4, hn h3⟩]
    · rw [if_neg hm, if_neg fun ⟨h1, h2, h3, h4, _⟩ => hm (mergesRight_iff.2 ⟨h1, h2, h3, h4⟩)]

theorem joinRight_self (h : ¬ ∃ next ∈ curr.after.head?, curr.elem.end_ = next.start ∧ next.isOwned ≠ 0 ∧
    next.status = .active ∧ next.access = curr.elem.access ∧ next.revoks = []) : joinRight curr = curr := by
  cases hafter : curr.after with
  | nil => simp only [joinRight, hafter]
  | cons next after =>
    simp only [joinRight, hafter]
    exact if_neg fun hn => h ⟨next, by simp [hafter], hn⟩

theorem joinLeft_self (h : ∀ prev ∈ curr.before.head?, prev.revoks ≠ []) : joinLeft curr = curr := by
  cases hbefore : curr.before with
  | nil => simp only [joinLeft, hbefore]
  | cons prev before =>
    simp only [joinLeft, hbefore]
    exact if_neg fun hp => h prev (by simp [hbefore]) hp.2.2.2.2

/-- Where the right neighbour is not misjudged, the accepted merges are those
that should be made. -/
theorem merged_joined (hnext : ∀ next ∈ curr.after, next.status = .active → next.revoks = []) (h : ¬ Misjudged curr) :
    merged curr = joined curr := by
  -- Without a left neighbour that has no handle, the right one must not be joinable.
  have hself : (∀ prev ∈ curr.before.head?, prev.revoks ≠ []) → joined curr = curr.list := by
    intro hprev
    rw [joined, joinLeft_self hprev, joinRight_self fun ⟨next, hn, hj⟩ => h ⟨next, hn, hj, hprev⟩]
  cases hbefore : curr.before with
  | nil =>
    rw [merged_nil hbefore, hself (by simp [hbefore])]
    cases hafter : curr.after with
    | nil => exact mergedRight_nil hafter
    | cons next after => rw [mergedRight_cons hafter, Option.any_none, Bool.and_false]; rfl
  | cons prev before =>
    rw [merged_cons hbefore]
    by_cases hm : mergesLeft prev curr.elem = true
    · have hleft : joinLeft curr = ⟨before, { prev with end_ := curr.elem.end_ }, curr.after⟩ := by
        simp only [joinLeft, hbefore]
        exact if_pos (mergesLeft_iff.1 hm)
      rw [if_pos hm, joined, hleft]
      exact joinRight_list (mergesLeft_iff.1 hm).2.2.2.2 hnext
    · rw [if_neg hm]
      by_cases hrevoks : prev.revoks = []
      · have hleft : joinLeft curr = curr := by
          simp only [joinLeft, hbefore]
          exact if_neg fun hp => hm (mergesLeft_iff.2 hp)
        rw [joinRight_list hrevoks hnext, joined, hleft]
      · rw [hself (by simpa [hbefore] using hrevoks)]
        cases hafter : curr.after with
        | nil => exact mergedRight_nil hafter
        | cons next after =>
          have hempty : prev.revoks.isEmpty = false := by simpa using hrevoks
          rw [mergedRight_cons hafter, Option.any_some, hempty, Bool.and_false]
          rfl

theorem ReadsNull.misjudged (h : ReadsNull curr) (hnext : ∀ next ∈ curr.after, next.status = .active → next.revoks = []) :
    Misjudged curr := by
  obtain ⟨hb, next, rest, ha, hm⟩ := h
  obtain ⟨h1, h2, h3, h4⟩ := mergesRight_iff.1 hm
  exact ⟨next, by simp [ha], ⟨h1, h2, h3, h4, hnext next (by simp [ha]) h3⟩, by simp [hb]⟩

/-- A misjudged right neighbour is not merged, or the merge reads through
NULL. -/
theorem attemptMerge_misjudged {out} (hst : curr.elem.status = .active) (h : Misjudged curr)
    (hm : attemptMerge env curr s = (out, s')) : out = .fault ∨ (out = .ret 0 ∧ s' = s) := by
  obtain ⟨next, hnext, ⟨h1, h2, h3, h4, -⟩, hprev⟩ := h
  have hright : mergesRight curr.elem next = true := mergesRight_iff.2 ⟨h1, h2, h3, h4⟩
  cases hafter : curr.after with
  | nil => simp [hafter] at hnext
  | cons next' after =>
    obtain rfl : next' = next := by simpa [hafter] using hnext
    cases hbefore : curr.before with
    | nil =>
      have hfault : (attemptMerge env curr s).1 = .fault := attemptMerge_fault hst ⟨hbefore, next', after, hafter, hright⟩
      rw [hm] at hfault
      exact .inl hfault
    | cons prev before =>
      have hrevoks : prev.revoks ≠ [] := hprev prev (by simp [hbefore])
      have hempty : prev.revoks.isEmpty = false := by simpa using hrevoks
      have hleft : mergesLeft prev curr.elem = false :=
        Bool.eq_false_iff.2 fun hp => hrevoks (mergesLeft_iff.1 hp).2.2.2.2
      simp only [attemptMerge, hst, hbefore, hleft, mergeRight, hafter, hright, hempty] at hm
      simp at hm
      exact .inr ⟨hm.1.symm, hm.2.symm⟩

/-- The list is longer than it should be. -/
theorem joined_misjudged (h : Misjudged curr) : joined curr ≠ curr.list := by
  obtain ⟨next, hnext, hjoin, hprev⟩ := h
  rw [joined, joinLeft_self hprev]
  cases hafter : curr.after with
  | nil => simp [hafter] at hnext
  | cons next' after =>
    obtain rfl : next' = next := by simpa [hafter] using hnext
    simp only [joinRight, hafter]
    rw [if_pos hjoin]
    intro heq
    have := congrArg List.length heq
    simp [Cursor.list, hafter] at this

end

/-- **The merge step.** Of a revocation that the monitor accepted, and that
makes the entry active, at any point of any run: the merge step does not
read through NULL, and with accepted merges it joins the entry with the
neighbours that allow it, exactly when it does not misjudge the right
one. -/
theorem merge_joins {env : Env} {x y : Config} {id start end_ : Nat} {out : Outcome Int} {s' : Tracker}
    {curr : Cursor Capability} (hx : Started env x) (h : Run env anyCall x y)
    (hret : revokeCapa env id start end_ y.tracker = (out, s'))
    (hfind : findExact start end_ y.tracker.capabilities = some curr) (hacc : revoked (newEvents y.tracker s') ≠ [])
    (hlast : LastOf curr) :
    (out ≠ .fault ∧ (Unrefused (newEvents y.tracker s') → s'.capabilities = joined (curr.put curr.elem.released))) ↔
      ¬ Misjudged curr := by
  have hl : Ledger y.tracker := h.ledger hx.ledger
  obtain ⟨hlist, -⟩ := findExact_some hfind
  have hmem : ∀ c ∈ curr.list, c.status = .active → c.revoks = [] := fun c hc => hl.active c (hlist ▸ hc)
  obtain ⟨r, hr⟩ := List.length_eq_one_iff.1 hlast.1
  have hst : curr.elem.status ≠ .active := by
    intro hst
    rw [hmem _ curr.elem_mem hst] at hr
    cases hr
  rcases revokeCapa_one hfind hr hlast.2 hst hret with ⟨-, rfl | href⟩ | ⟨a, hok, hmerge⟩
  · simp [newEvents, revoked] at hacc
  · exact absurd (Path.one href.micro).newEvents.2 hacc
  have hnext : ∀ next ∈ (curr.put curr.elem.released).after, next.status = .active → next.revoks = [] := by
    intro next hn
    exact hmem next (by simp only [Cursor.put_after] at hn; simp [Cursor.list, hn])
  have hsame : Misjudged curr ↔ Misjudged (curr.put curr.elem.released) := Iff.rfl
  obtain ⟨es, hp, -, hout⟩ := attemptMerge_path rfl rfl hmerge
  rw [hsame]
  constructor
  · rintro ⟨hfault, hjoin⟩ hmis
    rcases attemptMerge_misjudged rfl hmis hmerge with hf | ⟨-, rfl⟩
    · exact hfault hf
    · refine joined_misjudged hmis (hjoin ?_).symm
      rw [newEvents_append (show (y.tracker.freed curr r a).log = [_, _] ++ y.tracker.log from rfl)]
      simp [Unrefused, Event.unrefused, hok]
  · intro hmis
    obtain rfl : out = .ret 0 := hout.resolve_right fun hnull => hmis (hnull.2.misjudged hnext)
    refine ⟨by simp, fun hunref => ?_⟩
    rw [← merged_joined hnext hmis]
    refine attemptMerge_merged rfl rfl hmerge (hunref.last ?_ hp.log_suffix)
    exact (List.suffix_cons ..).trans (List.suffix_cons ..)

/-- A part of a region granted and revoked: it is between the two others. -/
theorem merge_joins_granting :
    let env := Env.granting [(0, 0x10000)]
    let y := (Config.start env).played env [.transfer 1 0x2000 0x4000 confidential]
    let z := revokeCapa env 1 0x2000 0x4000 y.tracker
    let curr : Cursor Capability := ⟨[⟨0, 0, 0, 0x2000, 1, 0, 7, .active, []⟩],
      ⟨1, 7, 0x2000, 0x4000, 1, 0, 7, .paused, [⟨3, 1, 11⟩]⟩, [⟨2, 9, 0x4000, 0x10000, 1, 0, 7, .active, []⟩]⟩
    (z.1 ≠ .fault ∧ (Unrefused (newEvents y.tracker z.2) → z.2.capabilities = joined (curr.put curr.elem.released))) ↔
      ¬ Misjudged curr := by
  intro env y z curr
  have hrun : Run env anyCall (.start env) y := Run.of_plays (fun _ _ _ => true) _ (by decide) fun _ _ _ _ => trivial
  have hz : revokeCapa env 1 0x2000 0x4000 y.tracker = (z.1, z.2) := rfl
  exact merge_joins (Config.started (by decide)) hrun hz (by decide) (by decide) ⟨rfl, .inl rfl⟩

/-- The first region of the list granted as a whole, and revoked: the merge
with the second one reads the handles of a left neighbour that is not
there. -/
theorem merge_faults :
    ¬ ∀ (env : Env) (x y : Config) (id start end_ : Nat) (out : Outcome Int) (s' : Tracker) (curr : Cursor Capability),
      Started env x → Run env apiCall x y → revokeCapa env id start end_ y.tracker = (out, s') →
      findExact start end_ y.tracker.capabilities = some curr → revoked (newEvents y.tracker s') ≠ [] → LastOf curr →
      out ≠ .fault ∧ (Unrefused (newEvents y.tracker s') → s'.capabilities = joined (curr.put curr.elem.released)) := by
  intro h
  let env := Env.granting [(0, 0x1000), (0x1000, 0x2000)]
  have h' := h env _ _ 1 0 0x1000 .fault _ ⟨[], ⟨0, 0, 0, 0x1000, 1, 0, 7, .paused, [⟨2, 1, 11⟩]⟩,
      [⟨1, 1, 0x1000, 0x2000, 1, 0, 7, .active, []⟩]⟩ (Config.started (by decide))
    (Run.of_plays (fun _ call _ => call.isApi) [.transfer 1 0 0x1000 confidential] (by decide) fun _ _ _ h => h)
    (Prod.ext (by decide) rfl) (by decide) (by decide) ⟨rfl, .inl rfl⟩
  exact h'.1 rfl

end Tyche.Capa
