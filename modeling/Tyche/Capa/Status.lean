/-
The status of an entry says what its revocation handles are, as long as no
transfer splits an entry that holds some: `split_capa` copies the status to
the right part and leaves the handles on the left one, so the right part of a
shared entry is shared with no one (`status_disagrees`).
-/
import Tyche.Capa.Exclusive

namespace Tyche.Capa

/-- The status agrees with the revocation handles. -/
structure Capability.Agrees (c : Capability) : Prop where
  active : c.status = .active ↔ c.revoks = []
  paused : c.status = .paused → c.revoks.length = 1
  shared : c.status = .shared → c.revoks ≠ [] ∧ (c.revoks.map (·.domain)).Nodup

instance (c : Capability) : Decidable c.Agrees :=
  decidable_of_iff ((c.status = .active ↔ c.revoks = []) ∧ (c.status = .paused → c.revoks.length = 1) ∧
      (c.status = .shared → c.revoks ≠ [] ∧ (c.revoks.map (·.domain)).Nodup))
    ⟨fun h => ⟨h.1, h.2.1, h.2.2⟩, fun h => ⟨h.active, h.paused, h.shared⟩⟩

/-- Every entry the domain owns has the status of its revocation handles. -/
def Agreeing (s : Tracker) : Prop := ∀ c ∈ s.capabilities, c.isOwned ≠ 0 → c.Agrees

theorem Capability.agrees_active {c : Capability} (hst : c.status = .active) (hrevoks : c.revoks = []) : c.Agrees :=
  ⟨by simp [hst, hrevoks], by simp [hst], by simp [hst]⟩

/-- The effect splits an entry that holds revocation handles. -/
def Effect.strips : Effect → Bool
  | .split c _ => !c.revoks.isEmpty
  | _ => false

theorem Agreeing.deliver {s t : Tracker} {c : Capability} {tpe : Nat} {r : RevokHandle} (h : Agreeing s) (hl : Ledger s)
    (hm : Micro s (.deliver c tpe r) t) : Agreeing t := by
  cases hm with
  | deliver c dom _ a hcaps hd ha =>
    have hc : c.elem ∈ s.capabilities := hcaps ▸ c.elem_mem
    intro d hd' hown
    rcases mem_put hd' with rfl | hd'
    · have hagrees := h c.elem hc hown
      by_cases ht : isConfidential tpe = true
      · -- A grant is of an active entry, and adds the one handle.
        have hact : c.elem.status = .active := by simpa [Deliverable, ht] using hd
        constructor <;> simp [deliverStatus, ht, hl.active _ hc hact]
      · have hd : c.elem.status ≠ .paused ∧ ∀ r ∈ c.elem.revoks, r.domain ≠ dom := by simpa [Deliverable, ht] using hd
        have hdomains : (c.elem.revoks.map (·.domain)).Nodup := by
          cases hst : c.elem.status with
          | active => simp [hl.active _ hc hst]
          | shared => exact (hagrees.shared hst).2
          | paused => exact absurd hst hd.1
        constructor
        · simp [deliverStatus, ht]
        · simp [deliverStatus, ht]
        · intro _
          refine ⟨by simp, ?_⟩
          rw [List.map_append, List.nodup_append]
          refine ⟨hdomains, by simp, ?_⟩
          simpa using hd.2
    · exact h d (hcaps ▸ hd') hown

theorem Agreeing.revoke {s t : Tracker} {c : Capability} {r : RevokHandle} (h : Agreeing s)
    (hm : Micro s (.revoke c r) t) : Agreeing t := by
  cases hm with
  | revoke c r status a hcaps hr hs ha =>
    intro d hd hown
    rcases mem_put hd with rfl | hd
    · rcases hs with ⟨rfl, hrest⟩ | ⟨rfl, hst, hrest⟩
      · exact Capability.agrees_active rfl hrest
      · -- What is left of a shared entry's handles is some of them.
        have hagrees := h c.elem (hcaps ▸ c.elem_mem) hown
        have hsub : r.remove.Sublist c.elem.revoks := by
          rw [hr]
          exact (List.sublist_cons_self ..).append_left _
        refine ⟨by simp [hrest hown], by simp, fun _ => ⟨hrest hown, ?_⟩⟩
        exact (hagrees.shared hst).2.sublist (hsub.map _)
    · exact h d (hcaps ▸ hd) hown

theorem Agreeing.micro {s t : Tracker} {e : Effect} (h : Agreeing s) (hl : Ledger s) (hm : Micro s e t)
    (he : e.strips = false) : Agreeing t := by
  cases e with
  | idle =>
    cases hm <;> exact h
  | deliver => exact h.deliver hl hm
  | revoke => exact h.revoke hm
  | split =>
    cases hm with
    | split c addr a hcaps hs ha =>
      have hrevoks : c.elem.revoks = [] := by simpa [Effect.strips] using he
      have hown : c.elem.isOwned ≠ 0 := by
        simp [splittable] at hs
        exact hs.1.2.1
      have hact := (h c.elem (hcaps ▸ c.elem_mem) hown).active.2 hrevoks
      intro d hd hown
      rcases List.mem_append.1 hd with hd | hd
      · rcases mem_put hd with rfl | hd
        · exact Capability.agrees_active hact hrevoks
        · exact h d (hcaps ▸ hd) hown
      · obtain rfl := List.mem_singleton.1 hd
        exact Capability.agrees_active hact rfl
  | merge b _ =>
    cases hm with
    | merge l l' _ _ a hcaps hc hd =>
      have hrevoks : b.revoks = [] := hl.active b (by simp [hcaps]) hc
      intro e he hown
      simp only [List.mem_append, List.mem_cons] at he
      rcases he with he | rfl | he
      · exact h e (by simp [hcaps, he]) hown
      · exact Capability.agrees_active hc hrevoks
      · exact h e (by simp [hcaps, he]) hown

/-! ## Runs -/

/-- The call is a transfer that passes its checks, and splits an entry that
holds revocation handles. -/
def strips (s : Tracker) : Call → Bool
  | .transfer _ start end_ tpe =>
    match Cursor.find (transferable start end_) s.capabilities with
    | none => false
    | some curr =>
      !badTransfer start end_ tpe && transferAllowed tpe curr.elem && !decide (curr.elem.Exact start end_) &&
        splittable curr.elem start && !curr.elem.revoks.isEmpty
  | _ => false

theorem Call.Effects.strips {s : Tracker} {call : Call} {es : List Effect} {out : Outcome Int}
    (h : call.Effects s es out) (hapi : call.isApi = true) (ht : Capa.strips s call = false) :
    ∀ e ∈ es, e.strips = false := by
  cases call with
  | split i addr => cases hapi
  | revoke id start end_ =>
    rcases h with ⟨-, rfl | rfl⟩ | ⟨curr, r, merges, rfl, hm, -⟩
    · simp
    · simp [Effect.strips]
    · intro e he
      rcases List.mem_cons.1 he with rfl | he
      · rfl
      · rcases hm e he with rfl | ⟨a, b, rfl⟩ <;> rfl
  | transfer dom start end_ tpe =>
    obtain ⟨splits, last, rfl, hs, hlast⟩ := h
    intro e he
    rcases List.mem_append.1 he with he | he
    · rcases hs with rfl | ⟨curr, ⟨hbad, hfind, hok⟩, hs⟩
      · cases he
      rcases hs e he with rfl | ⟨hx, hsp, d, addr, rfl, ⟨rfl, rfl⟩ | hnone⟩
      · rfl
      · simpa [Capa.strips, Effect.strips, hfind, hbad, hok, hx, hsp] using ht
      · simp [Effect.strips, hnone]
    · rcases hlast with ⟨-, rfl | rfl⟩ | ⟨-, c, r, rfl, -⟩
      · cases he
      · obtain rfl := List.mem_singleton.1 he
        rfl
      · obtain rfl := List.mem_singleton.1 he
        rfl

/-- A transfer or revocation that strips no part of an entry of its handles. -/
def Whole (s : Tracker) (call : Call) (_ : Outcome Int) : Prop := call.isApi = true ∧ strips s call = false

/-- **Status and revocation handles agree** on every entry the domain owns, in
every run in which no transfer splits an entry that holds handles. -/
theorem status_agrees {env : Env} {x y : Config} (hx : Started env x) (h : Run env Whole x y) : Agreeing y.tracker := by
  have hstart : Agreeing x.tracker := by
    obtain ⟨s, hs, rfl⟩ := hx
    intro c hc _
    obtain ⟨hst, hrevoks⟩ := (initDomain_fresh hs).entries c hc
    exact Capability.agrees_active hst hrevoks
  induction h with
  | refl => exact hstart
  | @tail y z hxy hs ih =>
    obtain ⟨-, call, out, hafter, hapi, ht⟩ := hs
    have hy : Ledger y.tracker := Run.ledger hxy hx.ledger
    simp only [Config.after] at hafter
    cases hafter
    obtain ⟨es, hp, he⟩ := Call.run_effects hy.active (Prod.eta (call.run env y.tracker)).symm
    refine (hp.invariant (P := fun s => Ledger s ∧ Agreeing s) ?_ ⟨hy, ih⟩).2
    exact fun e hmem s t hs hm => ⟨hs.1.micro hm, hs.2.micro hs.1 hm (he.strips hapi ht e hmem)⟩

/-- Two shares of a part of a region, a revocation, and a grant of another part. -/
theorem status_agrees_granting :
    let env := Env.granting [(0, 0x10000)]
    let y := (Config.start env).played env [.transfer 1 0x2000 0x4000 shared, .transfer 2 0x2000 0x4000 shared,
      .revoke 1 0x2000 0x4000, .transfer 3 0x8000 0x9000 confidential]
    Agreeing y.tracker :=
  status_agrees (Config.started (by decide))
    (Run.of_plays (fun s call _ => call.isApi && !strips s call) _ (by decide)
      fun _ _ _ h => by simpa [Whole] using h)

/-- A share of the whole region, and one of a part of it: the last part has
the status of a shared entry, and no handle. -/
theorem status_disagrees :
    ¬ ∀ (env : Env) (x y : Config), Started env x → Run env apiCall x y → Agreeing y.tracker := by
  intro h
  let env := Env.granting [(0, 0x10000)]
  have h' := h env _ _ (Config.started (by decide))
    (Run.of_plays (fun _ call _ => call.isApi) [.transfer 1 0 0x10000 shared, .transfer 2 0x2000 0x4000 shared]
      (by decide) fun _ _ _ h => h)
  unfold Agreeing at h'
  exact absurd h' (by decide)

end Tyche.Capa
