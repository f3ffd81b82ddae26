/-
Which parts of an entry a transfer can take. `split_capa` accepts an address
in the half-open range of the entry: a split at the entry's own start leaves
an empty entry behind (`capabilities_nonempty`). `transfer_capa` looks for
both bounds in the half-open range: the last part of an entry is never found
(`subrange_transferred`).
-/
import Tyche.Capa.Delivery
import Tyche.Capa.Revocable
import Tyche.Capa.Mirror

namespace Tyche.Capa

/-! ## The pieces of a split -/

/-- A split of the entry leaves no empty piece. -/
def Effect.Proper : Effect → Prop
  | .split c addr => c.start < addr ∧ addr < c.end_
  | _ => True

/-- `l` and `r` are adjacent, and together they are the range of `c`. -/
structure Capability.Cut (c l r : Capability) : Prop where
  adjacent : l.end_ = r.start
  whole : ∀ a, c.covers a = true ↔ l.covers a = true ∨ r.covers a = true

/-- No entry is empty. -/
def NonEmpty (s : Tracker) : Prop := ∀ c ∈ s.capabilities, c.start < c.end_

instance (s : Tracker) : Decidable (NonEmpty s) := inferInstanceAs (Decidable (∀ c ∈ s.capabilities, _))

theorem cut_leftOf {c r : Capability} {addr : Nat} (hc : c.start ≤ addr ∧ addr < c.end_) (hstart : r.start = addr)
    (hend : r.end_ = c.end_) : c.Cut (c.leftOf addr) r := by
  refine ⟨hstart.symm, fun a => ?_⟩
  simp only [covers_iff, Capability.leftOf, hstart, hend]
  omega

section
variable {env : Env} {dom start end_ tpe : Nat} {s s' t : Tracker}

/-- A split cuts the entry in two. Neither piece is empty, unless the split
is at the start of the entry. -/
theorem splitCapa_cut {c sp : Cursor Capability} {addr : Nat} (h : splitCapa env (some c) addr s = (some sp, s')) :
    s'.capabilities = (c.put (c.elem.leftOf addr)).list ++ [sp.elem] ∧ c.elem.Cut (c.elem.leftOf addr) sp.elem ∧
      sp.elem.start < sp.elem.end_ ∧ (c.elem.start < (c.elem.leftOf addr).end_ ↔ addr ≠ c.elem.start) := by
  obtain ⟨hs, hcaps, p, q, rfl⟩ := splitCapa_some h
  have hin := splittable_contains hs
  refine ⟨by rw [hcaps, Cursor.last_list]; rfl, cut_leftOf hin rfl rfl, hin.2, ?_⟩
  show c.elem.start < addr ↔ _
  omega

/-- The effects of a failure are proper. -/
theorem proper_fails (h : s' = s ∨ Micro s .idle s') : ∃ es, Path s es s' ∧ ∀ e ∈ es, e.Proper := by
  obtain ⟨es, hp, rfl | rfl⟩ := idle_path h
  · exact ⟨_, hp, by simp⟩
  · exact ⟨_, hp, by simp [Effect.Proper]⟩

/-- The split step makes proper splits, when its first one is not at the
start of the entry. -/
theorem isolate_proper {curr : Cursor Capability} (hl : s.capabilities = curr.list) (hlt : start < end_)
    (hno : curr.elem.start = start → ¬ curr.elem.Exact start end_ → (splitCapa env (some curr) start s).1.isSome = false) :
    ∃ es, Path s es (isolate env curr start end_ s).2 ∧ ∀ e ∈ es, e.Proper := by
  by_cases hx : curr.elem.Exact start end_
  · have hx' : curr.elem.start = start ∧ curr.elem.end_ = end_ := hx
    simp only [isolate, hx', and_self, if_true]
    exact ⟨[], .nil _, by simp⟩
  have hx' : ¬ (curr.elem.start = start ∧ curr.elem.end_ = end_) := hx
  simp only [isolate, hx', if_false]
  rcases hfirst : splitCapa env (some curr) start s with ⟨_ | sp, t⟩
  · exact proper_fails (splitCapa_fails hl hfirst)
  rcases splitCapa_path hl hfirst with ⟨h', -⟩ | ⟨h', -⟩ | ⟨_, h', hm, hc, -, hs, hstart, hend, -⟩
  · cases h'
  · cases h'
  cases h'
  have hin := splittable_contains hs
  have hne : curr.elem.start ≠ start := by
    intro heq
    have := hno heq hx
    rw [hfirst] at this
    cases this
  have hproper : (Effect.split curr.elem start).Proper := ⟨by omega, hin.2⟩
  dsimp only
  split
  · rcases hsecond : splitCapa env (some sp) end_ t with ⟨_ | right, u⟩
    · obtain ⟨es, hp, hes⟩ := proper_fails (splitCapa_fails hc hsecond)
      exact ⟨_, .cons hm hp, List.forall_mem_cons.2 ⟨hproper, hes⟩⟩
    · rcases splitCapa_path hc hsecond with ⟨h', -⟩ | ⟨h', -⟩ | ⟨_, h', hm', -, -, hs', -⟩
      · cases h'
      · cases h'
      have hin' := splittable_contains hs'
      refine ⟨_, .cons hm (.one hm'), List.forall_mem_cons.2 ⟨hproper, ?_⟩⟩
      simp only [List.mem_singleton, forall_eq]
      exact ⟨by omega, hin'.2⟩
  · exact ⟨_, .one hm, by simpa using hproper⟩

end

/-! ## Runs without empty entries -/

/-- The call is a transfer that splits its entry at the entry's own start. -/
def cutsAtStart (env : Env) (s : Tracker) : Call → Bool
  | .transfer _ start end_ tpe =>
    splitsFirst env start end_ tpe s &&
      (Cursor.find (transferable start end_) s.capabilities).any fun curr => curr.elem.start == start
  | _ => false

/-- A transfer or revocation that does not split an entry at its own start. -/
def Inside (env : Env) (s : Tracker) (call : Call) (_ : Outcome Int) : Prop :=
  call.isApi = true ∧ cutsAtStart env s call = false

section
variable {env : Env} {s s' t : Tracker}

theorem beforeDelivery_proper {dom start end_ tpe : Nat} (hno : cutsAtStart env s (.transfer dom start end_ tpe) = false) :
    ∃ es, Path s es (beforeDelivery env start end_ tpe s).2 ∧ ∀ e ∈ es, e.Proper := by
  simp only [beforeDelivery]
  split
  · exact ⟨[], .nil _, by simp⟩
  next hbad =>
  split
  · exact ⟨[], .nil _, by simp⟩
  next curr hfind =>
  split
  · exact ⟨[], .nil _, by simp⟩
  next hok =>
  have hlt : start < end_ := by
    simp only [badTransfer, decide_eq_true_eq] at hbad
    omega
  refine isolate_proper (Cursor.find_some hfind).1.symm hlt fun heq hx => ?_
  rw [splitCapa_isSome]
  simpa [cutsAtStart, splitsFirst, hfind, hbad, hok, hx, heq] using hno

/-- Such a call makes proper splits. -/
theorem Inside.proper {call : Call} {out : Outcome Int} (h : Inside env s call out)
    (hact : ∀ c ∈ s.capabilities, c.status = .active → c.revoks = []) (hrun : call.run env s = (out, s')) :
    ∃ es, Path s es s' ∧ ∀ e ∈ es, e.Proper := by
  cases call with
  | split i addr => cases h.1
  | transfer dom start end_ tpe =>
    simp only [Call.run] at hrun
    cases hrun
    obtain ⟨es, hp, hes⟩ := beforeDelivery_proper h.2
    rcases hb : beforeDelivery env start end_ tpe s with ⟨_ | c, t⟩
    · rw [hb] at hp
      rw [transferCapa_none hb]
      exact ⟨es, hp, hes⟩
    rw [hb] at hp
    rcases transferCapa_some hb (Prod.eta (transferCapa env dom start end_ tpe s)).symm with ⟨-, hfail⟩ | ⟨-, r, -, hm⟩
    · obtain ⟨es', hp', hes'⟩ := proper_fails hfail
      exact ⟨_, hp.append hp', fun e he => (List.mem_append.1 he).elim (hes e) (hes' e)⟩
    · refine ⟨_, hp.append (.one hm), fun e he => ?_⟩
      rcases List.mem_append.1 he with he | he
      · exact hes e he
      · obtain rfl := List.mem_singleton.1 he
        trivial
  | revoke id start end_ =>
    obtain ⟨es, hp, he⟩ := revokeCapa_effects hact hrun
    refine ⟨es, hp, fun e hmem => ?_⟩
    rcases he with ⟨-, rfl | rfl⟩ | ⟨curr, r, merges, rfl, hm, -⟩
    · cases hmem
    · obtain rfl := List.mem_singleton.1 hmem
      trivial
    · rcases List.mem_cons.1 hmem with rfl | hmem
      · trivial
      · rcases hm e hmem with rfl | ⟨a, b, rfl⟩ <;> trivial

/-- Proper effects leave no entry empty. -/
theorem NonEmpty.micro {e : Effect} (h : NonEmpty s) (hm : Micro s e t) (he : e.Proper) : NonEmpty t := by
  cases hm with
  | noMemory => exact h
  | refused => exact h
  | abandoned => exact h
  | split c addr a hl =>
    intro d hd
    rcases List.mem_append.1 hd with hd | hd
    · rcases mem_put hd with rfl | hd
      · exact he.1
      · exact h d (hl ▸ hd)
    · obtain rfl := List.mem_singleton.1 hd
      exact he.2
  | deliver c dom tpe a hl =>
    intro d hd
    rcases mem_put hd with rfl | hd
    · exact h c.elem (hl ▸ c.elem_mem)
    · exact h d (hl ▸ hd)
  | revoke c r status a hl =>
    intro d hd
    rcases mem_put hd with rfl | hd
    · exact h c.elem (hl ▸ c.elem_mem)
    · exact h d (hl ▸ hd)
  | merge l l' c d a hl hc hd hadj =>
    intro e he
    simp only [List.mem_append, List.mem_cons] at he
    rcases he with he | rfl | he
    · exact h e (by simp [hl, he])
    · have h1 := h c (by simp [hl])
      have h2 := h d (by simp [hl])
      show c.start < d.end_
      omega
    · exact h e (by simp [hl, he])

end

/-- **No entry is empty**, in every run whose transfers split no entry at its
own start: the splits of a call leave two pieces each. Whatever calls it, a
successful split leaves an empty piece when it is at the start of the entry,
and only then. -/
theorem capabilities_nonempty {env : Env} {x y : Config} (hx : Started env x) (h0 : NonEmpty x.tracker)
    (h : Run env (Inside env) x y) :
    NonEmpty y.tracker ∧
      (∀ call out s', Inside env y.tracker call out → call.run env y.tracker = (out, s') →
        ∃ es, Path y.tracker es s' ∧ ∀ e ∈ es, e.Proper) ∧
      ∀ addr c sp s', splitCapa env (some c) addr y.tracker = (some sp, s') →
        s'.capabilities = (c.put (c.elem.leftOf addr)).list ++ [sp.elem] ∧
          c.elem.Cut (c.elem.leftOf addr) sp.elem ∧ sp.elem.start < sp.elem.end_ ∧
          (c.elem.start < (c.elem.leftOf addr).end_ ↔ addr ≠ c.elem.start) := by
  have hy : Ledger y.tracker ∧ NonEmpty y.tracker := by
    induction h with
    | refl => exact ⟨hx.ledger, h0⟩
    | @tail y z hxy hs ih =>
      obtain ⟨-, call, out, hafter, hin⟩ := hs
      simp only [Config.after] at hafter
      cases hafter
      obtain ⟨es, hp, hes⟩ := hin.proper ih.1.active (Prod.eta (call.run env y.tracker)).symm
      exact hp.invariant (P := fun s => Ledger s ∧ NonEmpty s)
        (fun e he s t hs hm => ⟨hs.1.micro hm, hs.2.micro hm (hes e he)⟩) ih
  exact ⟨hy.2, fun call out s' hin hrun => hin.proper hy.1.active hrun, fun _ _ _ _ => splitCapa_cut⟩

/-- A grant out of the middle of a region and its revocation. -/
theorem capabilities_nonempty_granting :
    let env := Env.granting [(0, 0x10000)]
    let y := (Config.start env).played env [.transfer 1 0x2000 0x4000 confidential, .revoke 1 0x2000 0x4000]
    NonEmpty y.tracker ∧
      (∀ call out s', Inside env y.tracker call out → call.run env y.tracker = (out, s') →
        ∃ es, Path y.tracker es s' ∧ ∀ e ∈ es, e.Proper) ∧
      ∀ addr c sp s', splitCapa env (some c) addr y.tracker = (some sp, s') →
        s'.capabilities = (c.put (c.elem.leftOf addr)).list ++ [sp.elem] ∧
          c.elem.Cut (c.elem.leftOf addr) sp.elem ∧ sp.elem.start < sp.elem.end_ ∧
          (c.elem.start < (c.elem.leftOf addr).end_ ↔ addr ≠ c.elem.start) := by
  intro env y
  exact capabilities_nonempty (Config.started (by decide)) (by decide)
    (Run.of_plays (fun s call _ => call.isApi && !cutsAtStart env s call) _ (by decide)
      fun _ _ _ h => by simpa [Inside] using h)

/-- The grant of the first page of a region leaves an empty entry. -/
theorem capabilities_emptied :
    ¬ ∀ (env : Env) (x y : Config), Started env x → NonEmpty x.tracker → Run env apiCall x y → NonEmpty y.tracker := by
  intro h
  let env := Env.granting [(0, 0x10000)]
  have h' := h env _ _ (Config.started (by decide)) (by decide)
    (Run.of_plays (fun _ call _ => call.isApi) [.transfer 1 0 0x1000 confidential] (by decide) fun _ _ _ h => h)
  exact absurd h' (by decide)

/-! ## A willing monitor -/

/-- After the events `log` the allocator never fails, and the monitor accepts
every grant and share, and every split strictly inside a region of its
table. -/
structure Env.Willing (env : Env) (boot : Table) (log : List Event) : Prop where
  alloc : ∀ evs, env.alloc (evs ++ log) = true
  deliver : ∀ evs f, f.delivers = true → (env.vmcall (evs ++ log) f).ok = true
  split : ∀ evs handle addr, (∃ r ∈ boot.after (evs ++ log), r.handle = handle ∧ r.start < addr ∧ addr < r.end_) →
    (env.vmcall (evs ++ log) (splitFrame handle addr)).ok = true

theorem Env.Willing.later {env : Env} {boot : Table} {log log' : List Event} (h : env.Willing boot log)
    (hlog : log <:+ log') : env.Willing boot log' := by
  obtain ⟨evs, rfl⟩ := hlog
  constructor
  · intro evs'
    rw [← List.append_assoc]
    exact h.alloc _
  · intro evs' f hf
    rw [← List.append_assoc]
    exact h.deliver _ f hf
  · intro evs' handle addr hr
    rw [← List.append_assoc] at hr ⊢
    exact h.split _ handle addr hr

theorem Env.willing_granting (regions : List (Nat × Nat)) (boot : Table) (log : List Event) :
    (Env.granting regions).Willing boot log := by
  refine ⟨fun _ => rfl, fun evs f hf => ?_, fun _ _ _ _ => rfl⟩
  simp only [VmcallFrame.delivers, Bool.or_eq_true, beq_iff_eq] at hf
  rcases hf with hid | hid <;> simp [Env.granting, hid, VmcallAnswer.ok]

section
variable {env : Env} {boot : Table} {dom start end_ tpe : Nat} {s s' t : Tracker} {c d : Cursor Capability}

/-- The willing monitor accepts the split of an entry strictly inside it. -/
theorem Env.Willing.accepts (hw : env.Willing boot s.log) (hm : Mirrors boot s) (hl : s.capabilities = c.list) {addr : Nat}
    (hs : c.elem.start < addr ∧ addr < c.elem.end_) :
    (env.vmcall (.alloc (some s.heap) :: s.log) (splitFrame c.elem.handle addr)).ok = true := by
  refine hw.split [_] _ _ ⟨c.elem.region, ?_, rfl, hs⟩
  exact hm.perm.mem_iff.1 (List.mem_map_of_mem (hl ▸ c.elem_mem))

/-- With a willing monitor, an entry is granted. -/
theorem Env.Willing.grantStep (hw : env.Willing boot s.log) : (Capa.grantStep env dom tpe c s).1 = 0 := by
  have halloc : env.alloc s.log = true := hw.alloc []
  have hok : (env.vmcall (.alloc (some s.heap) :: s.log) (grantFrame dom c.elem.handle tpe)).ok = true := hw.deliver [_] _ rfl
  simp [Capa.grantStep, Capa.alloc, halloc, tycheGrantCapa, tycheCall1, tycheCall, hok]

/-- With a willing monitor, an entry is shared with a domain that does not
have it. -/
theorem Env.Willing.shareStep (hw : env.Willing boot s.log) (hnew : ∀ r ∈ c.elem.revoks, r.domain ≠ dom) :
    (Capa.shareStep env dom tpe c s).1 = 0 := by
  have halloc : env.alloc s.log = true := hw.alloc []
  have hok : (env.vmcall (.alloc (some s.heap) :: s.log) (shareFrame dom c.elem.handle tpe)).ok = true := hw.deliver [_] _ rfl
  have hany : c.elem.revoks.any (·.domain == dom) = false := by simpa using hnew
  simp [Capa.shareStep, hany, Capa.alloc, halloc, tycheShareCapa, tycheCall1, tycheCall, hok]

/-! ## The ranges a transfer can take -/

/-- The range is the entry found, not shared with the domain yet; or a part
of it, which starts after the entry does, or where the monitor accepts the
split. -/
def Carvable (env : Env) (dom start end_ tpe : Nat) (s : Tracker) : Prop :=
  ∃ curr ∈ Cursor.find (transferable start end_) s.capabilities, transferAllowed tpe curr.elem = true ∧
    ((curr.elem.Exact start end_ ∧ (isConfidential tpe = true ∨ ∀ r ∈ curr.elem.revoks, r.domain ≠ dom)) ∨
      (¬ curr.elem.Exact start end_ ∧ splittable curr.elem start = true ∧
        (curr.elem.start ≠ start ∨
          (env.vmcall (.alloc (some s.heap) :: s.log) (splitFrame curr.elem.handle start)).ok = true)))

instance : Decidable (Carvable env dom start end_ tpe s) :=
  inferInstanceAs (Decidable (∃ curr ∈ Cursor.find _ s.capabilities, _))

/-- A part is split out of an entry after a first split that succeeds. -/
theorem isolate_first (h : isolate env c start end_ s = (some d, t)) (hx : ¬ c.elem.Exact start end_) :
    (splitCapa env (some c) start s).1.isSome = true := by
  have hx' : ¬ (c.elem.start = start ∧ c.elem.end_ = end_) := hx
  simp only [isolate, hx', if_false] at h
  split at h
  · cases h
  · next hsplit => rw [hsplit]; rfl

/-- The entry a transfer delivers is not shared with the domain. -/
theorem transferCapa_new (hb : beforeDelivery env start end_ tpe s = (some c, t))
    (h : transferCapa env dom start end_ tpe s = (0, s')) :
    isConfidential tpe = true ∨ ∀ r ∈ c.elem.revoks, r.domain ≠ dom := by
  rcases transferCapa_some hb h with ⟨h0, -⟩ | ⟨-, r, hr, hm⟩
  · cases h0
  · by_cases ht : isConfidential tpe = true
    · exact .inl ht
    · right
      generalize hc : c.elem = e at hm
      cases hm with
      | deliver c' dom' _ a _ hd =>
        obtain rfl : dom' = dom := hr
        simp only [Deliverable, ht] at hd
        exact hd.2

theorem Carvable.of_transfer (h : transferCapa env dom start end_ tpe s = (0, s')) :
    Carvable env dom start end_ tpe s := by
  obtain ⟨c, t, a, hb, -⟩ := transferCapa_zero h
  obtain ⟨curr, ⟨-, hfind, hok⟩, hi⟩ := beforeDelivery_some hb
  obtain ⟨hlist, hcurr, -⟩ := Cursor.find_some hfind
  refine ⟨curr, hfind, hok, ?_⟩
  obtain ⟨-, ⟨hx, rfl⟩ | ⟨hx, hs, -⟩⟩ := isolate_some hlist.symm hcurr hi
  · exact .inl ⟨hx, transferCapa_new hb h⟩
  · have hfirst := isolate_first hi hx
    rw [splitCapa_isSome, Bool.and_eq_true] at hfirst
    exact .inr ⟨hx, hs, .inr hfirst.2⟩

theorem splitCapa_suffix {c : Cursor Capability} {addr : Nat} {r} (hl : s.capabilities = c.list)
    (h : splitCapa env (some c) addr s = (r, s')) : s.log <:+ s'.log := by
  rcases splitCapa_path hl h with ⟨-, rfl⟩ | ⟨-, hm⟩ | ⟨_, -, hm, -⟩
  · exact List.suffix_rfl
  · exact hm.log_suffix
  · exact hm.log_suffix

/-- There is memory for a split that the monitor accepts. -/
theorem Env.Willing.splitCapa (hw : env.Willing boot s.log) {addr : Nat} (hs : splittable c.elem addr = true)
    (hok : (env.vmcall (.alloc (some s.heap) :: s.log) (splitFrame c.elem.handle addr)).ok = true) :
    ∃ sp t, Capa.splitCapa env (some c) addr s = (some sp, t) := by
  have hsome : (Capa.splitCapa env (some c) addr s).1.isSome = true := by
    rw [splitCapa_isSome, hs, hok]
    simpa using hw.alloc []
  obtain ⟨sp, hsp⟩ := Option.isSome_iff_exists.1 hsome
  exact ⟨sp, _, Prod.ext hsp rfl⟩

/-- With a willing monitor the split step succeeds, when its first split is
accepted. -/
theorem Env.Willing.isolate (hw : env.Willing boot s.log) (hm : Mirrors boot s) (hl : s.capabilities = c.list)
    (hlt : start < end_) (hf : transferable start end_ c.elem = true) (hx : ¬ c.elem.Exact start end_)
    (hs : splittable c.elem start = true)
    (hok : (env.vmcall (.alloc (some s.heap) :: s.log) (splitFrame c.elem.handle start)).ok = true)
    (hkept : boot.Kept (Capa.isolate env c start end_ s).2.log) :
    ∃ d u, Capa.isolate env c start end_ s = (some d, u) ∧ d.elem.revoks = [] := by
  have hx' : ¬ (c.elem.start = start ∧ c.elem.end_ = end_) := hx
  have hend : end_ < c.elem.end_ := by
    simp only [transferable, contains, Bool.or_eq_true, Bool.and_eq_true, decide_eq_true_eq] at hf
    rcases hf with hf | hf
    · exact absurd hf hx
    · omega
  obtain ⟨sp, t, hfirst⟩ := hw.splitCapa hs hok
  rcases splitCapa_path hl hfirst with ⟨h', -⟩ | ⟨h', -⟩ | ⟨_, h', hmicro, hcaps, -⟩
  · cases h'
  · cases h'
  cases h'
  obtain ⟨-, -, p, q, hsp⟩ := splitCapa_some hfirst
  have hstart' : sp.elem.start = start := by rw [hsp]; rfl
  have hend' : sp.elem.end_ = c.elem.end_ := by rw [hsp]; rfl
  have hnone : sp.elem.revoks = [] := by rw [hsp]; rfl
  have hs' : splittable sp.elem end_ = true := by
    simp only [splittable, contains, Bool.and_eq_true, decide_eq_true_eq] at hs ⊢
    rw [hstart', hend', hsp]
    exact ⟨hs.1, by omega, hend⟩
  have hgt : sp.elem.end_ > end_ := by rw [hend']; exact hend
  -- The table of the monitor is still mirrored between the two splits.
  have htable : Mirrors boot t := by
    refine hm.split hmicro (hkept.suffix ?_)
    rcases hsecond : Capa.splitCapa env (some sp) end_ t with ⟨right, u⟩
    have hu : (Capa.isolate env c start end_ s).2 = u := by
      simp only [Capa.isolate, hx', if_false, hfirst, hgt, if_true, hsecond]
      cases right <;> rfl
    rw [hu]
    exact splitCapa_suffix hcaps hsecond
  have hw' : env.Willing boot t.log := hw.later hmicro.log_suffix
  obtain ⟨right, u, hsecond⟩ := hw'.splitCapa hs' (hw'.accepts htable hcaps ⟨by omega, hgt⟩)
  refine ⟨⟨sp.before, { sp.elem with end_ := end_ }, sp.after ++ [right.elem]⟩, u, ?_, hnone⟩
  simp only [Capa.isolate, hx', if_false, hfirst, hgt, if_true, hsecond]

/-- What a transfer has done before the delivery is in its log. -/
theorem beforeDelivery_suffix :
    (beforeDelivery env start end_ tpe s).2.log <:+ (transferCapa env dom start end_ tpe s).2.log := by
  rcases hb : beforeDelivery env start end_ tpe s with ⟨_ | c, t⟩
  · rw [transferCapa_none hb]
  · rcases transferCapa_some hb (Prod.eta (transferCapa env dom start end_ tpe s)).symm with ⟨-, h | hm⟩ | ⟨-, r, -, hm⟩
    · rw [h]
    · exact hm.log_suffix
    · exact hm.log_suffix

theorem Carvable.transfer (h : Carvable env dom start end_ tpe s) (hw : env.Willing boot s.log) (hm : Mirrors boot s)
    (hbad : badTransfer start end_ tpe = false)
    (hkept : boot.Kept (transferCapa env dom start end_ tpe s).2.log) :
    (transferCapa env dom start end_ tpe s).1 = 0 := by
  obtain ⟨curr, hfind, hok, hcase⟩ := h
  have hfind : Cursor.find (transferable start end_) s.capabilities = some curr := hfind
  obtain ⟨hlist, hcurr, -⟩ := Cursor.find_some hfind
  have hlt : start < end_ := by
    simp only [badTransfer, decide_eq_false_iff_not] at hbad
    omega
  have hisolate : beforeDelivery env start end_ tpe s = Capa.isolate env curr start end_ s := by
    simp [beforeDelivery, hbad, hfind, hok]
  have hkept' := hkept.suffix beforeDelivery_suffix
  rw [hisolate] at hkept'
  -- The entry comes to the delivery, and is not shared with the domain.
  obtain ⟨d, u, hd, hnew⟩ : ∃ d u, Capa.isolate env curr start end_ s = (some d, u) ∧
      (isConfidential tpe = true ∨ ∀ r ∈ d.elem.revoks, r.domain ≠ dom) := by
    rcases hcase with ⟨hx, hnew⟩ | ⟨hx, hs, hsplit⟩
    · have hx' : curr.elem.start = start ∧ curr.elem.end_ = end_ := hx
      exact ⟨curr, s, by simp [Capa.isolate, hx'], hnew⟩
    · have hin := splittable_contains hs
      have haccept : (env.vmcall (.alloc (some s.heap) :: s.log) (splitFrame curr.elem.handle start)).ok = true := by
        rcases hsplit with hne | hok
        · exact hw.accepts hm hlist.symm ⟨by omega, hin.2⟩
        · exact hok
      obtain ⟨d, u, hd, hnone⟩ := hw.isolate hm hlist.symm hlt hcurr hx hs haccept hkept'
      exact ⟨d, u, hd, .inr (by simp [hnone])⟩
  obtain ⟨-, es, -, hp, -⟩ := beforeDelivery_path (hisolate.trans hd)
  have hw' := hw.later hp.log_suffix
  rw [transferCapa_eq, hisolate, hd]
  dsimp only
  split
  · exact hw'.grantStep
  · next ht => exact hw'.shareStep (hnew.resolve_left ht)

/-- An entry that is active and has the rights passes the checks. -/
theorem transferAllowed_active {e : Capability} (hact : e.status = .active)
    (hacc : translateAccess tpe &&& e.access = translateAccess tpe) : transferAllowed tpe e = true := by
  have hless : accessIsLess (translateAccess tpe) e.access = true := by
    refine accessIsLess_iff.2 fun i _ hi => ?_
    rw [← hacc, Nat.testBit_and, Bool.and_eq_true] at hi
    exact hi.2
  simp [transferAllowed, hless, hact]

end

/-! ## No entry is a revocation capability -/

/-- `init_domain` accepts no revocation capability. -/
def Plain (s : Tracker) : Prop := ∀ c ∈ s.capabilities, c.access &&& capaRevok = 0

theorem Plain.micro {s t : Tracker} {e : Effect} (h : Plain s) (hm : Micro s e t) : Plain t := by
  cases hm with
  | noMemory => exact h
  | refused => exact h
  | abandoned => exact h
  | split c addr a hl =>
    have hc := h c.elem (hl ▸ c.elem_mem)
    intro d hd
    rcases List.mem_append.1 hd with hd | hd
    · rcases mem_put hd with rfl | hd
      · exact hc
      · exact h d (hl ▸ hd)
    · obtain rfl := List.mem_singleton.1 hd
      exact hc
  | deliver c dom tpe a hl =>
    intro d hd
    rcases mem_put hd with rfl | hd
    · exact h c.elem (hl ▸ c.elem_mem)
    · exact h d (hl ▸ hd)
  | revoke c r status a hl =>
    intro d hd
    rcases mem_put hd with rfl | hd
    · exact h c.elem (hl ▸ c.elem_mem)
    · exact h d (hl ▸ hd)
  | merge l l' c d a hl =>
    intro e he
    simp only [List.mem_append, List.mem_cons] at he
    rcases he with he | rfl | he
    · exact h e (by simp [hl, he])
    · exact h c (by simp [hl])
    · exact h e (by simp [hl, he])

theorem alloc_capabilities {env : Env} {s s' : Tracker} {p} (h : alloc env s = (p, s')) :
    s'.capabilities = s.capabilities := by
  rcases alloc_cases h with ⟨-, rfl⟩ | ⟨-, rfl⟩ <;> rfl

theorem readEntries_plain {env : Env} {n i : Nat} {s s' : Tracker} {b} (h : readEntries env n i s = (b, s'))
    (hs : Plain s) : Plain s' := by
  induction n generalizing i s with
  | zero => cases h; exact hs
  | succ n ih =>
    simp only [readEntries] at h
    have same : ∀ {t : Tracker}, t.capabilities = s.capabilities → Plain t := fun ht c hc => hs c (ht ▸ hc)
    split at h
    · next ha => cases h; exact same (alloc_capabilities ha)
    next ptr t ha =>
    have ht := alloc_capabilities ha
    split at h
    · next hr =>
      obtain ⟨a, rfl, -⟩ := tycheCall1_cases hr
      cases h
      exact same ht
    next handle u hr =>
    obtain ⟨a, rfl, -⟩ := tycheCall1_cases hr
    split at h
    · next hi =>
      obtain ⟨a', rfl, -⟩ := tycheReadCapa_cases hi
      cases h
      exact same ht
    next capa v hi =>
    obtain ⟨a', rfl, -⟩ := tycheReadCapa_cases hi
    split at h
    · cases h
      exact same ht
    · next haccess =>
      refine ih h fun c hc => ?_
      rcases List.mem_append.1 hc with hc | hc
      · exact hs c (ht ▸ hc)
      · obtain rfl := List.mem_singleton.1 hc
        simpa using haccess

theorem Started.plain {env : Env} {x : Config} (h : Started env x) : Plain x.tracker := by
  obtain ⟨s, hs, rfl⟩ := h
  simp only [initDomain] at hs
  split at hs
  · simp at hs
  split at hs
  · simp at hs
  next ht =>
  split at hs
  · simp at hs
  next hu =>
  obtain ⟨a, rfl, -⟩ := tycheCall1_cases ht
  obtain ⟨a', rfl, -⟩ := tycheCall1_cases hu
  split at hs
  · next hr => cases hs; exact readEntries_plain hr (by simp [Plain])
  · simp at hs

/-! ## Sub-ranges -/

theorem transferCapa_suffix {env : Env} {dom start end_ tpe : Nat} {s : Tracker} :
    s.log <:+ (transferCapa env dom start end_ tpe s).2.log := by
  obtain ⟨es, hp, -⟩ := transferCapa_effects (Prod.eta (transferCapa env dom start end_ tpe s)).symm
  exact hp.log_suffix

/-- Among entries that do not overlap, a part of an entry can be taken when it
is the whole entry, or ends before it does and starts after it does (or
where the monitor accepts the split). -/
theorem carvable_iff {env : Env} {dom start end_ tpe : Nat} {s : Tracker} {c : Capability} (hl : Ledger s) (hp : Plain s)
    (hone : covering start s.capabilities ≤ 1) (hc : c ∈ s.capabilities) (hown : c.isOwned ≠ 0) (hsh : c.isShared = 0)
    (hact : c.status = .active) (hlt : start < end_) (hs : c.start ≤ start) (he : end_ ≤ c.end_)
    (hacc : translateAccess tpe &&& c.access = translateAccess tpe) :
    Carvable env dom start end_ tpe s ↔ c.Exact start end_ ∨ (end_ < c.end_ ∧ (c.start ≠ start ∨
      (env.vmcall (.alloc (some s.heap) :: s.log) (splitFrame c.handle start)).ok = true)) := by
  have hcovers : c.covers start = true := covers_iff.2 ⟨hs, by omega⟩
  -- The entry found is `c`.
  have hsame : ∀ curr, Cursor.find (transferable start end_) s.capabilities = some curr → c = curr.elem := by
    intro curr hfind
    obtain ⟨hlist, hcurr, -⟩ := Cursor.find_some hfind
    exact eq_of_covers hone hlist (transferable_covers hlt hcurr) hc hcovers
  constructor
  · rintro ⟨curr, hfind, -, ⟨hx, -⟩ | ⟨hx, -, hok⟩⟩
    · exact .inl (hsame curr hfind ▸ hx)
    · obtain ⟨-, hcurr, -⟩ := Cursor.find_some hfind
      rw [← hsame curr hfind] at hx hok hcurr
      simp only [transferable, contains, Bool.or_eq_true, Bool.and_eq_true, decide_eq_true_eq] at hcurr
      exact .inr ⟨(hcurr.resolve_left hx).2.2, hok⟩
  · intro hcase
    have hfound : transferable start end_ c = true := by
      rcases hcase with hx | ⟨hend, -⟩
      · exact transferable_exact hx
      · simp only [transferable, contains, Bool.or_eq_true, Bool.and_eq_true, decide_eq_true_eq]
        omega
    obtain ⟨curr, hfind⟩ := Cursor.find_isSome hc hfound
    obtain rfl := hsame curr hfind
    refine ⟨curr, hfind, transferAllowed_active hact hacc, ?_⟩
    rcases hcase with hx | ⟨hend, hok⟩
    · exact .inl ⟨hx, .inr (by simp [hl.active _ hc hact])⟩
    · refine .inr ⟨fun hx => ?_, ?_, hok⟩
      · have := hx.2
        omega
      · simp only [splittable, contains, hp _ hc, hsh, decide_true, Bool.true_and, Bool.and_eq_true, decide_eq_true_eq]
        exact ⟨by simpa using hown, hs, by omega⟩

/-- **Which sub-ranges can be transferred.** For an active entry that the
domain owns alone, and a part of it, a transfer with a willing monitor
returns 0 exactly when the entry that is found gives up the part. Among
entries that do not overlap, these are the whole entry and the parts that
end before it does; those that start where it does also need the monitor to
accept a split at the start of the region. -/
theorem subrange_transferred {env : Env} {boot : Table} {x y : Config} {c : Capability} {dom start end_ tpe : Nat}
    (hnodup : boot.handles.Nodup) (hx : Started env x) (h : Run env anyCall x y)
    (hkept : boot.Kept (transferCapa env dom start end_ tpe y.tracker).2.log) (hw : env.Willing boot y.tracker.log)
    (hc : c ∈ y.tracker.capabilities) (hown : c.isOwned ≠ 0) (hsh : c.isShared = 0) (hact : c.status = .active)
    (hlt : start < end_) (hstart : start % alignment = 0) (hend : end_ % alignment = 0) (hs : c.start ≤ start)
    (he : end_ ≤ c.end_) (htpe : tpe ≤ maxTpe) (hacc : translateAccess tpe &&& c.access = translateAccess tpe) :
    ((transferCapa env dom start end_ tpe y.tracker).1 = 0 ↔ Carvable env dom start end_ tpe y.tracker) ∧
      (covering start y.tracker.capabilities ≤ 1 →
        (Carvable env dom start end_ tpe y.tracker ↔ c.Exact start end_ ∨ (end_ < c.end_ ∧ (c.start ≠ start ∨
          (env.vmcall (.alloc (some y.tracker.heap) :: y.tracker.log) (splitFrame c.handle start)).ok = true)))) := by
  obtain ⟨hl, hp⟩ := h.invariant (P := Plain) hx.ledger (fun _ _ _ _ hp hm => hp.micro hm) hx.plain
  have hm : Mirrors boot y.tracker := h.mirrors hnodup hx (hkept.suffix transferCapa_suffix)
  have hbad : badTransfer start end_ tpe = false := by
    simp only [badTransfer, minTpe, decide_eq_false_iff_not]
    omega
  refine ⟨⟨fun h0 => ?_, fun hcarve => hcarve.transfer hw hm hbad hkept⟩, fun hone => ?_⟩
  · have hret : transferCapa env dom start end_ tpe y.tracker = (0, (transferCapa env dom start end_ tpe y.tracker).2) :=
      Prod.ext h0 rfl
    exact Carvable.of_transfer hret
  · exact carvable_iff hl hp hone hc hown hsh hact hlt hs he hacc

/-- A part from the middle of a region. -/
theorem subrange_transferred_granting :
    let env := Env.granting [(0, 0x10000)]
    let s := (Config.start env).tracker
    ((transferCapa env 1 0x2000 0x4000 confidential s).1 = 0 ↔ Carvable env 1 0x2000 0x4000 confidential s) ∧
      (covering 0x2000 s.capabilities ≤ 1 →
        (Carvable env 1 0x2000 0x4000 confidential s ↔
          Capability.Exact ⟨0, 0, 0, 0x10000, 1, 0, 7, .active, []⟩ 0x2000 0x4000 ∨ (0x4000 < 0x10000 ∧ (0 ≠ 0x2000 ∨
            (env.vmcall (.alloc (some s.heap) :: s.log) (splitFrame 0 0x2000)).ok = true)))) := by
  intro env s
  have hnodup : (Table.handles [⟨0, 0, 0x10000⟩]).Nodup := by decide
  have hc : ⟨0, 0, 0, 0x10000, 1, 0, 7, .active, []⟩ ∈ s.capabilities := by decide
  exact subrange_transferred hnodup (Config.started (by decide)) .refl (by decide) (Env.willing_granting ..) hc (by decide)
    rfl rfl (by decide) (by decide) (by decide) (by decide) (by decide) (by decide) (by decide)

/-- The second half of a region is refused by a monitor that accepts
everything. -/
theorem subrange_refused :
    ¬ ∀ (env : Env) (boot : Table) (x y : Config) (c : Capability) (dom start end_ tpe : Nat), boot.handles.Nodup →
      Started env x → Run env anyCall x y → boot.Kept (transferCapa env dom start end_ tpe y.tracker).2.log →
      env.Willing boot y.tracker.log → c ∈ y.tracker.capabilities → c.isOwned ≠ 0 → c.isShared = 0 → c.status = .active →
      start < end_ → start % alignment = 0 → end_ % alignment = 0 → c.start ≤ start → end_ ≤ c.end_ → tpe ≤ maxTpe →
      translateAccess tpe &&& c.access = translateAccess tpe → (transferCapa env dom start end_ tpe y.tracker).1 = 0 := by
  intro h
  let env := Env.granting [(0, 0x10000)]
  have h' := h env [⟨0, 0, 0x10000⟩] _ _ ⟨0, 0, 0, 0x10000, 1, 0, 7, .active, []⟩ 1 0x8000 0x10000 confidential (by decide)
    (Config.started (by decide)) .refl (by decide) (Env.willing_granting ..) (by decide) (by decide) rfl rfl (by decide)
    (by decide) (by decide) (by decide) (by decide) (by decide) (by decide)
  exact absurd h' (by decide)

end Tyche.Capa
