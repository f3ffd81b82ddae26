/-
The capability library (`capabilities/src/lib.c`): `init_domain` reads the
domain's capabilities, `transfer_capa` grants or shares a range of one of
them after splitting it out, `revoke_capa` takes a range back and merges it
with its neighbours.

A pointer to a capability is a `Cursor`: `list.prev` and `list.next` are the
head of `before` and of `after`. A function that fails returns -1 (or NULL),
as the source does after printing a message.
-/
import Tyche.Capa.Api

namespace Tyche.Capa

/-- `access_is_less`: every right of `a1` is one of `a2`'s. -/
def accessIsLess (a1 a2 : Nat) : Bool :=
  if a1 &&& capaRead ≠ 0 ∧ a2 &&& capaRead = 0 then false
  else if a1 &&& capaWrite ≠ 0 ∧ a2 &&& capaWrite = 0 then false
  else if a1 &&& capaExec ≠ 0 ∧ a2 &&& capaExec = 0 then false
  else true

/-! ## `init_domain` -/

/-- The `failure` path: the capabilities are removed from the list and
freed, head first. -/
def releaseAll : List Capability → Tracker → Tracker
  | [], s => s
  | capa :: rest, s => releaseAll rest (dealloc (.capa capa) { s with capabilities := rest })

/-- The enumeration of the handles `i .. i + n - 1`; `false` is the jump to
`failure`. The record being filled when the enumeration fails is not in the
list yet. -/
def readEntries (env : Env) : Nat → Nat → Tracker → Bool × Tracker
  | 0, _, s => (true, s)
  | n + 1, i, s =>
    match alloc env s with
    | (none, s) => (false, s)
    | (some ptr, s) =>
      match ecsReadEntry env i s with
      | (none, s) => (false, s)
      | (some handle, s) =>
        match tycheReadCapa env ⟨ptr, handle, 0, 0, 0, 0, 0, .active, []⟩ s with
        | (none, s) => (false, s)
        | (some capa, s) =>
          if capa.access &&& capaRevok ≠ 0 then (false, s)
          else readEntries env n (i + 1)
            { s with capabilities := s.capabilities ++ [{ capa with status := .active }] }

/-- `init_domain`. The arguments say which callbacks are given. -/
def initDomain (env : Env) (allocator deallocator print : Bool) (s : Tracker) : Int × Tracker :=
  if allocator = false ∨ deallocator = false ∨ print = false then (-1, s)
  else
    match tycheGetDomainId env { s with capabilities := [] } with
    | (none, s) => (-1, s)
    | (some id, s) =>
      match ecsReadSize env { s with id := id } with
      | (none, s) => (-1, s)
      | (some nbCapa, s) =>
        match readEntries env nbCapa 0 s with
        | (true, s) => (0, s)
        | (false, s) => (-1, releaseAll s.capabilities s)

/-- `create_domain`. -/
def createDomain (env : Env) (s : Tracker) : Option Nat × Tracker := tycheCreateDomain env s

/-- `seal_domain`. -/
def sealDomain (env : Env) (handle cr3 entry stack : Nat) (s : Tracker) : Option Nat × Tracker :=
  tycheDomainSeal env handle cr3 entry stack s

/-! ## `split_capa` -/

/-- What `split_capa` checks before it allocates anything. -/
def splittable (capa : Capability) (splitAddr : Nat) : Bool :=
  decide (capa.access &&& capaRevok = 0) && !(capa.isOwned == 0 || capa.isShared != 0) &&
    contains capa.start capa.end_ splitAddr

/-- `split_capa`: the position of the new capability, at the list's tail. -/
def splitCapa (env : Env) (capa : Option (Cursor Capability)) (splitAddr : Nat) (s : Tracker) :
    Option (Cursor Capability) × Tracker :=
  match capa with
  | none => (none, s)
  | some capa =>
    if splittable capa.elem splitAddr = false then (none, s)
    else
      match alloc env s with
      | (none, s) => (none, s)
      | (some ptr, s) =>
        -- Ownership, access and status are copied; the revocation handles stay on the left part.
        let split := { capa.elem with ptr := ptr, handle := 0, start := splitAddr, revoks := [] }
        match tycheSplitCapa env capa.elem.handle splitAddr s with
        | (none, s) => (none, dealloc (.capa split) s)
        | (some handle, s) =>
          let split := Cursor.last (capa.put { capa.elem with end_ := splitAddr }).list { split with handle := handle }
          (some split, { s with capabilities := split.list })

/-! ## `transfer_capa` -/

/-- The arguments `transfer_capa` rejects before it looks at the list. -/
def badTransfer (start end_ tpe : Nat) : Bool :=
  decide (start ≥ end_ ∨ tpe > maxTpe ∨ tpe < minTpe ∨ start % alignment ≠ 0 ∨ end_ % alignment ≠ 0)

/-- The entry `transfer_capa` looks for: a perfect match, or one that
contains both bounds. -/
def transferable (start end_ : Nat) (curr : Capability) : Bool :=
  decide (curr.start = start ∧ curr.end_ = end_) ||
    (contains curr.start curr.end_ start && contains curr.start curr.end_ end_)

/-- The rights and status checks of `transfer_capa` on the entry found. -/
def transferAllowed (tpe : Nat) (curr : Capability) : Bool :=
  accessIsLess (translateAccess tpe) curr.access &&
    !(isShared tpe && curr.status == .paused) &&
    !(isConfidential tpe && curr.status != .active)

/-- The split step: the capability of exactly `[start, end_)`. -/
def isolate (env : Env) (curr : Cursor Capability) (start end_ : Nat) (s : Tracker) :
    Option (Cursor Capability) × Tracker :=
  if curr.elem.start = start ∧ curr.elem.end_ = end_ then (some curr, s)
  else
    match splitCapa env (some curr) start s with
    | (none, s) => (none, s)
    | (some split, s) =>
      if split.elem.end_ > end_ then
        match splitCapa env (some split) end_ s with
        | (none, s) => (none, s)
        -- The second split rewrote `split` and put its right part behind it.
        | (some right, s) =>
          (some ⟨split.before, { split.elem with end_ := end_ }, split.after ++ [right.elem]⟩, s)
      else (some split, s)

/-- The confidential branch: the capability is granted. -/
def grantStep (env : Env) (dom tpe : Nat) (split : Cursor Capability) (s : Tracker) : Int × Tracker :=
  match alloc env s with
  | (none, s) => (-1, s)
  | (some ptr, s) =>
    let paused := split.put { split.elem with status := .paused }
    match tycheGrantCapa env dom split.elem.handle tpe { s with capabilities := paused.list } with
    | (none, s) =>
      let active := split.put { split.elem with status := .active }
      (-1, dealloc (.revok ⟨ptr, dom, 0⟩) { s with capabilities := active.list })
    | (some handle, s) =>
      let granted := split.put
        { split.elem with status := .paused, revoks := split.elem.revoks ++ [⟨ptr, dom, handle⟩] }
      (0, { s with capabilities := granted.list })

/-- The other branch: the capability is shared, once for each domain. -/
def shareStep (env : Env) (dom tpe : Nat) (split : Cursor Capability) (s : Tracker) : Int × Tracker :=
  if split.elem.revoks.any (·.domain == dom) then (-1, s)
  else
    match alloc env s with
    | (none, s) => (-1, s)
    | (some ptr, s) =>
      let sharing := split.put { split.elem with status := .shared }
      match tycheShareCapa env dom split.elem.handle tpe { s with capabilities := sharing.list } with
      | (none, s) => (-1, dealloc (.revok ⟨ptr, dom, 0⟩) { s with capabilities := split.list })
      | (some handle, s) =>
        let given := split.put
          { split.elem with status := .shared, revoks := split.elem.revoks ++ [⟨ptr, dom, handle⟩] }
        (0, { s with capabilities := given.list })

/-- `transfer_capa`. -/
def transferCapa (env : Env) (dom start end_ tpe : Nat) (s : Tracker) : Int × Tracker :=
  if badTransfer start end_ tpe then (-1, s)
  else
    match Cursor.find (transferable start end_) s.capabilities with
    | none => (-1, s)
    | some curr =>
      if transferAllowed tpe curr.elem = false then (-1, s)
      else
        match isolate env curr start end_ s with
        | (none, s) => (-1, s)
        | (some split, s) =>
          if isConfidential tpe then grantStep env dom tpe split s else shareStep env dom tpe split s

/-! ## `revoke_capa` -/

/-- The left neighbour can absorb `curr`. -/
def mergesLeft (prev curr : Capability) : Bool :=
  decide (prev.end_ = curr.start) && prev.isOwned != 0 && prev.status == .active &&
    decide (prev.access = curr.access) && prev.revoks.isEmpty

/-- The tests on the right neighbour that come before the read through
`prev`. -/
def mergesRight (curr next : Capability) : Bool :=
  decide (curr.end_ = next.start) && next.isOwned != 0 && next.status == .active &&
    decide (next.access = curr.access)

/-- The merge on the right. The source tests the revocation handles of
`prev`, the left neighbour, which is NULL for the first entry of the list. -/
def mergeRight (env : Env) (prev : Option Capability) (curr : Cursor Capability) (s : Tracker) :
    Outcome Int × Tracker :=
  match curr.after with
  | [] => (.ret 0, s)
  | next :: after =>
    if mergesRight curr.elem next = false then (.ret 0, s)
    else
      match prev with
      | none => (.fault, s)
      | some prev =>
        if prev.revoks.isEmpty = false then (.ret 0, s)
        else
          match tycheMergeCapa env curr.elem.handle next.handle s with
          | (false, s) => (.ret 0, s)
          | (true, s) =>
            let merged : Cursor Capability := ⟨curr.before, { curr.elem with end_ := next.end_ }, after⟩
            (.ret 0, dealloc (.capa next) { s with capabilities := merged.list })

/-- `attempt_merge`: the merge on the left, then on the right. After a merge
on the left, `prev` is the merged entry itself. -/
def attemptMerge (env : Env) (curr : Cursor Capability) (s : Tracker) : Outcome Int × Tracker :=
  if curr.elem.status ≠ .active then (.ret (-1), s)
  else
    match curr.before with
    | [] => mergeRight env none curr s
    | prev :: before =>
      if mergesLeft prev curr.elem then
        match tycheMergeCapa env prev.handle curr.elem.handle s with
        | (false, s) => (.ret 0, s)
        | (true, s) =>
          let merged : Cursor Capability := ⟨before, { prev with end_ := curr.elem.end_ }, curr.after⟩
          mergeRight env (some merged.elem) merged
            (dealloc (.capa curr.elem) { s with capabilities := merged.list })
      else mergeRight env (some prev) curr s

/-- The confidential case of `revoke_capa`. -/
def revokePaused (env : Env) (id : Nat) (curr : Cursor Capability) (s : Tracker) : Outcome Int × Tracker :=
  match curr.elem.revoks with
  | [] => (.ret (-1), s)
  | revok :: rest =>
    if rest.isEmpty = false then (.ret (-1), s)
    else if revok.domain ≠ id then (.ret (-1), s)
    else
      match tycheDomainRevoke env revok.revokHandle s with
      | (false, s) => (.ret (-1), s)
      | (true, s) =>
        let freed := curr.put { curr.elem with revoks := rest, status := .active }
        attemptMerge env freed (dealloc (.revok revok) { s with capabilities := freed.list })

/-- The shared case of `revoke_capa`. -/
def revokeShared (env : Env) (id : Nat) (curr : Cursor Capability) (s : Tracker) : Outcome Int × Tracker :=
  match Cursor.find (·.domain == id) curr.elem.revoks with
  | none => (.ret (-1), s)
  | some revok =>
    match tycheDomainRevoke env revok.elem.revokHandle s with
    | (false, s) => (.ret (-1), s)
    | (true, s) =>
      let rest := revok.remove
      if rest.isEmpty && curr.elem.isOwned != 0 then
        let freed := curr.put { curr.elem with revoks := rest, status := .active }
        attemptMerge env freed (dealloc (.revok revok.elem) { s with capabilities := freed.list })
      else
        let kept := curr.put { curr.elem with revoks := rest }
        (.ret 0, dealloc (.revok revok.elem) { s with capabilities := kept.list })

/-- The entry `revoke_capa` works on: the first whose range is exactly
`[start, end_)`. -/
def findExact (start end_ : Nat) (l : List Capability) : Option (Cursor Capability) :=
  Cursor.find (fun curr => decide (curr.start = start ∧ curr.end_ = end_)) l

/-- `revoke_capa`. -/
def revokeCapa (env : Env) (id start end_ : Nat) (s : Tracker) : Outcome Int × Tracker :=
  if start ≥ end_ then (.ret (-1), s)
  else
    match findExact start end_ s.capabilities with
    | none => (.ret (-1), s)
    | some curr =>
      if curr.elem.revoks.isEmpty then (.ret (-1), s)
      else
        match curr.elem.status with
        | .paused => revokePaused env id curr s
        | .shared => revokeShared env id curr s
        | .active => attemptMerge env curr s

end Tyche.Capa
