/-
The program in the enclave (`user/enclave/trusted`), and the message that it
answers (`my_shared.h`): it copies the message of its loader to a reply. It
sees memory through the tables of the enclave, the loader through its own.
-/
import Tyche.Lib.View
import Tyche.Loader.Rights

namespace Tyche.Loader

open Tyche.Elf Tyche.Pts Tyche.Radix
open Tyche.Enclave (AddRegion Driver Encl Run Walks Supplied Shortage TablesAllocated Commits HandsOutFrames ptePfnMask page add64
  teRead teWrite teExec)

/-! ## The program -/

/-- An access faults, or `i` overflows. -/
inductive Trap
  | fault (addr : Nat)
  | overflow
deriving DecidableEq, Repr

/-- The fields of `my_encl_message_t`. -/
abbrev messageAt : Nat := 0
abbrev messageLenAt : Nat := 8
abbrev replyAt : Nat := 12

/-- The result of an access to an address. -/
def orFault {α : Type} (addr : Nat) : Option α → Except Trap α
  | none => .error (.fault addr)
  | some x => .ok x

/-- The loop of `print_message`: `message_len` is read each time, and `i` can be
increased so many times. -/
def printLoop (v : View) (msg src : Nat) : (left i : Nat) → (Nat → UInt8) → Except Trap (Nat → UInt8)
  | left, i, mem => do
    let len ← orFault (add64 msg messageLenAt) (v.loadNumber mem (add64 msg messageLenAt) 4)
    if ¬ i < len then return mem
    else
      match left with
      | 0 => throw .overflow
      | left + 1 =>
        let b ← orFault (add64 src i) (v.load mem (add64 src i))
        let mem ← orFault (add64 msg (replyAt + i)) (v.store mem (add64 msg (replyAt + i)) b)
        printLoop v msg src left (i + 1) mem

/-- `print_message`. -/
def printMessage (v : View) (source : Nat) (mem : Nat → UInt8) : Except Trap (Nat → UInt8) := do
  let src ← orFault (add64 source messageAt) (v.loadNumber mem (add64 source messageAt) 8)
  printLoop v source src (2 ^ 31 - 1) 0 mem

/-- A `vmcall`, with `rax` and `rcx`. -/
structure Vmcall where
  rax : Nat
  rcx : Nat
deriving DecidableEq, Repr

/-- `trusted_entry`. -/
def trustedEntry (v : View) (retHandle args : Nat) (mem : Nat → UInt8) : Except Trap (List Vmcall × (Nat → UInt8)) := do
  let first := if args = 0 then [⟨0x500, 0xbadb1⟩] else []
  let mem ← printMessage v args mem
  return (first ++ [⟨0x999, retHandle⟩], mem)

/-- `encl_start`, up to the transition back. -/
def enclStart (v : View) (rcx r10 : Nat) (mem : Nat → UInt8) : Except Trap (List Vmcall × (Nat → UInt8)) :=
  trustedEntry v rcx r10 mem

/-! ## The copy -/

section Copy

variable {v : View} {msg src len : Nat} {mem : Nat → UInt8}

/-- A message that can be read, and answered. -/
structure Answerable (v : View) (msg src len : Nat) (mem : Nat → UInt8) : Prop where
  faithful : v.Faithful
  message : v.loadNumber mem msg 8 = some src
  length : v.loadNumber mem (msg + messageLenAt) 4 = some len
  readable : ∀ k < len, ∃ p, v (src + k) = some p
  writable : ∀ k < len, ∃ p, v (msg + replyAt + k) = some p ∧ p.writable = true
  apart : ∀ j < len, ∀ k < len, msg + replyAt + j ≠ src + k
  small : msg + replyAt + len < 2 ^ 64 ∧ src + len < 2 ^ 64 ∧ len < 2 ^ 31

/-- **The loop of `print_message`** copies what is left. -/
theorem printLoop_copies (h : Answerable v msg src len mem) (left : Nat) : ∀ {i : Nat} {mem' : Nat → UInt8}, i ≤ len → len - i ≤ left →
    View.Copied v src (msg + replyAt) i mem mem' →
    ∃ mem'', printLoop v msg src left i mem' = .ok mem'' ∧ View.Copied v src (msg + replyAt) len mem mem'' := by
  obtain ⟨hmsg, hsrc, -⟩ := h.small
  have hreply : replyAt = 12 := rfl
  have hlength : messageLenAt = 8 := rfl
  have hread : ∀ {i mem'}, i ≤ len → View.Copied v src (msg + replyAt) i mem mem' →
      v.loadNumber mem' (add64 msg messageLenAt) 4 = some len := by
    intro i mem' hi hcopied
    rw [add64, Nat.mod_eq_of_lt (by omega), ← h.length]
    exact View.loadNumber_congr fun k hk => hcopied.load_eq h.faithful fun j _ => by omega
  induction left with
  | zero =>
    intro i mem' hi hleft hcopied
    obtain rfl : i = len := by omega
    refine ⟨mem', ?_, hcopied⟩
    rw [printLoop, hread le_rfl hcopied]
    exact if_pos (Nat.lt_irrefl _)
  | succ left ih =>
    intro i mem' hi hleft hcopied
    rw [printLoop, hread hi hcopied]
    by_cases hlt : i < len
    · obtain ⟨p, hp⟩ := h.readable i hlt
      obtain ⟨q, hq, hwritable⟩ := h.writable i hlt
      have hload : v.load mem' (src + i) = some (mem' p.addr) := View.load_eq_some.2 ⟨p, hp, rfl⟩
      have hstore : v.store mem' (msg + replyAt + i) (mem' p.addr) = some (Function.update mem' q.addr (mem' p.addr)) :=
        View.store_eq_some.2 ⟨q, hq, hwritable, rfl⟩
      have hnext := hcopied.step h.faithful (fun k hk => h.apart k (hk.trans hlt) i hlt) hload hstore
      obtain ⟨mem'', hloop, hall⟩ := ih hlt (by omega) hnext
      refine ⟨mem'', ?_, hall⟩
      have hsum : add64 src i = src + i := Nat.mod_eq_of_lt (by omega)
      have hsum' : add64 msg (replyAt + i) = msg + replyAt + i := by
        rw [add64, Nat.mod_eq_of_lt (by omega), Nat.add_assoc]
      show (if ¬ i < len then _ else _) = _
      rw [if_neg (not_not.2 hlt), hsum, hsum', hload]
      show (orFault _ (v.store mem' (msg + replyAt + i) (mem' p.addr)) >>= _) = _
      rw [hstore]
      exact hloop
    · obtain rfl : i = len := by omega
      exact ⟨mem', if_pos hlt, hcopied⟩

/-- **The message is answered**, and the program goes back to where it came from. -/
theorem enclStart_answers (h : Answerable v msg src len mem) (hmsg : msg ≠ 0) (retHandle : Nat) :
    ∃ mem', enclStart v retHandle msg mem = .ok ([⟨0x999, retHandle⟩], mem') ∧ View.Copied v src (msg + replyAt) len mem mem' := by
  obtain ⟨hend, -, hshort⟩ := h.small
  obtain ⟨mem', hloop, hcopied⟩ := printLoop_copies h (2 ^ 31 - 1) (Nat.zero_le _) (by omega) (View.Copied.refl src _ mem)
  refine ⟨mem', ?_, hcopied⟩
  have hprint : printMessage v msg mem = .ok mem' := by
    have haddr : add64 msg messageAt = msg := Nat.mod_eq_of_lt (show msg + 0 < 2 ^ 64 by omega)
    rw [printMessage, haddr, h.message]
    exact hloop
  rw [enclStart, trustedEntry, hprint, if_neg hmsg]
  rfl

end Copy

/-! ## The two views -/

/-- A 48-bit address with its sign extended. -/
def Canonical (va : Nat) : Prop := va / 2 ^ 47 = 0 ∨ va / 2 ^ 47 = 2 ^ 17 - 1

instance (va : Nat) : Decidable (Canonical va) := inferInstanceAs (Decidable (_ ∨ _))

/-- Memory as the processor sees it through tables. -/
def tablesView (mem : Nat → Nat → Nat) (cr3 : Nat) : View := fun va =>
  if Canonical va then
    (accessWalk mem ptPML4 cr3 (va % 2 ^ 48)).map fun r =>
      ⟨(r.2.1 &&& ptPhysPageMask) / span r.1 * span r.1 + va % span r.1, r.2.2.write⟩
  else none

/-- Memory as a process with these entries sees it. -/
def hostView (pte : Nat → Nat) : View := fun va =>
  if va < 2 ^ 47 then some ⟨(pte (va / page) &&& ptePfnMask) + va % page, decide (pte (va / page) &&& ptRW ≠ 0)⟩ else none

section Views

variable {mem mem' : Nat → Nat → Nat} {e : Encl} {pte : Nat → Nat} {va : Nat}

/-- What an enclave sees at an address is a byte of the page that is found for it. -/
theorem Lasts.view (h : Lasts mem mem' e) {p : Place} (hp : tablesView mem' e.cr3 va = some p) :
    Canonical va ∧ ∃ w, pageWalk mem ptPML4 e.cr3 (va % 2 ^ 48) = some (ptPTE, w) ∧
      p = ⟨(w &&& ptPhysPageMask) + va % ptPageSize, (entryRights w).write⟩ := by
  unfold tablesView at hp
  split at hp
  next hcanonical =>
    refine ⟨hcanonical, ?_⟩
    rw [h.grants, h.walk, Option.map_map] at hp
    obtain ⟨⟨l, w⟩, hwalk, rfl⟩ := Option.map_eq_some_iff.1 hp
    obtain ⟨given, hover⟩ := h.handed
    obtain ⟨rfl, -⟩ := hover.leaves (va % 2 ^ 48) (Nat.mod_lt _ (by decide)) l w hwalk
    have haligned : (w &&& ptPhysPageMask) / ptPageSize * ptPageSize = w &&& ptPhysPageMask :=
      Nat.div_mul_cancel (Nat.dvd_of_mod_eq_zero (frame_and_mask w).1)
    refine ⟨w, hwalk, ?_⟩
    show Place.mk ((w &&& ptPhysPageMask) / ptPageSize * ptPageSize + va % ptPageSize) _ = _
    rw [haligned]
  next => cases hp

/-- **An enclave sees no byte twice.** -/
theorem Lasts.faithful (h : Lasts mem mem' e) : (tablesView mem' e.cr3).Faithful := by
  intro a b p q ha hb heq
  obtain ⟨hcanonical, w, hwalk, rfl⟩ := h.view ha
  obtain ⟨hcanonical', w', hwalk', rfl⟩ := h.view hb
  obtain ⟨given, hover⟩ := h.handed
  have hframe := (frame_and_mask w).1
  have hframe' := (frame_and_mask w').1
  have hp : ptPageSize = 4096 := rfl
  dsimp only at heq
  rw [hp] at heq hframe hframe'
  have hsame : w &&& ptPhysPageMask = w' &&& ptPhysPageMask := by omega
  have hpage := hover.injective _ _ _ _ _ _ (Nat.mod_lt a (by decide)) (Nat.mod_lt b (by decide)) hwalk hwalk' hsame
  rw [hp] at hpage
  unfold Canonical at hcanonical hcanonical'
  omega

/-- At the addresses of a request for the loader's own, the enclave sees what the loader does. -/
theorem MayUse.view {requests : List AddRegion} (h : MayUse mem e pte requests) {req : AddRegion} (hreq : req ∈ requests)
    (hsame : req.src = req.start) (hva : req.Covers va) (hlow : va < 2 ^ 47) :
    tablesView mem e.cr3 va = some ⟨(pte (va / page) &&& ptePfnMask) + va % page, decide (req.flags &&& teWrite ≠ 0)⟩ := by
  obtain ⟨w, hwalk, hframe⟩ := h.asked req hreq va hva
  have hcanonical : Canonical va := .inl (Nat.div_eq_of_lt hlow)
  have hsrc : req.src + (va - req.start) = va := by
    rw [hsame]
    exact Nat.add_sub_cancel' hva.1
  have haligned : (w &&& ptPhysPageMask) / ptPageSize * ptPageSize = w &&& ptPhysPageMask :=
    Nat.div_mul_cancel (Nat.dvd_of_mod_eq_zero (frame_and_mask w).1)
  rw [tablesView, if_pos hcanonical, Nat.mod_eq_of_lt (hlow.trans (by decide)), hwalk]
  show some (Place.mk ((w &&& ptPhysPageMask) / ptPageSize * ptPageSize + va % ptPageSize) _) = _
  rw [haligned, hframe, hsrc]
  rfl

theorem hostView_low (hlow : va < 2 ^ 47) :
    hostView pte va = some ⟨(pte (va / page) &&& ptePfnMask) + va % page, decide (pte (va / page) &&& ptRW ≠ 0)⟩ := if_pos hlow

/-- So it loads what the loader does. -/
theorem MayUse.load_eq {requests : List AddRegion} (h : MayUse mem e pte requests) {req : AddRegion} (hreq : req ∈ requests)
    (hsame : req.src = req.start) (hva : req.Covers va) (hlow : va < 2 ^ 47) (phys : Nat → UInt8) :
    (tablesView mem e.cr3).load phys va = (hostView pte).load phys va := by
  rw [View.load, View.load, h.view hreq hsame hva hlow, hostView_low hlow]
  rfl

/-- What a copy through the tables leaves is a copy for the loader, and spares the tables. -/
theorem Lasts.copied (h : Lasts mem mem' e) {src dst n : Nat} {phys phys' : Nat → UInt8}
    (hcopied : View.Copied (tablesView mem' e.cr3) src dst n phys phys')
    (hsame : ∀ phys k, k < n → (tablesView mem' e.cr3).load phys (dst + k) = (hostView pte).load phys (dst + k) ∧
      (tablesView mem' e.cr3).load phys (src + k) = (hostView pte).load phys (src + k))
    (haddr : ∀ k < n, (tablesView mem' e.cr3 (dst + k)).map Place.addr = (hostView pte (dst + k)).map Place.addr) :
    View.Copied (hostView pte) src dst n phys phys' ∧
      ∀ l q t, layout.Reach mem' e.cr3 l q t → ∀ k < ptPageSize, phys' (t + k) = phys (t + k) := by
  refine ⟨⟨fun k hk => ?_, fun x hx => hcopied.others x fun k hk p hp heq => ?_⟩, fun l q t ht k hk =>
    hcopied.others (t + k) fun j hj p hp heq => ?_⟩
  · rw [← (hsame phys' k hk).1, ← (hsame phys k hk).2]
    exact hcopied.bytes k hk
  · have hmap := haddr k hk
    rw [hp, Option.map_some] at hmap
    obtain ⟨q, hq, hqp⟩ := Option.map_eq_some_iff.1 hmap.symm
    exact hx k hk q hq (hqp.trans heq)
  · obtain ⟨-, w, hwalk, rfl⟩ := h.view hp
    obtain ⟨ht', haligned, -⟩ := h.reach ht
    obtain ⟨given, hover⟩ := h.handed
    have hframe := (frame_and_mask w).1
    have hne := hover.apart l q t _ _ w ht' (Nat.mod_lt _ (by decide)) hwalk
    have hp : ptPageSize = 4096 := rfl
    dsimp only at heq
    rw [hp] at heq haligned hframe hk
    omega

end Views

/-! ## A message for a loaded enclave -/

/-- `extra_ro`, and `extra`. -/
def mainExtraRO : AddRegion := ⟨0, 0x7f1000003000, 0x7f1000004000, 0x7f1000003000, teRead, Capa.sharedRO⟩
def mainExtra : AddRegion := ⟨0, 0x7f1000002000, 0x7f1000003000, 0x7f1000002000, teRead ||| teWrite, Capa.shared⟩

/-- The load of `main`. -/
def mainLoad : Load := { oneLoad with extras := [mainExtra, mainExtraRO] }

/-- `msg`. -/
def mainMessage : List UInt8 := "A message for the enlave.\n".toUTF8.toList

/-- The frames of the two regions, once the message is set up. -/
def mainMemory (a : Nat) : UInt8 :=
  if a < 0x23000 then ([0, 0x30, 0, 0, 0x10, 0x7f, 0, 0, 26, 0, 0, 0] : List UInt8).getD (a - 0x22000) 0
  else mainMessage.getD (a - 0x23000) 0

/-- The load returns 0, its allocations succeed, and frames are handed out. -/
def loadsWell (load : Load) : Bool :=
  match loadEnclave sealing 1 load ⟨.boot fun _ _ => 0, []⟩ with
  | .ok (out, c) =>
    decide (out = .ret 0) && (c.driver.enclaves.all fun e => Enclave.suppliedBy ((e.regions.flatMap (·.pas)).map (·.start)) c.driver.log) &&
      (c.driver.log.all fun ev => !ev.shortage) && (Enclave.handsOutFreeBy c.driver.log && Enclave.handedOut c.driver.log)
  | .error _ => false

theorem of_loadsWell {load : Load} (h : loadsWell load = true) : ∃ c, loadEnclave sealing 1 load ⟨.boot fun _ _ => 0, []⟩ = .ok (.ret 0, c) ∧
    (∀ e ∈ c.driver.enclaves, Supplied ((e.regions.flatMap (·.pas)).map (·.start)) [] c.driver.log) ∧
    ¬ Shortage [] c.driver.log ∧ HandsOutFrames c.driver.log := by
  unfold loadsWell at h
  split at h
  next out c heq =>
    simp only [Bool.and_eq_true, decide_eq_true_eq] at h
    obtain ⟨⟨⟨rfl, hsupplied⟩, hgiven⟩, hfree, hout⟩ := h
    refine ⟨c, heq, fun e he => .of_suppliedBy (List.all_eq_true.1 hsupplied e he), fun hshort => ?_, .of_checks hfree hout⟩
    obtain ⟨ev, hev, hfails⟩ := List.any_eq_true.1 (Enclave.shortage_nil.1 hshort)
    have hnot := List.all_eq_true.1 hgiven ev hev
    rw [hfails] at hnot
    cases hnot
  next => cases h

end Tyche.Loader
