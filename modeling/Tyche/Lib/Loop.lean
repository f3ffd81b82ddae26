/-
Loops. An iteration leaves the loop, or goes on in another state; a loop ends
if some number of iterations is enough. An invariant that carries what is left
to do gives both the end and the bound.
-/
import Mathlib.Data.Nat.Notation

namespace Tyche.Loop

variable {σ τ γ : Type}

/-- How an iteration ends. -/
inductive Next (σ τ : Type)
  | again (s : σ)
  | leave (t : τ)
deriving DecidableEq, Repr

/-- The loop, for at most `n` iterations: how it is left, if it is. -/
def run (body : σ → Next σ τ) : Nat → σ → Option τ
  | 0, _ => none
  | n + 1, s =>
    match body s with
    | .again s => run body n s
    | .leave t => some t

variable {body : σ → Next σ τ} {s s' : σ} {t t' : τ} {n n' : Nat}

theorem run_leave (h : body s = .leave t) : run body (n + 1) s = some t := by
  rw [run, h]

theorem run_again (h : body s = .again s') : run body (n + 1) s = run body n s' := by
  rw [run, h]

/-- A loop that was left does not change with more iterations. -/
theorem run_mono (h : run body n s = some t) (hn : n ≤ n') : run body n' s = some t := by
  induction n generalizing s n' with
  | zero => cases h
  | succ n ih =>
    obtain ⟨k, rfl⟩ := Nat.exists_eq_add_of_le' hn
    rw [← Nat.add_assoc]
    cases hbody : body s with
    | again s' =>
      rw [run_again hbody] at h ⊢
      exact ih h (Nat.le_add_left ..)
    | leave t' =>
      rw [run_leave hbody] at h ⊢
      exact h

/-- The loop is left in one way. -/
theorem run_unique (h : run body n s = some t) (h' : run body n' s = some t') : t = t' := by
  have hmax := run_mono h (Nat.le_max_left n n')
  rw [run_mono h' (Nat.le_max_right n n')] at hmax
  exact (Option.some.inj hmax).symm

/-- What an iteration owes, when `g` is left to do: the loop is left as it
should be, or there is less to do, and what is due then is due now. -/
def Next.Meets (R : σ → γ → Prop) (size : γ → Nat) (Q : γ → τ → Prop) (g : γ) : Next σ τ → Prop
  | .leave t => Q g t
  | .again s => ∃ g', R s g' ∧ size g' < size g ∧ ∀ t, Q g' t → Q g t

/-- **The rule for a loop that ends.** `R` relates the states to what is left
to do. -/
theorem run_ends (R : σ → γ → Prop) (size : γ → Nat) (Q : γ → τ → Prop)
    (hstep : ∀ s g, R s g → (body s).Meets R size Q g) {g : γ} (hR : R s g) :
    ∃ t, run body (size g + 1) s = some t ∧ Q g t := by
  induction hsize : size g using Nat.strongRecOn generalizing s g with
  | ind k ih =>
    subst hsize
    have hmeets := hstep s g hR
    cases hbody : body s with
    | leave t =>
      rw [hbody] at hmeets
      exact ⟨t, run_leave hbody, hmeets⟩
    | again s' =>
      rw [hbody] at hmeets
      obtain ⟨g', hR', hlt, hQ⟩ := hmeets
      obtain ⟨t, hrun, hQ'⟩ := ih (size g') hlt hR' rfl
      refine ⟨t, ?_, hQ t hQ'⟩
      rw [run_again hbody]
      exact run_mono hrun hlt

end Tyche.Loop
