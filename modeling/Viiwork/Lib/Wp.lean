import Viiwork.Lib.Prog

/-!
# Viiwork.Lib.Wp

Conditions on programs that may be stopped. `Wp C F Q p s` says of `p` run from `s` that
each of its operations takes one state to another as `C` says, that a result meets `Q` in
the state it comes with, and an error `F`. There is one rule for each construct.

`stop` is the state that a program leaves which is stopped within its `n`-th operation,
counted from zero; `tear` is what an operation cut short makes of the states before and
after it. A program stopped behind its last operation has run to its end.
-/

namespace Viiwork.Lib.Prog

variable {σ ε α β : Type}

theorem run_bind_pure_snd (p : Prog σ ε α) (b : β) (s : σ) :
    (run (p >>= fun _ => pure b) s).2 = (run p s).2 := by
  rw [run_bind]
  split
  · rename_i heq
    rw [heq]
    rfl
  · rename_i heq
    rw [heq]

/-! ### Conditions -/

def Wp (C : σ → σ → Prop) (F : ε → σ → Prop) (Q : α → σ → Prop) : Prog σ ε α → σ → Prop
  | done a, s => Q a s
  | fail e, s => F e s
  | read k, s => (k s).Wp C F Q s
  | op f k, s => C s (f s) ∧ k.Wp C F Q (f s)

section Rules

variable {C : σ → σ → Prop} {F : ε → σ → Prop} {Q : α → σ → Prop} {s : σ}

@[simp] theorem wp_pure {a : α} : (pure a : Prog σ ε α).Wp C F Q s ↔ Q a s := Iff.rfl

variable {e : ε} {p : Prog σ ε α}

@[simp] theorem wp_fail : (fail e : Prog σ ε α).Wp C F Q s ↔ F e s := Iff.rfl

@[simp] theorem wp_get {Q : σ → σ → Prop} : (get : Prog σ ε σ).Wp C F Q s ↔ Q s s := Iff.rfl

@[simp] theorem wp_act {Q : Unit → σ → Prop} {f : σ → σ} :
    (act f : Prog σ ε Unit).Wp C F Q s ↔ C s (f s) ∧ Q () (f s) := Iff.rfl

@[simp] theorem wp_ofExcept {r : Except ε α} :
    (ofExcept r : Prog σ ε α).Wp C F Q s ↔
      (∀ a, r = .ok a → Q a s) ∧ ∀ e, r = .error e → F e s := by
  cases r with
  | ok a => simp [ofExcept, Wp]
  | error e => simp [ofExcept]

@[simp] theorem wp_failIf {Q : Unit → σ → Prop} {c : Prop} [Decidable c] :
    (failIf c e : Prog σ ε Unit).Wp C F Q s ↔ (¬c → Q () s) ∧ (c → F e s) := by
  by_cases h : c
  · rw [failIf, failIf_pos h]
    simp [h]
  · rw [failIf, failIf_neg h]
    simp [h, ofExcept, Wp]

/-- **Rule of composition.** -/
@[simp] theorem wp_bind {Q : β → σ → Prop} {f : α → Prog σ ε β} :
    (p >>= f).Wp C F Q s ↔ p.Wp C F (fun a s => (f a).Wp C F Q s) s := by
  change (p.bind f).Wp C F Q s ↔ _
  induction p generalizing s with
  | done | fail => exact Iff.rfl
  | read k ih => exact ih s
  | op g k ih => exact and_congr_right fun _ => ih

@[simp] theorem wp_onFail {cleanup : σ → σ} :
    (p.onFail cleanup).Wp C F Q s ↔
      p.Wp C (fun e s => C s (cleanup s) ∧ F e (cleanup s)) Q s := by
  induction p generalizing s with
  | done | fail => exact Iff.rfl
  | read k ih => exact ih s
  | op g k ih => exact and_congr_right fun _ => ih

@[simp] theorem wp_attempt {Q : Unit → σ → Prop} {p : Prog σ ε Unit} :
    p.attempt.Wp C F Q s ↔ p.Wp C (fun _ s => Q () s) Q s := by
  induction p generalizing s with
  | done | fail => exact Iff.rfl
  | read k ih => exact ih s
  | op g k ih => exact and_congr_right fun _ => ih

/-- **Rule of consequence.** -/
theorem Wp.mono {C' : σ → σ → Prop} {F' : ε → σ → Prop} {Q' : α → σ → Prop} (h : p.Wp C F Q s)
    (hC : ∀ s s', C s s' → C' s s') (hF : ∀ e s, F e s → F' e s) (hQ : ∀ a s, Q a s → Q' a s) :
    p.Wp C' F' Q' s := by
  induction p generalizing s with
  | done a => exact hQ a s h
  | fail e => exact hF e s h
  | read k ih => exact ih s h
  | op f k ih => exact ⟨hC _ _ h.1, ih h.2⟩

theorem Wp.run_ok (h : p.Wp C F Q s) {a : α} {s' : σ} (hrun : p.run s = (.ok a, s')) : Q a s' := by
  induction p generalizing s with
  | done b =>
    cases hrun
    exact h
  | fail e => cases hrun
  | read k ih => exact ih s h hrun
  | op f k ih => exact ih h.2 hrun

theorem Wp.run_error (h : p.Wp C F Q s) {s' : σ} (hrun : p.run s = (.error e, s')) : F e s' := by
  induction p generalizing s with
  | done b => cases hrun
  | fail e =>
    cases hrun
    exact h
  | read k ih => exact ih s h hrun
  | op f k ih => exact ih h.2 hrun

/-- What a program leaves, whether or not it fails. -/
theorem Wp.run {P : σ → Prop} (h : p.Wp C (fun _ => P) (fun _ => P) s) : P (p.run s).2 := by
  induction p generalizing s with
  | done | fail => exact h
  | read k ih => exact ih s h
  | op f k ih => exact ih h.2

/-- A result meets `Q`; nothing is said about operations and errors. -/
abbrev Returns (Q : α → σ → Prop) (p : Prog σ ε α) (s : σ) : Prop :=
  p.Wp (fun _ _ => True) (fun _ _ => True) Q s

theorem returns_iff : p.Returns Q s ↔ ∀ a s', p.run s = (.ok a, s') → Q a s' := by
  refine ⟨fun h a s' hrun => h.run_ok hrun, fun h => ?_⟩
  induction p generalizing s with
  | done a => exact h a s rfl
  | fail e => trivial
  | read k ih => exact ih s h
  | op f k ih => exact ⟨trivial, ih h⟩

end Rules

/-! ### Stops -/

/-- The number of operations of a run. -/
def ops : Prog σ ε α → σ → Nat
  | done _, _ => 0
  | fail _, _ => 0
  | read k, s => (k s).ops s
  | op f k, s => k.ops (f s) + 1

def stop (tear : σ → σ → σ) : Prog σ ε α → Nat → σ → σ
  | done _, _, s => s
  | fail _, _, s => s
  | read k, n, s => (k s).stop tear n s
  | op f _, 0, s => tear s (f s)
  | op f k, n + 1, s => k.stop tear n (f s)

variable {tear : σ → σ → σ} {s : σ} {n : Nat}

theorem stop_of_ops_le {p : Prog σ ε α} (h : p.ops s ≤ n) : p.stop tear n s = (p.run s).2 := by
  induction p generalizing s n with
  | done | fail => rfl
  | read k ih => exact ih s h
  | op f k ih =>
    cases n with
    | zero => cases h
    | succ n => exact ih (Nat.le_of_succ_le_succ h)

/-- **Stop rule.** A program that has not run to its end was stopped within an operation. -/
theorem Wp.stop {C : σ → σ → Prop} {F : ε → σ → Prop} {Q : α → σ → Prop} {p : Prog σ ε α}
    (h : p.Wp C F Q s) (hlt : n < p.ops s) :
    ∃ s₁ s₂, C s₁ s₂ ∧ p.stop tear n s = tear s₁ s₂ := by
  induction p generalizing s n with
  | done | fail => cases hlt
  | read k ih => exact ih s h hlt
  | op f k ih =>
    cases n with
    | zero => exact ⟨s, f s, h.1, rfl⟩
    | succ n => exact ih h.2 (Nat.lt_of_succ_lt_succ hlt)

end Viiwork.Lib.Prog
