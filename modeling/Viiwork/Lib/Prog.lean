import Mathlib

/-!
# Viiwork.Lib.Prog

Programs over a shared state: a tree of reads and of atomic operations, which ends with
a result or an error. The operations done before an error stay done, as with files, so
an error comes with the state it leaves; `onFail` is a deferred cleanup.

`run` has one rule for each construct. `Keeps P` says that every operation of a program
keeps `P`; then so does every run, whether or not it ends in an error.
-/

namespace Viiwork.Lib

/-! ### Computations that may fail -/

section Except

variable {ε α β : Type} {f : α → Except ε β} {c : Prop} {e : ε} {x : Except ε α} {xs : List α}

/-- A composition returns exactly when both parts do. -/
theorem bind_eq_ok {b : β} : x >>= f = .ok b ↔ ∃ a, x = .ok a ∧ f a = .ok b := by
  cases x <;> simp [bind, Except.bind]

@[simp] theorem ok_bind (a : α) (f : α → Except ε β) : (.ok a : Except ε α) >>= f = f a := rfl

/-- The error `e` when `c`. -/
def failIf (c : Prop) [Decidable c] (e : ε) : Except ε Unit := if c then .error e else .ok ()

theorem failIf_neg [Decidable c] (h : ¬c) : failIf c e = .ok () := if_neg h

theorem failIf_pos [Decidable c] (h : c) : failIf c e = .error e := if_pos h

theorem failIf_eq_ok [Decidable c] {u : Unit} : failIf c e = .ok u ↔ ¬c := by
  unfold failIf
  split <;> simp_all

@[simp] theorem mapError_eq_ok {δ : Type} {f : ε → δ} {a : α} :
    x.mapError f = .ok a ↔ x = .ok a := by
  cases x <;> simp [Except.mapError]

/-- A loop returns exactly when every step does. -/
theorem mapM_eq_ok_iff {ys : List β} :
    xs.mapM f = .ok ys ↔ List.Forall₂ (fun x y => f x = .ok y) xs ys := by
  induction xs generalizing ys with
  | nil =>
    rw [List.mapM_nil, List.forall₂_nil_left_iff]
    exact ⟨fun h => (Except.ok.inj h).symm, fun h => h ▸ rfl⟩
  | cons x xs ih =>
    rw [List.mapM_cons, bind_eq_ok, List.forall₂_cons_left_iff]
    constructor
    · rintro ⟨y, hy, h⟩
      obtain ⟨zs, hzs, h⟩ := bind_eq_ok.1 h
      exact ⟨y, zs, hy, ih.1 hzs, (Except.ok.inj h).symm⟩
    · rintro ⟨y, zs, hy, hzs, rfl⟩
      exact ⟨y, hy, bind_eq_ok.2 ⟨zs, ih.2 hzs, rfl⟩⟩

/-- A loop whose every step returns. -/
theorem mapM_eq_ok {g : α → β} (h : ∀ x ∈ xs, f x = .ok (g x)) : xs.mapM f = .ok (xs.map g) := by
  rw [mapM_eq_ok_iff, List.forall₂_map_right_iff, List.forall₂_same]
  exact h

end Except

/-! ### Programs -/

inductive Prog (σ ε α : Type) where
  | done (a : α)
  | fail (e : ε)
  | read (k : σ → Prog σ ε α)
  /-- One atomic change of the state. -/
  | op (f : σ → σ) (k : Prog σ ε α)

namespace Prog

variable {σ ε α β : Type}

protected def bind : Prog σ ε α → (α → Prog σ ε β) → Prog σ ε β
  | done a, f => f a
  | fail e, _ => fail e
  | read k, f => read fun s => (k s).bind f
  | op g k, f => op g (k.bind f)

instance : Monad (Prog σ ε) where
  pure := done
  bind := Prog.bind

def ofExcept : Except ε α → Prog σ ε α
  | .ok a => done a
  | .error e => fail e

/-- The state as it is. -/
def get : Prog σ ε σ := read done

def act (f : σ → σ) : Prog σ ε Unit := op f (done ())

/-- The error `e` when `c`. -/
def failIf (c : Prop) [Decidable c] (e : ε) : Prog σ ε Unit := ofExcept (Lib.failIf c e)

/-- `p`, and after an error of it the cleanup. -/
def onFail (cleanup : σ → σ) : Prog σ ε α → Prog σ ε α
  | done a => done a
  | fail e => op cleanup (fail e)
  | read k => read fun s => (k s).onFail cleanup
  | op f k => op f (k.onFail cleanup)

/-- `p` up to its first error. -/
def attempt : Prog σ ε Unit → Prog σ ε Unit
  | done a => done a
  | fail _ => done ()
  | read k => read fun s => (k s).attempt
  | op f k => op f k.attempt

/-! ### Runs -/

def run : Prog σ ε α → σ → Except ε α × σ
  | done a, s => (.ok a, s)
  | fail e, s => (.error e, s)
  | read k, s => (k s).run s
  | op f k, s => k.run (f s)

@[simp] theorem run_pure (a : α) (s : σ) : run (pure a : Prog σ ε α) s = (.ok a, s) := rfl

@[simp] theorem run_get (s : σ) : run (get : Prog σ ε σ) s = (.ok s, s) := rfl

@[simp] theorem run_act (f : σ → σ) (s : σ) :
    run (act f : Prog σ ε Unit) s = (.ok (), f s) := rfl

theorem run_bind (p : Prog σ ε α) (f : α → Prog σ ε β) (s : σ) :
    run (p >>= f) s =
      match run p s with
      | (.ok a, s') => run (f a) s'
      | (.error e, s') => (.error e, s') := by
  change run (p.bind f) s = _
  induction p generalizing s with
  | done | fail => rfl
  | read k ih => exact ih s s
  | op g k ih => exact ih (g s)

variable {f : α → Prog σ ε β} {p : Prog σ ε α} {s : σ} {e : ε}

/-- **Rule of composition.** -/
theorem run_bind_ok {s' : σ} {a : α} (h : run p s = (.ok a, s')) :
    run (p >>= f) s = run (f a) s' := by
  rw [run_bind, h]

theorem run_bind_error {s' : σ} (h : run p s = (.error e, s')) :
    run (p >>= f) s = (.error e, s') := by
  rw [run_bind, h]

/-- A composition returns exactly when both parts do. -/
theorem run_bind_eq_ok {s'' : σ} {b : β} :
    run (p >>= f) s = (.ok b, s'') ↔
      ∃ a s', run p s = (.ok a, s') ∧ run (f a) s' = (.ok b, s'') := by
  rw [run_bind]
  generalize run p s = out
  obtain ⟨res, s'⟩ := out
  cases res with
  | error | ok => simp

@[simp] theorem run_get_bind (f : σ → Prog σ ε β) (s : σ) : run (get >>= f) s = run (f s) s := rfl

@[simp] theorem run_act_bind (g : σ → σ) (f : Unit → Prog σ ε β) (s : σ) :
    run (act g >>= f) s = run (f ()) (g s) := rfl

@[simp] theorem run_ofExcept_bind_ok (a : α) (f : α → Prog σ ε β) (s : σ) :
    run (ofExcept (.ok a) >>= f) s = run (f a) s := rfl

@[simp] theorem run_ofExcept_bind_error (e : ε) (f : α → Prog σ ε β) (s : σ) :
    run ((ofExcept (.error e) : Prog σ ε α) >>= f) s = (.error e, s) := rfl

variable {c : Prop}

theorem run_failIf_bind_neg [Decidable c] (h : ¬c) (f : Unit → Prog σ ε β) (s : σ) :
    run (failIf c e >>= f) s = run (f ()) s := by
  rw [failIf, failIf_neg h, run_ofExcept_bind_ok]

theorem run_failIf_bind_pos [Decidable c] (h : c) (f : Unit → Prog σ ε β) (s : σ) :
    run (failIf c e >>= f) s = (.error e, s) := by
  rw [failIf, failIf_pos h, run_ofExcept_bind_error]

theorem run_onFail (cleanup : σ → σ) (p : Prog σ ε α) (s : σ) :
    run (p.onFail cleanup) s =
      match run p s with
      | (.ok a, s') => (.ok a, s')
      | (.error e, s') => (.error e, cleanup s') := by
  induction p generalizing s with
  | done | fail => rfl
  | read k ih => exact ih s s
  | op f k ih => exact ih (f s)

theorem run_attempt (p : Prog σ ε Unit) (s : σ) :
    run p.attempt s = (.ok (), (run p s).2) := by
  induction p generalizing s with
  | done | fail => rfl
  | read k ih => exact ih s s
  | op f k ih => exact ih (f s)

/-! ### Invariants of the operations -/

/-- Every operation of the program keeps `P`. -/
def Keeps (P : σ → Prop) : Prog σ ε α → Prop
  | done _ => True
  | fail _ => True
  | read k => ∀ s, P s → (k s).Keeps P
  | op f k => (∀ s, P s → P (f s)) ∧ k.Keeps P

variable {P : σ → Prop}

/-- **Invariant rule.** -/
theorem Keeps.run (h : p.Keeps P) (hs : P s) : P (p.run s).2 := by
  induction p generalizing s with
  | done | fail => exact hs
  | read k ih => exact ih s (h s hs) hs
  | op f k ih => exact ih h.2 (h.1 s hs)

theorem Keeps.bind (hp : p.Keeps P) (hf : ∀ a, (f a).Keeps P) : (p >>= f).Keeps P := by
  change (p.bind f).Keeps P
  induction p with
  | done a => exact hf a
  | fail e => trivial
  | read k ih => exact fun s hs => ih s (hp s hs)
  | op g k ih => exact ⟨hp.1, ih hp.2⟩

theorem keeps_pure (a : α) : (pure a : Prog σ ε α).Keeps P := trivial

theorem keeps_fail (e : ε) : (fail e : Prog σ ε α).Keeps P := trivial

theorem keeps_ofExcept (r : Except ε α) : (ofExcept r : Prog σ ε α).Keeps P := by
  cases r <;> trivial

theorem keeps_get : (get : Prog σ ε σ).Keeps P := fun _ _ => trivial

theorem keeps_act {f : σ → σ} (h : ∀ s, P s → P (f s)) : (act f : Prog σ ε Unit).Keeps P :=
  ⟨h, trivial⟩

theorem Keeps.onFail {cleanup : σ → σ} (hp : p.Keeps P) (hc : ∀ s, P s → P (cleanup s)) :
    (p.onFail cleanup).Keeps P := by
  induction p with
  | done a => trivial
  | fail e => exact ⟨hc, trivial⟩
  | read k ih => exact fun s hs => ih s (hp s hs)
  | op f k ih => exact ⟨hp.1, ih hp.2⟩

theorem Keeps.attempt {p : Prog σ ε Unit} (hp : p.Keeps P) : p.attempt.Keeps P := by
  induction p with
  | done | fail => trivial
  | read k ih => exact fun s hs => ih s (hp s hs)
  | op f k ih => exact ⟨hp.1, ih hp.2⟩

end Prog

end Viiwork.Lib
