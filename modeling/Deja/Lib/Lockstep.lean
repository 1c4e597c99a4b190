import Deja.Lib.Run

/-!
# Programs that run in lockstep

Two runs of one program from states that agree on what it reads.

* `Run.Alike R` — two ends of runs with one answer in related states, or with one
  failure.
* `Run.Locksteps R x` — runs of `x` from related states end alike.  The rule is
  closed under `pure`, `throw`, `>>=` and `mapM`.
-/

namespace Run

variable {ε σ α β : Type} {R : σ → σ → Prop}

/-- One answer in related states, or one failure in any states. -/
inductive Alike (R : σ → σ → Prop) : EStateM.Result ε σ α → EStateM.Result ε σ α → Prop where
  | ok (a : α) {s t : σ} (h : R s t) : Alike R (.ok a s) (.ok a t)
  | error (e : ε) (s t : σ) : Alike R (.error e s) (.error e t)

/-- Runs of `x` from related states end alike. -/
def Locksteps (R : σ → σ → Prop) (x : EStateM ε σ α) : Prop := ∀ s t, R s t → Alike R (x s) (x t)

theorem locksteps_pure (a : α) : Locksteps R (pure a : EStateM ε σ α) := fun _ _ h => .ok a h

theorem locksteps_throw (e : ε) : Locksteps R (throw e : EStateM ε σ α) :=
  fun s t _ => .error e s t

/-- A sequence runs in lockstep where its second program does on every answer. -/
theorem locksteps_bind {x : EStateM ε σ α} {f : α → EStateM ε σ β} (hx : Locksteps R x)
    (hf : ∀ a, Locksteps R (f a)) : Locksteps R (x >>= f) := by
  intro s t h
  have halike := hx s t h
  rw [bind_apply, bind_apply]
  generalize x s = r at halike
  generalize x t = r' at halike
  cases halike with
  | ok a hst => exact hf a _ _ hst
  | error e s t => exact .error e s t

/-- A program that reads the state runs in lockstep where what it goes on with
does. -/
theorem locksteps_get {f : σ → EStateM ε σ α} (hf : ∀ s t, R s t → Alike R (f s s) (f t t)) :
    Locksteps R (get >>= f) := fun s t h => hf s t h

theorem locksteps_mapM {f : α → EStateM ε σ β} (hf : ∀ a, Locksteps R (f a)) (l : List α) :
    Locksteps R (l.mapM f) := by
  induction l with
  | nil => exact locksteps_pure []
  | cons a l ih =>
    rw [List.mapM_cons]
    exact locksteps_bind (hf a) fun b => locksteps_bind ih fun bs => locksteps_pure (b :: bs)

end Run
