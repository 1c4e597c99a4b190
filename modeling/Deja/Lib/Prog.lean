import Mathlib.Logic.Basic
import Mathlib.Tactic.Common

/-!
# Programs that make calls

A program of type `Prog C R ε α` makes calls `c : C` one at a time, is given a
reply of type `R c` or an error for each, and ends with a value or an error.  What
a call does is a relation on states, so a call may fail in one run and succeed in
another.

* `Runs` — a run to the end.
* `Stops` — a run cut off after any number of calls.
* `Weaves` — two programs run on one state, their calls interleaved.
* `Runs.bind_iff`, `Runs.keeps` — composition, and what every call keeps.
* `Returns` — a program that ends with a value while its calls answer.
* `exec_runs` — a program whose calls are answered by a function, executed.
-/

namespace Deja

/-- A program: a result, or a call and what to do with its reply. -/
inductive Prog (C : Type) (R : C → Type) (ε α : Type) where
  | ret (x : Except ε α)
  | call (c : C) (k : Except ε (R c) → Prog C R ε α)

namespace Prog

variable {C : Type} {R : C → Type} {ε α β : Type}

/-- Sequence; an error ends the program. -/
def bind (p : Prog C R ε α) (f : α → Prog C R ε β) : Prog C R ε β :=
  match p with
  | .ret (.ok a) => f a
  | .ret (.error e) => .ret (.error e)
  | .call c k => .call c fun r => (k r).bind f

instance : Monad (Prog C R ε) where
  pure a := .ret (.ok a)
  bind := bind

theorem bind_pure (p : Prog C R ε α) : (p >>= fun a => pure a) = p := by
  show p.bind _ = p
  induction p with
  | ret x =>
    cases x with
    | error e => rfl
    | ok a => rfl
  | call c k ih => exact congrArg (Prog.call c) (funext ih)

/-- End with an error. -/
def fail (e : ε) : Prog C R ε α := .ret (.error e)

/-- Make a call; its error ends the program. -/
def ask (c : C) : Prog C R ε (R c) := .call c .ret

/-- Run a program and look at its error. -/
def catching (p : Prog C R ε α) : Prog C R ε (Except ε α) :=
  match p with
  | .ret x => .ret (.ok x)
  | .call c k => .call c fun r => (k r).catching

/-! ## Running -/

variable {σ : Type} (P : (c : C) → σ → Except ε (R c) → σ → Prop)

/-- A run of a program to its end. -/
inductive Runs : {α : Type} → Prog C R ε α → σ → Except ε α → σ → Prop
  | ret {α : Type} (x : Except ε α) (s : σ) : Runs (.ret x) s x s
  | call {α : Type} {c : C} {k : Except ε (R c) → Prog C R ε α} {s s' s'' : σ}
      {r : Except ε (R c)} {x : Except ε α} (h : P c s r s') (hk : Runs (k r) s' x s'') :
      Runs (.call c k) s x s''

/-- A run of a program that may be cut off after any of its calls. -/
inductive Stops : {α : Type} → Prog C R ε α → σ → σ → Prop
  | here {α : Type} (p : Prog C R ε α) (s : σ) : Stops p s s
  | call {α : Type} {c : C} {k : Except ε (R c) → Prog C R ε α} {s s' s'' : σ}
      {r : Except ε (R c)} (h : P c s r s') (hk : Stops (k r) s' s'') :
      Stops (.call c k) s s''

/-- Two programs run to their ends on one state, a call of either at a time; the list
says whose call it was, `true` for the first program, and which. -/
inductive Weaves {α β : Type} : List (Bool × C) → Prog C R ε α → Prog C R ε β → σ → Except ε α →
    Except ε β → σ → Prop
  | ret (x : Except ε α) (y : Except ε β) (s : σ) : Weaves [] (.ret x) (.ret y) s x y s
  | left {t : List (Bool × C)} {c : C} {k : Except ε (R c) → Prog C R ε α} {q : Prog C R ε β}
      {s s' s'' : σ} {r : Except ε (R c)} {x : Except ε α} {y : Except ε β} (h : P c s r s')
      (hk : Weaves t (k r) q s' x y s'') : Weaves ((true, c) :: t) (.call c k) q s x y s''
  | right {t : List (Bool × C)} {c : C} {p : Prog C R ε α} {k : Except ε (R c) → Prog C R ε β}
      {s s' s'' : σ} {r : Except ε (R c)} {x : Except ε α} {y : Except ε β} (h : P c s r s')
      (hk : Weaves t p (k r) s' x y s'') : Weaves ((false, c) :: t) p (.call c k) s x y s''

variable {P}

theorem Runs.ret_iff {x y : Except ε α} {s s' : σ} :
    Runs P (.ret x) s y s' ↔ y = x ∧ s' = s := by
  constructor
  · intro h
    cases h
    exact ⟨rfl, rfl⟩
  · rintro ⟨rfl, rfl⟩
    exact .ret _ _

theorem Runs.pure_iff {a : α} {x : Except ε α} {s s' : σ} :
    Runs P (pure a : Prog C R ε α) s x s' ↔ x = .ok a ∧ s' = s := Runs.ret_iff

theorem Runs.fail_iff {e : ε} {x : Except ε α} {s s' : σ} :
    Runs P (fail e : Prog C R ε α) s x s' ↔ x = .error e ∧ s' = s := Runs.ret_iff

theorem Runs.call_iff {c : C} {k : Except ε (R c) → Prog C R ε α} {x : Except ε α} {s s' : σ} :
    Runs P (.call c k) s x s' ↔ ∃ r s₁, P c s r s₁ ∧ Runs P (k r) s₁ x s' := by
  constructor
  · intro h
    cases h with
    | call h hk => exact ⟨_, _, h, hk⟩
  · rintro ⟨r, s₁, h, hk⟩
    exact .call h hk

theorem Runs.ask_iff {c : C} {x : Except ε (R c)} {s s' : σ} :
    Runs P (ask c) s x s' ↔ P c s x s' := by
  rw [ask, Runs.call_iff]
  constructor
  · rintro ⟨r, s₁, h, hk⟩
    obtain ⟨rfl, rfl⟩ := Runs.ret_iff.1 hk
    exact h
  · intro h
    exact ⟨x, s', h, .ret _ _⟩

/-- A run of a sequence: the first program failed, or the second took over. -/
theorem Runs.bind_iff {p : Prog C R ε α} {f : α → Prog C R ε β} {y : Except ε β} {s s' : σ} :
    Runs P (p >>= f) s y s' ↔
      (∃ e, Runs P p s (.error e) s' ∧ y = .error e) ∨
        ∃ a s₁, Runs P p s (.ok a) s₁ ∧ Runs P (f a) s₁ y s' := by
  show Runs P (p.bind f) s y s' ↔ _
  induction p generalizing s with
  | ret x =>
    cases x with
    | error e =>
      constructor
      · intro h
        obtain ⟨rfl, rfl⟩ := Runs.ret_iff.1 h
        exact .inl ⟨e, .ret _ _, rfl⟩
      · rintro (⟨e', h, rfl⟩ | ⟨a, s₁, h, -⟩)
        · obtain ⟨⟨⟩, rfl⟩ := Runs.ret_iff.1 h
          exact .ret _ _
        · obtain ⟨⟨⟩, -⟩ := Runs.ret_iff.1 h
    | ok a =>
      constructor
      · intro h
        exact .inr ⟨a, s, .ret _ _, h⟩
      · rintro (⟨e', h, rfl⟩ | ⟨b, s₁, h, h'⟩)
        · obtain ⟨⟨⟩, -⟩ := Runs.ret_iff.1 h
        · obtain ⟨⟨⟩, rfl⟩ := Runs.ret_iff.1 h
          exact h'
  | call c k ih =>
    constructor
    · intro h
      obtain ⟨r, s₁, hc, hk⟩ := Runs.call_iff.1 h
      rcases (ih r).1 hk with ⟨e, hp, rfl⟩ | ⟨a, s₂, hp, hf⟩
      · exact .inl ⟨e, .call hc hp, rfl⟩
      · exact .inr ⟨a, s₂, .call hc hp, hf⟩
    · rintro (⟨e, hp, rfl⟩ | ⟨a, s₂, hp, hf⟩)
      · obtain ⟨r, s₁, h, hk⟩ := Runs.call_iff.1 hp
        exact .call h ((ih r).2 (.inl ⟨e, hk, rfl⟩))
      · obtain ⟨r, s₁, h, hk⟩ := Runs.call_iff.1 hp
        exact .call h ((ih r).2 (.inr ⟨a, s₂, hk, hf⟩))

/-- A run of a sequence that returned. -/
theorem Runs.bind_ok {p : Prog C R ε α} {f : α → Prog C R ε β} {b : β} {s s' : σ}
    (h : Runs P (p >>= f) s (.ok b) s') :
    ∃ a s₁, Runs P p s (.ok a) s₁ ∧ Runs P (f a) s₁ (.ok b) s' := by
  rcases Runs.bind_iff.1 h with ⟨e, -, ⟨⟩⟩ | h
  exact h

theorem Runs.bind {p : Prog C R ε α} {f : α → Prog C R ε β} {a : α} {y : Except ε β} {s s₁ s' : σ}
    (hp : Runs P p s (.ok a) s₁) (hf : Runs P (f a) s₁ y s') : Runs P (p >>= f) s y s' :=
  Runs.bind_iff.2 (.inr ⟨a, s₁, hp, hf⟩)

/-! ## What every call keeps -/

/-- The program makes only calls of one kind, and a value it returns is of one
kind. -/
inductive Yields (Q : C → Prop) {α : Type} (post : α → Prop) : Prog C R ε α → Prop
  | ok {a : α} (h : post a) : Yields Q post (.ret (.ok a))
  | error (e : ε) : Yields Q post (.ret (.error e))
  | call {c : C} {k : Except ε (R c) → Prog C R ε α} (hc : Q c)
      (hk : ∀ r, Yields Q post (k r)) : Yields Q post (.call c k)

/-- The program makes only calls of one kind. -/
def Calls (Q : C → Prop) (p : Prog C R ε α) : Prop := Yields Q (fun _ => True) p

variable {Q Q' : C → Prop} {post : α → Prop}

theorem Yields.pure {a : α} (h : post a) : Yields Q post (pure a : Prog C R ε α) := .ok h

theorem Yields.fail (e : ε) : Yields Q post (fail e : Prog C R ε α) := .error e

theorem Yields.ask {c : C} (hc : Q c) : Calls Q (ask c : Prog C R ε (R c)) :=
  .call hc fun r => by
    cases r with
    | ok a => exact .ok trivial
    | error e => exact .error e

theorem Yields.bind {p : Prog C R ε α} {f : α → Prog C R ε β} {post' : β → Prop}
    (hp : Yields Q post p) (hf : ∀ a, post a → Yields Q post' (f a)) :
    Yields Q post' (p >>= f) := by
  show Yields Q post' (p.bind f)
  induction p with
  | ret x =>
    cases hp with
    | ok h => exact hf _ h
    | error e => exact .error e
  | call c k ih =>
    cases hp with
    | call hc hk => exact .call hc fun r => ih r (hk r)

theorem Calls.ret {a : α} : Calls Q (pure a : Prog C R ε α) := .ok trivial

theorem Calls.seq {p : Prog C R ε α} {f : α → Prog C R ε β} (hp : Calls Q p)
    (hf : ∀ a, Calls Q (f a)) : Calls Q (p >>= f) :=
  Yields.bind hp fun a _ => hf a

theorem Yields.weaken {p : Prog C R ε α} {post' : α → Prop} (hp : Yields Q post p)
    (hQ : ∀ c, Q c → Q' c) (h : ∀ a, post a → post' a) : Yields Q' post' p := by
  induction hp with
  | ok ha => exact .ok (h _ ha)
  | error e => exact .error e
  | call hc _ ih => exact .call (hQ _ hc) ih

theorem Calls.weaken {p : Prog C R ε α} (hp : Calls Q p) (hQ : ∀ c, Q c → Q' c) : Calls Q' p :=
  Yields.weaken hp hQ fun _ h => h

theorem Yields.calls {p : Prog C R ε α} (hp : Yields Q post p) : Calls Q p :=
  hp.weaken (fun _ h => h) fun _ _ => trivial

theorem Yields.catching {p : Prog C R ε α} (hp : Yields Q post p) :
    Yields Q (fun x => ∀ a, x = .ok a → post a) p.catching := by
  induction hp with
  | ok ha =>
    refine .ok fun a h => ?_
    cases h
    exact ha
  | error e => exact .ok fun a h => nomatch h
  | call hc _ ih => exact .call hc ih

theorem Runs.yields {p : Prog C R ε α} {a : α} {s s' : σ} (h : Runs P p s (.ok a) s')
    (hp : Yields Q post p) : post a := by
  induction p generalizing s with
  | ret x =>
    obtain ⟨rfl, -⟩ := Runs.ret_iff.1 h
    cases hp with
    | ok ha => exact ha
  | call c k ih =>
    obtain ⟨r, s₁, -, hk⟩ := Runs.call_iff.1 h
    cases hp with
    | call _ hk' => exact ih r hk (hk' r)

/-- An invariant of the calls is one of the run. -/
theorem Runs.keeps {I : σ → Prop} {p : Prog C R ε α} {x : Except ε α} {s s' : σ}
    (h : Runs P p s x s') (hp : Calls Q p)
    (hI : ∀ c s r s', Q c → P c s r s' → I s → I s') (hs : I s) : I s' := by
  induction h with
  | ret x s => exact hs
  | call h _ ih =>
    cases hp with
    | call hc hk => exact ih (hk _) (hI _ _ _ _ hc h hs)

/-- A program whose calls leave the state alone leaves the state alone. -/
theorem Runs.idle {p : Prog C R ε α} {x : Except ε α} {s s' : σ} (h : Runs P p s x s')
    (hp : Calls Q p) (hI : ∀ c s r s', Q c → P c s r s' → s' = s) : s' = s :=
  h.keeps (I := fun t => t = s) hp (fun c t r t' hc ht hts => (hI c t r t' hc ht).trans hts) rfl

/-- A cut off run is one where every later call is missing. -/
theorem Runs.stops {p : Prog C R ε α} {x : Except ε α} {s s' : σ} (h : Runs P p s x s') :
    Stops P p s s' := by
  induction h with
  | ret x s => exact .here _ _
  | call h _ ih => exact .call h ih

/-! ## Two programs -/

section Weaves

variable {t a b : List (Bool × C)} {p : Prog C R ε α} {q : Prog C R ε β} {x : Except ε α}
  {y : Except ε β} {s s' : σ}

theorem Weaves.swap (h : Weaves P t p q s x y s') :
    Weaves P (t.map fun e => (!e.1, e.2)) q p s y x s' := by
  induction h with
  | ret x y s => exact .ret y x s
  | left h _ ih => exact .right h ih
  | right h _ ih => exact .left h ih

/-- All calls are the second program's. -/
theorem Weaves.second (h : Weaves P t p q s x y s') (ht : ∀ e ∈ t, e.1 = false) :
    p = .ret x ∧ Runs P q s y s' := by
  induction h with
  | ret x y s => exact ⟨rfl, .ret y s⟩
  | left h _ _ => cases ht _ (List.mem_cons_self ..)
  | right h _ ih =>
    obtain ⟨hp, hq⟩ := ih fun e he => ht e (List.mem_cons_of_mem _ he)
    exact ⟨hp, .call h hq⟩

/-- The calls of the first program all come first. -/
theorem Weaves.in_turn (h : Weaves P (a ++ b) p q s x y s') (ha : ∀ e ∈ a, e.1 = true)
    (hb : ∀ e ∈ b, e.1 = false) : ∃ s₁, Runs P p s x s₁ ∧ Runs P q s₁ y s' := by
  induction a generalizing p s with
  | nil =>
    obtain ⟨rfl, hq⟩ := h.second hb
    exact ⟨s, .ret x s, hq⟩
  | cons e a ih =>
    cases h with
    | left h hk =>
      obtain ⟨s₁, hp, hq⟩ := ih hk fun e he => ha e (List.mem_cons_of_mem _ he)
      exact ⟨s₁, .call h hp, hq⟩
    | right h hk => cases ha _ (List.mem_cons_self ..)

/-- The calls of the first program leave the state alone. -/
theorem Weaves.idle (h : Weaves P t p q s x y s') {Q : C → Prop}
    (hQ : ∀ c s r s', Q c → P c s r s' → s' = s) (ht : ∀ e ∈ t, e.1 = true → Q e.2) :
    Runs P q s y s' := by
  induction h with
  | ret x y s => exact .ret y s
  | left h _ ih =>
    obtain rfl := hQ _ _ _ _ (ht _ (List.mem_cons_self ..) rfl) h
    exact ih fun e he => ht e (List.mem_cons_of_mem _ he)
  | right h _ ih => exact .call h (ih fun e he => ht e (List.mem_cons_of_mem _ he))

end Weaves

/-! ## Cut off runs as failed ones -/

variable {P' : (c : C) → σ → Except ε (R c) → σ → Prop}

theorem Runs.mono (hP : ∀ c s r s', P c s r s' → P' c s r s') {p : Prog C R ε α} {x : Except ε α}
    {s s' : σ} (h : Runs P p s x s') : Runs P' p s x s' := by
  induction h with
  | ret x s => exact .ret x s
  | call h _ ih => exact .call (hP _ _ _ _ h) ih

/-- Where every call may fail, a program may run without doing anything. -/
theorem exists_idle_run (hfail : ∀ c s, ∃ e, P' c s (.error e) s) (p : Prog C R ε α) (s : σ) :
    ∃ x, Runs P' p s x s := by
  induction p with
  | ret x => exact ⟨x, .ret x s⟩
  | call c k ih =>
    obtain ⟨e, he⟩ := hfail c s
    obtain ⟨x, hx⟩ := ih (.error e)
    exact ⟨x, .call he hx⟩

/-- A cut off run is one whose later calls all fail. -/
theorem Stops.exists_run (hP : ∀ c s r s', P c s r s' → P' c s r s')
    (hfail : ∀ c s, ∃ e, P' c s (.error e) s) {p : Prog C R ε α} {s s' : σ} (h : Stops P p s s') :
    ∃ x, Runs P' p s x s' := by
  induction h with
  | here p s => exact exists_idle_run hfail p s
  | call h _ ih =>
    obtain ⟨x, hx⟩ := ih
    exact ⟨x, .call (hP _ _ _ _ h) hx⟩

/-! ## Executing -/

/-- The run of a program whose calls are answered by a function. -/
def exec (answer : (c : C) → σ → Except ε (R c) × σ) {α : Type} :
    Prog C R ε α → σ → Except ε α × σ
  | .ret x, s => (x, s)
  | .call c k, s => (k (answer c s).1).exec answer (answer c s).2

theorem exec_runs {answer : (c : C) → σ → Except ε (R c) × σ}
    (h : ∀ c s, P c s (answer c s).1 (answer c s).2) (p : Prog C R ε α) (s : σ) :
    Runs P p s (p.exec answer s).1 (p.exec answer s).2 := by
  induction p generalizing s with
  | ret x => exact .ret x s
  | call c k ih => exact .call (h c s) (ih _ _)

/-- Two programs whose calls are answered by a function, interleaved by a schedule. -/
def weave (answer : (c : C) → σ → Except ε (R c) × σ) {α β : Type} :
    List Bool → Prog C R ε α → Prog C R ε β → σ → Option (Except ε α × Except ε β × σ)
  | [], .ret x, .ret y, s => some (x, y, s)
  | true :: w, .call c k, q, s => weave answer w (k (answer c s).1) q (answer c s).2
  | false :: w, p, .call c k, s => weave answer w p (k (answer c s).1) (answer c s).2
  | _, _, _, _ => none

theorem weave_weaves {answer : (c : C) → σ → Except ε (R c) × σ}
    (h : ∀ c s, P c s (answer c s).1 (answer c s).2) {w : List Bool} {p : Prog C R ε α}
    {q : Prog C R ε β} {s s' : σ} {x : Except ε α} {y : Except ε β}
    (hw : weave answer w p q s = some (x, y, s')) :
    ∃ t, t.map Prod.fst = w ∧ Weaves P t p q s x y s' := by
  induction w generalizing p q s with
  | nil =>
    cases p with
    | call c k => simp [weave] at hw
    | ret x' =>
      cases q with
      | call c k => simp [weave] at hw
      | ret y' =>
        simp only [weave, Option.some.injEq, Prod.mk.injEq] at hw
        obtain ⟨rfl, rfl, rfl⟩ := hw
        exact ⟨[], rfl, .ret _ _ _⟩
  | cons b w ih =>
    cases b with
    | true =>
      cases p with
      | ret x' => simp [weave] at hw
      | call c k =>
        obtain ⟨t, htags, ht⟩ := ih (show weave answer w _ q _ = _ from hw)
        exact ⟨(true, c) :: t, congrArg (List.cons true) htags, .left (h c s) ht⟩
    | false =>
      cases q with
      | ret y' => cases p <;> simp [weave] at hw
      | call c k =>
        have hw' : weave answer w p (k (answer c s).1) (answer c s).2 = some (x, y, s') := by
          cases p <;> exact hw
        obtain ⟨t, htags, ht⟩ := ih hw'
        exact ⟨(false, c) :: t, congrArg (List.cons false) htags, .right (h c s) ht⟩

/-! ## Programs whose calls answer -/

section Returns

variable (P)

/-- The calls that answer with a value. -/
def Answers (c : C) (s : σ) (r : Except ε (R c)) (s' : σ) : Prop := P c s r s' ∧ ∃ a, r = .ok a

/-- While its calls answer, the program returns a value from the state. -/
def Returns (p : Prog C R ε α) (s : σ) : Prop :=
  ∀ x s', Runs (Answers P) p s x s' → ∃ a, x = .ok a

variable {P}

theorem Returns.pure {a : α} {s : σ} : Returns P (pure a : Prog C R ε α) s := by
  intro x s' h
  obtain ⟨rfl, -⟩ := Runs.pure_iff.1 h
  exact ⟨a, rfl⟩

theorem Returns.ask {c : C} {s : σ} : Returns P (ask c : Prog C R ε (R c)) s :=
  fun _ _ h => (Runs.ask_iff.1 h).2

theorem Returns.bind {p : Prog C R ε α} {f : α → Prog C R ε β} {s : σ} (hp : Returns P p s)
    (hf : ∀ a s₁, Runs P p s (.ok a) s₁ → Returns P (f a) s₁) : Returns P (p >>= f) s := by
  intro y s' h
  rcases Runs.bind_iff.1 h with ⟨e, hfail, -⟩ | ⟨a, s₁, hfirst, hrest⟩
  · obtain ⟨a, ⟨⟩⟩ := hp _ _ hfail
  · exact hf a s₁ (hfirst.mono fun _ _ _ _ hc => hc.1) _ _ hrest

end Returns

end Prog

end Deja
