import Mathlib.Tactic

/-!
# Programs with state and errors

Rules for `EStateM`: what a run leaves behind, whichever way it ends.

* `Run.after` — the state after a run, returned or failed.
* `Run.Leads R x` — every run of `x` moves the state along `R`.  With `R`
  reflexive and transitive the rule is closed under `pure`, `>>=` and `mapM`.
* `Run.bind_eq_ok` and its companions — inversion: a sequence that returned has
  returned step by step.
* `except_bind_ok`, `except_map_ok` — the same for a fallible function.
-/

namespace Run

variable {ε σ α β : Type}

/-! ## The state after a run -/

/-- The state a run ends in, whether it returned or failed. -/
def after (x : EStateM ε σ α) (s : σ) : σ :=
  match x s with
  | .ok _ s' => s'
  | .error _ s' => s'

theorem after_of_ok {x : EStateM ε σ α} {s s' : σ} {a : α} (h : x s = .ok a s') :
    after x s = s' := by
  simp [after, h]

theorem after_of_error {x : EStateM ε σ α} {s s' : σ} {e : ε} (h : x s = .error e s') :
    after x s = s' := by
  simp [after, h]

/-! ## Inversion -/

theorem pure_apply (a : α) (s : σ) : (pure a : EStateM ε σ α) s = .ok a s := rfl

@[simp] theorem pure_eq_ok {a b : α} {s s' : σ} :
    (pure a : EStateM ε σ α) s = .ok b s' ↔ a = b ∧ s = s' := by
  rw [pure_apply]
  exact EStateM.Result.ok.injEq a s b s' ▸ Iff.rfl

theorem bind_apply (x : EStateM ε σ α) (f : α → EStateM ε σ β) (s : σ) :
    (x >>= f) s = match x s with
      | .ok a s' => f a s'
      | .error e s' => .error e s' := rfl

/-- A sequence that returned: the first program returned, and the second did
from there. -/
theorem bind_eq_ok {x : EStateM ε σ α} {f : α → EStateM ε σ β} {s s' : σ} {b : β} :
    (x >>= f) s = .ok b s' ↔ ∃ a s₁, x s = .ok a s₁ ∧ f a s₁ = .ok b s' := by
  rw [bind_apply]
  cases h : x s with
  | ok a s₁ => simp
  | error e s₁ => simp

/-- A sequence that failed: the first program failed, or it returned and the
second failed. -/
theorem bind_eq_error {x : EStateM ε σ α} {f : α → EStateM ε σ β} {s s' : σ} {e : ε} :
    (x >>= f) s = .error e s' ↔
      x s = .error e s' ∨ ∃ a s₁, x s = .ok a s₁ ∧ f a s₁ = .error e s' := by
  rw [bind_apply]
  cases h : x s with
  | ok a s₁ => simp
  | error e s₁ => simp

@[simp] theorem throw_apply (e : ε) (s : σ) :
    (throw e : EStateM ε σ α) s = .error e s := rfl

@[simp] theorem get_apply (s : σ) : (get : EStateM ε σ σ) s = .ok s s := rfl

@[simp] theorem set_apply (s t : σ) : (set t : EStateM ε σ PUnit) s = .ok ⟨⟩ t := rfl

@[simp] theorem modify_apply (f : σ → σ) (s : σ) :
    (modify f : EStateM ε σ PUnit) s = .ok ⟨⟩ (f s) := rfl

/-! ## Moving along a relation -/

/-- Every run of `x` moves the state along `R`. -/
def Leads (R : σ → σ → Prop) (x : EStateM ε σ α) : Prop := ∀ s, R s (after x s)

section Leads

variable {R : σ → σ → Prop}

theorem Leads.of_ok {x : EStateM ε σ α} (h : Leads R x) {s s' : σ} {a : α}
    (hx : x s = .ok a s') : R s s' := by
  have := h s
  rwa [after_of_ok hx] at this

theorem Leads.of_error {x : EStateM ε σ α} (h : Leads R x) {s s' : σ} {e : ε}
    (hx : x s = .error e s') : R s s' := by
  have := h s
  rwa [after_of_error hx] at this

theorem leads_pure [Std.Refl R] (a : α) : Leads R (pure a : EStateM ε σ α) :=
  fun s => refl_of R s

theorem leads_throw [Std.Refl R] (e : ε) : Leads R (throw e : EStateM ε σ α) :=
  fun s => refl_of R s

theorem leads_get [Std.Refl R] : Leads R (get : EStateM ε σ σ) := fun s => refl_of R s

theorem leads_bind [IsTrans σ R] {x : EStateM ε σ α} {f : α → EStateM ε σ β}
    (hx : Leads R x) (hf : ∀ a, Leads R (f a)) : Leads R (x >>= f) := by
  intro s
  have h := hx s
  unfold after at h ⊢
  rw [bind_apply]
  cases hs : x s with
  | ok a s₁ =>
    rw [hs] at h
    exact trans_of R h (hf a s₁)
  | error e s₁ =>
    rw [hs] at h
    exact h

theorem leads_mapM [Std.Refl R] [IsTrans σ R] {f : α → EStateM ε σ β} (hf : ∀ a, Leads R (f a))
    (l : List α) : Leads R (l.mapM f) := by
  induction l with
  | nil => exact leads_pure []
  | cons a l ih =>
    rw [List.mapM_cons]
    exact leads_bind (hf a) fun b => leads_bind ih fun bs => leads_pure (b :: bs)

/-- A mapped program that returned: every element has its value, and what holds
of the pair when it is produced still holds at the end, if `R` keeps it. -/
theorem forall₂_of_mapM [Std.Refl R] [IsTrans σ R] {f : α → EStateM ε σ β} {P : σ → Prop}
    {Q : α → β → σ → Prop} (hf : ∀ a, Leads R (f a)) (hP : ∀ s s', R s s' → P s → P s')
    (hQ : ∀ a b s s', R s s' → Q a b s → Q a b s')
    (hok : ∀ a b s s', P s → f a s = .ok b s' → Q a b s') {l : List α} {bs : List β} {s s' : σ}
    (hs : P s) (h : l.mapM f s = .ok bs s') : List.Forall₂ (fun a b => Q a b s') l bs := by
  induction l generalizing s bs with
  | nil =>
    rw [List.mapM_nil] at h
    obtain ⟨rfl, -⟩ := pure_eq_ok.1 h
    exact .nil
  | cons a l ih =>
    rw [List.mapM_cons] at h
    obtain ⟨b, s₁, ha, h⟩ := bind_eq_ok.1 h
    obtain ⟨bs', s₂, hl, h⟩ := bind_eq_ok.1 h
    obtain ⟨rfl, rfl⟩ := pure_eq_ok.1 h
    have hs₁ : P s₁ := hP _ _ ((hf a).of_ok ha) hs
    exact .cons (hQ _ _ _ _ ((leads_mapM hf l).of_ok hl) (hok _ _ _ _ hs ha)) (ih hs₁ hl)

/-- A mapped program that always returns, returns. -/
theorem mapM_total {f : α → EStateM ε σ β} (hf : ∀ a s, ∃ b s', f a s = .ok b s') (l : List α)
    (s : σ) : ∃ bs s', l.mapM f s = .ok bs s' := by
  induction l generalizing s with
  | nil => exact ⟨[], s, rfl⟩
  | cons a l ih =>
    obtain ⟨b, s₁, hb⟩ := hf a s
    obtain ⟨bs, s₂, hbs⟩ := ih s₁
    rw [List.mapM_cons]
    exact ⟨_, s₂, bind_eq_ok.2 ⟨b, s₁, hb, bind_eq_ok.2 ⟨bs, s₂, hbs, rfl⟩⟩⟩

/-- A fallible map over elements that all succeed. -/
theorem except_mapM_total {f : α → Except ε β} {l : List α} (h : ∀ a ∈ l, ∃ b, f a = .ok b) :
    ∃ bs, l.mapM f = .ok bs := by
  induction l with
  | nil => exact ⟨[], rfl⟩
  | cons a l ih =>
    rw [List.forall_mem_cons] at h
    obtain ⟨b, hb⟩ := h.1
    obtain ⟨bs, hbs⟩ := ih h.2
    rw [List.mapM_cons, hb, hbs]
    exact ⟨_, rfl⟩

theorem leads_forM [Std.Refl R] [IsTrans σ R] {f : α → EStateM ε σ PUnit}
    (hf : ∀ a, Leads R (f a)) (l : List α) : Leads R (l.forM f) := by
  induction l with
  | nil => exact leads_pure PUnit.unit
  | cons a l ih =>
    exact leads_bind (hf a) fun _ => ih

end Leads

end Run

namespace Deja

/-- Every element of the second of two related lists has one it is related to. -/
theorem forall₂_exists_left {α β : Type} {R : α → β → Prop} {l : List α} {m : List β}
    (h : List.Forall₂ R l m) : ∀ y ∈ m, ∃ x ∈ l, R x y := by
  induction h with
  | nil => exact fun y hy => nomatch hy
  | @cons x y l m hxy _ ih =>
    intro z hz
    rcases List.mem_cons.1 hz with rfl | hz
    · exact ⟨x, List.mem_cons_self, hxy⟩
    · obtain ⟨x', hx', hR⟩ := ih z hz
      exact ⟨x', List.mem_cons_of_mem _ hx', hR⟩

/-- Every element of the first of two related lists has one it is related to. -/
theorem forall₂_exists_right {α β : Type} {R : α → β → Prop} {l : List α} {m : List β}
    (h : List.Forall₂ R l m) : ∀ x ∈ l, ∃ y ∈ m, R x y := by
  intro x hx
  obtain ⟨y, hy, hR⟩ := forall₂_exists_left h.flip x hx
  exact ⟨y, hy, hR⟩

/-- A list related to another by a function is its image. -/
theorem eq_map_of_forall₂ {α β : Type} {f : α → β} {l : List α} {m : List β}
    (h : List.Forall₂ (fun x y => y = f x) l m) : m = l.map f := by
  induction h with
  | nil => rfl
  | cons hxy _ ih => rw [List.map_cons, hxy, ih]

end Deja

/-! ## Fallible functions -/

/-- A sequence of fallible steps that answered `.ok` answered `.ok` step by
step. -/
theorem except_bind_ok {ε α β : Type} {x : Except ε α} {f : α → Except ε β} {b : β}
    (h : (x >>= f) = .ok b) : ∃ a, x = .ok a ∧ f a = .ok b := by
  cases x with
  | error e => cases h
  | ok a => exact ⟨a, rfl, h⟩

theorem except_map_ok {ε α β : Type} {x : Except ε α} {f : α → β} {b : β}
    (h : x.map f = .ok b) : ∃ a, x = .ok a ∧ f a = b := by
  cases x with
  | error e => cases h
  | ok a => exact ⟨a, rfl, Except.ok.inj h⟩
