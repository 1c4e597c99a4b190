import Mathlib.Data.List.Infix
import Mathlib.Tactic

/-!
# The `LIKE` operator with an escape character

Patterns of `LIKE … ESCAPE '\'` over lists of characters.  `fold` is the case
folding of the engine: the identity, or the lower case of ASCII.

* `Like.escape` — a text as a pattern for itself.
* `Like.matches_containing` — `%text%` matches what contains the text up to `fold`.
-/

namespace Like

variable (fold : Char → Char)

/-- Whether a pattern matches a text. -/
def matchesPattern : List Char → List Char → Bool
  | [], t => t.isEmpty
  | '%' :: p, t => t.tails.any (matchesPattern p)
  | '_' :: p, t =>
    match t with
    | [] => false
    | _ :: t => matchesPattern p t
  | '\\' :: c :: p, t =>
    match t with
    | [] => false
    | d :: t => fold c = fold d && matchesPattern p t
  | c :: p, t =>
    match t with
    | [] => false
    | d :: t => fold c = fold d && matchesPattern p t

/-- The characters a pattern spells one by one are escaped. -/
def escapeChar (c : Char) : List Char :=
  if c = '\\' ∨ c = '%' ∨ c = '_' then ['\\', c] else [c]

/-- A text as a pattern for itself. -/
def escape (s : List Char) : List Char := s.flatMap escapeChar

/-- The pattern of a text anywhere. -/
def containing (s : List Char) : List Char := '%' :: (escape s ++ ['%'])

theorem matches_escapeChar (c : Char) (p t : List Char) :
    matchesPattern fold (escapeChar c ++ p) t = true ↔
      ∃ d u, t = d :: u ∧ fold c = fold d ∧ matchesPattern fold p u = true := by
  unfold escapeChar
  by_cases hspecial : c = '\\' ∨ c = '%' ∨ c = '_'
  · rw [if_pos hspecial]
    cases t with
    | nil => simp [matchesPattern]
    | cons d u => simp [matchesPattern]
  · rw [if_neg hspecial]
    rw [not_or, not_or] at hspecial
    cases t with
    | nil => simp [matchesPattern, hspecial]
    | cons d u => simp [matchesPattern, hspecial]

theorem matches_escape (s p t : List Char) :
    matchesPattern fold (escape s ++ p) t = true ↔
      ∃ u v, t = u ++ v ∧ u.map fold = s.map fold ∧ matchesPattern fold p v = true := by
  induction s generalizing t with
  | nil =>
    constructor
    · intro h
      exact ⟨[], t, rfl, rfl, h⟩
    · rintro ⟨u, v, rfl, hu, hv⟩
      obtain rfl := List.map_eq_nil_iff.1 hu
      exact hv
  | cons c s ih =>
    have hcons : escape (c :: s) ++ p = escapeChar c ++ (escape s ++ p) := by
      simp [escape]
    rw [hcons, matches_escapeChar]
    constructor
    · rintro ⟨d, w, rfl, hd, hw⟩
      obtain ⟨u, v, rfl, hu, hv⟩ := (ih w).1 hw
      exact ⟨d :: u, v, rfl, by rw [List.map_cons, List.map_cons, hu, hd], hv⟩
    · rintro ⟨u, v, rfl, hu, hv⟩
      obtain ⟨d, u, rfl, hd, hu⟩ := List.map_eq_cons_iff.1 hu
      exact ⟨d, u ++ v, rfl, hd.symm, (ih (u ++ v)).2 ⟨u, v, rfl, hu, hv⟩⟩

/-- **`%text%` matches what contains the text**, up to the folding. -/
theorem matches_containing (s t : List Char) :
    matchesPattern fold (containing s) t = true ↔ s.map fold <:+: t.map fold := by
  have hall : ∀ v, matchesPattern fold ['%'] v = true := by
    intro v
    have hnil : [] ∈ v.tails := (List.mem_tails _ _).2 (List.nil_suffix)
    exact List.any_eq_true.2 ⟨[], hnil, rfl⟩
  unfold containing
  rw [matchesPattern, List.any_eq_true]
  constructor
  · rintro ⟨w, hw, hmatch⟩
    obtain ⟨a, rfl⟩ := (List.mem_tails _ _).1 hw
    obtain ⟨u, v, rfl, hu, -⟩ := (matches_escape fold s ['%'] w).1 hmatch
    exact ⟨a.map fold, v.map fold, by simp [hu]⟩
  · rintro ⟨a, b, hab⟩
    obtain ⟨w, v, rfl, hw, rfl⟩ := List.map_eq_append_iff.1 hab.symm
    obtain ⟨x, u, rfl, rfl, hu⟩ := List.map_eq_append_iff.1 hw
    refine ⟨u ++ v, (List.mem_tails _ _).2 ⟨x, by simp⟩, ?_⟩
    exact (matches_escape fold s ['%'] (u ++ v)).2 ⟨u, v, rfl, hu, hall v⟩

/-- What contains the text is matched, whatever the folding. -/
theorem matches_of_infix {s t : List Char} (h : s <:+: t) :
    matchesPattern fold (containing s) t = true :=
  (matches_containing fold s t).2 (h.map fold)

/-- A longer text is matched less often. -/
theorem matches_mono {s s' t : List Char} (h : s <:+: s')
    (hmatch : matchesPattern fold (containing s') t = true) :
    matchesPattern fold (containing s) t = true :=
  (matches_containing fold s t).2
    ((h.map fold).trans ((matches_containing fold s' t).1 hmatch))

end Like
