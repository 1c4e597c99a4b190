import Mathlib.Data.String.Basic
import Mathlib.Data.Prod.Lex
import Deja.Core.Number

/-!
# The order of ORDER BY

Values are compared by kind as far as both are of one kind, and by their JSON
texts otherwise.  The texts of different kinds differ in their first character,
so the comparison is that of one key in a linear order
(`compareJsonValues_eq`): a total preorder, absent values first.
-/

namespace Deja.Pipeline

/-- `Value::to_string`, as far as the comparison relies on it: the first
character of a text tells the kind of the value. -/
structure Display where
  text : Json → String
  null : text .null = "null"
  true : text (.bool true) = "true"
  false : text (.bool false) = "false"
  str : ∀ s, (text (.str s)).toList.head? = some '"'
  arr : ∀ xs, (text (.arr xs)).toList.head? = some '['
  obj : ∀ fs, (text (.obj fs)).toList.head? = some (Char.ofNat 0x7b)
  /-- a sign or a digit -/
  int : ∀ i, ∃ c, (text (.int i)).toList.head? = some c ∧ '-' ≤ c ∧ c ≤ '9'
  float : ∀ b, ∃ c, (text (.float b)).toList.head? = some c ∧ '-' ≤ c ∧ c ≤ '9'

variable (D : Display)

/-- `compare_json_values`. -/
def compareJsonValues : Option Json → Option Json → Ordering
  | none, none => .eq
  | none, some _ => .lt
  | some _, none => .gt
  | some va, some vb =>
    match va.asF64, vb.asF64 with
    | some fa, some fb => compare fa fb
    | _, _ =>
      match va.asStr, vb.asStr with
      | some sa, some sb => compare sa sb
      | _, _ =>
        match va.asBool, vb.asBool with
        | some ba, some bb => compare ba bb
        -- by their texts
        | _, _ => compare (D.text va) (D.text vb)

/-! ## The key -/

/-- The place of a kind of value among the kinds, in the order of the first
characters. -/
def kind : Json → ℕ
  | .str _ => 0
  | .int _ | .float _ => 1
  | .arr _ => 2
  | .bool false => 3
  | .null => 4
  | .bool true => 5
  | .obj _ => 6

/-- What values of one kind are compared by. -/
abbrev Key := ℕ ×ₗ ℚ ×ₗ String

/-- The key of a value. -/
def valueKey (v : Json) : Key :=
  match v with
  | .str s => toLex (0, toLex (0, s))
  | .int i => toLex (1, toLex (roundInt i, ""))
  | .float b => toLex (1, toLex (f64Value b, ""))
  | .arr xs => toLex (2, toLex (0, D.text (.arr xs)))
  | .bool false => toLex (3, toLex (0, ""))
  | .null => toLex (4, toLex (0, ""))
  | .bool true => toLex (5, toLex (0, ""))
  | .obj fs => toLex (6, toLex (0, D.text (.obj fs)))

/-- The key of a field, which may be absent. -/
def fieldKey : Option Json → WithBot Key
  | none => ⊥
  | some v => valueKey D v

/-- The least and the greatest first character of a kind. -/
def headLow : ℕ → ℕ
  | 0 => 0x22 | 1 => 0x2d | 2 => 0x5b | 3 => 0x66 | 4 => 0x6e | 5 => 0x74 | _ => 0x7b

/-- The greatest first character of a kind. -/
def headHigh : ℕ → ℕ
  | 0 => 0x22 | 1 => 0x39 | 2 => 0x5b | 3 => 0x66 | 4 => 0x6e | 5 => 0x74 | _ => 0x7b

theorem head_bounds (v : Json) : ∃ c, (D.text v).toList.head? = some c ∧
    headLow (kind v) ≤ c.toNat ∧ c.toNat ≤ headHigh (kind v) := by
  have number : ∀ {c : Char}, '-' ≤ c ∧ c ≤ '9' → 0x2d ≤ c.toNat ∧ c.toNat ≤ 0x39 := fun h => h
  cases v with
  | null => exact ⟨'n', by rw [D.null]; decide, by decide⟩
  | bool b =>
    cases b with
    | false => exact ⟨'f', by rw [D.false]; decide, by decide⟩
    | true => exact ⟨'t', by rw [D.true]; decide, by decide⟩
  | int i =>
    obtain ⟨c, hc, hbounds⟩ := D.int i
    exact ⟨c, hc, number hbounds⟩
  | float b =>
    obtain ⟨c, hc, hbounds⟩ := D.float b
    exact ⟨c, hc, number hbounds⟩
  | str s => exact ⟨_, D.str s, le_rfl, le_rfl⟩
  | arr xs => exact ⟨_, D.arr xs, le_rfl, le_rfl⟩
  | obj fs => exact ⟨_, D.obj fs, le_rfl, le_rfl⟩

theorem kind_le (v : Json) : kind v ≤ 6 := by
  cases v with
  | bool b => cases b <;> decide
  | null | int | float | str | arr | obj => simp [kind]

/-- Texts of different kinds stand in the order of the kinds. -/
theorem text_lt {a b : Json} (h : kind a < kind b) : D.text a < D.text b := by
  obtain ⟨c, hc, -, hhigh⟩ := head_bounds D a
  obtain ⟨d, hd, hlow, -⟩ := head_bounds D b
  have hgap : headHigh (kind a) < headLow (kind b) := by
    have hb := kind_le b
    generalize kind a = i at h
    generalize kind b = j at h hb
    interval_cases j <;> interval_cases i <;> decide
  have hlt : c < d := by
    have hnat : c.toNat < d.toNat := by omega
    exact hnat
  rw [String.lt_iff_toList_lt]
  cases ha : (D.text a).toList with
  | nil => simp [ha] at hc
  | cons x xs =>
    cases hb : (D.text b).toList with
    | nil => simp [hb] at hd
    | cons y ys =>
      simp only [ha, List.head?_cons, Option.some.injEq] at hc
      simp only [hb, List.head?_cons, Option.some.injEq] at hd
      subst hc hd
      exact List.Lex.rel hlt

/-! ## The comparison is that of the keys -/

theorem fst_valueKey (v : Json) : (ofLex (valueKey D v)).1 = kind v := by
  cases v with
  | bool b => cases b <;> rfl
  | null | int | float | str | arr | obj => rfl

theorem valueKey_lt {a b : Json} (h : kind a < kind b) : valueKey D a < valueKey D b := by
  refine Prod.Lex.lt_iff.2 (.inl ?_)
  rw [fst_valueKey, fst_valueKey]
  exact h

/-- Values of different kinds, compared by their texts or as booleans. -/
theorem compare_of_kind_lt {a b : Json} (h : kind a < kind b) :
    compareJsonValues D (some a) (some b) = .lt ∧ compareJsonValues D (some b) (some a) = .gt := by
  have hlt := compare_lt_iff_lt.2 (text_lt D h)
  have hgt := compare_gt_iff_gt.2 (text_lt D h)
  cases a <;> cases b <;>
    first
    | exact absurd h (lt_irrefl _)
    | exact ⟨hlt, hgt⟩
    | skip
  case bool.bool a b =>
    cases a <;> cases b <;> first | exact absurd h (by decide) | exact ⟨rfl, rfl⟩

/-- A comparison stays what it is under a strictly monotone map. -/
theorem compares_map {α β : Type} [LinearOrder α] [LinearOrder β] {f : α → β} (hf : StrictMono f)
    {o : Ordering} {a b : α} (h : o.Compares a b) : o.Compares (f a) (f b) := by
  cases o with
  | lt => exact hf h
  | eq => exact congrArg f h
  | gt => exact hf h

theorem strictMono_text (n : ℕ) :
    StrictMono fun s : String => (toLex (n, toLex ((0 : ℚ), s)) : Key) := by
  intro s t hst
  exact Prod.Lex.lt_iff.2 (.inr ⟨rfl, Prod.Lex.lt_iff.2 (.inr ⟨rfl, hst⟩)⟩)

theorem strictMono_number (n : ℕ) :
    StrictMono fun q : ℚ => (toLex (n, toLex (q, "")) : Key) := by
  intro q r hqr
  exact Prod.Lex.lt_iff.2 (.inr ⟨rfl, Prod.Lex.lt_iff.2 (.inl hqr)⟩)

/-- Values of one kind, compared as that kind is. -/
theorem compares_of_kind_eq {a b : Json} (h : kind a = kind b) :
    (compareJsonValues D (some a) (some b)).Compares (valueKey D a) (valueKey D b) := by
  have number : ∀ q r : ℚ, (compare q r).Compares (toLex (1, toLex (q, "")) : Key)
      (toLex (1, toLex (r, ""))) := fun q r =>
    compares_map (strictMono_number 1) ((compare_iff q r).1 rfl)
  have text : ∀ (n : ℕ) (s t : String), (compare s t).Compares
      (toLex (n, toLex ((0 : ℚ), s)) : Key) (toLex (n, toLex ((0 : ℚ), t))) := fun n s t =>
    compares_map (strictMono_text n) ((compare_iff s t).1 rfl)
  have unlike : ∀ (b : Bool) (v : Json), kind v ≠ 3 → kind v ≠ 5 → kind (.bool b) ≠ kind v := by
    intro b v hfalse htrue heq
    cases b with
    | false => exact hfalse heq.symm
    | true => exact htrue heq.symm
  have bools : ∀ a b : Bool, kind (.bool a) = kind (.bool b) →
      (compareJsonValues D (some (.bool a)) (some (.bool b))).Compares (valueKey D (.bool a))
        (valueKey D (.bool b)) := by
    intro a b h
    cases a <;> cases b <;> first | exact absurd h (by decide) | rfl
  cases a <;> cases b <;>
    first
    | exact bools _ _ h
    -- unlike kinds first: the comparisons are slow to fail
    | (exfalso; simp [kind] at h; done)
    | exact absurd h (unlike _ _ (by simp [kind]) (by simp [kind]))
    | exact absurd h.symm (unlike _ _ (by simp [kind]) (by simp [kind]))
    | exact number _ _
    | exact text 0 _ _
    | exact text 2 _ _
    | exact text 6 _ _
    | skip
  case null.null =>
    have hself : compareJsonValues D (some .null) (some .null) = .eq := compare_eq_iff_eq.2 rfl
    rw [hself]
    rfl

/-- **The comparison of two fields is that of their keys.** -/
theorem compareJsonValues_eq (a b : Option Json) :
    (compareJsonValues D a b).Compares (fieldKey D a) (fieldKey D b) := by
  cases a with
  | none =>
    cases b with
    | none => rfl
    | some vb => exact WithBot.bot_lt_coe _
  | some va =>
    cases b with
    | none => exact WithBot.bot_lt_coe _
    | some vb =>
      rcases lt_trichotomy (kind va) (kind vb) with hlt | heq | hgt
      · rw [(compare_of_kind_lt D hlt).1]
        exact WithBot.coe_lt_coe.2 (valueKey_lt D hlt)
      · have hkeys : (compareJsonValues D (some va) (some vb)).Compares
            (valueKey D va : WithBot Key) (valueKey D vb) :=
          compares_map WithBot.coe_strictMono (compares_of_kind_eq D heq)
        exact hkeys
      · rw [(compare_of_kind_lt D hgt).2]
        exact WithBot.coe_lt_coe.2 (valueKey_lt D hgt)

end Deja.Pipeline
