import Mathlib.Data.List.Basic

/-!
# Delimited text

Rows of cells: a cell is written as some text, a separator stands between two cells and a
line feed ends a row.  A reader of cells makes a reader of rows, and the rows are read
back exactly when each cell is.
-/

namespace Deja

namespace Delimited

variable {α : Type} (dec : List Char → Option (α × List Char)) (sep : Char)

/-- Write a row of cells, each a value and the text it is written as. -/
def writeRow : List (α × List Char) → List Char
  | [] => ['\n']
  | [c] => c.2 ++ ['\n']
  | c :: cs => c.2 ++ sep :: writeRow cs

/-- Write rows. -/
def write (rows : List (List (α × List Char))) : List Char := rows.flatMap (writeRow sep)

/-- The values of a row. -/
def values (row : List (α × List Char)) : List α := row.map Prod.fst

/-- Read a row of at most so many cells, and what is left. -/
def readRow : ℕ → List Char → Option (List α × List Char)
  | 0, _ => none
  | n + 1, text =>
    match dec text with
    | none => none
    | some (_, []) => none
    | some (v, d :: rest) =>
      if d = '\n' then some ([v], rest)
      else if d = sep then (readRow n rest).map fun r => (v :: r.1, r.2)
      else none

/-- Read at most so many rows. -/
def readRows (width : ℕ) : ℕ → List Char → Option (List (List α))
  | _, [] => some []
  | 0, _ :: _ => none
  | n + 1, text =>
    match readRow dec sep width text with
    | none => none
    | some (row, rest) => (readRows width n rest).map fun rows => row :: rows

/-- Read a text: its length bounds its rows and their cells. -/
def read (text : List Char) : Option (List (List α)) :=
  readRows dec sep text.length text.length text

/-- A cell whose text reads as its value, whatever follows its end. -/
def ReadsCell (c : α × List Char) : Prop :=
  ∀ d, d = sep ∨ d = '\n' → ∀ rest, dec (c.2 ++ d :: rest) = some (c.1, d :: rest)

/-- A cell whose text never reads as its value. -/
def MisreadsCell (c : α × List Char) : Prop :=
  ∀ d, d = sep ∨ d = '\n' → ∀ rest v rest', dec (c.2 ++ d :: rest) = some (v, rest') → v ≠ c.1

variable {dec sep} {row : List (α × List Char)} {rows : List (List (α × List Char))}

theorem ReadsCell.not_misreads {c : α × List Char} (h : ReadsCell dec sep c) :
    ¬ MisreadsCell dec sep c :=
  fun hmis => hmis '\n' (.inr rfl) [] _ _ (h '\n' (.inr rfl) []) rfl

variable (sep) in
/-- The character after the first cell of a row. -/
theorem writeRow_cons (c : α × List Char) (cs : List (α × List Char)) (rest : List Char) :
    ∃ d tail, (d = sep ∨ d = '\n') ∧ writeRow sep (c :: cs) ++ rest = c.2 ++ d :: tail ∧
      (cs = [] ∧ d = '\n' ∧ tail = rest ∨
        cs ≠ [] ∧ d = sep ∧ tail = writeRow sep cs ++ rest) := by
  cases cs with
  | nil => exact ⟨'\n', rest, .inr rfl, by simp [writeRow], .inl ⟨rfl, rfl, rfl⟩⟩
  | cons c' cs =>
    exact ⟨sep, writeRow sep (c' :: cs) ++ rest, .inl rfl, by simp [writeRow],
      .inr ⟨List.cons_ne_nil _ _, rfl, rfl⟩⟩

theorem length_le_writeRow : row.length ≤ (writeRow sep row).length := by
  induction row with
  | nil => exact Nat.zero_le _
  | cons c cs ih =>
    obtain ⟨d, tail, -, heq, ⟨rfl, rfl, rfl⟩ | ⟨-, rfl, rfl⟩⟩ := writeRow_cons sep c cs []
    all_goals
      rw [List.append_nil] at heq
      rw [heq]
      simp only [List.length_append, List.length_cons, List.append_nil] at ih ⊢
      omega

theorem writeRow_ne_nil : writeRow sep row ≠ [] := by
  cases row with
  | nil => simp [writeRow]
  | cons c cs =>
    obtain ⟨d, tail, -, heq, -⟩ := writeRow_cons sep c cs []
    rw [List.append_nil] at heq
    rw [heq]
    simp

/-- A row of cells that read is read. -/
theorem readRow_writeRow (hsep : sep ≠ '\n') (hne : row ≠ []) (h : ∀ c ∈ row, ReadsCell dec sep c)
    {n : ℕ} (hn : row.length ≤ n) (rest : List Char) :
    readRow dec sep n (writeRow sep row ++ rest) = some (values row, rest) := by
  induction row generalizing n with
  | nil => exact absurd rfl hne
  | cons c cs ih =>
    obtain ⟨m, rfl⟩ : ∃ m, n = m + 1 := ⟨n - 1, by simp at hn; omega⟩
    rw [List.forall_mem_cons] at h
    obtain ⟨d, tail, hd, heq, hend⟩ := writeRow_cons sep c cs rest
    rw [heq, readRow, h.1 d hd tail]
    rcases hend with ⟨rfl, rfl, rfl⟩ | ⟨hcs, rfl, rfl⟩
    · simp [values]
    · simp only [if_neg hsep, if_true]
      rw [ih hcs h.2 (by simp at hn; omega)]
      rfl

/-- A row with a cell that is misread is not read as it is. -/
theorem readRow_misread (hsep : sep ≠ '\n')
    (h : ∀ c ∈ row, ReadsCell dec sep c ∨ MisreadsCell dec sep c)
    (hbad : ∃ c ∈ row, MisreadsCell dec sep c) {n : ℕ} {rest rest' : List Char} {r : List α}
    (hread : readRow dec sep n (writeRow sep row ++ rest) = some (r, rest')) : r ≠ values row := by
  induction row generalizing n r with
  | nil =>
    obtain ⟨c, hc, -⟩ := hbad
    exact nomatch hc
  | cons c cs ih =>
    cases n with
    | zero => exact nomatch hread
    | succ n =>
      rw [List.forall_mem_cons] at h
      obtain ⟨d, tail, hd, heq, hend⟩ := writeRow_cons sep c cs rest
      rw [heq, readRow] at hread
      rcases h.1 with hreads | hmis
      · rw [hreads d hd tail] at hread
        simp only at hread
        have hbad' : ∃ c' ∈ cs, MisreadsCell dec sep c' := by
          obtain ⟨c', hc', hmis⟩ := hbad
          rcases List.mem_cons.1 hc' with rfl | hc'
          · exact absurd rfl (hmis d hd tail _ _ (hreads d hd tail))
          · exact ⟨c', hc', hmis⟩
        rcases hend with ⟨rfl, rfl, rfl⟩ | ⟨hcs, rfl, rfl⟩
        · obtain ⟨c', hc', -⟩ := hbad'
          exact nomatch hc'
        · rw [if_neg hsep, if_pos rfl, Option.map_eq_some_iff] at hread
          obtain ⟨⟨r', rest''⟩, hrest, heq'⟩ := hread
          cases heq'
          intro hvalues
          exact ih h.2 hbad' hrest (List.cons.inj hvalues).2
      · cases hdec : dec (c.2 ++ d :: tail) with
        | none =>
          rw [hdec] at hread
          exact nomatch hread
        | some out =>
          obtain ⟨v, after⟩ := out
          have hv := hmis d hd tail v after hdec
          rw [hdec] at hread
          cases after with
          | nil => exact nomatch hread
          | cons d' after =>
            simp only at hread
            split_ifs at hread
            · cases hread
              intro hvalues
              exact hv (List.cons.inj hvalues).1
            · obtain ⟨⟨r', rest''⟩, -, heq'⟩ := Option.map_eq_some_iff.1 hread
              cases heq'
              intro hvalues
              exact hv (List.cons.inj hvalues).1

/-- **Rows are read back exactly when every cell is.** -/
theorem read_write_iff (hsep : sep ≠ '\n')
    (h : ∀ row ∈ rows, row ≠ [] ∧ ∀ c ∈ row, ReadsCell dec sep c ∨ MisreadsCell dec sep c) :
    read dec sep (write sep rows) = some (rows.map values) ↔
      ∀ row ∈ rows, ∀ c ∈ row, ReadsCell dec sep c := by
  have hrows : ∀ (rows : List (List (α × List Char))) (width n : ℕ),
      (∀ row ∈ rows, row ≠ [] ∧ ∀ c ∈ row, ReadsCell dec sep c ∨ MisreadsCell dec sep c) →
      (write sep rows).length ≤ width → (write sep rows).length ≤ n →
      (readRows dec sep width n (write sep rows) = some (rows.map values) ↔
        ∀ row ∈ rows, ∀ c ∈ row, ReadsCell dec sep c) := by
    intro rows
    induction rows with
    | nil =>
      intro width n _ _ _
      cases n <;> simp [write, readRows]
    | cons row rows ih =>
      intro width n h hwidth hn
      rw [List.forall_mem_cons] at h
      have hwrite : write sep (row :: rows) = writeRow sep row ++ write sep rows := rfl
      have hlen : row.length ≤ (writeRow sep row).length := length_le_writeRow
      rw [hwrite, List.length_append] at hwidth hn
      have hpos : 0 < (writeRow sep row).length := List.length_pos_iff.2 writeRow_ne_nil
      obtain ⟨m, rfl⟩ : ∃ m, n = m + 1 := ⟨n - 1, by omega⟩
      have hstep : readRows dec sep width (m + 1) (write sep (row :: rows)) =
          match readRow dec sep width (writeRow sep row ++ write sep rows) with
          | none => none
          | some (row, rest) => (readRows dec sep width m rest).map fun rows => row :: rows := by
        rw [hwrite]
        cases htext : writeRow sep row ++ write sep rows with
        | nil =>
          rw [List.append_eq_nil_iff] at htext
          exact absurd htext.1 writeRow_ne_nil
        | cons x text => rfl
      rw [hstep, List.forall_mem_cons]
      by_cases hall : ∀ c ∈ row, ReadsCell dec sep c
      · rw [readRow_writeRow hsep h.1.1 hall (by omega)]
        simp only [Option.map_eq_some_iff, List.map_cons]
        rw [← ih width m h.2 (by omega) (by omega)]
        constructor
        · rintro ⟨rs, hrs, heq⟩
          rw [hrs, (List.cons.inj heq).2]
          exact ⟨hall, rfl⟩
        · rintro ⟨-, hrs⟩
          exact ⟨_, hrs, rfl⟩
      · have hbad : ∃ c ∈ row, MisreadsCell dec sep c := by
          simp only [not_forall] at hall
          obtain ⟨c, hc, hno⟩ := hall
          exact ⟨c, hc, (h.1.2 c hc).resolve_left hno⟩
        refine ⟨fun heq => ?_, fun hall' => absurd hall'.1 hall⟩
        cases hread : readRow dec sep width (writeRow sep row ++ write sep rows) with
        | none =>
          rw [hread] at heq
          exact nomatch heq
        | some out =>
          obtain ⟨r, rest⟩ := out
          rw [hread] at heq
          obtain ⟨rs, -, hcons⟩ := Option.map_eq_some_iff.1 heq
          exact absurd (List.cons.inj hcons).1 (readRow_misread hsep h.1.2 hbad hread)
  exact hrows rows _ _ h (Nat.le_refl _) (Nat.le_refl _)

end Delimited

end Deja
