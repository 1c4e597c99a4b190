import Deja.Authz.Grant
import Deja.Core.Grain
import Deja.Lib.Calendar
import Deja.Lib.Machine

/-!
# Migration: ISO-8601 timestamps

`iso8601_to_ms` walks over the bytes of a timestamp with an index.  It never panics and it is
right on every timestamp of the shapes it documents, but it takes more than those: signs inside
a numeral, days a month does not have, times that no clock shows, and text after the end.
-/

namespace Deja.Migrate

open Machine Calendar

/-! ## The parser -/

/-- `days_from_civil`. -/
def daysFromCivil (y m d : ℤ) : Compute Unit ℤ := do
  let y ← i64 (if m ≤ 2 then y - 1 else y)
  let era := (← i64 (if 0 ≤ y then y else y - 399)).tdiv 400
  let yoe ← i64 (y - (← i64 (era * 400)))
  let mp ← i64 (if 2 < m then m - 3 else m + 9)
  let doy ← i64 ((← i64 ((← i64 ((← i64 (153 * mp)) + 2)) / 5 + d)) - 1)
  let doe ← i64 ((← i64 ((← i64 ((← i64 (yoe * 365)) + yoe / 4)) - yoe / 100)) + doy)
  i64 ((← i64 ((← i64 (era * 146097)) + doe)) - 719468)

/-- The byte of an ASCII character. -/
def byte (c : Char) : UInt8 := UInt8.ofNat c.toNat

/-- `u8::is_ascii_digit`. -/
def isDigit (b : UInt8) : Bool := 48 ≤ b.toNat && b.toNat ≤ 57

/-- The number digits spell, if there are any. -/
def digits (b : Bytes) : Option ℤ :=
  if b = [] ∨ ¬ b.all isDigit then none
  else some (b.foldl (fun n x => 10 * n + (x.toNat - 48 : ℤ)) 0)

/-- `str::parse::<i64>`: digits after a sign or without one. -/
def parseInt (b : Bytes) : Option ℤ :=
  let signed := match b with
    | c :: rest =>
      if c = byte '+' then digits rest
      else if c = byte '-' then (digits rest).map fun n => -n
      else digits b
    | [] => none
  signed.filter fun n => -9223372036854775808 ≤ n ∧ n ≤ 9223372036854775807

/-- A byte inside a character. -/
def isContinuation (b : UInt8) : Bool := 128 ≤ b.toNat && b.toNat < 192

/-- `str::is_char_boundary`. -/
def isBoundary (b : Bytes) (i : ℕ) : Bool :=
  match b[i]? with
  | some c => i = 0 || !isContinuation c
  | none => i = b.length

/-- The number in a range of the text: `s.get(r)?.parse().ok()`. -/
def num (b : Bytes) (i j : ℕ) : Option ℤ :=
  if i ≤ j ∧ j ≤ b.length ∧ isBoundary b i ∧ isBoundary b j then
    parseInt ((b.drop i).take (j - i))
  else none

/-- `?` on an option. -/
def orNone {α : Type} : Option α → Compute Unit α
  | some a => .ok a
  | none => .error (.ret ())

/-- `&s[i..j]`, which panics inside a character. -/
def strSlice (b : Bytes) (i j : ℕ) : Compute Unit Bytes :=
  if isBoundary b i ∧ isBoundary b j then slice b i j else .error .panic

/-- The index after a colon, if there is one. -/
def skipColon (b : Bytes) (i : ℕ) : Compute Unit ℕ :=
  if i < b.length then do
    let c ← index b i
    .ok (if c = byte ':' then i + 1 else i)
  else .ok i

/-- The offset: `Z`, `±HH:MM`, `±HHMM` or `±HH`. -/
def offsetPart (b : Bytes) (i : ℕ) (ms : ℤ) : Compute Unit ℤ :=
  if i < b.length then do
    let c ← index b i
    if c = byte 'Z' ∨ c = byte 'z' then .ok ms
    else if c = byte '+' ∨ c = byte '-' then do
      let sign : ℤ := if c = byte '+' then 1 else -1
      let oh ← orNone (num b (i + 1) (i + 1 + 2))
      let i ← skipColon b (i + 1 + 2)
      let om := if i + 2 ≤ b.length then (num b i (i + 2)).getD 0 else 0
      i64 (ms - (← i64 ((← i64 (sign * (← i64 ((← i64 (oh * 3600)) + (← i64 (om * 60)))))) * 1000)))
    else .error (.ret ())
  else .ok ms

/-- The fraction: three digits count, the rest is skipped. -/
def fractionPart (b : Bytes) (i : ℕ) (ms : ℤ) : Compute Unit ℤ :=
  if i < b.length then do
    let c ← index b i
    if c = byte '.' then do
      let start := i + 1
      let stop := start + ((b.drop start).takeWhile isDigit).length
      let frac ← strSlice b start stop
      if frac = [] then offsetPart b stop ms
      else do
        let ms ← i64 (ms + (← orNone (parseInt ((frac ++ List.replicate 3 (byte '0')).take 3))))
        offsetPart b stop ms
    else offsetPart b i ms
  else offsetPart b i ms

/-- The time of day, from its first digit on. -/
def timePart (b : Bytes) (i : ℕ) (ms : ℤ) : Compute Unit ℤ :=
  if b.length < i + 8 then .error (.ret ())
  else do
    let c ← index b (i + 2)
    let c' ← index b (i + 5)
    if c ≠ byte ':' ∨ c' ≠ byte ':' then .error (.ret ())
    else do
      let h ← orNone (num b i (i + 2))
      let mi ← orNone (num b (i + 3) (i + 5))
      let sec ← orNone (num b (i + 6) (i + 8))
      let ms ← i64 (ms + (← i64 ((← i64 ((← i64 ((← i64 (h * 3600)) + (← i64 (mi * 60)))) + sec)) *
        1000)))
      fractionPart b (i + 8) ms

/-- `iso8601_to_ms` on the bytes of the trimmed text. -/
def isoBytes (b : Bytes) : Compute Unit ℤ :=
  if b.length < 10 then .error (.ret ())
  else do
    let c ← index b 4
    let c' ← index b 7
    if c ≠ byte '-' ∨ c' ≠ byte '-' then .error (.ret ())
    else do
      let y ← orNone (num b 0 4)
      let mo ← orNone (num b 5 7)
      let d ← orNone (num b 8 10)
      if ¬(1 ≤ mo ∧ mo ≤ 12) ∨ ¬(1 ≤ d ∧ d ≤ 31) then .error (.ret ())
      else do
        let ms ← i64 ((← daysFromCivil y mo d) * 86400000)
        if 10 < b.length then do
          let c ← index b 10
          if c = byte 'T' ∨ c = byte ' ' then timePart b 11 ms else .ok ms
        else .ok ms

/-- The bytes of a text. -/
def textBytes (s : List Char) : Bytes := s.flatMap String.utf8EncodeChar

/-- `iso8601_to_ms`. -/
def iso8601ToMs (s : List Char) : Compute Unit ℤ := isoBytes (textBytes (Authz.trim s))

/-! ## Days -/

theorem daysFromCivil_eq {y m d : ℤ} (hy : -9999 ≤ y ∧ y ≤ 9999) (hm : 1 ≤ m ∧ m ≤ 12)
    (hd : 1 ≤ d ∧ d ≤ 31) :
    daysFromCivil y m d = .ok (yearStart y + monthStart y m + (d - 1)) := by
  have hyears : -10000 ≤ (if m ≤ 2 then y - 1 else y) ∧ (if m ≤ 2 then y - 1 else y) ≤ 9999 := by
    split_ifs <;> omega
  have hmonths : 0 ≤ (if 2 < m then m - 3 else m + 9) ∧
      (if 2 < m then m - 3 else m + 9) ≤ 11 := by
    split_ifs <;> omega
  have hnumber : yearStart y + monthStart y m = yearStart (if m ≤ 2 then y - 1 else y) +
      monthStart (if m ≤ 2 then y - 1 else y) 3 +
        marchStart (if 2 < m then m - 3 else m + 9) := by
    by_cases hmarch : m ≤ 2
    · rw [if_pos hmarch, if_neg (by omega), yearStart_march hm.1 hmarch]
    · have hstart := monthStart_march (y := y) (by omega : 0 ≤ m - 3) (by omega)
      rw [if_neg hmarch, if_pos (by omega), Int.add_assoc, ← hstart, Int.sub_add_cancel]
  rw [hnumber, marchFirst]
  unfold daysFromCivil
  rw [i64_ok (by omega), ok_bind]
  generalize (if m ≤ 2 then y - 1 else y) = y' at *
  generalize (if 2 < m then m - 3 else m + 9) = mp at *
  clear hnumber
  rw [i64_ok (by split_ifs <;> omega), ok_bind,
    tdiv_floor (by decide) (by decide : (400 : ℤ) = 399 + 1)]
  simp only
  have hyoe : y' - y' / 400 * 400 = y' % 400 := by omega
  have hmod : 0 ≤ y' % 400 ∧ y' % 400 < 400 := by omega
  have hdiv : -26 ≤ y' / 400 ∧ y' / 400 ≤ 24 := by omega
  have hstart : (153 * mp + 2) / 5 = marchStart mp := rfl
  have hstart_mem : 0 ≤ marchStart mp ∧ marchStart mp ≤ 337 := by
    unfold marchStart
    omega
  rw [i64_ok (by omega), ok_bind, i64_ok (by omega), ok_bind, hyoe, i64_ok (by omega), ok_bind,
    i64_ok (by omega), ok_bind, i64_ok (by omega), ok_bind, hstart, i64_ok (by omega), ok_bind,
    i64_ok (by omega), ok_bind, i64_ok (by omega), ok_bind, i64_ok (by omega), ok_bind,
    i64_ok (by omega), ok_bind, i64_ok (by omega), ok_bind, i64_ok (by omega), ok_bind,
    i64_ok (by omega), ok_bind, i64_ok (by omega)]
  refine congrArg Except.ok ?_
  omega

/-! ## Numerals -/

theorem digits_mem {b : Bytes} {n : ℤ} (h : digits b = some n) : 0 ≤ n ∧ n < 10 ^ b.length := by
  have hfold : ∀ (b : Bytes) (n k : ℤ), b.all isDigit = true → 0 ≤ n → n < k →
      0 ≤ b.foldl (fun n x => 10 * n + (x.toNat - 48 : ℤ)) n ∧
        b.foldl (fun n x => 10 * n + (x.toNat - 48 : ℤ)) n < k * 10 ^ b.length := by
    intro b
    induction b with
    | nil =>
      intro n k _ hpos hlt
      rw [List.length_nil, pow_zero, mul_one]
      exact ⟨hpos, hlt⟩
    | cons x b ih =>
      intro n k hall hpos hlt
      rw [List.all_cons, Bool.and_eq_true] at hall
      have hx : 48 ≤ x.toNat ∧ x.toNat ≤ 57 := by
        simpa [isDigit] using hall.1
      have hnext := ih (10 * n + (x.toNat - 48 : ℤ)) (k * 10) hall.2 (by omega) (by omega)
      rw [List.length_cons, pow_succ', ← mul_assoc]
      exact hnext
  unfold digits at h
  split_ifs at h with hcond
  rw [not_or, not_not] at hcond
  cases h
  have hrange := hfold b 0 1 hcond.2 le_rfl one_pos
  rwa [one_mul] at hrange

theorem digits_ascii {b : Bytes} {n : ℤ} (h : digits b = some n) : ∀ x ∈ b, x.toNat < 128 := by
  unfold digits at h
  split_ifs at h with hcond
  rw [not_or, not_not, List.all_eq_true] at hcond
  intro x hx
  have hdigit := hcond.2 x hx
  simp only [isDigit, Bool.and_eq_true, decide_eq_true_iff] at hdigit
  omega

/-- A number is digits, after a sign or without one. -/
theorem parseInt_cases {b : Bytes} {n : ℤ} (h : parseInt b = some n) :
    digits b = some n ∨ ∃ c rest m, b = c :: rest ∧ c.toNat < 128 ∧ digits rest = some m ∧
      (n = m ∨ n = -m) := by
  unfold parseInt at h
  rw [Option.filter_eq_some_iff] at h
  have hparse := h.1
  cases b with
  | nil => exact nomatch hparse
  | cons c rest =>
    simp only at hparse
    split_ifs at hparse with hplus hminus
    · exact .inr ⟨c, rest, n, rfl, by rw [hplus]; decide, hparse, .inl rfl⟩
    · obtain ⟨m, hm, rfl⟩ := Option.map_eq_some_iff.1 hparse
      exact .inr ⟨c, rest, m, rfl, by rw [hminus]; decide, hm, .inr rfl⟩
    · exact .inl hparse

theorem parseInt_ascii {b : Bytes} {n : ℤ} (h : parseInt b = some n) : ∀ x ∈ b, x.toNat < 128 := by
  rcases parseInt_cases h with hdigits | ⟨c, rest, m, rfl, hc, hdigits, -⟩
  · exact digits_ascii hdigits
  · rw [List.forall_mem_cons]
    exact ⟨hc, digits_ascii hdigits⟩

theorem parseInt_mem {b : Bytes} {n : ℤ} (h : parseInt b = some n) :
    -(10 ^ b.length) < n ∧ n < 10 ^ b.length := by
  rcases parseInt_cases h with hdigits | ⟨c, rest, m, rfl, hc, hdigits, hsign⟩
  · have hmem := digits_mem hdigits
    have hpos : (0 : ℤ) < 10 ^ b.length := by positivity
    omega
  · have hmem := digits_mem hdigits
    have hpow : (10 : ℤ) ^ (c :: rest).length = 10 * 10 ^ rest.length := by
      rw [List.length_cons, pow_succ']
    rw [hpow]
    omega

/-! ## Text as bytes -/

/-- After an ASCII byte of a text a character begins. -/
def Utf8Ok (b : Bytes) : Prop :=
  ∀ (i : ℕ) (x y : UInt8), b[i]? = some x → b[i + 1]? = some y → isContinuation y = true →
    128 ≤ x.toNat

/-- The bytes of a character: one ASCII byte, or bytes that are none, the first of which is no
continuation. -/
theorem utf8EncodeChar_cases (c : Char) :
    (∃ x, String.utf8EncodeChar c = [x] ∧ x.toNat < 128) ∨
      ∃ x rest, String.utf8EncodeChar c = x :: rest ∧ isContinuation x = false ∧
        ∀ y ∈ x :: rest, 128 ≤ y.toNat := by
  have hmax : c.val.toNat < 1114112 := by
    have hvalid := c.valid
    rcases hvalid with h | h
    · omega
    · exact h.2
  unfold String.utf8EncodeChar
  simp only
  split_ifs with h₁ h₂ h₃
  · refine .inl ⟨_, rfl, ?_⟩
    rw [UInt8.toNat_ofNat']
    omega
  all_goals
    refine .inr ⟨_, _, rfl, ?_, ?_⟩
    · unfold isContinuation
      rw [UInt8.toNat_ofNat']
      simp
      omega
    · simp only [List.forall_mem_cons, UInt8.toNat_ofNat', List.not_mem_nil, false_imp_iff,
        implies_true, and_true]
      omega

theorem head_textBytes {s : List Char} {y : UInt8} (h : (textBytes s)[0]? = some y) :
    isContinuation y = false := by
  cases s with
  | nil => exact nomatch h
  | cons c s =>
    have hbytes : textBytes (c :: s) = String.utf8EncodeChar c ++ textBytes s := rfl
    rw [hbytes] at h
    rcases utf8EncodeChar_cases c with ⟨x, henc, hx⟩ | ⟨x, rest, henc, hx, -⟩
    · rw [henc] at h
      cases h
      unfold isContinuation
      simp
      omega
    · rw [henc] at h
      cases h
      exact hx

theorem utf8Ok_textBytes (s : List Char) : Utf8Ok (textBytes s) := by
  induction s with
  | nil => exact fun i x y hx => nomatch hx
  | cons c s ih =>
    have hbytes : textBytes (c :: s) = String.utf8EncodeChar c ++ textBytes s := rfl
    intro i x y hx hy hcont
    rw [hbytes] at hx hy
    rcases utf8EncodeChar_cases c with ⟨z, henc, -⟩ | ⟨z, rest, henc, -, hall⟩
    · rw [henc] at hx hy
      cases i with
      | zero => exact absurd hcont (by rw [head_textBytes hy]; decide)
      | succ i => exact ih i x y hx hy hcont
    · rw [← henc] at hall
      by_cases hi : i < (String.utf8EncodeChar c).length
      · rw [List.getElem?_append_left hi] at hx
        exact hall x (List.mem_of_getElem? hx)
      · rw [List.getElem?_append_right (by omega)] at hx hy
        have hnext : i + 1 - (String.utf8EncodeChar c).length =
            i - (String.utf8EncodeChar c).length + 1 := by omega
        rw [hnext] at hy
        exact ih _ x y hx hy hcont

/-! ## The text, cut at its punctuation -/

/-- A number at the front of a text. -/
def field (k : ℕ) (t : Bytes) : Option ℤ := if k ≤ t.length then parseInt (t.take k) else none

/-- Where a range is no range of characters, it holds no number. -/
theorem num_eq {b : Bytes} (hb : Utf8Ok b) {i k : ℕ} (hk : 0 < k) :
    num b i (i + k) = field k (b.drop i) := by
  unfold num field
  rw [Nat.add_sub_cancel_left, List.length_drop]
  by_cases hlen : i + k ≤ b.length
  · rw [if_pos (by omega : k ≤ b.length - i)]
    by_cases hbound : isBoundary b i = true ∧ isBoundary b (i + k) = true
    · rw [if_pos ⟨by omega, hlen, hbound⟩]
    · rw [if_neg fun h => hbound h.2.2]
      symm
      rw [Option.eq_none_iff_forall_ne_some]
      intro n hparse
      have hascii := parseInt_ascii hparse
      have hmem : ∀ j (hj : j < b.length), i ≤ j → j < i + k → (b[j]).toNat < 128 := by
        intro j hj hij hjk
        refine hascii _ ?_
        rw [List.mem_iff_getElem]
        refine ⟨j - i, by rw [List.length_take, List.length_drop]; omega, ?_⟩
        rw [List.getElem_take, List.getElem_drop]
        congr 1
        omega
      rw [Classical.not_and_iff_not_or_not] at hbound
      rcases hbound with hstart | hend
      · refine hstart ?_
        have hlow := hmem i (by omega) le_rfl (by omega)
        unfold isBoundary isContinuation
        rw [List.getElem?_eq_getElem (by omega : i < b.length)]
        simp
        omega
      · refine hend ?_
        unfold isBoundary
        by_cases hlast : i + k < b.length
        · rw [List.getElem?_eq_getElem hlast]
          have hprev := hmem (i + k - 1) (by omega) (by omega) (by omega)
          have hnext := hb (i + k - 1) b[i + k - 1] b[i + k]
            (List.getElem?_eq_getElem (by omega)) (by
              rw [Nat.sub_add_cancel (by omega)]
              exact List.getElem?_eq_getElem hlast)
          have hno : isContinuation b[i + k] = false := by
            rw [← Bool.not_eq_true]
            intro hcont
            have := hnext hcont
            omega
          simp [hno]
        · rw [List.getElem?_eq_none (by omega)]
          exact decide_eq_true (by omega)
  · rw [if_neg fun h => hlen h.2.1, if_neg (by omega)]

/-- The text after a colon, if there is one. -/
def afterColon (t : Bytes) : Bytes := if t.head? = some (byte ':') then t.tail else t

/-- Where an offset is taken. -/
def ZoneTakes (t : Bytes) : Prop :=
  match t with
  | [] => True
  | c :: rest => c = byte 'Z' ∨ c = byte 'z' ∨
      (c = byte '+' ∨ c = byte '-') ∧ (field 2 rest).isSome = true

/-- The milliseconds of an offset. -/
def zoneShift (t : Bytes) : ℤ :=
  match t with
  | [] => 0
  | c :: rest =>
    if c = byte 'Z' ∨ c = byte 'z' then 0
    else (if c = byte '+' then 1 else -1) * ((field 2 rest).getD 0 * 3600 +
      (field 2 (afterColon (rest.drop 2))).getD 0 * 60) * 1000

instance (t : Bytes) : Decidable (ZoneTakes t) := by
  unfold ZoneTakes
  cases t <;> infer_instance

theorem skipColon_eq {b : Bytes} {i : ℕ} (hi : i ≤ b.length) :
    ∃ j, skipColon b i = .ok j ∧ j ≤ b.length ∧ b.drop j = afterColon (b.drop i) := by
  unfold skipColon afterColon
  by_cases hlt : i < b.length
  · rw [if_pos hlt, index_ok hlt, ok_bind, List.drop_eq_getElem_cons hlt]
    simp only [List.head?_cons, Option.some_inj, List.tail_cons]
    split_ifs with hcolon
    · exact ⟨i + 1, rfl, hlt, rfl⟩
    · exact ⟨i, rfl, hi, List.drop_eq_getElem_cons hlt⟩
  · rw [if_neg hlt]
    refine ⟨i, rfl, hi, ?_⟩
    rw [List.drop_of_length_le (by omega)]
    rfl

theorem field_mem {t : Bytes} {n : ℤ} (h : field 2 t = some n) : -100 < n ∧ n < 100 := by
  unfold field at h
  split_ifs at h with hlen
  have hmem := parseInt_mem h
  rw [List.length_take, Nat.min_eq_left hlen] at hmem
  norm_num at hmem
  exact hmem

theorem field_getD_mem (t : Bytes) : -100 < (field 2 t).getD 0 ∧ (field 2 t).getD 0 < 100 := by
  cases hfield : field 2 t with
  | none => decide
  | some n => exact field_mem hfield

/-- The offset of a text, read off what is left of it. -/
theorem offsetPart_eq {b : Bytes} (hb : Utf8Ok b) {i : ℕ} (hi : i ≤ b.length) {ms : ℤ}
    (hms : -10 ^ 17 ≤ ms ∧ ms ≤ 10 ^ 17) : offsetPart b i ms =
      if ZoneTakes (b.drop i) then .ok (ms - zoneShift (b.drop i)) else .error (.ret ()) := by
  by_cases hlt : i < b.length
  · have hbytes := List.drop_eq_getElem_cons hlt
    unfold offsetPart
    rw [if_pos hlt, index_ok hlt, ok_bind, num_eq hb (by decide)]
    by_cases hzulu : b[i] = byte 'Z' ∨ b[i] = byte 'z'
    · have htakes : ZoneTakes (b.drop i) := by
        rw [hbytes]
        exact or_assoc.1 (.inl hzulu)
      rw [if_pos hzulu, if_pos htakes, hbytes, zoneShift, if_pos hzulu, Int.sub_zero]
    · rw [if_neg hzulu]
      by_cases hsign : b[i] = byte '+' ∨ b[i] = byte '-'
      · rw [if_pos hsign]
        cases hhours : field 2 (b.drop (i + 1)) with
        | none =>
          have htakes : ¬ ZoneTakes (b.drop i) := by
            rw [hbytes, ZoneTakes, hhours, ← or_assoc]
            exact not_or.2 ⟨hzulu, fun h => nomatch h.2⟩
          rw [if_neg htakes]
          rfl
        | some oh =>
          have htakes : ZoneTakes (b.drop i) := by
            rw [hbytes, ZoneTakes, hhours]
            exact .inr (.inr ⟨hsign, rfl⟩)
          have hlong : i + 1 + 2 ≤ b.length := by
            unfold field at hhours
            split_ifs at hhours with hlen
            rw [List.length_drop] at hlen
            omega
          obtain ⟨j, hj, hjlen, hdrop⟩ := skipColon_eq hlong
          have hminutes : (if j + 2 ≤ b.length then (num b j (j + 2)).getD 0 else 0) =
              (field 2 (afterColon ((b.drop (i + 1)).drop 2))).getD 0 := by
            rw [num_eq hb (by decide), hdrop, List.drop_drop]
            split_ifs with hmore
            · rfl
            · rw [← hdrop, field, if_neg (by rw [List.length_drop]; omega)]
              rfl
          have hoh := field_mem hhours
          have hom := field_getD_mem (afterColon ((b.drop (i + 1)).drop 2))
          have hshift : zoneShift (b.drop i) = (if b[i] = byte '+' then 1 else -1) *
              (oh * 3600 + (field 2 (afterColon ((b.drop (i + 1)).drop 2))).getD 0 * 60) *
                1000 := by
            rw [hbytes, zoneShift, if_neg hzulu, hhours]
            rfl
          simp only
          rw [if_pos htakes, orNone, ok_bind, hj, ok_bind, hminutes, hshift]
          generalize (field 2 (afterColon ((b.drop (i + 1)).drop 2))).getD 0 = om at *
          rw [i64_ok (by omega), ok_bind, i64_ok (by omega), ok_bind, i64_ok (by omega), ok_bind]
          split_ifs with hplus
          · rw [i64_ok (by omega), ok_bind, i64_ok (by omega), ok_bind, i64_ok (by omega)]
          · rw [i64_ok (by omega), ok_bind, i64_ok (by omega), ok_bind, i64_ok (by omega)]
      · have htakes : ¬ ZoneTakes (b.drop i) := by
          rw [hbytes, ZoneTakes, ← or_assoc]
          exact not_or.2 ⟨hzulu, fun h => hsign h.1⟩
        rw [if_neg hsign, if_neg htakes]
  · have hnil : b.drop i = [] := List.drop_of_length_le (by omega)
    have htakes : ZoneTakes [] := trivial
    unfold offsetPart
    rw [if_neg hlt, hnil, if_pos htakes, zoneShift, Int.sub_zero]

/-- The digits of a fraction. -/
def fraction (t : Bytes) : Bytes :=
  if t.head? = some (byte '.') then t.tail.takeWhile isDigit else []

/-- The text after a fraction. -/
def afterFraction (t : Bytes) : Bytes :=
  if t.head? = some (byte '.') then t.tail.dropWhile isDigit else t

/-- The milliseconds of a fraction. -/
def fractionMs (t : Bytes) : ℤ :=
  if fraction t = [] then 0
  else (parseInt ((fraction t ++ List.replicate 3 (byte '0')).take 3)).getD 0

/-- Digits are a number. -/
theorem parseInt_digits {b : Bytes} (hne : b ≠ []) (hall : b.all isDigit = true)
    (hlen : b.length ≤ 18) : parseInt b = digits b := by
  cases b with
  | nil => exact absurd rfl hne
  | cons c rest =>
    have hc : isDigit c = true := by
      rw [List.all_cons, Bool.and_eq_true] at hall
      exact hall.1
    have hplus : c ≠ byte '+' := by
      rintro rfl
      exact absurd hc (by decide)
    have hminus : c ≠ byte '-' := by
      rintro rfl
      exact absurd hc (by decide)
    have hsome : (digits (c :: rest)).isSome = true := by
      rw [digits, if_neg (not_or.2 ⟨hne, not_not.2 hall⟩)]
      rfl
    obtain ⟨n, hn⟩ := Option.isSome_iff_exists.1 hsome
    have hmem := digits_mem hn
    have hpow : (10 : ℤ) ^ (c :: rest).length ≤ 10 ^ 18 :=
      pow_le_pow_right₀ (by decide) hlen
    unfold parseInt
    simp only [if_neg hplus, if_neg hminus]
    rw [hn, Option.filter_some, if_pos]
    exact decide_eq_true ⟨by omega, by omega⟩

theorem fraction_all (t : Bytes) : (fraction t).all isDigit = true := by
  unfold fraction
  split_ifs
  · exact List.all_takeWhile
  · rfl

/-- The three digits that count are a number. -/
theorem fraction_parses (t : Bytes) :
    ∃ n, parseInt ((fraction t ++ List.replicate 3 (byte '0')).take 3) = some n ∧
      0 ≤ n ∧ n < 1000 := by
  have hall : ((fraction t ++ List.replicate 3 (byte '0')).take 3).all isDigit = true := by
    rw [List.all_eq_true]
    intro x hx
    rcases List.mem_append.1 (List.mem_of_mem_take hx) with hx | hx
    · exact List.all_eq_true.1 (fraction_all t) x hx
    · rw [List.eq_of_mem_replicate hx]
      decide
  have hlen : ((fraction t ++ List.replicate 3 (byte '0')).take 3).length = 3 := by
    rw [List.length_take, List.length_append, List.length_replicate]
    omega
  have hne : (fraction t ++ List.replicate 3 (byte '0')).take 3 ≠ [] := by
    intro hnil
    rw [hnil] at hlen
    exact absurd hlen (by decide)
  have hsome : (digits ((fraction t ++ List.replicate 3 (byte '0')).take 3)).isSome = true := by
    rw [digits, if_neg (not_or.2 ⟨hne, not_not.2 hall⟩)]
    rfl
  obtain ⟨n, hn⟩ := Option.isSome_iff_exists.1 hsome
  have hmem := digits_mem hn
  rw [hlen] at hmem
  refine ⟨n, by rw [parseInt_digits hne hall (by omega), hn], hmem.1, ?_⟩
  exact hmem.2

/-- After an ASCII byte a character begins. -/
theorem boundary_succ {b : Bytes} (hb : Utf8Ok b) {i : ℕ} (hi : i < b.length)
    (hascii : (b[i]).toNat < 128) : isBoundary b (i + 1) = true := by
  unfold isBoundary
  by_cases hlt : i + 1 < b.length
  · have hno : isContinuation b[i + 1] = false := by
      rw [← Bool.not_eq_true]
      intro hcont
      have hhigh := hb i _ _ (List.getElem?_eq_getElem hi) (List.getElem?_eq_getElem hlt) hcont
      omega
    rw [List.getElem?_eq_getElem hlt]
    simp [hno]
  · rw [List.getElem?_eq_none (by omega)]
    exact decide_eq_true (by omega)

theorem isDigit_ascii {x : UInt8} (h : isDigit x = true) : x.toNat < 128 := by
  simp only [isDigit, Bool.and_eq_true, decide_eq_true_iff] at h
  omega

theorem dropWhile_digits (t : Bytes) :
    t.dropWhile isDigit = t.drop (t.takeWhile isDigit).length := by
  induction t with
  | nil => rfl
  | cons x t ih =>
    by_cases hx : isDigit x = true
    · rw [List.dropWhile_cons_of_pos hx, List.takeWhile_cons_of_pos hx, ih, List.length_cons,
        List.drop_succ_cons]
    · rw [List.dropWhile_cons_of_neg hx, List.takeWhile_cons_of_neg hx]
      rfl

/-- The fraction and the offset of a text, read off what is left of it. -/
theorem fractionPart_eq {b : Bytes} (hb : Utf8Ok b) {i : ℕ} (hi : i ≤ b.length) {ms : ℤ}
    (hms : -10 ^ 16 ≤ ms ∧ ms ≤ 10 ^ 16) : fractionPart b i ms =
      if ZoneTakes (afterFraction (b.drop i)) then
        .ok (ms + fractionMs (b.drop i) - zoneShift (afterFraction (b.drop i)))
      else .error (.ret ()) := by
  have hplain : (b.drop i).head? ≠ some (byte '.') → offsetPart b i ms =
      if ZoneTakes (afterFraction (b.drop i)) then
        .ok (ms + fractionMs (b.drop i) - zoneShift (afterFraction (b.drop i)))
      else .error (.ret ()) := by
    intro hdot
    rw [offsetPart_eq hb hi ⟨by omega, by omega⟩, afterFraction, if_neg hdot, fractionMs, fraction,
      if_neg hdot, if_pos rfl, Int.add_zero]
  unfold fractionPart
  by_cases hlt : i < b.length
  · have hbytes := List.drop_eq_getElem_cons hlt
    rw [if_pos hlt, index_ok hlt, ok_bind]
    by_cases hdot : b[i] = byte '.'
    · have hhead : (b.drop i).head? = some (byte '.') := by
        rw [hbytes, List.head?_cons, hdot]
      have htail : (b.drop i).tail = b.drop (i + 1) := by rw [hbytes, List.tail_cons]
      have hfrac : fraction (b.drop i) = (b.drop (i + 1)).takeWhile isDigit := by
        rw [fraction, if_pos hhead, htail]
      have hafter : afterFraction (b.drop i) =
          b.drop (i + 1 + ((b.drop (i + 1)).takeWhile isDigit).length) := by
        rw [afterFraction, if_pos hhead, htail, dropWhile_digits, List.drop_drop]
      have hpre := List.takeWhile_prefix isDigit (l := b.drop (i + 1))
      have hlen : ((b.drop (i + 1)).takeWhile isDigit).length ≤ b.length - (i + 1) := by
        rw [← List.length_drop]
        exact (List.takeWhile_sublist _).length_le
      have hstart : isBoundary b (i + 1) = true := by
        refine boundary_succ hb hlt ?_
        rw [hdot]
        decide
      have hstop : isBoundary b (i + 1 + ((b.drop (i + 1)).takeWhile isDigit).length) = true := by
        cases hk : ((b.drop (i + 1)).takeWhile isDigit).length with
        | zero => exact hstart
        | succ k =>
          rw [hk] at hlen
          have hlast : isDigit b[i + 1 + k] = true := by
            have hmem : k < ((b.drop (i + 1)).takeWhile isDigit).length := by omega
            have hget := hpre.getElem hmem
            rw [List.getElem_drop] at hget
            rw [← hget]
            exact List.mem_takeWhile_imp (List.getElem_mem hmem)
          rw [← Nat.add_assoc]
          exact boundary_succ hb (by omega) (isDigit_ascii hlast)
      have hslice : strSlice b (i + 1) (i + 1 + ((b.drop (i + 1)).takeWhile isDigit).length) =
          .ok (fraction (b.drop i)) := by
        rw [strSlice, if_pos ⟨hstart, hstop⟩, slice_ok (Nat.le_add_right _ _) (by omega),
          Nat.add_sub_cancel_left, hfrac]
        exact congrArg Except.ok (List.prefix_iff_eq_take.1 hpre).symm
      rw [if_pos hdot]
      simp only
      rw [hslice, ok_bind, hafter]
      by_cases hnil : fraction (b.drop i) = []
      · rw [if_pos hnil, offsetPart_eq hb (by omega) ⟨by omega, by omega⟩, fractionMs, if_pos hnil,
          Int.add_zero]
      · obtain ⟨n, hn, hpos, hsmall⟩ := fraction_parses (b.drop i)
        rw [if_neg hnil, hn, orNone, ok_bind, i64_ok (by omega), ok_bind,
          offsetPart_eq hb (by omega) ⟨by omega, by omega⟩, fractionMs, if_neg hnil, hn]
        rfl
    · rw [if_neg hdot]
      refine hplain ?_
      rw [hbytes, List.head?_cons]
      exact fun h => hdot (Option.some.inj h)
  · rw [if_neg hlt]
    refine hplain ?_
    rw [List.drop_of_length_le (by omega)]
    exact fun h => nomatch h

/-- The time of day of a text. -/
def ClockTakes (t : Bytes) : Prop :=
  8 ≤ t.length ∧ t[2]? = some (byte ':') ∧ t[5]? = some (byte ':') ∧ (field 2 t).isSome = true ∧
    (field 2 (t.drop 3)).isSome = true ∧ (field 2 (t.drop 6)).isSome = true ∧
      ZoneTakes (afterFraction (t.drop 8))

/-- The milliseconds of a time of day, in UTC. -/
def clockMs (t : Bytes) : ℤ :=
  ((field 2 t).getD 0 * 3600 + (field 2 (t.drop 3)).getD 0 * 60 + (field 2 (t.drop 6)).getD 0) *
    1000 + fractionMs (t.drop 8) - zoneShift (afterFraction (t.drop 8))

instance (t : Bytes) : Decidable (ClockTakes t) := by
  unfold ClockTakes
  infer_instance

/-- The time of day of a text, read off what is left of it. -/
theorem timePart_eq {b : Bytes} (hb : Utf8Ok b) {i : ℕ} {ms : ℤ}
    (hms : -10 ^ 15 ≤ ms ∧ ms ≤ 10 ^ 15) : timePart b i ms =
      if ClockTakes (b.drop i) then .ok (ms + clockMs (b.drop i)) else .error (.ret ()) := by
  unfold timePart
  by_cases hlen : b.length < i + 8
  · have htakes : ¬ ClockTakes (b.drop i) := by
      intro h
      have hlong := h.1
      rw [List.length_drop] at hlong
      omega
    rw [if_pos hlen, if_neg htakes]
  · have htwo : (b.drop i)[2]? = some b[i + 2] := by
      rw [List.getElem?_drop, List.getElem?_eq_getElem (by omega)]
    have hfive : (b.drop i)[5]? = some b[i + 5] := by
      rw [List.getElem?_drop, List.getElem?_eq_getElem (by omega)]
    rw [if_neg hlen, index_ok (by omega), ok_bind, index_ok (by omega), ok_bind,
      num_eq hb (by decide)]
    have hminute : num b (i + 3) (i + 5) = field 2 ((b.drop i).drop 3) := by
      rw [List.drop_drop]
      exact num_eq hb (by decide : 0 < 2)
    have hsecond : num b (i + 6) (i + 8) = field 2 ((b.drop i).drop 6) := by
      rw [List.drop_drop]
      exact num_eq hb (by decide : 0 < 2)
    rw [hminute, hsecond]
    by_cases hcolons : b[i + 2] = byte ':' ∧ b[i + 5] = byte ':'
    · rw [if_neg (by simp [hcolons])]
      cases hh : field 2 (b.drop i) with
      | none =>
        have htakes : ¬ ClockTakes (b.drop i) := by
          intro h
          have hsome := h.2.2.2.1
          rw [hh] at hsome
          exact nomatch hsome
        rw [if_neg htakes]
        rfl
      | some h =>
        rw [orNone, ok_bind]
        cases hmi : field 2 ((b.drop i).drop 3) with
        | none =>
          have htakes : ¬ ClockTakes (b.drop i) := by
            intro h
            have hsome := h.2.2.2.2.1
            rw [hmi] at hsome
            exact nomatch hsome
          rw [if_neg htakes]
          rfl
        | some mi =>
          rw [orNone, ok_bind]
          cases hsec : field 2 ((b.drop i).drop 6) with
          | none =>
            have htakes : ¬ ClockTakes (b.drop i) := by
              intro h
              have hsome := h.2.2.2.2.2.1
              rw [hsec] at hsome
              exact nomatch hsome
            rw [if_neg htakes]
            rfl
          | some sec =>
            have hh' := field_mem hh
            have hmi' := field_mem hmi
            have hsec' := field_mem hsec
            have htakes :
                ClockTakes (b.drop i) ↔ ZoneTakes (afterFraction ((b.drop i).drop 8)) := by
              unfold ClockTakes
              rw [htwo, hfive, hh, hmi, hsec, hcolons.1, hcolons.2, List.length_drop]
              simp
              omega
            rw [orNone, ok_bind, i64_ok (by omega), ok_bind, i64_ok (by omega), ok_bind,
              i64_ok (by omega), ok_bind, i64_ok (by omega), ok_bind, i64_ok (by omega), ok_bind,
              i64_ok (by omega), ok_bind, fractionPart_eq hb (by omega) ⟨by omega, by omega⟩,
              ← List.drop_drop]
            simp only [htakes]
            refine if_congr Iff.rfl (congrArg Except.ok ?_) rfl
            rw [clockMs, hh, hmi, hsec]
            simp only [Option.getD_some]
            omega
    · have htakes : ¬ ClockTakes (b.drop i) := by
        intro h
        rw [ClockTakes, htwo, hfive] at h
        exact hcolons ⟨Option.some.inj h.2.1, Option.some.inj h.2.2.1⟩
      rw [if_pos (by rw [← Classical.not_and_iff_not_or_not]; exact hcolons), if_neg htakes]

/-- What the parser takes: a date whose month and day are in range, and after it either the end,
or a time of day, or anything that begins neither with `T` nor with a blank. -/
def RestTakes (t : Bytes) : Prop :=
  t.head? = some (byte 'T') ∨ t.head? = some (byte ' ') → ClockTakes t.tail

/-- The milliseconds of what follows a date. -/
def restMs (t : Bytes) : ℤ :=
  if t.head? = some (byte 'T') ∨ t.head? = some (byte ' ') then clockMs t.tail else 0

/-- The texts the parser takes. -/
structure Takes (b : Bytes) : Prop where
  long : 10 ≤ b.length
  first : b[4]? = some (byte '-')
  second : b[7]? = some (byte '-')
  year : (field 4 b).isSome = true
  month : 1 ≤ (field 2 (b.drop 5)).getD 0 ∧ (field 2 (b.drop 5)).getD 0 ≤ 12
  day : 1 ≤ (field 2 (b.drop 8)).getD 0 ∧ (field 2 (b.drop 8)).getD 0 ≤ 31
  rest : RestTakes (b.drop 10)

/-- The number of a date that a text begins with. -/
def dateDays (b : Bytes) : ℤ :=
  yearStart ((field 4 b).getD 0) +
    monthStart ((field 4 b).getD 0) ((field 2 (b.drop 5)).getD 0) +
      ((field 2 (b.drop 8)).getD 0 - 1)

/-- The milliseconds of a text. -/
def textMs (b : Bytes) : ℤ := dateDays b * 86400000 + restMs (b.drop 10)

theorem year_mem {t : Bytes} {n : ℤ} (h : field 4 t = some n) : -9999 ≤ n ∧ n ≤ 9999 := by
  unfold field at h
  split_ifs at h with hlen
  have hmem := parseInt_mem h
  rw [List.length_take, Nat.min_eq_left hlen] at hmem
  norm_num at hmem
  omega

open Classical in
/-- **What the parser does**: it takes some texts and returns the milliseconds of them, and it
refuses the others; it never panics. -/
theorem isoBytes_eq {b : Bytes} (hb : Utf8Ok b) :
    isoBytes b = if Takes b then .ok (textMs b) else .error (.ret ()) := by
  unfold isoBytes
  by_cases hlen : b.length < 10
  · rw [if_pos hlen, if_neg fun h => absurd h.long (by omega)]
  · have hfour : b[4]? = some b[4] := List.getElem?_eq_getElem (by omega)
    have hseven : b[7]? = some b[7] := List.getElem?_eq_getElem (by omega)
    have hyear : num b 0 4 = field 4 b := num_eq hb (by decide : 0 < 4)
    have hmonth : num b 5 7 = field 2 (b.drop 5) := num_eq hb (by decide : 0 < 2)
    have hday : num b 8 10 = field 2 (b.drop 8) := num_eq hb (by decide : 0 < 2)
    rw [if_neg hlen, index_ok (by omega), ok_bind, index_ok (by omega), ok_bind, hyear, hmonth,
      hday]
    by_cases hdashes : b[4] = byte '-' ∧ b[7] = byte '-'
    · rw [if_neg (by simp [hdashes])]
      cases hy : field 4 b with
      | none =>
        have htakes : ¬ Takes b := by
          intro h
          have hsome := h.year
          rw [hy] at hsome
          exact nomatch hsome
        rw [if_neg htakes]
        rfl
      | some y =>
        rw [orNone, ok_bind]
        cases hm : field 2 (b.drop 5) with
        | none =>
          have htakes : ¬ Takes b := by
            intro h
            have hpos := h.month.1
            rw [hm] at hpos
            exact absurd hpos (by decide)
          rw [if_neg htakes]
          rfl
        | some m =>
          rw [orNone, ok_bind]
          cases hd : field 2 (b.drop 8) with
          | none =>
            have htakes : ¬ Takes b := by
              intro h
              have hpos := h.day.1
              rw [hd] at hpos
              exact absurd hpos (by decide)
            rw [if_neg htakes]
            rfl
          | some d =>
            rw [orNone, ok_bind]
            by_cases hrange : (1 ≤ m ∧ m ≤ 12) ∧ 1 ≤ d ∧ d ≤ 31
            · have htakes : Takes b ↔ RestTakes (b.drop 10) := by
                refine ⟨fun h => h.rest, fun h => ⟨by omega, ?_, ?_, by rw [hy]; rfl, ?_, ?_, h⟩⟩
                · rw [hfour, hdashes.1]
                · rw [hseven, hdashes.2]
                · rw [hm]
                  exact hrange.1
                · rw [hd]
                  exact hrange.2
              have hdays : dateDays b = yearStart y + monthStart y m + (d - 1) := by
                rw [dateDays, hy, hm, hd]
                rfl
              have hyears := year_mem hy
              have hsize : -10 ^ 7 ≤ dateDays b ∧ dateDays b ≤ 10 ^ 7 := by
                rw [hdays]
                unfold yearStart monthStart
                split_ifs <;> omega
              rw [if_neg (by omega), daysFromCivil_eq hyears hrange.1 hrange.2, ok_bind, ← hdays,
                i64_ok (by omega), ok_bind]
              simp only [htakes]
              by_cases hmore : 10 < b.length
              · have hrest := List.drop_eq_getElem_cons hmore
                rw [if_pos hmore, index_ok hmore, ok_bind, timePart_eq hb (by omega), textMs,
                  RestTakes, restMs, hrest, List.head?_cons, List.tail_cons]
                simp only [Option.some_inj]
                by_cases hsep : b[10] = byte 'T' ∨ b[10] = byte ' '
                · simp only [hsep, if_true, true_imp_iff]
                · simp only [hsep, if_false, false_imp_iff, if_true, Int.add_zero]
              · have hrest : b.drop 10 = [] := List.drop_of_length_le (by omega)
                have htakes : RestTakes [] := by
                  rintro (h | h) <;> exact nomatch h
                have hzero : restMs [] = 0 := rfl
                rw [if_neg hmore, textMs, hrest, if_pos htakes, hzero, Int.add_zero]
            · rw [if_pos (by omega), if_neg]
              intro h
              have hmonths := h.month
              have hdays := h.day
              rw [hm] at hmonths
              rw [hd] at hdays
              exact hrange ⟨hmonths, hdays⟩
    · rw [if_pos (by rw [← Classical.not_and_iff_not_or_not]; exact hdashes), if_neg]
      intro h
      have hone := h.first
      have htwo := h.second
      rw [hfour] at hone
      rw [hseven] at htwo
      exact hdashes ⟨Option.some.inj hone, Option.some.inj htwo⟩

theorem iso8601ToMs_eq (s : List Char) [Decidable (Takes (textBytes (Authz.trim s)))] :
    iso8601ToMs s = if Takes (textBytes (Authz.trim s)) then
      .ok (textMs (textBytes (Authz.trim s))) else .error (.ret ()) := by
  rw [iso8601ToMs, isoBytes_eq (utf8Ok_textBytes _)]
  congr

end Deja.Migrate
