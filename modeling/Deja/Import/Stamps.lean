import Deja.Import.Iso8601
import Mathlib.Algebra.Order.Floor.Ring
import Mathlib.Data.Rat.Floor
import Mathlib.Tactic.Ring

/-!
# Migration: the timestamps that are meant

The shapes of timestamp `iso8601_to_ms` documents, as a grammar with the instant each one names.
The parser is right on all of them; what it takes besides has a field that is no plain number in
its range, or goes on after its end.
-/

namespace Deja.Migrate

open Machine Calendar

/-! ## The grammar -/

/-- The character of a digit. -/
def digitChar (n : ℕ) : Char := Char.ofNat (48 + n)

/-- Two digits. -/
def twoDigits (n : ℕ) : List Char := [digitChar (n / 10), digitChar (n % 10)]

/-- Four digits. -/
def fourDigits (n : ℕ) : List Char :=
  [digitChar (n / 1000), digitChar (n / 100 % 10), digitChar (n / 10 % 10), digitChar (n % 10)]

/-- An offset: none, `Z`, `±HH`, or `±HHMM` with a colon or without one. -/
inductive Zone where
  | bare
  | utc (lower : Bool)
  | hours (west : Bool) (h : Fin 24)
  | minutes (west colon : Bool) (h : Fin 24) (m : Fin 60)

/-- The sign of an offset. -/
def signChar (west : Bool) : Char := if west then '-' else '+'

/-- The text of an offset. -/
def Zone.text : Zone → List Char
  | .bare => []
  | .utc lower => [if lower then 'z' else 'Z']
  | .hours west h => signChar west :: twoDigits h
  | .minutes west colon h m =>
    signChar west :: twoDigits h ++ (if colon then [':'] else []) ++ twoDigits m

/-- The seconds of an offset, to the east. -/
def Zone.east : Zone → ℤ
  | .bare => 0
  | .utc _ => 0
  | .hours west h => (if west then -1 else 1) * (h * 3600)
  | .minutes west _ h m => (if west then -1 else 1) * (h * 3600 + m * 60)

/-- A time of day with an offset. -/
structure Clock where
  blank : Bool
  hour : Fin 24
  minute : Fin 60
  second : Fin 60
  fraction : List (Fin 10)
  zone : Zone

/-- The text of a fraction of a second. -/
def fractionText (fs : List (Fin 10)) : List Char :=
  if fs = [] then [] else '.' :: fs.map fun d : Fin 10 => digitChar d

/-- The text of a time of day, after a `T` or a blank. -/
def Clock.text (c : Clock) : List Char :=
  (if c.blank then ' ' else 'T') :: twoDigits c.hour ++ ':' :: twoDigits c.minute ++
    ':' :: twoDigits c.second ++ fractionText c.fraction ++ c.zone.text

/-- A decimal fraction. -/
def decimal : List (Fin 10) → ℚ
  | [] => 0
  | d :: ds => ((d : ℕ) + decimal ds) / 10

/-- A timestamp: a date with a year of four digits, and a time of day or none. -/
structure Stamp where
  date : Date
  year_nonneg : 0 ≤ date.year
  year_le : date.year ≤ 9999
  clock : Option Clock

/-- The text of a timestamp. -/
def Stamp.text (st : Stamp) : List Char :=
  fourDigits st.date.year.toNat ++ '-' :: twoDigits st.date.month.toNat ++
    '-' :: twoDigits st.date.day.toNat ++ (st.clock.map Clock.text).getD []

/-- The seconds of a time of day, in UTC. -/
def Clock.seconds (c : Clock) : ℚ :=
  (c.hour * 3600 + c.minute * 60 + c.second : ℕ) + decimal c.fraction - c.zone.east

/-- The seconds since 1970, in UTC. -/
def Stamp.instant (st : Stamp) : ℚ :=
  st.date.toDays * 86400 + (st.clock.map Clock.seconds).getD 0

/-! ## Digits as bytes -/

theorem encode_ascii {c : Char} (hc : c.toNat < 128) : String.utf8EncodeChar c = [byte c] := by
  unfold String.utf8EncodeChar
  simp only
  rw [if_pos (by exact Nat.le_of_lt_succ hc)]
  rfl

theorem textBytes_cons {c : Char} (hc : c.toNat < 128) (s : List Char) :
    textBytes (c :: s) = byte c :: textBytes s := by
  show String.utf8EncodeChar c ++ textBytes s = _
  rw [encode_ascii hc]
  rfl

theorem textBytes_append (s t : List Char) : textBytes (s ++ t) = textBytes s ++ textBytes t :=
  List.flatMap_append

/-- The byte of a digit. -/
def digitByte (n : ℕ) : UInt8 := byte (digitChar n)

theorem digitChar_ascii {n : ℕ} (hn : n < 10) : (digitChar n).toNat < 128 := by
  revert n
  decide

theorem digitByte_toNat {n : ℕ} (hn : n < 10) : (digitByte n).toNat = 48 + n := by
  revert n
  decide

theorem isDigit_digitByte {n : ℕ} (hn : n < 10) : isDigit (digitByte n) = true := by
  revert n
  decide

/-- A digit is the byte of a number. -/
theorem exists_digit {x : UInt8} (hx : isDigit x = true) : ∃ n < 10, x = digitByte n := by
  simp only [isDigit, Bool.and_eq_true, decide_eq_true_iff] at hx
  refine ⟨x.toNat - 48, by omega, ?_⟩
  rw [← UInt8.toNat_inj, digitByte_toNat (by omega)]
  omega

/-- Two digits, as bytes. -/
def twoBytes (n : ℕ) : Bytes := [digitByte (n / 10), digitByte (n % 10)]

/-- Four digits, as bytes. -/
def fourBytes (n : ℕ) : Bytes :=
  [digitByte (n / 1000), digitByte (n / 100 % 10), digitByte (n / 10 % 10), digitByte (n % 10)]

theorem textBytes_twoDigits {n : ℕ} (hn : n < 100) : textBytes (twoDigits n) = twoBytes n := by
  rw [twoDigits, textBytes_cons (digitChar_ascii (by omega)),
    textBytes_cons (digitChar_ascii (by omega))]
  rfl

theorem textBytes_fourDigits {n : ℕ} (hn : n < 10000) :
    textBytes (fourDigits n) = fourBytes n := by
  rw [fourDigits, textBytes_cons (digitChar_ascii (by omega)),
    textBytes_cons (digitChar_ascii (by omega)), textBytes_cons (digitChar_ascii (by omega)),
    textBytes_cons (digitChar_ascii (by omega))]
  rfl

/-- Nothing but digits. -/
def Digits (t : Bytes) : Prop := t.all isDigit = true

theorem digits_twoBytes {n : ℕ} (hn : n < 100) : Digits (twoBytes n) := by
  simp [Digits, twoBytes, isDigit_digitByte (by omega : n / 10 < 10),
    isDigit_digitByte (by omega : n % 10 < 10)]

theorem digits_fourBytes {n : ℕ} (hn : n < 10000) : Digits (fourBytes n) := by
  simp [Digits, fourBytes, isDigit_digitByte (by omega : n / 1000 < 10),
    isDigit_digitByte (by omega : n / 100 % 10 < 10),
    isDigit_digitByte (by omega : n / 10 % 10 < 10), isDigit_digitByte (by omega : n % 10 < 10)]

theorem parseInt_twoBytes {n : ℕ} (hn : n < 100) : parseInt (twoBytes n) = some (n : ℤ) := by
  have hall : (twoBytes n).all isDigit = true := digits_twoBytes hn
  have hne : twoBytes n ≠ [] := List.cons_ne_nil _ _
  rw [parseInt_digits hne hall (by simp [twoBytes]), digits,
    if_neg (not_or.2 ⟨hne, not_not.2 hall⟩)]
  simp only [twoBytes, List.foldl_cons, List.foldl_nil, digitByte_toNat (by omega : n / 10 < 10),
    digitByte_toNat (by omega : n % 10 < 10)]
  refine congrArg some ?_
  omega

theorem parseInt_fourBytes {n : ℕ} (hn : n < 10000) :
    parseInt (fourBytes n) = some (n : ℤ) := by
  have hall : (fourBytes n).all isDigit = true := digits_fourBytes hn
  have hne : fourBytes n ≠ [] := List.cons_ne_nil _ _
  rw [parseInt_digits hne hall (by simp [fourBytes]), digits,
    if_neg (not_or.2 ⟨hne, not_not.2 hall⟩)]
  simp only [fourBytes, List.foldl_cons, List.foldl_nil,
    digitByte_toNat (by omega : n / 1000 < 10), digitByte_toNat (by omega : n / 100 % 10 < 10),
    digitByte_toNat (by omega : n / 10 % 10 < 10), digitByte_toNat (by omega : n % 10 < 10)]
  refine congrArg some ?_
  omega

theorem field_twoBytes {n : ℕ} (hn : n < 100) (rest : Bytes) :
    field 2 (twoBytes n ++ rest) = some (n : ℤ) := by
  rw [field, if_pos (by rw [List.length_append]; exact Nat.le_add_right 2 _)]
  exact parseInt_twoBytes hn

theorem field_fourBytes {n : ℕ} (hn : n < 10000) (rest : Bytes) :
    field 4 (fourBytes n ++ rest) = some (n : ℤ) := by
  rw [field, if_pos (by rw [List.length_append]; exact Nat.le_add_right 4 _)]
  exact parseInt_fourBytes hn

/-- Two bytes that are digits are two digits. -/
theorem exists_twoBytes {t : Bytes} (hlen : t.length = 2) (hall : Digits t) :
    ∃ n < 100, t = twoBytes n := by
  obtain ⟨x, y, rfl⟩ := List.length_eq_two.1 hlen
  simp only [Digits, List.all_cons, List.all_nil, Bool.and_true, Bool.and_eq_true] at hall
  obtain ⟨a, ha, rfl⟩ := exists_digit hall.1
  obtain ⟨b, hb, rfl⟩ := exists_digit hall.2
  refine ⟨10 * a + b, by omega, ?_⟩
  have hhigh : (10 * a + b) / 10 = a := by omega
  have hlow : (10 * a + b) % 10 = b := by omega
  rw [twoBytes, hhigh, hlow]

/-- Four bytes that are digits are four digits. -/
theorem exists_fourBytes {t : Bytes} (hlen : t.length = 4) (hall : Digits t) :
    ∃ n < 10000, t = fourBytes n := by
  obtain ⟨x, y, z, w, rfl⟩ : ∃ x y z w, t = [x, y, z, w] := by
    match t, hlen with
    | [x, y, z, w], _ => exact ⟨x, y, z, w, rfl⟩
  simp only [Digits, List.all_cons, List.all_nil, Bool.and_true, Bool.and_eq_true] at hall
  obtain ⟨a, ha, rfl⟩ := exists_digit hall.1
  obtain ⟨b, hb, rfl⟩ := exists_digit hall.2.1
  obtain ⟨c, hc, rfl⟩ := exists_digit hall.2.2.1
  obtain ⟨d, hd, rfl⟩ := exists_digit hall.2.2.2
  refine ⟨1000 * a + 100 * b + 10 * c + d, by omega, ?_⟩
  have h₁ : (1000 * a + 100 * b + 10 * c + d) / 1000 = a := by omega
  have h₂ : (1000 * a + 100 * b + 10 * c + d) / 100 % 10 = b := by omega
  have h₃ : (1000 * a + 100 * b + 10 * c + d) / 10 % 10 = c := by omega
  have h₄ : (1000 * a + 100 * b + 10 * c + d) % 10 = d := by omega
  rw [fourBytes, h₁, h₂, h₃, h₄]

/-! ## Offsets -/

/-- An offset that is meant: nothing follows it, its hours and minutes are numbers without a sign
and in their range, and the minutes are there as a whole or not at all. -/
def ZoneStrict (t : Bytes) : Prop :=
  match t with
  | [] => True
  | c :: rest =>
    if c = byte 'Z' ∨ c = byte 'z' then rest = []
    else Digits (rest.take 2) ∧ (field 2 rest).getD 0 ≤ 23 ∧ (rest.drop 2 = [] ∨
      (afterColon (rest.drop 2)).length = 2 ∧ Digits (afterColon (rest.drop 2)) ∧
        (field 2 (afterColon (rest.drop 2))).getD 0 ≤ 59)

/-- A field that is there and is digits is a number of two digits. -/
theorem exists_field {t : Bytes} (hfield : (field 2 t).isSome = true) (hall : Digits (t.take 2)) :
    ∃ n : ℕ, n < 100 ∧ field 2 t = some (n : ℤ) ∧ t = twoBytes n ++ t.drop 2 := by
  have hlen : 2 ≤ t.length := by
    unfold field at hfield
    split_ifs at hfield with hlen
    · exact hlen
    · exact nomatch hfield
  have htake : (t.take 2).length = 2 := by
    rw [List.length_take, Nat.min_eq_left hlen]
  obtain ⟨n, hn, hbytes⟩ := exists_twoBytes htake hall
  have hcut : t = twoBytes n ++ t.drop 2 := by
    rw [← hbytes, List.take_append_drop]
  refine ⟨n, hn, ?_, hcut⟩
  rw [hcut]
  exact field_twoBytes hn _

theorem afterColon_twoBytes {n : ℕ} (hn : n < 100) : afterColon (twoBytes n) = twoBytes n := by
  have hcolon : ∀ d < 10, digitByte d ≠ byte ':' := by decide
  refine if_neg fun h => ?_
  exact hcolon _ (by omega : n / 10 < 10) (Option.some.inj h)

theorem textBytes_signChar (west : Bool) (s : List Char) :
    textBytes (signChar west :: s) = byte (signChar west) :: textBytes s :=
  textBytes_cons (by cases west <;> decide) s

theorem signChar_mem (west : Bool) :
    byte (signChar west) = byte '+' ∨ byte (signChar west) = byte '-' := by
  cases west <;> decide

theorem signChar_ne (west : Bool) :
    ¬(byte (signChar west) = byte 'Z' ∨ byte (signChar west) = byte 'z') := by
  cases west <;> decide

theorem signChar_value (west : Bool) :
    (if byte (signChar west) = byte '+' then (1 : ℤ) else -1) = if west then -1 else 1 := by
  cases west <;> decide

/-- The bytes of the offsets that have minutes. -/
theorem textBytes_minutes (west colon : Bool) (h : Fin 24) (m : Fin 60) :
    textBytes (Zone.minutes west colon h m).text = byte (signChar west) ::
      (twoBytes h ++ ((if colon then [byte ':'] else []) ++ twoBytes m)) := by
  have hcolon : textBytes (if colon then [':'] else []) =
      if colon then [byte ':'] else [] := by
    cases colon
    · rfl
    · exact textBytes_cons (by decide) []
  rw [Zone.text, List.cons_append, List.cons_append, textBytes_signChar, textBytes_append,
    textBytes_append, textBytes_twoDigits (by omega), textBytes_twoDigits (by omega), hcolon,
    List.append_assoc]

/-- The offsets of the grammar are taken and meant, and they are what they say. -/
theorem zone_text (z : Zone) : ZoneTakes (textBytes z.text) ∧ ZoneStrict (textBytes z.text) ∧
    zoneShift (textBytes z.text) = z.east * 1000 := by
  cases z with
  | bare => exact ⟨trivial, trivial, rfl⟩
  | utc lower =>
    cases lower
    · exact ⟨.inl rfl, rfl, rfl⟩
    · exact ⟨.inr (.inl rfl), rfl, rfl⟩
  | hours west h =>
    have hbytes : textBytes (Zone.hours west h).text = byte (signChar west) :: twoBytes h := by
      rw [Zone.text, textBytes_signChar, textBytes_twoDigits (by omega)]
    have hfield : field 2 (twoBytes h) = some ((h : ℕ) : ℤ) := parseInt_twoBytes (by omega)
    rw [hbytes, ZoneTakes, ZoneStrict, zoneShift, hfield, if_neg (signChar_ne west),
      if_neg (signChar_ne west), signChar_value]
    refine ⟨.inr (.inr ⟨signChar_mem west, rfl⟩), ⟨digits_twoBytes (by omega), ?_, .inl rfl⟩, ?_⟩
    · rw [Option.getD_some]
      omega
    · have hnone : (field 2 (afterColon ((twoBytes h).drop 2))).getD 0 = 0 := rfl
      rw [hnone, Option.getD_some, Zone.east, Int.zero_mul, Int.add_zero]
  | minutes west colon h m =>
    have hfield := field_twoBytes (by omega : (h : ℕ) < 100)
      ((if colon then [byte ':'] else []) ++ twoBytes m)
    have hdrop : (twoBytes h ++ ((if colon then [byte ':'] else []) ++ twoBytes m)).drop 2 =
        (if colon then [byte ':'] else []) ++ twoBytes m := rfl
    have hafter : afterColon ((if colon then [byte ':'] else []) ++ twoBytes m) =
        twoBytes m := by
      cases colon
      · exact afterColon_twoBytes (by omega)
      · rfl
    have hminutes : field 2 (twoBytes m) = some ((m : ℕ) : ℤ) := parseInt_twoBytes (by omega)
    rw [textBytes_minutes, ZoneTakes, ZoneStrict, zoneShift, hfield, hdrop, hafter, hminutes,
      if_neg (signChar_ne west), if_neg (signChar_ne west), signChar_value]
    refine ⟨.inr (.inr ⟨signChar_mem west, rfl⟩), ⟨digits_twoBytes (by omega), ?_,
      .inr ⟨rfl, digits_twoBytes (by omega), ?_⟩⟩, ?_⟩
    · rw [Option.getD_some]
      omega
    · rw [Option.getD_some]
      omega
    · rw [Option.getD_some, Option.getD_some, Zone.east]

/-- An offset that is taken and meant is one of the grammar. -/
theorem exists_zone {t : Bytes} (htakes : ZoneTakes t) (hstrict : ZoneStrict t) :
    ∃ z : Zone, t = textBytes z.text := by
  cases t with
  | nil => exact ⟨.bare, rfl⟩
  | cons c rest =>
    rw [ZoneTakes, ← or_assoc] at htakes
    rw [ZoneStrict] at hstrict
    split_ifs at hstrict with hzulu
    · rw [hstrict]
      rcases hzulu with rfl | rfl
      · exact ⟨.utc false, rfl⟩
      · exact ⟨.utc true, rfl⟩
    · obtain ⟨hsign, hsome⟩ := htakes.resolve_left hzulu
      obtain ⟨west, rfl⟩ : ∃ west, c = byte (signChar west) := by
        rcases hsign with rfl | rfl
        · exact ⟨false, rfl⟩
        · exact ⟨true, rfl⟩
      obtain ⟨hall, hle, hminutes⟩ := hstrict
      obtain ⟨h, hh, hfield, hrest⟩ := exists_field hsome hall
      rw [hfield, Option.getD_some] at hle
      rcases hminutes with hnil | ⟨hlen, hdigits, hmax⟩
      · refine ⟨.hours west ⟨h, by omega⟩, ?_⟩
        rw [Zone.text, textBytes_signChar, textBytes_twoDigits (by omega), hrest, hnil,
          List.append_nil]
      · obtain ⟨m, hm, hbytes⟩ := exists_twoBytes hlen hdigits
        have hvalue : field 2 (afterColon (rest.drop 2)) = some (m : ℤ) := by
          rw [hbytes]
          exact parseInt_twoBytes hm
        rw [hvalue, Option.getD_some] at hmax
        obtain ⟨colon, hcolon⟩ : ∃ colon : Bool,
            rest.drop 2 = (if colon then [byte ':'] else []) ++ afterColon (rest.drop 2) := by
          unfold afterColon
          split_ifs with hhead
          · exact ⟨true, (List.eq_cons_of_mem_head? (Option.mem_def.2 hhead))⟩
          · exact ⟨false, rfl⟩
        refine ⟨.minutes west colon ⟨h, by omega⟩ ⟨m, by omega⟩, ?_⟩
        rw [textBytes_minutes, hrest, hcolon, hbytes]

/-! ## Fractions -/

/-- The text of a fraction, as bytes. -/
def fractionBytes (fs : List (Fin 10)) : Bytes :=
  if fs = [] then [] else byte '.' :: fs.map fun d : Fin 10 => digitByte d

theorem textBytes_digits (fs : List (Fin 10)) :
    textBytes (fs.map fun d : Fin 10 => digitChar d) = fs.map fun d : Fin 10 => digitByte d := by
  induction fs with
  | nil => rfl
  | cons d fs ih =>
    rw [List.map_cons, List.map_cons, textBytes_cons (digitChar_ascii d.isLt), ih]
    rfl

theorem textBytes_fraction (fs : List (Fin 10)) :
    textBytes (fractionText fs) = fractionBytes fs := by
  unfold fractionText fractionBytes
  split_ifs
  · rfl
  · rw [textBytes_cons (by decide), textBytes_digits]

/-- An offset begins with no digit and with no dot. -/
theorem zone_head (z : Zone) {x : UInt8} (h : (textBytes z.text).head? = some x) :
    isDigit x = false ∧ x ≠ byte '.' := by
  cases z with
  | bare => exact nomatch h
  | utc lower =>
    cases lower
    · cases h
      decide
    · cases h
      decide
  | hours west m =>
    rw [Zone.text, textBytes_signChar] at h
    cases h
    cases west <;> decide
  | minutes west colon m n =>
    rw [textBytes_minutes] at h
    cases h
    cases west <;> decide

/-- A fraction is read up to the offset. -/
theorem fraction_append (fs : List (Fin 10)) {z : Bytes}
    (hz : ∀ x, z.head? = some x → isDigit x = false ∧ x ≠ byte '.') :
    fraction (fractionBytes fs ++ z) = (fs.map fun d : Fin 10 => digitByte d) ∧
      afterFraction (fractionBytes fs ++ z) = z := by
  by_cases hnil : fs = []
  · have hdot : z.head? ≠ some (byte '.') := fun h => (hz _ h).2 rfl
    have hbytes : fractionBytes fs = [] := if_pos hnil
    rw [hbytes, hnil, List.nil_append, fraction, afterFraction, if_neg hdot, if_neg hdot]
    exact ⟨rfl, rfl⟩
  · have hall : ∀ x ∈ fs.map (fun d : Fin 10 => digitByte d), isDigit x = true := by
      rw [List.forall_mem_map]
      exact fun d _ => isDigit_digitByte d.isLt
    have htake : z.takeWhile isDigit = [] := by
      cases z with
      | nil => rfl
      | cons x z => exact List.takeWhile_cons_of_neg (by rw [(hz x rfl).1]; decide)
    have hdrop : z.dropWhile isDigit = z := by
      cases z with
      | nil => rfl
      | cons x z => exact List.dropWhile_cons_of_neg (by rw [(hz x rfl).1]; decide)
    rw [fractionBytes, if_neg hnil, List.cons_append, fraction, afterFraction, List.head?_cons,
      if_pos rfl, if_pos rfl, List.tail_cons, List.takeWhile_append_of_pos hall,
      List.dropWhile_append_of_pos hall, htake, hdrop, List.append_nil]
    exact ⟨rfl, rfl⟩

theorem decimal_mem (fs : List (Fin 10)) : 0 ≤ decimal fs ∧ decimal fs < 1 := by
  induction fs with
  | nil => exact ⟨le_rfl, one_pos⟩
  | cons d fs ih =>
    have hd : ((d : ℕ) : ℚ) ≤ 9 := by
      exact_mod_cast Nat.lt_succ_iff.1 d.isLt
    have hpos : (0 : ℚ) ≤ ((d : ℕ) : ℚ) := Nat.cast_nonneg _
    rw [decimal]
    constructor
    · linarith [ih.1]
    · linarith [ih.2]

theorem decimal_zeros (fs : List (Fin 10)) (k : ℕ) :
    decimal (fs ++ List.replicate k 0) = decimal fs := by
  induction fs with
  | nil =>
    induction k with
    | zero => rfl
    | succ k ih =>
      have hcons : decimal (0 :: List.replicate k 0) =
          (((0 : Fin 10) : ℕ) + decimal (List.replicate k 0)) / 10 := rfl
      rw [List.nil_append] at ih ⊢
      rw [List.replicate_succ, hcons, ih]
      simp [decimal]
  | cons d fs ih => rw [List.cons_append, decimal, ih, decimal]

/-- The first three digits of a fraction are its milliseconds, rounded down. -/
theorem parseInt_fraction (fs : List (Fin 10)) :
    parseInt (((fs.map fun d : Fin 10 => digitByte d) ++ List.replicate 3 (byte '0')).take 3) =
      some ⌊1000 * decimal fs⌋ := by
  obtain ⟨a, b, c, rest, hpad⟩ : ∃ a b c rest, fs ++ List.replicate 3 0 = a :: b :: c :: rest := by
    match fs with
    | [] => exact ⟨0, 0, 0, [], rfl⟩
    | [a] => exact ⟨a, 0, 0, [0], rfl⟩
    | [a, b] => exact ⟨a, b, 0, [0, 0], rfl⟩
    | a :: b :: c :: rest => exact ⟨a, b, c, rest ++ List.replicate 3 0, rfl⟩
  have hbytes : (fs.map fun d : Fin 10 => digitByte d) ++ List.replicate 3 (byte '0') =
      digitByte a :: digitByte b :: digitByte c :: rest.map fun d : Fin 10 => digitByte d := by
    have hzeros : List.replicate 3 (byte '0') =
        (List.replicate 3 (0 : Fin 10)).map fun d : Fin 10 => digitByte d := by decide
    rw [hzeros, ← List.map_append, hpad]
    rfl
  have hall : [digitByte a, digitByte b, digitByte c].all isDigit = true := by
    simp [isDigit_digitByte a.isLt, isDigit_digitByte b.isLt, isDigit_digitByte c.isLt]
  have hfloor : ⌊1000 * decimal fs⌋ = 100 * (a : ℕ) + 10 * (b : ℕ) + (c : ℕ) := by
    obtain ⟨hpos, hlt⟩ := decimal_mem rest
    have hsplit : 1000 * decimal (a :: b :: c :: rest) =
        ((100 * (a : ℕ) + 10 * (b : ℕ) + (c : ℕ) : ℤ) : ℚ) + decimal rest := by
      simp only [decimal]
      push_cast
      ring
    rw [← decimal_zeros fs 3, hpad, hsplit, Int.floor_eq_iff]
    constructor
    · linarith
    · linarith
  rw [hbytes, List.take_succ_cons, List.take_succ_cons, List.take_succ_cons, List.take_zero,
    parseInt_digits (by simp) hall (by simp), digits, if_neg (not_or.2 ⟨by simp, not_not.2 hall⟩),
    hfloor]
  simp only [List.foldl_cons, List.foldl_nil, digitByte_toNat a.isLt, digitByte_toNat b.isLt,
    digitByte_toNat c.isLt]
  refine congrArg some ?_
  omega

theorem fractionMs_append (fs : List (Fin 10)) {z : Bytes}
    (hz : ∀ x, z.head? = some x → isDigit x = false ∧ x ≠ byte '.') :
    fractionMs (fractionBytes fs ++ z) = ⌊1000 * decimal fs⌋ := by
  rw [fractionMs, (fraction_append fs hz).1, parseInt_fraction, Option.getD_some]
  split_ifs with hnil
  · rw [List.map_eq_nil_iff.1 hnil, decimal, mul_zero, Int.floor_zero]
  · rfl

/-- Bytes that are digits are digits. -/
theorem exists_digits {t : Bytes} (hall : Digits t) :
    ∃ fs : List (Fin 10), t = fs.map fun d : Fin 10 => digitByte d := by
  induction t with
  | nil => exact ⟨[], rfl⟩
  | cons x t ih =>
    rw [Digits, List.all_cons, Bool.and_eq_true] at hall
    obtain ⟨n, hn, rfl⟩ := exists_digit hall.1
    obtain ⟨fs, rfl⟩ := ih hall.2
    exact ⟨⟨n, hn⟩ :: fs, rfl⟩

/-- A text is a fraction and what follows it, where a dot is followed by a digit. -/
theorem exists_fraction {t : Bytes} (hdot : t.head? = some (byte '.') → fraction t ≠ []) :
    ∃ fs : List (Fin 10), t = fractionBytes fs ++ afterFraction t := by
  unfold afterFraction
  split_ifs with hhead
  · have hne := hdot hhead
    obtain ⟨fs, hfs⟩ := exists_digits (fraction_all t)
    refine ⟨fs, ?_⟩
    have hfsne : fs ≠ [] := by
      rintro rfl
      exact hne hfs
    rw [fractionBytes, if_neg hfsne, ← hfs, fraction, if_pos hhead, List.cons_append,
      List.takeWhile_append_dropWhile]
    exact List.eq_cons_of_mem_head? (Option.mem_def.2 hhead)
  · exact ⟨[], rfl⟩

/-! ## Times of day -/

/-- A time of day that is meant: its numbers have no signs and are in their ranges, a dot is
followed by a digit, and the offset is meant. -/
structure ClockStrict (t : Bytes) : Prop where
  hour : Digits (t.take 2)
  minute : Digits ((t.drop 3).take 2)
  second : Digits ((t.drop 6).take 2)
  hour_le : (field 2 t).getD 0 ≤ 23
  minute_le : (field 2 (t.drop 3)).getD 0 ≤ 59
  second_le : (field 2 (t.drop 6)).getD 0 ≤ 59
  fraction : (t.drop 8).head? = some (byte '.') → Migrate.fraction (t.drop 8) ≠ []
  zone : ZoneStrict (afterFraction (t.drop 8))

/-- The bytes of a time of day, after its first character. -/
def clockBytes (h m s : ℕ) (t : Bytes) : Bytes :=
  twoBytes h ++ byte ':' :: (twoBytes m ++ byte ':' :: (twoBytes s ++ t))

theorem textBytes_clock (c : Clock) : textBytes c.text = byte (if c.blank then ' ' else 'T') ::
    clockBytes c.hour c.minute c.second (fractionBytes c.fraction ++ textBytes c.zone.text) := by
  have hhour := textBytes_twoDigits (by omega : (c.hour : ℕ) < 100)
  have hminute := textBytes_twoDigits (by omega : (c.minute : ℕ) < 100)
  have hsecond := textBytes_twoDigits (by omega : (c.second : ℕ) < 100)
  have hfirst : (if c.blank then ' ' else 'T').toNat < 128 := by
    split_ifs <;> decide
  simp only [Clock.text, List.cons_append, List.append_assoc]
  rw [textBytes_cons hfirst, textBytes_append, textBytes_cons (by decide), textBytes_append,
    textBytes_cons (by decide), textBytes_append, textBytes_append, hhour, hminute, hsecond,
    textBytes_fraction]
  rfl

/-- The times of the grammar are taken and meant, and they are what they say. -/
theorem clock_text (c : Clock) {t : Bytes} (ht : t = clockBytes c.hour c.minute c.second
    (fractionBytes c.fraction ++ textBytes c.zone.text)) :
    ClockTakes t ∧ ClockStrict t ∧ clockMs t = ⌊1000 * c.seconds⌋ := by
  obtain ⟨hztakes, hzstrict, hshift⟩ := zone_text c.zone
  obtain ⟨hfrac, hafter⟩ := fraction_append c.fraction fun x => zone_head c.zone
  have hms := fractionMs_append c.fraction fun x => zone_head c.zone
  have hhour : field 2 t = some ((c.hour : ℕ) : ℤ) := by
    rw [ht]
    exact field_twoBytes (by omega) _
  have hminute : field 2 (t.drop 3) = some ((c.minute : ℕ) : ℤ) := by
    rw [ht]
    exact field_twoBytes (by omega) _
  have hsecond : field 2 (t.drop 6) = some ((c.second : ℕ) : ℤ) := by
    rw [ht]
    exact field_twoBytes (by omega) _
  have hrest : t.drop 8 = fractionBytes c.fraction ++ textBytes c.zone.text := by
    rw [ht]
    rfl
  refine ⟨⟨?_, ?_, ?_, by rw [hhour]; rfl, by rw [hminute]; rfl, by rw [hsecond]; rfl, ?_⟩,
    ⟨?_, ?_, ?_, ?_, ?_, ?_, ?_, ?_⟩, ?_⟩
  · rw [ht]
    simp [clockBytes, twoBytes]
  · rw [ht]
    rfl
  · rw [ht]
    rfl
  · rw [hrest, hafter]
    exact hztakes
  · rw [ht]
    exact digits_twoBytes (by omega)
  · rw [ht]
    exact digits_twoBytes (by omega)
  · rw [ht]
    exact digits_twoBytes (by omega)
  · rw [hhour, Option.getD_some]
    omega
  · rw [hminute, Option.getD_some]
    omega
  · rw [hsecond, Option.getD_some]
    omega
  · rw [hrest, hfrac]
    intro hdot hnil
    rw [List.map_eq_nil_iff.1 hnil] at hdot
    exact (zone_head c.zone hdot).2 rfl
  · rw [hrest, hafter]
    exact hzstrict
  · have hsplit : 1000 * c.seconds = 1000 * decimal c.fraction +
        (((c.hour * 3600 + c.minute * 60 + c.second : ℕ) * 1000 - c.zone.east * 1000 : ℤ) : ℚ) := by
      rw [Clock.seconds]
      push_cast
      ring
    rw [clockMs, hhour, hminute, hsecond, hrest, hafter, hms, hshift, hsplit,
      Int.floor_add_intCast]
    simp only [Option.getD_some]
    push_cast
    ring

theorem drop_cons {t : Bytes} {i : ℕ} {x : UInt8} (h : t[i]? = some x) :
    t.drop i = x :: t.drop (i + 1) := by
  obtain ⟨hi, rfl⟩ := List.getElem?_eq_some_iff.1 h
  exact List.drop_eq_getElem_cons hi

/-- A time that is taken and meant is one of the grammar. -/
theorem exists_clock {t : Bytes} (htakes : ClockTakes t) (hstrict : ClockStrict t)
    (blank : Bool) : ∃ c : Clock, c.blank = blank ∧ t = clockBytes c.hour c.minute c.second
      (fractionBytes c.fraction ++ textBytes c.zone.text) := by
  obtain ⟨hlen, hfirst, hsecond, hh, hmi, hsec, hzone⟩ := htakes
  obtain ⟨h, hh, hhour, hrest⟩ := exists_field hh hstrict.hour
  obtain ⟨mi, hmi, hminute, hrest'⟩ := exists_field hmi hstrict.minute
  obtain ⟨sec, hsec, hsecs, hrest''⟩ := exists_field hsec hstrict.second
  obtain ⟨fs, hfs⟩ := exists_fraction hstrict.fraction
  obtain ⟨z, hz⟩ := exists_zone hzone hstrict.zone
  have hhour_le := hstrict.hour_le
  have hminute_le := hstrict.minute_le
  have hsecond_le := hstrict.second_le
  rw [hhour, Option.getD_some] at hhour_le
  rw [hminute, Option.getD_some] at hminute_le
  rw [hsecs, Option.getD_some] at hsecond_le
  refine ⟨⟨blank, ⟨h, by omega⟩, ⟨mi, by omega⟩, ⟨sec, by omega⟩, fs, z⟩, rfl, ?_⟩
  have hcolon : t.drop 2 = byte ':' :: t.drop 3 := drop_cons hfirst
  have hcolon' : t.drop 5 = byte ':' :: t.drop 6 := drop_cons hsecond
  rw [List.drop_drop] at hrest' hrest''
  rw [clockBytes, ← hz, ← hfs, ← hrest'', ← hcolon', ← hrest', ← hcolon, ← hrest]

/-! ## Timestamps -/

/-- The rest that is meant: nothing, or a time of day. -/
def RestStrict (t : Bytes) : Prop :=
  t = [] ∨ (t.head? = some (byte 'T') ∨ t.head? = some (byte ' ')) ∧ ClockStrict t.tail

/-- A text that is meant: its numbers have no signs and are in their ranges, and it goes on
neither after a date with anything but a time of day, nor after an offset. -/
structure Strict (b : Bytes) : Prop where
  year : Digits (b.take 4)
  month : Digits ((b.drop 5).take 2)
  day : Digits ((b.drop 8).take 2)
  day_le : (field 2 (b.drop 8)).getD 0 ≤
    daysInMonth ((field 4 b).getD 0) ((field 2 (b.drop 5)).getD 0)
  rest : RestStrict (b.drop 10)

/-- The bytes of a date and of what follows it. -/
def stampBytes (y m d : ℕ) (t : Bytes) : Bytes :=
  fourBytes y ++ byte '-' :: (twoBytes m ++ byte '-' :: (twoBytes d ++ t))

theorem stamp_ranges (st : Stamp) : st.date.year.toNat < 10000 ∧ st.date.month.toNat < 100 ∧
    st.date.day.toNat < 100 := by
  have hyear := st.year_le
  have hmonth := st.date.month_le
  have hday := st.date.day_le.trans (daysInMonth_le _ _)
  omega

theorem textBytes_stamp (st : Stamp) : textBytes st.text =
    stampBytes st.date.year.toNat st.date.month.toNat st.date.day.toNat
      (textBytes ((st.clock.map Clock.text).getD [])) := by
  obtain ⟨hyear, hmonth, hday⟩ := stamp_ranges st
  simp only [Stamp.text, List.append_assoc, List.cons_append]
  rw [textBytes_append, textBytes_cons (by decide), textBytes_append,
    textBytes_cons (by decide), textBytes_append, textBytes_fourDigits hyear,
    textBytes_twoDigits hmonth, textBytes_twoDigits hday]
  rfl

/-- What follows a date in the grammar is taken and meant, and it is what it says. -/
theorem rest_text (clock : Option Clock) {t : Bytes}
    (ht : t = textBytes ((clock.map Clock.text).getD [])) : RestTakes t ∧ RestStrict t ∧
      restMs t = ⌊1000 * (clock.map Clock.seconds).getD 0⌋ := by
  cases clock with
  | none =>
    have hnil : t = [] := ht
    have hzero : ⌊1000 * ((none : Option Clock).map Clock.seconds).getD 0⌋ = 0 := by
      rw [Option.map_none, Option.getD_none, mul_zero, Int.floor_zero]
    rw [hnil, hzero]
    exact ⟨fun h => h.elim nofun nofun, .inl rfl, rfl⟩
  | some c =>
    rw [Option.map_some, Option.getD_some, textBytes_clock] at ht
    obtain ⟨htakes, hstrict, hms⟩ := clock_text c rfl
    have hhead : t.head? = some (byte 'T') ∨ t.head? = some (byte ' ') := by
      rw [ht]
      cases c.blank
      · exact .inl rfl
      · exact .inr rfl
    rw [RestTakes, RestStrict, restMs, if_pos hhead, ht, List.tail_cons]
    rw [ht] at hhead
    exact ⟨fun _ => htakes, .inr ⟨hhead, hstrict⟩, hms⟩

/-- The timestamps of the grammar are taken and meant, and they are what they say. -/
theorem stamp_text (st : Stamp) {b : Bytes} (hb : b = textBytes st.text) :
    Takes b ∧ Strict b ∧ textMs b = ⌊1000 * st.instant⌋ := by
  obtain ⟨hyears, hmonths, hdays⟩ := stamp_ranges st
  have hyear_pos := st.year_nonneg
  have hmonth_pos := st.date.month_pos
  have hmonth_le := st.date.month_le
  have hday_pos := st.date.day_pos
  have hday_le := st.date.day_le
  have hday_max := hday_le.trans (daysInMonth_le _ _)
  rw [textBytes_stamp] at hb
  have hrest : b.drop 10 = textBytes ((st.clock.map Clock.text).getD []) := by
    rw [hb]
    rfl
  obtain ⟨htakes, hstrict, hms⟩ := rest_text st.clock hrest
  have hyear : field 4 b = some st.date.year := by
    rw [← Int.toNat_of_nonneg hyear_pos, hb]
    exact field_fourBytes hyears _
  have hmonth : field 2 (b.drop 5) = some st.date.month := by
    rw [← Int.toNat_of_nonneg (by omega : 0 ≤ st.date.month), hb]
    exact field_twoBytes hmonths _
  have hday : field 2 (b.drop 8) = some st.date.day := by
    rw [← Int.toNat_of_nonneg (by omega : 0 ≤ st.date.day), hb]
    exact field_twoBytes hdays _
  refine ⟨⟨?_, ?_, ?_, by rw [hyear]; rfl, ?_, ?_, htakes⟩, ⟨?_, ?_, ?_, ?_, hstrict⟩, ?_⟩
  · rw [hb]
    simp [stampBytes, fourBytes, twoBytes]
  · rw [hb]
    rfl
  · rw [hb]
    rfl
  · rw [hmonth]
    exact ⟨hmonth_pos, hmonth_le⟩
  · rw [hday]
    exact ⟨hday_pos, hday_max⟩
  · rw [hb]
    exact digits_fourBytes hyears
  · rw [hb]
    exact digits_twoBytes hmonths
  · rw [hb]
    exact digits_twoBytes hdays
  · rw [hyear, hmonth, hday]
    exact hday_le
  · have hdate : dateDays b = st.date.toDays := by
      rw [dateDays, hyear, hmonth, hday]
      rfl
    have hsplit : 1000 * st.instant = 1000 * (st.clock.map Clock.seconds).getD 0 +
        ((st.date.toDays * 86400000 : ℤ) : ℚ) := by
      rw [Stamp.instant]
      push_cast
      ring
    rw [textMs, hdate, hms, hsplit, Int.floor_add_intCast, Int.add_comm]

/-- What follows a date, where it is taken and meant, is of the grammar. -/
theorem exists_rest {t : Bytes} (htakes : RestTakes t) (hstrict : RestStrict t) :
    ∃ clock : Option Clock, t = textBytes ((clock.map Clock.text).getD []) := by
  rcases hstrict with rfl | ⟨hhead, hstrict⟩
  · exact ⟨none, rfl⟩
  · have hclock := htakes hhead
    obtain ⟨blank, hfirst⟩ : ∃ blank : Bool,
        t.head? = some (byte (if blank then ' ' else 'T')) := by
      rcases hhead with h | h
      · exact ⟨false, h⟩
      · exact ⟨true, h⟩
    obtain ⟨c, hblank, hbytes⟩ := exists_clock hclock hstrict blank
    refine ⟨some c, ?_⟩
    rw [Option.map_some, Option.getD_some, textBytes_clock, ← hbytes, hblank]
    exact List.eq_cons_of_mem_head? (Option.mem_def.2 hfirst)

/-- A text that is taken and meant is a timestamp of the grammar. -/
theorem exists_stamp {b : Bytes} (htakes : Takes b) (hstrict : Strict b) :
    ∃ st : Stamp, b = textBytes st.text := by
  have hmonths := htakes.month
  have hdays := htakes.day
  have hday_le := hstrict.day_le
  obtain ⟨y, hy, hyear, hcut⟩ : ∃ y : ℕ, y < 10000 ∧ field 4 b = some (y : ℤ) ∧
      b = fourBytes y ++ b.drop 4 := by
    have hlen := htakes.long
    obtain ⟨y, hy, hbytes⟩ := exists_fourBytes (t := b.take 4)
      (by rw [List.length_take]; omega) hstrict.year
    have hcut : b = fourBytes y ++ b.drop 4 := by
      rw [← hbytes, List.take_append_drop]
    refine ⟨y, hy, ?_, hcut⟩
    rw [hcut]
    exact field_fourBytes hy _
  have hsome : ∀ t : Bytes, 1 ≤ (field 2 t).getD 0 → (field 2 t).isSome = true := by
    intro t hpos
    cases hfield : field 2 t with
    | none =>
      rw [hfield] at hpos
      exact absurd hpos (by decide)
    | some n => rfl
  obtain ⟨m, hm, hmonth, hcut'⟩ := exists_field (hsome _ hmonths.1) hstrict.month
  obtain ⟨d, hd, hday, hcut''⟩ := exists_field (hsome _ hdays.1) hstrict.day
  obtain ⟨clock, hclock⟩ := exists_rest htakes.rest hstrict.rest
  rw [hmonth, Option.getD_some] at hmonths
  rw [hday, Option.getD_some] at hdays
  rw [hyear, hmonth, hday, Option.getD_some, Option.getD_some, Option.getD_some] at hday_le
  refine ⟨⟨⟨y, m, d, hmonths.1, hmonths.2, hdays.1, hday_le⟩, Int.natCast_nonneg y, ?_, clock⟩, ?_⟩
  · exact Int.ofNat_le.2 (Nat.lt_succ_iff.1 hy)
  · have hdash : b.drop 4 = byte '-' :: b.drop 5 := drop_cons htakes.first
    have hdash' : b.drop 7 = byte '-' :: b.drop 8 := drop_cons htakes.second
    rw [List.drop_drop] at hcut' hcut''
    rw [textBytes_stamp]
    simp only [Int.toNat_natCast]
    rw [stampBytes, ← hclock, ← hcut'', ← hdash', ← hcut', ← hdash, ← hcut]

/-- A text is known by its bytes. -/
theorem textBytes_injective : Function.Injective textBytes := by
  intro s t h
  refine String.ofList_injective (String.toByteArray_inj.1 ?_)
  rw [String.toByteArray_ofList, String.toByteArray_ofList]
  exact congrArg List.toByteArray h

/-- The texts of which the parser is right: those it does not take, and those that are meant. -/
def Meant (s : List Char) : Prop :=
  Takes (textBytes (Authz.trim s)) → Strict (textBytes (Authz.trim s))

/-- **The parser never panics; it is right on exactly the texts that it does not take or that are
meant, where it returns the milliseconds of the instant the text names; and a later instant is
never before an earlier one.** -/
theorem iso8601ToMs_exact (s : List Char) :
    iso8601ToMs s ≠ .error .panic ∧
      ((∀ v, iso8601ToMs s = .ok v ↔
        ∃ st : Stamp, Authz.trim s = st.text ∧ v = ⌊1000 * st.instant⌋) ↔ Meant s) ∧
      ∀ s' v v' st st', Authz.trim s = Stamp.text st → Authz.trim s' = Stamp.text st' →
        iso8601ToMs s = .ok v → iso8601ToMs s' = .ok v' → st.instant ≤ st'.instant → v ≤ v' := by
  classical
  have hok : ∀ s v, iso8601ToMs s = .ok v ↔ Takes (textBytes (Authz.trim s)) ∧
      v = textMs (textBytes (Authz.trim s)) := by
    intro s v
    rw [iso8601ToMs_eq]
    split_ifs with htakes
    · rw [Except.ok.injEq, and_iff_right htakes]
      exact eq_comm
    · exact ⟨nofun, fun h => absurd h.1 htakes⟩
  refine ⟨?_, ⟨fun hright htakes => ?_, fun hmeant v => ⟨fun h => ?_, ?_⟩⟩, ?_⟩
  · rw [iso8601ToMs_eq]
    split_ifs <;> exact fun h => nomatch h
  · obtain ⟨st, htext, -⟩ := (hright _).1 ((hok s _).2 ⟨htakes, rfl⟩)
    exact (stamp_text st (congrArg textBytes htext)).2.1
  · obtain ⟨htakes, rfl⟩ := (hok s v).1 h
    obtain ⟨st, hbytes⟩ := exists_stamp htakes (hmeant htakes)
    exact ⟨st, textBytes_injective hbytes, (stamp_text st hbytes).2.2⟩
  · rintro ⟨st, htext, rfl⟩
    obtain ⟨htakes, -, hms⟩ := stamp_text st (congrArg textBytes htext)
    exact (hok s _).2 ⟨htakes, hms.symm⟩
  · intro s' v v' st st' htext htext' hv hv' hle
    rw [((hok s v).1 hv).2, ((hok s' v').1 hv').2,
      (stamp_text st (congrArg textBytes htext)).2.2,
      (stamp_text st' (congrArg textBytes htext')).2.2]
    exact Int.floor_le_floor (mul_le_mul_of_nonneg_left hle (by norm_num))

/-- Midnight in UTC, and half a second past midnight seven hours west of it. -/
theorem iso8601ToMs_exact_offset :
    (∃ st : Stamp, Authz.trim "2024-01-01T00:00:00.5-07:00".toList = st.text ∧
        1704092400500 = ⌊1000 * st.instant⌋) ∧ (1704067200000 : ℤ) ≤ 1704092400500 := by
  let newYear : Date := ⟨2024, 1, 1, by decide, by decide, by decide, by decide⟩
  let midnight : Stamp := ⟨newYear, by decide, by decide, none⟩
  let later : Stamp := ⟨newYear, by decide, by decide,
    some ⟨false, 0, 0, 0, [5], .minutes true true 7 0⟩⟩
  have hmidnight : Authz.trim "2024-01-01".toList = midnight.text := by decide
  have hlater : Authz.trim "2024-01-01T00:00:00.5-07:00".toList = later.text := by decide
  have hmeant : Meant "2024-01-01T00:00:00.5-07:00".toList := fun _ =>
    (stamp_text later (congrArg textBytes hlater)).2.1
  have hms : iso8601ToMs "2024-01-01T00:00:00.5-07:00".toList = .ok 1704092400500 := by decide
  have hle : midnight.instant ≤ later.instant := by
    have hnone : midnight.instant = newYear.toDays * 86400 + 0 := rfl
    have heast : (Zone.minutes true true 7 0).east = -25200 := by decide
    rw [hnone, Stamp.instant]
    simp [later, Clock.seconds, heast, decimal]
    norm_num
  exact ⟨((iso8601ToMs_exact _).2.1.2 hmeant _).1 hms,
    (iso8601ToMs_exact _).2.2 _ _ _ _ _ hmidnight hlater (by decide) hms hle⟩

/-- A day that February does not have is taken for one of March. -/
theorem february_thirty_first :
    ¬∀ s v, iso8601ToMs s = .ok v ↔
      ∃ st : Stamp, Authz.trim s = st.text ∧ v = ⌊1000 * st.instant⌋ := by
  intro h
  have hms : iso8601ToMs "2024-02-31".toList = .ok 1709337600000 := by decide
  obtain ⟨st, htext, -⟩ := (h _ _).1 hms
  have hday_le := (stamp_text st (congrArg textBytes htext)).2.1.day_le
  revert hday_le
  decide

end Deja.Migrate
