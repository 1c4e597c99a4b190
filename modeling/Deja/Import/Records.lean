import Deja.Lib.Machine
import Deja.Store.Bundle

/-!
# Bundles: the record loop

`import_bundle_until` walks over the bytes of a file with an index, and every access can
panic.  None does: each round reads a record and moves on past it, what is read is what the
bytes encode, and whatever `bundle_since` writes is read back.
-/

namespace Deja

open Machine

/-! ## The loop -/

/-- A file in memory: a `Vec` holds at most `isize::MAX` bytes. -/
structure FileBytes where
  bytes : Bytes
  length_le : bytes.length ≤ 9223372036854775807

/-- `Hash::try_from_bytes(..)?`. -/
def hashOf (b : Bytes) : Compute DejaDbError Hash :=
  match Hash.tryFromBytes b with
  | some hash => .ok hash
  | none => .error (.ret (.format ("hash requires 32 bytes, got " ++ toString b.length)))

/-- One round of the loop: the record at an index and the index after it. -/
def readRecord (data : Bytes) (i : ℕ) : Compute DejaDbError (BundleRecord × ℕ) := do
  let head ← addUsize (← addUsize (← addUsize (← addUsize i 1) 8) 32) 4
  if data.length < head then .error (.ret (.format "truncated bundle record"))
  else do
    let op ← index data i
    let i ← addUsize i 1
    let hlc := i64FromLE (← slice data i (← addUsize i 8))
    let i ← addUsize i 8
    let hash ← hashOf (← slice data i (← addUsize i 32))
    let i ← addUsize i 32
    let len := fromLE (← slice data i (← addUsize i 4))
    let i ← addUsize i 4
    -- `checked_add`: a sum that does not fit is past the end as well
    if 18446744073709551615 < i + len ∨ data.length < i + len then
      .error (.ret (.format "truncated bundle blob"))
    else do
      let blob ← slice data i (← addUsize i len)
      let i ← addUsize i len
      .ok (⟨op, hlc, hash, blob⟩, i)

/-- The loop from an index on; `none` is a loop that runs out of rounds. -/
def recordLoop (data : Bytes) : ℕ → ℕ → Option (Compute DejaDbError (List BundleRecord))
  | rounds, i =>
    if data.length ≤ i then some (.ok [])
    else
      match rounds with
      | 0 => none
      | rounds + 1 =>
        match readRecord data i with
        | .error e => some (.error e)
        | .ok (r, j) => (recordLoop data rounds j).map fun rest => rest.map (r :: ·)

/-- The records of a file. -/
def readBundle (data : Bytes) : Option (Compute DejaDbError (List BundleRecord)) :=
  if data.length < 4 ∨ data.take 4 ≠ bundleMagic then
    some (.error (.ret (.format "not a MGB1 bundle")))
  else recordLoop data data.length 4

/-! ## Little-endian numbers -/

theorem length_toLE (n k : ℕ) : (toLE n k).length = k := by
  induction k generalizing n with
  | zero => rfl
  | succ k ih => rw [toLE, List.length_cons, ih]

theorem fromLE_lt (b : Bytes) : fromLE b < 256 ^ b.length := by
  induction b with
  | nil => exact Nat.one_pos
  | cons x b ih =>
    have hx := x.toNat_lt
    rw [fromLE, List.length_cons, Nat.pow_succ]
    omega

theorem fromLE_toLE {n k : ℕ} (h : n < 256 ^ k) : fromLE (toLE n k) = n := by
  induction k generalizing n with
  | zero =>
    rw [Nat.pow_zero] at h
    rw [toLE, fromLE]
    omega
  | succ k ih =>
    rw [Nat.pow_succ] at h
    have hbyte : (UInt8.ofNat (n % 256)).toNat = n % 256 := by
      rw [UInt8.toNat_ofNat']
      omega
    rw [toLE, fromLE, ih (by omega), hbyte]
    omega

theorem toLE_fromLE (b : Bytes) : toLE (fromLE b) b.length = b := by
  induction b with
  | nil => rfl
  | cons x b ih =>
    have hx := x.toNat_lt
    have hlow : (x.toNat + 256 * fromLE b) % 256 = x.toNat := by omega
    have hhigh : (x.toNat + 256 * fromLE b) / 256 = fromLE b := by omega
    rw [fromLE, List.length_cons, toLE, hlow, hhigh, ih, UInt8.ofNat_toNat]

theorem i64FromLE_i64ToLE {i : ℤ} (hlo : -2 ^ 63 ≤ i) (hhi : i < 2 ^ 63) :
    i64FromLE (i64ToLE i) = i := by
  have hlt : (i % 2 ^ 64).toNat < 256 ^ 8 := by omega
  rw [i64FromLE, i64ToLE, fromLE_toLE hlt]
  split_ifs <;> omega

theorem i64ToLE_i64FromLE {b : Bytes} (h : b.length = 8) : i64ToLE (i64FromLE b) = b := by
  have hlt := fromLE_lt b
  have hnat : (i64FromLE b % 2 ^ 64).toNat = fromLE b := by
    rw [h] at hlt
    unfold i64FromLE
    split_ifs <;> omega
  have hback := toLE_fromLE b
  rw [h] at hback
  rw [i64ToLE, hnat, hback]

/-! ## One round -/

theorem encodeRecord_length (r : BundleRecord) :
    (encodeRecord r).length = recordHeadBytes + r.blob.length := by
  have hhash := r.hash.length_eq
  simp only [encodeRecord, i64ToLE, List.length_cons, List.length_append, length_toLE, hhash,
    recordHeadBytes]
  omega

/-- A part of a file and what follows it. -/
theorem drop_split (data : Bytes) (i k : ℕ) :
    data.drop i = (data.drop i).take k ++ data.drop (i + k) := by
  rw [← List.drop_drop, List.take_append_drop]

theorem length_part {data : Bytes} {i k : ℕ} (h : i + k ≤ data.length) :
    ((data.drop i).take k).length = k := by
  rw [List.length_take, List.length_drop]
  omega

theorem hashOf_ok {b : Bytes} (h : b.length = 32) : hashOf b = .ok ⟨b, h⟩ := by
  rw [hashOf, Hash.tryFromBytes, dif_pos h.ge]
  simp only [List.take_of_length_le h.le]

/-- The length a record gives for its blob. -/
def blobLength (data : Bytes) (i : ℕ) : ℕ := fromLE ((data.drop (i + 41)).take 4)

/-- No access of a round panics: what is left of it is the comparison of the lengths. -/
theorem readRecord_eq {data : Bytes} (hlen : data.length ≤ 9223372036854775807) {i : ℕ}
    (hhead : i + 45 ≤ data.length) :
    readRecord data i =
      if data.length < i + 45 + blobLength data i then
        .error (.ret (.format "truncated bundle blob"))
      else .ok (⟨data[i], i64FromLE ((data.drop (i + 1)).take 8),
        ⟨(data.drop (i + 9)).take 32, length_part (by omega)⟩,
        (data.drop (i + 45)).take (blobLength data i)⟩, i + 45 + blobLength data i) := by
  have hsmall : blobLength data i < 256 ^ 4 := by
    have hlt := fromLE_lt ((data.drop (i + 41)).take 4)
    rwa [length_part (by omega)] at hlt
  unfold readRecord
  simp (disch := omega) only [addUsize_ok, index_ok, slice_ok, ok_bind, if_neg]
  simp only [Nat.add_sub_cancel_left]
  simp only [Nat.add_assoc, Nat.reduceAdd]
  have hlength : fromLE ((data.drop (i + 41)).take 4) = blobLength data i := rfl
  rw [hashOf_ok (length_part (by omega)), ok_bind, hlength]
  by_cases hend : data.length < i + (45 + blobLength data i)
  · rw [if_pos (.inr hend), if_pos hend]
  · rw [if_neg (by omega), if_neg hend]
    simp (disch := omega) only [addUsize_ok, slice_ok, ok_bind, Nat.add_assoc]
    have hblob : i + (45 + blobLength data i) - (i + 45) = blobLength data i := by omega
    rw [hblob]

/-- What a round of the loop does: it reads the record the bytes at its index encode and moves
behind it, or stops with a format error. -/
theorem readRecord_cases {data : Bytes} (hlen : data.length ≤ 9223372036854775807) {i : ℕ}
    (hi : i < data.length) :
    (∃ r, readRecord data i = .ok (r, i + (encodeRecord r).length) ∧
      i + (encodeRecord r).length ≤ data.length ∧
      data.drop i = encodeRecord r ++ data.drop (i + (encodeRecord r).length)) ∨
      ∃ m, readRecord data i = .error (.ret (.format m)) := by
  by_cases hhead : i + 45 ≤ data.length
  · rw [readRecord_eq hlen hhead]
    split_ifs with hend
    · exact .inr ⟨_, rfl⟩
    · left
      have hblob : ((data.drop (i + 45)).take (blobLength data i)).length = blobLength data i :=
        length_part (by omega)
      refine ⟨⟨data[i], i64FromLE ((data.drop (i + 1)).take 8),
        ⟨(data.drop (i + 9)).take 32, length_part (by omega)⟩,
        (data.drop (i + 45)).take (blobLength data i)⟩, ?_⟩
      have hsize : (encodeRecord ⟨data[i], i64FromLE ((data.drop (i + 1)).take 8),
          ⟨(data.drop (i + 9)).take 32, length_part (by omega)⟩,
          (data.drop (i + 45)).take (blobLength data i)⟩).length = 45 + blobLength data i := by
        rw [encodeRecord_length, hblob]
        rfl
      have hlength : toLE (blobLength data i) 4 = (data.drop (i + 41)).take 4 := by
        have hback := toLE_fromLE ((data.drop (i + 41)).take 4)
        rwa [length_part (by omega)] at hback
      rw [hsize, ← Nat.add_assoc]
      refine ⟨rfl, by omega, ?_⟩
      rw [encodeRecord, i64ToLE_i64FromLE (length_part (by omega)), hblob, hlength]
      simp only [List.cons_append, List.append_assoc]
      calc data.drop i
          = data[i] :: data.drop (i + 1) := List.drop_eq_getElem_cons hi
        _ = data[i] :: ((data.drop (i + 1)).take 8 ++ data.drop (i + 9)) :=
            congrArg _ (drop_split data (i + 1) 8)
        _ = data[i] :: ((data.drop (i + 1)).take 8 ++ ((data.drop (i + 9)).take 32 ++
              data.drop (i + 41))) :=
            congrArg (fun t => data[i] :: (_ ++ t)) (drop_split data (i + 9) 32)
        _ = data[i] :: ((data.drop (i + 1)).take 8 ++ ((data.drop (i + 9)).take 32 ++
              ((data.drop (i + 41)).take 4 ++ data.drop (i + 45)))) :=
            congrArg (fun t => data[i] :: (_ ++ (_ ++ t))) (drop_split data (i + 41) 4)
        _ = data[i] :: ((data.drop (i + 1)).take 8 ++ ((data.drop (i + 9)).take 32 ++
              ((data.drop (i + 41)).take 4 ++ ((data.drop (i + 45)).take (blobLength data i) ++
                data.drop (i + 45 + blobLength data i))))) :=
            congrArg (fun t => data[i] :: (_ ++ (_ ++ (_ ++ t))))
              (drop_split data (i + 45) (blobLength data i))
  · right
    refine ⟨"truncated bundle record", ?_⟩
    unfold readRecord
    simp (disch := omega) only [addUsize_ok, ok_bind, if_pos]

/-- A record whose parts fit their fields in the file. -/
structure BundleRecord.Fits (r : BundleRecord) : Prop where
  hlc_lo : -2 ^ 63 ≤ r.hlc
  hlc_hi : r.hlc < 2 ^ 63
  blob_lt : r.blob.length < 2 ^ 32

/-- What is written of a record is read back. -/
theorem readRecord_encode {data rest : Bytes} (hlen : data.length ≤ 9223372036854775807) {i : ℕ}
    {r : BundleRecord} (hr : r.Fits) (hdata : data.drop i = encodeRecord r ++ rest) :
    readRecord data i = .ok (r, i + (encodeRecord r).length) := by
  have hlength := congrArg List.length hdata
  rw [List.length_drop, List.length_append, encodeRecord_length] at hlength
  have hhead : recordHeadBytes = 45 := rfl
  have hi : i + 45 ≤ data.length := by omega
  have hfirst : data[i] = r.op ∧ data.drop (i + 1) =
      i64ToLE r.hlc ++ (r.hash.bytes ++ (toLE r.blob.length 4 ++ (r.blob ++ rest))) := by
    rw [List.drop_eq_getElem_cons (by omega : i < data.length)] at hdata
    simp only [encodeRecord, List.cons_append, List.append_assoc] at hdata
    exact List.cons.inj hdata
  obtain ⟨hop, hdrop⟩ := hfirst
  have hnext : ∀ {j k : ℕ} {part tail : Bytes}, data.drop j = part ++ tail → part.length = k →
      (data.drop j).take k = part ∧ data.drop (j + k) = tail := by
    rintro j k part tail hj rfl
    rw [← List.drop_drop, hj, List.take_left, List.drop_left]
    exact ⟨rfl, rfl⟩
  have hclock := hnext hdrop (length_toLE _ 8)
  have hhash := hnext hclock.2 r.hash.length_eq
  have hsize := hnext hhash.2 (length_toLE _ 4)
  have hblob := hnext hsize.2 rfl
  have hsmall := hr.blob_lt
  have hn : blobLength data i = r.blob.length := by
    rw [blobLength, hsize.1, fromLE_toLE hsmall]
  have hrecord : (⟨data[i], i64FromLE ((data.drop (i + 1)).take 8),
      ⟨(data.drop (i + 9)).take 32, length_part (by omega)⟩,
      (data.drop (i + 45)).take (blobLength data i)⟩ : BundleRecord) = r := by
    have hbytes : (⟨(data.drop (i + 9)).take 32, length_part (by omega)⟩ : Hash) = r.hash := by
      cases hh : r.hash with
      | mk bytes length_eq =>
        rw [Hash.mk.injEq, hhash.1, hh]
    rw [hop, hclock.1, i64FromLE_i64ToLE hr.hlc_lo hr.hlc_hi, hbytes, hn, hblob.1]
  rw [readRecord_eq hlen hi, if_neg (by omega), hrecord, hn, encodeRecord_length, hhead,
    Nat.add_assoc]

/-! ## The whole loop -/

variable {data : Bytes}

/-- The loop ends within as many rounds as there are bytes left, and what it returns is what
the bytes encode. -/
theorem recordLoop_cases (hlen : data.length ≤ 9223372036854775807) {rounds i : ℕ}
    (hrounds : data.length ≤ i + rounds) (hi : i ≤ data.length) :
    (∃ rs, recordLoop data rounds i = some (.ok rs) ∧ data.drop i = rs.flatMap encodeRecord) ∨
      ∃ m, recordLoop data rounds i = some (.error (.ret (.format m))) := by
  induction rounds generalizing i with
  | zero =>
    left
    refine ⟨[], ?_, List.drop_of_length_le (by omega)⟩
    rw [recordLoop, if_pos (by omega)]
  | succ rounds ih =>
    by_cases hend : data.length ≤ i
    · left
      refine ⟨[], ?_, List.drop_of_length_le hend⟩
      rw [recordLoop, if_pos hend]
    · rw [recordLoop, if_neg hend]
      rcases readRecord_cases hlen (by omega : i < data.length) with
        ⟨r, hread, hle, hdrop⟩ | ⟨m, hread⟩
      · have hpos : 0 < (encodeRecord r).length := Nat.succ_pos _
        rw [hread]
        rcases ih (i := i + (encodeRecord r).length) (by omega) hle with
          ⟨rs, hloop, hrest⟩ | ⟨m, hloop⟩
        · refine .inl ⟨r :: rs, ?_, ?_⟩
          · simp only [hloop]
            rfl
          · rw [hdrop, hrest]
            rfl
        · refine .inr ⟨m, ?_⟩
          simp only [hloop]
          rfl
      · rw [hread]
        exact .inr ⟨m, rfl⟩

/-- The records that are written are read back. -/
theorem recordLoop_encode (hlen : data.length ≤ 9223372036854775807) {rs : List BundleRecord}
    (hrs : ∀ r ∈ rs, r.Fits) {rounds i : ℕ} (hrounds : data.length ≤ i + rounds)
    (hdata : data.drop i = rs.flatMap encodeRecord) (hi : i ≤ data.length) :
    recordLoop data rounds i = some (.ok rs) := by
  induction rs generalizing rounds i with
  | nil =>
    have hend : data.length ≤ i := List.drop_eq_nil_iff.1 hdata
    cases rounds with
    | zero => rw [recordLoop, if_pos hend]
    | succ rounds => rw [recordLoop, if_pos hend]
  | cons r rs ih =>
    rw [List.forall_mem_cons] at hrs
    rw [List.flatMap_cons] at hdata
    have hpos : 0 < (encodeRecord r).length := Nat.succ_pos _
    have hlength := congrArg List.length hdata
    rw [List.length_drop, List.length_append] at hlength
    obtain ⟨rounds, rfl⟩ : ∃ k, rounds = k + 1 := ⟨rounds - 1, by omega⟩
    have hnext : data.drop (i + (encodeRecord r).length) = rs.flatMap encodeRecord := by
      rw [← List.drop_drop, hdata, List.drop_left]
    rw [recordLoop, if_neg (by omega), readRecord_encode hlen hrs.1 hdata]
    simp only [ih hrs.2 (by omega : data.length ≤ i + (encodeRecord r).length + rounds) hnext
      (by omega)]
    rfl

/-- How a way of reading records that keeps what it has read ends for a loop that does not. -/
def outcome : List BundleRecord × Option DejaDbError → Compute DejaDbError (List BundleRecord)
  | (rs, none) => .ok rs
  | (_, some e) => .error (.ret e)

/-- A round of the loop reads what `decodeRecord` reads off what is left of the file. -/
theorem readRecord_decodeRecord (hlen : data.length ≤ 9223372036854775807) {i : ℕ}
    (hi : i < data.length) :
    (∃ e, readRecord data i = .error (.ret e) ∧ decodeRecord (data.drop i) = .error e) ∨
      ∃ r j, readRecord data i = .ok (r, j) ∧
        decodeRecord (data.drop i) = .ok (r, data.drop j) := by
  have hhead_eq : recordHeadBytes = 45 := rfl
  by_cases hhead : i + 45 ≤ data.length
  · have hhash : Hash.tryFromBytes (data.drop (i + 9)) =
        some ⟨(data.drop (i + 9)).take 32, length_part (by omega)⟩ :=
      dif_pos (by rw [List.length_drop]; omega)
    have hfirst : (data.drop i).headD 0 = data[i] := by
      rw [List.drop_eq_getElem_cons hi]
      rfl
    have hlength : fromLE ((data.drop (i + 41)).take 4) = blobLength data i := rfl
    have hlong : ¬(data.drop i).length < recordHeadBytes := by
      rw [List.length_drop, hhead_eq]
      omega
    rw [readRecord_eq hlen hhead, decodeRecord, if_neg hlong]
    simp only [List.drop_drop, hhash, hlength, hfirst, hhead_eq, List.length_drop]
    by_cases hend : data.length < i + 45 + blobLength data i
    · rw [if_pos hend, if_pos (by omega)]
      exact .inl ⟨_, rfl, rfl⟩
    · rw [if_neg hend, if_neg (by omega)]
      exact .inr ⟨_, _, rfl, rfl⟩
  · left
    refine ⟨.format "truncated bundle record", ?_, ?_⟩
    · unfold readRecord
      simp (disch := omega) only [addUsize_ok, ok_bind, if_pos]
    · have hshort : (data.drop i).length < recordHeadBytes := by
        rw [List.length_drop, hhead_eq]
        omega
      rw [decodeRecord, if_pos hshort]

/-- The loop reads what `decodeRecords` reads. -/
theorem recordLoop_decodeRecords (hlen : data.length ≤ 9223372036854775807) {rounds i : ℕ}
    (hrounds : data.length ≤ i + rounds) (hi : i ≤ data.length) :
    recordLoop data rounds i = some (outcome (decodeRecords rounds (data.drop i))) := by
  induction rounds generalizing i with
  | zero =>
    rw [recordLoop, if_pos (by omega)]
    rfl
  | succ rounds ih =>
    by_cases hend : data.length ≤ i
    · rw [recordLoop, if_pos hend, List.drop_of_length_le hend]
      rfl
    · have hmore : ¬(data.drop i).isEmpty = true := by
        rw [List.isEmpty_iff, List.drop_eq_nil_iff]
        exact hend
      rw [recordLoop, if_neg hend, decodeRecords, if_neg hmore]
      rcases readRecord_decodeRecord hlen (by omega : i < data.length) with
        ⟨e, hread, hdecode⟩ | ⟨r, j, hread, hdecode⟩
      · rw [hread, hdecode]
        rfl
      · have hnext : i < j ∧ j ≤ data.length := by
          rcases readRecord_cases hlen (by omega : i < data.length) with
            ⟨r', hread', hle, -⟩ | ⟨m, hread'⟩
          · have hpos : 0 < (encodeRecord r').length := Nat.succ_pos _
            rw [hread] at hread'
            cases hread'
            omega
          · rw [hread] at hread'
            exact nomatch hread'
        rw [hread, hdecode]
        simp only [ih (by omega : data.length ≤ j + rounds) hnext.2]
        cases hrest : decodeRecords rounds (data.drop j) with
        | mk rs e => cases e <;> rfl

/-- **The records an import replays are the ones the loop reads**: `parseBundle` and the loop over
the bytes agree on every file. -/
theorem readBundle_parseBundle (data : FileBytes) : readBundle data.bytes =
    some (match parseBundle data.bytes with
      | .ok parsed => outcome parsed
      | .error e => .error (.ret e)) := by
  rw [readBundle, parseBundle]
  by_cases hmagic : data.bytes.take 4 = bundleMagic
  · have hlong : 4 ≤ data.bytes.length := by
      have hlength := congrArg List.length hmagic
      have hfour : bundleMagic.length = 4 := rfl
      rw [List.length_take, hfour] at hlength
      omega
    rw [if_neg (by rw [not_or, not_not]; exact ⟨by omega, hmagic⟩), if_pos hmagic]
    exact recordLoop_decodeRecords data.length_le (by omega) hlong
  · rw [if_pos (.inr hmagic), if_neg hmagic]

/-- The file of a list of records. -/
def writeBundle (rs : List BundleRecord) : Bytes := bundleMagic ++ rs.flatMap encodeRecord

/-- `bundle_since` writes the records of the export. -/
theorem DejaDB.bundleSince_eq (st : DejaDB) (afterOpSeq : ℤ) :
    st.bundleSince afterOpSeq = writeBundle (st.db.exportSince afterOpSeq) := rfl

/-- The bytes of records are read back as those records. -/
theorem readBundle_encode (data : FileBytes) {rs : List BundleRecord} (hrs : ∀ r ∈ rs, r.Fits)
    (hdata : data.bytes = writeBundle rs) :
    readBundle data.bytes = some (.ok rs) := by
  have htake : data.bytes.take 4 = bundleMagic := by
    rw [hdata]
    rfl
  have hdrop : data.bytes.drop 4 = rs.flatMap encodeRecord := by
    rw [hdata]
    rfl
  have hlong : 4 ≤ data.bytes.length := by
    rw [hdata, writeBundle, List.length_append]
    exact Nat.le_add_right _ _
  rw [readBundle, if_neg (by rw [htake]; simp; omega)]
  exact recordLoop_encode data.length_le hrs (by omega) hdrop hlong

/-- An exported bundle is read back as the records of the store. -/
theorem readBundle_bundleSince (st : DejaDB) (afterOpSeq : ℤ)
    (hlen : (st.bundleSince afterOpSeq).length ≤ 9223372036854775807)
    (hrs : ∀ r ∈ st.db.exportSince afterOpSeq, r.Fits) :
    readBundle (st.bundleSince afterOpSeq) = some (.ok (st.db.exportSince afterOpSeq)) :=
  readBundle_encode ⟨st.bundleSince afterOpSeq, hlen⟩ hrs (st.bundleSince_eq afterOpSeq)

/-- **The record loop is total and exact.**  Of every file it returns, without a panic, either
records whose encoding is the file or a format error, each round moving on by at least a byte;
and the bytes written for records that fit their fields are read back as those records. -/
theorem readBundle_exact :
    (∀ data : FileBytes,
      (∃ rs, readBundle data.bytes = some (.ok rs) ∧
          data.bytes = writeBundle rs) ∨
        ∃ m, readBundle data.bytes = some (.error (.ret (.format m)))) ∧
      (∀ (data : FileBytes) (i : ℕ), i < data.bytes.length →
        (∃ r j, readRecord data.bytes i = .ok (r, j) ∧ i < j ∧ j ≤ data.bytes.length) ∨
          ∃ m, readRecord data.bytes i = .error (.ret (.format m))) ∧
      ∀ (data : FileBytes) (rs : List BundleRecord), (∀ r ∈ rs, r.Fits) →
        data.bytes = writeBundle rs →
          readBundle data.bytes = some (.ok rs) := by
  refine ⟨fun data => ?_, fun data i hi => ?_, fun data _ => readBundle_encode data⟩
  · rw [readBundle]
    split_ifs with hmagic
    · exact .inr ⟨_, rfl⟩
    · rw [not_or, not_not] at hmagic
      have hsplit : data.bytes = bundleMagic ++ data.bytes.drop 4 := by
        rw [← hmagic.2, List.take_append_drop]
      rcases recordLoop_cases data.length_le (Nat.le_add_left data.bytes.length 4) (by omega) with
        ⟨rs, hloop, hdrop⟩ | ⟨m, hloop⟩
      · refine .inl ⟨rs, hloop, ?_⟩
        rw [writeBundle, ← hdrop]
        exact hsplit
      · exact .inr ⟨m, hloop⟩
  · rcases readRecord_cases data.length_le hi with ⟨r, hread, hle, -⟩ | ⟨m, hread⟩
    · have hpos : 0 < (encodeRecord r).length := Nat.succ_pos _
      exact .inl ⟨r, _, hread, by omega, hle⟩
    · exact .inr ⟨m, hread⟩

/-- A grain, the tombstone of another and a later grain. -/
def fewRecords : List BundleRecord :=
  [⟨1, 5, Hash.ofByte 3, [1, 2, 3]⟩, ⟨3, -1, Hash.ofByte 7, []⟩, ⟨1, 2 ^ 40, Hash.ofByte 9, [0]⟩]

/-- The bytes of a few records are read back as those records. -/
theorem readBundle_exact_tombstone :
    readBundle (writeBundle fewRecords) = some (.ok fewRecords) :=
  readBundle_exact.2.2 ⟨writeBundle fewRecords, by decide +kernel⟩ fewRecords
    (fun r hr => by
      rcases List.mem_cons.1 hr with rfl | hr
      · exact ⟨by decide, by decide, by decide⟩
      rcases List.mem_cons.1 hr with rfl | hr
      · exact ⟨by decide, by decide, by decide⟩
      rw [List.mem_singleton.1 hr]
      exact ⟨by decide, by decide, by decide⟩)
    rfl

end Deja
