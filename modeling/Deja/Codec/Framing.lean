import Deja.Codec.RoundTrip

/-!
# What the framing guard accepts

`guard_msgpack_shape` walks a payload with a stack of counters before the
recursive decoder sees it.  Three descriptions of it are tied together here:

* `Framed d v` — the grammar: `v` is one MessagePack value with at most `d`
  containers inside one another.
* `guardMsgpackShape` — the walk over the bytes that remain.
* `Cursor.walk` — the walk as the source runs it, over an index into the buffer,
  where a read past the end and an arithmetic overflow are outcomes of their own.

`guardMsgpackShape_iff` says that the walk accepts exactly the grammar, and
`Cursor.walk_eq` that the indexed walk is the same one and never faults.
-/

namespace Deja

/-! ## The grammar -/

/-- What follows a marker. -/
inductive Form where
  /-- a run of `n` bytes -/
  | data (n : ℕ)
  /-- a `w`-byte length and as many bytes, and `extra` more -/
  | sized (w extra : ℕ)
  /-- `n` values -/
  | items (n : ℕ)
  /-- a `w`-byte count and `per` times as many values -/
  | counted (w per : ℕ)
  /-- the marker that stands for nothing -/
  | reserved

/-- The table of the MessagePack markers. -/
def formOf (marker : ℕ) : Form :=
  if marker ≤ 0x7F ∨ 0xE0 ≤ marker ∨ marker = 0xC0 ∨ marker = 0xC2 ∨ marker = 0xC3 then .data 0
  else if marker = 0xC1 then .reserved
  else if marker ≤ 0x8F then .items (marker % 16 * 2)
  else if marker ≤ 0x9F then .items (marker % 16)
  else if marker ≤ 0xBF then .data (marker % 32)
  else
    match marker with
    | 0xCC | 0xD0 => .data 1
    | 0xCD | 0xD1 => .data 2
    | 0xCA | 0xCE | 0xD2 => .data 4
    | 0xCB | 0xCF | 0xD3 => .data 8
    | 0xD9 | 0xC4 => .sized 1 0
    | 0xDA | 0xC5 => .sized 2 0
    | 0xDB | 0xC6 => .sized 4 0
    | 0xC7 => .sized 1 1
    | 0xC8 => .sized 2 1
    | 0xC9 => .sized 4 1
    | 0xD4 => .data 2
    | 0xD5 => .data 3
    | 0xD6 => .data 5
    | 0xD7 => .data 9
    | 0xD8 => .data 17
    | 0xDC => .counted 2 1
    | 0xDD => .counted 4 1
    | 0xDE => .counted 2 2
    | _ => .counted 4 2

mutual

/-- One well-framed value with at most `d` containers inside one another. -/
inductive Framed : ℕ → Bytes → Prop where
  | data {d n : ℕ} {m : UInt8} {body : Bytes} (form : formOf m.toNat = .data n)
      (length : body.length = n) : Framed d (m :: body)
  | sized {d w extra : ℕ} {m : UInt8} {len body : Bytes} (form : formOf m.toNat = .sized w extra)
      (width : len.length = w) (length : body.length = fromBE len + extra) :
      Framed d (m :: (len ++ body))
  | items {d n : ℕ} {m : UInt8} {body : Bytes} (form : formOf m.toNat = .items n)
      (children : FramedAll d n body) : Framed (d + 1) (m :: body)
  | counted {d w per : ℕ} {m : UInt8} {count body : Bytes}
      (form : formOf m.toNat = .counted w per) (width : count.length = w)
      (children : FramedAll d (fromBE count * per) body) : Framed (d + 1) (m :: (count ++ body))

/-- `n` well-framed values one after another. -/
inductive FramedAll : ℕ → ℕ → Bytes → Prop where
  | nil {d : ℕ} : FramedAll d 0 []
  | cons {d n : ℕ} {v vs : Bytes} (head : Framed d v) (tail : FramedAll d n vs) :
      FramedAll d (n + 1) (v ++ vs)

end

theorem Framed.ne_nil {d : ℕ} {v : Bytes} (h : Framed d v) : v ≠ [] := by
  cases h <;> exact List.cons_ne_nil _ _

/-- A value takes at least one byte, so a count is bounded by the bytes. -/
theorem FramedAll.le_length {d n : ℕ} {v : Bytes} (h : FramedAll d n v) : n ≤ v.length := by
  induction n generalizing v with
  | zero => omega
  | succ n ih =>
    cases h with
    | cons head tail =>
      have hpos := List.length_pos_iff.2 head.ne_nil
      have hle := ih tail
      rw [List.length_append]
      omega

@[simp] theorem framedAll_zero {d : ℕ} {v : Bytes} : FramedAll d 0 v ↔ v = [] := by
  constructor
  · intro h
    cases h
    rfl
  · rintro rfl
    exact .nil

theorem framedAll_succ {d n : ℕ} {v : Bytes} :
    FramedAll d (n + 1) v ↔ ∃ a b, v = a ++ b ∧ Framed d a ∧ FramedAll d n b := by
  constructor
  · intro h
    cases h with
    | cons head tail => exact ⟨_, _, rfl, head, tail⟩
  · rintro ⟨a, b, rfl, ha, hb⟩
    exact .cons ha hb

/-! ## One marker -/

/-- What the guard does at a marker, read off the table. -/
def Form.step (f : Form) (stack : List ℕ) (rest : Bytes) : Except DejaDbError (List ℕ × Bytes) :=
  match f with
  | .data n => (skipBytes n rest).map fun rest => (stack, rest)
  | .sized w extra => skipPrefixed w extra stack rest
  | .items n => (pushContainer stack rest n).map fun stack => (stack, rest)
  | .counted w per => pushPrefixed w per stack rest
  | .reserved => .error (.format "invalid msgpack marker 0xc1")

theorem guardMarker_eq (marker : ℕ) (stack : List ℕ) (rest : Bytes) :
    guardMarker marker stack rest = (formOf marker).step stack rest := by
  unfold guardMarker formOf
  split_ifs
  · simp [Form.step, skipBytes, Except.map]
  · rfl
  · rfl
  · rfl
  · rfl
  · split
    case h_28 => simp only [*, Form.step]
    all_goals rfl

/-- The bytes after a marker that are its own, and the number of values that
follow them when the marker opens a container. -/
inductive Form.Spans : Form → Bytes → Option ℕ → Prop where
  | data {n : ℕ} {head : Bytes} (length : head.length = n) : Spans (.data n) head none
  | sized {w extra : ℕ} {len body : Bytes} (width : len.length = w)
      (length : body.length = fromBE len + extra) : Spans (.sized w extra) (len ++ body) none
  | items {n : ℕ} : Spans (.items n) [] (some n)
  | counted {w per : ℕ} {count : Bytes} (width : count.length = w) :
      Spans (.counted w per) count (some (fromBE count * per))

/-- What is left once the marker's own bytes are read. -/
def Opened (stack : List ℕ) (tail : Bytes) : Option ℕ → List ℕ × Bytes → Prop
  | none, p => p = (stack, tail)
  | some c, p => stack.length < maxMsgpackDepth ∧ c ≤ tail.length ∧ p = (c :: stack, tail)

theorem skipBytes_ok_iff {n : ℕ} {rest after : Bytes} :
    skipBytes n rest = .ok after ↔ ∃ head, rest = head ++ after ∧ head.length = n := by
  unfold skipBytes
  constructor
  · intro h
    split at h
    case isTrue hle =>
      cases h
      exact ⟨rest.take n, (List.take_append_drop n rest).symm, List.length_take_of_le hle⟩
    case isFalse => cases h
  · rintro ⟨head, rfl, rfl⟩
    simp

theorem lenPrefixed_ok_iff {n len : ℕ} {rest after : Bytes} :
    lenPrefixed n rest = .ok (len, after) ↔
      ∃ head, rest = head ++ after ∧ head.length = n ∧ len = fromBE head := by
  unfold lenPrefixed skipBytes
  constructor
  · intro h
    split at h
    case isTrue hle =>
      cases h
      exact ⟨rest.take n, (List.take_append_drop n rest).symm, List.length_take_of_le hle, rfl⟩
    case isFalse => cases h
  · rintro ⟨head, rfl, rfl, rfl⟩
    simp [Except.map]

theorem pushContainer_ok_iff {stack stack' : List ℕ} {rest : Bytes} {count : ℕ} :
    pushContainer stack rest count = .ok stack' ↔
      stack.length < maxMsgpackDepth ∧ count ≤ rest.length ∧ stack' = count :: stack := by
  unfold pushContainer
  by_cases hdeep : maxMsgpackDepth ≤ stack.length
  · simp [hdeep]
  · by_cases hlong : rest.length < count
    · simp [hdeep, hlong]
    · simp [hdeep, hlong, Nat.not_le.1 hdeep, Nat.not_lt.1 hlong, eq_comm]

theorem Form.step_ok_iff {f : Form} {stack : List ℕ} {rest : Bytes} {p : List ℕ × Bytes} :
    f.step stack rest = .ok p ↔
      ∃ head tail child, rest = head ++ tail ∧ f.Spans head child ∧ Opened stack tail child p := by
  constructor
  · intro h
    cases f with
    | data n =>
      obtain ⟨after, hskip, rfl⟩ := except_map_ok h
      obtain ⟨head, rfl, hlen⟩ := skipBytes_ok_iff.1 hskip
      exact ⟨head, after, none, rfl, .data hlen, rfl⟩
    | sized w extra =>
      obtain ⟨⟨len, mid⟩, hpre, h⟩ := except_bind_ok h
      obtain ⟨after, hskip, h⟩ := except_bind_ok h
      cases h
      obtain ⟨head, rfl, hw, rfl⟩ := lenPrefixed_ok_iff.1 hpre
      obtain ⟨body, rfl, hlen⟩ := skipBytes_ok_iff.1 hskip
      exact ⟨head ++ body, after, none, by simp, .sized hw hlen, rfl⟩
    | items n =>
      obtain ⟨stack', hpush, rfl⟩ := except_map_ok h
      obtain ⟨hdeep, hle, rfl⟩ := pushContainer_ok_iff.1 hpush
      exact ⟨[], rest, some n, rfl, .items, hdeep, hle, rfl⟩
    | counted w per =>
      obtain ⟨⟨count, mid⟩, hpre, h⟩ := except_bind_ok h
      obtain ⟨stack', hpush, h⟩ := except_bind_ok h
      cases h
      obtain ⟨head, rfl, hw, rfl⟩ := lenPrefixed_ok_iff.1 hpre
      obtain ⟨hdeep, hle, rfl⟩ := pushContainer_ok_iff.1 hpush
      exact ⟨head, mid, some _, rfl, .counted hw, hdeep, hle, rfl⟩
    | reserved => cases h
  · rintro ⟨head, tail, child, rfl, hspans, hopened⟩
    cases hspans with
    | data hlen =>
      obtain rfl : p = _ := hopened
      have hskip : skipBytes _ (head ++ tail) = .ok tail := skipBytes_ok_iff.2 ⟨head, rfl, hlen⟩
      simp only [Form.step, hskip, Except.map]
    | @sized w extra len body hw hlen =>
      obtain rfl : p = _ := hopened
      have hpre : lenPrefixed w (len ++ body ++ tail) = .ok (fromBE len, body ++ tail) :=
        lenPrefixed_ok_iff.2 ⟨len, List.append_assoc len body tail, hw, rfl⟩
      have hskip : skipBytes (fromBE len + extra) (body ++ tail) = .ok tail :=
        skipBytes_ok_iff.2 ⟨body, rfl, hlen⟩
      simp only [Form.step, skipPrefixed, hpre, hskip, bind, Except.bind, pure, Except.pure]
    | items =>
      obtain ⟨hdeep, hle, rfl⟩ := hopened
      have hpush : pushContainer stack tail _ = .ok _ := pushContainer_ok_iff.2 ⟨hdeep, hle, rfl⟩
      simp only [Form.step, List.nil_append, hpush, Except.map]
    | counted hw =>
      obtain ⟨hdeep, hle, rfl⟩ := hopened
      have hpre : lenPrefixed _ (head ++ tail) = .ok (fromBE head, tail) :=
        lenPrefixed_ok_iff.2 ⟨head, rfl, hw, rfl⟩
      have hpush : pushContainer stack tail _ = .ok _ := pushContainer_ok_iff.2 ⟨hdeep, hle, rfl⟩
      simp only [Form.step, pushPrefixed, hpre, hpush, bind, Except.bind, pure, Except.pure]

theorem framed_cons_iff {d : ℕ} {m : UInt8} {body : Bytes} :
    Framed d (m :: body) ↔ ∃ head kids child, body = head ++ kids ∧
      (formOf m.toNat).Spans head child ∧
        match child with
        | none => kids = []
        | some c => ∃ d', d = d' + 1 ∧ FramedAll d' c kids := by
  constructor
  · intro h
    cases h with
    | data form length => exact ⟨body, [], none, by simp, form ▸ .data length, rfl⟩
    | sized form width length =>
      exact ⟨_, [], none, (List.append_nil _).symm, form ▸ .sized width length, rfl⟩
    | items form children => exact ⟨[], body, some _, rfl, form ▸ .items, _, rfl, children⟩
    | counted form width children =>
      exact ⟨_, _, some _, rfl, form ▸ .counted width, _, rfl, children⟩
  · rintro ⟨head, kids, child, rfl, hspans, hkids⟩
    generalize hform : formOf m.toNat = f at hspans
    cases hspans with
    | data length =>
      obtain rfl := hkids
      exact .data hform (by simpa using length)
    | sized width length =>
      obtain rfl := hkids
      rw [List.append_nil]
      exact .sized hform width length
    | items =>
      obtain ⟨d', rfl, hall⟩ := hkids
      exact .items hform hall
    | counted width =>
      obtain ⟨d', rfl, hall⟩ := hkids
      exact .counted hform width hall

/-! ## The stack of counters -/

/-- The values that the counters of a stack still wait for. -/
def Pending : List ℕ → Bytes → Prop
  | [], v => v = []
  | n :: stack, v => ∃ a b, v = a ++ b ∧
      FramedAll (maxMsgpackDepth - (stack.length + 1)) n a ∧ Pending stack b

/-- `rest` begins with what the stack waits for. -/
def Supplies (stack : List ℕ) (rest : Bytes) : Prop :=
  ∃ v tail, rest = v ++ tail ∧ Pending stack v

theorem supplies_nil (rest : Bytes) : Supplies [] rest := ⟨[], rest, rfl, rfl⟩

@[simp] theorem pending_zero {stack : List ℕ} {v : Bytes} :
    Pending (0 :: stack) v ↔ Pending stack v := by
  simp [Pending]

theorem supplies_zero {stack : List ℕ} {rest : Bytes} :
    Supplies (0 :: stack) rest ↔ Supplies stack rest := by
  simp [Supplies]

/-- A counter that is not zero waits for a value, and then for the rest. -/
theorem pending_succ {n : ℕ} {stack : List ℕ} {v : Bytes} :
    Pending ((n + 1) :: stack) v ↔ ∃ m a b, v = m :: (a ++ b) ∧
      Framed (maxMsgpackDepth - (stack.length + 1)) (m :: a) ∧ Pending (n :: stack) b := by
  constructor
  · rintro ⟨a, b, rfl, hall, hb⟩
    obtain ⟨x, y, rfl, hx, hy⟩ := framedAll_succ.1 hall
    obtain ⟨m, x, rfl⟩ := List.exists_cons_of_ne_nil hx.ne_nil
    exact ⟨m, x, y ++ b, by simp, hx, y, b, rfl, hy, hb⟩
  · rintro ⟨m, x, b, rfl, hx, y, b, rfl, hy, hb⟩
    exact ⟨(m :: x) ++ y, b, by simp, framedAll_succ.2 ⟨m :: x, y, rfl, hx, hy⟩, hb⟩

theorem not_supplies_nil {n : ℕ} {stack : List ℕ} : ¬Supplies ((n + 1) :: stack) [] := by
  rintro ⟨v, tail, heq, hv⟩
  obtain ⟨m, a, b, rfl, -, -⟩ := pending_succ.1 hv
  cases heq

/-- **One marker.**  The stack is met exactly when the guard gets past the marker
and leaves a stack that is met. -/
theorem supplies_cons {n : ℕ} {stack : List ℕ} {m : UInt8} {rest : Bytes} :
    Supplies ((n + 1) :: stack) (m :: rest) ↔
      ∃ p, guardMarker m.toNat (n :: stack) rest = .ok p ∧ Supplies p.1 p.2 := by
  rw [guardMarker_eq]
  constructor
  · rintro ⟨v, tail, heq, hv⟩
    obtain ⟨m', a, b, rfl, hframed, hb⟩ := pending_succ.1 hv
    obtain ⟨rfl, rfl⟩ := List.cons.inj heq
    obtain ⟨head, kids, child, rfl, hspans, hkids⟩ := framed_cons_iff.1 hframed
    cases child with
    | none =>
      subst hkids
      refine ⟨(n :: stack, b ++ tail), ?_, b, tail, rfl, hb⟩
      exact Form.step_ok_iff.2 ⟨head, b ++ tail, none, by simp, hspans, rfl⟩
    | some c =>
      obtain ⟨d, hdepth, hall⟩ := hkids
      refine ⟨(c :: n :: stack, kids ++ (b ++ tail)), ?_, kids ++ b, tail, by simp, kids, b, rfl,
        ?_, hb⟩
      · have hle := hall.le_length
        have hdeep : (n :: stack).length < maxMsgpackDepth := by
          rw [List.length_cons]
          omega
        refine Form.step_ok_iff.2
          ⟨head, kids ++ (b ++ tail), some c, by simp, hspans, hdeep, ?_, rfl⟩
        rw [List.length_append]
        omega
      · have hd : maxMsgpackDepth - ((n :: stack).length + 1) = d := by
          rw [List.length_cons]
          omega
        rw [hd]
        exact hall
  · rintro ⟨p, hstep, v, tail, hp, hv⟩
    obtain ⟨head, after, child, rfl, hspans, hopened⟩ := Form.step_ok_iff.1 hstep
    cases child with
    | none =>
      obtain rfl : p = _ := hopened
      obtain rfl : after = v ++ tail := hp
      refine ⟨m :: (head ++ v), tail, by simp, pending_succ.2 ⟨m, head, v, rfl, ?_, hv⟩⟩
      exact framed_cons_iff.2 ⟨head, [], none, by simp, hspans, rfl⟩
    | some c =>
      obtain ⟨hdeep, -, rfl⟩ := hopened
      obtain rfl : after = v ++ tail := hp
      obtain ⟨kids, b, rfl, hall, hb⟩ := hv
      refine ⟨m :: (head ++ kids ++ b), tail, by simp,
        pending_succ.2 ⟨m, head ++ kids, b, rfl, ?_, hb⟩⟩
      refine framed_cons_iff.2 ⟨head, kids, some c, rfl, hspans, _, ?_, hall⟩
      simp only [List.length_cons] at hdeep ⊢
      omega

/-- A marker leaves fewer bytes and at most one level more. -/
theorem guardMarker_shrinks {marker : ℕ} {stack : List ℕ} {rest : Bytes} {p : List ℕ × Bytes}
    (h : guardMarker marker stack rest = .ok p) :
    p.2.length ≤ rest.length ∧ p.1.length ≤ stack.length + 1 := by
  rw [guardMarker_eq] at h
  obtain ⟨head, after, child, rfl, -, hopened⟩ := Form.step_ok_iff.1 h
  rw [List.length_append]
  cases child with
  | none =>
    obtain rfl : p = _ := hopened
    exact ⟨Nat.le_add_left _ _, Nat.le_succ _⟩
  | some c =>
    obtain ⟨-, -, rfl⟩ := hopened
    exact ⟨Nat.le_add_left _ _, le_refl _⟩

/-- The walk accepts what the stack waits for. -/
theorem guardWalk_iff {fuel : ℕ} {stack : List ℕ} {rest : Bytes}
    (hfuel : 2 * rest.length + stack.length ≤ fuel) :
    guardWalk fuel stack rest = .ok () ↔ Supplies stack rest := by
  induction fuel generalizing stack rest with
  | zero =>
    have hstack : stack = [] := List.eq_nil_of_length_eq_zero (by omega)
    subst hstack
    exact iff_of_true (by rw [guardWalk]) (supplies_nil rest)
  | succ fuel ih =>
    match stack, rest with
    | [], rest => exact iff_of_true (by rw [guardWalk]) (supplies_nil rest)
    | 0 :: stack, rest =>
      rw [guardWalk, supplies_zero]
      exact ih (by simp only [List.length_cons] at hfuel; omega)
    | (n + 1) :: stack, [] =>
      rw [guardWalk]
      exact iff_of_false (by simp) not_supplies_nil
    | (n + 1) :: stack, m :: rest =>
      rw [guardWalk, supplies_cons]
      simp only [List.length_cons] at hfuel
      constructor
      · intro h
        obtain ⟨p, hmarker, hwalk⟩ := except_bind_ok h
        obtain ⟨hbytes, hlevels⟩ := guardMarker_shrinks hmarker
        rw [List.length_cons] at hlevels
        exact ⟨p, hmarker, (ih (by omega)).1 hwalk⟩
      · rintro ⟨p, hmarker, hsupplies⟩
        obtain ⟨hbytes, hlevels⟩ := guardMarker_shrinks hmarker
        rw [List.length_cons] at hlevels
        rw [hmarker]
        exact (ih (by omega)).2 hsupplies

/-- **What the guard accepts.**  The bytes begin with one well-framed value whose
containers nest less deep than the limit. -/
theorem guardMsgpackShape_iff {buf : Bytes} :
    guardMsgpackShape buf = .ok () ↔
      ∃ v tail, buf = v ++ tail ∧ Framed (maxMsgpackDepth - 1) v := by
  have hone : ∀ v, Pending [1] v ↔ Framed (maxMsgpackDepth - 1) v := by
    intro v
    simp only [Pending, framedAll_succ, framedAll_zero, List.length_nil]
    constructor
    · rintro ⟨_, _, rfl, ⟨x, _, rfl, hx, rfl⟩, rfl⟩
      rw [List.append_nil, List.append_nil]
      exact hx
    · intro hv
      exact ⟨v, [], by simp, ⟨v, [], by simp, hv, rfl⟩, rfl⟩
  rw [guardMsgpackShape, guardWalk_iff (by simp)]
  simp only [Supplies, hone]

/-! ## The walk over an index -/

/-- How the walk of the source can end early. -/
inductive Stop where
  /-- an index or a slice past the end of the buffer -/
  | outOfRange
  /-- a sum, a difference or a product that leaves the machine word -/
  | overflow
  /-- the loop still runs when the fuel is spent -/
  | outOfFuel
  /-- the guard answers -/
  | rejected (e : DejaDbError)
  deriving DecidableEq

namespace Cursor

/-- A word of the machine: `usize` and `u64`. -/
def word (n : ℕ) : Except Stop ℕ :=
  if n < 2 ^ 64 then .ok n else .error .overflow

variable (buf : Bytes)

/-- `need_bytes`; its sum is the checked one. -/
def needBytes (pos n : ℕ) : Except Stop Unit :=
  if pos + n < 2 ^ 64 ∧ pos + n ≤ buf.length then .ok ()
  else .error (.rejected (.format "truncated msgpack payload"))

/-- `read_be`, over the slice `buf[pos..pos + n]`. -/
def readBe (pos n : ℕ) : Except Stop ℕ := do
  let stop ← word (pos + n)
  if stop ≤ buf.length then
    pure (((buf.drop pos).take n).foldl (fun v b => 256 * v % 2 ^ 64 + b.toNat) 0)
  else throw .outOfRange

/-- `len_prefixed`: the length and the index after it. -/
def lenPrefixed (pos n : ℕ) : Except Stop (ℕ × ℕ) := do
  needBytes buf pos n
  let v ← readBe buf pos n
  pure (v, ← word (pos + n))

/-- `skip`. -/
def skip (pos n : ℕ) : Except Stop ℕ := do
  needBytes buf pos n
  word (pos + n)

/-- `push_container`. -/
def pushContainer (stack : List ℕ) (pos count : ℕ) : Except Stop (List ℕ) := do
  if maxMsgpackDepth ≤ stack.length then
    throw (.rejected (.format "msgpack nesting too deep"))
  if buf.length < pos then throw .overflow
  if buf.length - pos < count then
    throw (.rejected (.format "msgpack container length exceeds payload"))
  pure (count :: stack)

/-- A fixed run of bytes. -/
def scalar (n : ℕ) (stack : List ℕ) (pos : ℕ) : Except Stop (List ℕ × ℕ) := do
  pure (stack, ← skip buf pos n)

/-- A run of bytes behind an `n`-byte length. -/
def sized (n extra : ℕ) (stack : List ℕ) (pos : ℕ) : Except Stop (List ℕ × ℕ) := do
  let (l, pos) ← lenPrefixed buf pos n
  let l ← word (l + extra)
  pure (stack, ← skip buf pos l)

/-- A container behind an `n`-byte count. -/
def counted (n per : ℕ) (stack : List ℕ) (pos : ℕ) : Except Stop (List ℕ × ℕ) := do
  let (c, pos) ← lenPrefixed buf pos n
  let c ← word (c * per)
  pure (← pushContainer buf stack pos c, pos)

/-- The arms of the loop, in the order of the source. -/
def marker (marker : ℕ) (stack : List ℕ) (pos : ℕ) : Except Stop (List ℕ × ℕ) :=
  if marker ≤ 0x7F ∨ 0xE0 ≤ marker ∨ marker = 0xC0 ∨ marker = 0xC2 ∨ marker = 0xC3 then
    .ok (stack, pos)
  else if marker = 0xC1 then .error (.rejected (.format "invalid msgpack marker 0xc1"))
  else if 0xA0 ≤ marker ∧ marker ≤ 0xBF then scalar buf (marker % 32) stack pos
  else if 0x80 ≤ marker ∧ marker ≤ 0x9F then do
    let n := marker % 16
    let count ← if marker < 0x90 then word (n * 2) else pure n
    pure (← pushContainer buf stack pos count, pos)
  else
    match marker with
    | 0xCC | 0xD0 => scalar buf 1 stack pos
    | 0xCD | 0xD1 => scalar buf 2 stack pos
    | 0xCA | 0xCE | 0xD2 => scalar buf 4 stack pos
    | 0xCB | 0xCF | 0xD3 => scalar buf 8 stack pos
    | 0xD9 | 0xC4 => sized buf 1 0 stack pos
    | 0xDA | 0xC5 => sized buf 2 0 stack pos
    | 0xDB | 0xC6 => sized buf 4 0 stack pos
    | 0xC7 => sized buf 1 1 stack pos
    | 0xC8 => sized buf 2 1 stack pos
    | 0xC9 => sized buf 4 1 stack pos
    | 0xD4 => scalar buf 2 stack pos
    | 0xD5 => scalar buf 3 stack pos
    | 0xD6 => scalar buf 5 stack pos
    | 0xD7 => scalar buf 9 stack pos
    | 0xD8 => scalar buf 17 stack pos
    | 0xDC => counted buf 2 1 stack pos
    | 0xDD => counted buf 4 1 stack pos
    | 0xDE => counted buf 2 2 stack pos
    | _ => counted buf 4 2 stack pos

/-- The loop. -/
def walk : ℕ → List ℕ → ℕ → Except Stop Unit
  | _, [], _ => .ok ()
  | 0, _ :: _, _ => .error .outOfFuel
  | fuel + 1, 0 :: stack, pos => walk fuel stack pos
  | fuel + 1, (n + 1) :: stack, pos => do
    needBytes buf pos 1
    match buf[pos]? with
    | none => throw .outOfRange
    | some m =>
      let pos ← word (pos + 1)
      let (stack, pos) ← marker buf m.toNat (n :: stack) pos
      walk fuel stack pos

end Cursor

/-! ## The two walks agree -/

/-- The indexed walk answers as the other one does, and has not faulted. -/
def Agrees {α β : Type} (R : α → β → Prop) : Except Stop α → Except DejaDbError β → Prop
  | .ok a, .ok b => R a b
  | .error (.rejected e), .error e' => e = e'
  | _, _ => False

theorem Agrees.bind {α β γ δ : Type} {R : α → β → Prop} {S : γ → δ → Prop}
    {x : Except Stop α} {y : Except DejaDbError β} {f : α → Except Stop γ}
    {g : β → Except DejaDbError δ} (h : Agrees R x y)
    (hstep : ∀ a b, y = .ok b → R a b → Agrees S (f a) (g b)) : Agrees S (x >>= f) (y >>= g) := by
  cases x with
  | ok a =>
    cases y with
    | ok b => exact hstep a b rfl h
    | error e => exact h.elim
  | error s =>
    cases s with
    | rejected e =>
      cases y with
      | ok b => exact h.elim
      | error e' => exact h
    | outOfRange | overflow | outOfFuel => exact h.elim

theorem Agrees.eq_mapError {R : Unit → Unit → Prop} {x : Except Stop Unit}
    {y : Except DejaDbError Unit} (h : Agrees R x y) : x = y.mapError .rejected := by
  cases x with
  | ok a =>
    cases y with
    | ok b => rfl
    | error e => exact h.elim
  | error s =>
    cases s with
    | rejected e =>
      cases y with
      | ok b => exact h.elim
      | error e' => exact congrArg (fun e => Except.error (Stop.rejected e)) h
    | outOfRange | overflow | outOfFuel => exact h.elim

/-- An index and the bytes from there on. -/
def At (buf : Bytes) (pos : ℕ) (rest : Bytes) : Prop := pos ≤ buf.length ∧ rest = buf.drop pos

namespace Cursor

variable {buf : Bytes}

theorem word_ok {n : ℕ} (h : n < 2 ^ 64) : word n = .ok n := if_pos h

theorem needBytes_eq (hbuf : buf.length < 2 ^ 64) {pos n : ℕ} {rest : Bytes}
    (hat : At buf pos rest) :
    needBytes buf pos n =
      if n ≤ rest.length then .ok ()
      else .error (.rejected (.format "truncated msgpack payload")) := by
  obtain ⟨hpos, rfl⟩ := hat
  unfold needBytes
  rw [List.length_drop]
  by_cases hle : n ≤ buf.length - pos
  · rw [if_pos hle, if_pos (by omega)]
  · rw [if_neg hle, if_neg (by omega)]

theorem agrees_skip (hbuf : buf.length < 2 ^ 64) {pos n : ℕ} {rest : Bytes}
    (hat : At buf pos rest) :
    Agrees (At buf) (skip buf pos n) (skipBytes n rest) := by
  unfold skip skipBytes
  rw [needBytes_eq hbuf hat]
  obtain ⟨hpos, rfl⟩ := hat
  rw [List.length_drop]
  by_cases hle : n ≤ buf.length - pos
  · rw [if_pos hle, if_pos hle]
    show Agrees (At buf) (word (pos + n)) _
    rw [word_ok (by omega)]
    exact ⟨by omega, List.drop_drop⟩
  · rw [if_neg hle, if_neg hle]
    rfl

/-- A short prefix does not leave the word. -/
theorem foldl_be {l : Bytes} (hlen : l.length ≤ 8) :
    l.foldl (fun v b => 256 * v % 2 ^ 64 + b.toNat) 0 = fromBE l ∧ fromBE l < 256 ^ l.length := by
  induction l using List.reverseRecOn with
  | nil => exact ⟨rfl, by decide⟩
  | append_singleton l b ih =>
    rw [List.length_append, List.length_singleton] at hlen ⊢
    obtain ⟨heq, hlt⟩ := ih (by omega)
    have hb : b.toNat < 256 := b.toNat_lt
    have hbe : fromBE (l ++ [b]) = 256 * fromBE l + b.toNat := by
      simp [fromBE]
    have hword : 256 * 256 ^ l.length ≤ 2 ^ 64 := by
      calc 256 * 256 ^ l.length = 256 ^ (l.length + 1) := by ring
        _ ≤ 256 ^ 8 := Nat.pow_le_pow_right (by norm_num) hlen
        _ = 2 ^ 64 := by norm_num
    constructor
    · rw [List.foldl_append, heq, hbe]
      show 256 * fromBE l % 2 ^ 64 + b.toNat = _
      rw [Nat.mod_eq_of_lt (by omega)]
    · rw [hbe, pow_succ]
      omega

theorem agrees_lenPrefixed (hbuf : buf.length < 2 ^ 64) {pos n : ℕ} {rest : Bytes} (hn : n ≤ 4)
    (hat : At buf pos rest) :
    Agrees (fun a b => a.1 = b.1 ∧ a.1 < 2 ^ 32 ∧ At buf a.2 b.2) (lenPrefixed buf pos n)
      (Deja.lenPrefixed n rest) := by
  unfold lenPrefixed Deja.lenPrefixed skipBytes
  rw [needBytes_eq hbuf hat]
  obtain ⟨hpos, rfl⟩ := hat
  rw [List.length_drop]
  by_cases hle : n ≤ buf.length - pos
  · rw [if_pos hle, if_pos hle]
    have hlen : ((buf.drop pos).take n).length = n := by
      rw [List.length_take, List.length_drop]
      omega
    obtain ⟨heq, hlt⟩ := foldl_be (l := (buf.drop pos).take n) (by omega)
    have hread : readBe buf pos n = .ok (fromBE ((buf.drop pos).take n)) := by
      unfold readBe
      rw [word_ok (by omega), heq]
      exact if_pos (by omega)
    show Agrees _ (readBe buf pos n >>= fun v => word (pos + n) >>= fun stop => pure (v, stop)) _
    rw [hread, word_ok (by omega)]
    refine ⟨rfl, ?_, by omega, List.drop_drop⟩
    rw [hlen] at hlt
    calc fromBE ((buf.drop pos).take n) < 256 ^ n := hlt
      _ ≤ 256 ^ 4 := Nat.pow_le_pow_right (by norm_num) hn
      _ = 2 ^ 32 := by norm_num
  · rw [if_neg hle, if_neg hle]
    rfl

theorem agrees_pushContainer {pos count : ℕ} {rest : Bytes} {stack : List ℕ}
    (hat : At buf pos rest) :
    Agrees Eq (pushContainer buf stack pos count) (Deja.pushContainer stack rest count) := by
  obtain ⟨hpos, rfl⟩ := hat
  unfold pushContainer Deja.pushContainer
  rw [List.length_drop]
  by_cases hdeep : maxMsgpackDepth ≤ stack.length
  · rw [if_pos hdeep, if_pos hdeep]
    rfl
  · by_cases hlong : buf.length - pos < count
    · rw [if_neg hdeep, if_neg hdeep, if_neg (not_lt.2 hpos), if_pos hlong, if_pos hlong]
      rfl
    · rw [if_neg hdeep, if_neg hdeep, if_neg (not_lt.2 hpos), if_neg hlong, if_neg hlong]
      rfl

/-- The same stack, and an index at the same bytes. -/
def Same (buf : Bytes) (a : List ℕ × ℕ) (b : List ℕ × Bytes) : Prop :=
  a.1 = b.1 ∧ At buf a.2 b.2

variable {stack : List ℕ} {pos : ℕ} {rest : Bytes}

theorem agrees_scalar (hbuf : buf.length < 2 ^ 64) {n : ℕ} (hat : At buf pos rest) :
    Agrees (Same buf) (scalar buf n stack pos) ((Form.data n).step stack rest) :=
  (agrees_skip hbuf hat).bind fun _ _ _ h => ⟨rfl, h⟩

theorem agrees_sized (hbuf : buf.length < 2 ^ 64) {w extra : ℕ} (hw : w ≤ 4) (hextra : extra ≤ 1)
    (hat : At buf pos rest) :
    Agrees (Same buf) (sized buf w extra stack pos) ((Form.sized w extra).step stack rest) := by
  refine (agrees_lenPrefixed hbuf hw hat).bind ?_
  rintro ⟨l, pos'⟩ ⟨l', rest'⟩ - ⟨rfl, hl, hat'⟩
  show Agrees _ (word (l + extra) >>= fun l => skip buf pos' l >>= fun pos => pure (stack, pos)) _
  rw [word_ok (by omega)]
  exact (agrees_skip hbuf hat').bind fun _ _ _ h => ⟨rfl, h⟩

theorem agrees_items {n : ℕ} (hat : At buf pos rest) :
    Agrees (Same buf) (do pure (← pushContainer buf stack pos n, pos))
      ((Form.items n).step stack rest) :=
  (agrees_pushContainer hat).bind fun _ _ _ h => ⟨h, hat⟩

theorem agrees_counted (hbuf : buf.length < 2 ^ 64) {w per : ℕ} (hw : w ≤ 4) (hper : per ≤ 2)
    (hat : At buf pos rest) :
    Agrees (Same buf) (counted buf w per stack pos) ((Form.counted w per).step stack rest) := by
  refine (agrees_lenPrefixed hbuf hw hat).bind ?_
  rintro ⟨c, pos'⟩ ⟨c', rest'⟩ - ⟨rfl, hc, hat'⟩
  have hword : c * per < 2 ^ 64 := by
    calc c * per ≤ 2 ^ 32 * 2 := Nat.mul_le_mul (le_of_lt hc) hper
      _ < 2 ^ 64 := by norm_num
  show Agrees _ (word (c * per) >>= fun c => pushContainer buf stack pos' c >>= fun s =>
    pure (s, pos')) _
  rw [word_ok hword]
  exact (agrees_pushContainer hat').bind fun _ _ _ h => ⟨h, hat'⟩

/-- **One marker**, at an index and at the bytes from there on. -/
theorem agrees_marker (hbuf : buf.length < 2 ^ 64) {m : ℕ} (hat : At buf pos rest) :
    Agrees (Same buf) (marker buf m stack pos) (guardMarker m stack rest) := by
  rw [guardMarker_eq]
  unfold marker formOf
  by_cases hnone : m ≤ 0x7F ∨ 0xE0 ≤ m ∨ m = 0xC0 ∨ m = 0xC2 ∨ m = 0xC3
  · rw [if_pos hnone, if_pos hnone]
    exact ⟨rfl, hat⟩
  by_cases hreserved : m = 0xC1
  · rw [if_neg hnone, if_neg hnone, if_pos hreserved, if_pos hreserved]
    rfl
  by_cases hfixmap : m ≤ 0x8F
  · rw [if_neg hnone, if_neg hnone, if_neg hreserved, if_neg hreserved, if_neg (by omega),
      if_pos (by omega), if_pos hfixmap]
    dsimp only
    rw [if_pos (by omega), word_ok (by omega)]
    exact agrees_items hat
  by_cases hfixarray : m ≤ 0x9F
  · rw [if_neg hnone, if_neg hnone, if_neg hreserved, if_neg hreserved, if_neg (by omega),
      if_pos (by omega), if_neg hfixmap, if_pos hfixarray]
    dsimp only
    rw [if_neg (by omega)]
    exact agrees_items hat
  by_cases hfixstr : m ≤ 0xBF
  · rw [if_neg hnone, if_neg hnone, if_neg hreserved, if_neg hreserved, if_pos (by omega),
      if_neg hfixmap, if_neg hfixarray, if_pos hfixstr]
    exact agrees_scalar hbuf hat
  · rw [if_neg hnone, if_neg hnone, if_neg hreserved, if_neg hreserved, if_neg (by omega),
      if_neg (by omega), if_neg hfixmap, if_neg hfixarray, if_neg hfixstr]
    split <;>
      first
      | exact agrees_scalar hbuf hat
      | exact agrees_sized hbuf (by decide) (by decide) hat
      | exact agrees_counted hbuf (by decide) (by decide) hat

/-- **The two loops.**  With fuel for every level and every byte the indexed loop
answers as the other one does. -/
theorem agrees_walk (hbuf : buf.length < 2 ^ 64) {fuel fuel' : ℕ} (hat : At buf pos rest)
    (hfuel : 2 * rest.length + stack.length ≤ fuel)
    (hfuel' : 2 * rest.length + stack.length ≤ fuel') :
    Agrees (fun _ _ => True) (walk buf fuel stack pos) (guardWalk fuel' stack rest) := by
  induction fuel generalizing fuel' stack pos rest with
  | zero =>
    have hstack : stack = [] := List.eq_nil_of_length_eq_zero (by omega)
    subst hstack
    rw [walk, guardWalk]
    trivial
  | succ fuel ih =>
    match stack, rest, fuel' with
    | [], rest, fuel' =>
      rw [walk, guardWalk]
      trivial
    | n :: stack, rest, 0 =>
      rw [List.length_cons] at hfuel'
      omega
    | 0 :: stack, rest, fuel' + 1 =>
      rw [walk, guardWalk]
      rw [List.length_cons] at hfuel hfuel'
      exact ih hat (by omega) (by omega)
    | (n + 1) :: stack, [], fuel' + 1 =>
      rw [walk, guardWalk, needBytes_eq hbuf hat]
      rfl
    | (n + 1) :: stack, m :: rest, fuel' + 1 =>
      rw [walk, guardWalk, needBytes_eq hbuf hat]
      obtain ⟨hpos, hrest⟩ := hat
      have hlt : pos < buf.length := by
        have hlen := congrArg List.length hrest
        rw [List.length_cons, List.length_drop] at hlen
        omega
      have hget : buf[pos]? = some m := by
        rw [← List.head?_drop, ← hrest]
        rfl
      have hat' : At buf (pos + 1) rest := by
        refine ⟨hlt, ?_⟩
        rw [← List.tail_drop, ← hrest]
        rfl
      show Agrees _ ((match buf[pos]? with
        | none => throw Stop.outOfRange
        | some m => _) : Except Stop Unit) _
      rw [hget]
      show Agrees _ (word (pos + 1) >>= fun pos => _) _
      rw [word_ok (by omega)]
      refine (agrees_marker hbuf hat').bind ?_
      rintro ⟨stack', pos'⟩ ⟨stack'', rest'⟩ hmarker ⟨rfl, hat''⟩
      obtain ⟨hbytes, hlevels⟩ := guardMarker_shrinks hmarker
      simp only [List.length_cons] at hfuel hfuel' hbytes hlevels
      exact ih hat'' (by omega) (by omega)

/-- **The guard does not fault.**  The loop over the index ends, stays inside the
buffer and inside the machine word, and answers what `guardMsgpackShape` does. -/
theorem walk_eq (hbuf : buf.length < 2 ^ 64) {fuel : ℕ} (hfuel : 2 * buf.length + 2 ≤ fuel) :
    walk buf fuel [1] 0 = (guardMsgpackShape buf).mapError .rejected := by
  have hagrees : Agrees (fun _ _ => True) (walk buf fuel [1] 0) (guardMsgpackShape buf) :=
    agrees_walk hbuf ⟨Nat.zero_le _, List.drop_zero.symm⟩
      (by rw [List.length_singleton]; omega) (by rw [List.length_singleton]; omega)
  exact hagrees.eq_mapError

end Cursor

/-! ## What is written passes the guard -/

/-- **The guard is exact, and the writer keeps to it.** -/
theorem guardMsgpackShape_exact (K : Codec) (hlawful : K.Lawful) :
    (∀ buf : Bytes, buf.length < 2 ^ 64 → ∀ fuel, 2 * buf.length + 2 ≤ fuel →
      Cursor.walk buf fuel [1] 0 = (guardMsgpackShape buf).mapError .rejected) ∧
    (∀ buf, guardMsgpackShape buf = .ok () ↔
      ∃ v tail, buf = v ++ tail ∧ Framed (maxMsgpackDepth - 1) v) ∧
    ∀ (g : TypedGrain) (now : Int64) (blob : Bytes) (hash : Hash),
      K.serializeGrain g now = .ok (blob, hash) →
        10 ≤ blob.length ∧ blob.length ≤ Core.maxGrainBytes ∧
        guardMsgpackShape (blob.drop 9) = .ok () ∧
        (∃ v, K.readValue (blob.drop 9) = .ok (v, []) ∧ v.allFinite = true) ∧
        ∃ view, K.deserializeBlob blob = .ok (K.header g now, view) := by
  refine ⟨fun _ hbuf _ hfuel => Cursor.walk_eq hbuf hfuel, fun _ => guardMsgpackShape_iff, ?_⟩
  intro g now blob hash hok
  obtain ⟨fields, -, hread⟩ := deserializeBlob_of_serializeGrain hlawful hok
  obtain ⟨hfinite, rfl, hsize, payload, hpayload, hguard, rfl⟩ := TypedGrain.serializeGrain_ok hok
  have hlong := List.length_pos_iff.2 (payload_ne_nil hguard)
  have hdrop : ((K.header g now).toBytes ++ payload).drop 9 = payload := rfl
  refine ⟨?_, hsize, hdrop ▸ hguard, ⟨_, hdrop ▸ hlawful _ _ hpayload hguard, hfinite⟩, _, hread⟩
  rw [List.length_append]
  show 10 ≤ 9 + payload.length
  omega

/-- A fact with a context: its payload is walked without a fault, and its blob is
read. -/
theorem guardMsgpackShape_exact_context :
    Cursor.walk contextPayload (2 * contextPayload.length + 2) [1] 0 =
        (guardMsgpackShape contextPayload).mapError .rejected ∧
      ∃ view, contextCodec.deserializeBlob
        ((contextCodec.header factWithContext 0).toBytes ++ contextPayload) =
          .ok (contextCodec.header factWithContext 0, view) := by
  obtain ⟨hwalk, -, hwritten⟩ := guardMsgpackShape_exact contextCodec singleCodec_lawful
  obtain ⟨-, -, -, -, hread⟩ := hwritten factWithContext 0 _ _ factWithContext_serialize
  exact ⟨hwalk contextPayload (by decide) _ (le_refl _), hread⟩

end Deja
