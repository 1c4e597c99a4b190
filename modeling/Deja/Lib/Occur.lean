import Deja.Lib.Text
import Mathlib.Data.List.Infix
import Mathlib.Tactic.Common

/-!
# Occurrences of a pattern

How often a pattern stands in a text, what of it a concatenation keeps, and what
`str::replace` does to it.

* `occurrences_append` — nothing stands across a seam that keeps the pattern apart.
* `splitOnce_of_unique` — a pattern with a part that stands once is found where it is.
* `occurrences_replace` — a replacement takes its pattern out and leaves the others.
* `Frame.occurrences_fill_iff` — a text put into a frame brings no pattern of its own.
-/

namespace Deja.Text

variable {α : Type} [DecidableEq α]

/-! ## Counting -/

/-- How often a pattern stands in a text, overlaps counted. -/
def occurrences (p : List α) : List α → ℕ
  | [] => 0
  | c :: s => (if p.isPrefixOf (c :: s) then 1 else 0) + occurrences p s

variable {p q a b s : List α}

theorem occurrences_eq_zero_iff (hp : p ≠ []) : occurrences p s = 0 ↔ ¬ p <:+: s := by
  induction s with
  | nil => simpa [occurrences] using hp
  | cons c s ih =>
    rw [occurrences, Nat.add_eq_zero_iff, ih, List.infix_cons_iff, not_or,
      ← List.isPrefixOf_iff_prefix]
    split_ifs with h <;> simp [h]

theorem occurrences_le_append : occurrences p b ≤ occurrences p (a ++ b) := by
  induction a with
  | nil => exact le_rfl
  | cons c a ih =>
    rw [List.cons_append, occurrences]
    exact ih.trans (Nat.le_add_left _ _)

theorem occurrences_prefix_append (hp : p ≠ []) :
    occurrences p (p ++ s) = 1 + occurrences p (p ++ s).tail := by
  cases p with
  | nil => exact absurd rfl hp
  | cons c p =>
    rw [List.cons_append, occurrences, if_pos, List.tail_cons]
    exact List.isPrefixOf_iff_prefix.2 ⟨s, by simp⟩

/-- No occurrence of the pattern begins in one text and ends in the other. -/
def Apart (p a b : List α) : Prop :=
  ∀ u v, u ≠ [] → v ≠ [] → p = u ++ v → u <:+ a → ¬ v <+: b

/-- No beginning of the pattern ends the text. -/
def ApartLeft (p a : List α) : Prop := ∀ u ∈ p.inits, u ≠ [] → u ≠ p → ¬ u <:+ a

/-- No end of the pattern begins the text, whatever follows it. -/
def ApartRight (p b : List α) : Prop := ∀ v ∈ p.tails, v ≠ [] → v ≠ p → ¬ v <+: b ∧ ¬ b <+: v

instance : Decidable (ApartLeft p a) := inferInstanceAs (Decidable (∀ u ∈ p.inits, _))

instance : Decidable (ApartRight p b) := inferInstanceAs (Decidable (∀ v ∈ p.tails, _))

omit [DecidableEq α] in
theorem ApartLeft.apart (h : ApartLeft p a) (b : List α) : Apart p a b := by
  intro u v hu hv hp hsuffix _
  refine h u ((List.mem_inits _ _).2 ⟨v, hp.symm⟩) hu (fun heq => hv ?_) hsuffix
  rw [heq] at hp
  exact List.self_eq_append_right.1 hp

omit [DecidableEq α] in
theorem ApartRight.apart (h : ApartRight p b) (a rest : List α) : Apart p a (b ++ rest) := by
  intro u v hu hv hp _ hinit
  have hne : v ≠ p := fun heq => hu (by
    rw [heq] at hp
    exact List.self_eq_append_left.1 hp)
  obtain ⟨h₁, h₂⟩ := h v ((List.mem_tails _ _).2 ⟨u, hp.symm⟩) hv hne
  rcases List.prefix_or_prefix_of_prefix hinit (List.prefix_append b rest) with hv | hb
  · exact h₁ hv
  · exact h₂ hb

theorem isPrefixOf_append_of_apart (h : Apart p a b) (ha : a ≠ []) :
    p.isPrefixOf (a ++ b) = p.isPrefixOf a := by
  rw [Bool.eq_iff_iff, List.isPrefixOf_iff_prefix, List.isPrefixOf_iff_prefix]
  constructor
  · rintro ⟨t, ht⟩
    rcases List.append_eq_append_iff.1 ht with ⟨u, hu, -⟩ | ⟨v, hv, hb⟩
    · exact ⟨u, hu.symm⟩
    · by_cases hnil : v = []
      · rw [hv, hnil, List.append_nil]
      · exact absurd ⟨t, hb.symm⟩ (h a v ha hnil hv (List.suffix_refl a))
  · exact fun hp => hp.trans (List.prefix_append a b)

/-- **Nothing stands across a seam** that keeps the pattern apart. -/
theorem occurrences_append (h : Apart p a b) :
    occurrences p (a ++ b) = occurrences p a + occurrences p b := by
  induction a with
  | nil => simp [occurrences]
  | cons c a ih =>
    have hapart : Apart p a b := fun u v hu hv hp hsuffix =>
      h u v hu hv hp (hsuffix.trans (List.suffix_cons c a))
    rw [List.cons_append, occurrences, occurrences, ih hapart, Nat.add_assoc,
      ← List.cons_append, isPrefixOf_append_of_apart h (List.cons_ne_nil c a)]

/-! ## Splitting at a pattern that stands once -/

/-- **A pattern is found where it stands** if a part of it stands nowhere else. -/
theorem splitOnce_of_unique {k m : List α} (hq : q ≠ []) (hp : p = k ++ q ++ m)
    (hone : occurrences q (a ++ p ++ b) = 1) : splitOnce p (a ++ p ++ b) = some (a, b) := by
  have hpne : p ≠ [] := by
    rw [hp]
    simp [hq]
  induction a with
  | nil =>
    cases p with
    | nil => exact absurd rfl hpne
    | cons c p =>
      rw [List.nil_append, List.cons_append, splitOnce, if_pos]
      · simp
      · exact List.isPrefixOf_iff_prefix.2 ⟨b, by simp⟩
  | cons c a ih =>
    have hone' : occurrences q (c :: (a ++ p ++ b)) = 1 := by simpa using hone
    have hin : ∀ l : List α, 1 ≤ occurrences q (l ++ (q ++ (m ++ b))) := by
      intro l
      refine le_trans ?_ occurrences_le_append
      rw [occurrences_prefix_append hq]
      exact Nat.le_add_right 1 _
    have hlater : 1 ≤ occurrences q (a ++ p ++ b) := by
      have hassoc : a ++ p ++ b = (a ++ k) ++ (q ++ (m ++ b)) := by
        rw [hp]
        simp
      rw [hassoc]
      exact hin _
    -- an earlier occurrence of the pattern would be a second one of its part
    have hfirst : ¬ p <+: c :: (a ++ p ++ b) := by
      rintro ⟨t, ht⟩
      have hsplit : c :: (a ++ p ++ b) = k ++ (q ++ (m ++ t)) := by
        rw [← ht, hp]
        simp
      have htail : (q ++ (m ++ t)).tail = (a ++ k).drop k.length ++ (q ++ (m ++ b)) := by
        have hdrop : (q ++ (m ++ t)).tail = (a ++ p ++ b).drop k.length := by
          have hleft : (k ++ (q ++ (m ++ t))).drop k.length = q ++ (m ++ t) := List.drop_left
          rw [← List.drop_one, ← hleft, ← hsplit, List.drop_drop, List.drop_succ_cons]
        rw [hdrop, hp, ← List.drop_append_of_le_length (by simp)]
        simp
      have htwo : 2 ≤ occurrences q (c :: (a ++ p ++ b)) := by
        rw [hsplit]
        refine le_trans ?_ occurrences_le_append
        rw [occurrences_prefix_append hq, htail]
        have hrest := hin ((a ++ k).drop k.length)
        omega
      omega
    have hrest : occurrences q (a ++ p ++ b) = 1 := by
      rw [occurrences] at hone'
      omega
    rw [List.cons_append, List.cons_append, splitOnce, if_neg, ih hrest]
    · rfl
    · rw [List.isPrefixOf_iff_prefix]
      exact hfirst

/-! ## Replacing -/

/-- `str::replace` once `skip` more characters of a match are passed over. -/
def replaceFrom (pat rep : List α) : ℕ → List α → List α
  | _, [] => []
  | skip + 1, _ :: s => replaceFrom pat rep skip s
  | 0, c :: s =>
    if pat.isPrefixOf (c :: s) then rep ++ replaceFrom pat rep (pat.length - 1) s
    else c :: replaceFrom pat rep 0 s

/-- `str::replace`. -/
def replace (pat rep s : List α) : List α := replaceFrom pat rep 0 s

theorem replaceFrom_eq (pat rep : List α) (skip : ℕ) (s : List α) :
    replaceFrom pat rep skip s = replace pat rep (s.drop skip) := by
  induction s generalizing skip with
  | nil => cases skip <;> simp [replace, replaceFrom]
  | cons c s ih =>
    cases skip with
    | zero => rfl
    | succ skip => rw [replaceFrom, ih, List.drop_succ_cons]

variable {pat rep : List α}

theorem replace_prefix (hpat : pat ≠ []) :
    replace pat rep (pat ++ s) = rep ++ replace pat rep s := by
  cases pat with
  | nil => exact absurd rfl hpat
  | cons c pat =>
    have hmatch : (c :: pat).isPrefixOf (c :: (pat ++ s)) = true :=
      List.isPrefixOf_iff_prefix.2 ⟨s, by simp⟩
    rw [List.cons_append, replace, replaceFrom, if_pos hmatch, replaceFrom_eq]
    simp

theorem replace_cons {c : α} (h : ¬ pat <+: c :: s) :
    replace pat rep (c :: s) = c :: replace pat rep s := by
  rw [replace, replaceFrom, if_neg]
  · rfl
  · rwa [List.isPrefixOf_iff_prefix]

/-- A word that meets neither the pattern nor its replacement is read alike. -/
theorem isPrefixOf_replace {x y : α} {w : List α} (hx : pat.head? = some x)
    (hy : rep.head? = some y) (hxw : x ∉ w) (hyw : y ∉ w) (s : List α) :
    w.isPrefixOf (replace pat rep s) = w.isPrefixOf s := by
  induction w generalizing s with
  | nil => simp
  | cons z w ih =>
    rw [List.mem_cons, not_or] at hxw hyw
    cases s with
    | nil => rfl
    | cons c s =>
      by_cases hmatch : pat <+: c :: s
      · obtain ⟨t, ht⟩ := hmatch
        have hne : pat ≠ [] := by
          rintro rfl
          cases hx
        have hc : c = x := by
          cases pat with
          | nil => cases hx
          | cons d pat =>
            rw [List.cons_append, List.cons.injEq] at ht
            rw [← ht.1]
            exact Option.some.inj hx
        rw [← ht, replace_prefix hne, ht]
        cases rep with
        | nil => cases hy
        | cons d rep =>
          obtain rfl := Option.some.inj hy
          have hzd : (z == d) = false := beq_false_of_ne (Ne.symm hyw.1)
          have hzc : (z == c) = false := beq_false_of_ne (by rw [hc]; exact Ne.symm hxw.1)
          simp [List.isPrefixOf, hzd, hzc]
      · rw [replace_cons hmatch]
        simp only [List.isPrefixOf, ih hxw.2 hyw.2 s]

/-- **A replacement takes its pattern out and leaves the other patterns.** -/
theorem occurrences_replace {x y : α} (hx : pat.head? = some x) (hy : rep.head? = some y)
    (hxq : x ∉ q.tail) (hyq : y ∉ q.tail) (hpat : ApartLeft q pat) (hrep : ApartLeft q rep)
    (hin : ¬ q <:+: rep) (hother : q ≠ pat → ¬ q <:+: pat) (hq : q ≠ []) (s : List α) :
    occurrences q (replace pat rep s) = if q = pat then 0 else occurrences q s := by
  have hne : pat ≠ [] := by
    rintro rfl
    cases hx
  induction hn : s.length using Nat.strong_induction_on generalizing s with
  | _ n ih =>
    cases s with
    | nil => simp [replace, replaceFrom, occurrences]
    | cons c s =>
      by_cases hmatch : pat <+: c :: s
      · obtain ⟨t, ht⟩ := hmatch
        have hlt : t.length < n := by
          have hpos := List.length_pos_iff.2 hne
          rw [← hn, ← ht, List.length_append]
          omega
        rw [← ht, replace_prefix hne, occurrences_append (hrep.apart _),
          (occurrences_eq_zero_iff hq).2 hin, ih t.length hlt t rfl,
          occurrences_append (hpat.apart _)]
        split_ifs with heq
        · rfl
        · rw [(occurrences_eq_zero_iff hq).2 (hother heq)]
      · have hlt : s.length < n := by
          rw [← hn]
          exact Nat.lt_succ_self _
        rw [replace_cons hmatch, occurrences, occurrences, ih s.length hlt s rfl]
        have hhead : q.isPrefixOf (c :: replace pat rep s) = q.isPrefixOf (c :: s) := by
          cases q with
          | nil => exact absurd rfl hq
          | cons z q =>
            rw [List.tail_cons] at hxq hyq
            simp only [List.isPrefixOf, isPrefixOf_replace hx hy hxq hyq]
        rw [hhead]
        by_cases heq : q = pat
        · rw [if_pos heq, if_pos heq, if_neg]
          rw [heq, List.isPrefixOf_iff_prefix]
          exact hmatch
        · rw [if_neg heq, if_neg heq]

/-! ## Trimming -/

theorem occurrences_of_disjoint {ws : α → Bool} (hq : q ≠ []) (hws : ∀ c ∈ q, ws c = false)
    (hs : ∀ c ∈ s, ws c = true) : occurrences q s = 0 := by
  rw [occurrences_eq_zero_iff hq]
  intro hin
  obtain ⟨c, hc⟩ := List.exists_mem_of_ne_nil q hq
  have hsame := hws c hc
  rw [hs c (hin.subset hc)] at hsame
  cases hsame

/-- Trimming takes no pattern without white space away. -/
theorem occurrences_trim {ws : α → Bool} (hq : q ≠ []) (hws : ∀ c ∈ q, ws c = false)
    (s : List α) : occurrences q (trim ws s) = occurrences q s := by
  have hfront : ∀ t : List α, occurrences q (t.dropWhile ws) = occurrences q t := by
    intro t
    have hskip : ∀ c ∈ t.takeWhile ws, ws c = true := fun c => List.mem_takeWhile_imp
    have hapart : Apart q (t.takeWhile ws) (t.dropWhile ws) := by
      intro u v hu _ hp hsuffix _
      obtain ⟨c, hc⟩ := List.exists_mem_of_ne_nil u hu
      have hsame := hws c (by rw [hp]; exact List.mem_append_left _ hc)
      rw [hskip c (hsuffix.subset hc)] at hsame
      cases hsame
    conv_rhs => rw [← List.takeWhile_append_dropWhile (p := ws) (l := t)]
    rw [occurrences_append hapart, occurrences_of_disjoint hq hws hskip, Nat.zero_add]
  have hback : ∀ t : List α, occurrences q (t.rdropWhile ws) = occurrences q t := by
    intro t
    have hskip : ∀ c ∈ t.rtakeWhile ws, ws c = true := fun c hc =>
      List.mem_takeWhile_imp (List.mem_reverse.1 hc)
    have hapart : Apart q (t.rdropWhile ws) (t.rtakeWhile ws) := by
      intro u v _ hv hp _ hinit
      obtain ⟨c, hc⟩ := List.exists_mem_of_ne_nil v hv
      have hsame := hws c (by rw [hp]; exact List.mem_append_right _ hc)
      rw [hskip c (hinit.subset hc)] at hsame
      cases hsame
    conv_rhs => rw [← List.rdropWhile_append_rtakeWhile (p := ws) (l := t)]
    rw [occurrences_append hapart, occurrences_of_disjoint hq hws hskip, Nat.add_zero]
  rw [trim, hback, hfront]

/-! ## Frames -/

/-- A text with three holes. -/
structure Frame (α : Type) where
  /-- before the first hole -/
  first : List α
  second : List α
  third : List α
  /-- after the last hole -/
  last : List α

namespace Frame

/-- The frame with its holes filled. -/
def fill (f : Frame α) (a b c : List α) : List α :=
  f.first ++ a ++ f.second ++ b ++ f.third ++ c ++ f.last

/-- No occurrence of the pattern stands across an edge of the frame. -/
structure Clear (p : List α) (f : Frame α) : Prop where
  first : ApartLeft p f.first
  second : ApartRight p f.second ∧ ApartLeft p f.second
  third : ApartRight p f.third ∧ ApartLeft p f.third
  last : f.last = [] ∨ ApartRight p f.last

variable {f : Frame α} {c : List α}

instance : Decidable (f.Clear p) :=
  decidable_of_iff (ApartLeft p f.first ∧ (ApartRight p f.second ∧ ApartLeft p f.second) ∧
      (ApartRight p f.third ∧ ApartLeft p f.third) ∧ (f.last = [] ∨ ApartRight p f.last))
    ⟨fun ⟨h₁, h₂, h₃, h₄⟩ => ⟨h₁, h₂, h₃, h₄⟩, fun ⟨h₁, h₂, h₃, h₄⟩ => ⟨h₁, h₂, h₃, h₄⟩⟩

theorem Clear.occurrences_fill (h : f.Clear p) : occurrences p (f.fill a b c) =
    occurrences p f.first + occurrences p a + occurrences p f.second + occurrences p b +
      occurrences p f.third + occurrences p c + occurrences p f.last := by
  have hlast : Apart p c f.last := by
    rcases h.last with hnil | hlast
    · rw [hnil]
      exact fun u v _ hv _ _ hinit => hv (List.prefix_nil.1 hinit)
    · simpa using hlast.apart c []
  have hassoc : f.fill a b c =
      f.first ++ (a ++ (f.second ++ (b ++ (f.third ++ (c ++ f.last))))) := by
    simp [fill]
  rw [hassoc, occurrences_append (h.first.apart _), occurrences_append (h.second.1.apart _ _),
    occurrences_append (h.second.2.apart _), occurrences_append (h.third.1.apart _ _),
    occurrences_append (h.third.2.apart _), occurrences_append hlast]
  omega

/-- **What is put into a frame brings no pattern** exactly when it has none. -/
theorem Clear.occurrences_fill_iff (h : f.Clear p) (hp : p ≠ []) :
    occurrences p (f.fill a b c) = occurrences p (f.fill [] [] []) ↔
      ¬ p <:+: a ∧ ¬ p <:+: b ∧ ¬ p <:+: c := by
  rw [h.occurrences_fill, h.occurrences_fill, ← occurrences_eq_zero_iff hp,
    ← occurrences_eq_zero_iff hp, ← occurrences_eq_zero_iff hp]
  simp only [occurrences]
  omega

omit [DecidableEq α] in
theorem drop_fill : (f.fill a b c).drop f.first.length =
    a ++ (f.second ++ (b ++ (f.third ++ (c ++ f.last)))) := by
  simp [fill]

section Split

variable {k m more : List α}

/-- A pattern with a part that stands once in a filled frame is found behind the first
hole. -/
theorem Clear.splitOnce_second (h : f.Clear q) (hq : q ≠ []) (hp : p = k ++ q ++ m)
    (hsecond : f.second = p ++ more) (hfirst : occurrences q f.first = 0)
    (hone : occurrences q (f.fill a b c) = 1) :
    splitOnce p (a ++ (f.second ++ (b ++ (f.third ++ (c ++ f.last))))) =
      some (a, more ++ (b ++ (f.third ++ (c ++ f.last)))) := by
  have hrest : occurrences q (a ++ (f.second ++ (b ++ (f.third ++ (c ++ f.last))))) = 1 := by
    have hfill : f.fill a b c =
        f.first ++ (a ++ (f.second ++ (b ++ (f.third ++ (c ++ f.last))))) := by simp [fill]
    rw [hfill, occurrences_append (h.first.apart _), hfirst, Nat.zero_add] at hone
    exact hone
  rw [hsecond] at hrest ⊢
  have hassoc : ∀ rest : List α, a ++ (p ++ more ++ rest) = a ++ p ++ (more ++ rest) := by simp
  rw [hassoc] at hrest ⊢
  exact splitOnce_of_unique hq hp hrest

/-- The same behind the second hole. -/
theorem Clear.splitOnce_third (h : f.Clear q) (hq : q ≠ []) (hp : p = k ++ q ++ m)
    (hthird : f.third = p ++ more) (hfirst : occurrences q f.first = 0)
    (hsecond : occurrences q f.second = 0) (ha : occurrences q a = 0)
    (hone : occurrences q (f.fill a b c) = 1) :
    splitOnce p (b ++ (f.third ++ (c ++ f.last))) = some (b, more ++ (c ++ f.last)) := by
  have hrest : occurrences q (b ++ (f.third ++ (c ++ f.last))) = 1 := by
    have hfill : f.fill a b c =
        f.first ++ (a ++ (f.second ++ (b ++ (f.third ++ (c ++ f.last))))) := by simp [fill]
    rw [hfill, occurrences_append (h.first.apart _), occurrences_append (h.second.1.apart _ _),
      occurrences_append (h.second.2.apart _), hfirst, hsecond, ha] at hone
    simpa using hone
  rw [hthird] at hrest ⊢
  have hassoc : ∀ rest : List α, b ++ (p ++ more ++ rest) = b ++ p ++ (more ++ rest) := by simp
  rw [hassoc] at hrest ⊢
  exact splitOnce_of_unique hq hp hrest

end Split

end Frame

end Deja.Text
