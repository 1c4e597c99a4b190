import Mathlib.Tactic

/-!
# Journals of keyed changes

A journal lists, in order, what was put under a key and what was dropped from
it; a key that holds something keeps it when more is put there.

A copy of the journal may travel without the values that were put at the time.
`ship final` gives every `put` the value its key has in the state the journal
ends in, and leaves it out where the key ends empty.  The copy still replays to
that state, and does so again over a part that was replayed before
(`replay_ship`): a value the copy gets wrong on the way is one that a later
`drop` takes away.
-/

namespace Journal

variable {κ β : Type} [DecidableEq κ]

/-- One entry of a journal. -/
inductive Change (κ β : Type) where
  | put (k : κ) (v : β)
  | drop (k : κ)

namespace Change

/-- The key an entry is about. -/
def key : Change κ β → κ
  | put k _ | drop k => k

/-- Whether the key holds something after the entry. -/
def keeps : Change κ β → Bool
  | put _ _ => true
  | drop _ => false

/-- The state after an entry. -/
def on : Change κ β → (κ → Option β) → κ → Option β
  | put k v, s => Function.update s k ((s k).or (some v))
  | drop k, s => Function.update s k none

/-- An entry as it travels to a copy of the state `final`. -/
def ship (final : κ → Option β) : Change κ β → Option (Change κ β)
  | put k _ => (final k).map (put k)
  | drop k => some (drop k)

theorem on_of_ne {c : Change κ β} {k : κ} (h : c.key ≠ k) (s : κ → Option β) : c.on s k = s k := by
  cases c with
  | put k' v => exact Function.update_of_ne h.symm _ _
  | drop k' => exact Function.update_of_ne h.symm _ _

theorem isSome_on {c : Change κ β} (s : κ → Option β) : (c.on s c.key).isSome = c.keeps := by
  cases c with
  | put k v =>
    rw [on, key, Function.update_self]
    cases s k <;> rfl
  | drop k =>
    rw [on, key, Function.update_self]
    rfl

/-- A value stays where it is until it is dropped. -/
theorem on_put_of_some {k : κ} {v w : β} {s : κ → Option β} (h : s k = some w) :
    (put k v).on s = s := by
  rw [on, h, Option.some_or, ← h, Function.update_eq_self]

end Change

open Change

/-- The state after a journal. -/
def replay (cs : List (Change κ β)) (s : κ → Option β) : κ → Option β :=
  cs.foldl (fun s c => c.on s) s

theorem replay_cons (c : Change κ β) (cs : List (Change κ β)) (s : κ → Option β) :
    replay (c :: cs) s = replay cs (c.on s) := rfl

theorem replay_append (cs ds : List (Change κ β)) (s : κ → Option β) :
    replay (cs ++ ds) s = replay ds (replay cs s) := List.foldl_append

/-- Keys dropped in a row. -/
theorem replay_drops (ks : List κ) (s : κ → Option β) (k : κ) :
    replay (ks.map drop) s k = if k ∈ ks then none else s k := by
  induction ks generalizing s with
  | nil => simp [replay]
  | cons k' ks ih =>
    rw [List.map_cons, replay_cons, ih]
    by_cases hks : k ∈ ks
    · rw [if_pos hks, if_pos (List.mem_cons_of_mem _ hks)]
    · rw [if_neg hks]
      by_cases hk : k = k'
      · rw [if_pos (by simp [hk]), hk, Change.on, Function.update_self]
      · rw [if_neg (by simp [hk, hks]), Change.on, Function.update_of_ne hk]

/-- **The last entry of a key decides** whether the key holds something. -/
theorem isSome_replay (cs : List (Change κ β)) (s : κ → Option β) (k : κ) :
    (replay cs s k).isSome =
      (((cs.filter fun c => c.key = k).getLast?).map keeps).getD (s k).isSome := by
  induction cs using List.reverseRecOn with
  | nil => rfl
  | append_singleton cs c ih =>
    rw [replay_append, List.filter_append]
    by_cases hc : c.key = k
    · subst hc
      rw [List.filter_singleton, decide_eq_true rfl, cond_true, List.getLast?_append_of_ne_nil _
        (by simp)]
      exact isSome_on _
    · rw [List.filter_singleton, decide_eq_false hc, cond_false, List.append_nil, ← ih]
      exact congrArg Option.isSome (on_of_ne hc _)

/-- A key that is not dropped keeps its value. -/
theorem replay_of_some {cs : List (Change κ β)} {s : κ → Option β} {k : κ} {v : β}
    (hk : drop k ∉ cs) (h : s k = some v) : replay cs s k = some v := by
  induction cs generalizing s with
  | nil => exact h
  | cons c cs ih =>
    rw [List.mem_cons, not_or] at hk
    refine ih hk.2 ?_
    by_cases hc : c.key = k
    · cases c with
      | put k' w =>
        cases hc
        exact (congrFun (on_put_of_some h) _).trans h
      | drop k' =>
        cases hc
        exact absurd rfl hk.1
    · exact (on_of_ne hc s).trans h

theorem replay_ship_cons (c : Change κ β) (cs : List (Change κ β)) (final r : κ → Option β) :
    replay ((c :: cs).filterMap (ship final)) r =
      replay (cs.filterMap (ship final)) ((c.ship final).elim r fun c => c.on r) := by
  rw [List.filterMap_cons]
  cases c.ship final <;> rfl

/-- What travels of an entry is about the same key. -/
theorem ship_of_ne {c : Change κ β} {k : κ} (h : c.key ≠ k) (final r : κ → Option β) :
    ((c.ship final).elim r fun c => c.on r) k = r k := by
  cases c with
  | drop k' => exact on_of_ne (c := drop k') h r
  | put k' v =>
    simp only [ship]
    cases final k' with
    | none => rfl
    | some w => exact on_of_ne (c := put k' w) h r

/-- **A part of a journal shipped without its values** leaves under a key what the key ends with
when the last entry of the part put something there, and nothing otherwise. -/
theorem replay_ship_last (cs : List (Change κ β)) {final s : κ → Option β} {k : κ}
    (hs : s k = none) : replay (cs.filterMap (ship final)) s k =
      if ((cs.filter fun c => c.key = k).getLast?).any keeps then final k else none := by
  induction cs using List.reverseRecOn with
  | nil => simpa [replay] using hs
  | append_singleton cs c ih =>
    have hlast : replay ((cs ++ [c]).filterMap (ship final)) s =
        (c.ship final).elim (replay (cs.filterMap (ship final)) s)
          fun c => c.on (replay (cs.filterMap (ship final)) s) := by
      rw [List.filterMap_append, replay_append, replay_ship_cons]
      rfl
    rw [hlast, List.filter_append]
    by_cases hc : c.key = k
    · rw [List.filter_singleton, decide_eq_true hc, cond_true, List.getLast?_append_of_ne_nil _
        (by simp)]
      cases c with
      | drop k' =>
        obtain rfl : k' = k := hc
        simp [ship, Change.on, keeps]
      | put k' v =>
        obtain rfl : k' = k := hc
        cases hfinal : final k' with
        | none =>
          rw [hfinal, ite_self] at ih
          simp [ship, hfinal, ih, keeps]
        | some w =>
          rw [hfinal] at ih
          simp only [ship, hfinal, Option.map_some, Option.elim_some]
          rw [Change.on, Function.update_self, ih]
          split_ifs <;> simp [keeps] at *
    · rw [ship_of_ne hc, ih, List.filter_singleton, decide_eq_false hc, cond_false,
        List.append_nil]

/-- A copy that agrees on a key, or that will drop it yet, ends up agreeing. -/
theorem replay_ship_apply {cs : List (Change κ β)} {final r s : κ → Option β} {k : κ}
    (hfinal : replay cs s k = final k) (h : r k = s k ∨ drop k ∈ cs) :
    replay (cs.filterMap (ship final)) r k = final k := by
  induction cs generalizing r s with
  | nil => exact (h.resolve_right List.not_mem_nil).trans hfinal
  | cons c cs ih =>
    rw [replay_cons] at hfinal
    rw [replay_ship_cons]
    refine ih hfinal ?_
    by_cases hc : c.key = k
    · subst hc
      cases c with
      | drop k => exact .inl (by simp [ship, Change.on, key])
      | put k v =>
        by_cases hdrop : drop k ∈ cs
        · exact .inr hdrop
        -- nothing drops the key any more: what is put now is its last value
        · have hsame : r k = s k := by
            rcases h with h | h
            · exact h
            · rcases List.mem_cons.1 h with h | h
              · cases h
              · exact absurd h hdrop
          have hon : (put k v).on s k = some ((s k).getD v) := by
            rw [Change.on, Function.update_self]
            cases s k <;> rfl
          have hlast : final k = some ((s k).getD v) := by
            rw [← replay_of_some hdrop hon]
            exact hfinal.symm
          refine .inl ?_
          simp only [key, ship, hlast, Option.map_some, Option.elim_some, hon]
          rw [Change.on, Function.update_self, hsame]
          cases s k <;> rfl
    · rw [ship_of_ne hc, on_of_ne hc]
      refine h.imp_right fun hmem => ?_
      rcases List.mem_cons.1 hmem with rfl | hmem
      · exact absurd rfl hc
      · exact hmem

/-- The state a whole journal ends in decides, wherever its copy is replayed, whether a key of the
journal holds something. -/
theorem isSome_replay_ship {cs : List (Change κ β)} {final s : κ → Option β} {k : κ}
    (h : ((cs.filter fun c => c.key = k).getLast?).map keeps = some (final k).isSome) :
    (replay (cs.filterMap (ship final)) s k).isSome = (final k).isSome := by
  induction cs using List.reverseRecOn with
  | nil => cases h
  | append_singleton cs c ih =>
    rw [List.filter_append] at h
    have hlast : replay ((cs ++ [c]).filterMap (ship final)) s =
        (c.ship final).elim (replay (cs.filterMap (ship final)) s)
          fun c => c.on (replay (cs.filterMap (ship final)) s) := by
      rw [List.filterMap_append, replay_append, replay_ship_cons]
      rfl
    rw [hlast]
    by_cases hc : c.key = k
    · rw [List.filter_singleton, decide_eq_true hc, cond_true, List.getLast?_append_of_ne_nil _
        (by simp), List.getLast?_singleton, Option.map_some, Option.some.injEq] at h
      cases c with
      | drop k' =>
        obtain rfl : k' = k := hc
        rw [← h]
        exact isSome_on (c := drop k') _
      | put k' v =>
        obtain rfl : k' = k := hc
        obtain ⟨w, hw⟩ := Option.isSome_iff_exists.1 h.symm
        simp only [ship, hw, Option.map_some, Option.elim_some]
        exact isSome_on (c := put k' w) _
    · rw [List.filter_singleton, decide_eq_false hc, cond_false, List.append_nil] at h
      rw [ship_of_ne hc, ih h]

/-- A key the journal does not name keeps what it holds. -/
theorem replay_ship_of_not_mem {cs : List (Change κ β)} {final s : κ → Option β} {k : κ}
    (h : ∀ c ∈ cs, c.key ≠ k) : replay (cs.filterMap (ship final)) s k = s k := by
  induction cs generalizing s with
  | nil => rfl
  | cons c cs ih =>
    rw [replay_ship_cons, ih fun c' hc' => h c' (List.mem_cons_of_mem _ hc'),
      ship_of_ne (h c List.mem_cons_self)]

/-- What a key holds after a copy was replayed it held before, or at the end of the journal. -/
theorem replay_ship_mem {cs : List (Change κ β)} {final s : κ → Option β} {k : κ} {v : β}
    (h : replay (cs.filterMap (ship final)) s k = some v) : s k = some v ∨ final k = some v := by
  induction cs generalizing s with
  | nil => exact .inl h
  | cons c cs ih =>
    rw [replay_ship_cons] at h
    refine (ih h).elim (fun hs => ?_) .inr
    by_cases hc : c.key = k
    · cases c with
      | drop k' =>
        obtain rfl : k' = k := hc
        simp [ship, Change.on] at hs
      | put k' w =>
        obtain rfl : k' = k := hc
        cases hfinal : final k' with
        | none =>
          simp only [ship, hfinal] at hs
          exact .inl hs
        | some x =>
          simp only [ship, hfinal, Option.map_some, Option.elim_some] at hs
          rw [Change.on, Function.update_self] at hs
          cases hk : s k' with
          | none =>
            rw [hk] at hs
            exact .inr hs
          | some y =>
            rw [hk] at hs
            exact .inl hs
    · rw [ship_of_ne hc] at hs
      exact .inl hs

omit [DecidableEq κ] in
theorem mem_drop_of_ship {cs : List (Change κ β)} {final : κ → Option β} {k : κ}
    (h : drop k ∈ cs.filterMap (ship final)) : drop k ∈ cs := by
  obtain ⟨c, hc, hship⟩ := List.mem_filterMap.1 h
  cases c with
  | drop k' =>
    cases hship
    exact hc
  | put k' v =>
    simp only [ship, Option.map_eq_some_iff] at hship
    obtain ⟨w, -, hw⟩ := hship
    cases hw

/-- **A journal shipped without its values.**  With the values of the state it
ends in it leads there, from where it began and from everywhere on the way. -/
theorem replay_ship (p q : List (Change κ β)) (s : κ → Option β) :
    replay ((p ++ q).filterMap (ship (replay (p ++ q) s))) (replay p s) = replay (p ++ q) s := by
  funext k
  by_cases hdrop : drop k ∈ p ++ q
  · exact replay_ship_apply rfl (.inr hdrop)
  · have hp : drop k ∉ p := fun h => hdrop (List.mem_append_left _ h)
    have hq : drop k ∉ q := fun h => hdrop (List.mem_append_right _ h)
    cases hv : replay p s k with
    | none =>
      refine replay_ship_apply rfl (.inl ?_)
      cases hs : s k with
      | none => exact hv
      | some w =>
        rw [replay_of_some hp hs] at hv
        cases hv
    | some v =>
      rw [replay_of_some (fun h => hdrop (mem_drop_of_ship h)) hv, replay_append,
        replay_of_some hq hv]

end Journal
