import Mathlib.Data.List.Chain
import Deja.Lib.Assoc

/-!
# Breadth-first search

A search visits the edges that leave one level of nodes after another and keeps each
node it had not seen with the node it was found from.  It may be told to stop after
any of them.  What it has found is in order of the distance from the start, each node
at the distance of its parent and one more (`Tree`), and a search that ran to its end
has found all nodes within its depth (`search_complete`).
-/

namespace Bfs

variable {α : Type}

/-! ## Distance -/

variable (nbrs : α → List α)

/-- `b` is `n` edges away from `a` by some walk. -/
inductive Walk (a : α) : ℕ → α → Prop
  | refl : Walk a 0 a
  | step {n : ℕ} {b c : α} (h : Walk a n b) (hc : c ∈ nbrs b) : Walk a (n + 1) c

/-- `b` is at distance `n` of `a`. -/
def Dist (a : α) (n : ℕ) (b : α) : Prop := Walk nbrs a n b ∧ ∀ m < n, ¬Walk nbrs a m b

variable {nbrs} {a b c : α} {n m : ℕ}

theorem Walk.dist (h : Walk nbrs a n b) : ∃ m ≤ n, Dist nbrs a m b := by
  classical
  have hex : ∃ m, Walk nbrs a m b := ⟨n, h⟩
  exact ⟨Nat.find hex, Nat.find_min' hex h, Nat.find_spec hex, fun m hm => Nat.find_min hex hm⟩

theorem Dist.unique (h : Dist nbrs a n b) (h' : Dist nbrs a m b) : n = m := by
  rcases lt_trichotomy n m with hlt | heq | hlt
  · exact absurd h.1 (h'.2 n hlt)
  · exact heq
  · exact absurd h'.1 (h.2 m hlt)

theorem Dist.zero : Dist nbrs a 0 a := ⟨.refl, fun _ hm => absurd hm (Nat.not_lt_zero _)⟩

theorem Dist.mem_start (nbrs : α → List α) (a x : α) : x ∈ [a] ↔ Dist nbrs a 0 x := by
  rw [List.mem_singleton]
  constructor
  · rintro rfl
    exact .zero
  · intro hx
    cases hx.1
    rfl

/-- A node past the start has a neighbour one nearer. -/
theorem Dist.pred (h : Dist nbrs a (n + 1) c) : ∃ b, Dist nbrs a n b ∧ c ∈ nbrs b := by
  obtain ⟨hwalk, hmin⟩ := h
  cases hwalk with
  | step hb hc =>
    refine ⟨_, ⟨hb, fun m hm hm' => ?_⟩, hc⟩
    exact hmin (m + 1) (by omega) (.step hm' hc)

theorem Walk.mono {nbrs' : α → List α} (h : Walk nbrs a n b)
    (hsub : ∀ x y, y ∈ nbrs x → y ∈ nbrs' x) : Walk nbrs' a n b := by
  induction h with
  | refl => exact .refl
  | step _ hc ih => exact .step ih (hsub _ _ hc)

/-- Where no node is at a distance, none is farther. -/
theorem Dist.none_beyond (hnone : ∀ b, ¬Dist nbrs a n b) (hle : n ≤ m) (c : α) :
    ¬Dist nbrs a m c := by
  induction m, hle using Nat.le_induction generalizing c with
  | base => exact hnone c
  | succ m _ ih =>
    intro h
    obtain ⟨b, hb, -⟩ := h.pred
    exact ih b hb

/-! ## The search -/

/-- A search so far: the nodes seen, each node found with the node it was found from,
and the next level. -/
structure Search (α : Type) where
  seen : List α
  tree : List (α × α)
  next : List α

/-- Nothing found yet. -/
def Search.start (a : α) : Search α := ⟨[a], [], []⟩

/-- The edges that leave a level: a neighbour and the node it is a neighbour of. -/
def edges (nbrs : α → List α) (level : List α) : List (α × α) :=
  level.flatMap fun x => (nbrs x).map fun y => (y, x)

/-- Keep a node. -/
def Search.push (s : Search α) (e : α × α) : Search α :=
  ⟨e.1 :: s.seen, s.tree ++ [e], s.next ++ [e.1]⟩

variable [DecidableEq α]

/-- Visit edges until told to stop; says whether it was. -/
def visit (stop : Search α → Bool) : List (α × α) → Search α → Search α × Bool
  | [], s => (s, false)
  | e :: es, s =>
    if e.1 ∈ s.seen then visit stop es s
    else if stop (s.push e) then (s.push e, true)
    else visit stop es (s.push e)

/-- Visit at most `depth` levels. -/
def levels (stop : Search α → Bool) (nbrs : α → List α) :
    ℕ → List α → Search α → Search α × Bool
  | 0, _, s => (s, false)
  | depth + 1, level, s =>
    match visit stop (edges nbrs level) { s with next := [] } with
    | (s, true) => (s, true)
    | (s, false) => if s.next.isEmpty then (s, false) else levels stop nbrs depth s.next s

/-- The search from a node. -/
def search (stop : Search α → Bool) (nbrs : α → List α) (depth : ℕ) (a : α) :
    Search α × Bool :=
  levels stop nbrs depth [a] (.start a)

theorem levels_succ {stop : Search α → Bool} {depth : ℕ} {level : List α} {s r : Search α}
    {b : Bool} (hr : visit stop (edges nbrs level) { s with next := [] } = (r, b)) :
    levels stop nbrs (depth + 1) level s = if b then (r, true)
      else if r.next.isEmpty then (r, false) else levels stop nbrs depth r.next r := by
  rw [levels, hr]
  cases b with
  | true => rfl
  | false => rw [if_neg Bool.false_ne_true]

omit [DecidableEq α] in
theorem mem_edges {level : List α} {e : α × α} :
    e ∈ edges nbrs level ↔ e.2 ∈ level ∧ e.1 ∈ nbrs e.2 := by
  unfold edges
  rw [List.mem_flatMap]
  constructor
  · rintro ⟨x, hx, he⟩
    obtain ⟨y, hy, rfl⟩ := List.mem_map.1 he
    exact ⟨hx, hy⟩
  · rintro ⟨hlevel, hnbr⟩
    exact ⟨e.2, hlevel, List.mem_map.2 ⟨e.1, hnbr, rfl⟩⟩

/-! ## What is found -/

/-- What holds of a search from `a` whose current level is the one at distance `k`. -/
structure Tree (nbrs : α → List α) (a : α) (k : ℕ) (s : Search α) : Prop where
  nodup : (a :: s.tree.map Prod.fst).Nodup
  seen : ∀ x, x ∈ s.seen ↔ x ∈ a :: s.tree.map Prod.fst
  parent : ∀ e ∈ s.tree, ∃ m ≤ k, Dist nbrs a m e.2 ∧ Dist nbrs a (m + 1) e.1 ∧ e.1 ∈ nbrs e.2
  rooted : ∀ e ∈ s.tree, e.2 ∈ s.seen
  ordered : s.tree.Pairwise fun e e' => ∀ m n, Dist nbrs a m e.1 → Dist nbrs a n e'.1 → m ≤ n
  covered : ∀ j ≤ k, ∀ x, Dist nbrs a j x → x ∈ s.seen
  next : ∀ x, x ∈ s.next ↔ x ∈ s.seen ∧ Dist nbrs a (k + 1) x

variable {k : ℕ} {s s' : Search α} {stop : Search α → Bool}

omit [DecidableEq α] in
theorem Tree.dist_of_mem (h : Tree nbrs a k s) {e : α × α} (he : e ∈ s.tree) :
    ∃ m ≤ k, Dist nbrs a (m + 1) e.1 := by
  obtain ⟨m, hm, -, hdist, -⟩ := h.parent e he
  exact ⟨m, hm, hdist⟩

omit [DecidableEq α] in
/-- A neighbour of the current level that was not seen is one farther. -/
theorem Tree.dist_new (h : Tree nbrs a k s) {e : α × α} (hp : Dist nbrs a k e.2)
    (hnbr : e.1 ∈ nbrs e.2) (hnew : e.1 ∉ s.seen) : Dist nbrs a (k + 1) e.1 := by
  obtain ⟨m, hm, hdist⟩ := (Walk.step hp.1 hnbr).dist
  rcases Nat.lt_or_ge k m with hlt | hle
  · obtain rfl : m = k + 1 := by omega
    exact hdist
  · exact absurd (h.covered m hle _ hdist) hnew

omit [DecidableEq α] in
/-- Keeping a node keeps all of it. -/
theorem Tree.push (h : Tree nbrs a k s) {e : α × α} (hp : Dist nbrs a k e.2)
    (hnbr : e.1 ∈ nbrs e.2) (hnew : e.1 ∉ s.seen) : Tree nbrs a k (s.push e) := by
  have hdist := h.dist_new hp hnbr hnew
  refine ⟨?_, ?_, ?_, ?_, ?_, ?_, ?_⟩
  · rw [show (s.push e).tree = s.tree ++ [e] from rfl, List.map_append, ← List.cons_append,
      List.nodup_append]
    refine ⟨h.nodup, List.nodup_singleton _, ?_⟩
    rintro x hx y hy rfl
    cases List.mem_singleton.1 hy
    exact hnew ((h.seen _).2 hx)
  · intro x
    show x ∈ e.1 :: s.seen ↔ x ∈ a :: (s.tree ++ [e]).map Prod.fst
    rw [List.mem_cons, h.seen]
    simp only [List.map_append, List.mem_cons, List.mem_append, List.map_cons, List.map_nil,
      List.not_mem_nil, or_false]
    tauto
  · intro x hx
    rcases List.mem_append.1 hx with hx | hx
    · exact h.parent x hx
    · cases List.mem_singleton.1 hx
      exact ⟨k, le_rfl, hp, hdist, hnbr⟩
  · intro x hx
    refine List.mem_cons_of_mem _ ?_
    rcases List.mem_append.1 hx with hx | hx
    · exact h.rooted x hx
    · cases List.mem_singleton.1 hx
      exact h.covered k le_rfl _ hp
  · show (s.tree ++ [e]).Pairwise _
    rw [List.pairwise_append]
    refine ⟨h.ordered, List.pairwise_singleton .., ?_⟩
    intro x hx y hy m n hm hn
    cases List.mem_singleton.1 hy
    obtain ⟨m', hm', hdist'⟩ := h.dist_of_mem hx
    have := hm.unique hdist'
    have := hn.unique hdist
    omega
  · exact fun j hj x hx => List.mem_cons_of_mem _ (h.covered j hj x hx)
  · intro x
    show x ∈ s.next ++ [e.1] ↔ x ∈ e.1 :: s.seen ∧ _
    rw [List.mem_append, h.next, List.mem_singleton, List.mem_cons]
    constructor
    · rintro (⟨hseen, hx⟩ | rfl)
      · exact ⟨.inr hseen, hx⟩
      · exact ⟨.inl rfl, hdist⟩
    · rintro ⟨rfl | hseen, hx⟩
      · exact .inr rfl
      · exact .inl ⟨hseen, hx⟩

/-- Visiting edges of the current level keeps all of it, and a visit that was not
stopped has seen their ends. -/
theorem Tree.visit (stop : Search α → Bool) {es : List (α × α)} (h : Tree nbrs a k s)
    (hes : ∀ e ∈ es, Dist nbrs a k e.2 ∧ e.1 ∈ nbrs e.2) :
    Tree nbrs a k (visit stop es s).1 ∧ ((visit stop es s).2 = false →
      (∀ x ∈ s.seen, x ∈ (visit stop es s).1.seen) ∧
        ∀ e ∈ es, e.1 ∈ (visit stop es s).1.seen) := by
  induction es generalizing s with
  | nil => exact ⟨h, fun _ => ⟨fun _ hx => hx, fun _ he => nomatch he⟩⟩
  | cons e es ih =>
    have hrest := fun e' he' => hes e' (List.mem_cons_of_mem e he')
    obtain ⟨hp, hnbr⟩ := hes e (List.mem_cons_self ..)
    unfold Bfs.visit
    split_ifs with hseen hstop
    · obtain ⟨htree, hall⟩ := ih h hrest
      refine ⟨htree, fun hfalse => ⟨(hall hfalse).1, ?_⟩⟩
      rintro e' (_ | ⟨_, he'⟩)
      · exact (hall hfalse).1 _ hseen
      · exact (hall hfalse).2 e' he'
    · exact ⟨h.push hp hnbr hseen, fun hfalse => nomatch hfalse⟩
    · obtain ⟨htree, hall⟩ := ih (h.push hp hnbr hseen) hrest
      refine ⟨htree, fun hfalse => ⟨fun x hx => ?_, ?_⟩⟩
      · exact (hall hfalse).1 x (List.mem_cons_of_mem _ hx)
      rintro e' (_ | ⟨_, he'⟩)
      · exact (hall hfalse).1 _ (List.mem_cons_self ..)
      · exact (hall hfalse).2 e' he'

omit [DecidableEq α] in
/-- The next level is the one at distance `k + 1`. -/
theorem Tree.advance (h : Tree nbrs a k s)
    (hall : ∀ x, Dist nbrs a (k + 1) x → x ∈ s.seen) :
    Tree nbrs a (k + 1) { s with next := [] } where
  nodup := h.nodup
  seen := h.seen
  parent e he := by
    obtain ⟨m, hm, hrest⟩ := h.parent e he
    exact ⟨m, by omega, hrest⟩
  rooted := h.rooted
  ordered := h.ordered
  covered j hj x hx := by
    rcases Nat.lt_or_ge k j with hlt | hle
    · obtain rfl : j = k + 1 := by omega
      exact hall x hx
    · exact h.covered j hle x hx
  next x := by
    refine ⟨fun hx => absurd hx List.not_mem_nil, fun ⟨hseen, hx⟩ => ?_⟩
    -- what was seen is at most `k + 1` away
    rcases List.mem_cons.1 ((h.seen x).1 hseen) with rfl | hmem
    · have := hx.unique Dist.zero
      omega
    · obtain ⟨e, he, rfl⟩ := List.mem_map.1 hmem
      obtain ⟨m, hm, hdist⟩ := h.dist_of_mem he
      have := hx.unique hdist
      omega

/-- What a search that ends has found: the nodes of a tree, in order of distance, all
within the depth. -/
structure Found (nbrs : α → List α) (a : α) (depth : ℕ) (s : Search α) : Prop where
  nodup : (a :: s.tree.map Prod.fst).Nodup
  seen : ∀ x, x ∈ s.seen ↔ x ∈ a :: s.tree.map Prod.fst
  parent : ∀ e ∈ s.tree, ∃ m < depth,
    Dist nbrs a m e.2 ∧ Dist nbrs a (m + 1) e.1 ∧ e.1 ∈ nbrs e.2
  nearer : ∀ e ∈ s.tree, ∀ m n, Dist nbrs a n e.1 → m < n → ∀ x, Dist nbrs a m x → x ∈ s.seen
  rooted : ∀ e ∈ s.tree, e.2 ∈ s.seen
  ordered : s.tree.Pairwise fun e e' => ∀ m n, Dist nbrs a m e.1 → Dist nbrs a n e'.1 → m ≤ n

omit [DecidableEq α] in
theorem Tree.found (h : Tree nbrs a k s) : Found nbrs a (k + 1) s where
  nodup := h.nodup
  seen := h.seen
  parent e he := by
    obtain ⟨m, hm, hrest⟩ := h.parent e he
    exact ⟨m, by omega, hrest⟩
  nearer e he m n hn hm x hx := by
    obtain ⟨m', hm', hdist⟩ := h.dist_of_mem he
    have := hn.unique hdist
    exact h.covered m (by omega) x hx
  rooted := h.rooted
  ordered := h.ordered

omit [DecidableEq α] in
theorem Found.mono {d d' : ℕ} (h : Found nbrs a d s) (hle : d ≤ d') : Found nbrs a d' s where
  nodup := h.nodup
  seen := h.seen
  parent e he := by
    obtain ⟨m, hm, hrest⟩ := h.parent e he
    exact ⟨m, by omega, hrest⟩
  nearer := h.nearer
  rooted := h.rooted
  ordered := h.ordered

omit [DecidableEq α] in
theorem Found.start : Found nbrs a 0 (.start a) :=
  ⟨by simp [Search.start], fun _ => Iff.rfl, fun _ he => (nomatch he),
    fun _ he => (nomatch he), fun _ he => (nomatch he), List.Pairwise.nil⟩

omit [DecidableEq α] in
theorem Tree.start : Tree nbrs a 0 (.start a) where
  nodup := by simp [Search.start]
  seen _ := Iff.rfl
  parent _ he := nomatch he
  rooted _ he := nomatch he
  ordered := .nil
  covered j hj x hx := by
    obtain rfl : j = 0 := by omega
    cases hx.1
    exact List.mem_singleton_self a
  next x := by
    refine ⟨fun hx => absurd hx List.not_mem_nil, fun ⟨hseen, hx⟩ => ?_⟩
    cases List.mem_singleton.1 hseen
    have := hx.unique Dist.zero
    omega

/-- The levels from the one at distance `k` on. -/
theorem Tree.levels (stop : Search α → Bool) (depth : ℕ) (level : List α)
    (h : Tree nbrs a k { s with next := [] }) (hf : Found nbrs a k s)
    (hlevel : ∀ x, x ∈ level ↔ Dist nbrs a k x) :
    Found nbrs a (k + depth) (levels stop nbrs depth level s).1 ∧
      ((levels stop nbrs depth level s).2 = false → ∀ j ≤ k + depth, ∀ x, Dist nbrs a j x →
        x ∈ (levels stop nbrs depth level s).1.seen) := by
  induction depth generalizing k level s with
  | zero => exact ⟨hf, fun _ => h.covered⟩
  | succ depth ih =>
    have hes : ∀ e ∈ edges nbrs level, Dist nbrs a k e.2 ∧ e.1 ∈ nbrs e.2 := fun e he =>
      ⟨(hlevel _).1 (mem_edges.1 he).1, (mem_edges.1 he).2⟩
    have hvisit := h.visit stop hes
    rcases hr : Bfs.visit stop (edges nbrs level) { s with next := [] } with ⟨r, b⟩
    rw [hr] at hvisit
    rw [levels_succ hr]
    cases b with
    | true => exact ⟨hvisit.1.found.mono (by omega), fun hfalse => nomatch hfalse⟩
    | false =>
    rw [if_neg Bool.false_ne_true]
    obtain ⟨htree, hseen⟩ := hvisit
    have hseen := hseen rfl
    have hall : ∀ x, Dist nbrs a (k + 1) x → x ∈ r.seen := by
      intro x hx
      obtain ⟨p, hp, hnbr⟩ := hx.pred
      exact hseen.2 (x, p) (mem_edges.2 ⟨(hlevel p).2 hp, hnbr⟩)
    split_ifs with hempty
    · refine ⟨htree.found.mono (by omega), fun _ j hj x hx => ?_⟩
      rcases Nat.lt_or_ge k j with hlt | hle
      · have hnone : ∀ y, ¬Dist nbrs a (k + 1) y := by
          intro y hy
          have hnext := (htree.next y).2 ⟨hall y hy, hy⟩
          rw [List.isEmpty_iff.1 hempty] at hnext
          exact List.not_mem_nil hnext
        exact absurd hx (Dist.none_beyond hnone hlt x)
      · exact htree.covered j hle x hx
    · have hnext : ∀ x, x ∈ r.next ↔ Dist nbrs a (k + 1) x := by
        intro x
        rw [htree.next x]
        exact ⟨And.right, fun hx => ⟨hall x hx, hx⟩⟩
      have hrest := ih r.next (htree.advance hall) htree.found hnext
      rwa [Nat.add_right_comm, Nat.add_assoc] at hrest

/-- What a search finds. -/
theorem search_found (stop : Search α → Bool) (nbrs : α → List α) (depth : ℕ) (a : α) :
    Found nbrs a depth (search stop nbrs depth a).1 := by
  have h := Tree.levels stop depth [a] (s := .start a) (Tree.start (a := a)) .start
    (Dist.mem_start nbrs a)
  rw [Nat.zero_add] at h
  exact h.1

/-- A search that was not stopped finds all nodes within its depth. -/
theorem search_complete {depth : ℕ} (hstop : (search stop nbrs depth a).2 = false)
    (hle : n ≤ depth) (h : Walk nbrs a n b) : b ∈ (search stop nbrs depth a).1.seen := by
  have hall := Tree.levels stop depth [a] (s := .start a) (Tree.start (a := a)) .start
    (Dist.mem_start nbrs a)
  obtain ⟨m, hm, hdist⟩ := h.dist
  exact hall.2 hstop m (by omega) b hdist

/-! ## Being stopped -/

theorem visit_stopped {es : List (α × α)} (h : (visit stop es s).2 = true) :
    stop (visit stop es s).1 = true := by
  induction es generalizing s with
  | nil => cases h
  | cons e es ih =>
    unfold visit at h ⊢
    split_ifs at h ⊢ with hseen hstop
    · exact ih h
    · exact hstop
    · exact ih h

/-- A search that was stopped was told to stop. -/
theorem search_stopped {depth : ℕ} (h : (search stop nbrs depth a).2 = true) :
    stop (search stop nbrs depth a).1 = true := by
  have hlevels : ∀ (depth : ℕ) (level : List α) (s : Search α),
      (levels stop nbrs depth level s).2 = true →
        stop (levels stop nbrs depth level s).1 = true := by
    intro depth
    induction depth with
    | zero => exact fun _ _ h => nomatch h
    | succ depth ih =>
      intro level s h
      rcases hr : visit stop (edges nbrs level) { s with next := [] } with ⟨r, b⟩
      rw [levels_succ hr] at h ⊢
      split_ifs at h ⊢ with hb hempty
      · subst hb
        have hstopped := visit_stopped (congrArg Prod.snd hr)
        rw [hr] at hstopped
        exact hstopped
      · exact ih _ _ h
  exact hlevels depth [a] (.start a) h

/-- A search that stops at `cap` nodes finds at most so many. -/
theorem search_length {cap depth : ℕ} (hcap : 0 < cap) :
    (search (fun s => cap ≤ s.tree.length) nbrs depth a).1.tree.length ≤ cap := by
  have hvisit : ∀ (es : List (α × α)) (s : Search α), s.tree.length < cap →
      (visit (fun s => cap ≤ s.tree.length) es s).1.tree.length ≤ cap ∧
        ((visit (fun s => cap ≤ s.tree.length) es s).2 = false →
          (visit (fun s => cap ≤ s.tree.length) es s).1.tree.length < cap) := by
    intro es
    induction es with
    | nil => exact fun s h => ⟨h.le, fun _ => h⟩
    | cons e es ih =>
      intro s h
      have hpush : (s.push e).tree.length = s.tree.length + 1 := List.length_append
      unfold visit
      split_ifs with hseen hstop
      · exact ih s h
      · exact ⟨hpush.trans_le h, fun hfalse => nomatch hfalse⟩
      · exact ih _ (by simpa using hstop)
  have hlevels : ∀ (depth : ℕ) (level : List α) (s : Search α), s.tree.length < cap →
      (levels (fun s => cap ≤ s.tree.length) nbrs depth level s).1.tree.length ≤ cap := by
    intro depth
    induction depth with
    | zero => exact fun _ s h => h.le
    | succ depth ih =>
      intro level s h
      have hone := hvisit (edges nbrs level) { s with next := [] } h
      rcases hr : visit (fun s => decide (cap ≤ s.tree.length)) (edges nbrs level)
        { s with next := [] } with ⟨r, b⟩
      rw [hr] at hone
      rw [levels_succ hr]
      split_ifs with hb hempty
      · exact hone.1
      · exact hone.1
      · exact ih _ _ (hone.2 (by simpa using hb))
  exact hlevels depth [a] (.start a) hcap

theorem visit_at_once (es : List (α × α)) (hstop : ∀ s, stop s = true) :
    visit stop es s = match es.find? (·.1 ∉ s.seen) with
      | some e => (s.push e, true)
      | none => (s, false) := by
  induction es with
  | nil => rfl
  | cons e es ih =>
    unfold visit
    rw [List.find?_cons]
    by_cases hseen : e.1 ∈ s.seen
    · rw [if_pos hseen, ih]
      simp only [hseen, not_true_eq_false, decide_false]
    · rw [if_neg hseen, if_pos (hstop _)]
      simp only [hseen, not_false_eq_true, decide_true]

/-- A search that stops at once finds the first neighbour other than its start. -/
theorem search_at_once {depth : ℕ} (hstop : ∀ s, stop s = true) :
    (search stop nbrs depth a).1.tree.map Prod.fst =
      if depth = 0 then [] else ((nbrs a).find? (· ≠ a)).toList := by
  cases depth with
  | zero => rfl
  | succ depth =>
    rw [if_neg (Nat.succ_ne_zero depth)]
    have hedges : edges nbrs [a] = (nbrs a).map fun y => (y, a) := by simp [edges]
    have hfirst : (edges nbrs [a]).find? (·.1 ∉ [a]) =
        ((nbrs a).find? (· ≠ a)).map fun y => (y, a) := by
      rw [hedges, List.find?_map]
      congr 2
      funext y
      simp
    have hr := visit_at_once (edges nbrs [a]) (s := .start a) hstop
    change visit stop (edges nbrs [a]) (.start a) =
      match (edges nbrs [a]).find? (·.1 ∉ [a]) with
      | some e => ((Search.start a).push e, true)
      | none => (.start a, false) at hr
    rw [hfirst] at hr
    unfold search
    cases hy : (nbrs a).find? (· ≠ a) with
    | none =>
      rw [hy] at hr
      rw [levels_succ hr]
      rfl
    | some y =>
      rw [hy] at hr
      rw [levels_succ hr]
      rfl

/-! ## Going back -/

/-- From a node to the start by the nodes each was found from, at most `fuel` of them. -/
def backtrack (tree : List (α × α)) (a : α) : ℕ → α → List α
  | 0, _ => []
  | fuel + 1, cur =>
    match tree.lookup cur with
    | none => []
    | some p => p :: if p = a then [] else backtrack tree a fuel p

/-- Going back from a node of the tree is a shortest walk to the start. -/
theorem Found.backtrack {depth fuel : ℕ} (h : Found nbrs a depth s) (hc : Dist nbrs a n c)
    (hseen : c ∈ s.seen) (hfuel : n ≤ fuel) :
    (c :: backtrack s.tree a fuel c).length = n + 1 ∧
      (c :: backtrack s.tree a fuel c).getLast (List.cons_ne_nil _ _) = a ∧
      (c :: backtrack s.tree a fuel c).IsChain fun x y => x ∈ nbrs y ∧ x ∈ s.seen ∧ y ∈ s.seen := by
  induction n generalizing c fuel with
  | zero =>
    cases hc.1
    have hnone : s.tree.lookup a = none := by
      rw [List.lookup_eq_none_iff]
      intro e he
      have hne := (List.nodup_cons.1 h.nodup).1
      have hroot : a ≠ e.1 := by
        rintro rfl
        exact hne (List.mem_map_of_mem he)
      simpa using hroot
    have hnil : Bfs.backtrack s.tree a fuel a = [] := by
      cases fuel with
      | zero => rfl
      | succ fuel => rw [Bfs.backtrack, hnone]
    rw [hnil]
    exact ⟨rfl, rfl, List.isChain_singleton _⟩
  | succ n ih =>
    obtain ⟨fuel, rfl⟩ : ∃ f, fuel = f + 1 := ⟨fuel - 1, by omega⟩
    have hne : c ≠ a := by
      rintro rfl
      have := hc.unique Dist.zero
      omega
    obtain ⟨e, he, rfl⟩ := List.mem_map.1
      (List.mem_of_ne_of_mem hne ((h.seen c).1 hseen))
    have hlookup : s.tree.lookup e.1 = some e.2 :=
      Assoc.lookup_of_mem (List.nodup_cons.1 h.nodup).2 he
    obtain ⟨m, -, hp, hc', hnbr⟩ := h.parent e he
    obtain rfl : m = n := by
      have := hc.unique hc'
      omega
    rw [Bfs.backtrack, hlookup]
    obtain ⟨hlen, hlast, hchain⟩ := ih hp (h.rooted e he) (by omega : m ≤ fuel)
    have hback : (if e.2 = a then [] else Bfs.backtrack s.tree a fuel e.2) =
        Bfs.backtrack s.tree a fuel e.2 := by
      split_ifs with hroot
      · rw [hroot] at hp hlen ⊢
        have := hp.unique Dist.zero
        rw [this, List.length_cons] at hlen
        exact (List.length_eq_zero_iff.1 (by omega)).symm
      · rfl
    simp only [hback]
    refine ⟨by rw [List.length_cons, hlen], ?_, ?_⟩
    · rw [List.getLast_cons (List.cons_ne_nil _ _)]
      exact hlast
    · rw [List.isChain_cons_cons]
      exact ⟨⟨hnbr, hseen, h.rooted e he⟩, hchain⟩

end Bfs
