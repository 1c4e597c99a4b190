import Mathlib.Data.List.Basic

/-!
# Readers and their sentences

A reader takes a value off the front of a list of tokens.  It takes exactly the sentences of a
language when what it takes and the value it gives are those the language names, up to what may
stand behind a sentence.  The two loops of a parser written by hand keep this: operands joined by
an operator to the left, and a list of items up to a closing token.
-/

namespace Grammar

variable {τ ε α : Type}

/-- A reader: a value and the tokens left, or a refusal. -/
abbrev Reader (τ ε α : Type) := List τ → Except ε (α × List τ)

/-- A language: token lists, each with a value. -/
abbrev Language (τ α : Type) := List τ → α → Prop

/-- The reader takes a front of the tokens off exactly where it is a sentence and what is left
may stand behind one. -/
def Takes (p : Reader τ ε α) (S : Language τ α) (Behind : List τ → Prop) : Prop :=
  ∀ ts a rest, p ts = .ok (a, rest) ↔ ∃ used, ts = used ++ rest ∧ S used a ∧ Behind rest

/-- A reader goes on where another stopped. -/
theorem bind_ok {β : Type} {x : Except ε (α × List τ)} {f : α × List τ → Except ε (β × List τ)}
    {r : β × List τ} : (x >>= f) = .ok r ↔ ∃ a ts, x = .ok (a, ts) ∧ f (a, ts) = .ok r := by
  cases x with
  | error e => simp [bind, Except.bind]
  | ok p =>
    obtain ⟨a, ts⟩ := p
    simp [bind, Except.bind]

/-- A reader that refuses everything takes the empty language. -/
theorem takes_nothing {e : ε} {Behind : List τ → Prop} :
    Takes (fun _ => .error e : Reader τ ε α) (fun _ _ => False) Behind := by
  intro ts a rest
  constructor
  · intro h
    cases h
  · rintro ⟨_, _, h, _⟩
    exact h.elim

/-- A sentence is read back, whatever may stand behind it. -/
theorem Takes.read {p : Reader τ ε α} {S : Language τ α} {Behind : List τ → Prop}
    (h : Takes p S Behind) {used rest : List τ} {a : α} (hs : S used a) (hb : Behind rest) :
    p (used ++ rest) = .ok (a, rest) :=
  (h _ _ _).2 ⟨used, rfl, hs, hb⟩

/-- A list of tokens is at most one sentence. -/
theorem Takes.unique {p : Reader τ ε α} {S : Language τ α} {Behind : List τ → Prop}
    (h : Takes p S Behind) (hb : Behind []) {used : List τ} {a b : α} (ha : S used a)
    (hb' : S used b) : a = b := by
  have h₁ := h.read ha hb
  rw [h.read hb' hb] at h₁
  cases h₁
  rfl

/-! ## Operators to the left -/

section Chains

variable (isOp : τ → Bool) (join : α → α → α)

/-- The operators that follow an operand, each with an operand of its own; `stuck` is a loop that
runs out of rounds. -/
def chainFrom (operand : Reader τ ε α) (stuck : ε) : ℕ → α → Reader τ ε α
  | rounds, left, t :: ts =>
    if isOp t then
      match rounds with
      | 0 => .error stuck
      | rounds + 1 => do
        let (right, ts) ← operand ts
        chainFrom operand stuck rounds (join left right) ts
    else .ok (left, t :: ts)
  | _, left, [] => .ok (left, [])

/-- Operands joined by an operator. -/
def chain (operand : Reader τ ε α) (stuck : ε) : Reader τ ε α := fun ts => do
  let (left, ts) ← operand ts
  chainFrom isOp join operand stuck ts.length left ts

/-- An operand, or a chain, an operator and an operand. -/
inductive Chain (S : Language τ α) : Language τ α
  | one {ts : List τ} {a : α} (h : S ts a) : Chain S ts a
  | more {ts us : List τ} {t : τ} {a b : α} (left : Chain S ts a) (op : isOp t = true)
      (right : S us b) : Chain S (ts ++ t :: us) (join a b)

/-- What may stand behind a chain: what may stand behind an operand, and no operator. -/
def ChainEnds (Behind : List τ → Prop) (rest : List τ) : Prop :=
  Behind rest ∧ ∀ t ∈ rest.head?, isOp t = false

variable {isOp join} {operand : Reader τ ε α} {stuck : ε} {S : Language τ α}
  {Behind : List τ → Prop}

/-- The loop stops where no operator stands, or takes one with its operand. -/
theorem chainFrom_cases {rounds : ℕ} {left a : α} {ts rest : List τ}
    (h : chainFrom isOp join operand stuck rounds left ts = .ok (a, rest)) :
    (ts = rest ∧ left = a ∧ ∀ t ∈ rest.head?, isOp t = false) ∨
      ∃ rounds' t us right ts', rounds = rounds' + 1 ∧ ts = t :: us ∧ isOp t = true ∧
        operand us = .ok (right, ts') ∧
          chainFrom isOp join operand stuck rounds' (join left right) ts' = .ok (a, rest) := by
  cases ts with
  | nil =>
    rw [chainFrom] at h
    cases h
    exact .inl ⟨rfl, rfl, by simp⟩
  | cons t us =>
    by_cases hop : isOp t = true
    · cases rounds with
      | zero =>
        rw [chainFrom, if_pos hop] at h
        cases h
      | succ rounds' =>
        rw [chainFrom, if_pos hop] at h
        obtain ⟨right, ts', hright, hmore⟩ := bind_ok.1 h
        exact .inr ⟨rounds', t, us, right, ts', rfl, rfl, hop, hright, hmore⟩
    · rw [chainFrom.eq_def] at h
      simp only [hop, Bool.false_eq_true, if_false] at h
      cases h
      exact .inl ⟨rfl, rfl, by simpa using hop⟩

/-- What the loop takes behind a chain makes it a longer chain. -/
theorem chainFrom_sound (h : Takes operand S Behind) {rounds : ℕ} {left a : α}
    {ts rest before : List τ} (hleft : Chain isOp join S before left) (hts : Behind ts)
    (hread : chainFrom isOp join operand stuck rounds left ts = .ok (a, rest)) :
    ∃ used, ts = used ++ rest ∧ Chain isOp join S (before ++ used) a ∧
      ChainEnds isOp Behind rest := by
  induction rounds generalizing left ts before with
  | zero =>
    obtain ⟨rfl, rfl, hends⟩ | ⟨_, _, _, _, _, hrounds, -⟩ := chainFrom_cases hread
    · exact ⟨[], rfl, by rwa [List.append_nil], hts, hends⟩
    · cases hrounds
  | succ rounds ih =>
    obtain ⟨rfl, rfl, hends⟩ | ⟨_, t, us, right, ts', hrounds, rfl, hop, hright, hmore⟩ :=
      chainFrom_cases hread
    · exact ⟨[], rfl, by rwa [List.append_nil], hts, hends⟩
    · cases hrounds
      obtain ⟨vs, rfl, hvs, hb⟩ := (h _ _ _).1 hright
      obtain ⟨used, rfl, hchain, hends⟩ := ih (hleft.more hop hvs) hb hmore
      refine ⟨t :: (vs ++ used), by simp, ?_, hends⟩
      simpa using hchain

/-- Reading a chain comes down to the loop behind it, with rounds enough for the rest. -/
theorem chain_complete (stuck : ε) (h : Takes operand S Behind)
    (hop : ∀ t ts, isOp t = true → Behind (t :: ts)) {used : List τ} {a : α}
    (hused : Chain isOp join S used a) {rest : List τ} (hrest : Behind rest) :
    ∃ rounds, rest.length ≤ rounds ∧ chain isOp join operand stuck (used ++ rest) =
      chainFrom isOp join operand stuck rounds a rest := by
  induction hused generalizing rest with
  | one hs =>
    refine ⟨rest.length, Nat.le_refl _, ?_⟩
    rw [chain, h.read hs hrest]
    rfl
  | @more ts us t a b _ ht hright ih =>
    have hbehind : Behind (t :: (us ++ rest)) := hop _ _ ht
    obtain ⟨rounds, hrounds, heq⟩ := ih hbehind
    cases rounds with
    | zero => simp at hrounds
    | succ rounds =>
      refine ⟨rounds, by simp at hrounds; omega, ?_⟩
      rw [List.append_assoc, List.cons_append, heq, chainFrom, if_pos ht, h.read hright hrest]
      rfl

/-- The loop stops where no operator follows. -/
theorem chainFrom_ends {rounds : ℕ} {a : α} {rest : List τ}
    (hends : ∀ t ∈ rest.head?, isOp t = false) :
    chainFrom isOp join operand stuck rounds a rest = .ok (a, rest) := by
  cases rest with
  | nil => rw [chainFrom]
  | cons t ts =>
    rw [chainFrom.eq_def]
    simp [hends t rfl]

/-- **Operands joined by an operator are read as the chain they are**, to the left, up to what no
operator follows. -/
theorem Takes.chain (h : Takes operand S Behind)
    (hop : ∀ t ts, isOp t = true → Behind (t :: ts)) :
    Takes (chain isOp join operand stuck) (Chain isOp join S) (ChainEnds isOp Behind) := by
  intro ts a rest
  constructor
  · intro hread
    obtain ⟨left, ts', hleft, hmore⟩ := bind_ok.1 hread
    obtain ⟨us, rfl, hus, hb⟩ := (h _ _ _).1 hleft
    obtain ⟨used, rfl, hchain, hends⟩ := chainFrom_sound h (.one hus) hb hmore
    exact ⟨us ++ used, by simp, hchain, hends⟩
  · rintro ⟨used, rfl, hused, hb, hends⟩
    obtain ⟨rounds, -, heq⟩ := chain_complete stuck h hop hused hb
    rw [heq, chainFrom_ends hends]

end Chains

/-! ## Items up to a closing token -/

section Items

variable (isSep isClose : τ → Bool)

/-- The items of a list up to its closing token, which is left: a separator stands behind each
item, and may stand behind the last. -/
def items (item : Reader τ ε α) (stuck : ε) : ℕ → Reader τ ε (List α)
  | rounds, t :: ts =>
    if isClose t then .ok ([], t :: ts)
    else
      match rounds with
      | 0 => .error stuck
      | rounds + 1 => do
        let (v, ts) ← item (t :: ts)
        match ts with
        | c :: ts =>
          if isSep c then do
            let (vs, ts) ← items item stuck rounds ts
            .ok (v :: vs, ts)
          else .ok ([v], c :: ts)
        | [] => .ok ([v], [])
  | _, [] => .ok ([], [])

/-- Items with their separators. -/
inductive Items (S : Language τ α) : Language τ (List α)
  | nil : Items S [] []
  | last {us : List τ} {v : α} (h : S us v) : Items S us [v]
  | cons {us ws : List τ} {v : α} {vs : List α} {c : τ} (h : S us v) (sep : isSep c = true)
      (rest : Items S ws vs) : Items S (us ++ c :: ws) (v :: vs)

variable {isSep isClose} {item : Reader τ ε α} {stuck : ε} {S : Language τ α}

/-- What the loop takes is a list of items. -/
theorem items_sound (h : Takes item S fun _ => True) {rounds : ℕ} {ts rest : List τ}
    {vs : List α} (hread : items isSep isClose item stuck rounds ts = .ok (vs, rest)) :
    ∃ used, ts = used ++ rest ∧ Items isSep S used vs := by
  induction rounds generalizing ts vs with
  | zero =>
    cases ts with
    | nil =>
      cases hread
      exact ⟨[], rfl, .nil⟩
    | cons t ts =>
      rw [items] at hread
      split_ifs at hread with hclose
      cases hread
      exact ⟨[], rfl, .nil⟩
  | succ rounds ih =>
    cases ts with
    | nil =>
      cases hread
      exact ⟨[], rfl, .nil⟩
    | cons t ts =>
      rw [items] at hread
      split_ifs at hread with hclose
      · cases hread
        exact ⟨[], rfl, .nil⟩
      · obtain ⟨v, ts', hitem, hmore⟩ := bind_ok.1 hread
        obtain ⟨us, hus, hv, -⟩ := (h _ _ _).1 hitem
        rw [hus]
        cases ts' with
        | nil =>
          cases hmore
          exact ⟨us, rfl, .last hv⟩
        | cons c ts' =>
          dsimp only at hmore
          split_ifs at hmore with hsep
          · obtain ⟨ws, ts'', hrest, hok⟩ := bind_ok.1 hmore
            cases hok
            obtain ⟨used, rfl, hws⟩ := ih hrest
            exact ⟨us ++ c :: used, by simp, .cons hv hsep hws⟩
          · cases hmore
            exact ⟨us, rfl, .last hv⟩

/-- Items in front of the closing token are read, where no item begins with it. -/
theorem items_complete (h : Takes item S fun _ => True)
    (hfirst : ∀ {us v}, S us v → ∃ t ts, us = t :: ts ∧ isClose t = false)
    (hapart : ∀ t, isClose t = true → isSep t = false) {used : List τ} {vs : List α}
    (hused : Items isSep S used vs) {close : τ} (hclose : isClose close = true)
    {rest : List τ} {rounds : ℕ} (hrounds : used.length ≤ rounds) :
    items isSep isClose item stuck rounds (used ++ close :: rest) = .ok (vs, close :: rest) := by
  induction hused generalizing rounds with
  | nil =>
    rw [List.nil_append, items.eq_def]
    simp [hclose]
  | @last us v hv =>
    obtain ⟨t, ts, rfl, ht⟩ := hfirst hv
    cases rounds with
    | zero => simp at hrounds
    | succ rounds =>
      have hread : item (t :: ts ++ close :: rest) = .ok (v, close :: rest) := h.read hv trivial
      rw [List.cons_append] at hread ⊢
      rw [items, ht, if_neg (by simp), hread]
      simp [bind, Except.bind, hapart close hclose]
  | @cons us ws v vs c hv hsep _ ih =>
    obtain ⟨t, ts, rfl, ht⟩ := hfirst hv
    cases rounds with
    | zero => simp at hrounds
    | succ rounds =>
      have hread : item (t :: ts ++ c :: (ws ++ close :: rest)) =
          .ok (v, c :: (ws ++ close :: rest)) := h.read hv trivial
      have hlen : ws.length ≤ rounds := by simp at hrounds; omega
      have hmore := ih hlen
      rw [List.append_assoc, List.cons_append, List.cons_append]
      rw [List.cons_append] at hread
      rw [items, ht, if_neg (by simp), hread]
      simp [bind, Except.bind, hsep, hmore]

end Items

/-! ## Rounds are enough -/

section Decided

/-- A reader that never answers `stuck`. -/
def Decided (stuck : ε) (p : Reader τ ε α) : Prop := ∀ ts, p ts ≠ .error stuck

theorem bind_ne_error {β : Type} {stuck : ε} {x : Except ε (α × List τ)}
    {f : α × List τ → Except ε (β × List τ)} (h : x ≠ .error stuck)
    (hf : ∀ a ts, x = .ok (a, ts) → f (a, ts) ≠ .error stuck) : (x >>= f) ≠ .error stuck := by
  cases x with
  | error e =>
    intro heq
    cases heq
    exact h rfl
  | ok p => exact hf p.1 p.2 rfl

variable {p : Reader τ ε α} {stuck : ε} {S : Language τ α} {Behind : List τ → Prop}

theorem Takes.length_le (h : Takes p S Behind) {ts rest : List τ} {a : α}
    (hread : p ts = .ok (a, rest)) : rest.length ≤ ts.length := by
  obtain ⟨used, rfl, -⟩ := (h _ _ _).1 hread
  simp

/-- Each operator takes a round, and is a token less. -/
theorem Takes.chainFrom_decided (h : Takes p S Behind) (hd : Decided stuck p) (isOp : τ → Bool)
    (join : α → α → α) {rounds : ℕ} {left : α} {ts : List τ} (hlen : ts.length ≤ rounds) :
    chainFrom isOp join p stuck rounds left ts ≠ .error stuck := by
  induction rounds generalizing left ts with
  | zero =>
    rw [List.length_eq_zero_iff.1 (Nat.le_zero.1 hlen)]
    intro heq
    cases heq
  | succ rounds ih =>
    cases ts with
    | nil =>
      intro heq
      cases heq
    | cons t ts =>
      rw [chainFrom]
      split_ifs
      · refine bind_ne_error (hd ts) fun right ts' hread => ih ?_
        have hle := h.length_le hread
        simp only [List.length_cons] at hlen
        omega
      · intro heq
        cases heq

theorem Takes.chain_decided (h : Takes p S Behind) (hd : Decided stuck p) (isOp : τ → Bool)
    (join : α → α → α) : Decided stuck (Grammar.chain isOp join p stuck) := fun ts =>
  bind_ne_error (hd ts) fun _ _ _ => h.chainFrom_decided hd isOp join (Nat.le_refl _)

/-- Each separator takes a round, and is a token less. -/
theorem Takes.items_decided (h : Takes p S Behind) (hd : Decided stuck p) (isSep isClose : τ → Bool)
    {rounds : ℕ} {ts : List τ} (hlen : ts.length ≤ rounds) :
    items isSep isClose p stuck rounds ts ≠ .error stuck := by
  induction rounds generalizing ts with
  | zero =>
    rw [List.length_eq_zero_iff.1 (Nat.le_zero.1 hlen)]
    intro heq
    cases heq
  | succ rounds ih =>
    cases ts with
    | nil =>
      intro heq
      cases heq
    | cons t ts =>
      rw [items]
      split_ifs
      · intro heq
        cases heq
      · refine bind_ne_error (hd _) fun v ts' hread => ?_
        have hle := h.length_le hread
        cases ts' with
        | nil =>
          intro heq
          cases heq
        | cons c ts' =>
          dsimp only
          split_ifs
          · refine bind_ne_error (ih ?_) fun vs ts'' _ heq => ?_
            · simp only [List.length_cons] at hlen hle
              omega
            · cases heq
          · intro heq
            cases heq

end Decided

/-! ## Readers that give up -/

section Within

variable {e : ε}

/-- Two answers, of which the first is the second or the refusal `e`. -/
def Short (e : ε) (x y : Except ε (α × List τ)) : Prop := x = y ∨ x = .error e

/-- A reader that reads what another reads, or gives up with `e`. -/
def Within (e : ε) (p q : Reader τ ε α) : Prop := ∀ ts, Short e (p ts) (q ts)

theorem Short.refl (x : Except ε (α × List τ)) : Short e x x := .inl rfl

theorem Short.trans {x y z : Except ε (α × List τ)} (h : Short e x y) (h' : Short e y z) :
    Short e x z := by
  obtain rfl | rfl := h
  · exact h'
  · exact .inr rfl

/-- Giving up early gives up the whole. -/
theorem Short.bind {β : Type} {x y : Except ε (α × List τ)}
    {f g : α × List τ → Except ε (β × List τ)} (h : Short e x y)
    (hfg : ∀ a ts, Short e (f (a, ts)) (g (a, ts))) : Short e (x >>= f) (y >>= g) := by
  obtain rfl | rfl := h
  · cases x with
    | error e' => exact .inl rfl
    | ok p => exact hfg p.1 p.2
  · exact .inr rfl

theorem within_error {q : Reader τ ε α} : Within e (fun _ => .error e) q := fun _ => .inr rfl

variable {p q : Reader τ ε α} {stuck : ε}

theorem Within.chainFrom (h : Within e p q) (isOp : τ → Bool) (join : α → α → α) (rounds : ℕ)
    (left : α) (ts : List τ) :
    Short e (chainFrom isOp join p stuck rounds left ts)
      (chainFrom isOp join q stuck rounds left ts) := by
  induction rounds generalizing left ts with
  | zero =>
    cases ts with
    | nil => exact .inl rfl
    | cons t ts => exact .inl rfl
  | succ rounds ih =>
    cases ts with
    | nil => exact .inl rfl
    | cons t ts =>
      rw [Grammar.chainFrom, Grammar.chainFrom]
      split_ifs
      · exact (h ts).bind fun right ts => ih _ ts
      · exact .refl _

/-- A chain of operands that give up gives up. -/
theorem Within.chain (h : Within e p q) (isOp : τ → Bool) (join : α → α → α) :
    Within e (chain isOp join p stuck) (chain isOp join q stuck) := fun ts =>
  (h ts).bind fun left ts => h.chainFrom isOp join ts.length left ts

/-- A list of items that give up gives up. -/
theorem Within.items (h : Within e p q) (isSep isClose : τ → Bool) (rounds : ℕ) :
    Within e (items isSep isClose p stuck rounds) (items isSep isClose q stuck rounds) := by
  induction rounds with
  | zero =>
    intro ts
    cases ts <;> exact .inl rfl
  | succ rounds ih =>
    intro ts
    cases ts with
    | nil => exact .inl rfl
    | cons t ts =>
      rw [Grammar.items, Grammar.items]
      split_ifs
      · exact .refl _
      · refine (h (t :: ts)).bind fun v ts => ?_
        cases ts with
        | nil => exact .inl rfl
        | cons c ts =>
          dsimp only
          split_ifs
          · exact (ih ts).bind fun _ _ => .refl _
          · exact .refl _

end Within

end Grammar
