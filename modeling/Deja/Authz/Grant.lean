import Mathlib.Data.List.Sort
import Mathlib.Data.String.Basic
import Deja.Lib.Text

/-!
# Grant strings

A grant grain carries its verbs and namespaces as one object string,
`read,write ON caller,shared`.  `grant_string_preserves_iff` says for which
namespaces reading the string back gives the authority that was written.
-/

namespace Deja.Authz

/-! ## Verbs -/

/-- One operation class. -/
inductive Verb where
  | read | write | supersede | delete | erase | loopRun | loopReview | loopApply | admin
  deriving DecidableEq

/-- `Verb::as_str`. -/
def Verb.asStr : Verb → String
  | read => "read"
  | write => "write"
  | supersede => "supersede"
  | delete => "delete"
  | erase => "erase"
  | loopRun => "loop.run"
  | loopReview => "loop.review"
  | loopApply => "loop.apply"
  | admin => "admin"

/-- The refusals of a grant string, each with the text it quotes. -/
inductive GrantError where
  /-- "unknown verb …" -/
  | unknownVerb (s : String)
  /-- "malformed grant object … — expected "<verbs> ON <namespaces>"" -/
  | malformed (s : String)
  /-- "grant object … names no verbs" -/
  | noVerbs (s : String)
  /-- "grant object … has an empty namespace" -/
  | emptyNamespace (s : String)

/-- `Verb::parse`. -/
def Verb.parse : String → Except GrantError Verb
  | "read" => .ok read
  | "write" => .ok write
  | "supersede" => .ok supersede
  | "delete" => .ok delete
  | "erase" => .ok erase
  | "loop.run" => .ok loopRun
  | "loop.review" => .ok loopReview
  | "loop.apply" => .ok loopApply
  | "admin" => .ok admin
  | other => .error (.unknownVerb other)

theorem Verb.parse_asStr (v : Verb) : Verb.parse v.asStr = .ok v := by
  cases v <;> rfl

/-! ## Grants -/

/-- `char::is_whitespace`: the Unicode property `White_Space`. -/
def isWhitespace (c : Char) : Bool :=
  (9 ≤ c.toNat ∧ c.toNat ≤ 13) ∨ c.toNat ∈ [0x20, 0x85, 0xA0, 0x1680, 0x2028, 0x2029, 0x202F,
    0x205F, 0x3000] ∨ (0x2000 ≤ c.toNat ∧ c.toNat ≤ 0x200A)

/-- `str::trim`. -/
def trim (s : List Char) : List Char := Text.trim isWhitespace s

/-- A set of verbs allowed on a set of namespaces; no namespaces are all. -/
structure Grant where
  verbs : List Verb
  namespaces : List String
  deriving DecidableEq

/-- `sort_unstable` and `dedup`. -/
def canonical (l : List String) : List String := (l.insertionSort (· ≤ ·)).dedup

namespace Grant

/-- `Grant::covers`. -/
def covers (g : Grant) (verb : Verb) (ns : String) : Bool :=
  g.verbs.contains verb && (g.namespaces.isEmpty || g.namespaces.any fun n => n == "*" || n == ns)

/-- `Grant::to_object_string`. -/
def toObjectString (g : Grant) : String :=
  let verbs := canonical (g.verbs.map Verb.asStr)
  let ns := if g.namespaces.isEmpty then "*" else ",".intercalate (canonical g.namespaces)
  ",".intercalate verbs ++ " ON " ++ ns

end Grant

/-- The loops of `from_object_string`: read every piece, keep each value once. -/
def collect {α : Type} [DecidableEq α] (f : List Char → Except GrantError α) :
    List α → List (List Char) → Except GrantError (List α)
  | acc, [] => .ok acc
  | acc, p :: ps => do
    let a ← f p
    collect f (if a ∈ acc then acc else acc ++ [a]) ps

/-- One verb of a grant string. -/
def verbPiece (p : List Char) : Except GrantError Verb := Verb.parse (String.ofList (trim p))

/-- One namespace of the grant string `s`. -/
def nsPiece (s : String) (p : List Char) : Except GrantError String :=
  if trim p = [] then .error (.emptyNamespace s) else .ok (String.ofList (trim p))

/-- `Grant::from_object_string`. -/
def Grant.fromObjectString (s : String) : Except GrantError Grant :=
  match Text.splitOnce " ON ".toList s.toList with
  | none => .error (.malformed s)
  | some (verbsPart, nsPart) => do
    let verbs ← collect verbPiece [] (Text.split ',' verbsPart)
    if verbs.isEmpty then throw (.noVerbs s)
    let namespaces ← collect (nsPiece s) [] (Text.split ',' nsPart)
    pure ⟨verbs, namespaces⟩

/-! ## Reading pieces -/

section Collect

variable {α : Type} [DecidableEq α] {f : List Char → Except GrantError α}

/-- Pieces that all read give their values, and nothing else. -/
theorem collect_ok {ps : List (List Char)} (acc : List α)
    (h : ∀ p ∈ ps, ∃ a, f p = .ok a) :
    ∃ l, collect f acc ps = .ok l ∧ ∀ a, a ∈ l ↔ a ∈ acc ∨ ∃ p ∈ ps, f p = .ok a := by
  induction ps generalizing acc with
  | nil => exact ⟨acc, rfl, fun a => by simp⟩
  | cons p ps ih =>
    obtain ⟨b, hb⟩ := h p List.mem_cons_self
    obtain ⟨l, hl, hmem⟩ := ih (if b ∈ acc then acc else acc ++ [b]) fun q hq =>
      h q (List.mem_cons_of_mem _ hq)
    refine ⟨l, ?_, fun a => ?_⟩
    · rw [collect, hb]
      exact hl
    · have hacc : (a ∈ if b ∈ acc then acc else acc ++ [b]) ↔ a ∈ acc ∨ a = b := by
        split_ifs with hin
        · exact ⟨.inl, fun h => h.elim id fun hab => hab ▸ hin⟩
        · simp
      rw [hmem, hacc]
      simp only [List.mem_cons, exists_eq_or_imp, hb, Except.ok.injEq, or_assoc, eq_comm (a := b)]

/-- A piece that does not read makes the string fail. -/
theorem collect_error {ps : List (List Char)} {acc : List α} {p : List Char} (hp : p ∈ ps)
    (h : ∀ a, f p ≠ .ok a) (l : List α) : collect f acc ps ≠ .ok l := by
  induction ps generalizing acc with
  | nil => cases hp
  | cons q qs ih =>
    intro hl
    rw [collect] at hl
    cases hq : f q with
    | error e =>
      rw [hq] at hl
      cases hl
    | ok b =>
      rw [hq] at hl
      rcases List.mem_cons.1 hp with rfl | hp
      · exact h b hq
      · exact ih hp hl

end Collect

/-! ## The written string -/

theorem mem_canonical {l : List String} {x : String} : x ∈ canonical l ↔ x ∈ l := by
  rw [canonical, List.mem_dedup, List.mem_insertionSort]

/-- The canonical list is that of the members. -/
theorem canonical_congr {l m : List String} (h : ∀ x, x ∈ l ↔ x ∈ m) :
    canonical l = canonical m := by
  have hsorted : ∀ k : List String, (canonical k).Pairwise (· ≤ ·) := fun k =>
    (List.pairwise_insertionSort _ k).sublist (List.dedup_sublist _)
  refine List.Perm.eq_of_pairwise (fun a b _ _ hab hba => le_antisymm hab hba) (hsorted l)
    (hsorted m) ?_
  refine (List.perm_ext_iff_of_nodup (List.nodup_dedup _) (List.nodup_dedup _)).2 fun x => ?_
  exact mem_canonical.trans ((h x).trans mem_canonical.symm)

/-- The pieces of the namespaces of a grant. -/
def Grant.pieces (g : Grant) : List (List Char) :=
  if g.namespaces.isEmpty then [['*']]
  else (canonical g.namespaces).flatMap fun n => Text.split ',' n.toList

theorem Grant.mem_pieces {g : Grant} {p : List Char} (h : g.namespaces ≠ []) :
    p ∈ g.pieces ↔ ∃ n ∈ g.namespaces, p ∈ Text.split ',' n.toList := by
  rw [pieces, if_neg (by simpa using h), List.mem_flatMap]
  simp only [mem_canonical]

/-- No verb has a comma or a blank in its name. -/
theorem Verb.asStr_plain (v : Verb) : ',' ∉ v.asStr.toList ∧ ' ' ∉ v.asStr.toList ∧
    trim v.asStr.toList = v.asStr.toList := by
  cases v <;> decide

theorem split_intercalate {l : List String} (h : l ≠ []) :
    Text.split ',' (",".intercalate l).toList = l.flatMap fun n => Text.split ',' n.toList := by
  rw [String.toList_intercalate, show ",".toList = [','] from rfl,
    Text.split_join ',' (by simpa using h), List.flatMap_map]

theorem flatMap_split_of_plain {l : List String} (h : ∀ x ∈ l, ',' ∉ x.toList) :
    (l.flatMap fun n => Text.split ',' n.toList) = l.map String.toList := by
  induction l with
  | nil => rfl
  | cons x l ih =>
    rw [List.forall_mem_cons] at h
    rw [List.flatMap_cons, List.map_cons, Text.split_of_notMem h.1, ih h.2, List.singleton_append]

/-- What the reader cuts out of a written string. -/
theorem splitOnce_toObjectString {g : Grant} (h : g.verbs ≠ []) :
    ∃ verbsPart nsPart,
      Text.splitOnce " ON ".toList g.toObjectString.toList = some (verbsPart, nsPart) ∧
      Text.split ',' verbsPart = (canonical (g.verbs.map Verb.asStr)).map String.toList ∧
      Text.split ',' nsPart = g.pieces := by
  have hne : ∀ {l : List String}, l ≠ [] → canonical l ≠ [] := by
    intro l hl
    obtain ⟨x, xs, rfl⟩ := List.exists_cons_of_ne_nil hl
    exact List.ne_nil_of_mem (mem_canonical.2 List.mem_cons_self)
  have hverbs : canonical (g.verbs.map Verb.asStr) ≠ [] := hne (by simpa using h)
  have hverb : ∀ x ∈ canonical (g.verbs.map Verb.asStr), ∃ v : Verb, v.asStr = x := fun x hx =>
    (List.mem_map.1 (mem_canonical.1 hx)).imp fun v hv => hv.2
  refine ⟨(",".intercalate (canonical (g.verbs.map Verb.asStr))).toList,
    (if g.namespaces.isEmpty then "*" else ",".intercalate (canonical g.namespaces)).toList,
    ?_, ?_, ?_⟩
  · rw [Grant.toObjectString, String.toList_append, String.toList_append]
    refine Text.splitOnce_append fun hmem => ?_
    rw [String.toList_intercalate] at hmem
    rcases Text.mem_join hmem with hcomma | ⟨l, hl, hblank⟩
    · cases hcomma
    · obtain ⟨x, hx, rfl⟩ := List.mem_map.1 hl
      obtain ⟨v, rfl⟩ := hverb x hx
      exact v.asStr_plain.2.1 hblank
  · rw [split_intercalate hverbs]
    refine flatMap_split_of_plain fun x hx => ?_
    obtain ⟨v, rfl⟩ := hverb x hx
    exact v.asStr_plain.1
  · rw [Grant.pieces]
    split_ifs with hns
    · rfl
    · exact split_intercalate (hne (by simpa using hns))

/-! ## Reading a written string back -/

/-- A grant string reads back iff no piece of a namespace is blank; the verbs are
those written, the namespaces the trimmed pieces. -/
theorem fromObjectString_toObjectString {g : Grant} (h : g.verbs ≠ []) :
    ((∃ p ∈ g.pieces, trim p = []) → ∀ g', Grant.fromObjectString g.toObjectString ≠ .ok g') ∧
    ((∀ p ∈ g.pieces, trim p ≠ []) → ∃ g', Grant.fromObjectString g.toObjectString = .ok g' ∧
      (∀ v, v ∈ g'.verbs ↔ v ∈ g.verbs) ∧
      ∀ n, n ∈ g'.namespaces ↔ ∃ p ∈ g.pieces, n.toList = trim p) := by
  obtain ⟨verbsPart, nsPart, hcut, hverbs, hns⟩ := splitOnce_toObjectString h
  have hpiece : ∀ v : Verb, verbPiece v.asStr.toList = .ok v := fun v => by
    rw [verbPiece, v.asStr_plain.2.2, String.ofList_toList, Verb.parse_asStr]
  have hread : ∀ p ∈ Text.split ',' verbsPart, ∃ v ∈ g.verbs, verbPiece p = .ok v := by
    intro p hp
    rw [hverbs] at hp
    obtain ⟨x, hx, rfl⟩ := List.mem_map.1 hp
    obtain ⟨v, hv, rfl⟩ := List.mem_map.1 (mem_canonical.1 hx)
    exact ⟨v, hv, hpiece v⟩
  obtain ⟨verbs, hvok, hvmem⟩ := collect_ok [] fun p hp => (hread p hp).imp fun v hv => hv.2
  have hvset : ∀ v, v ∈ verbs ↔ v ∈ g.verbs := by
    intro v
    rw [hvmem]
    constructor
    · rintro (hv | ⟨p, hp, hv⟩)
      · cases hv
      · obtain ⟨w, hw, hpw⟩ := hread p hp
        rw [hpw] at hv
        cases hv
        exact hw
    · intro hv
      refine .inr ⟨v.asStr.toList, ?_, hpiece v⟩
      rw [hverbs]
      exact List.mem_map_of_mem (mem_canonical.2 (List.mem_map_of_mem hv))
  have hsome : verbs.isEmpty = false := by
    obtain ⟨v, vs, hv⟩ := List.exists_cons_of_ne_nil h
    exact List.isEmpty_eq_false_iff.2
      (List.ne_nil_of_mem ((hvset v).2 (by rw [hv]; exact List.mem_cons_self)))
  have hparse : Grant.fromObjectString g.toObjectString =
      (collect (nsPiece g.toObjectString) [] g.pieces).map fun namespaces =>
        ⟨verbs, namespaces⟩ := by
    rw [Grant.fromObjectString, hcut]
    simp only [hvok, hns, bind, Except.bind, hsome]
    cases collect (nsPiece g.toObjectString) [] g.pieces <;> rfl
  rw [hparse]
  constructor
  · rintro ⟨p, hp, hblank⟩ g' hg'
    cases hc : collect (nsPiece g.toObjectString) [] g.pieces with
    | error e =>
      rw [hc] at hg'
      cases hg'
    | ok l =>
      refine collect_error hp (fun a ha => ?_) l hc
      rw [nsPiece, if_pos hblank] at ha
      cases ha
  · intro hall
    have hok : ∀ p ∈ g.pieces, ∃ a, nsPiece g.toObjectString p = .ok a := fun p hp =>
      ⟨String.ofList (trim p), if_neg (hall p hp)⟩
    obtain ⟨l, hl, hmem⟩ := collect_ok [] hok
    refine ⟨⟨verbs, l⟩, by rw [hl]; rfl, hvset, fun n => ?_⟩
    rw [hmem]
    constructor
    · rintro (hn | ⟨p, hp, hn⟩)
      · cases hn
      · rw [nsPiece, if_neg (hall p hp)] at hn
        cases hn
        exact ⟨p, hp, String.toList_ofList⟩
    · rintro ⟨p, hp, hn⟩
      refine .inr ⟨p, hp, ?_⟩
      rw [nsPiece, if_neg (hall p hp), ← hn, String.ofList_toList]

/-! ## What a grant string preserves -/

theorem Grant.covers_iff {g : Grant} {v : Verb} {ns : String} :
    g.covers v ns ↔ v ∈ g.verbs ∧ (g.namespaces = [] ∨ "*" ∈ g.namespaces ∨ ns ∈ g.namespaces) := by
  simp only [covers, Bool.and_eq_true, List.contains_iff_mem, Bool.or_eq_true, List.isEmpty_iff,
    List.any_eq_true, beq_iff_eq, and_or_left, exists_or, exists_eq_right]

/-- The namespaces a grant is for. -/
def Grant.scope (g : Grant) : List String := if g.namespaces.isEmpty then ["*"] else g.namespaces

/-- The string depends on the set of verbs and the set of namespaces. -/
theorem toObjectString_congr {g g' : Grant} (hverbs : ∀ v, v ∈ g'.verbs ↔ v ∈ g.verbs)
    (hscope : ∀ n, n ∈ g'.scope ↔ n ∈ g.scope) : g'.toObjectString = g.toObjectString := by
  have hns : ∀ k : Grant, (if k.namespaces.isEmpty then "*"
      else ",".intercalate (canonical k.namespaces)) = ",".intercalate (canonical k.scope) := by
    intro k
    rw [Grant.scope]
    split_ifs
    · rfl
    · rfl
  rw [Grant.toObjectString, Grant.toObjectString, hns, hns, canonical_congr hscope]
  congr 3
  refine canonical_congr fun x => ?_
  simp only [List.mem_map, hverbs]

/-- The grant string reads back as the same authority, and any grant of the same
verbs and namespaces has the same string. -/
def Grant.Preserves (g : Grant) : Prop :=
  (∃ g', Grant.fromObjectString g.toObjectString = .ok g' ∧
    ∀ v ns, g'.covers v ns = g.covers v ns) ∧
  ∀ g' : Grant, (∀ v, v ∈ g'.verbs ↔ v ∈ g.verbs) → (∀ n, n ∈ g'.scope ↔ n ∈ g.scope) →
    g'.toObjectString = g.toObjectString

/-- Every namespace stands for itself between commas, or all are covered anyway
and none leaves a blank piece. -/
def Grant.Plain (g : Grant) : Prop :=
  ("*" ∈ g.namespaces ∧ ∀ n ∈ g.namespaces, ∀ p ∈ Text.split ',' n.toList, trim p ≠ []) ∨
  ∀ n ∈ g.namespaces, n ≠ "" ∧ ',' ∉ n.toList ∧ trim n.toList = n.toList

theorem Grant.Preserves.plain {g : Grant} (hverbs : g.verbs ≠ []) (h : g.Preserves) : g.Plain := by
  obtain ⟨⟨g', hread, hcovers⟩, -⟩ := h
  obtain ⟨hblank, hback⟩ := fromObjectString_toObjectString hverbs
  have hfull : ∀ p ∈ g.pieces, trim p ≠ [] := fun p hp hp' => hblank ⟨p, hp, hp'⟩ g' hread
  obtain ⟨g'', hread', hv, hns⟩ := hback hfull
  obtain rfl : g'' = g' := by
    rw [hread] at hread'
    cases hread'
    rfl
  obtain ⟨v, hvg⟩ := List.exists_mem_of_ne_nil _ hverbs
  by_cases hstar : "*" ∈ g.namespaces
  · refine .inl ⟨hstar, fun n hn p hp => hfull p ?_⟩
    exact (Grant.mem_pieces (List.ne_nil_of_mem hstar)).2 ⟨n, hn, hp⟩
  · refine .inr fun n hn => ?_
    have hne := List.ne_nil_of_mem hn
    -- the read grant has no star either: it would cover the namespace "*" itself
    have hstar' : "*" ∉ g''.namespaces := by
      intro hs
      have hc := hcovers v "*"
      rw [Grant.covers_iff.2 ⟨(hv v).2 hvg, .inr (.inl hs)⟩] at hc
      rcases (Grant.covers_iff.1 hc.symm).2 with h | h | h
      · exact hne h
      · exact hstar h
      · exact hstar h
    have hn' : n ∈ g''.namespaces := by
      have hc := hcovers v n
      rw [Grant.covers_iff.2 (⟨hvg, .inr (.inr hn)⟩ : v ∈ g.verbs ∧ _)] at hc
      rcases (Grant.covers_iff.1 hc).2 with h | h | h
      · obtain ⟨p, hp⟩ := List.exists_mem_of_ne_nil _ (Text.split_ne_nil ',' n.toList)
        have hmem := (hns (String.ofList (trim p))).2
          ⟨p, (Grant.mem_pieces hne).2 ⟨n, hn, hp⟩, String.toList_ofList⟩
        rw [h] at hmem
        cases hmem
      · exact absurd h hstar'
      · exact h
    obtain ⟨p, hp, hnp⟩ := (hns n).1 hn'
    obtain ⟨m, -, hpm⟩ := (Grant.mem_pieces hne).1 hp
    refine ⟨?_, ?_, ?_⟩
    · rintro rfl
      exact hfull p hp hnp.symm
    · rw [hnp]
      exact fun hc => Text.notMem_of_mem_split hpm (Text.mem_of_mem_trim hc)
    · rw [hnp]
      exact Text.trim_idem _ _

theorem Grant.Plain.preserves {g : Grant} (hverbs : g.verbs ≠ []) (h : g.Plain) : g.Preserves := by
  refine ⟨?_, fun g' hv hs => toObjectString_congr hv hs⟩
  obtain ⟨-, hback⟩ := fromObjectString_toObjectString hverbs
  rcases h with ⟨hstar, hfull⟩ | hplain
  · have hne := List.ne_nil_of_mem hstar
    obtain ⟨g', hread, hv, hns⟩ := hback fun p hp => by
      obtain ⟨n, hn, hpn⟩ := (Grant.mem_pieces hne).1 hp
      exact hfull n hn p hpn
    have hstar' : "*" ∈ g'.namespaces := (hns "*").2
      ⟨['*'], (Grant.mem_pieces hne).2 ⟨"*", hstar, List.mem_singleton_self _⟩, by decide⟩
    refine ⟨g', hread, fun v ns => ?_⟩
    rw [Bool.eq_iff_iff, Grant.covers_iff, Grant.covers_iff, hv]
    simp only [hstar, hstar', true_or, or_true]
  · have hpieces : ∀ p, p ∈ g.pieces ↔ ∃ n ∈ g.scope, p = n.toList := by
      intro p
      by_cases hne : g.namespaces = []
      · simp [Grant.pieces, Grant.scope, hne]
      · rw [Grant.mem_pieces hne, Grant.scope, if_neg (by simpa using hne)]
        refine exists_congr fun n => and_congr_right fun hn => ?_
        rw [Text.split_of_notMem (hplain n hn).2.1, List.mem_singleton]
    have htrim : ∀ n ∈ g.scope, n ≠ "" ∧ trim n.toList = n.toList := by
      intro n hn
      rw [Grant.scope] at hn
      split_ifs at hn
      · rw [List.mem_singleton.1 hn]
        decide
      · exact ⟨(hplain n hn).1, (hplain n hn).2.2⟩
    obtain ⟨g', hread, hv, hns⟩ := hback fun p hp => by
      obtain ⟨n, hn, rfl⟩ := (hpieces p).1 hp
      rw [(htrim n hn).2]
      simpa using (htrim n hn).1
    have hsame : ∀ n, n ∈ g'.namespaces ↔ n ∈ g.scope := by
      intro n
      rw [hns]
      constructor
      · rintro ⟨p, hp, hnp⟩
        obtain ⟨m, hm, rfl⟩ := (hpieces p).1 hp
        rw [(htrim m hm).2] at hnp
        rwa [String.toList_injective hnp]
      · exact fun hn => ⟨n.toList, (hpieces _).2 ⟨n, hn, rfl⟩, (htrim n hn).2.symm⟩
    have hnil : g'.namespaces ≠ [] := by
      intro h
      have hscope : g.scope = [] := List.eq_nil_iff_forall_not_mem.2 fun n hn => by
        have := (hsame n).2 hn
        rw [h] at this
        cases this
      rw [Grant.scope] at hscope
      split_ifs at hscope with he
      exact he (by rw [hscope]; rfl)
    refine ⟨g', hread, fun v ns => ?_⟩
    rw [Bool.eq_iff_iff, Grant.covers_iff, Grant.covers_iff, hv, hsame, hsame]
    refine and_congr_right fun _ => ?_
    rw [Grant.scope]
    split_ifs with he
    · simp [hnil, List.isEmpty_iff.1 he]
    · simp [hnil, show g.namespaces ≠ [] by simpa using he]

/-- **When a grant string preserves authority.** -/
theorem grant_string_preserves_iff {g : Grant} (h : g.verbs ≠ []) : g.Preserves ↔ g.Plain :=
  ⟨fun hp => hp.plain h, fun hp => hp.preserves h⟩

theorem caller_shared_preserves :
    (⟨[.read, .write], ["shared", "caller"]⟩ : Grant).Preserves :=
  (grant_string_preserves_iff (by decide)).2 (.inr (by decide))

/-- The checks of `parse_grant_parts` on the namespaces of a grant. -/
def Grant.checked (g : Grant) : Bool :=
  !g.verbs.isEmpty && g.namespaces.all fun n => trim n.toList ≠ []

/-- A namespace with a comma passes the checks and reads back as every
namespace. -/
theorem comma_widens_grant :
    (⟨[.read], ["caller,*"]⟩ : Grant).checked ∧
      (⟨[.read], ["caller,*"]⟩ : Grant).covers .read "shared" = false ∧
      ¬(⟨[.read], ["caller,*"]⟩ : Grant).Preserves := by
  refine ⟨by decide, by decide, fun h => ?_⟩
  rcases h.plain (by decide) with ⟨hstar, -⟩ | hplain
  · revert hstar
    decide
  · exact absurd (hplain "caller,*" (by decide)).2.1 (by decide)

end Deja.Authz
