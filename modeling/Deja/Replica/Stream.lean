import Deja.Replica.Shipped

/-!
# The stream and its follower

`dejadb stream` ships a store into a directory: a generation begins with a
snapshot, a bundle of the whole op-log, and goes on with segments, a bundle of
the ops past the cursor each.  `dejadb follow` runs elsewhere and on its own
time.  It reads which generation is current, applies that generation's segments
one after the other, and remembers how far it got; it may be passes behind, and
old generations may be pruned under it.

`Stream` is the two stores and the directory between them, `Stream.act` one
atomic action of either command or one operation on the source.  The result is
about every interleaving (`follower_follows`): a follower that has not failed
always stores what the source stored at some earlier moment, and once it has
applied the last segment of the current generation, what the source stored when
that segment was written.
-/

namespace Deja

open Run Journal

variable {G : Type}

/-! ## The directory, the two sides -/

/-- The stream directory: `CURSOR` with the current generation, the op cursor and
the next segment number, and the files `gen-<g>/segment-<i>.mgb`. -/
structure StreamDir where
  cursor : Option (ℕ × ℤ × ℕ)
  segments : ℕ → ℕ → Option Bytes

/-- Write a segment file. -/
def StreamDir.write (d : StreamDir) (g i : ℕ) (data : Bytes) : StreamDir :=
  { d with segments := fun g' i' => if g' = g ∧ i' = i then some data else d.segments g' i' }

/-- `prune_generations`: drop the generations that aged out, the current one
aside. -/
def StreamDir.prune (d : StreamDir) (current : ℕ) (aged : List ℕ) : StreamDir :=
  { d with segments := fun g i => if g ∈ aged ∧ g ≠ current then none else d.segments g i }

/-- The follower: its store, the `.follow` file with the generation and the next
segment, the generation the pass under way applies, and whether an import failed
(the command then ends). -/
structure Follower where
  store : DejaDB
  mark : Option (ℕ × ℕ)
  tracking : Option ℕ
  failed : Bool

/-- The source, the directory and the follower. -/
structure Stream where
  source : DejaDB
  dir : StreamDir
  follower : Follower

/-- What can happen next. -/
inductive Act (G : Type) where
  /-- An operation on the source. -/
  | write (op : Op G)
  /-- `stream` opens the generation `now` and drops those that aged out. -/
  | checkpoint (now : ℕ) (aged : List ℕ)
  /-- A round of the loop of `stream`. -/
  | ship
  /-- `follow` starts a pass: it reads the current generation. -/
  | look
  /-- `follow` applies the next segment of the generation of its pass. -/
  | pull

/-- A new generation: segment 0 is a bundle of the whole op-log. -/
def Stream.checkpoint (s : Stream) (now : ℕ) (aged : List ℕ) : Stream :=
  { s with dir := ({ s.dir.write now 0 (s.source.bundleSince 0) with
      cursor := some (now, s.source.lastOpSeq 0, 1) } : StreamDir).prune now aged }

/-- A round of `stream`: the ops past the cursor, if there are any, as the next
segment. -/
def Stream.ship (s : Stream) : Stream :=
  match s.dir.cursor with
  | none => s
  | some (g, c, n) =>
    if (s.source.db.changesSince c).isEmpty then s
    else { s with dir := { s.dir.write g n (s.source.bundleSince c) with
        cursor := some (g, s.source.lastOpSeq c, n + 1) } }

/-- The segment a pass over the generation `g` applies next. -/
def Follower.next (f : Follower) (g : ℕ) : ℕ :=
  match f.mark with
  | some (fgen, fseg) => if fgen = g then fseg else 0
  | none => 0

/-- A pass starts at the generation `CURSOR` names. -/
def Stream.look (s : Stream) : Stream :=
  { s with follower := { s.follower with tracking := s.dir.cursor.map Prod.fst } }

/-- Apply one segment; a missing file ends the pass, a failed import the command. -/
def Stream.pull (C : Core G) (s : Stream) : Stream :=
  match s.follower.tracking with
  | none => s
  | some g =>
    match s.dir.segments g (s.follower.next g) with
    | none => { s with follower := { s.follower with tracking := none } }
    | some data =>
      match importBundle C data s.follower.store with
      | .ok _ store =>
        { s with follower := { s.follower with
            store := store
            mark := some (g, s.follower.next g + 1) } }
      | .error _ store =>
        { s with follower := { s.follower with store := store, failed := true } }

/-- One action.  A follower that failed does nothing any more. -/
def Stream.act (C : Core G) (s : Stream) : Act G → Stream
  | .write op => { s with source := s.source.step C op }
  | .checkpoint now aged => s.checkpoint now aged
  | .ship => s.ship
  | .look => if s.follower.failed then s else s.look
  | .pull => if s.follower.failed then s else s.pull C

/-- A run of actions. -/
def Stream.run (C : Core G) (s : Stream) (acts : List (Act G)) : Stream :=
  acts.foldl (Stream.act C) s

/-- Two new files and an empty directory. -/
def Stream.start (C : Core G) (explicit explicit' : Option DejaDbOptions) (clock clock' : ℕ → ℤ) :
    Stream where
  source := createStore C explicit clock
  dir := ⟨none, fun _ _ => none⟩
  follower := ⟨createStore C explicit' clock', none, none, false⟩

/-- What an action relies on: the wall clock that names the generations moves on,
and a bundle fits its file. -/
def Act.Ok (s : Stream) : Act G → Prop
  | .checkpoint now _ => (∀ x ∈ s.dir.cursor, x.1 < now) ∧ s.source.BundleFits 0
  | .ship => ∀ x ∈ s.dir.cursor, s.source.BundleFits x.2.1
  | _ => True

/-- Every action of a run finds what it relies on. -/
def RunOk (C : Core G) : Stream → List (Act G) → Prop
  | _, [] => True
  | s, a :: acts => a.Ok s ∧ RunOk C (s.act C a) acts

/-! ## The journal behind the directory -/

variable {C : Core G}

/-- The first `i` segments of a generation, as changes. -/
def upTo (parts : ℕ → List (List (Change Hash Bytes))) (g i : ℕ) : List (Change Hash Bytes) :=
  ((parts g).take i).flatten

/-- `journal` is what the source changed, and its op-log says so. -/
structure Stream.SourceOk (C : Core G) (s : Stream) (journal : List (Change Hash Bytes)) :
    Prop where
  good : s.source.Good C
  logOk : s.source.LogOk
  marks : s.source.db.oplog.map OpRow.mark = journal.map changeMark
  contents : s.source.db.contents = journaled journal

/-- The files of a generation carry parts of the source's journal, from its
beginning on; a later generation's snapshot has everything the earlier ones have,
and the cursor stands where the current generation ends.  `past` are the states
of the source so far. -/
structure Stream.DirOk (s : Stream) (past : (Hash → Option Bytes) → Prop)
    (journal : List (Change Hash Bytes)) (parts : ℕ → List (List (Change Hash Bytes))) : Prop where
  files : ∀ g i data, s.dir.segments g i = some data →
    ∃ slice, (parts g)[i]? = some slice ∧ Carries data (upTo parts g i) slice
  fresh : ∀ g, parts g ≠ [] → ∃ x ∈ s.dir.cursor, g ≤ x.1
  later : ∀ g g', g < g' → parts g' ≠ [] → upTo parts g (parts g).length <+: upTo parts g' 1
  past : ∀ g i, i < (parts g).length → past (journaled (upTo parts g (i + 1)))
  current : ∀ x ∈ s.dir.cursor, parts x.1 ≠ [] ∧ x.2.2 = (parts x.1).length ∧
    ∃ log new rest, s.source.db.oplog = log ++ new ∧ AtCursor log x.2.1 ∧
      journal = upTo parts x.1 (parts x.1).length ++ rest ∧ new.map OpRow.mark = rest.map changeMark

/-- The follower has replayed the generation of its mark up to its mark. -/
structure Stream.FollowerOk (C : Core G) (s : Stream)
    (parts : ℕ → List (List (Change Hash Bytes))) : Prop where
  good : s.follower.failed = false → s.follower.store.Good C
  unmarked : s.follower.failed = false → s.follower.mark = none →
    s.follower.store.db.contents = journaled []
  marked : ∀ x ∈ s.follower.mark, 1 ≤ x.2 ∧ x.2 ≤ (parts x.1).length ∧
    (s.follower.failed = false → s.follower.store.db.contents = journaled (upTo parts x.1 x.2))
  tracking : ∀ g ∈ s.follower.tracking, parts g ≠ [] ∧ ∀ x ∈ s.follower.mark, x.1 ≤ g

/-- A generation with one more segment. -/
def extend (parts : ℕ → List (List (Change Hash Bytes))) (g : ℕ)
    (slice : List (Change Hash Bytes)) : ℕ → List (List (Change Hash Bytes)) :=
  Function.update parts g (parts g ++ [slice])

section Extend

variable {parts : ℕ → List (List (Change Hash Bytes))} {slice : List (Change Hash Bytes)} {g : ℕ}

theorem prefix_extend (parts : ℕ → List (List (Change Hash Bytes))) (g : ℕ)
    (slice : List (Change Hash Bytes)) (g' : ℕ) : parts g' <+: extend parts g slice g' := by
  by_cases h : g' = g
  · subst h
    rw [extend, Function.update_self]
    exact List.prefix_append _ _
  · rw [extend, Function.update_of_ne h]

theorem upTo_extend {g' i : ℕ} (h : i ≤ (parts g').length) :
    upTo (extend parts g slice) g' i = upTo parts g' i := by
  obtain ⟨more, hmore⟩ := prefix_extend parts g slice g'
  rw [upTo, upTo, ← hmore, List.take_append_of_le_length h]

theorem extend_self : extend parts g slice g = parts g ++ [slice] := Function.update_self ..

theorem extend_of_ne {g' : ℕ} (h : g' ≠ g) : extend parts g slice g' = parts g' :=
  Function.update_of_ne h _ _

theorem upTo_extend_self :
    upTo (extend parts g slice) g ((parts g).length + 1) =
      upTo parts g (parts g).length ++ slice := by
  rw [upTo, upTo, extend_self, List.take_of_length_le (by simp), List.take_length,
    List.flatten_append, List.flatten_singleton]

theorem upTo_mono (parts : ℕ → List (List (Change Hash Bytes))) (g : ℕ) {i j : ℕ} (h : i ≤ j) :
    upTo parts g i <+: upTo parts g j := by
  rw [upTo, upTo, ← List.take_append_drop i ((parts g).take j), List.take_take, min_eq_left h,
    List.flatten_append]
  exact List.prefix_append _ _

theorem upTo_succ {i : ℕ} (h : (parts g)[i]? = some slice) :
    upTo parts g (i + 1) = upTo parts g i ++ slice := by
  rw [upTo, upTo, List.take_add_one, h, Option.toList_some, List.flatten_append,
    List.flatten_singleton]

end Extend

variable {s : Stream} {past : (Hash → Option Bytes) → Prop}
  {journal slice : List (Change Hash Bytes)} {parts : ℕ → List (List (Change Hash Bytes))}

/-- What was shipped is the beginning of the journal. -/
theorem Stream.DirOk.prefix_journal (h : s.DirOk past journal parts) {g : ℕ} (hg : parts g ≠ []) :
    upTo parts g (parts g).length <+: journal := by
  obtain ⟨x, hx, hle⟩ := h.fresh g hg
  obtain ⟨hne, -, log, new, rest, -, -, hjournal, -⟩ := h.current x hx
  have hcur : upTo parts x.1 (parts x.1).length <+: journal := by
    rw [hjournal]
    exact List.prefix_append _ _
  rcases hle.eq_or_lt with rfl | hlt
  · exact hcur
  · have hpos : 1 ≤ (parts x.1).length := List.length_pos_iff.2 hne
    exact (h.later g x.1 hlt hne).trans ((upTo_mono parts x.1 hpos).trans hcur)

/-- **One more segment.**  A bundle of the ops past a cursor, written as the next
segment of the current generation or as the snapshot of a new one. -/
theorem Stream.DirOk.extend (h : s.DirOk past journal parts) (hsrc : s.SourceOk C journal)
    (hpast : past s.source.db.contents) {g : ℕ} {c : ℤ} {d : StreamDir} (log new : List OpRow)
    (hfits : s.source.BundleFits c) (hlog : s.source.db.oplog = log ++ new) (hcur : AtCursor log c)
    (hjournal : journal = upTo parts g (parts g).length ++ slice)
    (hmark : new.map OpRow.mark = slice.map changeMark) (hnewest : ∀ x ∈ s.dir.cursor, x.1 ≤ g)
    (hlater : ∀ g' < g, upTo parts g' (parts g').length <+: upTo (extend parts g slice) g 1)
    (hcursor : d.cursor = some (g, s.source.lastOpSeq c, (parts g).length + 1))
    (hfiles : ∀ g' i data, d.segments g' i = some data →
      (g' = g ∧ i = (parts g).length ∧ data = s.source.bundleSince c) ∨
        s.dir.segments g' i = some data) :
    Stream.DirOk { s with dir := d } past journal (Deja.extend parts g slice) := by
  obtain ⟨hchanges, hat⟩ := hcur.changesSince hsrc.logOk hlog
  refine ⟨?_, ?_, ?_, ?_, ?_⟩
  · intro g' i data hdata
    rcases hfiles g' i data hdata with ⟨rfl, rfl, rfl⟩ | hold
    · refine ⟨slice, by rw [extend_self]; simp, ?_⟩
      rw [upTo_extend (le_refl _)]
      refine carries_bundleSince C hsrc.good hfits ?_ ?_
      · rw [hsrc.contents, hjournal]
      · rw [hchanges, hmark]
    · obtain ⟨part, hpart, hcarries⟩ := h.files g' i data hold
      have hi : i < (parts g').length := (List.getElem?_eq_some_iff.1 hpart).1
      obtain ⟨more, hmore⟩ := prefix_extend parts g slice g'
      refine ⟨part, ?_, by rwa [upTo_extend hi.le]⟩
      rw [← hmore, List.getElem?_append_left hi]
      exact hpart
  · intro g' hg'
    refine ⟨_, hcursor, ?_⟩
    by_cases heq : g' = g
    · exact heq.le
    · rw [extend_of_ne heq] at hg'
      obtain ⟨x, hx, hle⟩ := h.fresh g' hg'
      exact hle.trans (hnewest x hx)
  · intro g₁ g₂ hlt hne
    by_cases h₂ : g₂ = g
    · subst h₂
      rw [extend_of_ne hlt.ne, upTo_extend (le_refl _)]
      exact hlater g₁ hlt
    · rw [extend_of_ne h₂] at hne
      obtain ⟨x, hx, hle⟩ := h.fresh g₂ hne
      have h₁ : g₁ ≠ g := (hlt.trans_le (hle.trans (hnewest x hx))).ne
      rw [extend_of_ne h₁, upTo_extend (le_refl _), upTo_extend (List.length_pos_iff.2 hne)]
      exact h.later g₁ g₂ hlt hne
  · intro g' i hi
    by_cases heq : g' = g
    · subst heq
      rw [extend_self, List.length_append, List.length_singleton] at hi
      rcases (Nat.lt_succ_iff.1 hi).eq_or_lt with rfl | hlt
      · rw [upTo_extend_self, ← hjournal, ← hsrc.contents]
        exact hpast
      · rw [upTo_extend (Nat.succ_le_of_lt hlt)]
        exact h.past g' i hlt
    · rw [extend_of_ne heq] at hi
      rw [upTo_extend (Nat.succ_le_of_lt hi)]
      exact h.past g' i hi
  · intro x hx
    rw [hcursor, Option.mem_some_iff] at hx
    subst hx
    refine ⟨by rw [extend_self]; simp, by rw [extend_self]; simp, s.source.db.oplog, [], [],
      (List.append_nil _).symm, hat, ?_, rfl⟩
    rw [extend_self, List.length_append, List.length_singleton, upTo_extend_self, List.append_nil,
      ← hjournal]

theorem Stream.FollowerOk.extend (h : s.FollowerOk C parts) (g : ℕ)
    (slice : List (Change Hash Bytes)) (d : StreamDir) :
    Stream.FollowerOk C { s with dir := d } (Deja.extend parts g slice) where
  good := h.good
  unmarked := h.unmarked
  marked x hx := by
    obtain ⟨hpos, hle, hcontents⟩ := h.marked x hx
    rw [upTo_extend hle]
    exact ⟨hpos, hle.trans (prefix_extend parts g slice x.1).length_le, hcontents⟩
  tracking g' hg' := by
    obtain ⟨hne, hmark⟩ := h.tracking g' hg'
    refine ⟨fun hnil => hne ?_, hmark⟩
    have hprefix := prefix_extend parts g slice g'
    rw [hnil] at hprefix
    exact List.prefix_nil.1 hprefix

/-! ## One action -/

/-- The source is in order, the directory carries its journal, and the follower
has replayed what its mark says. -/
def Stream.Inv (C : Core G) (past : (Hash → Option Bytes) → Prop) (s : Stream) : Prop :=
  ∃ journal parts, s.SourceOk C journal ∧ s.DirOk past journal parts ∧ s.FollowerOk C parts

theorem Stream.write_inv (h : s.Inv C past) (op : Op G) : (s.act C (.write op)).Inv C past := by
  obtain ⟨journal, parts, hsrc, hdir, hfol⟩ := h
  obtain ⟨hgood, hlogOk, cs, new, hlog, hmark, hcontents⟩ := steps_follows hsrc.good hsrc.logOk [op]
  refine ⟨journal ++ cs, parts, ⟨hgood, hlogOk, ?_, ?_⟩,
    ⟨hdir.files, hdir.fresh, hdir.later, hdir.past, ?_⟩, ⟨hfol.good, hfol.unmarked, hfol.marked,
    hfol.tracking⟩⟩
  · rw [List.map_append, ← hsrc.marks, ← hmark, ← List.map_append, ← hlog]
    rfl
  · rw [journaled, replay_append, ← journaled, ← hsrc.contents, ← hcontents]
    rfl
  · intro x hx
    obtain ⟨hne, hlen, log, new', rest, hlog', hat, hjournal, hmark'⟩ := hdir.current x hx
    refine ⟨hne, hlen, log, new' ++ new, rest ++ cs, ?_, hat, ?_, ?_⟩
    · rw [← List.append_assoc, ← hlog', ← hlog]
      rfl
    · rw [hjournal, List.append_assoc]
    · rw [List.map_append, List.map_append, hmark', hmark]

theorem Stream.checkpoint_inv (h : s.Inv C past) (hpast : past s.source.db.contents) {now : ℕ}
    (aged : List ℕ) (hclock : ∀ x ∈ s.dir.cursor, x.1 < now) (hfits : s.source.BundleFits 0) :
    (s.checkpoint now aged).Inv C past := by
  obtain ⟨journal, parts, hsrc, hdir, hfol⟩ := h
  have hempty : parts now = [] := by
    by_contra hne
    obtain ⟨x, hx, hle⟩ := hdir.fresh now hne
    exact absurd (hclock x hx) hle.not_gt
  have hnone : ∀ i, s.dir.segments now i = none := by
    intro i
    cases hdata : s.dir.segments now i with
    | none => rfl
    | some data =>
      obtain ⟨slice, hslice, -⟩ := hdir.files now i data hdata
      rw [hempty] at hslice
      cases hslice
  refine ⟨journal, Deja.extend parts now journal, ⟨hsrc.good, hsrc.logOk, hsrc.marks,
    hsrc.contents⟩, hdir.extend hsrc hpast [] s.source.db.oplog hfits rfl atCursor_nil
    (by rw [hempty]; rfl) hsrc.marks (fun x hx => (hclock x hx).le) ?_ (by rw [hempty]; rfl) ?_,
    hfol.extend now journal _⟩
  · intro g hg
    have hone : upTo (Deja.extend parts now journal) now 1 = journal := by
      have hself := @upTo_extend_self parts journal now
      rw [hempty] at hself
      exact hself
    rw [hone]
    by_cases hne : parts g = []
    · rw [upTo, hne]
      exact List.nil_prefix
    · exact hdir.prefix_journal hne
  · intro g i data hdata
    simp only [StreamDir.prune, StreamDir.write] at hdata
    split_ifs at hdata with hgone hnew
    · obtain ⟨rfl, rfl⟩ := hnew
      cases hdata
      exact .inl ⟨rfl, by rw [hempty]; rfl, rfl⟩
    · exact .inr hdata

theorem Stream.ship_inv (h : s.Inv C past) (hpast : past s.source.db.contents)
    (hfits : ∀ x ∈ s.dir.cursor, s.source.BundleFits x.2.1) : s.ship.Inv C past := by
  unfold ship
  cases hcursor : s.dir.cursor with
  | none => exact h
  | some x =>
    obtain ⟨g, c, n⟩ := x
    simp only
    split_ifs with hquiet
    · exact h
    obtain ⟨journal, parts, hsrc, hdir, hfol⟩ := h
    have hmem : (g, c, n) ∈ s.dir.cursor := hcursor
    obtain ⟨hne, hlen, log, new, rest, hlog, hat, hjournal, hmark⟩ := hdir.current _ hmem
    have hnewest : ∀ x ∈ s.dir.cursor, x.1 ≤ g := by
      intro x hx
      rw [hcursor, Option.mem_some_iff] at hx
      exact hx ▸ le_refl g
    simp only at hlen
    refine ⟨journal, Deja.extend parts g rest, ⟨hsrc.good, hsrc.logOk, hsrc.marks, hsrc.contents⟩,
      hdir.extend hsrc hpast log new (hfits _ hmem) hlog hat hjournal hmark hnewest
        ?_ (by rw [← hlen]) ?_, hfol.extend g rest _⟩
    · intro g' hlt
      rw [upTo_extend (List.length_pos_iff.2 hne)]
      exact hdir.later g' g hlt hne
    · intro g' i data hdata
      simp only [StreamDir.write] at hdata
      split_ifs at hdata with hnew
      · cases hdata
        exact .inl ⟨hnew.1, hnew.2.trans hlen, rfl⟩
      · exact .inr hdata

theorem Stream.look_inv (h : s.Inv C past) : s.look.Inv C past := by
  obtain ⟨journal, parts, hsrc, hdir, hfol⟩ := h
  refine ⟨journal, parts, ⟨hsrc.good, hsrc.logOk, hsrc.marks, hsrc.contents⟩, ⟨hdir.files,
    hdir.fresh, hdir.later, hdir.past, hdir.current⟩, ⟨hfol.good, hfol.unmarked, hfol.marked, ?_⟩⟩
  intro g hg
  obtain ⟨x, hx, rfl⟩ := Option.map_eq_some_iff.1 hg
  refine ⟨(hdir.current x hx).1, fun y hy => ?_⟩
  obtain ⟨hpos, hle, -⟩ := hfol.marked y hy
  obtain ⟨x', hx', hle'⟩ := hdir.fresh y.1 (List.length_pos_iff.1 (hpos.trans hle))
  rw [Option.mem_unique hx' hx] at hle'
  exact hle'

/-- Where a pass goes on: the follower has replayed what comes before its next
segment, and maybe a beginning of that segment, if it is a new snapshot. -/
theorem Stream.FollowerOk.next (hfol : s.FollowerOk C parts) (hdir : s.DirOk past journal parts)
    (hok : s.follower.failed = false) {g : ℕ} (hg : g ∈ s.follower.tracking)
    (hslice : (parts g)[s.follower.next g]? = some slice) :
    ∃ p q, slice = p ++ q ∧
      s.follower.store.db.contents = journaled (upTo parts g (s.follower.next g) ++ p) := by
  obtain ⟨hne, hmarks⟩ := hfol.tracking g hg
  unfold Follower.next at hslice ⊢
  cases hmark : s.follower.mark with
  | none => exact ⟨[], slice, rfl, hfol.unmarked hok hmark⟩
  | some x =>
    obtain ⟨m, i⟩ := x
    rw [hmark] at hslice
    obtain ⟨hpos, hle, hcontents⟩ := hfol.marked (m, i) hmark
    simp only at hslice ⊢
    split_ifs at hslice ⊢ with heq
    · subst heq
      exact ⟨[], slice, rfl, by rw [List.append_nil]; exact hcontents hok⟩
    -- the mark is on an earlier generation: the snapshot begins with all of it
    · have hlt : m < g := lt_of_le_of_ne (hmarks _ hmark) heq
      have hone : upTo parts g 1 = slice := upTo_succ hslice
      obtain ⟨q, hq⟩ := (upTo_mono parts m hle).trans (hdir.later m g hlt hne)
      exact ⟨upTo parts m i, q, by rw [← hone, hq], hcontents hok⟩

theorem Stream.pull_inv (h : s.Inv C past) (hok : s.follower.failed = false) :
    (s.pull C).Inv C past := by
  obtain ⟨journal, parts, hsrc, hdir, hfol⟩ := h
  have hother : ∀ f, Stream.FollowerOk C { s with follower := f } parts →
      Stream.Inv C past { s with follower := f } := fun f hf =>
    ⟨journal, parts, ⟨hsrc.good, hsrc.logOk, hsrc.marks, hsrc.contents⟩, ⟨hdir.files, hdir.fresh,
      hdir.later, hdir.past, hdir.current⟩, hf⟩
  unfold pull
  cases htrack : s.follower.tracking with
  | none => exact ⟨journal, parts, hsrc, hdir, hfol⟩
  | some g =>
    obtain ⟨hne, hmarks⟩ := hfol.tracking g htrack
    simp only
    cases hdata : s.dir.segments g (s.follower.next g) with
    | none =>
      exact hother _ ⟨hfol.good, hfol.unmarked, hfol.marked, fun g hg => by cases hg⟩
    | some data =>
      obtain ⟨slice, hslice, hcarries⟩ := hdir.files g _ data hdata
      simp only
      cases himport : importBundle C data s.follower.store with
      | error e store =>
        refine hother _ ⟨fun h => absurd h.symm Bool.false_ne_true,
          fun h => absurd h.symm Bool.false_ne_true, fun x hx => ?_, hfol.tracking⟩
        obtain ⟨hpos, hle, -⟩ := hfol.marked x hx
        exact ⟨hpos, hle, fun h => absurd h.symm Bool.false_ne_true⟩
      | ok stats store =>
        obtain ⟨p, q, rfl, hcontents⟩ := hfol.next hdir hok htrack hslice
        obtain ⟨hgood, hnow⟩ := hcarries.imported C (hfol.good hok) hcontents himport
        have hlt := (List.getElem?_eq_some_iff.1 hslice).1
        refine hother _ ⟨fun _ => hgood, fun _ h => absurd h (Option.some_ne_none _),
          fun x hx => ?_, fun g' hg' => ?_⟩
        · cases hx
          refine ⟨Nat.succ_pos _, hlt, fun _ => ?_⟩
          rw [upTo_succ hslice]
          exact hnow
        · rw [htrack] at hg'
          cases hg'
          refine ⟨hne, fun x hx => ?_⟩
          cases hx
          exact le_refl _

theorem Stream.Inv.mono {past' : (Hash → Option Bytes) → Prop} (h : s.Inv C past)
    (hpast : ∀ f, past f → past' f) : s.Inv C past' := by
  obtain ⟨journal, parts, hsrc, hdir, hfol⟩ := h
  exact ⟨journal, parts, hsrc, ⟨hdir.files, hdir.fresh, hdir.later,
    fun g i hi => hpast _ (hdir.past g i hi), hdir.current⟩, hfol⟩

/-- **One action** keeps the invariant. -/
theorem Stream.act_inv (h : s.Inv C past) (hpast : past s.source.db.contents) {a : Act G}
    (hok : a.Ok s) : (s.act C a).Inv C past := by
  cases a with
  | write op => exact s.write_inv h op
  | checkpoint now aged => exact s.checkpoint_inv h hpast aged hok.1 hok.2
  | ship => exact s.ship_inv h hpast hok
  | look =>
    unfold act
    split_ifs
    · exact h
    · exact s.look_inv h
  | pull =>
    unfold act
    split_ifs with hfailed
    · exact h
    · exact s.pull_inv h (by simpa using hfailed)

/-! ## Every run -/

theorem Stream.start_inv (C : Core G) (explicit explicit' : Option DejaDbOptions)
    (clock clock' : ℕ → ℤ) (past : (Hash → Option Bytes) → Prop) :
    (Stream.start C explicit explicit' clock clock').Inv C past := by
  have hempty : ∀ (o : Option DejaDbOptions) (k : ℕ → ℤ),
      (createStore C o k).db.oplog = [] ∧ (createStore C o k).db.contents = journaled [] := by
    intro o k
    rw [createStore_eq]
    exact ⟨rfl, rfl⟩
  refine ⟨[], fun _ => [], ⟨createStore_good C _ _, createStore_logOk C _ _, ?_,
    (hempty _ _).2⟩, ⟨?_, ?_, ?_, ?_, ?_⟩, ⟨fun _ => createStore_good C _ _, fun _ _ =>
    (hempty _ _).2, ?_, ?_⟩⟩
  · rw [show (Stream.start C explicit explicit' clock clock').source.db.oplog = [] from
      (hempty _ _).1]
    rfl
  · intro g i data hdata
    cases hdata
  · intro g hg
    exact absurd rfl hg
  · intro g g' _ hg'
    exact absurd rfl hg'
  · intro g i hi
    exact absurd hi (Nat.not_lt_zero i)
  · intro x hx
    cases hx
  · intro x hx
    cases hx
  · intro g hg
    cases hg

theorem runOk_append {acts : List (Act G)} {a : Act G} :
    RunOk C s (acts ++ [a]) ↔ RunOk C s acts ∧ a.Ok (s.run C acts) := by
  induction acts generalizing s with
  | nil => simp [RunOk, Stream.run]
  | cons b acts ih =>
    rw [List.cons_append, RunOk, RunOk, ih, and_assoc]
    rfl

/-- What the source stored at some moment of a run. -/
def PastOf (C : Core G) (s : Stream) (acts : List (Act G)) (f : Hash → Option Bytes) : Prop :=
  ∃ before, before <+: acts ∧ (s.run C before).source.db.contents = f

theorem Stream.run_inv {acts : List (Act G)} (h : s.Inv C fun _ => False) (hok : RunOk C s acts) :
    (s.run C acts).Inv C (PastOf C s acts) := by
  induction acts using List.reverseRecOn with
  | nil => exact h.mono fun _ hf => hf.elim
  | append_singleton acts a ih =>
    obtain ⟨hbefore, ha⟩ := runOk_append.1 hok
    have hinv : (s.run C acts).Inv C (PastOf C s (acts ++ [a])) :=
      (ih hbefore).mono fun f ⟨before, hpre, hf⟩ =>
        ⟨before, hpre.trans (List.prefix_append _ _), hf⟩
    have hrun : s.run C (acts ++ [a]) = (s.run C acts).act C a := by
      rw [Stream.run, List.foldl_append]
      rfl
    rw [hrun]
    exact Stream.act_inv hinv ⟨acts, List.prefix_append _ _, rfl⟩ ha

/-- **A follower follows.**  In every interleaving of operations, checkpoints with
their pruning, segments shipped and segments pulled, a follower that has not
failed stores, byte for byte, what the source stored at some earlier moment; and
when its mark is the next segment of the current generation and the source has
nothing to ship, what the source stores now. -/
theorem follower_follows {explicit explicit' : Option DejaDbOptions} {clock clock' : ℕ → ℤ}
    {acts : List (Act G)}
    (hok : RunOk C (Stream.start C explicit explicit' clock clock') acts)
    (hrun : ((Stream.start C explicit explicit' clock clock').run C acts).follower.failed = false) :
    (∃ before, before <+: acts ∧
      ((Stream.start C explicit explicit' clock clock').run C acts).follower.store.db.contents =
        ((Stream.start C explicit explicit' clock clock').run C before).source.db.contents) ∧
      ∀ g c n, ((Stream.start C explicit explicit' clock clock').run C acts).dir.cursor =
          some (g, c, n) →
        ((Stream.start C explicit explicit' clock clock').run C acts).follower.mark = some (g, n) →
        ((Stream.start C explicit explicit' clock clock').run C acts).source.db.changesSince c =
          [] →
        ((Stream.start C explicit explicit' clock clock').run C acts).follower.store.db.contents =
          ((Stream.start C explicit explicit' clock clock').run C acts).source.db.contents := by
  obtain ⟨journal, parts, hsrc, hdir, hfol⟩ :=
    Stream.run_inv (Stream.start_inv C explicit explicit' clock clock' _) hok
  constructor
  · cases hmark : ((Stream.start C explicit explicit' clock clock').run C acts).follower.mark with
    | none =>
      refine ⟨[], List.nil_prefix, (hfol.unmarked hrun hmark).trans ?_⟩
      show journaled [] = (createStore C explicit clock).db.contents
      rw [createStore_eq]
      rfl
    | some x =>
      obtain ⟨hpos, hle, hcontents⟩ := hfol.marked x hmark
      obtain ⟨i, hi⟩ := Nat.exists_eq_add_of_le' hpos
      rw [hi] at hle hcontents
      obtain ⟨before, hpre, hstate⟩ := hdir.past x.1 i hle
      exact ⟨before, hpre, (hcontents hrun).trans hstate.symm⟩
  · intro g c n hcursor hmark hquiet
    obtain ⟨-, hlen, log, new, rest, hlog, hat, hjournal, hrest⟩ := hdir.current _ hcursor
    obtain ⟨-, -, hcontents⟩ := hfol.marked _ hmark
    obtain ⟨hchanges, -⟩ := hat.changesSince hsrc.logOk hlog
    have hnil : rest = [] := by
      rw [← hchanges, hquiet] at hrest
      exact List.map_eq_nil_iff.1 hrest.symm
    simp only at hlen
    rw [hcontents hrun, hsrc.contents, hjournal, hnil, List.append_nil]
    simp only [hlen]

/-! ## A run that changes generations -/

instance (r : BundleRecord) : Decidable r.Fits :=
  decidable_of_iff (-2 ^ 63 ≤ r.hlc ∧ r.hlc < 2 ^ 63 ∧ r.blob.length < 2 ^ 32)
    ⟨fun h => ⟨h.1, h.2.1, h.2.2⟩, fun h => ⟨h.hlc_lo, h.hlc_hi, h.blob_lt⟩⟩

instance (st : DejaDB) (c : ℤ) : Decidable (st.BundleFits c) := inferInstanceAs (Decidable (_ ∧ _))

instance (s : Stream) (a : Act G) : Decidable (a.Ok s) :=
  match a with
  | .checkpoint now _ =>
    inferInstanceAs (Decidable ((∀ x ∈ s.dir.cursor, x.1 < now) ∧ s.source.BundleFits 0))
  | .ship => inferInstanceAs (Decidable (∀ x ∈ s.dir.cursor, s.source.BundleFits x.2.1))
  | .write _ | .look | .pull => .isTrue trivial

instance RunOk.decidable (C : Core G) (s : Stream) :
    ∀ acts : List (Act G), Decidable (RunOk C s acts)
  | [] => .isTrue trivial
  | a :: acts =>
    have := RunOk.decidable C (s.act C a) acts
    inferInstanceAs (Decidable (_ ∧ _))

/-- A snapshot with a fact is pulled; the fact is forgotten, and the source opens a
second generation and drops the first. -/
def twoGenerations : List (Act SampleBody) :=
  [.write (.add (sampleFact 1 1 1 2 3)), .checkpoint 7 [], .look, .pull,
    .write (.forget (Hash.ofByte 1)), .checkpoint 8 [7], .look, .pull]

/-- The two stores at the end of it. -/
def followed : Stream := (Stream.start sampleCore none none (fun _ => 9) fun _ => 9).run sampleCore
  twoGenerations

theorem followed_follows : followed.follower.mark = some (8, 1) ∧
    followed.follower.store.db.contents = followed.source.db.contents := by
  refine ⟨by decide +kernel, ?_⟩
  unfold followed
  exact (@follower_follows _ sampleCore none none (fun _ => 9) (fun _ => 9) twoGenerations
    (by decide +kernel) (by decide +kernel)).2 8 2 1 (by decide +kernel) (by decide +kernel)
      (by decide +kernel)

end Deja
