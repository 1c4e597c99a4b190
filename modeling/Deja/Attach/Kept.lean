import Deja.Attach.Effects
import Deja.Attach.Stored
import Deja.Core.Sample

/-!
# Attachments are kept while referenced and gone afterwards

A run of `put_blob`, `encrypt_blobs`, `gc_blobs` and store operations, on a
memory in the clear or under a key, with its attachments in files or in a table.

* `Memory.Kept` — what an attachment is promised: it reads back while it is there,
  it is there while a stored grain names it, and it goes with the last one.
* `Memory.Straight` — the stored grains spell their attachments as `put_blob` does.
* `attachments_kept` — the promise holds in every run whose steps start straight
  and that puts nothing into a memory in the clear that looks sealed.
* `sealed_prefix_unreadable` — such an attachment is stored and cannot be read.
-/

namespace Deja

open Run

variable {G : Type} {C : Core G} {H : Host}

/-! ## Store operations and attachments -/

namespace Memory

/-- A stored grain names an attachment: one of its `cas://` names is the hex of the
digest, in either case. -/
def Names (C : Core G) (m : Memory) (b : Bytes) : Prop :=
  ∃ blob ∈ m.db.db.grainBlobs, ∃ x ∈ casNames C blob,
    hexDecode x.toList = some (C.contentAddress b).bytes

/-- The blob store has a blob under the name of an attachment. -/
def Holds (H : Host) (C : Core G) (m : Memory) (b : Bytes) : Prop :=
  (m.blobs.read H (C.contentAddress b).toHex).isSome = true

/-- Every `cas://` name of a stored grain can be split where that is done, and is
spelled as `put_blob` spells it where it stands for the attachment. -/
def Straight (H : Host) (C : Core G) (m : Memory) (b : Bytes) : Prop :=
  ∀ blob ∈ m.db.db.grainBlobs, ∀ x ∈ casNames C blob, m.blobs.Sliced x ∧
    (m.blobs.Denotes H x (C.contentAddress b) → x = (C.contentAddress b).toHex)

variable {m : Memory} {b : Bytes}

theorem denotes_of_hexDecode {x : String} {h : Hash} (hdec : hexDecode x.toList = some h.bytes)
    (store : BlobStore) : store.Denotes H x h := by
  cases store with
  | fs files => exact .inl hdec
  | table rows => exact hdec

/-- Under straight names, a name is the canonical one. -/
theorem Straight.toHex_mem (h : m.Straight H C b) {blob : Bytes} (hblob : blob ∈ m.db.db.grainBlobs)
    {x : String} (hx : x ∈ casNames C blob)
    (hdec : hexDecode x.toList = some (C.contentAddress b).bytes) :
    (C.contentAddress b).toHex ∈ casNames C blob := by
  rwa [← (h blob hblob x hx).2 (denotes_of_hexDecode hdec _)]

theorem mem_referenced {t : Tables} {x : String} :
    x ∈ t.referenced C ↔ ∃ blob ∈ t.grainBlobs, x ∈ casNames C blob := by
  simp [Tables.referenced, Tables.grainBlobs]

theorem write_db (m : Memory) (op : Op G) : (m.write H C op).db = m.db.step C op := by
  unfold write DejaDB.step DejaDB.after after
  cases op.run C m.db <;> rfl

/-- The candidates of an operation are names of stored grains. -/
theorem mem_candidates {op : Op G} {x : String}
    (hx : x ∈ (op.targets C m.db).flatMap fun g => casNames C g.blob) :
    ∃ blob ∈ m.db.db.grainBlobs, x ∈ casNames C blob := by
  obtain ⟨g, hg, hx⟩ := List.mem_flatMap.1 hx
  exact ⟨g.blob, List.mem_map_of_mem (Op.mem_of_mem_targets hg), hx⟩

/-- **A referenced attachment is not reclaimed.** -/
theorem write_kept (hH : H.Lawful) {op : Op G} (hop : op.Followed) (hgood : m.db.Good C)
    (hstraight : m.Straight H C b) (hnames : (m.write H C op).Names C b) :
    (m.write H C op).blobs.read H (C.contentAddress b).toHex =
      m.blobs.read H (C.contentAddress b).toHex := by
  unfold write at hnames ⊢
  cases hrun : op.run C m.db with
  | error e st => rfl
  | ok u st =>
    rw [hrun] at hnames
    rcases hop with herases | hretains
    · obtain ⟨dead, hgrains, -⟩ := Op.erases_ok herases hgood hrun
      obtain ⟨blob, hblob, x, hx, hdec⟩ := hnames
      have hbefore : blob ∈ m.db.db.grainBlobs := by
        obtain ⟨g, hg, rfl⟩ := List.mem_map.1 hblob
        rw [show (_ : List GrainRow) = _ from hgrains] at hg
        exact List.mem_map_of_mem (List.mem_of_mem_filter hg)
      refine BlobStore.read_reclaim_referenced hH (fun y hy hden => ?_)
        (mem_referenced.2 ⟨blob, hblob, hstraight.toHex_mem hbefore hx hdec⟩)
      obtain ⟨blob', hblob', hy⟩ := mem_candidates hy
      exact (hstraight blob' hblob' y hy).2 hden
    · simp only [Op.targets_of_retains hretains, List.flatMap_nil, BlobStore.reclaim_nil]

/-- **The last reference takes the attachment along.** -/
theorem write_gone (hH : H.Lawful) {op : Op G} (hop : op.Followed) (hgood : m.db.Good C)
    (hstraight : m.Straight H C b) (hnames : m.Names C b)
    (hlast : ¬(m.write H C op).Names C b) :
    (m.write H C op).blobs.read H (C.contentAddress b).toHex = none := by
  obtain ⟨blob, hblob, x, hx, hdec⟩ := hnames
  have hgone : blob ∉ (m.write H C op).db.db.grainBlobs := fun hin => hlast ⟨blob, hin, x, hx, hdec⟩
  rcases hop with herases | hretains
  · unfold write at hlast hgone ⊢
    cases hrun : op.run C m.db with
    | error e st =>
      rw [hrun] at hgone
      have hdb := Op.erases_error herases hrun
      exact absurd (show blob ∈ st.db.grainBlobs by rwa [hdb]) hgone
    | ok u st =>
      rw [hrun] at hlast hgone
      obtain ⟨dead, hgrains, hdead⟩ := Op.erases_ok herases hgood hrun
      obtain ⟨g, hg, rfl⟩ := List.mem_map.1 hblob
      have htarget : g ∈ op.targets C m.db := by
        refine hdead g hg ?_
        by_contra hseq
        refine hgone (List.mem_map_of_mem ?_)
        rw [show (_ : List GrainRow) = _ from hgrains]
        exact List.mem_filter.2 ⟨hg, by simpa using hseq⟩
      refine BlobStore.read_reclaim_gone hH (fun y hy => ?_)
        (List.mem_flatMap.2 ⟨g, htarget, hstraight.toHex_mem hblob hx hdec⟩) fun href => ?_
      · obtain ⟨blob', hblob', hy⟩ := mem_candidates hy
        exact (hstraight blob' hblob' y hy).1
      · obtain ⟨blob', hblob', hin⟩ := mem_referenced.1 href
        exact hlast ⟨blob', hblob', _, hin, hexDecode_toHex _⟩
  · rw [write_db] at hgone
    exact absurd (Op.retains_blobs hretains hgood hblob) hgone

/-! ## One step -/

/-- A memory of a run: the store is in order and every blob was put. -/
structure Sound (H : Host) (C : Core G) (P : Bytes → Prop) (m : Memory) : Prop where
  good : m.db.Good C
  written : m.blobs.Written H C m.blobKey P

theorem write_sub (m : Memory) (op : Op G) : BlobStore.Sub (m.write H C op).blobs m.blobs := by
  unfold write
  cases op.run C m.db with
  | ok u st => exact BlobStore.reclaim_sub _ _
  | error e st => cases m.blobs <;> exact List.Subset.refl _

theorem write_blobKey (m : Memory) (op : Op G) : (m.write H C op).blobKey = m.blobKey := by
  unfold write
  cases op.run C m.db <;> rfl

end Memory

theorem DejaDB.Good.step {st : DejaDB} (h : st.Good C) (op : Op G) : (st.step C op).Good C := by
  have hpath : Path C (fun _ _ => True) st (st.step C op) := Op.path h.toSound fun _ _ => trivial
  exact (hpath.keeps_good (I := fun _ => True) (fun _ _ _ _ h => h) (fun _ _ _ _ _ _ h => h) h
    trivial).1

/-- The store operation an operation of a run is. -/
def MemoryOp.toOp : MemoryOp G → Option (Op G)
  | .putBlob .. | .encryptBlobs _ | .gcBlobs => none
  | .add g => some (.add g)
  | .supersede old g => some (.supersede old g)
  | .forget hash => some (.forget hash)
  | .forgetSubject ns s mentions => some (.forgetSubject ns s mentions)
  | .forgetOlderThan ns cutoff gt limit => some (.forgetOlderThan ns cutoff gt limit)
  | .reopen explicit clock => some (.reopen explicit clock)

/-- The operations that may reclaim an attachment. -/
def MemoryOp.Reclaims : MemoryOp G → Prop
  | .gcBlobs | .forget _ | .forgetSubject .. | .forgetOlderThan .. => True
  | _ => False

namespace Memory

variable {P : Bytes → Prop} {m : Memory} {b : Bytes}

/-- An operation puts, encrypts, collects, or writes to the store. -/
theorem step_cases (m : Memory) (op : MemoryOp G) :
    (∃ nonce bytes, op = .putBlob nonce bytes) ∨ (∃ nonces, op = .encryptBlobs nonces) ∨
      op = .gcBlobs ∨ ∃ sop, op.toOp = some sop ∧ sop.Followed ∧
        m.step H C op = m.write H C sop ∧ (sop.Erases → op.Reclaims) := by
  cases op with
  | putBlob nonce bytes => exact .inl ⟨nonce, bytes, rfl⟩
  | encryptBlobs nonces => exact .inr (.inl ⟨nonces, rfl⟩)
  | gcBlobs => exact .inr (.inr (.inl rfl))
  | add | supersede | reopen =>
    exact .inr (.inr (.inr ⟨_, rfl, .inr trivial, rfl, fun h => h.elim⟩))
  | forget | forgetSubject | forgetOlderThan =>
    exact .inr (.inr (.inr ⟨_, rfl, .inl trivial, rfl, fun _ => trivial⟩))

theorem step_encrypt (h : m.Sound H C P) (nonces : ℕ → Nonce) :
    m.step H C (.encryptBlobs nonces : MemoryOp G) = m := by
  simp only [step]
  cases hok : m.encryptBlobs H nonces with
  | error e => rfl
  | ok r => exact encryptBlobs_ok h.written hok

theorem step_blobKey (m : Memory) (op : MemoryOp G) :
    (m.step H C op).blobKey = m.blobKey := by
  rcases m.step_cases (C := C) (H := H) op with ⟨nonce, bytes, rfl⟩ | ⟨nonces, rfl⟩ | rfl |
    ⟨sop, -, -, hstep, -⟩
  · rfl
  · obtain ⟨db, key, blobs⟩ := m
    cases key <;> cases blobs <;> rfl
  · obtain ⟨db, key, blobs⟩ := m
    cases blobs <;> rfl
  · rw [hstep, write_blobKey]

theorem Sound.step (hH : H.Lawful) (h : m.Sound H C P) {op : MemoryOp G}
    (hput : ∀ nonce b, op = .putBlob nonce b → P b) : (m.step H C op).Sound H C P := by
  rcases m.step_cases (C := C) (H := H) op with ⟨nonce, bytes, rfl⟩ | ⟨nonces, rfl⟩ | rfl |
    ⟨sop, -, -, hstep, -⟩
  · exact ⟨h.good, h.written.put hH nonce (hput nonce bytes rfl)⟩
  · rw [step_encrypt h]
    exact h
  · have hdb : (m.gcBlobs C).1.db = m.db := by
      obtain ⟨db, key, blobs⟩ := m
      cases blobs <;> rfl
    have hkey := step_blobKey (H := H) (C := C) m .gcBlobs
    refine ⟨hdb.symm ▸ h.good, ?_⟩
    rw [hkey]
    exact h.written.sub gcBlobs_sub
  · rw [hstep]
    refine ⟨?_, ?_⟩
    · rw [write_db]
      exact h.good.step sop
    · rw [write_blobKey]
      exact h.written.sub (write_sub m sop)

theorem read_none_of_sub {store store' : BlobStore} (hsub : BlobStore.Sub store' store)
    {hex : String} (h : store.read H hex = none) : store'.read H hex = none := by
  cases store with
  | fs files =>
    cases store' with
    | table rows' => exact hsub.elim
    | fs files' =>
      simp only [BlobStore.read, Option.bind_eq_none_iff, Option.map_eq_none_iff,
        List.find?_eq_none] at h ⊢
      exact fun p hp f hf => h p hp f (hsub hf)
  | table rows =>
    cases store' with
    | fs files' => exact hsub.elim
    | table rows' =>
      simp only [BlobStore.read, Option.bind_eq_none_iff, Option.map_eq_none_iff,
        List.find?_eq_none] at h ⊢
      exact fun p hp r hr => h p hp r (hsub hr)

theorem gcBlobs_db (m : Memory) : (m.gcBlobs C).1.db = m.db := by
  obtain ⟨db, key, blobs⟩ := m
  cases blobs <;> rfl

/-- An attachment that is there and named afterwards is there afterwards. -/
theorem step_kept (hH : H.Lawful) (h : m.Sound H C P) {op : MemoryOp G}
    (hstraight : m.Straight H C b) (hholds : m.Holds H C b)
    (hnames : (m.step H C op).Names C b) : (m.step H C op).Holds H C b := by
  rcases m.step_cases (C := C) (H := H) op with ⟨nonce, bytes, rfl⟩ | ⟨nonces, rfl⟩ | rfl |
    ⟨sop, -, hsop, hstep, -⟩
  · obtain ⟨raw, hraw⟩ := Option.isSome_iff_exists.1 hholds
    show Option.isSome _ = true
    simp only [step, putBlob, BlobStore.read_put_of_isSome hraw, Option.isSome_some]
  · rwa [step_encrypt h]
  · obtain ⟨blob, hblob, x, hx, hdec⟩ := hnames
    have hblob : blob ∈ m.db.db.grainBlobs := by
      rw [← m.gcBlobs_db (C := C)]
      exact hblob
    show Option.isSome _ = true
    simp only [step]
    rw [read_gcBlobs hH (mem_referenced.2 ⟨blob, hblob, hstraight.toHex_mem hblob hx hdec⟩)]
    exact hholds
  · rw [hstep] at hnames ⊢
    show Option.isSome _ = true
    rw [write_kept hH hsop h.good hstraight hnames]
    exact hholds

/-- An attachment that goes was collected, or went with a grain. -/
theorem step_reclaims (h : m.Sound H C P) {op : MemoryOp G} (hholds : m.Holds H C b)
    (hgone : ¬(m.step H C op).Holds H C b) : op.Reclaims := by
  rcases m.step_cases (C := C) (H := H) op with ⟨nonce, bytes, rfl⟩ | ⟨nonces, rfl⟩ | rfl |
    ⟨sop, -, hsop, hstep, hreclaims⟩
  · obtain ⟨raw, hraw⟩ := Option.isSome_iff_exists.1 hholds
    refine absurd ?_ hgone
    show Option.isSome _ = true
    simp only [step, putBlob, BlobStore.read_put_of_isSome hraw, Option.isSome_some]
  · rw [step_encrypt h] at hgone
    exact absurd hholds hgone
  · trivial
  · rcases hsop with herases | hretains
    · exact hreclaims herases
    · refine absurd ?_ hgone
      rw [hstep]
      unfold write
      cases hrun : sop.run C m.db with
      | error e st => exact hholds
      | ok u st =>
        show Option.isSome _ = true
        simp only [Op.targets_of_retains hretains, List.flatMap_nil, BlobStore.reclaim_nil]
        exact hholds

/-- An attachment named before and not after is gone. -/
theorem step_gone (hH : H.Lawful) (h : m.Sound H C P) {op : MemoryOp G}
    (hstraight : m.Straight H C b) (hnames : m.Names C b)
    (hlast : ¬(m.step H C op).Names C b) : ¬(m.step H C op).Holds H C b := by
  rcases m.step_cases (C := C) (H := H) op with ⟨nonce, bytes, rfl⟩ | ⟨nonces, rfl⟩ | rfl |
    ⟨sop, -, hsop, hstep, -⟩
  · exact absurd hnames hlast
  · rw [step_encrypt h] at hlast
    exact absurd hnames hlast
  · refine absurd ?_ hlast
    unfold Names
    simp only [step, gcBlobs_db]
    exact hnames
  · rw [hstep] at hlast ⊢
    unfold Holds
    rw [write_gone hH hsop h.good hstraight hnames hlast]
    simp

/-- An attachment that is not there is not there after any step but its own put. -/
theorem step_absent (hH : H.Lawful) (h : m.Sound H C P) {op : MemoryOp G}
    (habsent : ¬m.Holds H C b)
    (hput : ∀ nonce b', op = .putBlob nonce b' → C.contentAddress b' ≠ C.contentAddress b) :
    ¬(m.step H C op).Holds H C b := by
  have hnone : m.blobs.read H (C.contentAddress b).toHex = none := by
    simpa [Holds] using habsent
  rcases m.step_cases (C := C) (H := H) op with ⟨nonce, bytes, rfl⟩ | ⟨nonces, rfl⟩ | rfl |
    ⟨sop, -, -, hstep, -⟩
  · unfold Holds
    simp only [step, putBlob]
    rw [BlobStore.read_put_other hH (hput nonce bytes rfl).symm]
    exact habsent
  · rwa [step_encrypt h]
  · unfold Holds
    simp only [step, read_none_of_sub gcBlobs_sub hnone]
    simp
  · rw [hstep]
    unfold Holds
    rw [read_none_of_sub (write_sub m sop) hnone]
    simp

/-- What is there reads back. -/
theorem getBlob_of_holds (hH : H.Lawful) (h : m.Sound H C P) (hb : P b)
    (hinj : ∀ b', P b' → C.contentAddress b' = C.contentAddress b → b' = b)
    (hclear : m.blobKey = none → isSealed b = false) (hholds : m.Holds H C b) :
    m.getBlob H C (casScheme ++ (C.contentAddress b).toHex) = .ok b := by
  obtain ⟨raw, hraw⟩ := Option.isSome_iff_exists.1 hholds
  obtain ⟨b', nonce, hb', hdigest, rfl⟩ := h.written.read hH hraw
  obtain rfl := hinj b' hb' hdigest
  unfold getBlob
  simp only [stripScheme_append, isHexName_toHex, not_true_eq_false, if_false, hraw,
    readMaybeSealed_writeBytes hH nonce _ hclear, bind, Except.bind]
  simp [pure, Except.pure]

/-! ## Runs -/

/-- The bytes a run puts. -/
def Puts (ops : List (MemoryOp G)) (b : Bytes) : Prop := ∃ nonce, .putBlob nonce b ∈ ops

/-- What attachments are promised over a run from `m`. -/
structure Kept (H : Host) (C : Core G) (m : Memory) (ops : List (MemoryOp G)) : Prop where
  /-- What is put is there. -/
  stored : ∀ pre nonce b, pre ++ [.putBlob nonce b] <+: ops →
    (m.steps H C (pre ++ [.putBlob nonce b])).Holds H C b
  /-- What was put and is there reads back under its URI. -/
  readable : ∀ pre b, pre <+: ops → Puts pre b → (m.steps H C pre).Holds H C b →
    (m.steps H C pre).getBlob H C (casScheme ++ (C.contentAddress b).toHex) = .ok b
  /-- It goes by a collection or an erasure only. -/
  reclaimers : ∀ pre op b, pre ++ [op] <+: ops → (m.steps H C pre).Holds H C b →
    ¬(m.steps H C (pre ++ [op])).Holds H C b → op.Reclaims
  /-- It stays while a stored grain names it. -/
  referenced : ∀ pre op b, pre ++ [op] <+: ops → Puts pre b → (m.steps H C pre).Holds H C b →
    (m.steps H C (pre ++ [op])).Names C b → (m.steps H C (pre ++ [op])).Holds H C b
  /-- Once the last grain that named it is gone, it is gone until it is put again. -/
  reclaimed : ∀ pre post b, ops = pre ++ post → Puts pre b → (m.steps H C pre).Names C b →
    ¬(m.steps H C ops).Names C b → ¬Puts post b → ¬(m.steps H C ops).Holds H C b

/-- What a step asks for: straight names for what was put, and nothing put in the
clear that looks sealed. -/
structure StepOk (H : Host) (C : Core G) (m : Memory) (pre : List (MemoryOp G))
    (op : MemoryOp G) : Prop where
  straight : ∀ b, Puts pre b → (m.steps H C pre).Straight H C b
  clear : ∀ nonce b, op = .putBlob nonce b → m.blobKey = none → isSealed b = false

theorem steps_append (m : Memory) (pre : List (MemoryOp G)) (op : MemoryOp G) :
    m.steps H C (pre ++ [op]) = (m.steps H C pre).step H C op := by
  simp [steps]

theorem steps_blobKey (m : Memory) (ops : List (MemoryOp G)) :
    (m.steps H C ops).blobKey = m.blobKey := by
  induction ops using List.reverseRecOn with
  | nil => rfl
  | append_singleton ops op ih => rw [steps_append, step_blobKey, ih]

theorem Puts.mono {ops ops' : List (MemoryOp G)} {b : Bytes} (h : Puts ops b)
    (hsub : ops ⊆ ops') : Puts ops' b :=
  h.imp fun _ hmem => hsub hmem

/-- **The memory is sound along a run.** -/
theorem Sound.steps (hH : H.Lawful) {m : Memory} {all : List (MemoryOp G)}
    (h : m.Sound H C (Puts all)) {ops : List (MemoryOp G)} (hsub : ops ⊆ all) :
    (m.steps H C ops).Sound H C (Puts all) := by
  induction ops using List.reverseRecOn with
  | nil => exact h
  | append_singleton ops op ih =>
    rw [steps_append]
    have hops : ops ⊆ all := fun x hx => hsub (List.mem_append_left _ hx)
    refine (ih hops).step hH fun nonce b hop => ⟨nonce, hop ▸ hsub ?_⟩
    exact List.mem_append_right _ (List.mem_singleton_self op)

/-- **Named, or gone**, step by step. -/
theorem names_or_gone (hH : H.Lawful) {m : Memory} {all pre post : List (MemoryOp G)} {b : Bytes}
    (h : m.Sound H C (Puts all)) (hall : pre ++ post <+: all) (hput : Puts pre b)
    (hinj : ∀ b', Puts all b' → C.contentAddress b' = C.contentAddress b → b' = b)
    (hok : ∀ pre op, pre ++ [op] <+: all → m.StepOk H C pre op) (hpost : ¬Puts post b)
    (hnames : (m.steps H C pre).Names C b) :
    (m.steps H C (pre ++ post)).Names C b ∨ ¬(m.steps H C (pre ++ post)).Holds H C b := by
  induction post using List.reverseRecOn with
  | nil =>
    rw [List.append_nil]
    exact .inl hnames
  | append_singleton post op ih =>
    rw [← List.append_assoc] at hall ⊢
    have hprefix : pre ++ post <+: all := (List.prefix_append _ _).trans hall
    have hput' : Puts (pre ++ post) b := hput.mono (List.subset_append_left _ _)
    have hsound := h.steps hH hprefix.subset
    have hstraight := (hok _ _ hall).straight b hput'
    rw [steps_append]
    by_cases hafter : ((m.steps H C (pre ++ post)).step H C op).Names C b
    · exact .inl hafter
    · right
      rcases ih hprefix fun hp => hpost (hp.mono (List.subset_append_left _ _)) with hbefore | hgone
      · exact step_gone hH hsound hstraight hbefore hafter
      · refine step_absent hH hsound hgone fun nonce b' hop heq => ?_
        subst hop
        have hmem : Puts all b' := ⟨nonce, hall.subset (by simp)⟩
        obtain rfl := hinj b' hmem heq
        exact hpost ⟨nonce, by simp⟩

end Memory

/-- **Attachments are kept while referenced and gone afterwards**, in every run from
a new memory whose steps are in order. -/
theorem attachments_kept (C : Core G) (H : Host) (hH : H.Lawful)
    (explicit : Option DejaDbOptions) (clock : ℕ → ℤ) (inFiles : Bool) (key : Option Bytes)
    (ops : List (MemoryOp G))
    (hinj : ∀ b b', Memory.Puts ops b → Memory.Puts ops b' →
      C.contentAddress b' = C.contentAddress b → b' = b)
    (hok : ∀ pre op, pre ++ [op] <+: ops →
      (createMemory C explicit clock inFiles key).StepOk H C pre op) :
    (createMemory C explicit clock inFiles key).Kept H C ops := by
  have hstart : (createMemory C explicit clock inFiles key).Sound H C (Memory.Puts ops) := by
    refine ⟨createStore_good C explicit clock, ?_⟩
    cases inFiles <;> exact fun _ h => absurd h List.not_mem_nil
  have hsound : ∀ pre, pre <+: ops →
      ((createMemory C explicit clock inFiles key).steps H C pre).Sound H C (Memory.Puts ops) :=
    fun pre hpre => hstart.steps hH hpre.subset
  have hcut : ∀ {pre : List (MemoryOp G)} {op}, pre ++ [op] <+: ops → pre <+: ops :=
    fun h => (List.prefix_append _ _).trans h
  refine ⟨?_, ?_, ?_, ?_, ?_⟩
  · intro pre nonce b hpre
    rw [Memory.steps_append]
    exact BlobStore.read_put hH _ _
  · intro pre b hpre hput hholds
    have hput' := hput.mono hpre.subset
    refine Memory.getBlob_of_holds hH (hsound pre hpre) hput' (fun b' hb' => hinj b b' hput' hb')
      ?_ hholds
    rw [Memory.steps_blobKey]
    obtain ⟨nonce, hmem⟩ := hput
    obtain ⟨before, after, rfl⟩ := List.append_of_mem hmem
    have hcutput : before ++ [.putBlob nonce b] <+: ops := by
      refine List.IsPrefix.trans ⟨after, ?_⟩ hpre
      simp
    exact (hok _ _ hcutput).clear nonce b rfl
  · intro pre op b hpre hholds hgone
    rw [Memory.steps_append] at hgone
    exact Memory.step_reclaims (hsound pre (hcut hpre)) hholds hgone
  · intro pre op b hpre hput hholds hnames
    rw [Memory.steps_append] at hnames ⊢
    exact Memory.step_kept hH (hsound pre (hcut hpre)) ((hok _ _ hpre).straight b hput) hholds
      hnames
  · intro pre post b hops hput hnames hlast hpost
    subst hops
    have hput' := hput.mono (List.subset_append_left pre post)
    rcases Memory.names_or_gone hH hstart (List.prefix_refl _) hput
      (fun b' hb' => hinj b b' hput' hb') hok hpost hnames with hstill | hgone
    · exact absurd hstill hlast
    · exact hgone

/-! ## A note with an attachment -/

/-- A file system where every path of the blob directory is a file of its own. -/
def plainHost : Host where
  encrypt _ _ _ plaintext := plaintext
  decrypt _ _ _ ciphertext := some ciphertext
  resolve shard rest := some (shard, rest)

theorem plainHost_lawful : plainHost.Lawful := ⟨fun _ _ _ _ => rfl, fun _ _ _ => rfl⟩

def zeroNonce : Nonce := ⟨List.replicate 12 0, rfl⟩

/-- The attachment `hi`. -/
def hiBytes : Bytes := [0x68, 0x69]

/-- SHA-256 of `hi`. -/
def hiDigest : Hash :=
  ⟨[143, 67, 67, 70, 100, 143, 107, 150, 223, 137, 221, 169, 1, 197, 23, 107, 16, 166, 216, 57,
     97, 221, 60, 26, 200, 139, 89, 178, 220, 50, 122, 164], rfl⟩

/-- A codec that knows it, and whose grains all refer to it. -/
def hiCore : Core SampleBody where
  contentAddress b := if b = hiBytes then hiDigest else sampleCore.contentAddress b
  decodePayload payload := (Sample.decode payload).map fun fields =>
    ("content_refs", .arr [.obj [("uri", .str (casScheme ++ hiDigest.toHex))]]) :: fields
  encodeGrain := sampleCore.encodeGrain
  isAlphanumeric := sampleCore.isAlphanumeric
  isWhitespace := sampleCore.isWhitespace
  toLowercase := sampleCore.toLowercase

theorem casNames_hiCore {blob : Bytes} {x : String} (hx : x ∈ casNames hiCore blob) :
    x = hiDigest.toHex := by
  unfold casNames Core.deserializeBlob at hx
  split_ifs at hx
  case neg =>
    cases htype : GrainType.fromByte (blob.getD 2 0) with
    | none =>
      rw [htype] at hx
      cases hx
    | some ty =>
      cases hdec : hiCore.decodePayload (blob.drop 9) with
      | error e =>
        rw [htype, hdec] at hx
        cases hx
      | ok fields =>
        obtain ⟨rest, -, rfl⟩ := except_map_ok hdec
        rw [htype, hdec] at hx
        simp only [casHexes, DeserializedGrain.get, List.lookup_cons_self, Option.bind_some,
          Json.asArray, Option.getD_some, List.filterMap_cons, List.filterMap_nil, uriOf, Json.get,
          Json.asStr, Option.some_or, stripScheme_append, List.mem_singleton] at hx
        exact hx
  all_goals cases hx

theorem sliced_toHex (store : BlobStore) (h : Hash) : store.Sliced h.toHex := by
  obtain ⟨p, hp, -⟩ := splitShard_toHex h
  cases store with
  | fs files =>
    show (splitShard h.toHex).isSome = true
    rw [hp]
    rfl
  | table rows => trivial

/-- A note is written with an attachment and forgotten. -/
def hiRun : List (MemoryOp SampleBody) :=
  [.putBlob zeroNonce hiBytes, .add (sampleFact 1 5 1 2 3), .forget (Hash.ofByte 1)]

theorem puts_hiRun {pre : List (MemoryOp SampleBody)} (hpre : pre ⊆ hiRun) {b : Bytes}
    (h : Memory.Puts pre b) : b = hiBytes := by
  obtain ⟨nonce, hmem⟩ := h
  have hmem := hpre hmem
  simp only [hiRun, List.mem_cons, List.not_mem_nil, or_false, reduceCtorEq,
    MemoryOp.putBlob.injEq] at hmem
  exact hmem.2

/-- The promise holds for the note. -/
theorem attachments_kept_note :
    (createMemory hiCore none (fun _ => 9) true none).Kept plainHost hiCore hiRun := by
  refine attachments_kept hiCore plainHost plainHost_lawful none (fun _ => 9) true none hiRun ?_ ?_
  · intro b b' hb hb' _
    rw [puts_hiRun (List.Subset.refl _) hb, puts_hiRun (List.Subset.refl _) hb']
  · intro pre op hpre
    refine ⟨fun b hb blob _ x hx => ?_, fun nonce b hop _ => ?_⟩
    · have hsub : pre ⊆ hiRun := ((List.prefix_append pre [op]).trans hpre).subset
      obtain rfl := puts_hiRun hsub hb
      obtain rfl := casNames_hiCore hx
      exact ⟨sliced_toHex _ hiDigest, fun _ => by decide⟩
    · have hmem : op ∈ hiRun := hpre.subset (by simp)
      have hb : b = hiBytes :=
        puts_hiRun (List.cons_subset.2 ⟨hmem, List.nil_subset _⟩) ⟨nonce, by simp [hop]⟩
      rw [hb]
      decide

/-! ## An attachment that looks sealed -/

/-- The magic of a sealed blob and twelve zero bytes. -/
def magicBytes : Bytes := blobMagic ++ List.replicate 12 0

/-- SHA-256 of them. -/
def magicDigest : Hash :=
  ⟨[85, 209, 44, 111, 71, 50, 114, 84, 120, 124, 189, 17, 202, 212, 166, 161, 250, 204, 233, 133,
     72, 44, 211, 110, 206, 222, 65, 5, 200, 172, 3, 200], rfl⟩

/-- A codec that knows it. -/
def magicCore : Core SampleBody := { sampleCore with contentAddress := fun _ => magicDigest }

/-- **An attachment in the clear that begins as a sealed one does cannot be read.**
It is stored, and `get_blob` asks for a key the memory does not have. -/
theorem sealed_prefix_unreadable :
    let m := createMemory magicCore none (fun _ => 9) true none
    let m' := m.steps plainHost magicCore [.putBlob zeroNonce magicBytes]
    m'.Holds plainHost magicCore magicBytes ∧
      m'.getBlob plainHost magicCore (casScheme ++ magicDigest.toHex) =
        .error (.crypto "this attachment is encrypted; reopen the memory with its key") ∧
      ¬m.Kept plainHost magicCore [.putBlob zeroNonce magicBytes] := by
  intro m m'
  obtain ⟨p, -, hp, -⟩ := fsBlobPath_toHex plainHost_lawful magicDigest
  have hread : m'.blobs.read plainHost magicDigest.toHex = some magicBytes := by
    show (BlobStore.put plainHost magicDigest magicBytes (.fs [])).read plainHost
      magicDigest.toHex = some magicBytes
    simp [BlobStore.put, BlobStore.read, hp]
  have hholds : m'.Holds plainHost magicCore magicBytes := by
    show Option.isSome (m'.blobs.read plainHost magicDigest.toHex) = true
    rw [hread]
    rfl
  have hget : m'.getBlob plainHost magicCore (casScheme ++ magicDigest.toHex) =
      .error (.crypto "this attachment is encrypted; reopen the memory with its key") := by
    unfold Memory.getBlob
    simp only [stripScheme_append, isHexName_toHex, not_true_eq_false, if_false, hread]
    rfl
  refine ⟨hholds, hget, fun hkept => ?_⟩
  have hok : m'.getBlob plainHost magicCore (casScheme ++ magicDigest.toHex) = .ok magicBytes :=
    hkept.readable _ magicBytes (List.prefix_refl _) ⟨zeroNonce, List.mem_singleton_self _⟩ hholds
  rw [hget] at hok
  cases hok

end Deja
