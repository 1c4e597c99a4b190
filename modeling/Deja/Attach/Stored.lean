import Deja.Attach.Blobs

/-!
# What the blob store holds

The names `put_blob` gives, what is stored under them, and what reclaiming takes
away.

* `BlobStore.Written` — every blob is what `write_bytes` made of some bytes, under
  their digest; kept by every operation.
* `readMaybeSealed_writeBytes` — what was written reads back.
* `BlobStore.read_reclaim_referenced`, `BlobStore.read_reclaim_gone` — what is
  referred to stays, a candidate that is not goes.
-/

namespace Deja

variable {G : Type} {C : Core G} {H : Host}

/-! ## Names of digests -/

/-- What is known of the cipher and of the file system. -/
structure Host.Lawful (H : Host) : Prop where
  /-- A ciphertext decrypts to what was encrypted. -/
  decrypt_encrypt : ∀ key nonce addr plaintext,
    H.decrypt key nonce addr (H.encrypt key nonce addr plaintext) = some plaintext
  /-- A name of lower-case hex digits is the name of its own file. -/
  resolve_toHex : ∀ (h : Hash) p, splitShard h.toHex = some p → H.resolve p.1 p.2 = some p

theorem utf8Size_hexDigit : ∀ n < 16, (hexDigit n).utf8Size = 1 := by decide

theorem splitShard_toHex (h : Hash) :
    ∃ p, splitShard h.toHex = some p ∧ p.1 ++ p.2 = h.toHex := by
  obtain ⟨bytes, hlen⟩ := h
  match bytes, hlen with
  | x :: xs, _ =>
    have hx : x.toNat < 256 := x.toNat_lt
    have hhi := utf8Size_hexDigit (x.toNat / 16) (by omega)
    have hlo := utf8Size_hexDigit (x.toNat % 16) (by omega)
    have hlist : hexEncode (x :: xs) =
        hexDigit (x.toNat / 16) :: hexDigit (x.toNat % 16) :: hexEncode xs := rfl
    refine ⟨(String.ofList [hexDigit (x.toNat / 16), hexDigit (x.toNat % 16)],
      String.ofList (hexEncode xs)), ?_, ?_⟩
    · simp only [splitShard, Hash.toHex, String.toList_ofList, hlist, hhi, hlo]
      simp
    · simp only [Hash.toHex, hlist, ← String.ofList_append]
      rfl

theorem fsBlobPath_toHex (hH : H.Lawful) (h : Hash) :
    ∃ p, splitShard h.toHex = some p ∧ fsBlobPath H h.toHex = some p ∧ p.1 ++ p.2 = h.toHex := by
  obtain ⟨p, hp, happ⟩ := splitShard_toHex h
  exact ⟨p, hp, by rw [fsBlobPath, hp, Option.bind_some, hH.resolve_toHex h p hp], happ⟩

/-- Two digests have two files. -/
theorem fsBlobPath_injective (hH : H.Lawful) {h h' : Hash} {p : String × String}
    (hp : fsBlobPath H h.toHex = some p) (hp' : fsBlobPath H h'.toHex = some p) : h = h' := by
  obtain ⟨q, -, hq, happ⟩ := fsBlobPath_toHex hH h
  obtain ⟨q', -, hq', happ'⟩ := fsBlobPath_toHex hH h'
  have hqp : q = p := Option.some.inj (hq.symm.trans hp)
  have hqp' : q' = p := Option.some.inj (hq'.symm.trans hp')
  refine Hash.toHex_injective ?_
  rw [← happ, ← happ', hqp, hqp']

theorem hexDecode_toHex (h : Hash) : hexDecode h.toHex.toList = some h.bytes := by
  rw [Hash.toHex, String.toList_ofList, hexDecode_hexEncode]

theorem isHexDigit_hexDigit : ∀ n < 16, isHexDigit (hexDigit n) = true := by decide

theorem length_hexEncode (b : Bytes) : (hexEncode b).length = 2 * b.length := by
  induction b with
  | nil => rfl
  | cons x xs ih =>
    show (hexEncode xs).length + 2 = 2 * (xs.length + 1)
    omega

theorem all_hexEncode (b : Bytes) : (hexEncode b).all isHexDigit = true := by
  induction b with
  | nil => rfl
  | cons x xs ih =>
    have hx : x.toNat < 256 := x.toNat_lt
    have hhi := isHexDigit_hexDigit (x.toNat / 16) (by omega)
    have hlo := isHexDigit_hexDigit (x.toNat % 16) (by omega)
    show (isHexDigit _ && (isHexDigit _ && (hexEncode xs).all isHexDigit)) = true
    rw [hhi, hlo, ih]
    rfl

theorem isHexName_toHex (h : Hash) : isHexName h.toHex = true := by
  have hlen := length_hexEncode h.bytes
  rw [h.length_eq] at hlen
  simp [isHexName, Hash.toHex, hlen, all_hexEncode]

theorem stripScheme_append (hex : String) : stripScheme (casScheme ++ hex) = some hex := by
  have hprefix : casScheme.toList.isPrefixOf (casScheme ++ hex).toList = true := by
    rw [String.toList_append, List.isPrefixOf_iff_prefix]
    exact List.prefix_append _ _
  rw [stripScheme, if_pos hprefix, String.toList_append, ← String.length_toList,
    List.drop_left, String.ofList_toList]

/-! ## What the store holds -/

/-- Every blob was put: it is what `write_bytes` made of some bytes with `P`, under
their digest. -/
def BlobStore.Written (H : Host) (C : Core G) (key : Option Bytes) (P : Bytes → Prop) :
    BlobStore → Prop
  | .fs files => ∀ f ∈ files, ∃ b nonce, P b ∧
      fsBlobPath H (C.contentAddress b).toHex = some f.1 ∧
        f.2 = writeBytes H key nonce (C.contentAddress b).toHex b
  | .table rows => ∀ r ∈ rows, ∃ b nonce, P b ∧ (C.contentAddress b).bytes = r.1 ∧
      r.2 = writeBytes H key nonce (C.contentAddress b).toHex b

namespace BlobStore

variable {store : BlobStore} {key : Option Bytes} {P : Bytes → Prop}

theorem Written.read (hH : H.Lawful) (h : store.Written H C key P) {digest : Hash} {raw : Bytes}
    (hread : store.read H digest.toHex = some raw) : ∃ b nonce, P b ∧
      C.contentAddress b = digest ∧ raw = writeBytes H key nonce digest.toHex b := by
  cases store with
  | fs files =>
    obtain ⟨p, hp, hfind⟩ := Option.bind_eq_some_iff.1 hread
    obtain ⟨f, hf, rfl⟩ := Option.map_eq_some_iff.1 hfind
    obtain ⟨b, nonce, hb, hpath, hraw⟩ := h f (List.mem_of_find?_eq_some hf)
    have hfp : f.1 = p := by simpa using List.find?_some hf
    have hdigest := fsBlobPath_injective hH hpath (hfp ▸ hp)
    exact ⟨b, nonce, hb, hdigest, hdigest ▸ hraw⟩
  | table rows =>
    obtain ⟨p, hp, hfind⟩ := Option.bind_eq_some_iff.1 hread
    obtain ⟨r, hr, rfl⟩ := Option.map_eq_some_iff.1 hfind
    obtain ⟨b, nonce, hb, hbytes, hraw⟩ := h r (List.mem_of_find?_eq_some hr)
    have hrp : r.1 = p := by simpa using List.find?_some hr
    rw [hexDecode_toHex] at hp
    have hdigest : C.contentAddress b = digest := by
      have hsame : (C.contentAddress b).bytes = digest.bytes := by
        rw [hbytes, hrp]
        exact (Option.some.inj hp).symm
      revert hsame
      cases C.contentAddress b
      cases digest
      simp
    exact ⟨b, nonce, hb, hdigest, hdigest ▸ hraw⟩

/-- What is put is there. -/
theorem read_put (hH : H.Lawful) (digest : Hash) (stored : Bytes) :
    ((store.put H digest stored).read H digest.toHex).isSome = true := by
  cases store with
  | fs files =>
    obtain ⟨p, -, hp, -⟩ := fsBlobPath_toHex hH digest
    simp only [put, hp, read, Option.bind_some]
    by_cases hany : (files.any fun f => f.1 = p) = true
    · rw [if_pos hany]
      simpa using hany
    · rw [if_neg hany]
      simp
  | table rows =>
    simp only [put, read, hexDecode_toHex, Option.bind_some]
    by_cases hany : (rows.any fun r => r.1 = digest.bytes) = true
    · rw [if_pos hany]
      simpa using hany
    · rw [if_neg hany]
      simp

/-- What is there stays as it is when something is put. -/
theorem read_put_of_isSome {hex : String} {raw : Bytes} (hread : store.read H hex = some raw)
    (digest : Hash) (stored : Bytes) : (store.put H digest stored).read H hex = some raw := by
  cases store with
  | fs files =>
    obtain ⟨p, hp, hfind⟩ := Option.bind_eq_some_iff.1 hread
    obtain ⟨f, hf, rfl⟩ := Option.map_eq_some_iff.1 hfind
    simp only [put, read]
    cases hpath : fsBlobPath H digest.toHex with
    | none => simp [hp, hf]
    | some q =>
      simp only [hp, Option.bind_some]
      split_ifs
      · rw [hf, Option.map_some]
      · rw [List.find?_append, hf, Option.some_or, Option.map_some]
  | table rows =>
    obtain ⟨p, hp, hfind⟩ := Option.bind_eq_some_iff.1 hread
    obtain ⟨r, hr, rfl⟩ := Option.map_eq_some_iff.1 hfind
    simp only [put, read, hp, Option.bind_some]
    split_ifs
    · rw [hr, Option.map_some]
    · rw [List.find?_append, hr, Option.some_or, Option.map_some]

/-- Putting something leaves other names alone. -/
theorem read_put_other (hH : H.Lawful) {digest h : Hash} (hne : h ≠ digest) (stored : Bytes) :
    (store.put H digest stored).read H h.toHex = store.read H h.toHex := by
  cases store with
  | fs files =>
    obtain ⟨p, -, hp, -⟩ := fsBlobPath_toHex hH digest
    obtain ⟨q, -, hq, -⟩ := fsBlobPath_toHex hH h
    have hpq : p ≠ q := fun heq => hne (fsBlobPath_injective hH hq (heq ▸ hp))
    simp only [put, hp, read, hq, Option.bind_some]
    split_ifs
    · rfl
    · simp [List.find?_append, hpq]
  | table rows =>
    have hpq : digest.bytes ≠ h.bytes := by
      intro heq
      refine hne ?_
      cases digest
      cases h
      simpa using heq.symm
    simp only [put, read, hexDecode_toHex, Option.bind_some]
    split_ifs
    · rfl
    · simp [List.find?_append, hpq]

theorem Written.put (hH : H.Lawful) (h : store.Written H C key P) (nonce : Nonce) {b : Bytes}
    (hb : P b) :
    (store.put H (C.contentAddress b) (writeBytes H key nonce (C.contentAddress b).toHex b)).Written
      H C key P := by
  cases store with
  | fs files =>
    obtain ⟨p, -, hp, -⟩ := fsBlobPath_toHex hH (C.contentAddress b)
    simp only [BlobStore.put, hp]
    intro f hf
    split_ifs at hf
    · exact h f hf
    · rcases List.mem_append.1 hf with hf | hf
      · exact h f hf
      · rw [List.mem_singleton.1 hf]
        exact ⟨b, nonce, hb, hp, rfl⟩
  | table rows =>
    intro r hr
    split_ifs at hr
    · exact h r hr
    · rcases List.mem_append.1 hr with hr | hr
      · exact h r hr
      · rw [List.mem_singleton.1 hr]
        exact ⟨b, nonce, hb, rfl, rfl⟩

theorem Written.mono {Q : Bytes → Prop} (h : store.Written H C key P) (hPQ : ∀ b, P b → Q b) :
    store.Written H C key Q := by
  cases store with
  | fs files =>
    intro f hf
    obtain ⟨b, nonce, hb, hrest⟩ := h f hf
    exact ⟨b, nonce, hPQ b hb, hrest⟩
  | table rows =>
    intro r hr
    obtain ⟨b, nonce, hb, hrest⟩ := h r hr
    exact ⟨b, nonce, hPQ b hb, hrest⟩

end BlobStore

/-! ## Sealing -/

theorem isSealed_sealBlob (key : Bytes) (nonce : Nonce) (addr : String) (b : Bytes) :
    isSealed (sealBlob H key nonce addr b) = true := by
  have hlen : blobMagic.length + nonceLen ≤ (sealBlob H key nonce addr b).length := by
    simp only [sealBlob, List.length_append, nonce.length_eq, nonceLen]
    omega
  have htake : (sealBlob H key nonce addr b).take blobMagic.length = blobMagic := by
    rw [sealBlob, List.append_assoc, List.take_left]
  simp [isSealed, hlen, htake]

/-- What was written reads back: sealed bytes decrypt, and bytes in the clear are
taken as they are unless they look sealed. -/
theorem readMaybeSealed_writeBytes (hH : H.Lawful) {key : Option Bytes} (nonce : Nonce)
    (addr : String) {b : Bytes} (hclear : key = none → isSealed b = false) :
    readMaybeSealed H key addr (writeBytes H key nonce addr b) = .ok b := by
  cases key with
  | none => simp [readMaybeSealed, writeBytes, hclear rfl]
  | some k =>
    have hnonce : ((sealBlob H k nonce addr b).drop blobMagic.length).take nonceLen =
        nonce.bytes := by
      rw [sealBlob, List.append_assoc, List.drop_left, nonceLen, ← nonce.length_eq, List.take_left]
    have hbody : (sealBlob H k nonce addr b).drop (blobMagic.length + nonceLen) =
        H.encrypt k nonce.bytes addr b := by
      rw [sealBlob, nonceLen, ← nonce.length_eq, ← List.length_append, List.drop_left]
    simp only [readMaybeSealed, writeBytes, openBlob, isSealed_sealBlob, not_true_eq_false,
      if_false, hnonce, hbody, hH.decrypt_encrypt]

/-! ## Reclamation -/

/-- Every blob of one store is in another. -/
def BlobStore.Sub : BlobStore → BlobStore → Prop
  | .fs files, .fs files' => files ⊆ files'
  | .table rows, .table rows' => rows ⊆ rows'
  | _, _ => False

/-- A name that stands for a digest: its hex in either case, or another name of its
file. -/
def BlobStore.Denotes (H : Host) (x : String) (h : Hash) : BlobStore → Prop
  | .fs _ => hexDecode x.toList = some h.bytes ∨ fsBlobPath H x = fsBlobPath H h.toHex
  | .table _ => hexDecode x.toList = some h.bytes

/-- A name that can be split into shard and rest, where that is done. -/
def BlobStore.Sliced (x : String) : BlobStore → Prop
  | .fs _ => (splitShard x).isSome = true
  | .table _ => True

theorem removeFiles_subset (names : List String) (files : List ((String × String) × Bytes)) :
    removeFiles H names files ⊆ files := by
  induction names generalizing files with
  | nil => exact List.Subset.refl _
  | cons x names ih =>
    simp only [removeFiles]
    cases splitShard x with
    | none => exact List.Subset.refl _
    | some p =>
      simp only
      cases H.resolve p.1 p.2 with
      | none => exact ih files
      | some q => exact List.Subset.trans (ih _) List.filter_sublist.subset

/-- A file no name leads to stays. -/
theorem find?_removeFiles {names : List String} {files : List ((String × String) × Bytes)}
    {p : String × String} (hp : ∀ x ∈ names, fsBlobPath H x ≠ some p) :
    ((removeFiles H names files).find? fun f => f.1 = p) = files.find? fun f => f.1 = p := by
  induction names generalizing files with
  | nil => rfl
  | cons x names ih =>
    rw [List.forall_mem_cons] at hp
    simp only [removeFiles]
    cases hx : splitShard x with
    | none => rfl
    | some y =>
      simp only
      rw [ih hp.2]
      cases hy : H.resolve y.1 y.2 with
      | none => rfl
      | some q =>
        have hqp : q ≠ p := by
          intro heq
          refine hp.1 ?_
          rw [fsBlobPath, hx, Option.bind_some, hy, heq]
        rw [List.find?_filter]
        congr 1
        funext f
        by_cases hf : f.1 = p
        · simp [hf, hqp.symm]
        · simp [hf]

/-- A file one of the names leads to is gone, if every name can be split. -/
theorem removeFiles_gone {names : List String} {files : List ((String × String) × Bytes)}
    {p : String × String} {x : String} (hsliced : ∀ y ∈ names, (splitShard y).isSome = true)
    (hx : x ∈ names) (hp : fsBlobPath H x = some p) :
    ∀ f ∈ removeFiles H names files, f.1 ≠ p := by
  induction names generalizing files with
  | nil => cases hx
  | cons y names ih =>
    rw [List.forall_mem_cons] at hsliced
    obtain ⟨q, hq⟩ := Option.isSome_iff_exists.1 hsliced.1
    simp only [removeFiles, hq]
    rcases List.mem_cons.1 hx with rfl | hx
    · rw [fsBlobPath, hq, Option.bind_some] at hp
      simp only [hp]
      intro f hf
      simpa using (List.mem_filter.1 (removeFiles_subset _ _ hf)).2
    · exact ih hsliced.2 hx

namespace BlobStore

variable {store store' : BlobStore} {key : Option Bytes} {P : Bytes → Prop}

theorem Written.sub (h : store.Written H C key P) (hsub : Sub store' store) :
    store'.Written H C key P := by
  cases store with
  | fs files =>
    cases store' with
    | fs files' => exact fun f hf => h f (hsub hf)
    | table rows' => exact hsub.elim
  | table rows =>
    cases store' with
    | fs files' => exact hsub.elim
    | table rows' => exact fun r hr => h r (hsub hr)

theorem reclaim_sub (candidates referenced : List String) :
    Sub (store.reclaim H candidates referenced) store := by
  cases store with
  | fs files => exact removeFiles_subset _ _
  | table rows => exact List.filter_sublist.subset

theorem reclaim_nil (referenced : List String) : store.reclaim H [] referenced = store := by
  cases store <;> simp [reclaim, removeFiles]

/-- What a stored grain refers to is not reclaimed. -/
theorem read_reclaim_referenced (hH : H.Lawful) {candidates referenced : List String} {h : Hash}
    (hspelled : ∀ x ∈ candidates, store.Denotes H x h → x = h.toHex)
    (href : h.toHex ∈ referenced) :
    (store.reclaim H candidates referenced).read H h.toHex = store.read H h.toHex := by
  cases store with
  | fs files =>
    obtain ⟨p, -, hp, -⟩ := fsBlobPath_toHex hH h
    simp only [reclaim, read, hp, Option.bind_some]
    rw [find?_removeFiles]
    intro x hx heq
    obtain ⟨hmem, hfree⟩ := List.mem_filter.1 hx
    have hcand : x ∈ candidates := by simpa using hmem
    rw [hspelled x hcand (.inr (heq.trans hp.symm))] at hfree
    simp [href] at hfree
  | table rows =>
    simp only [reclaim, read, hexDecode_toHex, Option.bind_some, List.find?_filter]
    congr 2
    funext r
    by_cases hr : r.1 = h.bytes
    · have hkeep : (candidates.any fun x => decide (x ∉ referenced ∧
          hexDecode x.toList = some r.1)) = false := by
        refine List.any_eq_false.2 fun x hx => ?_
        rw [hr]
        intro hbad
        obtain ⟨hfree, hdec⟩ := of_decide_eq_true hbad
        exact hfree (hspelled x hx hdec ▸ href)
      rw [hkeep]
      simp
    · simp [hr]

/-- What was a candidate and is not referred to is gone. -/
theorem read_reclaim_gone (hH : H.Lawful) {candidates referenced : List String} {h : Hash}
    (hsliced : ∀ x ∈ candidates, store.Sliced x) (hcand : h.toHex ∈ candidates)
    (hfree : h.toHex ∉ referenced) :
    (store.reclaim H candidates referenced).read H h.toHex = none := by
  cases store with
  | fs files =>
    obtain ⟨p, -, hp, -⟩ := fsBlobPath_toHex hH h
    simp only [reclaim, read, hp, Option.bind_some, Option.map_eq_none_iff,
      List.find?_eq_none]
    intro f hf
    have hgone := removeFiles_gone (x := h.toHex) ?_ ?_ hp f hf
    · simpa using hgone
    · intro y hy
      have hy : y ∈ candidates := by
        simpa using List.mem_of_mem_filter hy
      exact hsliced y hy
    · simpa [hfree] using hcand
  | table rows =>
    simp only [reclaim, read, hexDecode_toHex, Option.bind_some, Option.map_eq_none_iff,
      List.find?_eq_none]
    intro r hr
    obtain ⟨-, hkeep⟩ := List.mem_filter.1 hr
    intro heq
    have heq : r.1 = h.bytes := by simpa using heq
    rw [heq] at hkeep
    have hany : (candidates.any fun x => decide (x ∉ referenced ∧
        hexDecode x.toList = some h.bytes)) = true :=
      List.any_eq_true.2 ⟨h.toHex, hcand, by simp [hfree, hexDecode_toHex]⟩
    rw [hany] at hkeep
    simp at hkeep

end BlobStore

/-! ## The operations of the blob store -/

namespace Memory

variable {m : Memory} {P : Bytes → Prop}

/-- A directory whose blobs are sealed is left as it is. -/
theorem encryptFiles_of_sealed {key : Bytes} {nonces : ℕ → Nonce}
    {files : List ((String × String) × Bytes)} (h : ∀ f ∈ files, isSealed f.2 = true) :
    encryptFiles H key nonces files = files := by
  induction files generalizing nonces with
  | nil => rfl
  | cons f files ih =>
    rw [List.forall_mem_cons] at h
    rw [encryptFiles, ih h.2, encryptFile, h.1]
    simp

theorem encryptBlobs_ok (h : m.blobs.Written H C m.blobKey P) {nonces : ℕ → Nonce} {m' : Memory}
    {n : ℕ × ℕ} (hok : m.encryptBlobs H nonces = .ok (m', n)) : m' = m := by
  obtain ⟨db, key, blobs⟩ := m
  cases key with
  | none => cases hok
  | some k =>
    cases blobs with
    | table rows => cases hok
    | fs files =>
      cases hok
      have hsealed : ∀ f ∈ files, isSealed f.2 = true := by
        intro f hf
        obtain ⟨b, nonce, -, -, hraw⟩ := h f hf
        rw [hraw]
        exact isSealed_sealBlob k nonce _ b
      rw [encryptFiles_of_sealed hsealed]

theorem gcBlobs_sub : BlobStore.Sub (m.gcBlobs C).1.blobs m.blobs := by
  obtain ⟨db, key, blobs⟩ := m
  cases blobs <;> exact List.filter_sublist.subset

/-- What a stored grain refers to is not collected. -/
theorem read_gcBlobs (hH : H.Lawful) {h : Hash} (href : h.toHex ∈ m.db.db.referenced C) :
    (m.gcBlobs C).1.blobs.read H h.toHex = m.blobs.read H h.toHex := by
  obtain ⟨db, key, blobs⟩ := m
  cases blobs with
  | fs files =>
    obtain ⟨p, -, hp, happ⟩ := fsBlobPath_toHex hH h
    simp only [gcBlobs, BlobStore.read, hp, Option.bind_some, List.find?_filter]
    congr 2
    funext f
    by_cases hf : f.1 = p
    · simp [hf, happ, href]
    · simp [hf]
  | table rows =>
    simp only [gcBlobs, BlobStore.read, hexDecode_toHex, Option.bind_some, List.find?_filter]
    congr 2
    funext r
    by_cases hr : r.1 = h.bytes
    · have hname : String.ofList (hexEncode h.bytes) ∈ db.db.referenced C := href
      simp [hr, hname]
    · simp [hr]

end Memory

end Deja
