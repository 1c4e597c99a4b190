import Deja.Authz.Facade
import Deja.Spec.Txn

/-!
# Memory writes and rights

Grants are grains of a reserved namespace, so what a session may write decides
what it may become.

* `Lands` — a field map whose grain is stored where the session was checked.
* `Confined` — the rights of the file stay, and new grains lie where the session
  holds the verb.
* `Facade.Apart` — a checked namespace is not the reserved one.
* `rights_stay` — a run of operations that stay out of the reserved namespace, and
  whose grains are stored where they were checked, changes nobody's rights.
-/

namespace Deja.Authz

/-! ## Where a grain lands -/

/-- The grain of the field map is stored in the namespace that was checked: a
namespace it names is in normal form; where it names none, the session default
is what the grain gets, `shared` or the field `ns`. -/
def Lands (nfc : String → String) (default : Option String) (fields : Fields) : Prop :=
  match fields.getStr "namespace" with
  | some ns => nfc ns = ns
  | none =>
    match fields.getStr "ns" with
    | some ns => nfc ns = default.getD "shared"
    | none => default.getD "shared" = "shared"

theorem lands_iff {nfc : String → String} {default : Option String} {fields : Fields} :
    Lands nfc default fields ↔ landingNs nfc fields = writeNs default fields := by
  unfold Lands landingNs writeNs
  cases fields.getStr "namespace" with
  | some ns => rfl
  | none =>
    cases fields.getStr "ns" with
    | some ns => rfl
    | none => exact eq_comm

section Confine

variable {H : Type} [DecidableEq H]

/-- Every operation that builds its grain from a field map, or in the session
default, stores it where the session was checked. -/
def Write.Lands (A : WriteArms H) (F : Facade) : Write H → Prop
  | .add _ _ fields | .addIfNovel _ _ fields | .supersede _ _ _ fields =>
    Deja.Authz.Lands A.nfc F.namespace_ fields
  | .addBatch entries => ∀ x ∈ entries, Deja.Authz.Lands A.nfc F.namespace_ x.2.2
  | .merge .. | .remember .. => A.nfc (F.namespace_.getD "shared") = F.namespace_.getD "shared"
  | .recordToolCall _ ns .. => A.nfc ns = ns
  | .recordRunManifest .. => True

/-- A checked namespace is not the reserved one, or the session is refused there. -/
def Facade.Apart (F : Facade) (verb : Verb) (ns : String) : Prop :=
  ns = authzNs → F.session.allows verb ns = false

/-- The operation stays out of the reserved namespace. -/
def Write.Apart (F : Facade) (f : GrainFile H) : Write H → Prop
  | .add _ _ fields | .addIfNovel _ _ fields => F.Apart .write (writeNs F.namespace_ fields)
  | .addBatch entries => ∀ x ∈ entries, F.Apart .write (writeNs F.namespace_ x.2.2)
  | .supersede _ old _ fields => F.Apart .supersede (writeNs F.namespace_ fields) ∧
    ∀ r, f.get old = some r → F.Apart .supersede r.grain.ns
  | .merge .. => F.Apart .supersede (F.namespace_.getD "shared")
  | .remember .. => F.Apart .write (F.namespace_.getD "shared")
  | .recordToolCall _ ns .. => F.Apart .write ns
  | .recordRunManifest .. => True

/-- The verb an operation checks. -/
def Write.verb : Write H → Verb
  | .supersede .. | .merge .. => .supersede
  | _ => .write

/-! ## Confined moves -/

/-- Every address is stored once. -/
def GrainFile.Wf (f : GrainFile H) : Prop := (f.rows.map fun r => r.grain.hash).Nodup

/-- The grants of every principal are the same, and a grain that was not stored
before lies in a namespace on which the session holds the verb. -/
structure Confined (S : AuthzSet) (verb : Verb) (f f' : GrainFile H) : Prop where
  wf : f'.Wf
  permits : ∀ p, f'.permits p = f.permits p
  stored : ∀ r ∈ f'.rows, (∃ r₀ ∈ f.rows, r.grain = r₀.grain) ∨
    S.allows verb r.grain.ns = true

namespace GrainFile

theorem has_iff {f : GrainFile H} {h : H} : f.has h = true ↔ ∃ r ∈ f.rows, r.grain.hash = h := by
  simp [has]

omit [DecidableEq H] in
theorem permit_of_ns {r : FileRow H} (h : r.grain.ns ≠ authzNs) (p : String) :
    r.permit p = none := by
  unfold FileRow.permit
  cases r.grain.spo <;> simp [h]

/-- The rows of a closed file are those of the file, with the same grains. -/
theorem mem_close {f : GrainFile H} {hashes : List H} {r : FileRow H}
    (h : r ∈ (close hashes f).rows) : ∃ r' ∈ f.rows, r.grain = r'.grain := by
  obtain ⟨r', hr', rfl⟩ := List.mem_map.1 h
  refine ⟨r', hr', ?_⟩
  split_ifs <;> rfl

theorem close_hashes (f : GrainFile H) (hashes : List H) :
    ((close hashes f).rows.map fun r => r.grain.hash) = f.rows.map fun r => r.grain.hash := by
  unfold close
  rw [List.map_map]
  refine List.map_congr_left fun r _ => ?_
  show (FileRow.grain (if r.grain.hash ∈ hashes then { r with current := false } else r)).hash = _
  split_ifs <;> rfl

/-- Closing grains of other namespaces takes no grant away. -/
theorem permits_close {f : GrainFile H} {hashes : List H}
    (h : ∀ r ∈ f.rows, r.grain.hash ∈ hashes → r.grain.ns ≠ authzNs) (p : String) :
    (close hashes f).permits p = f.permits p := by
  unfold permits close
  rw [List.filterMap_map]
  congr 2
  refine List.filterMap_congr fun r hr => ?_
  show FileRow.permit (if r.grain.hash ∈ hashes then { r with current := false } else r) p = _
  split_ifs with hmem
  · have hns := h r hr hmem
    rw [permit_of_ns hns p]
    exact permit_of_ns (r := { r with current := false }) hns p
  · rfl

end GrainFile

namespace Confined

variable {S : AuthzSet} {verb : Verb} {f : GrainFile H}

omit [DecidableEq H] in
theorem refl (hf : f.Wf) : Confined S verb f f :=
  ⟨hf, fun _ => rfl, fun r hr => .inl ⟨r, hr, rfl⟩⟩

omit [DecidableEq H] in
theorem trans {f' f'' : GrainFile H} (h : Confined S verb f f') (h' : Confined S verb f' f'') :
    Confined S verb f f'' := by
  refine ⟨h'.wf, fun p => (h'.permits p).trans (h.permits p), fun r hr => ?_⟩
  rcases h'.stored r hr with ⟨r₀, hr₀, heq⟩ | hallows
  · rw [heq]
    exact h.stored r₀ hr₀
  · exact .inr hallows

/-- One more grain, where the session holds the verb. -/
theorem append (hf : f.Wf) {g : Built H} (hnew : f.has g.hash = false) (hns : g.ns ≠ authzNs)
    (hg : S.allows verb g.ns = true) :
    Confined S verb f ⟨f.rows ++ [⟨g, true⟩]⟩ := by
  refine ⟨?_, fun p => ?_, fun r hr => ?_⟩
  · show (List.map _ _).Nodup
    rw [List.map_append]
    refine List.Nodup.append hf (List.nodup_singleton _) ?_
    rw [Bool.eq_false_iff, Ne, GrainFile.has_iff] at hnew
    simpa using hnew
  · have hnone : (⟨g, true⟩ : FileRow H).permit p = none :=
      GrainFile.permit_of_ns hns p
    simp [GrainFile.permits, hnone]
  · rcases List.mem_append.1 hr with hr | hr
    · exact .inl ⟨r, hr, rfl⟩
    · rw [List.mem_singleton.1 hr]
      exact .inr hg

theorem add (hf : f.Wf) {g : Built H} (hns : g.ns ≠ authzNs)
    (hg : S.allows verb g.ns = true) : Confined S verb f (f.add g) := by
  unfold GrainFile.add
  split_ifs with hhas
  · exact refl hf
  · exact append hf (by simpa using hhas) hns hg

theorem addBatch (hf : f.Wf) {gs : List (Built H)}
    (hgs : ∀ g ∈ gs, g.ns ≠ authzNs ∧ S.allows verb g.ns = true) :
    Confined S verb f (f.addBatch gs) := by
  induction gs generalizing f with
  | nil => exact refl hf
  | cons g gs ih =>
    rw [List.forall_mem_cons] at hgs
    have hone : Confined S verb f (f.add g) := add hf hgs.1.1 hgs.1.2
    exact hone.trans (ih hone.wf hgs.2)

/-- One more grain, and grains of other namespaces closed. -/
theorem replace (hf : f.Wf) {g : Built H} (hnew : f.has g.hash = false)
    (hns : g.ns ≠ authzNs) (hg : S.allows verb g.ns = true) {hashes : List H}
    (hclosed : ∀ r ∈ f.rows, r.grain.hash ∈ hashes → r.grain.ns ≠ authzNs) :
    Confined S verb f (GrainFile.close hashes ⟨f.rows ++ [⟨g, true⟩]⟩) := by
  have happend := append hf hnew hns hg
  refine happend.trans ⟨?_, fun p => GrainFile.permits_close (fun r hr hmem => ?_) p,
    fun r hr => .inl (GrainFile.mem_close hr)⟩
  · show (List.map _ _).Nodup
    rw [GrainFile.close_hashes]
    exact happend.wf
  · rcases List.mem_append.1 hr with hr | hr
    · exact hclosed r hr hmem
    · rw [List.mem_singleton.1 hr]
      exact hns

end Confined

/-! ## Operations -/

variable {A : WriteArms H} {F : Facade} {f f' : GrainFile H}

omit [DecidableEq H] in
theorem Facade.checkVerb_ok {verb : Verb} {ns : String} {u : Unit}
    (h : F.checkVerb (H := H) verb ns = .ok u) : F.session.allows verb ns = true := by
  unfold Facade.checkVerb AuthzSet.check at h
  split_ifs at h with hallows
  exact hallows

/-- A namespace that was checked and kept apart is not the reserved one. -/
theorem Facade.Apart.ne {verb : Verb} {ns : String} (h : F.Apart verb ns)
    (hallows : F.session.allows verb ns = true) : ns ≠ authzNs := by
  intro hns
  rw [h hns] at hallows
  cases hallows

omit [DecidableEq H] in
/-- A built grain is in the namespace it lands in. -/
theorem buildGrainFromJson_ns {now : ℤ} {old : Option H} {grainType : String} {fields : Fields}
    {g : Built H} (h : buildGrainFromJson A now old grainType fields = .ok g) :
    g.ns = landingNs A.nfc fields := by
  unfold buildGrainFromJson at h
  split at h
  · cases h
  · split at h
    · cases h
    · cases h
      rfl

theorem calAdd_confined (hf : f.Wf) {now : ℤ} {grainType : String} {fields : Fields}
    (hlands : Lands A.nfc F.namespace_ fields)
    (hapart : F.Apart .write (writeNs F.namespace_ fields))
    (h : calAdd A F now grainType fields f = .ok f') : Confined F.session .write f f' := by
  obtain ⟨u, hcheck, h₁⟩ := except_bind_ok h
  obtain ⟨g, hbuild, h₂⟩ := except_bind_ok h₁
  cases h₂
  have hns : g.ns = writeNs F.namespace_ fields := by
    rw [buildGrainFromJson_ns hbuild, lands_iff.1 hlands]
  have hallows := Facade.checkVerb_ok hcheck
  rw [← hns] at hapart hallows
  exact Confined.add hf (hapart.ne hallows) hallows

omit [DecidableEq H] in
/-- The grains of a checked batch lie where the session may write. -/
theorem buildBatch_allowed {entries : List (ℤ × String × Fields)}
    (hlands : ∀ x ∈ entries, Lands A.nfc F.namespace_ x.2.2)
    (hapart : ∀ x ∈ entries, F.Apart .write (writeNs F.namespace_ x.2.2))
    (hcheck : checkBatch (H := H) F entries = .ok ()) {gs : List (Built H)}
    (hbuild : buildBatch A entries = .ok gs) :
    ∀ g ∈ gs, g.ns ≠ authzNs ∧ F.session.allows .write g.ns = true := by
  induction entries generalizing gs with
  | nil =>
    cases hbuild
    exact fun g hg => nomatch hg
  | cons x rest ih =>
    obtain ⟨now, grainType, fields⟩ := x
    rw [List.forall_mem_cons] at hlands hapart
    obtain ⟨u, hone, hrest⟩ := except_bind_ok hcheck
    obtain ⟨g, hg, hbuild₁⟩ := except_bind_ok hbuild
    obtain ⟨gs', hgs', hbuild₂⟩ := except_bind_ok hbuild₁
    cases hbuild₂
    rw [List.forall_mem_cons]
    refine ⟨?_, ih hlands.2 hapart.2 hrest hgs'⟩
    rw [buildGrainFromJson_ns hg, lands_iff.1 hlands.1]
    exact ⟨hapart.1.ne (Facade.checkVerb_ok hone), Facade.checkVerb_ok hone⟩

/-- A supersession that passed its checks is of a grain, and by a grain, where
the session may supersede. -/
theorem checkSupersede_ok {old : H} {fields : Fields} {u : Unit}
    (h : checkSupersede F old fields f = .ok u) :
    F.session.allows .supersede (writeNs F.namespace_ fields) = true ∧
      ∀ r, f.get old = some r → F.session.allows .supersede r.grain.ns = true := by
  unfold checkSupersede at h
  split_ifs at h with howner
  · have hall : ∀ ns, F.session.allows .supersede ns = true := fun ns => by
      simp [AuthzSet.allows, howner]
    exact ⟨hall _, fun r _ => hall _⟩
  · cases hget : f.get old with
    | none =>
      rw [hget] at h
      cases h
    | some r =>
      rw [hget] at h
      obtain ⟨v, hold, h₁⟩ := except_bind_ok h
      have hr := Facade.checkVerb_ok hold
      refine ⟨?_, fun r' hr' => ?_⟩
      · by_cases hsame : writeNs F.namespace_ fields = r.grain.ns
        · rw [hsame]
          exact hr
        · rw [if_pos hsame] at h₁
          exact Facade.checkVerb_ok h₁
      · cases hr'
        exact hr

theorem GrainFile.get_some {h : H} {r : FileRow H} (hget : f.get h = some r) :
    r ∈ f.rows ∧ r.grain.hash = h := by
  refine ⟨List.mem_of_find?_eq_some hget, ?_⟩
  simpa using List.find?_some hget

omit [DecidableEq H] in
theorem GrainFile.Wf.eq_of_hash (hf : f.Wf) {r r' : FileRow H} (hr : r ∈ f.rows)
    (hr' : r' ∈ f.rows) (h : r.grain.hash = r'.grain.hash) : r = r' :=
  List.inj_on_of_nodup_map hf hr hr' h

/-- **An operation is confined** to where the session holds its verb. -/
theorem Write.run_confined (hf : f.Wf) {op : Write H} (hlands : op.Lands A F)
    (hapart : op.Apart F f) (h : op.run A F f = .ok f') : Confined F.session op.verb f f' := by
  cases op with
  | add now grainType fields => exact calAdd_confined hf hlands hapart h
  | addBatch entries =>
    obtain ⟨u, hcheck, h₁⟩ := except_bind_ok h
    obtain ⟨gs, hbuild, h₂⟩ := except_bind_ok h₁
    cases h₂
    exact Confined.addBatch hf (buildBatch_allowed hlands hapart hcheck hbuild)
  | addIfNovel now grainType fields =>
    obtain ⟨u, hcheck, h₁⟩ := except_bind_ok h
    obtain ⟨g, hbuild, h₂⟩ := except_bind_ok h₁
    cases h₂
    have hns : g.ns = writeNs F.namespace_ fields := by
      rw [buildGrainFromJson_ns hbuild]
      exact lands_iff.1 hlands
    have hallows := Facade.checkVerb_ok hcheck
    have happ : F.Apart .write (writeNs F.namespace_ fields) := hapart
    rw [← hns] at happ hallows
    split_ifs
    · exact Confined.refl hf
    · exact Confined.add hf (happ.ne hallows) hallows
  | supersede now old grainType fields =>
    obtain ⟨u, hcheck, h₁⟩ := except_bind_ok h
    obtain ⟨g, hbuild, h₂⟩ := except_bind_ok h₁
    obtain ⟨hallows, hold⟩ := checkSupersede_ok hcheck
    obtain ⟨happ, happOld⟩ := hapart
    have hns : g.ns = writeNs F.namespace_ fields := by
      rw [buildGrainFromJson_ns hbuild]
      exact lands_iff.1 hlands
    rw [← hns] at happ hallows
    unfold GrainFile.supersede at h₂
    cases hget : f.get old with
    | none =>
      rw [hget] at h₂
      cases h₂
    | some r =>
      rw [hget] at h₂
      dsimp only at h₂
      split_ifs at h₂ with hcurrent hhas
      cases h₂
      obtain ⟨hr, hhash⟩ := GrainFile.get_some hget
      refine Confined.replace hf (by simpa using hhas) (happ.ne hallows) hallows ?_
      intro x hx hmem
      rw [hf.eq_of_hash hx hr ((List.mem_singleton.1 hmem).trans hhash.symm)]
      exact (happOld r hget).ne (hold r hget)
  | merge now subject relation object because =>
    obtain ⟨u, hcheck, h₁⟩ := except_bind_ok h
    have hallows := Facade.checkVerb_ok hcheck
    have happ : F.Apart .supersede (F.namespace_.getD "shared") := hapart
    have hns : A.nfc (F.namespace_.getD "shared") = F.namespace_.getD "shared" := hlands
    have hne := happ.ne hallows
    unfold GrainFile.mergeHeads at h₁
    dsimp only at h₁
    split_ifs at h₁ with hfork hhas
    cases h₁
    rw [hns]
    refine Confined.replace hf (by simpa using hhas) hne hallows ?_
    intro x hx hmem
    obtain ⟨r, hr, hhash⟩ := List.mem_map.1 hmem
    obtain ⟨hr, htip⟩ := List.mem_filter.1 hr
    rw [← hf.eq_of_hash hr hx hhash]
    have hrns : r.grain.ns = F.namespace_.getD "shared" := by
      simp only [Bool.and_eq_true, beq_iff_eq] at htip
      exact htip.1.2
    rw [hrns]
    exact hne
  | remember now content attrs =>
    obtain ⟨u, hcheck, h₁⟩ := except_bind_ok h
    cases h₁
    have hallows := Facade.checkVerb_ok hcheck
    have happ : F.Apart .write (F.namespace_.getD "shared") := hapart
    have hns : A.nfc (F.namespace_.getD "shared") = F.namespace_.getD "shared" := hlands
    have hne := happ.ne hallows
    rw [← hns] at hne hallows
    exact Confined.add hf hne hallows
  | recordToolCall now ns toolName input result isError thread callId id =>
    have hnamed : ∀ j, (toolFields ns toolName j result isError thread
        (callId.getD id)).getStr "namespace" = some ns := by
      intro j
      cases j <;> rfl
    have hadd : ∀ j, calAdd A F now "tool"
        (toolFields ns toolName j result isError thread (callId.getD id)) f = .ok f' →
        Confined F.session .write f f' := by
      intro j hj
      refine calAdd_confined hf ?_ ?_ hj
      · unfold Deja.Authz.Lands
        rw [hnamed j]
        exact hlands
      · unfold writeNs
        rw [hnamed j]
        exact hapart
    cases input with
    | none => exact hadd none h
    | some text =>
      unfold Write.run at h
      dsimp only at h
      cases hparse : A.parseJson text with
      | error e =>
        rw [hparse] at h
        cases h
      | ok j =>
        rw [hparse] at h
        exact hadd (some j) h
  | recordRunManifest now runId configJson =>
    obtain ⟨u, hcheck, h₁⟩ := except_bind_ok h
    have hallows := Facade.checkVerb_ok hcheck
    have hne : harnessNamespace ≠ authzNs := by decide
    split_ifs at h₁
    split at h₁
    · cases h₁
    · cases h₁
      refine Confined.addBatch hf fun g hg => ?_
      simp only [List.mem_cons, List.not_mem_nil, or_false] at hg
      rcases hg with rfl | rfl
      · exact ⟨hne, hallows⟩
      · exact ⟨hne, hallows⟩
    · cases h₁

theorem Write.after_confined (hf : f.Wf) {op : Write H} (hlands : op.Lands A F)
    (hapart : op.Apart F f) : Confined F.session op.verb f (op.after A F f) := by
  unfold Write.after
  cases h : op.run A F f with
  | ok f' => exact Write.run_confined hf hlands hapart h
  | error e => exact Confined.refl hf

/-! ## Runs -/

theorem GrainFile.Wf.run (hf : f.Wf) {ops : List (Write H)}
    (hok : ∀ done op rest, ops = done ++ op :: rest →
      op.Lands A F ∧ op.Apart F (f.afterWrites A F done)) :
    (∀ p, (f.afterWrites A F ops).permits p = f.permits p) ∧
      ∀ done op rest, ops = done ++ op :: rest →
        Confined F.session op.verb (f.afterWrites A F done) (f.afterWrites A F (done ++ [op])) := by
  induction ops generalizing f with
  | nil => exact ⟨fun _ => rfl, fun done op rest h => by cases done <;> cases h⟩
  | cons op ops ih =>
    obtain ⟨hlands, hapart⟩ := hok [] op ops rfl
    have hone : Confined F.session op.verb f (op.after A F f) :=
      Write.after_confined hf hlands hapart
    obtain ⟨hpermits, hall⟩ := ih hone.wf fun done op' rest h =>
      hok (op :: done) op' rest (by rw [h]; rfl)
    refine ⟨fun p => (hpermits p).trans (hone.permits p), fun done op' rest h => ?_⟩
    cases done with
    | nil =>
      cases h
      exact hone
    | cons d done =>
      obtain ⟨rfl, hrest⟩ := List.cons.inj h
      exact hall done op' rest hrest

/-- **Memory writes give no rights**, in every run of operations that stay out of
the reserved namespace and whose grains are stored where they were checked: what
a session bound to the file gets stays the same, and every grain an operation
stores lies in a namespace on which the session holds the verb. -/
theorem rights_stay (A : WriteArms H) (F : Facade) {f : GrainFile H} (hf : f.Wf)
    {ops : List (Write H)}
    (hok : ∀ done op rest, ops = done ++ op :: rest →
      op.Lands A F ∧ op.Apart F (f.afterWrites A F done)) :
    (∀ p v ns, (f.afterWrites A F ops).Grants p v ns ↔ f.Grants p v ns) ∧
      ∀ done op rest, ops = done ++ op :: rest →
        ∀ r ∈ (f.afterWrites A F (done ++ [op])).rows,
          (f.afterWrites A F done).has r.grain.hash = false →
            F.session.allows op.verb r.grain.ns = true := by
  obtain ⟨hpermits, hall⟩ := hf.run hok
  refine ⟨fun p v ns => ?_, fun done op rest h r hr hnew => ?_⟩
  · unfold GrainFile.Grants GrainFile.authzGrants
    rw [hpermits p]
  · rcases (hall done op rest h).stored r hr with ⟨r₀, hr₀, heq⟩ | hallows
    · rw [Bool.eq_false_iff, Ne, GrainFile.has_iff] at hnew
      exact absurd ⟨r₀, hr₀, by rw [heq]⟩ hnew
    · exact hallows

end Confine

/-! ## A smuggled namespace -/

/-- Arms that take a fact's triple from its fields; the address is the number of
fields, moved on by the clock. -/
def plainArms : WriteArms ℕ where
  nfc s := s
  build now _ _ fields :=
    match fields.getStr "subject", fields.getStr "relation", fields.getStr "object" with
    | some s, some r, some o => .ok (now.toNat + fields.length, some ⟨s, r, o⟩)
    | _, _, _ => .ok (now.toNat + fields.length, none)
  event now _ _ _ := (now.toNat, none)
  merged now tips _ _ := now.toNat + tips.sum + 1
  known _ _ := false
  parseJson _ := .error "no document"
  config _ := 0
  configHex _ := ""
  link now _ := now.toNat + 1

/-- A session that may write into `caller`, which is its default. -/
def callerFacade : Facade := ⟨.restricted "mallory" [⟨[.write], ["caller"]⟩], some "caller"⟩

/-- The fields of a grant of everything to `mallory`, without a namespace. -/
def grantFields : Fields :=
  [("subject", .str "mallory"), ("relation", .str "mg:permits"), ("object", .str "admin ON *")]

/-- With the namespace named the operation is confined. -/
theorem rights_stay_in_caller :
    ((⟨[]⟩ : GrainFile ℕ).afterWrites plainArms callerFacade
      [.add 0 "fact" (("namespace", .str "caller") :: grantFields)]).Grants "mallory" .admin "*" ↔
      (⟨[]⟩ : GrainFile ℕ).Grants "mallory" .admin "*" := by
  refine (rights_stay plainArms callerFacade (f := ⟨[]⟩) List.nodup_nil ?_).1 "mallory" .admin "*"
  intro done op rest h
  cases done with
  | cons d done => cases done <;> cases h
  | nil =>
    cases h
    refine ⟨rfl, fun hns => ?_⟩
    revert hns
    decide

/-- Under a field `ns` the same fields are checked on `caller` and stored as a
grant. -/
theorem smuggled_namespace_grants :
    ¬ ∀ (A : WriteArms ℕ) (F : Facade) (f : GrainFile ℕ) (ops : List (Write ℕ)),
      F.session.owner = false → (∀ ns, F.session.allows .admin ns = false) → f.Wf →
        ∀ p v ns, (f.afterWrites A F ops).Grants p v ns → f.Grants p v ns := by
  intro h
  have hno : ∀ ns, callerFacade.session.allows .admin ns = false := fun ns => rfl
  have hgrows := h plainArms callerFacade ⟨[]⟩
    [.add 0 "fact" (("ns", .str "agent:authz") :: grantFields)] rfl hno List.nodup_nil
    "mallory" .admin "*"
  have hafter : ((⟨[]⟩ : GrainFile ℕ).afterWrites plainArms callerFacade
      [.add 0 "fact" (("ns", .str "agent:authz") :: grantFields)]).Grants "mallory" .admin "*" := by
    unfold GrainFile.Grants
    decide +kernel
  have hbefore := hgrows hafter
  unfold GrainFile.Grants at hbefore
  revert hbefore
  decide +kernel

end Deja.Authz
