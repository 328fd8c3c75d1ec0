import NeoEngram.Agent.Lifecycle

/-! # What holds of a deletion at any moment

What the volume and the journal of a deletion have to do with each other
between any two calls of the executor (`Placed` for one root, `Invariant` for
all, `Good` and `Keeps` with the fence), and what each program does from such
a state.
-/

namespace NeoEngram.Agent

open Checks Effects Framing Words List Function Volume LogicalPath Option
open Trees (Node Tree)

variable {U : UnicodeTables}

/-! ## Locations -/

/-- Where the tree of a root lies in the quarantine. -/
def Deletion.quarantine (deletion : Deletion U) (relative : LogicalPath U) : Location :=
  split '/' (QUARANTINE_DIRECTORY ++ '/' :: deletion.deletion_id ++ '/' :: relative.text)

/-- The roots of a deletion are not nested, and none is in the quarantine. -/
structure Managed (deletion : Deletion U) : Prop where
  nonempty : deletion.roots ≠ []
  unnested : deletion.roots.Pairwise fun root other =>
    ¬ root.components <+: other.components ∧ ¬ other.components <+: root.components
  outside : ∀ root ∈ deletion.roots, root.components.head? ≠ some QUARANTINE_DIRECTORY

variable {deletion : Deletion U} {root : LogicalPath U}

theorem not_isPrefix_of_head_ne {root other : LogicalPath U}
    (h : root.components.head? ≠ other.components.head?) :
    ¬ root.components <+: other.components := by
  rintro ⟨rest, hrest⟩
  cases hcase : root.components with
  | nil => exact root.components_ne_nil hcase
  | cons first others =>
    rw [← hrest, hcase] at h
    exact h rfl

theorem managed_of_heads (names : List Text) (hnonempty : names ≠ []) (hnames : names.Nodup)
    (houtside : QUARANTINE_DIRECTORY ∉ names)
    (hheads : deletion.roots.map (·.components.head?) = names.map some) : Managed deletion := by
  refine ⟨?_, ?_, fun root hroot hhead => ?_⟩
  · intro hnil
    rw [hnil, map_nil] at hheads
    exact hnonempty (map_eq_nil_iff.mp hheads.symm)
  · have hnodup : (deletion.roots.map (·.components.head?)).Nodup := by
      rw [hheads]
      exact hnames.map (some_injective _)
    refine (pairwise_map.mp hnodup).imp fun hne => ?_
    exact ⟨not_isPrefix_of_head_ne hne, not_isPrefix_of_head_ne hne.symm⟩
  · have hmem := mem_map_of_mem (f := (·.components.head?)) hroot
    rw [hheads, hhead] at hmem
    obtain ⟨name, hname, heq⟩ := mem_map.mp hmem
    exact houtside (some.inj heq ▸ hname)

/-- The first component of a text that begins with a name. -/
theorem head_split (name : Text) (hname : split '/' name = [name]) (rest : Text) :
    (split '/' (name ++ '/' :: rest)).head? = some name := by
  rw [split_append_cons, hname]
  rfl

/-- **Scope**: the roots that a command can name are managed. -/
theorem managed_of_canonical
    (h : canonical_relative_roots U deletion.resource_scope deletion.tenant_id =
      .ok deletion.roots) : Managed deletion := by
  have hheads : ∀ texts : List Text, texts.mapM (parse U) = .ok deletion.roots →
      deletion.roots.map (·.components.head?) = texts.map fun text => (split '/' text).head? := by
    intro texts htexts
    generalize deletion.roots = roots at htexts
    induction mapM_eq_ok.mp htexts with
    | nil => rfl
    | cons hfirst hrest ih =>
      rw [map_cons, map_cons, ih (mapM_eq_ok.mpr hrest), components, parse_eq_ok.mp hfirst]
  have hobjects : ∀ rest, (split '/' ("objects/tenants/".toList ++ rest)).head? =
      some "objects".toList :=
    fun rest => head_split "objects".toList (by decide) ("tenants/".toList ++ rest)
  have hworkspaces : ∀ rest, (split '/' ("workspaces/".toList ++ rest)).head? =
      some "workspaces".toList := head_split "workspaces".toList (by decide)
  have hsnapshots : ∀ rest, (split '/' ("snapshots/".toList ++ rest)).head? =
      some "snapshots".toList := head_split "snapshots".toList (by decide)
  unfold canonical_relative_roots at h
  cases hscope : deletion.resource_scope with
  | StorageVolume =>
    rw [hscope] at h
    refine managed_of_heads ["objects".toList, "workspaces".toList, "snapshots".toList]
      nofun (by decide) (by decide) ?_
    rw [hheads _ h]
    rfl
  | Artifact =>
    rw [hscope] at h
    refine managed_of_heads ["objects".toList, "workspaces".toList, "snapshots".toList]
      nofun (by decide) (by decide) ?_
    rw [hheads _ h]
    simp only [map_cons, map_nil, append_assoc, hobjects, hworkspaces, hsnapshots]
  | Workspace =>
    rw [hscope] at h
    refine managed_of_heads ["workspaces".toList] nofun (by decide) (by decide) ?_
    rw [hheads _ h]
    simp only [map_cons, map_nil, append_assoc, hworkspaces]
  | Snapshot =>
    rw [hscope] at h
    refine managed_of_heads ["snapshots".toList] nofun (by decide) (by decide) ?_
    rw [hheads _ h]
    simp only [map_cons, map_nil, append_assoc, hsnapshots]

variable {relative : LogicalPath U}

theorem quarantine_path_eq_ok {path : LogicalPath U}
    (h : quarantine_path deletion relative = .ok path) :
    path.components = deletion.quarantine relative := by
  simp only [quarantine_path, mapError_eq_ok, parse_eq_ok] at h
  rw [components, h, Deletion.quarantine]

theorem quarantine_injective {root other : LogicalPath U}
    (h : deletion.quarantine root = deletion.quarantine other) : root = other := by
  apply ext_text
  have htext := split_injective '/' h
  simpa using htext

theorem head_quarantine (deletion : Deletion U) (relative : LogicalPath U) :
    (deletion.quarantine relative).head? = some QUARANTINE_DIRECTORY := by
  have hfirst : split '/' QUARANTINE_DIRECTORY = [QUARANTINE_DIRECTORY] := by decide
  rw [Deletion.quarantine, append_assoc, cons_append, split_append_cons, hfirst]
  rfl

theorem head_ne_repository_directory (root : LogicalPath U) :
    root.components.head? ≠ some REPOSITORY_DIRECTORY := by
  intro hhead
  have hvalid := root.validate_of_mem_components (mem_of_mem_head? hhead)
  simp only [validate_component, ok_iff] at hvalid
  have hreserved : is_reserved_name REPOSITORY_DIRECTORY = true := by decide
  rw [hreserved] at hvalid
  exact absurd hvalid.2.2.2.2.2.1 (by decide)

theorem managed_components_injective {root other : LogicalPath U}
    (h : managed_components root = managed_components other) : root = other := by
  unfold managed_components at h
  split at h
  · split at h
    · exact components_injective (cons.inj h).2
    · exact absurd (h ▸ rfl : other.components.head? = some REPOSITORY_DIRECTORY)
        (head_ne_repository_directory other)
  · split at h
    · exact absurd (h ▸ rfl : root.components.head? = some REPOSITORY_DIRECTORY)
        (head_ne_repository_directory root)
    · exact components_injective h

theorem Managed.active_ne_quarantined (h : Managed deletion) (hroot : root ∈ deletion.roots)
    (other : LogicalPath U) : managed_components root ≠ deletion.quarantine other := by
  intro heq
  have hhead := head_quarantine deletion other
  rw [← heq] at hhead
  unfold managed_components at hhead
  split at hhead
  · exact absurd (some.inj hhead) (by decide)
  · exact h.outside root hroot hhead

/-! ## The invariant -/

/-- Nothing has been done for the deletion, and what its roots have lies in directories. -/
structure Fresh (deletion : Deletion U) (start : Volume U) : Prop where
  journal : start.journal = none
  empty : ∀ root ∈ deletion.roots, start.trees (deletion.quarantine root) = none
  parents : ∀ root ∈ deletion.roots, start.trees (managed_components root) ≠ none →
    ∀ location ∈ ancestors (managed_components root), start.directories location = true

/-- What all the commands for one deletion have in common: the hash, the deletion, and the volume
as it was before the first of them. -/
structure Setting (U : UnicodeTables) where
  blake3 : Blake3
  deletion : Deletion U
  start : Volume U
  managed : Managed deletion
  fresh : Fresh deletion start

section Invariant

variable (s : Setting U)

section

variable (root : LogicalPath U)

/-- The tree of a root before the deletion. -/
def content : Option Entry := s.start.trees (managed_components root)

/-- What a scan of this tree finds. -/
def evidence : Option TreeEvidence :=
  (content s root).bind fun entry => (scan_tree s.blake3 entry root).toOption

/-- The quarantine path of a root is a logical path, and its tree can be scanned. -/
def CanQuarantine : Prop :=
  (∃ path, quarantine_path s.deletion root = .ok path) ∧
    ∀ entry, content s root = some entry → ∃ found, scan_tree s.blake3 entry root = .ok found

/-- A quarantine gets to this root: it can deal with all the roots before it. -/
def IsReached : Prop :=
  ∀ done rest, s.deletion.roots = done ++ root :: rest → ∀ other ∈ done, CanQuarantine s other

/-- A quarantine gets as far as to create the directories for this root. -/
def IsTried : Prop :=
  IsReached s root ∧ content s root ≠ none ∧ ∃ path, quarantine_path s.deletion root = .ok path

end

variable (v : Volume U)

/-- The tree of the root is where it was. -/
def IsActive (root : LogicalPath U) : Prop :=
  v.trees (managed_components root) = content s root ∧ v.trees (s.deletion.quarantine root) = none

/-- The tree of the root is in the quarantine. -/
def IsQuarantined (root : LogicalPath U) : Prop :=
  v.trees (managed_components root) = none ∧ v.trees (s.deletion.quarantine root) = content s root

/-- What is left of a tree: a directory with nothing but files and directories below it. -/
def IsRemnant (entry : Entry) : Prop :=
  (∃ directory, entry = .branch directory) ∧
    ∀ leaf ∈ entry.leaves, ∃ file, leaf.2 = Leaf.file file

/-- The entry of a root that the quarantine has finished with. -/
def Recorded (root : FilesystemRootJournal U) (purge_evidence : Option TreeEvidence) : Prop :=
  CanQuarantine s root.relative_root ∧
    root = ⟨root.relative_root, some (content s root.relative_root).isSome,
      evidence s root.relative_root, purge_evidence⟩

/-- Where the tree of a root is, in each state of the journal. -/
def Placed (state : FilesystemLifecycleState) (root : FilesystemRootJournal U) : Prop :=
  match state with
  | .Fenced => root = ⟨root.relative_root, none, none, none⟩ ∧ IsActive s v root.relative_root
  | .Quarantining =>
    -- a tree is moved before its entry is written
    (root = ⟨root.relative_root, none, none, none⟩ ∧ (IsActive s v root.relative_root ∨
        (IsReached s root.relative_root ∧ CanQuarantine s root.relative_root ∧
          IsQuarantined s v root.relative_root))) ∨
      (IsReached s root.relative_root ∧ Recorded s root none ∧ IsQuarantined s v root.relative_root)
  | .Quarantined => Recorded s root none ∧ IsQuarantined s v root.relative_root
  | .Restoring => Recorded s root none ∧ (IsActive s v root.relative_root ∨
        IsQuarantined s v root.relative_root)
  | .Restored => Recorded s root none ∧ IsActive s v root.relative_root
  | .Purging =>
    (Recorded s root none ∧ IsQuarantined s v root.relative_root) ∨
      (content s root.relative_root ≠ none ∧ Recorded s root (evidence s root.relative_root) ∧
        v.trees (managed_components root.relative_root) = none ∧
        ∀ entry, v.trees (s.deletion.quarantine root.relative_root) = some entry → IsRemnant entry)
  | .Purged => Recorded s root (evidence s root.relative_root) ∧
      v.trees (managed_components root.relative_root) = none ∧
      v.trees (s.deletion.quarantine root.relative_root) = none

/-- Every root is in its place, all above it exists, and all else is as it was. -/
structure Invariant : Prop where
  marker : v.marker = s.start.marker
  places : match v.journal with
    | none => ∀ root ∈ s.deletion.roots, IsActive s v root
    | some journal => validate_journal s.deletion journal = .ok () ∧
        ∀ root ∈ journal.roots, Placed s v journal.state root
  others : ∀ location, (∀ root ∈ s.deletion.roots, location ≠ managed_components root ∧
    location ≠ s.deletion.quarantine root) → v.trees location = s.start.trees location
  kept : ∀ location, s.start.directories location = true → v.directories location = true
  created : ∀ location, v.directories location = true → s.start.directories location = true ∨
    ∃ root ∈ s.deletion.roots, IsTried s root ∧ location ∈ ancestors (s.deletion.quarantine root)
  parents : ∀ root ∈ s.deletion.roots, v.trees (s.deletion.quarantine root) ≠ none →
    ∀ location ∈ ancestors (s.deletion.quarantine root), v.directories location = true
  recorded : ∀ journal, v.journal = some journal → ∀ root ∈ journal.roots,
    root.was_present = some true →
      ∀ location ∈ ancestors (s.deletion.quarantine root.relative_root),
        v.directories location = true

end Invariant

variable {s : Setting U} {v v' : Volume U}

theorem invariant_start (s : Setting U) : Invariant s s.start := by
  refine ⟨rfl, ?_, fun _ _ => rfl, fun _ => id, fun _ => .inl, ?_, ?_⟩
  · rw [s.fresh.journal]
    exact fun root hroot => ⟨rfl, s.fresh.empty root hroot⟩
  · intro root hroot hsome
    exact absurd (s.fresh.empty root hroot) hsome
  · intro journal hj
    rw [s.fresh.journal] at hj
    cases hj

/-! ## Changes of the volume -/

variable {journal : FilesystemLifecycleJournal U} {purge : Option TreeEvidence}

theorem Placed.congr {state : FilesystemLifecycleState} {root : FilesystemRootJournal U}
    (h : Placed s v state root) (hactive : v'.trees (managed_components root.relative_root) =
      v.trees (managed_components root.relative_root))
    (hquarantined : v'.trees (s.deletion.quarantine root.relative_root) =
      v.trees (s.deletion.quarantine root.relative_root)) :
    Placed s v' state root := by
  cases state <;>
    simpa only [Placed, IsActive, IsQuarantined, hactive, hquarantined] using h

theorem Invariant.journal_roots (h : Invariant s v) (hj : v.journal = some journal) :
    validate_journal s.deletion journal = .ok () ∧
      ∀ root ∈ journal.roots, Placed s v journal.state root := by
  have hplaces := h.places
  rw [hj] at hplaces
  exact hplaces

theorem roots_of_validate (h : validate_journal s.deletion journal = .ok ()) :
    journal.roots.map (·.relative_root) = s.deletion.roots :=
  (ensure_eq_ok.mp h).2.2.2.2.2

theorem mem_roots_of_validate (h : validate_journal s.deletion journal = .ok ())
    {root : FilesystemRootJournal U}
    (hroot : root ∈ journal.roots) : root.relative_root ∈ s.deletion.roots := by
  rw [← roots_of_validate h]
  exact mem_map_of_mem hroot

theorem Recorded.was_present {root : FilesystemRootJournal U} (h : Recorded s root purge) :
    root.was_present = some (content s root.relative_root).isSome :=
  congrArg FilesystemRootJournal.was_present h.2

theorem Recorded.purge_evidence {root : FilesystemRootJournal U}
    (h : Recorded s root purge) : root.purge_evidence = purge :=
  congrArg FilesystemRootJournal.purge_evidence h.2

theorem Invariant.recorded_directories (h : Invariant s v)
    {root : FilesystemRootJournal U} (hroot : root.relative_root ∈ s.deletion.roots)
    (hrecorded : Recorded s root purge) (hquarantined : IsQuarantined s v root.relative_root)
    (hpresent : root.was_present = some true) :
    ∀ location ∈ ancestors (s.deletion.quarantine root.relative_root),
      v.directories location = true := by
  refine h.parents root.relative_root hroot ?_
  rw [hrecorded.was_present, some.injEq, isSome_iff_ne_none] at hpresent
  rw [hquarantined.2]
  exact hpresent

variable {location : Location}

section

variable (h : Invariant s v)

include h

theorem Invariant.put (hvalid : validate_journal s.deletion journal = .ok ())
    (hplaced : ∀ root ∈ journal.roots, Placed s v journal.state root)
    (hrecorded : ∀ root ∈ journal.roots, root.was_present = some true →
      ∀ location ∈ ancestors (s.deletion.quarantine root.relative_root),
        v.directories location = true) :
    Invariant s { v with journal := some journal } := by
  refine ⟨h.marker, ⟨hvalid, hplaced⟩, h.others, h.kept, h.created, h.parents, ?_⟩
  intro journal' hj'
  obtain rfl := some.inj hj'
  exact hrecorded

theorem Invariant.put_state (hj : v.journal = some journal) {state : FilesystemLifecycleState}
    (hplaced : ∀ root ∈ journal.roots, Placed s v state root) :
    Invariant s { v with journal := some { journal with state } } :=
  h.put (h.journal_roots hj).1 hplaced (h.recorded journal hj)

theorem Invariant.set_fence (fence : Bool) : Invariant s { v with fence } :=
  ⟨h.marker, h.places, h.others, h.kept, h.created, h.parents, h.recorded⟩

theorem Invariant.create_dir (hroot : root ∈ s.deletion.roots) (htried : IsTried s root)
    (hlocation : location ∈ ancestors (s.deletion.quarantine root)) :
    Invariant s
      { v with directories := update v.directories location true } := by
  have hmono : ∀ other, v.directories other = true →
      update v.directories location true other = true := by
    intro other hother
    by_cases hsame : other = location
    · rw [hsame, update_self]
    · rw [update_of_ne hsame, hother]
  refine ⟨h.marker, h.places, h.others, fun other hother => hmono other (h.kept other hother), ?_,
    fun other hother hsome l hl => hmono l (h.parents other hother hsome l hl),
    fun journal hj other hother hpresent l hl =>
      hmono l (h.recorded journal hj other hother hpresent l hl)⟩
  intro other hother
  by_cases hsame : other = location
  · exact .inr ⟨root, hroot, htried, hsame ▸ hlocation⟩
  · change update v.directories location true other = true at hother
    rw [update_of_ne hsame] at hother
    exact h.created other hother

end

theorem Invariant.set_trees (h : Invariant s v) (hj : v.journal = some journal)
    (hrelative : relative ∈ s.deletion.roots) {trees : Location → Option Entry}
    (hsame : ∀ location, location ≠ managed_components relative →
      location ≠ s.deletion.quarantine relative → trees location = v.trees location)
    (hplaced : ∀ root ∈ journal.roots, root.relative_root = relative →
      Placed s { v with trees } journal.state root)
    (hparents : trees (s.deletion.quarantine relative) ≠ none →
      ∀ location ∈ ancestors (s.deletion.quarantine relative),
        v.directories location = true) : Invariant s { v with trees } := by
  obtain ⟨hvalid, hplaces⟩ := h.journal_roots hj
  have hother : ∀ other ∈ s.deletion.roots, other ≠ relative →
      trees (managed_components other) = v.trees (managed_components other) ∧
      trees (s.deletion.quarantine other) = v.trees (s.deletion.quarantine other) := by
    intro other hmem hne
    constructor
    · exact hsame _ (fun heq => hne (managed_components_injective heq))
        (s.managed.active_ne_quarantined hmem relative)
    · exact hsame _ (s.managed.active_ne_quarantined hrelative other).symm
        (fun heq => hne (quarantine_injective heq))
  refine ⟨h.marker, ?_, ?_, h.kept, h.created, ?_, h.recorded⟩
  · show match v.journal with | none => _ | some journal => _
    rw [hj]
    refine ⟨hvalid, fun root hroot => ?_⟩
    by_cases hroot' : root.relative_root = relative
    · exact hplaced root hroot hroot'
    · obtain ⟨hactive, hquarantined⟩ :=
        hother root.relative_root (mem_roots_of_validate hvalid hroot) hroot'
      exact (hplaces root hroot).congr hactive hquarantined
  · intro location houtside
    rw [← h.others location houtside]
    exact hsame location (houtside relative hrelative).1 (houtside relative hrelative).2
  · intro other hmem hsome
    by_cases heq : other = relative
    · subst heq
      exact hparents hsome
    · refine h.parents other hmem ?_
      rw [← (hother other hmem heq).2]
      exact hsome

/-- From the first move on until the trees are restored, the fence exists. -/
def IsFenced (v : Volume U) : Prop :=
  ∀ journal, v.journal = some journal → journal.state ≠ .Fenced → journal.state ≠ .Restored →
    v.fence = true

/-- The invariant, and the fence where it is asked for. -/
structure Good (s : Setting U) (fenced : Prop) (v : Volume U) : Prop where
  invariant : Invariant s v
  fence : fenced → IsFenced v

/-- What holds after every call but between the removal of the fence and the last write of a
restore. -/
def Keeps (s : Setting U) (fenced : Prop) : CallProp (Call U) Call.Answer (Volume U) :=
  fun _ c _ v' => Invariant s v' ∧ (fenced → IsFenced v' ∨ c = .lifecycle_restore)

/-- A volume where `restores` says which deliveries can be restored. -/
abbrev serving (restores : Bool → Bool) : Env (Call U) Call.Answer (Volume U) :=
  Env.of (Volume.answer restores)

/-! ## Single calls -/

variable {entry : Entry}

section Calls

variable {fenced : Prop} {restores : Bool → Bool} {α : Type}
  {Φ : CallProp (Call U) Call.Answer (Volume U)} {Q : AgentResult Unit → Volume U → Prop}

theorem Good.keeps (h : Good s fenced v') (c : Call U) (r : c.Answer) : Keeps s fenced v c r v' :=
  ⟨h.invariant, fun hfenced => .inl (h.fence hfenced)⟩

theorem meets_ask {c : Call U} {Q : c.Answer → Volume U → Prop}
    (hcall : Φ v c (v.answer restores c).1 (v.answer restores c).2)
    (hQ : Q (v.answer restores c).1 (v.answer restores c).2) :
    Meets (serving restores) Φ (ask c).run Q v :=
  meets_port_of.mpr ⟨hcall, hQ⟩

theorem meets_verify (hΦ : ∀ c r, Φ v c r v) (h : Invariant s v) (hQ : Q (.ok ()) v) :
    Meets (serving restores) Φ (verify_live_volume_marker (U := U) s.start.marker).run
      Q v := by
  unfold verify_live_volume_marker
  rw [meets_seq]
  refine meets_ask (hΦ _ _) ?_
  show Q (ensure (v.marker = s.start.marker) _) v
  rw [ensure, if_pos h.marker]
  exact hQ

theorem meets_put (hvalid : validate_journal s.deletion journal = .ok ())
    (h : Good s fenced { v with journal := some journal })
    (hQ : Q (.ok ()) { v with journal := some journal }) :
    Meets (serving restores) (Keeps s fenced) (put s.deletion journal).run Q v := by
  unfold put
  rw [meets_seq, meets_checked, hvalid]
  exact meets_ask (h.keeps _ _) hQ

theorem meets_scan_at (h : Good s fenced v) (hentry : v.resolve location = some entry)
    {Q : AgentResult TreeEvidence → Volume U → Prop}
    (hQ : Q (scan_tree s.blake3 entry relative) v) :
    Meets (serving restores) (Keeps s fenced) (scan_at s.blake3 location relative).run Q v := by
  unfold scan_at
  rw [meets_seq]
  refine meets_ask (h.keeps _ _) ?_
  simp only [answer, then_ok, hentry]
  exact hQ

theorem meets_load (hΦ : ∀ c r, Φ v c r v) (h : Invariant s v)
    {Q : AgentResult (Option (FilesystemLifecycleJournal U)) → Volume U → Prop}
    (hQ : Q (.ok v.journal) v) :
    Meets (serving restores) Φ (load s.deletion).run Q v := by
  unfold load
  rw [meets_seq]
  refine meets_ask (hΦ _ _) ?_
  simp only [answer, then_ok]
  cases hj : v.journal with
  | none =>
    rw [hj] at hQ
    exact hQ
  | some journal =>
    rw [hj] at hQ
    simp only [meets_seq, meets_checked, (h.journal_roots hj).1, then_ok]
    exact hQ

variable {locations : List Location}

theorem meets_create_directories (h : Good s fenced v)
    (hroot : root ∈ s.deletion.roots) (htried : IsTried s root)
    (hlocations : locations ⊆ ancestors (s.deletion.quarantine root))
    (hQ : ∀ directories : Location → Bool, (∀ location ∈ locations, directories location = true) →
      (∀ location, v.directories location = true → directories location = true) →
      Good s fenced { v with directories } → Q (.ok ()) { v with directories }) :
    Meets (serving restores) (Keeps s fenced) (create_directories locations).run Q v := by
  induction locations generalizing v with
  | nil => exact hQ v.directories (fun _ hmem => nomatch hmem) (fun _ => id) h
  | cons location rest ih =>
    obtain ⟨hfirst, hrest⟩ := cons_subset.mp hlocations
    rw [create_directories, meets_seq]
    refine meets_ask (h.keeps _ _) ?_
    simp only [answer, then_ok]
    cases hexists : v.directories location with
    | true =>
      refine ih h hrest fun directories hall hkept hgood => hQ directories ?_ hkept hgood
      exact forall_mem_cons.mpr ⟨hkept location hexists, hall⟩
    | false =>
      have hgood : Good s fenced
          { v with directories := update v.directories location true } :=
        ⟨h.invariant.create_dir hroot htried hfirst, h.fence⟩
      simp only [meets_seq]
      refine meets_ask (hgood.keeps _ _) ?_
      refine ih hgood hrest fun directories hall hkept hgood' => hQ directories ?_ ?_ hgood'
      · refine forall_mem_cons.mpr ⟨hkept location ?_, hall⟩
        exact update_self ..
      · intro other hother
        apply hkept
        by_cases hsame : other = location
        · rw [hsame]
          exact update_self ..
        · show update v.directories location true other = true
          rw [update_of_ne hsame, hother]

theorem meets_existing_directories (h : Good s fenced v)
    (hlocations : ∀ location ∈ locations, v.directories location = true) (hQ : Q (.ok ()) v) :
    Meets (serving restores) (Keeps s fenced) (create_directories locations).run Q v := by
  induction locations with
  | nil => exact hQ
  | cons location rest ih =>
    obtain ⟨hfirst, hrest⟩ := forall_mem_cons.mp hlocations
    rw [create_directories, meets_seq]
    refine meets_ask (h.keeps _ _) ?_
    simp only [answer, then_ok, hfirst]
    exact ih hrest

def Volume.moved (self : Volume U) (source destination : Location) (entry : Entry) : Volume U :=
  (self.set_tree source none).set_tree destination (some entry)

variable {source destination : Location}

theorem trees_moved_source (entry : Entry)
    (hne : source ≠ destination) : (v.moved source destination entry).trees source = none := by
  simp [moved, set_tree, hne]

theorem trees_moved_destination (entry : Entry) :
    (v.moved source destination entry).trees destination = some entry := by
  simp [moved, set_tree]

theorem trees_moved_other (entry : Entry)
    (hsource : location ≠ source) (hdestination : location ≠ destination) :
    (v.moved source destination entry).trees location = v.trees location := by
  simp [moved, set_tree, hsource, hdestination]

theorem rename_eq (hsource : v.resolve source = some entry)
    (hdestination : v.trees destination = none)
    (hparents : ∀ location ∈ ancestors destination, v.directories location = true) :
    v.rename source destination = (.ok (), v.moved source destination entry) := by
  have hall : (ancestors destination).all v.directories = true := all_eq_true.mpr hparents
  have hfree : v.resolve destination = none := by
    rw [resolve, if_pos hall, hdestination]
  simp only [rename, hsource, hfree, hall, if_true]
  rfl

end Calls

/-! ## Where a root is found -/

theorem Managed.nodup (h : Managed s.deletion) : s.deletion.roots.Nodup := by
  refine h.unnested.imp fun hne heq => ?_
  subst heq
  exact hne.1 prefix_rfl

theorem Managed.eq_of_relative_root (h : Managed s.deletion)
    (hvalid : validate_journal s.deletion journal = .ok ()) {root other : FilesystemRootJournal U}
    (hroot : root ∈ journal.roots) (hother : other ∈ journal.roots)
    (heq : root.relative_root = other.relative_root) : root = other := by
  have hnodup := h.nodup
  rw [← roots_of_validate hvalid] at hnodup
  exact inj_on_of_nodup_map hnodup hroot hother heq

/-- Until a purge begins, a tree is in one of its two places. -/
theorem Invariant.place_cases (h : Invariant s v)
    (hroot : root ∈ s.deletion.roots) : IsActive s v root ∨
      IsQuarantined s v root ∨ v.trees (managed_components root) = none ∧
        ∃ journal, v.journal = some journal ∧
          (journal.state = .Purging ∨ journal.state = .Purged) := by
  have hplaces := h.places
  cases hj : v.journal with
  | none =>
    rw [hj] at hplaces
    exact .inl (hplaces root hroot)
  | some journal =>
    obtain ⟨hvalid, hplaced⟩ := h.journal_roots hj
    rw [← roots_of_validate hvalid] at hroot
    obtain ⟨entry, hentry, rfl⟩ := mem_map.mp hroot
    have hplace := hplaced entry hentry
    cases hstate : journal.state <;> rw [hstate] at hplace
    · exact .inl hplace.2
    · rcases hplace with ⟨-, hplace | ⟨-, -, hplace⟩⟩ | ⟨-, -, hplace⟩
      · exact .inl hplace
      · exact .inr (.inl hplace)
      · exact .inr (.inl hplace)
    · exact .inr (.inl hplace.2)
    · exact hplace.2.imp_right .inl
    · exact .inl hplace.2
    · rcases hplace with ⟨-, hplace⟩ | ⟨-, -, hplace⟩
      · exact .inr (.inl hplace)
      · exact .inr (.inr ⟨hplace.1, journal, rfl, .inl hstate⟩)
    · exact .inr (.inr ⟨hplace.2.1, journal, rfl, .inr hstate⟩)

/-- The directories above an active location exist as long as there can be a tree. -/
theorem Invariant.active_parents
    (h : Invariant s v) (hroot : root ∈ s.deletion.roots) (hpresent : content s root ≠ none) :
    ∀ location ∈ ancestors (managed_components root), v.directories location = true :=
  fun location hlocation => h.kept location (s.fresh.parents root hroot hpresent location hlocation)

theorem resolve_eq (h : v.trees location ≠ none →
    ∀ parent ∈ ancestors location, v.directories parent = true) :
    v.resolve location = v.trees location := by
  unfold resolve
  split
  · rfl
  · next hmissing =>
    by_contra hne
    exact hmissing (all_eq_true.mpr (h fun hnone => hne hnone.symm))

theorem Invariant.resolve_active
    (h : Invariant s v) (hroot : root ∈ s.deletion.roots) :
    v.resolve (managed_components root) = v.trees (managed_components root) := by
  refine resolve_eq fun hsome => h.active_parents hroot ?_
  rcases h.place_cases hroot with hactive | hquarantined | ⟨hnone, -⟩
  · exact hactive.1 ▸ hsome
  · exact absurd hquarantined.1 hsome
  · exact absurd hnone hsome

theorem Invariant.resolve_quarantined (h : Invariant s v)
    (hroot : root ∈ s.deletion.roots) : v.resolve (s.deletion.quarantine root) =
      v.trees (s.deletion.quarantine root) :=
  resolve_eq fun hsome => h.parents root hroot hsome

/-- Nothing has changed except at the two locations of a root. -/
def SameExcept (deletion : Deletion U) (root : LogicalPath U) (v v' : Volume U) : Prop :=
  ∀ location, location ≠ managed_components root → location ≠ deletion.quarantine root →
    v'.trees location = v.trees location

theorem SameExcept.other (h : SameExcept s.deletion root v v')
    (hroot : root ∈ s.deletion.roots) {other : LogicalPath U} (hother : other ∈ s.deletion.roots)
    (hne : other ≠ root) :
    v'.trees (managed_components other) = v.trees (managed_components other) ∧
      v'.trees (s.deletion.quarantine other) = v.trees (s.deletion.quarantine other) := by
  constructor
  · exact h _ (fun heq => hne (managed_components_injective heq))
      (s.managed.active_ne_quarantined hother root)
  · exact h _ (s.managed.active_ne_quarantined hroot other).symm
      (fun heq => hne (quarantine_injective heq))

/-! ## Entries -/

variable {found : TreeEvidence}

theorem evidence_of_scan
    (hentry : content s root = some entry) (hfound : scan_tree s.blake3 entry root = .ok found) :
    evidence s root = some found := by
  simp [evidence, hentry, hfound, Except.toOption]

theorem evidence_of_absent (h : content s root = none) : evidence s root = none := by
  simp [evidence, h]

theorem recorded_absent {root path : LogicalPath U} (h : content s root = none)
    (hpath : quarantine_path s.deletion root = .ok path) :
    Recorded s ⟨root, some false, none, none⟩ none := by
  refine ⟨⟨⟨path, hpath⟩, fun entry hentry => ?_⟩, ?_⟩
  · rw [h] at hentry
    cases hentry
  · simp [h, evidence_of_absent h]

theorem recorded_present {root path : LogicalPath U}
    (hentry : content s root = some entry) (hpath : quarantine_path s.deletion root = .ok path)
    (hfound : scan_tree s.blake3 entry root = .ok found) :
    Recorded s ⟨root, some true, some found, none⟩ none := by
  refine ⟨⟨⟨path, hpath⟩, fun other hother => ?_⟩, ?_⟩
  · rw [hentry] at hother
    obtain rfl := some.inj hother
    exact ⟨found, hfound⟩
  · simp [hentry, evidence_of_scan hentry hfound]

variable {done rest : List (FilesystemRootJournal U)}

theorem validate_replace {root root' : FilesystemRootJournal U}
    (h : validate_journal s.deletion { journal with roots := done ++ root :: rest } = .ok ())
    (hroot : root'.relative_root = root.relative_root) :
    validate_journal s.deletion { journal with roots := done ++ root' :: rest } = .ok () := by
  simpa [validate_journal, ensure_eq_ok, hroot] using h

theorem validate_set_state (h : validate_journal s.deletion journal = .ok ())
    (state : FilesystemLifecycleState) :
    validate_journal s.deletion { journal with state } = .ok () :=
  h

theorem IsFenced.put (h : IsFenced v) (hj : v.journal = some journal)
    (hfenced : journal.state ≠ .Fenced) (hrestored : journal.state ≠ .Restored)
    (journal' : FilesystemLifecycleJournal U) : IsFenced { v with journal := some journal' } :=
  fun _ _ _ _ => h journal hj hfenced hrestored

theorem Good.put_root {fenced : Prop} (h : Good s fenced v) {root root' : FilesystemRootJournal U}
    (hj : v.journal = some { journal with roots := done ++ root :: rest })
    (hroot : root'.relative_root = root.relative_root) (hfenced : journal.state ≠ .Fenced)
    (hrestored : journal.state ≠ .Restored) (hplaced : Placed s v journal.state root')
    (hrecorded : root'.was_present = some true →
      ∀ location ∈ ancestors (s.deletion.quarantine root'.relative_root),
        v.directories location = true) :
    Good s fenced
      { v with journal := some { journal with roots := done ++ root' :: rest } } := by
  obtain ⟨hvalid, hplaces⟩ := h.invariant.journal_roots hj
  have hmem : ∀ other ∈ done ++ root' :: rest, other = root' ∨ other ∈ done ++ root :: rest := by
    intro other hother
    simp only [mem_append, mem_cons] at hother ⊢
    tauto
  refine ⟨h.invariant.put (validate_replace hvalid hroot) ?_ ?_,
    fun hf => (h.fence hf).put hj hfenced hrestored _⟩
  · intro other hother
    rcases hmem other hother with rfl | hold
    · exact hplaced
    · exact hplaces other hold
  · intro other hother
    rcases hmem other hother with rfl | hold
    · exact hrecorded
    · exact h.invariant.recorded _ hj other hold

/-- The journal when all roots are done. -/
def settled (s : Setting U)
    (state : FilesystemLifecycleState) (purged : Bool) : FilesystemLifecycleJournal U :=
  ⟨FILESYSTEM_JOURNAL_FORMAT, s.deletion.deletion_id, s.deletion.tenant_id,
    s.deletion.resource_scope,
    s.deletion.request_digest, state, s.deletion.roots.map fun root =>
      ⟨root, some (content s root).isSome, evidence s root,
        if purged then evidence s root else none⟩⟩

theorem eq_settled {state : FilesystemLifecycleState} (hstate : journal.state = state)
    (hvalid : validate_journal s.deletion journal = .ok ()) (purged : Bool)
    (hrecorded : ∀ root ∈ journal.roots, Recorded s root
      (if purged then evidence s root.relative_root else none)) :
    journal = settled s state purged := by
  subst hstate
  have hroots : journal.roots = s.deletion.roots.map fun root =>
      ⟨root, some (content s root).isSome, evidence s root,
        if purged then evidence s root else none⟩ := by
    rw [← roots_of_validate hvalid, List.map_map]
    refine (map_id _).symm.trans (map_congr_left fun root hroot => ?_)
    exact (hrecorded root hroot).2
  obtain ⟨hformat, hid, htenant, hscope, hdigest, -⟩ := ensure_eq_ok.mp hvalid
  obtain ⟨format, deletion_id, tenant_id, resource_scope, request_digest, state, roots⟩ := journal
  simp only at hformat hid htenant hscope hdigest hroots
  subst hformat hid htenant hscope hdigest hroots
  rfl

theorem validate_new_journal : validate_journal s.deletion (new_journal s.deletion) = .ok () := by
  simp only [validate_journal, new_journal, ensure_eq_ok, List.map_map, true_and]
  exact List.map_id _

section Loading

variable {fenced : Prop}
  {Q : AgentResult (FilesystemLifecycleJournal U) → Volume U → Prop} {restores : Bool → Bool}

theorem Good.create_journal (h : Good s fenced v) (hnone : v.journal = none) :
    Good s fenced { v with journal := some (new_journal s.deletion) } := by
  have hplaces := h.invariant.places
  rw [hnone] at hplaces
  refine ⟨h.invariant.put validate_new_journal ?_ ?_, fun _ journal hj hfenced _ => ?_⟩
  · intro root hroot
    obtain ⟨relative, hrelative, rfl⟩ := mem_map.mp hroot
    exact ⟨rfl, hplaces relative hrelative⟩
  · intro root hroot hpresent
    obtain ⟨relative, -, rfl⟩ := mem_map.mp hroot
    cases hpresent
  · obtain rfl := some.inj hj
    exact absurd rfl hfenced

variable {Φ : CallProp (Call U) Call.Answer (Volume U)}

theorem meets_load_existing (hΦ : ∀ c r, Φ v c r v) (h : Invariant s v)
    (hj : v.journal = some journal) (hQ : Q (.ok journal) v) :
    Meets (serving restores) Φ (load_or_create s.deletion).run Q v := by
  unfold load_or_create
  rw [meets_seq]
  refine meets_load hΦ h ?_
  rw [hj]
  exact hQ

theorem meets_load_or_create (h : Good s fenced v)
    (hold : ∀ journal, v.journal = some journal → Q (.ok journal) v)
    (hnew : v.journal = none → Q (.ok (new_journal s.deletion))
      { v with journal := some (new_journal s.deletion) }) :
    Meets (serving restores) (Keeps s fenced) (load_or_create s.deletion).run Q v := by
  unfold load_or_create
  rw [meets_seq]
  refine meets_load h.keeps h.invariant ?_
  simp only [then_ok]
  cases hj : v.journal with
  | some journal => exact hold journal hj
  | none =>
    simp only [meets_seq]
    exact meets_put validate_new_journal (h.create_journal hj) (hnew hj)

theorem meets_require_journal (hΦ : ∀ c r, Φ v c r v) (h : Invariant s v)
    (hold : ∀ journal, v.journal = some journal → Q (.ok journal) v)
    (hnone : v.journal = none → Q (.error (lifecycle_state_error
      "lifecycle action has no durable quarantine journal")) v) :
    Meets (serving restores) Φ (require_journal s.deletion).run Q v := by
  unfold require_journal
  rw [meets_seq]
  refine meets_load hΦ h ?_
  simp only [then_ok]
  cases hj : v.journal with
  | some journal => exact hold journal hj
  | none => exact hnone hj

end Loading

end NeoEngram.Agent
