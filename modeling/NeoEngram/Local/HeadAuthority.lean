import NeoEngram.Core.Concrete
import NeoEngram.Local.Workspaces

/-! # The authority of HEAD and references

Any number of workspaces create and remove each other, commit and check
out. Commits and checkouts hold the write lock of the repository; the
registry operations run between any two steps of a commit. In every state that
this step relation reaches

- the base Commit of a workspace is the one its HEAD is at
- no two workspaces are attached to one reference
- a reference moves from the tip that a commit has observed to a Commit
  whose parent is that tip, so no tip is lost
-/

namespace NeoEngram.Local.Registry

open Checks Words OrderedKeys Registry.Tables
open Std (ExtTreeMap)

variable {blake3 : Blake3}

/-! ## Steps -/

/-- How far a commit has come. -/
inductive CommitStage where
  | Observed
  | Stored (commit_id : CommitId)
  /-- `advance_head` has compared HEAD, and the exchange of the reference is next. -/
  | Checked (commit_id : CommitId)

/-- A commit that holds the write lock, with the HEAD that it has observed. -/
structure CommitRun where
  workspace_id : WorkspaceId
  head : RepositoryHead
  stage : CommitStage

structure System where
  tables : Tables
  /-- The holder of the write lock between the steps of a commit. -/
  writer : Option CommitRun

/-- One step of some process. A commit observes HEAD, stores its Commit object and moves HEAD,
with the lock held; a checkout finds the lock free. A command may stop at any point, by an
error or by a crash, and then gives up the lock. -/
inductive Step (blake3 : Blake3) : System → System → Prop where
  | create_workspace {s : System} {tables : Tables} {id : WorkspaceId} {name root_path : Text}
      {commit_id : CommitId} : s.tables.create_workspace id name root_path commit_id = .ok tables →
      Step blake3 s { s with tables }
  | attach_workspace {s : System} {tables : Tables} {id : WorkspaceId} {commit_id : CommitId}
      {reference : Text} :
      s.tables.attach_workspace_to_branch id commit_id reference = .ok tables →
      Step blake3 s { s with tables }
  | remove_workspace {s : System} {tables : Tables} {id : WorkspaceId} :
      s.tables.remove_workspace id = .ok tables → Step blake3 s { s with tables }
  | checkout {s : System} {tables : Tables} {id : WorkspaceId} {expected target : HeadState} :
      s.writer = none → s.tables.transition_head id expected target = .ok tables →
      Step blake3 s { s with tables }
  | commit_begin {s : System} {id : WorkspaceId} {head : RepositoryHead} :
      s.writer = none → s.tables.current_head id = .ok head →
      Step blake3 s { s with writer := some ⟨id, head, .Observed⟩ }
  | commit_store {s : System} {run : CommitRun} {commit : Commit} {commit_id : CommitId}
      {tables : Tables} : s.writer = some run → run.stage = .Observed →
      commit.parent = run.head.commit_id →
      s.tables.store_commit blake3 commit = .ok (commit_id, tables) →
      Step blake3 s ⟨tables, some { run with stage := .Stored commit_id }⟩
  | commit_check {s : System} {run : CommitRun} {commit_id : CommitId} {reference : Text} :
      s.writer = some run → run.stage = .Stored commit_id →
      run.head.state = .Attached reference →
      s.tables.read_head_state run.workspace_id = .ok run.head.state →
      Step blake3 s { s with writer := some { run with stage := .Checked commit_id } }
  | commit_exchange {s : System} {run : CommitRun} {commit_id : CommitId} {reference : Text}
      {cas : ReferenceCas} {tables : Tables} : s.writer = some run →
      run.stage = .Checked commit_id → run.head.state = .Attached reference →
      s.tables.compare_exchange_reference run.workspace_id reference run.head.commit_id
        (some commit_id) = .ok (cas, tables) →
      Step blake3 s ⟨tables, none⟩
  | commit_detached {s : System} {run : CommitRun} {commit_id old : CommitId} {cas : HeadCas}
      {tables : Tables} : s.writer = some run → run.stage = .Stored commit_id →
      run.head.state = .Detached old → run.head.commit_id = some old →
      s.tables.compare_exchange_head run.workspace_id run.head.state (.Detached commit_id) =
        .ok (cas, tables) →
      Step blake3 s ⟨tables, none⟩
  | stop {s : System} : Step blake3 s { s with writer := none }

/-- The states that the processes can reach from a state. -/
def Reaches (blake3 : Blake3) : System → System → Prop := Relation.ReflTransGen (Step blake3)

/-! ## Reference names -/

theorem reference_character_range {c : Char} (h : is_reference_character c = true ∨ c = '/') :
    45 ≤ c.toNat ∧ c.toNat ≤ 122 := by
  rcases h with h | rfl
  · simp only [is_reference_character, Char.isAlphanum, Char.isAlpha, Char.isUpper, Char.isLower,
      Char.isDigit, Bool.or_eq_true, Bool.and_eq_true, decide_eq_true_eq, List.mem_cons,
      List.not_mem_nil, or_false, ge_iff_le, UInt32.le_iff_toNat_le] at h
    rcases h with ((⟨h₁, h₂⟩ | ⟨h₁, h₂⟩) | ⟨h₁, h₂⟩) | rfl | rfl | rfl
    · exact ⟨le_trans (by decide) h₁, le_trans h₂ (by decide)⟩
    · exact ⟨le_trans (by decide) h₁, le_trans h₂ (by decide)⟩
    · exact ⟨le_trans (by decide) h₁, le_trans h₂ (by decide)⟩
    all_goals decide
  · decide

variable {name : Text}

theorem trim_of_validate (h : validate_reference_name name = .ok ()) : trim name = name := by
  simp only [validate_reference_name, ok_iff, forM_eq_ok] at h
  obtain ⟨-, -, hcomponents⟩ := h
  apply trim_eq_self
  intro c hc
  apply is_whitespace_of_range
  apply reference_character_range
  by_cases hslash : c = '/'
  · exact .inr hslash
  · obtain ⟨w, hw, hcw⟩ := mem_split_of_mem '/' hslash hc
    exact .inl (List.all_eq_true.mp (hcomponents w hw).2.2 c hcw)

variable {state : HeadState}

theorem normalize_of_validate (h : state.validate = .ok ()) : state.normalize = state := by
  cases state with
  | Attached reference => exact congrArg HeadState.Attached (trim_of_validate h)
  | Detached commit_id => rfl

/-! ## Sound tables -/

def commit_at (refs : TextMap CommitId) : HeadState → Option CommitId
  | .Attached reference => refs[reference]?
  | .Detached commit_id => some commit_id

/-- The base Commit of a record is the one that its HEAD is at. -/
def BaseMatches (refs : TextMap CommitId) (record : WorkspaceRecord) : Prop :=
  record.base_commit_id = commit_at refs record.head

/-- No workspace but `id` is attached to the reference. -/
def OnlyAttached (tables : Tables) (id : WorkspaceId) (reference : Text) : Prop :=
  ∀ (id' : WorkspaceId) (record : WorkspaceRecord), tables.workspaces[id']? = some record →
    record.head = .Attached reference → id' = id

structure Sound (tables : Tables) : Prop where
  normal : ∀ (id : WorkspaceId) (record : WorkspaceRecord),
    tables.workspaces[id]? = some record → record.head.normalize = record.head
  base : ∀ (id : WorkspaceId) (record : WorkspaceRecord),
    tables.workspaces[id]? = some record → BaseMatches tables.refs record
  unique : ∀ (id : WorkspaceId) (record : WorkspaceRecord) (reference : Text),
    tables.workspaces[id]? = some record → record.head = .Attached reference →
      OnlyAttached tables id reference

variable {id : WorkspaceId} {reference : Text} {tables : Tables}

theorem owner_eq_none : tables.owner id reference = none ↔ OnlyAttached tables id reference := by
  simp only [owner, List.find?_eq_none, Prod.forall, decide_eq_true_eq, not_and,
    ExtTreeMap.mem_toList_iff_getElem?_eq_some, OnlyAttached]
  constructor
  · intro h id' record hrecord hhead
    by_contra hne
    exact h id' record hrecord hne hhead
  · intro h id' record hrecord hne hhead
    exact hne (h id' record hrecord hhead)

variable {target : CommitId} {record : WorkspaceRecord}

/-- A reference that a record is not attached to may move. -/
theorem BaseMatches.insert {refs : TextMap CommitId} (h : BaseMatches refs record)
    (hother : record.head ≠ .Attached reference) :
    BaseMatches (refs.insert reference target) record := by
  rw [BaseMatches, h]
  cases hhead : record.head with
  | Detached commit_id => rfl
  | Attached other =>
    have hne : reference ≠ other := fun heq => hother (by rw [hhead, heq])
    show refs[other]? = (refs.insert reference target)[other]?
    rw [getElem?_insert_eq, if_neg hne]

/-- Setting a record keeps the tables sound when it fits the references and its reference is free.
References may change where no other workspace is attached. -/
theorem Sound.set {tables tables' : Tables} (h : Sound tables) (id : WorkspaceId)
    (hset : tables'.workspaces = tables.workspaces.insert id record)
    (hnormal : record.head.normalize = record.head) (hbase : BaseMatches tables'.refs record)
    (hfree : ∀ reference, record.head = .Attached reference → OnlyAttached tables id reference)
    (hothers : ∀ (id' : WorkspaceId) (other : WorkspaceRecord), tables.workspaces[id']? =
      some other →
      id' ≠ id → BaseMatches tables'.refs other) : Sound tables' := by
  have hlookup : ∀ (id' : WorkspaceId) (other : WorkspaceRecord),
      tables'.workspaces[id']? = some other →
        (id' = id ∧ other = record) ∨ (id' ≠ id ∧ tables.workspaces[id']? = some other) := by
    intro id' other hother
    rw [hset, getElem?_insert_eq] at hother
    by_cases hid : id = id'
    · rw [if_pos hid] at hother
      exact .inl ⟨hid.symm, (Option.some.inj hother).symm⟩
    · rw [if_neg hid] at hother
      exact .inr ⟨Ne.symm hid, hother⟩
  refine ⟨?_, ?_, ?_⟩
  · intro id' other hother
    rcases hlookup id' other hother with ⟨-, rfl⟩ | ⟨-, hold⟩
    · exact hnormal
    · exact h.normal id' other hold
  · intro id' other hother
    rcases hlookup id' other hother with ⟨-, rfl⟩ | ⟨hne, hold⟩
    · exact hbase
    · exact hothers id' other hold hne
  · intro id₁ first reference hfirst hhead id₂ second hsecond hhead'
    rcases hlookup id₁ first hfirst with ⟨rfl, rfl⟩ | ⟨hne₁, hold₁⟩
    · rcases hlookup id₂ second hsecond with ⟨rfl, -⟩ | ⟨-, hold₂⟩
      · rfl
      · exact hfree reference hhead id₂ second hold₂ hhead'
    · rcases hlookup id₂ second hsecond with ⟨rfl, rfl⟩ | ⟨-, hold₂⟩
      · exact absurd (hfree reference hhead' id₁ first hold₁ hhead) hne₁
      · exact h.unique id₁ first reference hold₁ hhead id₂ second hold₂ hhead'

variable {head_reference : Text}

theorem sound_init (h : init_tables head_reference = .ok tables) : Sound tables := by
  simp only [init_tables, ok_iff] at h
  obtain ⟨hname, rfl⟩ := h
  have hempty : Sound ⟨∅, ∅, ∅⟩ := by
    refine ⟨?_, ?_, ?_⟩ <;> intro id record <;> simp
  refine hempty.set DEFAULT_WORKSPACE_ID rfl ?_ ?_ ?_ ?_
  · exact congrArg HeadState.Attached (trim_of_validate hname)
  · simp [BaseMatches, commit_at]
  · intro reference _ id' other hother
    simp at hother
  · intro id' other hother
    simp at hother

/-! ## The operations -/

variable {cas : ReferenceCas} {expected : Option CommitId} {commit : Commit}

section Operations

variable {tables tables' : Tables} {id : WorkspaceId} {commit_id : CommitId}

theorem create_workspace_ok {root_path : Text}
    (h : tables.create_workspace id name root_path commit_id = .ok tables') :
    tables' = tables.set_workspace id ⟨name, root_path, .Detached commit_id, some commit_id⟩ := by
  simp only [create_workspace, ok_iff] at h
  obtain ⟨-, -, -, -, rfl⟩ := h
  rfl

theorem attach_workspace_ok
    (h : tables.attach_workspace_to_branch id commit_id reference = .ok tables') :
    ∃ record, tables.workspaces[id]? = some record ∧ record.base_commit_id = some commit_id ∧
      validate_reference_name reference = .ok () ∧ tables.refs[reference]? = none ∧
      OnlyAttached tables id reference ∧
      tables' = ⟨tables.commits, tables.refs.insert reference commit_id,
        tables.workspaces.insert id { record with head := .Attached reference }⟩ := by
  simp only [attach_workspace_to_branch, ok_iff] at h
  obtain ⟨hname, -, record, hrecord, -, ⟨-, hbase⟩, hnew, h⟩ := h
  split at h
  next => simp at h
  next hfree =>
    obtain rfl := Except.ok.inj h
    refine ⟨record, hrecord, hbase, hname, hnew, owner_eq_none.mp ?_, rfl⟩
    exact Option.eq_none_iff_forall_ne_some.mpr fun owner => hfree owner.1 owner.2

theorem remove_workspace_ok (h : tables.remove_workspace id = .ok tables') :
    tables' = { tables with workspaces := tables.workspaces.erase id } := by
  simp only [remove_workspace, ok_iff] at h
  exact h.2.symm

theorem head_commit_ok {commit_id : Option CommitId}
    (h : tables.head_commit state = .ok commit_id) : commit_id = commit_at tables.refs state := by
  cases state with
  | Attached reference =>
    simp only [head_commit, get_reference, ok_iff] at h
    exact h.2.symm
  | Detached detached => exact (Except.ok.inj h).symm

theorem check_unattached_ok (h : tables.check_unattached id state = .ok ()) :
    ∀ reference, state = .Attached reference → OnlyAttached tables id reference := by
  rintro reference rfl
  exact owner_eq_none.mp (ensure_eq_ok.mp h)

/-- HEAD is left as it was, or it is set to a valid state, with the Commit that it is at. -/
theorem compare_exchange_head_ok {expected new_state : HeadState} {cas : HeadCas}
    (h : tables.compare_exchange_head id expected new_state = .ok (cas, tables')) :
    tables' = tables ∨ ∃ (record : WorkspaceRecord) (base_commit_id : Option CommitId),
      new_state.normalize.validate = .ok () ∧
      tables.head_commit new_state.normalize = .ok base_commit_id ∧
      (∀ reference, new_state.normalize = .Attached reference → OnlyAttached tables id reference) ∧
      tables' = tables.set_workspace id
        { record with head := new_state.normalize, base_commit_id } := by
  simp only [Tables.compare_exchange_head, ok_iff] at h
  obtain ⟨-, hvalid, actual, -, h⟩ := h
  split at h
  · cases h
    exact .inl rfl
  · simp only [ok_iff, Prod.mk.injEq] at h
    obtain ⟨base_commit_id, hbase, hfree, record, -, -, rfl⟩ := h
    exact .inr ⟨record, base_commit_id, hvalid, hbase, check_unattached_ok hfree, rfl⟩

theorem transition_head_ok {expected target : HeadState}
    (h : tables.transition_head id expected target = .ok tables') :
    ∃ cas, tables.compare_exchange_head id expected target = .ok (cas, tables') := by
  simp only [transition_head, bind_eq_ok, Prod.exists] at h
  obtain ⟨cas, moved, hcas, h⟩ := h
  cases cas with
  | Updated =>
    cases h
    exact ⟨.Updated, hcas⟩
  | Mismatch actual =>
    simp only [ok_iff] at h
    exact ⟨.Mismatch actual, h.2 ▸ hcas⟩

/-- The reference is left as it was, or it moves from the expected tip. -/
theorem compare_exchange_reference_ok
    (h : tables.compare_exchange_reference id name expected (some target) = .ok (cas, tables')) :
    tables' = tables ∨ (tables.refs[name]? = expected ∧
      tables' = Tables.follow_reference { tables with refs := tables.refs.insert name target }
        id name target) := by
  simp only [Tables.compare_exchange_reference, Tables.get_reference, ok_iff] at h
  obtain ⟨_, ⟨-, rfl⟩, h⟩ := h
  split at h
  · cases h
    exact .inl rfl
  · next hsame =>
    cases h
    exact .inr ⟨not_not.mp hsame, rfl⟩

/-- A Commit object is stored under its id, and the stored ones stay. -/
theorem store_commit_ok (h : tables.store_commit blake3 commit = .ok (commit_id, tables')) :
    tables'.refs = tables.refs ∧ tables'.workspaces = tables.workspaces ∧
      tables'.commits[commit_id]? = some commit ∧
      ∀ (other : CommitId) (stored : Commit), tables.commits[other]? = some stored →
        tables'.commits[other]? = some stored := by
  simp only [Tables.store_commit, ok_iff, of_core_eq_ok] at h
  obtain ⟨-, new_id, -, h⟩ := h
  split at h
  · next existing hexisting =>
    simp only [ok_iff, Prod.mk.injEq] at h
    obtain ⟨rfl, rfl, rfl⟩ := h
    exact ⟨rfl, rfl, hexisting, fun _ _ hstored => hstored⟩
  · next hfree =>
    simp only [pure_eq_ok, Prod.mk.injEq] at h
    obtain ⟨rfl, rfl⟩ := h
    refine ⟨rfl, rfl, ?_, fun other stored hstored => ?_⟩
    · show (tables.commits.insert new_id commit)[new_id]? = _
      rw [getElem?_insert_eq, if_pos rfl]
    · show (tables.commits.insert new_id commit)[other]? = _
      rw [getElem?_insert_eq, if_neg]
      · exact hstored
      · rintro rfl
        rw [hfree] at hstored
        cases hstored

end Operations

/-! ## Soundness -/

section Soundness

variable {tables tables' : Tables} {id : WorkspaceId} {commit_id : CommitId}

theorem Sound.create_workspace (h : Sound tables) {root_path : Text}
    (hop : tables.create_workspace id name root_path commit_id = .ok tables') : Sound tables' := by
  rw [create_workspace_ok hop]
  refine h.set id rfl rfl rfl ?_ fun id' other hother _ => h.base id' other hother
  intro reference hhead
  cases hhead

theorem Sound.attach_workspace (h : Sound tables)
    (hop : tables.attach_workspace_to_branch id commit_id reference = .ok tables') :
    Sound tables' := by
  obtain ⟨record, -, hbase, hname, -, hfree, rfl⟩ := attach_workspace_ok hop
  refine h.set id rfl ?_ ?_ ?_ ?_
  · exact congrArg HeadState.Attached (trim_of_validate hname)
  · show record.base_commit_id = (tables.refs.insert reference commit_id)[reference]?
    rw [hbase, getElem?_insert_eq, if_pos rfl]
  · intro other hother
    obtain rfl : reference = other := HeadState.Attached.inj hother
    exact hfree
  · intro id' other hother hne
    exact (h.base id' other hother).insert fun hhead => hne (hfree id' other hother hhead)

theorem Sound.remove_workspace (h : Sound tables)
    (hop : tables.remove_workspace id = .ok tables') : Sound tables' := by
  rw [remove_workspace_ok hop]
  have hlookup : ∀ (id' : WorkspaceId) (record : WorkspaceRecord),
      (tables.workspaces.erase id)[id']? = some record → tables.workspaces[id']? = some record := by
    intro id' record hrecord
    rw [getElem?_erase_eq] at hrecord
    split at hrecord
    · cases hrecord
    · exact hrecord
  refine ⟨?_, ?_, ?_⟩
  · exact fun id' record hrecord => h.normal id' record (hlookup id' record hrecord)
  · exact fun id' record hrecord => h.base id' record (hlookup id' record hrecord)
  · intro id' record reference hrecord hhead id'' other hother
    exact h.unique id' record reference (hlookup id' record hrecord) hhead id'' other
      (hlookup id'' other hother)

theorem Sound.compare_exchange_head (h : Sound tables) {expected new_state : HeadState}
    {cas : HeadCas}
    (hop : tables.compare_exchange_head id expected new_state = .ok (cas, tables')) :
    Sound tables' := by
  rcases compare_exchange_head_ok hop with rfl | ⟨record, base, hvalid, hbase, hfree, rfl⟩
  · exact h
  · exact h.set id rfl (normalize_of_validate hvalid) (head_commit_ok hbase) hfree
      fun id' other hother _ => h.base id' other hother

/-- A reference to which at most the calling workspace is attached may move. -/
theorem Sound.compare_exchange_reference (h : Sound tables)
    (halone : tables.refs[name]? = expected → OnlyAttached tables id name)
    (hop : tables.compare_exchange_reference id name expected (some target) = .ok (cas, tables')) :
    Sound tables' := by
  rcases compare_exchange_reference_ok hop with rfl | ⟨htip, rfl⟩
  · exact h
  · have hothers : ∀ (id' : WorkspaceId) (other : WorkspaceRecord),
        tables.workspaces[id']? = some other → id' ≠ id →
          BaseMatches (tables.refs.insert name target) other := by
      intro id' other hother hne
      exact (h.base id' other hother).insert fun hhead => hne (halone htip id' other hother hhead)
    unfold follow_reference
    cases hrecord : tables.workspaces[id]? with
    | none =>
      -- the calling workspace is gone, and nobody else is attached
      refine ⟨h.normal, fun id' other hother => hothers id' other hother ?_, h.unique⟩
      rintro rfl
      rw [hrecord] at hother
      cases hother
    | some record =>
      by_cases hhead : record.head = .Attached name
      · simp only [hhead, if_true]
        refine h.set id rfl (hhead ▸ h.normal id record hrecord) ?_ ?_ hothers
        · show some target = (tables.refs.insert name target)[name]?
          rw [getElem?_insert_eq, if_pos rfl]
        · intro reference hattached
          obtain rfl : name = reference := HeadState.Attached.inj hattached
          exact halone htip
      · simp only [hhead, if_false]
        refine ⟨h.normal, fun id' other hother => ?_, h.unique⟩
        by_cases hid : id' = id
        · subst hid
          obtain rfl : record = other := Option.some.inj (hrecord.symm.trans hother)
          exact (h.base id' record hrecord).insert hhead
        · exact hothers id' other hother hid

theorem Sound.store_commit (h : Sound tables)
    (hop : tables.store_commit blake3 commit = .ok (commit_id, tables')) : Sound tables' := by
  obtain ⟨hrefs, hworkspaces, -, -⟩ := store_commit_ok hop
  refine ⟨hworkspaces ▸ h.normal, ?_, ?_⟩
  · rw [hworkspaces, hrefs]
    exact h.base
  · unfold OnlyAttached
    rw [hworkspaces]
    exact h.unique

end Soundness

/-! ## Commits in flight -/

/-- What holds of a commit between its steps. The reference still has the observed tip; only a
branch without a Commit can have got one meanwhile, after the workspace was removed. -/
structure InFlight (tables : Tables) (run : CommitRun) : Prop where
  tip : ∀ reference, run.head.state = .Attached reference →
    tables.refs[reference]? = run.head.commit_id ∨
      (run.head.commit_id = none ∧ tables.refs[reference]? ≠ none)
  stored : ∀ commit_id, run.stage = .Stored commit_id ∨ run.stage = .Checked commit_id →
    ∃ commit, tables.commits[commit_id]? = some commit ∧ commit.parent = run.head.commit_id
  /-- Once HEAD is compared, nobody else gets attached to an unmoved reference. -/
  alone : ∀ commit_id reference, run.stage = .Checked commit_id →
    run.head.state = .Attached reference → tables.refs[reference]? = run.head.commit_id →
      OnlyAttached tables run.workspace_id reference

structure Invariant (s : System) : Prop where
  sound : Sound s.tables
  in_flight : ∀ run, s.writer = some run → InFlight s.tables run

section InFlight

variable {tables tables' : Tables} {id : WorkspaceId} {run : CommitRun} {commit_id : CommitId}

theorem InFlight.create_workspace (h : InFlight tables run) {root_path : Text}
    (hop : tables.create_workspace id name root_path commit_id = .ok tables') :
    InFlight tables' run := by
  rw [create_workspace_ok hop]
  refine ⟨h.tip, h.stored, ?_⟩
  intro stored reference hstage hstate htip id' other hother hhead
  change (tables.workspaces.insert id _)[id']? = some other at hother
  rw [getElem?_insert_eq] at hother
  split at hother
  · -- the new workspace is detached
    cases hother
    cases hhead
  · exact h.alone stored reference hstage hstate htip id' other hother hhead

theorem InFlight.attach_workspace (h : InFlight tables run)
    (hop : tables.attach_workspace_to_branch id commit_id name = .ok tables') :
    InFlight tables' run := by
  obtain ⟨record, -, -, -, hnone, -, rfl⟩ := attach_workspace_ok hop
  -- the new branch can only be the observed one if that had no Commit
  have hobserved : run.head.state = .Attached name → run.head.commit_id = none := by
    intro hstate
    rcases h.tip name hstate with htip | ⟨hnone, -⟩
    · exact htip ▸ hnone
    · exact hnone
  refine ⟨?_, h.stored, ?_⟩
  · intro reference hstate
    show (tables.refs.insert name commit_id)[reference]? = _ ∨
      (_ ∧ (tables.refs.insert name commit_id)[reference]? ≠ none)
    rw [getElem?_insert_eq]
    by_cases hname : name = reference
    · subst hname
      exact .inr ⟨hobserved hstate, by simp⟩
    · rw [if_neg hname]
      exact h.tip reference hstate
  · intro stored reference hstage hstate htip id' other hother hhead
    change (tables.refs.insert name commit_id)[reference]? = _ at htip
    change (tables.workspaces.insert id _)[id']? = some other at hother
    rw [getElem?_insert_eq] at htip hother
    by_cases hname : name = reference
    · subst hname
      rw [if_pos rfl, hobserved hstate] at htip
      cases htip
    · rw [if_neg hname] at htip
      split at hother
      · cases hother
        exact absurd (HeadState.Attached.inj hhead) hname
      · exact h.alone stored reference hstage hstate htip id' other hother hhead

theorem InFlight.remove_workspace (h : InFlight tables run)
    (hop : tables.remove_workspace id = .ok tables') : InFlight tables' run := by
  rw [remove_workspace_ok hop]
  refine ⟨h.tip, h.stored, ?_⟩
  intro stored reference hstage hstate htip id' other hother hhead
  change (tables.workspaces.erase id)[id']? = some other at hother
  rw [getElem?_erase_eq] at hother
  split at hother
  · cases hother
  · exact h.alone stored reference hstage hstate htip id' other hother hhead

variable {head : RepositoryHead}

theorem current_head_ok (h : tables.current_head id = .ok head) :
    head.commit_id = commit_at tables.refs head.state := by
  simp only [current_head, ok_iff] at h
  obtain ⟨state, -, commit_id, hcommit, rfl⟩ := h
  exact head_commit_ok hcommit

theorem read_head_state_ok (h : tables.read_head_state id = .ok state) :
    ∃ record, tables.workspaces[id]? = some record ∧ record.head.normalize = state := by
  simp only [read_head_state, ok_iff] at h
  obtain ⟨record, hrecord, -, hstate⟩ := h
  exact ⟨record, hrecord, hstate⟩

theorem inFlight_begin (h : tables.current_head id = .ok head) :
    InFlight tables ⟨id, head, .Observed⟩ := by
  refine ⟨?_, ?_, ?_⟩
  · intro reference hstate
    have hcommit := current_head_ok h
    change head.state = _ at hstate
    rw [hstate] at hcommit
    exact .inl hcommit.symm
  · rintro commit_id (hstage | hstage) <;> cases hstage
  · intro commit_id reference hstage
    cases hstage

theorem InFlight.store_commit (h : InFlight tables run)
    (hparent : commit.parent = run.head.commit_id)
    (hop : tables.store_commit blake3 commit = .ok (commit_id, tables')) :
    InFlight tables' { run with stage := .Stored commit_id } := by
  obtain ⟨hrefs, -, hstored, -⟩ := store_commit_ok hop
  refine ⟨?_, ?_, ?_⟩
  · rw [hrefs]
    exact h.tip
  · rintro other (hstage | hstage)
    · cases hstage
      exact ⟨commit, hstored, hparent⟩
    · cases hstage
  · intro other reference hstage
    cases hstage

theorem InFlight.check (h : InFlight tables run) (hsound : Sound tables)
    (hstage : run.stage = .Stored commit_id)
    (hhead : tables.read_head_state run.workspace_id = .ok run.head.state) :
    InFlight tables { run with stage := .Checked commit_id } := by
  refine ⟨h.tip, ?_, ?_⟩
  · rintro other (hother | hother)
    · cases hother
    · cases hother
      exact h.stored commit_id (.inl hstage)
  · -- the calling workspace is attached now, and it is the only one
    intro _ reference' _ hstate' _
    change run.head.state = _ at hstate'
    obtain ⟨record, hrecord, hnormal⟩ := read_head_state_ok hhead
    rw [hsound.normal _ record hrecord, hstate'] at hnormal
    exact hsound.unique run.workspace_id record reference' hrecord hnormal

end InFlight

variable {s s' : System}

theorem Invariant.step (h : Invariant s) (hstep : Step blake3 s s') : Invariant s' := by
  cases hstep with
  | create_workspace hop =>
    exact ⟨h.sound.create_workspace hop, fun run hrun =>
      (h.in_flight run hrun).create_workspace hop⟩
  | attach_workspace hop =>
    exact ⟨h.sound.attach_workspace hop, fun run hrun =>
      (h.in_flight run hrun).attach_workspace hop⟩
  | remove_workspace hop =>
    exact ⟨h.sound.remove_workspace hop, fun run hrun =>
      (h.in_flight run hrun).remove_workspace hop⟩
  | checkout hfree hop =>
    obtain ⟨cas, hcas⟩ := transition_head_ok hop
    refine ⟨h.sound.compare_exchange_head hcas, fun run hrun => ?_⟩
    rw [hfree] at hrun
    cases hrun
  | commit_begin _ hop =>
    refine ⟨h.sound, fun run hrun => ?_⟩
    cases hrun
    exact inFlight_begin hop
  | commit_store hrun _ hparent hop =>
    refine ⟨h.sound.store_commit hop, fun run' hrun' => ?_⟩
    cases hrun'
    exact (h.in_flight _ hrun).store_commit hparent hop
  | commit_check hrun hstage _ hop =>
    refine ⟨h.sound, fun run' hrun' => ?_⟩
    cases hrun'
    exact (h.in_flight _ hrun).check h.sound hstage hop
  | commit_exchange hrun hstage hstate hop =>
    refine ⟨?_, fun run' hrun' => nomatch hrun'⟩
    exact h.sound.compare_exchange_reference ((h.in_flight _ hrun).alone _ _ hstage hstate) hop
  | commit_detached hrun _ _ _ hop =>
    exact ⟨h.sound.compare_exchange_head hop, fun run' hrun' => nomatch hrun'⟩
  | stop => exact ⟨h.sound, fun run' hrun' => nomatch hrun'⟩

theorem Invariant.reaches (h : Invariant s) (hreach : Reaches blake3 s s') : Invariant s' := by
  induction hreach with
  | refl => exact h
  | tail _ hstep ih => exact ih.step hstep

/-! ## Moves of a reference -/

/-- `old` is the Commit itself or one that its parents lead to. -/
inductive IsAncestor (commits : ExtTreeMap CommitId Commit) (old : CommitId) : CommitId → Prop where
  | itself : IsAncestor commits old old
  | parent {parent commit_id : CommitId} {commit : Commit} : IsAncestor commits old parent →
      commits[commit_id]? = some commit → commit.parent = some parent →
      IsAncestor commits old commit_id

theorem IsAncestor.mono {commits commits' : ExtTreeMap CommitId Commit} {old new : CommitId}
    (h : IsAncestor commits old new)
    (hkept : ∀ (id : CommitId) (commit : Commit), commits[id]? = some commit →
      commits'[id]? = some commit) : IsAncestor commits' old new := by
  induction h with
  | itself => exact .itself
  | parent _ hcommit hparent ih => exact .parent ih (hkept _ _ hcommit) hparent

/-- The ways in which the tip of a reference changes. -/
inductive TipMove (s s' : System) (reference : Text) : Prop where
  /-- A workspace creates the branch at its base Commit. -/
  | created {id : WorkspaceId} {record : WorkspaceRecord} {commit_id : CommitId} :
      s.tables.refs[reference]? = none → s'.tables.refs[reference]? = some commit_id →
      s'.tables.workspaces[id]? = some record → record.head = .Attached reference →
      record.base_commit_id = some commit_id → TipMove s s' reference
  /-- A commit replaces the tip that it has observed by a Commit with this parent. -/
  | advanced {run : CommitRun} {commit_id : CommitId} {commit : Commit} : s.writer = some run →
      run.head = ⟨.Attached reference, s.tables.refs[reference]?⟩ →
      s'.tables.refs[reference]? = some commit_id →
      s'.tables.commits[commit_id]? = some commit →
      commit.parent = s.tables.refs[reference]? → TipMove s s' reference

theorem follow_reference_keeps (tables : Tables) (id : WorkspaceId) (name : Text)
    (commit_id : CommitId) :
    (tables.follow_reference id name commit_id).refs = tables.refs ∧
      (tables.follow_reference id name commit_id).commits = tables.commits := by
  unfold follow_reference
  split
  · split <;> exact ⟨rfl, rfl⟩
  · exact ⟨rfl, rfl⟩

theorem compare_exchange_reference_moves {tables tables' : Tables}
    (h : tables.compare_exchange_reference id name expected (some target) = .ok (cas, tables')) :
    tables' = tables ∨ (tables.refs[name]? = expected ∧
      tables'.refs = tables.refs.insert name target ∧ tables'.commits = tables.commits) := by
  rcases compare_exchange_reference_ok h with hsame | ⟨htip, rfl⟩
  · exact .inl hsame
  · exact .inr ⟨htip, follow_reference_keeps _ id name target⟩

theorem compare_exchange_head_keeps {tables tables' : Tables} {expected new_state : HeadState}
    {cas : HeadCas} (h : tables.compare_exchange_head id expected new_state = .ok (cas, tables')) :
    tables'.refs = tables.refs ∧ tables'.commits = tables.commits := by
  rcases compare_exchange_head_ok h with rfl | ⟨_, _, _, _, _, rfl⟩ <;> exact ⟨rfl, rfl⟩

theorem Step.commits_kept (hstep : Step blake3 s s') {id : CommitId}
    (h : s.tables.commits[id]? = some commit) : s'.tables.commits[id]? = some commit := by
  cases hstep with
  | create_workspace hop => rw [create_workspace_ok hop]; exact h
  | attach_workspace hop => obtain ⟨_, _, _, _, _, _, rfl⟩ := attach_workspace_ok hop; exact h
  | remove_workspace hop => rw [remove_workspace_ok hop]; exact h
  | checkout _ hop =>
    obtain ⟨cas, hcas⟩ := transition_head_ok hop
    exact (compare_exchange_head_keeps hcas).2 ▸ h
  | commit_begin => exact h
  | commit_store _ _ _ hop => exact (store_commit_ok hop).2.2.2 _ _ h
  | commit_check => exact h
  | commit_exchange _ _ _ hop =>
    rcases compare_exchange_reference_moves hop with rfl | ⟨_, _, hcommits⟩
    · exact h
    · exact hcommits ▸ h
  | commit_detached _ _ _ _ hop => exact (compare_exchange_head_keeps hop).2 ▸ h
  | stop => exact h

theorem TipMove.of_attach {commit_id : CommitId}
    (hop : s.tables.attach_workspace_to_branch id commit_id name = .ok tables)
    (hmoved : tables.refs[reference]? ≠ s.tables.refs[reference]?) :
    TipMove s { s with tables } reference := by
  obtain ⟨record, -, hbase, -, hnone, -, rfl⟩ := attach_workspace_ok hop
  change (s.tables.refs.insert name commit_id)[reference]? ≠ _ at hmoved
  rw [getElem?_insert_eq] at hmoved
  by_cases hname : name = reference
  · subst hname
    refine @TipMove.created s _ name id ⟨record.name, record.root_path, .Attached name,
      record.base_commit_id⟩ commit_id hnone ?_ ?_ rfl hbase
    · show (s.tables.refs.insert name commit_id)[name]? = _
      rw [getElem?_insert_eq, if_pos rfl]
    · show (s.tables.workspaces.insert id _)[id]? = _
      rw [getElem?_insert_eq, if_pos rfl]
  · rw [if_neg hname] at hmoved
    exact absurd rfl hmoved

theorem TipMove.of_exchange {run : CommitRun} {commit_id : CommitId} (h : InFlight s.tables run)
    (hrun : s.writer = some run) (hstage : run.stage = .Checked commit_id)
    (hstate : run.head.state = .Attached name)
    (hop : s.tables.compare_exchange_reference run.workspace_id name run.head.commit_id
      (some commit_id) = .ok (cas, tables))
    (hmoved : tables.refs[reference]? ≠ s.tables.refs[reference]?) :
    TipMove s ⟨tables, none⟩ reference := by
  rcases compare_exchange_reference_moves hop with rfl | ⟨htip, hrefs, hcommits⟩
  · exact absurd rfl hmoved
  rw [hrefs, getElem?_insert_eq] at hmoved
  by_cases hname : name = reference
  · subst hname
    obtain ⟨commit, hcommit, hparent⟩ := h.stored commit_id (.inr hstage)
    have hhead : run.head = ⟨.Attached name, s.tables.refs[name]?⟩ := by
      rw [htip, ← hstate]
    have hnew : tables.refs[name]? = some commit_id := by
      rw [hrefs, getElem?_insert_eq, if_pos rfl]
    exact .advanced hrun hhead hnew (hcommits ▸ hcommit) (hparent.trans htip.symm)
  · rw [if_neg hname] at hmoved
    exact absurd rfl hmoved

/-- A step that changes a tip is one of the two moves. -/
theorem Invariant.tip_move (h : Invariant s) (hstep : Step blake3 s s')
    (hmoved : s'.tables.refs[reference]? ≠ s.tables.refs[reference]?) : TipMove s s' reference := by
  cases hstep with
  | create_workspace hop => rw [create_workspace_ok hop] at hmoved; exact absurd rfl hmoved
  | attach_workspace hop => exact .of_attach hop hmoved
  | remove_workspace hop => rw [remove_workspace_ok hop] at hmoved; exact absurd rfl hmoved
  | checkout _ hop =>
    obtain ⟨cas, hcas⟩ := transition_head_ok hop
    rw [(compare_exchange_head_keeps hcas).1] at hmoved
    exact absurd rfl hmoved
  | commit_begin => exact absurd rfl hmoved
  | commit_store _ _ _ hop => rw [(store_commit_ok hop).1] at hmoved; exact absurd rfl hmoved
  | commit_check => exact absurd rfl hmoved
  | commit_exchange hrun hstage hstate hop =>
    exact .of_exchange (h.in_flight _ hrun) hrun hstage hstate hop hmoved
  | commit_detached _ _ _ _ hop =>
    rw [(compare_exchange_head_keeps hop).1] at hmoved
    exact absurd rfl hmoved
  | stop => exact absurd rfl hmoved

/-- A tip stays an ancestor of the later tips of its reference. -/
theorem Invariant.tip_kept (h : Invariant s) (hreach : Reaches blake3 s s') {tip : CommitId}
    (htip : s.tables.refs[reference]? = some tip) :
    ∃ tip', s'.tables.refs[reference]? = some tip' ∧ IsAncestor s'.tables.commits tip tip' := by
  induction hreach with
  | refl => exact ⟨tip, htip, .itself⟩
  | @tail t t' hreach hstep ih =>
    obtain ⟨last, hlast, hancestor⟩ := ih
    have hancestor' : IsAncestor t'.tables.commits tip last :=
      hancestor.mono fun _ _ => hstep.commits_kept
    by_cases hsame : t'.tables.refs[reference]? = t.tables.refs[reference]?
    · exact ⟨last, hsame.trans hlast, hancestor'⟩
    · cases (h.reaches hreach).tip_move hstep hsame with
      | created hnone =>
        rw [hlast] at hnone
        cases hnone
      | advanced _ _ htip' hcommit hparent =>
        exact ⟨_, htip', .parent hancestor' hcommit (hparent.trans hlast)⟩

/-! ## Authority -/

theorem invariant_init (h : init_tables head_reference = .ok tables) : Invariant ⟨tables, none⟩ :=
  ⟨sound_init h, fun _ hrun => nomatch hrun⟩

/-- In every state reached from a new repository, the base Commit of a workspace is where its HEAD
is, no reference has two workspaces, and references only move on. -/
theorem head_authority {head_reference : Text} {tables : Tables} {s : System}
    (hinit : init_tables head_reference = .ok tables) (hreach : Reaches blake3 ⟨tables, none⟩ s) :
    (∀ (id : WorkspaceId) (record : WorkspaceRecord) (reference : Text),
      s.tables.workspaces[id]? = some record → record.head = .Attached reference →
        record.base_commit_id = s.tables.refs[reference]?) ∧
    (∀ (id : WorkspaceId) (record : WorkspaceRecord) (commit_id : CommitId),
      s.tables.workspaces[id]? = some record → record.head = .Detached commit_id →
        record.base_commit_id = some commit_id) ∧
    (∀ (id id' : WorkspaceId) (record record' : WorkspaceRecord) (reference : Text),
      s.tables.workspaces[id]? = some record → s.tables.workspaces[id']? = some record' →
        record.head = .Attached reference → record'.head = .Attached reference → id' = id) ∧
    (∀ (s' : System) (reference : Text), Step blake3 s s' →
      s'.tables.refs[reference]? ≠ s.tables.refs[reference]? → TipMove s s' reference) ∧
    (∀ (s' : System) (reference : Text) (tip : CommitId), Reaches blake3 s s' →
      s.tables.refs[reference]? = some tip → ∃ tip', s'.tables.refs[reference]? = some tip' ∧
        IsAncestor s'.tables.commits tip tip') := by
  have h : Invariant s := (invariant_init hinit).reaches hreach
  refine ⟨?_, ?_, ?_, ?_, ?_⟩
  · intro id record reference hrecord hhead
    have hbase := h.sound.base id record hrecord
    rwa [BaseMatches, hhead] at hbase
  · intro id record commit_id hrecord hhead
    have hbase := h.sound.base id record hrecord
    rwa [BaseMatches, hhead] at hbase
  · intro id id' record record' reference hrecord hrecord' hhead hhead'
    exact h.sound.unique id record reference hrecord hhead id' record' hrecord' hhead'
  · exact fun s' reference hstep hmoved => h.tip_move hstep hmoved
  · exact fun s' reference tip hlater htip => h.tip_kept hlater htip

def main_reference : Text := "refs/heads/main".toList

def main_record (base_commit_id : Option CommitId) : WorkspaceRecord :=
  ⟨"main".toList, ".".toList, .Attached main_reference, base_commit_id⟩

def main_tables : Tables :=
  ⟨∅, ∅, (∅ : ExtTreeMap WorkspaceId WorkspaceRecord).insert DEFAULT_WORKSPACE_ID
    (main_record none)⟩

def first_commit : Commit := ⟨⟨digest_of_nat 7⟩, none, "first".toList, 0⟩

theorem validate_main : validate_reference_name main_reference = .ok () := by decide +kernel

theorem init_main : init_tables main_reference = .ok main_tables := by
  rw [init_tables, validate_main]
  rfl

theorem main_workspace : main_tables.workspaces[DEFAULT_WORKSPACE_ID]? =
    some (main_record none) := by
  simp [main_tables]

theorem read_main : main_tables.read_head_state DEFAULT_WORKSPACE_ID =
    .ok (.Attached main_reference) := by
  have hstate : (main_record none).head.normalize = .Attached main_reference :=
    congrArg HeadState.Attached (trim_of_validate validate_main)
  simp only [read_head_state, ok_iff]
  refine ⟨main_record none, main_workspace, ?_, hstate⟩
  rw [hstate]
  exact validate_main

theorem current_main :
    main_tables.current_head DEFAULT_WORKSPACE_ID = .ok ⟨.Attached main_reference, none⟩ := by
  simp only [current_head, ok_iff]
  refine ⟨_, read_main, none, ?_, rfl⟩
  simp only [head_commit, get_reference, ok_iff]
  exact ⟨validate_main, rfl⟩

/-- The first commit of a new repository, step by step. -/
theorem main_reaches : ∃ (commit_id : CommitId) (tables : Tables),
    Reaches poly_hash ⟨main_tables, none⟩ ⟨tables, none⟩ ∧
      tables.workspaces[DEFAULT_WORKSPACE_ID]? = some (main_record (some commit_id)) := by
  have hvalid : of_core first_commit.validate = .ok () := by decide +kernel
  obtain ⟨id, hid⟩ : ∃ id, of_core (commit_id poly_hash first_commit) = .ok id :=
    exists_ok_iff.mpr (by decide +kernel)
  let stored : Tables := { main_tables with commits := main_tables.commits.insert id first_commit }
  have hstore : main_tables.store_commit poly_hash first_commit = .ok (id, stored) := by
    simp only [Tables.store_commit, ok_iff]
    exact ⟨hvalid, id, hid, rfl⟩
  let moved : Tables := Tables.follow_reference
    { stored with refs := stored.refs.insert main_reference id }
    DEFAULT_WORKSPACE_ID main_reference id
  have hexchange : stored.compare_exchange_reference DEFAULT_WORKSPACE_ID main_reference none
      (some id) = .ok (.Updated, moved) := by
    rw [Tables.compare_exchange_reference, Tables.get_reference, validate_main]
    rfl
  refine ⟨id, moved, ?_, ?_⟩
  · let run (stage : CommitStage) : CommitRun :=
      ⟨DEFAULT_WORKSPACE_ID, ⟨.Attached main_reference, none⟩, stage⟩
    have hbegin : Step poly_hash ⟨main_tables, none⟩ ⟨main_tables, some (run .Observed)⟩ :=
      .commit_begin rfl current_main
    have hstored : Step poly_hash ⟨main_tables, some (run .Observed)⟩
        ⟨stored, some (run (.Stored id))⟩ :=
      @Step.commit_store _ ⟨main_tables, _⟩ (run .Observed) _ _ _ rfl rfl rfl hstore
    have hchecked : Step poly_hash ⟨stored, some (run (.Stored id))⟩
        ⟨stored, some (run (.Checked id))⟩ :=
      @Step.commit_check _ ⟨stored, _⟩ (run (.Stored id)) _ _ rfl rfl rfl read_main
    have hexchanged : Step poly_hash ⟨stored, some (run (.Checked id))⟩ ⟨moved, none⟩ :=
      .commit_exchange rfl rfl rfl hexchange
    exact (((Relation.ReflTransGen.single hbegin).tail hstored).tail hchecked).tail hexchanged
  · have hrecord : stored.workspaces[DEFAULT_WORKSPACE_ID]? = some (main_record none) :=
      main_workspace
    show (Tables.follow_reference _ _ _ _).workspaces[DEFAULT_WORKSPACE_ID]? = _
    have hhead : (main_record none).head = .Attached main_reference := rfl
    simp only [Tables.follow_reference, hrecord, if_pos hhead, Tables.set_workspace]
    rw [getElem?_insert_eq, if_pos rfl]
    rfl

theorem head_authority_first_commit : ∃ (commit_id : CommitId) (s : System),
    init_tables main_reference = .ok main_tables ∧ Reaches poly_hash ⟨main_tables, none⟩ s ∧
    s.tables.workspaces[DEFAULT_WORKSPACE_ID]? = some (main_record (some commit_id)) ∧
    some commit_id = s.tables.refs[main_reference]? := by
  obtain ⟨commit_id, tables, hreach, hrecord⟩ := main_reaches
  exact ⟨commit_id, ⟨tables, none⟩, init_main, hreach, hrecord,
    (head_authority init_main hreach).1 DEFAULT_WORKSPACE_ID _ main_reference hrecord rfl⟩

end NeoEngram.Local.Registry
