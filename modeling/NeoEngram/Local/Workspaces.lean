import NeoEngram.Local.IndexTable

/-! # Workspaces, HEAD and references

A repository has any number of workspaces over one database. A workspace row
has a HEAD, attached to a reference or detached at a Commit, and the base
Commit that its Index started from. This file embeds the operations of
`metadata/sqlite.rs` on the tables `workspaces` and `refs`, and the two that
move HEAD: `advance_head` of a commit and `transition_head` of a checkout
(`repository/history.rs`). Every operation is one SQLite transaction; the
constraints of the schema are checks of the operations that could violate
them.
-/

namespace NeoEngram.Local.Registry

open Checks
open Std (ExtTreeMap)

/-! ## The tables -/

structure WorkspaceRecord where
  (name root_path : Text)
  head : HeadState
  base_commit_id : Option CommitId
  deriving DecidableEq

structure Tables where
  commits : ExtTreeMap CommitId Commit
  refs : TextMap CommitId
  workspaces : ExtTreeMap WorkspaceId WorkspaceRecord

def DEFAULT_WORKSPACE_ID : WorkspaceId := 0

/-- The repository right after `initialize`: one workspace, on a branch without a Commit. -/
def init_tables (head_reference : Text) : Result Tables := do
  validate_reference_name head_reference
  let main : WorkspaceRecord := ⟨"main".toList, ".".toList, .Attached head_reference, none⟩
  return ⟨∅, ∅, (∅ : ExtTreeMap WorkspaceId WorkspaceRecord).insert DEFAULT_WORKSPACE_ID main⟩

def is_control (c : Char) : Bool := c ≤ '\u001f' || ('\u007f' ≤ c && c ≤ '\u009f')

def validate_workspace_name (name : Text) : Result Unit := do
  ensure (name = trim name) ["Workspace 名称不能包含首尾空白"]
  ensure (name ≠ []) ["Workspace 名称不能为空"]
  ensure (name ≠ ['.'] ∧ name ≠ ['.', '.']) [s!"Workspace 名称无效: {String.ofList name}"]
  ensure (name.any (fun c => is_control c || c = '/' || c = '\\') = false)
    [s!"Workspace 名称包含非法字符: {String.ofList name}"]

def validate_workspace_root_path (path : Text) : Result Unit := do
  ensure (path = trim path) ["Workspace 路径不能包含首尾空白"]
  ensure (path ≠ []) ["Workspace 路径不能为空"]
  ensure (path.any is_control = false) ["Workspace 路径包含控制字符"]

def validate_workspace_record (record : WorkspaceRecord) : Result Unit := do
  validate_workspace_name record.name
  validate_workspace_root_path record.root_path
  record.head.validate
  match record.head with
  | .Attached _ => .ok ()
  | .Detached commit_id =>
    ensure (record.base_commit_id = some commit_id) ["Detached Workspace 的 HEAD 与 base Commit 不一致"]

inductive HeadCas where
  | Updated
  | Mismatch (actual : HeadState)
  deriving DecidableEq

inductive ReferenceCas where
  | Updated
  | Mismatch (actual : Option CommitId)
  deriving DecidableEq

namespace Tables

section

variable (self : Tables) (id : WorkspaceId)

/-- The workspace other than `id` that is attached to the reference. -/
def owner (reference : Text) : Option (WorkspaceId × WorkspaceRecord) :=
  self.workspaces.toList.find? fun row => row.1 ≠ id ∧ row.2.head = .Attached reference

def get_reference (self : Tables) (name : Text) : Result (Option CommitId) := do
  validate_reference_name name
  return self.refs[name]?

def read_head_state : Result HeadState := do
  let record ← ok_or self.workspaces[id]? ["无法读取 SQLite HEAD 状态", "Query returned no rows"]
  let state := record.head.normalize
  state.validate
  return state

def set_workspace (record : WorkspaceRecord) : Tables :=
  { self with workspaces := self.workspaces.insert id record }

/-! ## Registry operations -/

/-- `id` is the random id that SQLite makes for the new row. -/
def create_workspace (name root_path : Text)
    (commit_id : CommitId) : Result Tables := do
  validate_workspace_name name
  validate_workspace_root_path root_path
  ensure (self.commits.contains commit_id) [s!"Workspace base Commit 不存在: {commit_id}"]
  ensure (self.workspaces[id]? = none ∧ ∀ row ∈ self.workspaces.toList,
      row.2.name ≠ name ∧ row.2.root_path ≠ root_path)
    [s!"无法注册 Workspace: {String.ofList name}", "UNIQUE constraint failed"]
  return self.set_workspace id ⟨name, root_path, .Detached commit_id, some commit_id⟩

def attach_workspace_to_branch (expected_commit_id : CommitId)
    (reference : Text) : Result Tables := do
  validate_reference_name reference
  ensure (self.commits.contains expected_commit_id)
    [s!"Workspace base Commit 不存在: {expected_commit_id}"]
  let record ← ok_or self.workspaces[id]? ["待激活的 Workspace 注册信息不存在"]
  validate_workspace_record record
  ensure (record.head = .Detached expected_commit_id ∧
      record.base_commit_id = some expected_commit_id)
    [s!"Workspace 在分支激活前发生变化: {String.ofList record.name}"]
  ensure (self.refs[reference]? = none) [s!"分支已存在，不能作为新 Workspace 分支创建: {String.ofList reference}"]
  if let some (_, owner) := self.owner id reference then
    throw [s!"分支 {String.ofList reference} 已被 Workspace {String.ofList owner.name} 占用"]
  let attached := { self with refs := self.refs.insert reference expected_commit_id }
  return attached.set_workspace id { record with head := .Attached reference }

def remove_workspace : Result Tables := do
  ensure (id ≠ DEFAULT_WORKSPACE_ID) ["不能删除默认 Workspace"]
  return { self with workspaces := self.workspaces.erase id }

/-! ## HEAD and references -/

def head_commit (self : Tables) : HeadState → Result (Option CommitId)
  | .Attached reference => self.get_reference reference
  | .Detached commit_id => .ok (some commit_id)

/-- The schema keeps a reference from being attached twice. -/
def check_unattached : HeadState → Result Unit
  | .Attached reference =>
    ensure (self.owner id reference = none) ["UNIQUE constraint failed: workspaces.head_target"]
  | .Detached _ => .ok ()

def compare_exchange_head (expected new_state : HeadState) : Result (HeadCas × Tables) := do
  let expected := expected.normalize
  let new_state := new_state.normalize
  expected.validate
  new_state.validate
  let actual ← self.read_head_state id
  if actual.normalize ≠ expected then
    return (.Mismatch actual.normalize, self)
  else
    let base_commit_id ← self.head_commit new_state
    self.check_unattached id new_state
    let record ← ok_or self.workspaces[id]? ["无法读取 SQLite HEAD 状态", "Query returned no rows"]
    return (.Updated, self.set_workspace id { record with head := new_state, base_commit_id })

/-- The base Commit of the calling workspace follows the reference, if it is attached to it. -/
def follow_reference (name : Text) (target : CommitId) : Tables :=
  match self.workspaces[id]? with
  | some record =>
    if record.head = .Attached name then
      self.set_workspace id { record with base_commit_id := some target }
    else self
  | none => self

def compare_exchange_reference (name : Text)
    (expected new_target : Option CommitId) : Result (ReferenceCas × Tables) := do
  let actual ← self.get_reference name
  if actual ≠ expected then
    return (.Mismatch actual, self)
  else
    match new_target with
    | some target =>
      let moved := { self with refs := self.refs.insert name target }
      return (.Updated, moved.follow_reference id name target)
    | none => return (.Updated, { self with refs := self.refs.erase name })

def current_head : Result RepositoryHead := do
  let state ← self.read_head_state id
  let commit_id ← self.head_commit state
  return ⟨state, commit_id⟩

def store_commit (blake3 : Blake3) (self : Tables) (commit : Commit) :
    Result (CommitId × Tables) := do
  of_core commit.validate
  let id ← of_core (commit_id blake3 commit)
  match self.commits[id]? with
  | some existing =>
    ensure (existing = commit) ["同一 Commit ID 已存在不同内容"]
    return (id, self)
  | none => return (id, { self with commits := self.commits.insert id commit })

/-- Switches HEAD; HEAD at the target already is a success as well. -/
def transition_head (expected target : HeadState) : Result Tables := do
  match ← self.compare_exchange_head id expected target with
  | (.Updated, tables) => return tables
  | (.Mismatch actual, tables) =>
    ensure (actual = target) ["HEAD 状态与 Checkout 事务不一致，拒绝覆盖"]
    return tables

end

end Tables

end NeoEngram.Local.Registry
