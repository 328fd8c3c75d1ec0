import NeoEngram.Core.Canonical
import NeoEngram.Core.Files
import NeoEngram.Framework.Trees
import Mathlib.Data.Sum.Order

/-! # The inventory of a managed tree

The lifecycle executor walks a directory tree before it moves or deletes it,
refuses entries that are not ordinary files and directories with canonical
names, and reports counts and a digest (`scan_tree`). `scan_tree_eq_ok`: when
the walk succeeds, and that it reports exactly the `listing` of the tree.
-/

namespace NeoEngram.Agent

open Checks OrderedKeys Framing List UInt64
open Trees (Node Tree)

/-! ## Errors, names and entries -/

inductive AgentErrorCode where
  | AssignmentMismatch
  | AssignmentNotFound
  | ExecutionFailed
  | GenerationMismatch
  | InvalidAssignment
  | InvalidState
  | MountUnavailable
  | ObjectTransferFailed
  | ProtocolInvalid
  | ScopeMismatch
  deriving DecidableEq, Repr

structure AgentError where
  code : AgentErrorCode
  message : String
  deriving DecidableEq, Repr

abbrev AgentResult (α : Type) := Except AgentError α

def lifecycle_error (message : String) : AgentError := ⟨.ExecutionFailed, message⟩

def lifecycle_state_error (message : String) : AgentError := ⟨.InvalidState, message⟩

def scope_mismatch (message : String) : AgentError := ⟨.ScopeMismatch, message⟩

/-- A name that the operating system gives: UTF-8 text, or bytes that are not UTF-8. -/
inductive FileName where
  | utf8 (name : Text)
  | raw (bytes : Bytes)
  deriving DecidableEq

def FileName.as_sum : FileName → Text ⊕ₗ List Nat
  | .utf8 name => toLex (.inl name)
  | .raw bytes => toLex (.inr (bytes.map UInt8.toNat))

theorem FileName.as_sum_injective : Function.Injective FileName.as_sum := by
  intro a b h
  cases a with
  | utf8 name =>
    cases b with
    | utf8 name' => exact congrArg FileName.utf8 (Sum.inl.inj (toLex.injective h))
    | raw bytes' => cases toLex.injective h
  | raw bytes =>
    cases b with
    | utf8 name' => cases toLex.injective h
    | raw bytes' =>
      have hbytes := Sum.inr.inj (toLex.injective h)
      exact congrArg FileName.raw (map_injective_iff.mpr (fun _ _ => UInt8.toNat_inj.mp) hbytes)

instance : LinearOrder FileName := LinearOrder.lift' FileName.as_sum FileName.as_sum_injective

/-- What a directory entry can be besides a directory. -/
inductive Leaf where
  | file (content : FileContent)
  | symlink
  | special

/-- The entries of a directory in the order of their names. -/
abbrev Directory := Tree FileName Leaf

abbrev Entry := Node FileName Leaf

/-! ## The walk -/

/-- A line of the inventory: the relative path, whether it is a directory, and the size. -/
abbrev Record := Text × Bool × UInt64

structure TreeEvidence where
  (file_count object_count byte_count : UInt64)
  object_set_digest : ContentDigest
  deriving DecidableEq

/-- The variables of the walk. -/
structure Inventory where
  (files objects bytes : UInt64)
  entries : List Record

variable (U : UnicodeTables)

def relative_path (lead name : Text) : Text :=
  if lead = [] then name else lead ++ '/' :: name

/-- The checks of a name below the directory `lead`. -/
def scan_name (lead : Text) : FileName → AgentResult Text
  | .raw _ => throw (scope_mismatch "managed resource contains a non-UTF-8 path")
  | .utf8 name => do
    let relative := relative_path lead name
    let _ ← (LogicalPath.parse U relative).mapError fun error => scope_mismatch
      s!"managed resource contains a non-canonical path: {error.message}"
    return relative

def count_object (count_as_objects : Bool) (objects : UInt64) : AgentResult UInt64 :=
  if count_as_objects then
    ok_or (checked_add objects 1) (lifecycle_error "lifecycle object count exceeds u64")
  else return objects

def scan_entry (count_as_objects : Bool) (inventory : Inventory) (relative : Text) :
    Entry → AgentResult Inventory
  | .branch _ => return { inventory with entries := inventory.entries ++ [(relative, true, 0)] }
  | .leaf .symlink => throw (scope_mismatch "managed resource contains a symlink")
  | .leaf .special =>
    throw (scope_mismatch "managed resource contains a special filesystem entry")
  | .leaf (.file content) => do
    let files ← ok_or (checked_add inventory.files 1)
      (lifecycle_error "lifecycle file count exceeds u64")
    let objects ← count_object count_as_objects inventory.objects
    let bytes ← ok_or (checked_add inventory.bytes content.len)
      (lifecycle_error "lifecycle byte count exceeds u64")
    return ⟨files, objects, bytes, inventory.entries ++ [(relative, false, content.len)]⟩

/-- A directory is pushed onto the stack of those still to be read. -/
def push_directory (relative : Text) (stack : List (Directory × Text)) :
    Entry → List (Directory × Text)
  | .branch directory => (directory, relative) :: stack
  | .leaf _ => stack

/-- The loop over the entries of one directory. -/
def scan_entries (count_as_objects : Bool) (lead : Text) :
    Directory → Inventory → List (Directory × Text) →
      AgentResult (Inventory × List (Directory × Text))
  | .nil, inventory, stack => return (inventory, stack)
  | .cons name entry rest, inventory, stack => do
    let relative ← scan_name U lead name
    let inventory ← scan_entry count_as_objects inventory relative entry
    scan_entries count_as_objects lead rest inventory (push_directory relative stack entry)

/-- The loop over the stack; a round reads one directory. -/
def scan_stack (count_as_objects : Bool) :
    Nat → Inventory → List (Directory × Text) → AgentResult Inventory
  | 0, inventory, _ => return inventory
  | _ + 1, inventory, [] => return inventory
  | rounds + 1, inventory, (directory, lead) :: stack => do
    let (inventory, stack) ← scan_entries U count_as_objects lead directory inventory stack
    scan_stack count_as_objects rounds inventory stack

def inventory_record (record : Record) : Bytes :=
  (if record.2.1 then utf8 ['d'] else utf8 ['f']) ++ framed u64_be (utf8 record.1) ++
    u64_be record.2.2

variable {U}

def inventory_digest (blake3 : Blake3) (logical_root : LogicalPath U) (inventory : List Record) :
    ContentDigest :=
  blake3 (utf8 "neoengram.lifecycle.inventory.v1\x00".toList ++ utf8 logical_root.text ++ [0] ++
    inventory.flatMap inventory_record)

def is_object_root (logical_root : LogicalPath U) : Bool :=
  logical_root.text = "objects".toList ∨ "objects/".toList.isPrefixOf logical_root.text

/-- The inventory of a tree; every directory of the tree takes one round. -/
def scan_tree (blake3 : Blake3) (entry : Entry) (logical_root : LogicalPath U) :
    AgentResult TreeEvidence :=
  match entry with
  | .leaf _ => throw (scope_mismatch "lifecycle inventory root is not an ordinary directory")
  | .branch directory => do
    let inventory ← scan_stack U (is_object_root logical_root) directory.post_order.length
      ⟨0, 0, 0, []⟩ [(directory, [])]
    return ⟨inventory.files, inventory.objects, inventory.bytes,
      inventory_digest blake3 logical_root (sort_by_key Prod.fst inventory.entries)⟩

/-! ## What the inventory is of -/

def FileName.text : FileName → Text
  | .utf8 name => name
  | .raw _ => []

def relative_of (lead : Text) (name : FileName) : Text := relative_path lead name.text

mutual

/-- The lines of an entry: its own line, and the lines of all that is below it. -/
def entry_listing (relative : Text) : Entry → List Record
  | .branch directory => (relative, true, 0) :: directory_listing relative directory
  | .leaf (.file content) => [(relative, false, content.len)]
  | .leaf .symlink => []
  | .leaf .special => []

def directory_listing (lead : Text) : Directory → List Record
  | .nil => []
  | .cons name entry rest =>
    entry_listing (relative_of lead name) entry ++ directory_listing lead rest

end

def file_total (inventory : List Record) : Nat := inventory.countP fun record => !record.2.1

def byte_total (inventory : List Record) : Nat := (inventory.map fun record => record.2.2.toNat).sum

/-- The counters of the walk hold the totals. -/
def Fits (inventory : List Record) : Prop :=
  file_total inventory < 2 ^ 64 ∧ byte_total inventory < 2 ^ 64

/-- The name is text, and the path that it gives is a logical path. -/
def CanonicalName (U : UnicodeTables) (lead : Text) (name : FileName) : Prop :=
  (∃ text, name = .utf8 text) ∧ validate_logical_path U (relative_of lead name) = .ok ()

mutual

def EntryScannable (U : UnicodeTables) (relative : Text) : Entry → Prop
  | .branch directory => Scannable U relative directory
  | .leaf (.file _) => True
  | .leaf .symlink => False
  | .leaf .special => False

/-- All names are canonical and all entries are files and directories. -/
def Scannable (U : UnicodeTables) (lead : Text) : Directory → Prop
  | .nil => True
  | .cons name entry rest => CanonicalName U lead name ∧
      EntryScannable U (relative_of lead name) entry ∧ Scannable U lead rest

end

/-- What a walk reports that has found these lines. -/
def evidence_of (blake3 : Blake3) (logical_root : LogicalPath U) (inventory : List Record) :
    TreeEvidence :=
  let files := UInt64.ofNat (file_total inventory)
  ⟨files, if is_object_root logical_root then files else 0, UInt64.ofNat (byte_total inventory),
    inventory_digest blake3 logical_root (sort_by_key Prod.fst inventory)⟩

/-! ## One directory -/

/-- The variables of the walk after these lines. -/
def inventory_of (count_as_objects : Bool) (inventory : List Record) : Inventory :=
  let files := UInt64.ofNat (file_total inventory)
  ⟨files, if count_as_objects then files else 0, UInt64.ofNat (byte_total inventory), inventory⟩

def entry_record (relative : Text) : Entry → Record
  | .branch _ => (relative, true, 0)
  | .leaf (.file content) => (relative, false, content.len)
  | .leaf _ => (relative, false, 0)

def IsOrdinary : Entry → Prop
  | .branch _ => True
  | .leaf (.file _) => True
  | .leaf .symlink => False
  | .leaf .special => False

def row (lead : Text) : Directory → List Record
  | .nil => []
  | .cons name entry rest => entry_record (relative_of lead name) entry :: row lead rest

def RowScannable (U : UnicodeTables) (lead : Text) : Directory → Prop
  | .nil => True
  | .cons name entry rest => CanonicalName U lead name ∧ IsOrdinary entry ∧ RowScannable U lead rest

def subdirectories (lead : Text) : Directory → List (Directory × Text)
  | .nil => []
  | .cons name entry rest => push_directory (relative_of lead name) (subdirectories lead rest) entry

theorem scan_name_eq_ok {lead relative : Text} {name : FileName} :
    scan_name U lead name = .ok relative ↔
      CanonicalName U lead name ∧ relative = relative_of lead name := by
  cases name with
  | raw bytes =>
    simp only [scan_name, CanonicalName]
    constructor
    · intro h
      cases h
    · rintro ⟨⟨⟨text, htext⟩, -⟩, -⟩
      cases htext
  | utf8 name =>
    simp only [scan_name, CanonicalName, ok_iff, mapError_eq_ok, LogicalPath.parse_eq_ok]
    constructor
    · rintro ⟨path, htext, rfl⟩
      have hvalid := path.valid
      rw [htext] at hvalid
      exact ⟨⟨⟨name, rfl⟩, hvalid⟩, rfl⟩
    · rintro ⟨⟨-, hvalid⟩, rfl⟩
      exact ⟨⟨_, hvalid⟩, rfl, rfl⟩

@[simp] theorem file_total_append (l r : List Record) :
    file_total (l ++ r) = file_total l + file_total r := by
  simp [file_total]

@[simp] theorem byte_total_append (l r : List Record) :
    byte_total (l ++ r) = byte_total l + byte_total r := by
  simp [byte_total]

variable {l : List Record}

theorem Fits.of_append {r : List Record} (h : Fits (l ++ r)) : Fits l := by
  simp only [Fits, file_total_append, byte_total_append] at h
  exact ⟨by omega, by omega⟩

theorem checked_add_ofNat {n : Nat} {a b : UInt64} (h : n < 2 ^ 64) :
    checked_add (UInt64.ofNat n) a = some b ↔ n + a.toNat < 2 ^ 64 ∧
      b = UInt64.ofNat (n + a.toNat) := by
  rw [checked_add_eq_some, toNat_ofNat_of_lt' h]
  constructor
  · intro hsum
    have hlt : n + a.toNat < 2 ^ 64 := by
      have := b.toNat_lt
      omega
    exact ⟨hlt, UInt64.toNat_inj.mp (by rw [toNat_ofNat_of_lt' hlt, hsum])⟩
  · rintro ⟨hlt, rfl⟩
    rw [toNat_ofNat_of_lt' hlt]

variable {count_as_objects : Bool} {inventory : Inventory}

theorem count_object_eq_ok {n : Nat} {objects : UInt64} (h : n + 1 < 2 ^ 64) :
    count_object count_as_objects (if count_as_objects then UInt64.ofNat n else 0) = .ok objects ↔
      objects = if count_as_objects then UInt64.ofNat (n + 1) else 0 := by
  cases count_as_objects with
  | false =>
    simp only [count_object, Bool.false_eq_true, if_false, pure_eq_ok]
    exact eq_comm
  | true =>
    simp only [count_object, if_true, ok_or_eq_ok, checked_add_ofNat (Nat.lt_of_succ_lt h)]
    exact ⟨fun hadd => hadd.2, fun hobjects => ⟨h, hobjects⟩⟩

theorem scan_entry_eq_ok {relative : Text} {entry : Entry} (h : Fits l) :
    scan_entry count_as_objects (inventory_of count_as_objects l) relative entry = .ok inventory ↔
      IsOrdinary entry ∧ Fits (l ++ [entry_record relative entry]) ∧
        inventory = inventory_of count_as_objects (l ++ [entry_record relative entry]) := by
  cases entry with
  | branch directory =>
    have hfits : Fits (l ++ [(relative, true, 0)]) := by
      simpa [Fits, file_total, byte_total] using h
    simp only [scan_entry, pure_eq_ok, IsOrdinary, entry_record, hfits, true_and]
    constructor
    · rintro rfl
      simp [inventory_of, file_total, byte_total]
    · rintro rfl
      simp [inventory_of, file_total, byte_total]
  | leaf leaf =>
    cases leaf with
    | symlink => simp [scan_entry, IsOrdinary]
    | special => simp [scan_entry, IsOrdinary]
    | file content =>
      have hfiles : file_total (l ++ [(relative, false, content.len)]) = file_total l + 1 := by
        simp [file_total]
      have hbytes : byte_total (l ++ [(relative, false, content.len)]) =
          byte_total l + content.len.toNat := by
        simp [byte_total]
      simp only [scan_entry, ok_iff, IsOrdinary, entry_record, true_and, inventory_of, Fits, hfiles,
        hbytes, checked_add_ofNat h.1, checked_add_ofNat h.2]
      constructor
      · rintro ⟨files, ⟨hlt, rfl⟩, objects, hobjects, bytes, ⟨hsum, rfl⟩, rfl⟩
        rw [count_object_eq_ok hlt] at hobjects
        exact ⟨⟨hlt, hsum⟩, by rw [hobjects]; rfl⟩
      · rintro ⟨⟨hlt, hsum⟩, rfl⟩
        exact ⟨_, ⟨hlt, rfl⟩, _, (count_object_eq_ok hlt).mpr rfl, _, ⟨hsum, rfl⟩, rfl⟩

theorem scan_entries_eq_ok {lead : Text} {directory : Directory}
    {stack stack' : List (Directory × Text)} (h : Fits l) :
    scan_entries U count_as_objects lead directory (inventory_of count_as_objects l) stack =
        .ok (inventory, stack') ↔
      RowScannable U lead directory ∧ Fits (l ++ row lead directory) ∧
        inventory = inventory_of count_as_objects (l ++ row lead directory) ∧
        stack' = (subdirectories lead directory).reverse ++ stack := by
  induction directory using Tree.row_induction generalizing l stack with
  | nil =>
    simp only [scan_entries, pure_eq_ok, Prod.mk.injEq, RowScannable, row, subdirectories,
      append_nil, reverse_nil, nil_append, h, true_and]
    exact and_congr eq_comm eq_comm
  | cons name entry rest ih =>
    have hassoc : ∀ record : Record, l ++ record :: row lead rest =
      l ++ [record] ++ row lead rest := by
      intro record
      rw [append_assoc, singleton_append]
    have hpushed : (subdirectories lead (.cons name entry rest)).reverse ++ stack =
        (subdirectories lead rest).reverse ++
          push_directory (relative_of lead name) stack entry := by
      cases entry <;> simp [subdirectories, push_directory]
    simp only [scan_entries, bind_eq_ok, scan_name_eq_ok, scan_entry_eq_ok h, RowScannable, row,
      hassoc, hpushed]
    constructor
    · rintro ⟨relative, ⟨hname, rfl⟩, next, ⟨hordinary, hfits, rfl⟩, hrest⟩
      rw [ih hfits] at hrest
      exact ⟨⟨hname, hordinary, hrest.1⟩, hrest.2⟩
    · rintro ⟨⟨hname, hordinary, hscannable⟩, hfits, hinventory, hstack⟩
      refine ⟨_, ⟨hname, rfl⟩, _, ⟨hordinary, hfits.of_append, rfl⟩, ?_⟩
      exact (ih hfits.of_append).mpr ⟨hscannable, hfits, hinventory, hstack⟩

/-! ## The whole walk -/

def walk : Nat → List (Directory × Text) → List Record
  | 0, _ => []
  | _ + 1, [] => []
  | rounds + 1, (directory, lead) :: stack =>
    row lead directory ++ walk rounds ((subdirectories lead directory).reverse ++ stack)

def WalkScannable (U : UnicodeTables) : Nat → List (Directory × Text) → Prop
  | 0, _ => True
  | _ + 1, [] => True
  | rounds + 1, (directory, lead) :: stack => RowScannable U lead directory ∧
      WalkScannable U rounds ((subdirectories lead directory).reverse ++ stack)

theorem scan_stack_eq_ok {rounds : Nat} {stack : List (Directory × Text)} (h : Fits l) :
    scan_stack U count_as_objects rounds (inventory_of count_as_objects l) stack = .ok inventory ↔
      WalkScannable U rounds stack ∧ Fits (l ++ walk rounds stack) ∧
        inventory = inventory_of count_as_objects (l ++ walk rounds stack) := by
  induction rounds generalizing l stack with
  | zero =>
    simp only [scan_stack, pure_eq_ok, WalkScannable, walk, append_nil, h, true_and]
    exact eq_comm
  | succ rounds ih =>
    cases stack with
    | nil =>
      simp only [scan_stack, pure_eq_ok, WalkScannable, walk, append_nil, h, true_and]
      exact eq_comm
    | cons top stack =>
      obtain ⟨directory, lead⟩ := top
      simp only [scan_stack, bind_eq_ok, Prod.exists, scan_entries_eq_ok h, WalkScannable, walk,
        ← append_assoc]
      constructor
      · rintro ⟨next, stack', ⟨hrow, hfits, rfl, rfl⟩, hrest⟩
        rw [ih hfits] at hrest
        exact ⟨⟨hrow, hrest.1⟩, hrest.2⟩
      · rintro ⟨⟨hrow, hwalk⟩, hfits, rfl⟩
        exact ⟨_, _, ⟨hrow, hfits.of_append, rfl, rfl⟩,
          (ih hfits.of_append).mpr ⟨hwalk, hfits, rfl⟩⟩

/-- Whether the files are counted as objects does not matter for success. -/
theorem exists_scan_stack (count_as_objects : Bool) {rounds : Nat}
    {stack : List (Directory × Text)} :
    (∃ inventory, scan_stack U count_as_objects rounds ⟨0, 0, 0, []⟩ stack = .ok inventory) ↔
      WalkScannable U rounds stack ∧ Fits (walk rounds stack) := by
  have hempty : Fits [] := by simp [Fits, file_total, byte_total]
  have hstart : (⟨0, 0, 0, []⟩ : Inventory) = inventory_of count_as_objects [] := by
    simp [inventory_of, file_total, byte_total]
  simp only [hstart, scan_stack_eq_ok hempty, nil_append]
  constructor
  · rintro ⟨inventory, hwalk, hfits, -⟩
    exact ⟨hwalk, hfits⟩
  · rintro ⟨hwalk, hfits⟩
    exact ⟨_, hwalk, hfits, rfl⟩

def stack_listing (stack : List (Directory × Text)) : List Record :=
  stack.flatMap fun top => directory_listing top.2 top.1

/-- The directories that a list of directories leads to. -/
def stack_rounds (stack : List (Directory × Text)) : Nat :=
  (stack.map fun top => top.1.post_order.length).sum

theorem listing_perm (lead : Text) (directory : Directory) (h : RowScannable U lead directory) :
    (row lead directory ++ stack_listing (subdirectories lead directory)).Perm
      (directory_listing lead directory) := by
  induction directory using Tree.row_induction with
  | nil => exact .refl _
  | cons name entry rest ih =>
    obtain ⟨-, hordinary, hrest⟩ := h
    cases entry with
    | leaf leaf =>
      cases leaf with
      | symlink => cases hordinary
      | special => cases hordinary
      | file content => exact (ih hrest).cons _
    | branch sub =>
      -- the lines of the subdirectory come before those of the rest
      simp only [row, subdirectories, push_directory, directory_listing, entry_listing,
        entry_record, stack_listing, flatMap_cons, cons_append]
      refine List.Perm.cons _ ?_
      rw [← append_assoc]
      refine (List.perm_append_comm.append_right _).trans ?_
      rw [append_assoc]
      exact (ih hrest).append_left _

theorem scannable_iff {lead : Text} {directory : Directory} :
    Scannable U lead directory ↔ RowScannable U lead directory ∧
      ∀ top ∈ subdirectories lead directory, Scannable U top.2 top.1 := by
  induction directory using Tree.row_induction with
  | nil => simp [Scannable, RowScannable, subdirectories]
  | cons name entry rest ih =>
    simp only [Scannable, RowScannable, subdirectories, ih]
    cases entry with
    | branch sub =>
      simp only [EntryScannable, IsOrdinary, push_directory, forall_mem_cons]
      tauto
    | leaf leaf =>
      cases leaf <;> simp only [EntryScannable, IsOrdinary, push_directory] <;> tauto

theorem post_order_length (lead : Text) (directory : Directory) :
    directory.post_order.length = stack_rounds (subdirectories lead directory) + 1 := by
  simp only [Tree.post_order, length_append, length_singleton, Nat.add_right_cancel_iff]
  induction directory using Tree.row_induction with
  | nil => rfl
  | cons name entry rest ih =>
    cases entry with
    | leaf leaf => simpa [Tree.subtrees, Node.subtrees, subdirectories, push_directory] using ih
    | branch sub =>
      simp [Tree.subtrees, Node.subtrees, subdirectories, push_directory, stack_rounds,
        Tree.post_order] at ih ⊢
      omega

/-- With enough rounds the walk is through all directories that the stack leads to. -/
theorem walk_spec {rounds : Nat} {stack : List (Directory × Text)}
    (hrounds : stack_rounds stack ≤ rounds) :
    (WalkScannable U rounds stack ↔ ∀ top ∈ stack, Scannable U top.2 top.1) ∧
      (WalkScannable U rounds stack → (walk rounds stack).Perm (stack_listing stack)) := by
  induction rounds generalizing stack with
  | zero =>
    cases stack with
    | nil => exact ⟨by simp [WalkScannable], fun _ => .refl _⟩
    | cons top stack =>
      have := post_order_length top.2 top.1
      simp only [stack_rounds, map_cons, sum_cons] at hrounds
      omega
  | succ rounds ih =>
    cases stack with
    | nil => exact ⟨by simp [WalkScannable], fun _ => .refl _⟩
    | cons top stack =>
      obtain ⟨directory, lead⟩ := top
      have hsize := post_order_length lead directory
      have hnext : stack_rounds ((subdirectories lead directory).reverse ++ stack) ≤ rounds := by
        simp only [stack_rounds, map_cons, sum_cons, map_append, sum_append,
          map_reverse, sum_reverse] at hrounds hsize ⊢
        omega
      obtain ⟨hscannable, hperm⟩ := ih hnext
      constructor
      · simp only [WalkScannable, hscannable, forall_mem_append, mem_reverse,
          forall_mem_cons, @scannable_iff U lead, and_assoc]
      · rintro ⟨hrow, hwalk⟩
        have hlisted : (stack_listing ((subdirectories lead directory).reverse ++ stack)).Perm
            (stack_listing (subdirectories lead directory) ++ stack_listing stack) := by
          simp only [stack_listing, flatMap_append]
          exact ((reverse_perm _).flatMap_right _).append_right _
        refine (((hperm hwalk).trans hlisted).append_left _).trans ?_
        rw [← append_assoc]
        exact (listing_perm lead directory hrow).append_right _

theorem Fits.perm {r : List Record} (h : Fits l) (hperm : l.Perm r) : Fits r := by
  obtain ⟨hfiles, hbytes⟩ := h
  rw [file_total, hperm.countP_eq] at hfiles
  rw [byte_total, (hperm.map _).sum_eq] at hbytes
  exact ⟨hfiles, hbytes⟩

/-- The walk succeeds on a directory with ordinary entries, canonical names and counts that fit, and
then reports each entry of the tree once. -/
theorem scan_tree_eq_ok {blake3 : Blake3} {entry : Entry} {logical_root : LogicalPath U}
    {evidence : TreeEvidence} :
    scan_tree blake3 entry logical_root = .ok evidence ↔
      ∃ directory, entry = .branch directory ∧ Scannable U [] directory ∧
        Fits (directory_listing [] directory) ∧
        evidence = evidence_of blake3 logical_root
          (walk directory.post_order.length [(directory, [])]) := by
  cases entry with
  | leaf leaf =>
    simp only [scan_tree]
    constructor
    · intro h
      cases h
    · rintro ⟨directory, hentry, -⟩
      cases hentry
  | branch directory =>
    have hstart : (⟨0, 0, 0, []⟩ : Inventory) = inventory_of (is_object_root logical_root) [] := by
      simp [inventory_of, file_total, byte_total]
    have hempty : Fits [] := by simp [Fits, file_total, byte_total]
    obtain ⟨hscannable, hperm⟩ := @walk_spec U directory.post_order.length [(directory, [])]
      (by simp [stack_rounds])
    have hlisted : stack_listing [(directory, [])] = directory_listing [] directory := by
      simp [stack_listing]
    rw [hlisted] at hperm
    simp only [mem_singleton, forall_eq] at hscannable
    simp only [scan_tree, ok_iff, hstart, scan_stack_eq_ok hempty, nil_append,
      Node.branch.injEq, exists_eq_left']
    constructor
    · rintro ⟨inventory, ⟨hwalk, hfits, rfl⟩, rfl⟩
      exact ⟨hscannable.mp hwalk, hfits.perm (hperm hwalk), rfl⟩
    · rintro ⟨hdirectory, hfits, rfl⟩
      have hwalk := hscannable.mpr hdirectory
      exact ⟨_, ⟨hwalk, hfits.perm (hperm hwalk).symm, rfl⟩, rfl⟩

/-- The counts are those of the tree, and the digest is that of its lines in path order. -/
theorem scan_tree_reports {blake3 : Blake3} {entry : Entry} {logical_root : LogicalPath U}
    {evidence : TreeEvidence} (h : scan_tree blake3 entry logical_root = .ok evidence) :
    ∃ directory inventory, entry = .branch directory ∧
      inventory.Perm (directory_listing [] directory) ∧
      evidence.file_count.toNat = file_total (directory_listing [] directory) ∧
      evidence.object_count = (if is_object_root logical_root then evidence.file_count else 0) ∧
      evidence.byte_count.toNat = byte_total (directory_listing [] directory) ∧
      evidence.object_set_digest = inventory_digest blake3 logical_root
        (sort_by_key Prod.fst inventory) := by
  obtain ⟨directory, rfl, hdirectory, hfits, rfl⟩ := scan_tree_eq_ok.mp h
  obtain ⟨hscannable, hperm⟩ := @walk_spec U directory.post_order.length [(directory, [])]
    (by simp [stack_rounds])
  have hwalk := hperm (hscannable.mpr (by simpa using hdirectory))
  have hlisted : stack_listing [(directory, [])] = directory_listing [] directory := by
    simp [stack_listing]
  rw [hlisted] at hwalk
  have hfiles : file_total (walk directory.post_order.length [(directory, [])]) =
      file_total (directory_listing [] directory) := hwalk.countP_eq _
  have hbytes : byte_total (walk directory.post_order.length [(directory, [])]) =
      byte_total (directory_listing [] directory) := (hwalk.map _).sum_eq
  refine ⟨directory, _, rfl, hwalk, ?_, rfl, ?_, rfl⟩
  · show (UInt64.ofNat (file_total (walk _ _))).toNat = _
    rw [hfiles, toNat_ofNat_of_lt' hfits.1]
  · show (UInt64.ofNat (byte_total (walk _ _))).toNat = _
    rw [hbytes, toNat_ofNat_of_lt' hfits.2]

mutual

theorem EntryScannable.ordinary_leaves {relative : Text} : ∀ {entry : Entry},
    EntryScannable U relative entry → ∀ leaf ∈ entry.leaves, ∃ content, leaf.2 = Leaf.file content
  | .branch _, h => Scannable.ordinary_leaves h
  | .leaf (.file content), _ => by simp [Node.leaves]
  | .leaf .symlink, h => h.elim
  | .leaf .special, h => h.elim

theorem Scannable.ordinary_leaves {lead : Text} : ∀ {directory : Directory},
    Scannable U lead directory → ∀ leaf ∈ directory.leaves, ∃ content, leaf.2 = Leaf.file content
  | .nil, _ => by simp [Tree.leaves]
  | .cons name entry rest, ⟨_, hentry, hrest⟩ => by
    intro leaf hleaf
    simp only [Tree.leaves, mem_append, List.mem_map] at hleaf
    rcases hleaf with ⟨below, hbelow, rfl⟩ | hleaf
    · exact EntryScannable.ordinary_leaves hentry below hbelow
    · exact Scannable.ordinary_leaves hrest leaf hleaf

end

end NeoEngram.Agent
