import NeoEngram.Core.Concrete
import NeoEngram.Core.Strings
import NeoEngram.Framework.OrderedKeys

/-! # S3 listings of a Commit

The records of a Commit are listed in pages. With a delimiter, the records
below a directory are listed as one common prefix. A page begins behind the
last entry of the page before it, or behind `start_after`, which is compared
with the entries and not with the records. -/

namespace NeoEngram.Central

open Checks OrderedKeys List

variable {U : UnicodeTables}

/-! ## Entries -/

abbrev S3Entry (U : UnicodeTables) := Text × Option (FileRecord U)

/-- What a record is listed as under a prefix, the `scope`. -/
def s3_catalog_entry (scope delimiter : Text) (record : FileRecord U) : Option (S3Entry U) :=
  let key := record.path.text
  let rest := key.drop scope.length
  if ¬ scope <+: key then none
  else if delimiter ≠ [] ∧ '/' ∈ rest then
    some (scope ++ rest.takeWhile (· ≠ '/') ++ ['/'], none)
  else some (key, some record)

abbrev S3Catalog (U : UnicodeTables) :=
  Std.ExtTreeMap Text (Option (FileRecord U)) (@compare Text LinearOrder.toOrd)

/-- One round of the loop of `s3_catalog_entries`. -/
def add_record (scope delimiter : Text) (catalog : S3Catalog U) (record : FileRecord U) :
    S3Catalog U :=
  match s3_catalog_entry scope delimiter record with
  | none => catalog
  | some (key, none) => catalog.insertIfNew key none
  | some (key, some record) => catalog.insert key (some record)

def s3_catalog_entries (records : List (FileRecord U)) (scope delimiter : Text) :
    List (S3Entry U) :=
  (records.foldl (add_record scope delimiter) ∅).toList

variable {records : List (FileRecord U)} {scope delimiter key : Text} {e : S3Entry U}
  {entries : List (S3Entry U)} {record : FileRecord U}

/-- A token, as it is read: it is signed, and what was written into it is read from it again. -/
structure DecodedS3ObjectCursor where
  position : Nat
  last_key_digest : Text
  deriving DecidableEq

def internal_catalog_error : String := "the server could not complete the catalog operation"

def cursor_conflict : String := "cursor is invalid or belongs to another catalog query"

structure S3Page (U : UnicodeTables) where
  objects : List (Text × FileRecord U)
  common_prefixes : List Text
  next_continuation_token : Option DecodedS3ObjectCursor
  deriving DecidableEq

def S3Page.listed (page : S3Page U) : List (S3Entry U) :=
  page.objects.map (fun object => (object.1, some object.2)) ++ page.common_prefixes.map (·, none)

def validate_s3_prefix (U : UnicodeTables) (value : Text) : Except String Unit :=
  let canonical := if value.getLast? = some '/' then value.dropLast else value
  ensure (value = [] ∨
      str_len value ≤ 1024 ∧ canonical ≠ [] ∧ validate_logical_path U canonical = .ok ())
    "prefix must use canonical LogicalPath components"

def validate_s3_cursor_key (U : UnicodeTables) (value : Text) : Except String Unit :=
  if value.getLast? = some '/' then validate_s3_prefix U value
  else (validate_logical_path U value).mapError fun error => s!"key: {error.message}"

section

variable (digest : Text → Text)

def encode_s3_object_cursor (position : Nat) (key : Text) :
    Except String DecodedS3ObjectCursor := do
  ensure (position ≠ 0) internal_catalog_error
  return ⟨position, digest key⟩

def s3_object_cursor_start (entries : List (S3Entry U)) (cursor : DecodedS3ObjectCursor) :
    Except String Nat := do
  ensure (cursor.position ≠ 0) cursor_conflict
  let (key, _) ← ok_or entries[cursor.position - 1]? cursor_conflict
  ensure (digest key = cursor.last_key_digest) cursor_conflict
  return cursor.position

def start_index (entries : List (S3Entry U))
    (continuation_token : Option DecodedS3ObjectCursor) (start_after : Option Text) :
    Except String Nat :=
  match continuation_token, start_after.filter (· ≠ []) with
  | some cursor, _ => s3_object_cursor_start digest entries cursor
  | none, some start_after => do
    validate_s3_cursor_key U start_after
    -- compared with the rolled-up entries, not with the keys of the records
    return (entries.takeWhile fun e => e.1 ≤ start_after).length
  | none, none => return 0

/-- The page of at most `max_keys` entries from `start` on. -/
def s3_page (all_entries : List (S3Entry U)) (start max_keys : Nat) : Except String (S3Page U) := do
  let found := (all_entries.drop start).take (max_keys + 1)
  let entries := found.take max_keys
  let next ← if max_keys < found.length ∧ 0 < max_keys then
      entries.getLast?.mapM fun e => encode_s3_object_cursor digest (start + entries.length) e.1
    else pure none
  return ⟨entries.filterMap fun e => e.2.map (e.1, ·),
    (entries.filter (·.2.isNone)).map (·.1), next⟩

variable (records : List (FileRecord U)) (scope : Text) (delimiter : Option Text)

def list_objects_v2 (continuation_token : Option DecodedS3ObjectCursor)
    (start_after : Option Text) (max_keys : UInt16) : Except String (S3Page U) := do
  validate_s3_prefix U scope
  let delimiter := delimiter.getD []
  ensure (delimiter = [] ∨ delimiter = ['/']) "delimiter must be '/' when provided"
  ensure (max_keys ≤ 1000) "max_keys cannot exceed 1000"
  let all_entries := s3_catalog_entries records scope delimiter
  let start ← start_index digest all_entries continuation_token start_after
  s3_page digest all_entries start max_keys.toNat

/-- The pages of a query, each with its size, up to one without a token. -/
def follow (start_after : Option Text) :
    Option DecodedS3ObjectCursor → List UInt16 → Option (List (S3Page U))
  | _, [] => none
  | token, max_keys :: sizes => do
    let page ← (list_objects_v2 digest records scope delimiter token start_after max_keys).toOption
    match page.next_continuation_token with
    | none => return [page]
    | some token =>
      let pages ← follow start_after (some token) sizes
      return page :: pages

end

variable {digest : Text → Text} {start max_keys : Nat}

variable {delimiter start_after : Option Text} {token : Option DecodedS3ObjectCursor}
  {sizes : List UInt16}

end NeoEngram.Central
