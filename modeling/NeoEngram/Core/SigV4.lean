import NeoEngram.Core.Strings

/-! # Signed S3 requests

`S3SigV4Request` is the HTTP request that a client signed with AWS Signature
Version 4, in a header or in the query. Central verifies it with the secret of
the access key. SHA-256 and HMAC are parameters (`Signing`).
-/

namespace NeoEngram.S3

open Checks Framing PercentEncoding

/-- Errors are constant texts. -/
abbrev S3Result (α : Type) := Except String α

/-- The functions of the crate `ring`. -/
structure Signing where
  sha256 : Bytes → ContentDigest
  hmac_sha256 : Bytes → Bytes → ContentDigest

/-! ## The request and its fields -/

structure S3SigV4Request where
  (method path : Text)
  /-- Without the leading question mark. -/
  query : Text
  /-- As received; repeated headers are repeated entries. -/
  headers : List (Text × Text)
  deriving DecidableEq

/-- The values of the entries with a name, in letters of either case. -/
def values_of (pairs : List (Text × Text)) (name : Text) : List Text :=
  (pairs.filter fun pair => eq_ignore_ascii_case pair.1 name).map (·.2)

/-- The value of an entry that is there at most once. -/
def optional_value (pairs : List (Text × Text)) (name : Text) (repeated : String) :
    S3Result (Option Text) :=
  match values_of pairs name with
  | [] => return none
  | [value] => return some value
  | _ => throw repeated

def S3SigV4Request.header (self : S3SigV4Request) (name : String) : S3Result (Option Text) :=
  optional_value self.headers name.toList "SigV4 security header was repeated"

def optional_query_value (pairs : List (Text × Text)) (name : String) : S3Result (Option Text) :=
  optional_value pairs name.toList "S3 signed query field was repeated"

def query_value (pairs : List (Text × Text)) (name : String) : S3Result Text :=
  match values_of pairs name.toList with
  | [value] => return value
  | [] => throw "SigV4 presign field is missing"
  | _ => throw "SigV4 presign field was repeated"

/-- `percent_decode_str(value).decode_utf8()` -/
def percent_decode_str (value : Text) : Option Text := decode_utf8 (percent_decode (utf8 value))

def parse_query_pair (part : Text) : S3Result (Text × Text) := do
  let (name, value) := (Words.split_once '=' part).getD (part, [])
  let name ← ok_or (percent_decode_str name) "SigV4 query name is not UTF-8"
  let value ← ok_or (percent_decode_str value) "SigV4 query value is not UTF-8"
  return (name, value)

def parse_query_pairs (value : Text) : S3Result (List (Text × Text)) :=
  ((Words.split '&' value).filter (· ≠ [])).mapM parse_query_pair

/-! ## The parsed signature -/

def ALGORITHM : Text := "AWS4-HMAC-SHA256".toList
def TERMINAL : Text := "aws4_request".toList

structure ParsedSigV4 where
  (access_key_id scope_date region service signed_headers signature amz_date : Text)
  /-- In presigned requests. -/
  expires_seconds : Option Nat
  deriving DecidableEq

structure SignatureFields where
  (credential signed_headers signature amz_date : Text)
  expires_seconds : Option Nat
  deriving DecidableEq

/-- The slots of `parse_authorization_fields`. -/
structure AuthorizationSlots where
  (credential signed_headers signature : Option Text)

/-- A slot is filled once. -/
def fill (slot : Option Text) (value : Text) : S3Result (Option Text) :=
  match slot with
  | none => return some value
  | some _ => throw "SigV4 Authorization field was repeated"

def authorization_field (slots : AuthorizationSlots) (part : Text) :
    S3Result AuthorizationSlots := do
  let (name, value) ← ok_or (Words.split_once '=' (trim part))
    "SigV4 Authorization fields are invalid"
  if name = "Credential".toList then
    return { slots with credential := ← fill slots.credential value }
  else if name = "SignedHeaders".toList then
    return { slots with signed_headers := ← fill slots.signed_headers value }
  else if name = "Signature".toList then
    return { slots with signature := ← fill slots.signature value }
  else throw "SigV4 Authorization contains an unknown field"

def parse_authorization_fields (value : Text) : S3Result (Text × Text × Text) := do
  let slots ← (Words.split ',' value).foldlM authorization_field ⟨none, none, none⟩
  let credential ← ok_or slots.credential "SigV4 Credential is missing"
  let signed_headers ← ok_or slots.signed_headers "SigV4 SignedHeaders is missing"
  let signature ← ok_or slots.signature "SigV4 Signature is missing"
  return (credential, signed_headers, signature)

def authorization_signature (request : S3SigV4Request) (authorization : Text) :
    S3Result SignatureFields := do
  let (algorithm, fields) ← ok_or (Words.split_once ' ' authorization)
    "SigV4 Authorization header is invalid"
  ensure (algorithm = ALGORITHM) "SigV4 algorithm is unsupported"
  let (credential, signed_headers, signature) ← parse_authorization_fields fields
  let amz_date ← request.header "x-amz-date"
  let amz_date ← ok_or amz_date "SigV4 x-amz-date header is missing"
  return ⟨credential, signed_headers, signature, amz_date, none⟩

def query_signature (query : List (Text × Text)) : S3Result SignatureFields := do
  let algorithm ← query_value query "X-Amz-Algorithm"
  ensure (algorithm = ALGORITHM) "SigV4 algorithm is unsupported"
  let credential ← query_value query "X-Amz-Credential"
  let signed_headers ← query_value query "X-Amz-SignedHeaders"
  let signature ← query_value query "X-Amz-Signature"
  let amz_date ← query_value query "X-Amz-Date"
  let expires ← query_value query "X-Amz-Expires"
  let expires_seconds ← ok_or (parse_unsigned (2 ^ 64) expires) "SigV4 expiry is invalid"
  return ⟨credential, signed_headers, signature, amz_date, some expires_seconds⟩

def is_ascii_hexdigit (c : Char) : Bool := c.isDigit || ('a' ≤ c && c ≤ 'f') || ('A' ≤ c && c ≤ 'F')

/-- The parts of the credential and the date are checked. -/
def SignatureFields.check (fields : SignatureFields) : S3Result ParsedSigV4 := do
  ensure (str_len fields.signature = 64 ∧ fields.signature.all is_ascii_hexdigit)
    "SigV4 signature is invalid"
  match Words.split '/' fields.credential with
  | [access_key_id, scope_date, region, service, terminal] =>
    ensure (terminal = TERMINAL ∧ access_key_id ≠ []) "SigV4 credential scope is invalid"
    ensure (str_len fields.amz_date = 16 ∧ (utf8 fields.amz_date)[8]? = some 84 ∧
        (utf8 fields.amz_date)[15]? = some 90 ∧ utf8 scope_date = (utf8 fields.amz_date).take 8)
      "SigV4 request date is invalid"
    return ⟨access_key_id, scope_date, region, service, to_ascii_lowercase fields.signed_headers,
      to_ascii_lowercase fields.signature, fields.amz_date, fields.expires_seconds⟩
  | _ => throw "SigV4 credential scope is invalid"

def signature_fields (request : S3SigV4Request) : S3Result SignatureFields := do
  let query ← parse_query_pairs request.query
  let authorization ← request.header "authorization"
  match authorization with
  | some authorization => authorization_signature request authorization
  | none => query_signature query

def ParsedSigV4.parse (request : S3SigV4Request) : S3Result ParsedSigV4 := do
  let fields ← signature_fields request
  fields.check

def ParsedSigV4.has_signed_header (self : ParsedSigV4) (name : String) : Bool :=
  name.toList ∈ Words.split ';' self.signed_headers

/-! ## The canonical request -/

def is_unreserved (byte : UInt8) : Bool :=
  (48 ≤ byte && byte ≤ 57) || (65 ≤ byte && byte ≤ 90) || (97 ≤ byte && byte ≤ 122) ||
    byte == 45 || byte == 95 || byte == 46 || byte == 126

def aws_encode (value : Text) (encode_slash : Bool) : Text :=
  percent_encode (fun byte => is_unreserved byte || (byte == 47 && !encode_slash)) (utf8 value)

def is_lowercase_header_name (c : Char) : Bool :=
  ('a' ≤ c && c ≤ 'z') || c.isDigit ||
    c ∈ ['!', '#', '$', '%', '&', '\x27', '*', '+', '-', '.', '^', '_', '\x60', '|', '~']

def collapse_ascii_whitespace (value : Text) : Text :=
  Words.joined ' ' (split_ascii_whitespace value)

/-- The value of a signed header: the values of all its entries. -/
def signed_header_value (request : S3SigV4Request) (name : Text) : Text :=
  Words.joined ',' ((values_of request.headers name).map collapse_ascii_whitespace)

/-- The loop over the names, with the names seen. -/
def canonical_headers (request : S3SigV4Request) (seen : List Text) : List Text → S3Result Text
  | [] => return []
  | name :: names => do
    ensure (name ≠ [] ∧ name.all is_lowercase_header_name ∧ name ∉ seen)
      "SigV4 signed header list is invalid"
    ensure (values_of request.headers name ≠ []) "SigV4 signed header is missing"
    let canonical ← canonical_headers request (name :: seen) names
    return name ++ ':' :: signed_header_value request name ++ '\n' :: canonical

def canonical_signed_headers (request : S3SigV4Request) (names : Text) :
    S3Result (Text × Text) := do
  let names := Words.split ';' names
  ensure (names ≠ [] ∧ "host".toList ∈ names) "SigV4 host header must be signed"
  let canonical ← canonical_headers request [] names
  return (canonical, Words.joined ';' names)

/-- The pairs that are signed: all but a presigned request's own signature. -/
def signed_pairs (pairs : List (Text × Text)) (presigned : Bool) : List (Text × Text) :=
  pairs.filter fun pair =>
    !presigned || !eq_ignore_ascii_case pair.1 "X-Amz-Signature".toList

def encode_pair (pair : Text × Text) : Text × Text :=
  (aws_encode pair.1 true, aws_encode pair.2 true)

def canonical_pair (pair : Text × Text) : Text := pair.1 ++ '=' :: pair.2

def canonical_query (pairs : List (Text × Text)) (presigned : Bool) : Text :=
  let encoded := (signed_pairs pairs presigned).map encode_pair
  Words.joined '&'
    ((encoded.insertionSort fun left right => toLex left ≤ toLex right).map canonical_pair)

def UNSIGNED_PAYLOAD : Text := "UNSIGNED-PAYLOAD".toList

def EMPTY_PAYLOAD_HASH : Text :=
  "e3b0c44298fc1c149afbf4c8996fb92427ae41e4649b934ca495991b7852b855".toList

def payload_hash (request : S3SigV4Request) : S3Result Text := do
  let header ← request.header "x-amz-content-sha256"
  let payload_hash := header.getD UNSIGNED_PAYLOAD
  ensure (payload_hash = UNSIGNED_PAYLOAD ∨ payload_hash = EMPTY_PAYLOAD_HASH)
    "SigV4 read request payload hash is invalid"
  return payload_hash

def canonical_request (request : S3SigV4Request) (parsed : ParsedSigV4) : S3Result Text := do
  let signed_headers ← canonical_signed_headers request parsed.signed_headers
  let query_pairs ← parse_query_pairs request.query
  let path ← ok_or (percent_decode_str request.path) "SigV4 URI is not UTF-8"
  let payload_hash ← payload_hash request
  return Words.joined '\n' [request.method, aws_encode path false,
    canonical_query query_pairs parsed.expires_seconds.isSome, signed_headers.1, signed_headers.2,
    payload_hash]

def scope (date region service : Text) : Text := Words.joined '/' [date, region, service, TERMINAL]

def string_to_sign (signing : Signing) (amz_date scope canonical_request : Text) : Text :=
  Words.joined '\n' [ALGORITHM, amz_date, scope,
    (signing.sha256 (utf8 canonical_request)).to_hex.toList]

def derive_signing_key (signing : Signing) (secret : Bytes) (date region service : Text) : Bytes :=
  let date_key := signing.hmac_sha256 (utf8 "AWS4".toList ++ secret) (utf8 date)
  let region_key := signing.hmac_sha256 date_key.as_bytes (utf8 region)
  let service_key := signing.hmac_sha256 region_key.as_bytes (utf8 service)
  (signing.hmac_sha256 service_key.as_bytes (utf8 TERMINAL)).as_bytes

def hex_hmac (signing : Signing) (key : Bytes) (value : Text) : Text :=
  (signing.hmac_sha256 key (utf8 value)).to_hex.toList

def constant_time_eq (left right : Bytes) : Bool :=
  if left.length ≠ right.length then false
  else (left.zip right).foldl (fun difference pair => difference ||| (pair.1 ^^^ pair.2)) 0 == 0

/-! ## Dates -/

def days_in_month (year : Int) (month : Nat) : Nat :=
  match month with
  | 1 | 3 | 5 | 7 | 8 | 10 | 12 => 31
  | 4 | 6 | 9 | 11 => 30
  | 2 =>
    if year.tmod 4 = 0 ∧ (year.tmod 100 ≠ 0 ∨ year.tmod 400 = 0) then 29 else 28
  | _ => 0

def days_from_civil (year : Int) (month day : Nat) : Option Int :=
  if ¬ (1 ≤ month ∧ month ≤ 12) ∨ day = 0 ∨ days_in_month year month < day then none
  else
    let year := year - (if month ≤ 2 then 1 else 0)
    let era := (if 0 ≤ year then year else year - 399).tdiv 400
    let year_of_era := year - era * 400
    let month : Int := month
    let day_of_year := (153 * (month + if 2 < month then -3 else 9) + 2).tdiv 5 + day - 1
    let day_of_era := year_of_era * 365 + year_of_era.tdiv 4 - year_of_era.tdiv 100 + day_of_year
    some (era * 146097 + day_of_era - 719468)

/-- A part of a string between two bytes. Where one of them is inside of a character, the source
panics. -/
def str_slice (value : Text) (start stop : Nat) : S3Result Text :=
  ok_or (decode_utf8 (((utf8 value).take stop).drop start)) "byte index is not a char boundary"

def parse_field (value : Text) (start stop : Nat) : S3Result Nat := do
  let digits ← str_slice value start stop
  ok_or (parse_unsigned 256 digits) "SigV4 date is invalid"

/-- The seconds since 1970 of a date in the basic format. -/
def parse_amz_date (value : Text) : S3Result Nat := do
  ensure (str_len value = 16 ∧ (utf8 value)[8]? = some 84 ∧ (utf8 value)[15]? = some 90)
    "SigV4 date is invalid"
  let digits ← str_slice value 0 4
  let year ← ok_or (parse_i32 digits) "SigV4 date is invalid"
  let month ← parse_field value 4 6
  let day ← parse_field value 6 8
  let hour ← parse_field value 9 11
  let minute ← parse_field value 11 13
  let second ← parse_field value 13 15
  ensure (hour ≤ 23 ∧ minute ≤ 59 ∧ second ≤ 59 ∧ day ≤ days_in_month year month)
    "SigV4 date is invalid"
  let days ← ok_or (days_from_civil year month day) "SigV4 date is invalid"
  let seconds := days * 86400 + hour * 3600 + minute * 60 + second
  ensure (0 ≤ seconds) "SigV4 date is invalid"
  return seconds.toNat

/-! ## Verification -/

structure S3SigV4Claims where
  (access_key_id region service : Text)
  expires_at_unix_seconds : Nat
  deriving DecidableEq

/-- The clock is checked against the time of the request. -/
def check_expiry (expires_seconds : Option Nat) (request_seconds now_unix_seconds : Nat) :
    S3Result Nat :=
  match expires_seconds with
  | some expires => do
    ensure (expires ≠ 0 ∧ expires ≤ 7 * 24 * 60 * 60 ∧
        request_seconds ≤ saturating_add now_unix_seconds 30)
      "SigV4 presigned expiry is invalid"
    return saturating_add request_seconds expires
  | none => do
    ensure (request_seconds ≤ saturating_add now_unix_seconds 900 ∧
        now_unix_seconds ≤ saturating_add request_seconds 900)
      "SigV4 request timestamp is outside clock skew"
    return saturating_add request_seconds 900

def expected_signature (signing : Signing) (secret : Bytes) (parsed : ParsedSigV4)
    (canonical_request : Text) : Text :=
  let scope := scope parsed.scope_date parsed.region parsed.service
  let string_to_sign := string_to_sign signing parsed.amz_date scope canonical_request
  let signing_key :=
    derive_signing_key signing secret parsed.scope_date parsed.region parsed.service
  hex_hmac signing signing_key string_to_sign

def S3SigV4Request.verify_at (signing : Signing) (self : S3SigV4Request) (secret : Bytes)
    (now_unix_seconds : Nat) : S3Result S3SigV4Claims := do
  ensure (self.method = "GET".toList ∨ self.method = "HEAD".toList)
    "SigV4 request method is not read-only"
  ensure (self.path ≠ [] ∧ self.path.head? = some '/' ∧ str_len self.path ≤ 4096 ∧
      str_len self.query ≤ 16 * 1024 ∧ self.headers.length ≤ 128)
    "SigV4 request metadata exceeds its bounds"
  let parsed ← ParsedSigV4.parse self
  ensure (parsed.service = "s3".toList) "SigV4 credential scope service must be s3"
  ensure (parsed.expires_seconds.isSome ∨ parsed.has_signed_header "x-amz-date")
    "SigV4 x-amz-date header must be signed"
  let canonical_request ← canonical_request self parsed
  let expected := expected_signature signing secret parsed canonical_request
  ensure (constant_time_eq (utf8 expected) (utf8 parsed.signature)) "SigV4 signature mismatch"
  let request_seconds ← parse_amz_date parsed.amz_date
  let expires_at ← check_expiry parsed.expires_seconds request_seconds now_unix_seconds
  ensure (now_unix_seconds ≤ expires_at) "SigV4 request has expired"
  return ⟨parsed.access_key_id, parsed.region, parsed.service, expires_at⟩

end NeoEngram.S3
