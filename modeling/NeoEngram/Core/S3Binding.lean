import NeoEngram.Core.SigV4Coverage

/-! # Operations and the requests they are bound to

A Gateway forwards the signed request of a client together with the bucket
and the operation it read from it. `validate_signed_operation_binding` checks
that the request asks for the operation. The bucket is the first component of
the path or a leading part of the host, which the forwarded bucket itself
decides. So one request can be accepted for several buckets; `Unambiguous` says
for which requests it cannot.
-/

namespace NeoEngram.S3

open Checks Framing PercentEncoding

/-! ## Operations -/

inductive S3AuthorizeOperation where
  | HeadBucket
  | GetBucketLocation
  | ListObjectsV2 (scope : Text) (delimiter continuation_token start_after : Option Text)
      (max_keys : UInt16)
  | HeadObject (key : Text) (range if_match if_none_match : Option Text)
  | GetObject (key : Text) (range if_match if_none_match : Option Text)
  deriving DecidableEq

structure S3AuthorizeRequest where
  (gateway_pool_id bucket : Text)
  operation : S3AuthorizeOperation
  sigv4 : S3SigV4Request
  deriving DecidableEq

/-! ## The resource of a request -/

def without_port (value : Text) : S3Result Text :=
  match Words.rsplit_once ':' value with
  | some (host, port) => do
    ensure (port ≠ [] ∧ port.all Char.isDigit) "S3 signed host port is invalid"
    return host
  | none => return value

def s3_dns_host (value : Text) : S3Result Text := do
  let value := trim value
  ensure (value ≠ [] ∧ value.head? ≠ some '[' ∧ '/' ∉ value) "S3 signed host is invalid"
  let host ← without_port value
  ensure (host ≠ []) "S3 signed host is invalid"
  return to_ascii_lowercase host

/-- The host begins with the bucket as labels of its own. -/
def virtual_hosted (host expected_bucket : Text) : Bool :=
  (strip_front expected_bucket host).any fun suffix => suffix.head? = some '.'

/-- The first component of a path, and the rest. -/
def path_style (path : Text) : Text × Text :=
  let resource := trim_start_matches '/' path
  (Words.split_once '/' resource).getD (resource, [])

def bucket_key (path host expected_bucket : Text) : S3Result Text :=
  if virtual_hosted host expected_bucket then return trim_start_matches '/' path
  else do
    let (bucket, key) := path_style path
    ensure (bucket = expected_bucket) "S3 bucket is not bound to the signed path or host"
    return key

def signed_s3_resource (path host expected_bucket : Text) : S3Result (Option Text) := do
  ensure (expected_bucket ≠ [] ∧ 0 ∉ utf8 path) "S3 signed resource is invalid"
  let path ← ok_or (percent_decode_str path) "S3 signed resource path is not UTF-8"
  let path ← ok_or (strip_front ['/'] path) "S3 signed resource path is not absolute"
  ensure (path.head? ≠ some '/') "S3 signed resource path has an empty leading component"
  let host ← s3_dns_host host
  let key ← bucket_key path host expected_bucket
  return if key = [] then none else some key

/-! ## The binding -/

def require_s3_method_and_key (actual_method : Text) (expected_method : String)
    (actual_key expected_key : Option Text) : S3Result Unit :=
  ensure (actual_method = expected_method.toList ∧ actual_key = expected_key)
    "S3 operation is not bound to the signed method and resource"

def require_forwarded_header_binding (request : S3SigV4Request) (name : String)
    (expected : Option Text) : S3Result Unit := do
  let actual ← request.header name
  ensure (actual = expected) "S3 object conditions are not bound to the forwarded headers"

def normalize_optional_query (value : Option Text) : Option Text := value.filter (· ≠ [])

/-- The conditions of an operation on an object. -/
def require_conditions (request : S3SigV4Request) (range if_match if_none_match : Option Text) :
    S3Result Unit := do
  require_forwarded_header_binding request "range" range
  require_forwarded_header_binding request "if-match" if_match
  require_forwarded_header_binding request "if-none-match" if_none_match

/-- The fields of a listing. The comparison is lazy: it stops at the first field that differs. -/
def require_listing (query : List (Text × Text)) (scope : Text)
    (delimiter continuation_token start_after : Option Text) : S3Result Unit := do
  let unbound := "S3 LIST operation is not bound to the signed query"
  let list_type ← optional_query_value query "list-type"
  ensure (list_type = some ['2']) unbound
  let signed_scope ← optional_query_value query "prefix"
  ensure (signed_scope.getD [] = scope) unbound
  let signed_delimiter ← optional_query_value query "delimiter"
  ensure (normalize_optional_query signed_delimiter = delimiter) unbound
  let signed_token ← optional_query_value query "continuation-token"
  ensure (signed_token = continuation_token) unbound
  let signed_start ← optional_query_value query "start-after"
  ensure (signed_start = start_after) unbound

def signed_max_keys (query : List (Text × Text)) : S3Result Nat := do
  let value ← optional_query_value query "max-keys"
  match value with
  | some value => ok_or (parse_unsigned (2 ^ 16) value) "S3 signed max-keys is invalid"
  | none => return 1000

/-- The operation is the one of a request with this key and query. -/
def operation_bound (request : S3SigV4Request) (key : Option Text) (query : List (Text × Text)) :
    S3AuthorizeOperation → S3Result Unit
  | .HeadBucket => require_s3_method_and_key request.method "HEAD" key none
  | .GetBucketLocation => do
    require_s3_method_and_key request.method "GET" key none
    let location ← optional_query_value query "location"
    ensure (location = some []) "S3 location operation is not bound to the signed query"
  | .ListObjectsV2 scope delimiter continuation_token start_after max_keys => do
    require_s3_method_and_key request.method "GET" key none
    require_listing query scope delimiter continuation_token start_after
    let signed_max_keys ← signed_max_keys query
    ensure (signed_max_keys = max_keys.toNat) "S3 LIST max-keys is not bound to the signed query"
  | .HeadObject expected range if_match if_none_match => do
    require_s3_method_and_key request.method "HEAD" key (some expected)
    require_conditions request range if_match if_none_match
  | .GetObject expected range if_match if_none_match => do
    require_s3_method_and_key request.method "GET" key (some expected)
    require_conditions request range if_match if_none_match

def S3AuthorizeRequest.validate_signed_operation_binding (self : S3AuthorizeRequest) :
    S3Result Unit := do
  let _ ← ParsedSigV4.parse self.sigv4
  let host ← self.sigv4.header "host"
  let host ← ok_or host "SigV4 host header is missing"
  let key ← signed_s3_resource self.sigv4.path host self.bucket
  let query ← parse_query_pairs self.sigv4.query
  operation_bound self.sigv4 key query self.operation

/-! ## The readings of a request -/

def S3AuthorizeOperation.key : S3AuthorizeOperation → Option Text
  | .HeadObject key _ _ _ => some key
  | .GetObject key _ _ _ => some key
  | _ => none

def S3AuthorizeOperation.listing :
    S3AuthorizeOperation → Option (Text × Option Text × Option Text × Option Text × UInt16)
  | .ListObjectsV2 scope delimiter continuation_token start_after max_keys =>
    some (scope, delimiter, continuation_token, start_after, max_keys)
  | _ => none

/-- An empty key is the bucket itself. -/
def object_key (key : Text) : Option Text :=
  if key = [] then none else some key

/-- What the binding reads before it looks at the bucket: the path below the root, the host and the
query. -/
structure Readable (request : S3SigV4Request) (path host : Text) (query : List (Text × Text)) :
    Prop where
  signed : ∃ parsed, ParsedSigV4.parse request = .ok parsed
  host_eq : ∃ header, request.header "host" = .ok (some header) ∧ s3_dns_host header = .ok host
  no_nul : 0 ∉ utf8 request.path
  path_eq : percent_decode_str request.path = some ('/' :: path)
  leading : path.head? ≠ some '/'
  query_eq : parse_query_pairs request.query = .ok query

/-- The bucket is a leading part of the host, before a dot. -/
def Hosted (host bucket : Text) : Prop := ∃ suffix, host = bucket ++ '.' :: suffix

theorem virtual_hosted_iff {host bucket : Text} :
    virtual_hosted host bucket = true ↔ Hosted host bucket := by
  unfold virtual_hosted
  constructor
  · intro h
    obtain ⟨rest, hrest, hdot⟩ := Option.any_eq_true _ _ |>.mp h
    rw [strip_front_eq_some.mp hrest]
    cases rest with
    | nil => cases decide_eq_true_iff.mp hdot
    | cons c suffix =>
      obtain rfl : c = '.' := Option.some.inj (decide_eq_true_iff.mp hdot)
      exact ⟨suffix, rfl⟩
  · intro ⟨suffix, hsuffix⟩
    rw [strip_front_eq_some.mpr hsuffix]
    rfl

/-- A bucket with the key that the path has in it. -/
def Reading (path host bucket key : Text) : Prop :=
  bucket ≠ [] ∧ (Hosted host bucket ∧ key = path ∨
    ¬ Hosted host bucket ∧ path_style path = (bucket, key))

variable {request : S3SigV4Request}

theorem bucket_key_eq_ok {path host bucket key : Text} (hpath : path.head? ≠ some '/') :
    bucket_key path host bucket = .ok key ↔
      Hosted host bucket ∧ key = path ∨ ¬ Hosted host bucket ∧ path_style path = (bucket, key) := by
  unfold bucket_key
  by_cases hhosted : Hosted host bucket
  · rw [if_pos (virtual_hosted_iff.mpr hhosted), trim_start_matches_eq_self hpath]
    simp only [pure_eq_ok, hhosted, true_and, not_true_eq_false, false_and, or_false]
    exact eq_comm
  · rw [if_neg (fun h => hhosted (virtual_hosted_iff.mp h))]
    simp only [ok_iff, hhosted, false_and, false_or, not_false_eq_true, true_and, Prod.ext_iff]

/-- A forwarded operation is accepted if it is bound to the key of a reading. -/
theorem binding_eq_ok {forwarded : S3AuthorizeRequest} :
    forwarded.validate_signed_operation_binding = .ok () ↔
      ∃ path host query key, Readable forwarded.sigv4 path host query ∧
        Reading path host forwarded.bucket key ∧
        operation_bound forwarded.sigv4 (object_key key) query forwarded.operation = .ok () := by
  simp only [S3AuthorizeRequest.validate_signed_operation_binding, signed_s3_resource, ok_iff,
    strip_front_eq_some]
  constructor
  · rintro ⟨parsed, hparsed, header, hheader, value, hvalue, _, ⟨⟨hbucket, hnul⟩, decoded, hdecoded,
      path, hpath, hleading, host, hhost, key, hkey, hobject⟩, query, hquery, hbound⟩
    subst hvalue hpath hobject
    exact ⟨path, host, query, key,
      ⟨⟨parsed, hparsed⟩, ⟨value, hheader, hhost⟩, hnul, hdecoded, hleading, hquery⟩,
      ⟨hbucket, (bucket_key_eq_ok hleading).mp hkey⟩, hbound⟩
  · rintro ⟨path, host, query, key, hread, ⟨hbucket, hkey⟩, hbound⟩
    obtain ⟨parsed, hparsed⟩ := hread.signed
    obtain ⟨value, hheader, hhost⟩ := hread.host_eq
    exact ⟨parsed, hparsed, some value, hheader, value, rfl, object_key key,
      ⟨⟨hbucket, hread.no_nul⟩, '/' :: path, hread.path_eq, path, rfl, hread.leading, host, hhost,
        key, (bucket_key_eq_ok hread.leading).mpr hkey, rfl⟩, query, hread.query_eq, hbound⟩

theorem Readable.unique {path₁ path₂ host₁ host₂ : Text} {query₁ query₂ : List (Text × Text)}
    (h₁ : Readable request path₁ host₁ query₁) (h₂ : Readable request path₂ host₂ query₂) :
    path₁ = path₂ ∧ host₁ = host₂ ∧ query₁ = query₂ := by
  obtain ⟨header₁, hheader₁, hhost₁⟩ := h₁.host_eq
  obtain ⟨header₂, hheader₂, hhost₂⟩ := h₂.host_eq
  cases hheader₁.symm.trans hheader₂
  cases hhost₁.symm.trans hhost₂
  cases h₁.path_eq.symm.trans h₂.path_eq
  cases h₁.query_eq.symm.trans h₂.query_eq
  exact ⟨rfl, rfl, rfl⟩

/-! ## When there is only one reading -/

/-- A field of a query or a header is there at most once. -/
def Single (value : S3Result (Option Text)) : Prop := ∃ v, value = .ok v

/-- The query is the one of a listing. -/
structure Listable (query : List (Text × Text)) : Prop where
  list_type : optional_query_value query "list-type" = .ok (some ['2'])
  scope : Single (optional_query_value query "prefix")
  delimiter : Single (optional_query_value query "delimiter")
  continuation_token : Single (optional_query_value query "continuation-token")
  start_after : Single (optional_query_value query "start-after")
  max_keys : ∃ n, signed_max_keys query = .ok n

/-- The request asks for an operation on an object, or on a bucket. -/
def Servable (request : S3SigV4Request) (query : List (Text × Text)) : Option Text → Prop
  | some _ => (request.method = "HEAD".toList ∨ request.method = "GET".toList) ∧
    Single (request.header "range") ∧ Single (request.header "if-match") ∧
      Single (request.header "if-none-match")
  | none => request.method = "HEAD".toList ∨ request.method = "GET".toList ∧
    (optional_query_value query "location" = .ok (some []) ∨ Listable query)

variable {query : List (Text × Text)}

theorem require_conditions_eq_ok {range if_match if_none_match : Option Text} :
    require_conditions request range if_match if_none_match = .ok () ↔
      request.header "range" = .ok range ∧ request.header "if-match" = .ok if_match ∧
        request.header "if-none-match" = .ok if_none_match := by
  simp only [require_conditions, require_forwarded_header_binding, ok_iff, exists_eq_right]

theorem require_listing_eq_ok {scope : Text}
    {delimiter continuation_token start_after : Option Text} :
    require_listing query scope delimiter continuation_token start_after = .ok () ↔
      optional_query_value query "list-type" = .ok (some ['2']) ∧
      (∃ v, optional_query_value query "prefix" = .ok v ∧ v.getD [] = scope) ∧
      (∃ v, optional_query_value query "delimiter" = .ok v ∧
        normalize_optional_query v = delimiter) ∧
      optional_query_value query "continuation-token" = .ok continuation_token ∧
      optional_query_value query "start-after" = .ok start_after := by
  simp only [require_listing, ok_iff]
  constructor
  · intro h
    obtain ⟨_, htype, rfl, v, hv, hscope, w, hw, hdelimiter, _, htoken, rfl, _, hstart, rfl⟩ := h
    exact ⟨htype, ⟨v, hv, hscope⟩, ⟨w, hw, hdelimiter⟩, htoken, hstart⟩
  · rintro ⟨htype, ⟨v, hv, hscope⟩, ⟨w, hw, hdelimiter⟩, htoken, hstart⟩
    exact ⟨_, htype, rfl, v, hv, hscope, w, hw, hdelimiter, _, htoken, rfl, _, hstart, rfl⟩

theorem signed_max_keys_lt {n : Nat} (h : signed_max_keys query = .ok n) : n < 2 ^ 16 := by
  simp only [signed_max_keys, bind_eq_ok] at h
  obtain ⟨value, _, h⟩ := h
  cases value with
  | none =>
    cases h
    decide
  | some value => exact parse_unsigned_lt (ok_or_eq_ok.mp h)

theorem operation_bound_key {key : Option Text} {operation : S3AuthorizeOperation}
    (h : operation_bound request key query operation = .ok ()) : operation.key = key := by
  cases operation <;>
    simp only [operation_bound, require_s3_method_and_key, ok_iff] at h
  · exact h.2.symm
  · exact h.1.2.symm
  · exact h.1.2.symm
  · exact h.1.2.symm
  · exact h.1.2.symm

/-- Some operation is bound to a request exactly if the request asks for one. -/
theorem exists_operation_bound_iff {key : Option Text} :
    (∃ operation, operation_bound request key query operation = .ok ()) ↔
      Servable request query key := by
  constructor
  · intro ⟨operation, h⟩
    cases operation <;> simp only [operation_bound, require_s3_method_and_key, ok_iff,
      require_listing_eq_ok, require_conditions_eq_ok] at h
    case HeadBucket =>
      rw [h.2]
      exact .inl h.1
    case GetBucketLocation =>
      obtain ⟨⟨hmethod, rfl⟩, location, hlocation, rfl⟩ := h
      exact .inr ⟨hmethod, .inl hlocation⟩
    case ListObjectsV2 =>
      obtain ⟨⟨hmethod, rfl⟩, ⟨htype, ⟨v, hv, _⟩, ⟨w, hw, _⟩, htoken, hstart⟩, n, hn, _⟩ := h
      exact .inr ⟨hmethod, .inr ⟨htype, ⟨v, hv⟩, ⟨w, hw⟩, ⟨_, htoken⟩, ⟨_, hstart⟩, ⟨n, hn⟩⟩⟩
    case HeadObject =>
      obtain ⟨⟨hmethod, rfl⟩, hrange, hmatch, hnone⟩ := h
      exact ⟨.inl hmethod, ⟨_, hrange⟩, ⟨_, hmatch⟩, ⟨_, hnone⟩⟩
    case GetObject =>
      obtain ⟨⟨hmethod, rfl⟩, hrange, hmatch, hnone⟩ := h
      exact ⟨.inr hmethod, ⟨_, hrange⟩, ⟨_, hmatch⟩, ⟨_, hnone⟩⟩
  · intro h
    cases key with
    | some key =>
      obtain ⟨hmethod, ⟨range, hrange⟩, ⟨if_match, hmatch⟩, ⟨if_none_match, hnone⟩⟩ := h
      have hconditions := require_conditions_eq_ok.mpr ⟨hrange, hmatch, hnone⟩
      rcases hmethod with hmethod | hmethod
      · refine ⟨.HeadObject key range if_match if_none_match, ?_⟩
        simp only [operation_bound, require_s3_method_and_key, ok_iff]
        exact ⟨⟨hmethod, trivial⟩, hconditions⟩
      · refine ⟨.GetObject key range if_match if_none_match, ?_⟩
        simp only [operation_bound, require_s3_method_and_key, ok_iff]
        exact ⟨⟨hmethod, trivial⟩, hconditions⟩
    | none =>
      rcases h with hmethod | ⟨hmethod, hlocation | hlist⟩
      · refine ⟨.HeadBucket, ?_⟩
        simp only [operation_bound, require_s3_method_and_key, ensure_eq_ok]
        exact ⟨hmethod, trivial⟩
      · refine ⟨.GetBucketLocation, ?_⟩
        simp only [operation_bound, require_s3_method_and_key, ok_iff]
        exact ⟨⟨hmethod, trivial⟩, _, hlocation, rfl⟩
      · obtain ⟨v, hv⟩ := hlist.scope
        obtain ⟨w, hw⟩ := hlist.delimiter
        obtain ⟨token, htoken⟩ := hlist.continuation_token
        obtain ⟨start, hstart⟩ := hlist.start_after
        obtain ⟨n, hn⟩ := hlist.max_keys
        have hmax : n = (UInt16.ofNat n).toNat := by
          rw [UInt16.toNat_ofNat']
          exact (Nat.mod_eq_of_lt (signed_max_keys_lt hn)).symm
        refine ⟨.ListObjectsV2 (v.getD []) (normalize_optional_query w) token start
          (UInt16.ofNat n), ?_⟩
        simp only [operation_bound, require_s3_method_and_key, ok_iff, require_listing_eq_ok]
        exact ⟨⟨hmethod, trivial⟩,
          ⟨hlist.list_type, ⟨v, hv, rfl⟩, ⟨w, hw, rfl⟩, htoken, hstart⟩, n, hn, hmax⟩

theorem listing_unique {key₁ key₂ : Option Text} {o₁ o₂ : S3AuthorizeOperation}
    (h₁ : operation_bound request key₁ query o₁ = .ok ())
    (h₂ : operation_bound request key₂ query o₂ = .ok ())
    {l₁ l₂ : Text × Option Text × Option Text × Option Text × UInt16} (hl₁ : o₁.listing = some l₁)
    (hl₂ : o₂.listing = some l₂) : l₁ = l₂ := by
  cases o₁ <;> cases hl₁
  cases o₂ <;> cases hl₂
  simp only [operation_bound, ok_iff, require_listing_eq_ok] at h₁ h₂
  obtain ⟨_, ⟨_, ⟨v₁, hv₁, rfl⟩, ⟨w₁, hw₁, rfl⟩, htoken₁, hstart₁⟩, n₁, hn₁, hmax₁⟩ := h₁
  obtain ⟨_, ⟨_, ⟨v₂, hv₂, rfl⟩, ⟨w₂, hw₂, rfl⟩, htoken₂, hstart₂⟩, n₂, hn₂, hmax₂⟩ := h₂
  cases hv₁.symm.trans hv₂
  cases hw₁.symm.trans hw₂
  cases htoken₁.symm.trans htoken₂
  cases hstart₁.symm.trans hstart₂
  cases hn₁.symm.trans hn₂
  cases UInt16.toNat_inj.mp (hmax₁.symm.trans hmax₂)
  rfl

/-- Two forwarded requests name the same resource. -/
def SameResource (a b : S3AuthorizeRequest) : Prop :=
  a.bucket = b.bucket ∧ a.operation.key = b.operation.key ∧
    ∀ l₁ l₂, a.operation.listing = some l₁ → b.operation.listing = some l₂ → l₁ = l₂

/-- No two readings can both be served: not two hosted buckets, and not a hosted one beside that of
the path. -/
structure Unambiguous (request : S3SigV4Request) : Prop where
  hosted : ∀ path host query, Readable request path host query →
    Servable request query (object_key path) → ∀ b₁ b₂, b₁ ≠ [] → b₂ ≠ [] → Hosted host b₁ →
      Hosted host b₂ → b₁ = b₂
  styles : ∀ path host query, Readable request path host query →
    ∀ b, b ≠ [] → Hosted host b → (path_style path).1 ≠ [] → ¬ Hosted host (path_style path).1 →
      Servable request query (object_key path) →
        ¬ Servable request query (object_key (path_style path).2)

theorem exists_accepted {path host bucket key : Text} (hread : Readable request path host query)
    (hreading : Reading path host bucket key) (hserve : Servable request query (object_key key)) :
    ∃ a : S3AuthorizeRequest, a.sigv4 = request ∧ a.bucket = bucket ∧
      a.validate_signed_operation_binding = .ok () := by
  obtain ⟨operation, hbound⟩ := exists_operation_bound_iff.mpr hserve
  refine ⟨⟨[], bucket, operation, request⟩, rfl, rfl, ?_⟩
  exact binding_eq_ok.mpr ⟨path, host, query, key, hread, hreading, hbound⟩

/-- **One signature, one resource**: all operations that are accepted for a signed request name
the same resource exactly if no two of its readings can both be served. -/
theorem signed_resource_unique_iff (request : S3SigV4Request) :
    (∀ a b : S3AuthorizeRequest, a.sigv4 = request → b.sigv4 = request →
      a.validate_signed_operation_binding = .ok () →
      b.validate_signed_operation_binding = .ok () → SameResource a b) ↔ Unambiguous request := by
  constructor
  · intro h
    have hbucket : ∀ {path host b₁ key₁ b₂ key₂ : Text} {query : List (Text × Text)},
        Readable request path host query → Reading path host b₁ key₁ →
        Reading path host b₂ key₂ → Servable request query (object_key key₁) →
        Servable request query (object_key key₂) → b₁ = b₂ := by
      intro path host b₁ key₁ b₂ key₂ query hread h₁ h₂ hs₁ hs₂
      obtain ⟨a, ha, rfl, hav⟩ := exists_accepted hread h₁ hs₁
      obtain ⟨b, hb, rfl, hbv⟩ := exists_accepted hread h₂ hs₂
      exact (h a b ha hb hav hbv).1
    constructor
    · intro path host query hread hserve b₁ b₂ hb₁ hb₂ hh₁ hh₂
      exact hbucket hread ⟨hb₁, .inl ⟨hh₁, rfl⟩⟩ ⟨hb₂, .inl ⟨hh₂, rfl⟩⟩ hserve hserve
    · intro path host query hread b hb hhosted hne hother hserve hserve'
      have heq := hbucket hread ⟨hb, .inl ⟨hhosted, rfl⟩⟩ ⟨hne, .inr ⟨hother, rfl⟩⟩ hserve hserve'
      exact hother (heq ▸ hhosted)
  · intro h a b ha hb hav hbv
    obtain ⟨path, host, query, key₁, hread₁, ⟨hne₁, hreading₁⟩, hbound₁⟩ := binding_eq_ok.mp hav
    obtain ⟨path', host', query', key₂, hread₂, ⟨hne₂, hreading₂⟩, hbound₂⟩ := binding_eq_ok.mp hbv
    rw [ha] at hread₁ hbound₁
    rw [hb] at hread₂ hbound₂
    obtain ⟨rfl, rfl, rfl⟩ := hread₁.unique hread₂
    have hserve₁ := exists_operation_bound_iff.mp ⟨_, hbound₁⟩
    have hserve₂ := exists_operation_bound_iff.mp ⟨_, hbound₂⟩
    have hsame : a.bucket = b.bucket ∧ key₁ = key₂ := by
      rcases hreading₁ with ⟨hhosted₁, rfl⟩ | ⟨hpath₁, hstyle₁⟩
      · rcases hreading₂ with ⟨hhosted₂, rfl⟩ | ⟨hpath₂, hstyle₂⟩
        · exact ⟨h.hosted _ host query hread₁ hserve₁ _ _ hne₁ hne₂ hhosted₁ hhosted₂, rfl⟩
        · have hno := h.styles _ host query hread₁ _ hne₁ hhosted₁
          rw [hstyle₂] at hno
          exact absurd hserve₂ (hno hne₂ hpath₂ hserve₁)
      · rcases hreading₂ with ⟨hhosted₂, rfl⟩ | ⟨hpath₂, hstyle₂⟩
        · have hno := h.styles _ host query hread₁ _ hne₂ hhosted₂
          rw [hstyle₁] at hno
          exact absurd hserve₁ (hno hne₁ hpath₁ hserve₂)
        · have heq := hstyle₁.symm.trans hstyle₂
          exact ⟨congrArg Prod.fst heq, congrArg Prod.snd heq⟩
    refine ⟨hsame.1, ?_, fun l₁ l₂ hl₁ hl₂ => listing_unique hbound₁ hbound₂ hl₁ hl₂⟩
    rw [operation_bound_key hbound₁, operation_bound_key hbound₂, hsame.2]

namespace BindingSample

open CoverageSample (request signing secret claims)

/-- A signed request for the object `file` in the bucket `data` of `s3.example.test`. -/
def signed : S3SigV4Request :=
  CoverageSample.request "/data/file" "" "s3.example.test"
    (pieces ["1684948a4c261048", "6124537682260577", "6cc488471cbabe80", "1a0e165a97bdd9bf"])

def get (bucket key : String) : S3AuthorizeRequest :=
  ⟨"pool".toList, bucket.toList, .GetObject key.toList none none none, signed⟩

end BindingSample

open BindingSample CoverageSample in
/-- One request is accepted as a GET in the bucket `data` of its path, and in `s3` and `s3.example`,
leading parts of its host. -/
theorem signed_request_of_three_buckets : signed.verify_at signing secret 1786924800 = .ok claims ∧
      (get "data" "file").validate_signed_operation_binding = .ok () ∧
      (get "s3" "data/file").validate_signed_operation_binding = .ok () ∧
      (get "s3.example" "data/file").validate_signed_operation_binding = .ok () ∧
      ¬ SameResource (get "data" "file") (get "s3" "data/file") := by
  refine ⟨by decide +kernel, by decide +kernel, by decide +kernel, by decide +kernel, ?_⟩
  intro h
  exact absurd h.1 (by decide +kernel)

end NeoEngram.S3
