import NeoEngram.Core.Concrete
import NeoEngram.Core.SigV4

/-! # What a signature covers

Two requests with the same signature under the same secret agree on
everything that is signed (`Covered`), if no two of the hashed texts collide:
the parts of a canonical request have no line breaks, and a header line is
never empty.
-/

namespace NeoEngram.S3

open Checks Framing PercentEncoding List Words ContentDigest UInt8 Except Prod

/-! ## What is covered -/

/-- The parts of a request that its signature covers. -/
structure Covered where
  method : Text
  /-- Percent-decoded. -/
  path : Text
  /-- The decoded pairs of the query without a presigned request's own signature. -/
  pairs : Multiset (Text × Text)
  /-- The signed header names with their values, whitespace collapsed and joined with commas. -/
  headers : List (Text × Text)
  (payload_hash amz_date region service : Text)

def signed_headers (request : S3SigV4Request) (parsed : ParsedSigV4) : List (Text × Text) :=
  (Words.split ';' parsed.signed_headers).map fun name => (name, signed_header_value request name)

def covered (request : S3SigV4Request) : S3Result Covered := do
  let parsed ← ParsedSigV4.parse request
  let pairs ← parse_query_pairs request.query
  let path ← ok_or (percent_decode_str request.path) "SigV4 URI is not UTF-8"
  let payload_hash ← payload_hash request
  return {
    method := request.method
    path := path
    pairs := signed_pairs pairs parsed.expires_seconds.isSome
    headers := signed_headers request parsed
    payload_hash := payload_hash
    amz_date := parsed.amz_date
    region := parsed.region
    service := parsed.service }

/-- The text of a request that is hashed with SHA-256. -/
def hashed_text (request : S3SigV4Request) : S3Result Bytes := do
  let parsed ← ParsedSigV4.parse request
  let canonical_request ← canonical_request request parsed
  return utf8 canonical_request

/-- The key and the text of the HMAC that is the signature of a request. -/
def hmac_input (signing : Signing) (secret : Bytes) (request : S3SigV4Request) :
    S3Result (Bytes × Bytes) := do
  let parsed ← ParsedSigV4.parse request
  let canonical_request ← canonical_request request parsed
  return (derive_signing_key signing secret parsed.scope_date parsed.region parsed.service,
    utf8 (string_to_sign signing parsed.amz_date
      (scope parsed.scope_date parsed.region parsed.service) canonical_request))

/-- Among some requests, SHA-256 has no collisions and HMAC is injective in key and message. -/
structure CollisionFree (signing : Signing) (secret : Bytes) (requests : Set S3SigV4Request) :
    Prop where
  sha256 : ∀ r₁ ∈ requests, ∀ r₂ ∈ requests, ∀ t₁ t₂, hashed_text r₁ = .ok t₁ →
    hashed_text r₂ = .ok t₂ → signing.sha256 t₁ = signing.sha256 t₂ → t₁ = t₂
  hmac : ∀ r₁ ∈ requests, ∀ r₂ ∈ requests, ∀ i₁ i₂, hmac_input signing secret r₁ = .ok i₁ →
    hmac_input signing secret r₂ = .ok i₂ →
    signing.hmac_sha256 i₁.1 i₁.2 = signing.hmac_sha256 i₂.1 i₂.2 → i₁ = i₂

/-! ## Encoded texts -/

theorem plain_unreserved (encode_slash : Bool) :
    Plain fun byte => is_unreserved byte || (byte == 47 && !encode_slash) := by
  intro byte hbyte
  simp only [is_unreserved, Bool.or_eq_true, Bool.and_eq_true, decide_eq_true_eq, beq_iff_eq,
    UInt8.le_iff_toNat_le, ← UInt8.toNat_inj] at hbyte
  rw [ne_eq, ← UInt8.toNat_inj]
  simp only [UInt8.reduceToNat] at hbyte ⊢
  omega

variable {encode_slash : Bool}

theorem aws_encode_injective {a b : Text}
    (h : aws_encode a encode_slash = aws_encode b encode_slash) : a = b :=
  utf8_injective (percent_encode_injective (plain_unreserved encode_slash) h)

variable {c : Char}

/-- Line breaks and the separators of queries do not occur in encoded texts. -/
theorem not_mem_aws_encode {value : Text}
    (hc : c ∈ ['\n', '&', '=', '?', ':', '#']) : c ∉ aws_encode value encode_slash := by
  simp only [mem_cons, not_mem_nil, or_false] at hc
  rcases hc with rfl | rfl | rfl | rfl | rfl | rfl <;>
    exact not_mem_percent_encode (by cases encode_slash <;> rfl) (by decide)
      (by unfold IsHexDigit; decide)

/-! ## The canonical query -/

theorem encode_pair_injective : Function.Injective encode_pair := by
  intro a b h
  obtain ⟨hname, hvalue⟩ := mk.inj h
  exact Prod.ext (aws_encode_injective hname) (aws_encode_injective hvalue)

def sorted_pairs (pairs : List (Text × Text)) : List (Text × Text) :=
  (pairs.map encode_pair).insertionSort fun left right => toLex left ≤ toLex right

variable {pairs : List (Text × Text)}

theorem mem_sorted_pairs {encoded : Text × Text}
    (h : encoded ∈ sorted_pairs pairs) : ∃ pair, encode_pair pair = encoded := by
  have hmem := (perm_insertionSort _ _).mem_iff.mp h
  obtain ⟨pair, _, rfl⟩ := mem_map.mp hmem
  exact ⟨pair, rfl⟩

theorem canonical_pair_inj {a b : Text × Text}
    (h : canonical_pair (encode_pair a) = canonical_pair (encode_pair b)) :
    encode_pair a = encode_pair b := by
  obtain ⟨hname, hvalue⟩ := append_cons_inj '=' (not_mem_aws_encode (by decide))
    (not_mem_aws_encode (by decide)) h
  exact Prod.ext hname hvalue

theorem not_mem_canonical_pair {pair : Text × Text}
    (hc : c ∈ ['\n', '&', '?', ':', '#']) : c ∉ canonical_pair (encode_pair pair) := by
  have hlist : c ∈ ['\n', '&', '=', '?', ':', '#'] := by
    simp only [mem_cons, not_mem_nil, or_false] at hc ⊢
    tauto
  have hne : c ≠ '=' := by
    rintro rfl
    revert hc
    decide
  unfold canonical_pair
  simp only [mem_append, mem_cons, not_or]
  exact ⟨not_mem_aws_encode hlist, hne, not_mem_aws_encode hlist⟩

/-- The pairs of a query are found again in its text. -/
theorem map_canonical_pair_inj {a b : List (Text × Text)}
    (ha : ∀ p ∈ a, ∃ pair, encode_pair pair = p) (hb : ∀ p ∈ b, ∃ pair, encode_pair pair = p)
    (h : a.map canonical_pair = b.map canonical_pair) : a = b := by
  induction a generalizing b with
  | nil => exact (map_eq_nil_iff.mp h.symm).symm
  | cons p a ih =>
    cases b with
    | nil => cases h
    | cons q b =>
      obtain ⟨⟨pair, hpair⟩, ha'⟩ := forall_mem_cons.mp ha
      obtain ⟨⟨other, hother⟩, hb'⟩ := forall_mem_cons.mp hb
      obtain ⟨hhead, htail⟩ := cons.inj h
      rw [← hpair, ← hother] at hhead ⊢
      rw [canonical_pair_inj hhead, ih ha' hb' htail]

theorem joined_pairs_eq_nil {a : List (Text × Text)}
    (h : joined '&' (a.map canonical_pair) = []) : a = [] := by
  cases a with
  | nil => rfl
  | cons p a =>
    -- every pair has an equality sign
    have hmem : '=' ∈ canonical_pair p := mem_append_right _ mem_cons_self
    have hword : canonical_pair p ∈ (p :: a).map canonical_pair := mem_map_of_mem mem_cons_self
    have hjoined := (sublist_joined '&' hword).subset hmem
    rw [h] at hjoined
    cases hjoined

theorem joined_pairs_injective {a b : List (Text × Text)}
    (ha : ∀ p ∈ a, ∃ pair, encode_pair pair = p) (hb : ∀ p ∈ b, ∃ pair, encode_pair pair = p)
    (h : joined '&' (a.map canonical_pair) = joined '&' (b.map canonical_pair)) :
    a = b := by
  have hfree : ∀ l : List (Text × Text), (∀ p ∈ l, ∃ pair, encode_pair pair = p) →
      Words.SepFree '&' (l.map canonical_pair) := by
    intro l hl word hword
    obtain ⟨p, hp, rfl⟩ := mem_map.mp hword
    obtain ⟨pair, rfl⟩ := hl p hp
    exact not_mem_canonical_pair (by decide)
  by_cases hnil : a = []
  · rw [hnil] at h ⊢
    exact (joined_pairs_eq_nil h.symm).symm
  · by_cases hnil' : b = []
    · rw [hnil'] at h
      exact absurd (joined_pairs_eq_nil h) hnil
    · apply map_canonical_pair_inj ha hb
      exact joined_injective '&' (hfree a ha) (hfree b hb)
        (fun hmap => hnil (map_eq_nil_iff.mp hmap))
        (fun hmap => hnil' (map_eq_nil_iff.mp hmap)) h

/-- **The canonical query determines the signed pairs**, up to their order. -/
theorem canonical_query_inj {pairs₁ pairs₂ : List (Text × Text)} {presigned₁ presigned₂ : Bool}
    (h : canonical_query pairs₁ presigned₁ = canonical_query pairs₂ presigned₂) :
    (signed_pairs pairs₁ presigned₁ : Multiset (Text × Text)) = signed_pairs pairs₂ presigned₂ := by
  have hsorted : sorted_pairs (signed_pairs pairs₁ presigned₁) =
      sorted_pairs (signed_pairs pairs₂ presigned₂) :=
    joined_pairs_injective (fun _ => mem_sorted_pairs) (fun _ => mem_sorted_pairs) h
  have hfirst : (sorted_pairs (signed_pairs pairs₁ presigned₁)).Perm
      ((signed_pairs pairs₁ presigned₁).map encode_pair) := perm_insertionSort _ _
  have hsecond : (sorted_pairs (signed_pairs pairs₂ presigned₂)).Perm
      ((signed_pairs pairs₂ presigned₂).map encode_pair) := perm_insertionSort _ _
  rw [hsorted] at hfirst
  apply Multiset.coe_eq_coe.mpr
  exact (map_perm_map_iff encode_pair_injective).mp (hfirst.symm.trans hsecond)

theorem not_mem_canonical_query {presigned : Bool}
    (hc : c ∈ ['\n', '?', ':', '#']) : c ∉ canonical_query pairs presigned := by
  have hlist : c ∈ ['\n', '&', '?', ':', '#'] := by
    simp only [mem_cons, not_mem_nil, or_false] at hc ⊢
    tauto
  apply not_mem_joined
  · rintro rfl
    revert hc
    decide
  · intro word hword
    obtain ⟨p, hp, rfl⟩ := mem_map.mp hword
    obtain ⟨pair, rfl⟩ := mem_sorted_pairs hp
    exact not_mem_canonical_pair hlist

/-! ## The signed headers -/

def header_line (header : Text × Text) : Text := header.1 ++ ':' :: header.2

/-- A header that can stand in a line of its own. -/
structure LineSafe (header : Text × Text) : Prop where
  name : header.1.all is_lowercase_header_name = true
  nonempty : header.1 ≠ []
  value : '\n' ∉ header.2

theorem is_lowercase_header_name_ne {d : Char} (hc : is_lowercase_header_name c = true)
    (hd : d ∈ ['\n', ':', ';']) : c ≠ d := by
  rintro rfl
  simp only [mem_cons, not_mem_nil, or_false] at hd
  rcases hd with rfl | rfl | rfl <;> revert hc <;> decide

variable {header : Text × Text}

theorem LineSafe.not_mem_name (h : LineSafe header) (hc : c ∈ ['\n', ':', ';']) : c ∉ header.1 := by
  intro hmem
  exact is_lowercase_header_name_ne (all_eq_true.mp h.name c hmem) hc rfl

theorem LineSafe.not_mem_line (h : LineSafe header) : '\n' ∉ header_line header := by
  unfold header_line
  simp only [mem_append, mem_cons, not_or]
  exact ⟨h.not_mem_name (by decide), by decide, h.value⟩

theorem header_line_inj {a b : Text × Text} (ha : LineSafe a) (hb : LineSafe b)
    (h : header_line a = header_line b) : a = b := by
  obtain ⟨hname, hvalue⟩ := append_cons_inj ':' (ha.not_mem_name (by decide))
    (hb.not_mem_name (by decide)) h
  exact Prod.ext hname hvalue

theorem header_line_ne_nil (header : Text × Text) : header_line header ≠ [] := by
  simp [header_line]

/-- Header lines that end with an empty line are found again, with what follows. -/
theorem header_lines_inj {a b : List (Text × Text)} (ha : ∀ header ∈ a, LineSafe header)
    (hb : ∀ header ∈ b, LineSafe header) {s t : Text}
    (h : a.flatMap (fun header => header_line header ++ ['\n']) ++ '\n' :: s =
      b.flatMap (fun header => header_line header ++ ['\n']) ++ '\n' :: t) : a = b ∧ s = t := by
  -- a line is not empty, so the empty line ends both lists
  have hempty : ∀ (header : Text × Text) (rest s : Text), LineSafe header →
      '\n' :: s ≠ header_line header ++ ['\n'] ++ rest := by
    intro header rest s hsafe heq
    obtain ⟨c, line, hline⟩ := exists_cons_of_ne_nil (header_line_ne_nil header)
    rw [hline] at heq
    have hmem : '\n' ∈ header_line header := by
      rw [hline, (cons.inj heq).1]
      exact mem_cons_self
    exact hsafe.not_mem_line hmem
  induction a generalizing b with
  | nil =>
    cases b with
    | nil => exact ⟨rfl, (cons.inj h).2⟩
    | cons header b =>
      rw [flatMap_cons, append_assoc] at h
      exact absurd h (hempty header _ s (forall_mem_cons.mp hb).1)
  | cons header a ih =>
    obtain ⟨hheader, ha⟩ := forall_mem_cons.mp ha
    cases b with
    | nil =>
      rw [flatMap_cons, append_assoc] at h
      exact absurd h.symm (hempty header _ t hheader)
    | cons other b =>
      obtain ⟨hother, hb⟩ := forall_mem_cons.mp hb
      simp only [flatMap_cons, append_assoc, singleton_append] at h
      obtain ⟨hline, hrest⟩ := append_cons_inj '\n' hheader.not_mem_line hother.not_mem_line h
      obtain ⟨htail, hfollow⟩ := ih ha hb hrest
      exact ⟨by rw [header_line_inj hheader hother hline, htail], hfollow⟩

theorem newline_not_mem_signed_header_value {request : S3SigV4Request} {name : Text} :
    '\n' ∉ signed_header_value request name := by
  apply not_mem_joined ',' (by decide)
  intro value hvalue
  obtain ⟨raw, _, rfl⟩ := mem_map.mp hvalue
  apply not_mem_joined ' ' (by decide)
  intro word hword
  exact split_ascii_whitespace_free hword (by decide)

/-- The canonical headers are the lines of the signed headers, which are safe. -/
theorem canonical_headers_eq_ok {request : S3SigV4Request} {seen names : List Text}
    {canonical : Text} (h : canonical_headers request seen names = .ok canonical) :
    (∀ name ∈ names, LineSafe (name, signed_header_value request name)) ∧
      canonical = (names.map fun name => (name, signed_header_value request name)).flatMap
        fun header => header_line header ++ ['\n'] := by
  induction names generalizing seen canonical with
  | nil =>
    cases h
    exact ⟨fun _ hname => absurd hname not_mem_nil, rfl⟩
  | cons name names ih =>
    simp only [canonical_headers, ok_iff] at h
    obtain ⟨⟨hnonempty, hname, _⟩, _, rest, hrest, rfl⟩ := h
    obtain ⟨hsafe, rfl⟩ := ih hrest
    refine ⟨forall_mem_cons.mpr
      ⟨⟨hname, hnonempty, newline_not_mem_signed_header_value⟩, hsafe⟩, ?_⟩
    simp [header_line]

/-! ## The canonical request and the string to sign -/

structure CanonicalParts (request : S3SigV4Request) (parsed : ParsedSigV4)
    (canonical_request : Text) where
  pairs : List (Text × Text)
  (path payload : Text)
  pairs_eq : parse_query_pairs request.query = .ok pairs
  path_eq : percent_decode_str request.path = some path
  payload_eq : payload_hash request = .ok payload
  headers_safe : ∀ header ∈ signed_headers request parsed, LineSafe header
  eq : canonical_request = request.method ++ '\n' :: (aws_encode path false ++ '\n' ::
    (canonical_query pairs parsed.expires_seconds.isSome ++ '\n' ::
      ((signed_headers request parsed).flatMap (fun header => header_line header ++ ['\n']) ++
        '\n' :: (parsed.signed_headers ++ '\n' :: payload))))

variable {parsed : ParsedSigV4} {p₁ p₂ : ParsedSigV4} {text₁ text₂ : Text}

theorem canonical_request_parts {request : S3SigV4Request} {text : Text}
    (h : canonical_request request parsed = .ok text) :
    Nonempty (CanonicalParts request parsed text) := by
  simp only [canonical_request, canonical_signed_headers, ok_iff] at h
  obtain ⟨_, ⟨_, canonical, hcanonical, rfl⟩, pairs, hpairs, path, hpath, payload, hpayload, rfl⟩ :=
    h
  obtain ⟨hsafe, rfl⟩ := canonical_headers_eq_ok hcanonical
  refine ⟨⟨pairs, path, payload, hpairs, hpath, hpayload, ?_, ?_⟩⟩
  · intro header hheader
    obtain ⟨name, hname, rfl⟩ := mem_map.mp hheader
    exact hsafe name hname
  · simp [signed_headers]

theorem CanonicalParts.unique {r₁ r₂ : S3SigV4Request}
    (c₁ : CanonicalParts r₁ p₁ text₁) (c₂ : CanonicalParts r₂ p₂ text₂)
    (h₁ : '\n' ∉ r₁.method) (h₂ : '\n' ∉ r₂.method) (htext : text₁ = text₂) :
    r₁.method = r₂.method ∧ c₁.path = c₂.path ∧
      (signed_pairs c₁.pairs p₁.expires_seconds.isSome : Multiset (Text × Text)) =
        signed_pairs c₂.pairs p₂.expires_seconds.isSome ∧
      signed_headers r₁ p₁ = signed_headers r₂ p₂ ∧ c₁.payload = c₂.payload := by
  obtain ⟨hmethod, hrest⟩ := append_cons_inj '\n' h₁ h₂ (c₁.eq.symm.trans (htext.trans c₂.eq))
  obtain ⟨hpath, hrest⟩ := append_cons_inj '\n' (not_mem_aws_encode (by decide))
    (not_mem_aws_encode (by decide)) hrest
  obtain ⟨hquery, hrest⟩ := append_cons_inj '\n' (not_mem_canonical_query (by decide))
    (not_mem_canonical_query (by decide)) hrest
  obtain ⟨hheaders, hrest⟩ := header_lines_inj c₁.headers_safe c₂.headers_safe hrest
  -- the list of names is the one of the headers
  have hnames : p₁.signed_headers = p₂.signed_headers := by
    have hlist := congrArg (List.map Prod.fst) hheaders
    simp only [signed_headers, List.map_map] at hlist
    apply split_injective ';'
    simpa [Function.comp_def] using hlist
  rw [hnames] at hrest
  exact ⟨hmethod, aws_encode_injective hpath, canonical_query_inj hquery, hheaders,
    (cons.inj (append_cancel_left hrest)).2⟩

theorem to_hex_length (digest : ContentDigest) : digest.to_hex.toList.length = 64 := by
  have hall : ∀ bytes : List UInt8, (bytes.flatMap fun b =>
      [ContentDigest.hex_digit (b.toNat / 16), ContentDigest.hex_digit (b.toNat % 16)]).length =
        2 * bytes.length := by
    intro bytes
    induction bytes with
    | nil => rfl
    | cons b bytes ih =>
      rw [flatMap_cons, length_append, ih]
      simp only [length_cons, length_nil]
      omega
  rw [to_hex, String.toList_ofList, hall]
  simp

/-- The dates of a parsed signature. -/
structure Dated (parsed : ParsedSigV4) : Prop where
  length : str_len parsed.amz_date = 16
  scope : utf8 parsed.scope_date = (utf8 parsed.amz_date).take 8

theorem string_to_sign_inj {signing : Signing}
    (h₁ : Dated p₁) (h₂ : Dated p₂) (hservice : p₁.service = p₂.service)
    (h : string_to_sign signing p₁.amz_date (scope p₁.scope_date p₁.region p₁.service) text₁ =
      string_to_sign signing p₂.amz_date (scope p₂.scope_date p₂.region p₂.service) text₂) :
    p₁.amz_date = p₂.amz_date ∧ p₁.region = p₂.region ∧
      signing.sha256 (utf8 text₁) = signing.sha256 (utf8 text₂) := by
  simp only [string_to_sign, scope, joined_cons_cons, joined_singleton] at h
  have hrest := (cons.inj (append_cancel_left h)).2
  -- the dates have the same number of bytes
  have hbytes := congrArg utf8 hrest
  rw [utf8_append, utf8_append] at hbytes
  obtain ⟨hdate, htail⟩ := append_inj hbytes (h₁.length.trans h₂.length.symm)
  have hdate := utf8_injective hdate
  have htail := (cons.inj (utf8_injective htail)).2
  -- and the digests the same number of digits
  have hlength : ('\n' :: (signing.sha256 (utf8 text₁)).to_hex.toList).length =
      ('\n' :: (signing.sha256 (utf8 text₂)).to_hex.toList).length := by
    rw [length_cons, length_cons, to_hex_length, to_hex_length]
  obtain ⟨hscope, hdigest⟩ := append_inj' htail hlength
  have hscope_date : p₁.scope_date = p₂.scope_date := by
    apply utf8_injective
    rw [h₁.scope, h₂.scope, hdate]
  rw [hscope_date, hservice] at hscope
  have hregion := append_cancel_right (cons.inj (append_cancel_left hscope)).2
  exact ⟨hdate, hregion, to_hex_injective (String.toList_inj.mp (cons.inj hdigest).2)⟩

/-! ## Coverage -/

theorem constant_time_eq_iff {left right : Bytes} :
    constant_time_eq left right = true ↔ left = right := by
  have hfold : ∀ (pairs : List (UInt8 × UInt8)) (difference : UInt8),
      pairs.foldl (fun difference pair => difference ||| (pair.1 ^^^ pair.2)) difference = 0 ↔
        difference = 0 ∧ ∀ pair ∈ pairs, pair.1 = pair.2 := by
    intro pairs
    induction pairs with
    | nil => simp
    | cons pair pairs ih =>
      intro difference
      rw [foldl_cons, ih, UInt8.or_eq_zero_iff, UInt8.xor_eq_zero_iff, forall_mem_cons, and_assoc]
  unfold constant_time_eq
  split
  · next hlength =>
    simp only [Bool.false_eq_true, false_iff]
    exact fun heq => hlength (congrArg List.length heq)
  · next hlength =>
    rw [beq_iff_eq, hfold, ← forall₂_eq_eq_eq, forall₂_iff_zip]
    simp only [true_and, Prod.forall, not_not.mp hlength]

/-- The fields of a signature that passes the checks. -/
theorem check_eq_ok {fields : SignatureFields} (h : fields.check = .ok parsed) :
    Dated parsed ∧ parsed.signature = to_ascii_lowercase fields.signature := by
  simp only [SignatureFields.check, ok_iff] at h
  obtain ⟨_, h⟩ := h
  split at h
  · simp only [ok_iff] at h
    obtain ⟨_, ⟨hlength, _, _, hscope⟩, rfl⟩ := h
    exact ⟨⟨hlength, hscope⟩, rfl⟩
  · cases h

/-- What is known of a request that was verified. -/
structure Verified (signing : Signing) (secret : Bytes) (request : S3SigV4Request) where
  fields : SignatureFields
  parsed : ParsedSigV4
  text : Text
  fields_eq : signature_fields request = .ok fields
  parsed_eq : fields.check = .ok parsed
  text_eq : canonical_request request parsed = .ok text
  method : request.method = "GET".toList ∨ request.method = "HEAD".toList
  service : parsed.service = "s3".toList
  signature : expected_signature signing secret parsed text = parsed.signature

theorem verify_at_verified {signing : Signing} {secret : Bytes} {request : S3SigV4Request}
    {now_unix_seconds : Nat} {claims : S3SigV4Claims}
    (h : request.verify_at signing secret now_unix_seconds = .ok claims) :
    Nonempty (Verified signing secret request) := by
  simp only [S3SigV4Request.verify_at, ParsedSigV4.parse, ok_iff] at h
  obtain ⟨hmethod, _, parsed, ⟨fields, hfields, hparsed⟩, hservice, _, text, htext,
    hsignature, _⟩ :=
    h
  exact ⟨⟨fields, parsed, text, hfields, hparsed, htext, hmethod, hservice,
    utf8_injective (constant_time_eq_iff.mp hsignature)⟩⟩

namespace Verified

variable {signing : Signing} {secret : Bytes} {request : S3SigV4Request}
  (v : Verified signing secret request)

include v

theorem parse_eq : ParsedSigV4.parse request = .ok v.parsed :=
  bind_eq_ok.mpr ⟨v.fields, v.fields_eq, v.parsed_eq⟩

theorem hashed_text_eq : hashed_text request = .ok (utf8 v.text) := by
  unfold hashed_text
  rw [v.parse_eq]
  simp only [bind, Except.bind, v.text_eq]
  rfl

theorem hmac_input_eq : hmac_input signing secret request =
      .ok (derive_signing_key signing secret v.parsed.scope_date v.parsed.region v.parsed.service,
        utf8 (string_to_sign signing v.parsed.amz_date
          (scope v.parsed.scope_date v.parsed.region v.parsed.service) v.text)) := by
  unfold hmac_input
  rw [v.parse_eq]
  simp only [bind, Except.bind, v.text_eq]
  rfl

theorem newline_not_mem_method : '\n' ∉ request.method := by
  rcases v.method with h | h <;> rw [h] <;> decide

theorem covered_eq (parts : CanonicalParts request v.parsed v.text) :
    covered request = .ok ⟨request.method, parts.path,
      signed_pairs parts.pairs v.parsed.expires_seconds.isSome, signed_headers request v.parsed,
      parts.payload, v.parsed.amz_date, v.parsed.region, v.parsed.service⟩ := by
  unfold covered
  rw [v.parse_eq]
  simp only [bind, bind, parts.pairs_eq, parts.path_eq, parts.payload_eq, ok_or]
  rfl

end Verified

/-- **A signature covers the request**: two requests that are verified with the same secret and
carry the same signature, up to the case of its digits, agree on everything that is covered. -/
theorem signature_covers_request (signing : Signing) (secret : Bytes)
    (requests : Set S3SigV4Request) (hfree : CollisionFree signing secret requests)
    (r₁ : S3SigV4Request) (hr₁ : r₁ ∈ requests) (r₂ : S3SigV4Request) (hr₂ : r₂ ∈ requests)
    (now₁ now₂ : Nat) (claims₁ claims₂ : S3SigV4Claims)
    (h₁ : r₁.verify_at signing secret now₁ = .ok claims₁)
    (h₂ : r₂.verify_at signing secret now₂ = .ok claims₂)
    (fields₁ fields₂ : SignatureFields) (hf₁ : signature_fields r₁ = .ok fields₁)
    (hf₂ : signature_fields r₂ = .ok fields₂)
    (hsame : eq_ignore_ascii_case fields₁.signature fields₂.signature = true) :
    ∃ view, covered r₁ = .ok view ∧ covered r₂ = .ok view := by
  obtain ⟨v₁⟩ := verify_at_verified h₁
  obtain ⟨v₂⟩ := verify_at_verified h₂
  obtain ⟨parts₁⟩ := canonical_request_parts v₁.text_eq
  obtain ⟨parts₂⟩ := canonical_request_parts v₂.text_eq
  obtain ⟨hdated₁, hsignature₁⟩ := check_eq_ok v₁.parsed_eq
  obtain ⟨hdated₂, hsignature₂⟩ := check_eq_ok v₂.parsed_eq
  -- the same signature, so the same string to sign
  have hsignatures : v₁.parsed.signature = v₂.parsed.signature := by
    cases hf₁.symm.trans v₁.fields_eq
    cases hf₂.symm.trans v₂.fields_eq
    rw [hsignature₁, hsignature₂]
    exact decide_eq_true_iff.mp hsame
  have hhmac : expected_signature signing secret v₁.parsed v₁.text =
      expected_signature signing secret v₂.parsed v₂.text := by
    rw [v₁.signature, v₂.signature, hsignatures]
  have hinput := hfree.hmac r₁ hr₁ r₂ hr₂ _ _ v₁.hmac_input_eq v₂.hmac_input_eq
    (ContentDigest.to_hex_injective (String.toList_inj.mp hhmac))
  have hstring := utf8_injective (congrArg Prod.snd hinput)
  have hservice : v₁.parsed.service = v₂.parsed.service := v₁.service.trans v₂.service.symm
  obtain ⟨hdate, hregion, hdigest⟩ := string_to_sign_inj hdated₁ hdated₂ hservice hstring
  -- so the same canonical request
  have htext : v₁.text = v₂.text :=
    utf8_injective (hfree.sha256 r₁ hr₁ r₂ hr₂ _ _ v₁.hashed_text_eq v₂.hashed_text_eq hdigest)
  obtain ⟨hmethod, hpath, hpairs, hheaders, hpayload⟩ := parts₁.unique parts₂
    v₁.newline_not_mem_method v₂.newline_not_mem_method htext
  refine ⟨_, v₁.covered_eq parts₁, ?_⟩
  rw [v₂.covered_eq parts₂, hmethod, hpath, hpairs, hheaders, hpayload, hdate, hregion, hservice]

namespace CoverageSample

def signing : Signing := ⟨poly_hash, fun key text => poly_hash (key ++ text)⟩

def secret : Bytes := [1, 2]

/-- A request of the access key `AK`. -/
def request (path query host : String) (signature : Text) : S3SigV4Request where
  method := "GET".toList
  path := path.toList
  query := query.toList
  headers := [("Host".toList, host.toList), ("x-amz-date".toList, "20260817T000000Z".toList),
    ("authorization".toList, pieces ["AWS4-HMAC-SHA256", " Credential=", "AK/20260817/eu",
      "/s3/aws4_request", ", SignedHeaders=", "host;x-amz-date", ", Signature="] ++ signature)]

def signature : Text :=
  pieces ["31a93db64eb38d7b", "1e3a21dd25991115", "052fce2a0807f8b4", "7d1824052d63f6bf"]

def capital_signature : Text :=
  pieces ["31A93DB64EB38D7B", "1E3A21DD25991115", "052FCE2A0807F8B4", "7D1824052D63F6BF"]

def first : S3SigV4Request := request "/b/k" "x=1&y=2" "h.example" signature

def second : S3SigV4Request := request "/b/%6b" "y=2&&x=%31" " h.example " capital_signature

def fields (signature : Text) : SignatureFields :=
  ⟨pieces ["AK/20260817/eu", "/s3/aws4_request"], "host;x-amz-date".toList, signature,
    "20260817T000000Z".toList, none⟩

def claims : S3SigV4Claims := ⟨"AK".toList, "eu".toList, "s3".toList, 1786925700⟩

theorem hashed_text_eq : hashed_text first = hashed_text second := by decide +kernel

theorem hmac_input_eq : hmac_input signing secret first = hmac_input signing secret second := by
  decide +kernel

theorem collisionFree : CollisionFree signing secret {first, second} := by
  have hsame : ∀ {α : Type} (f : S3SigV4Request → S3Result α), f first = f second →
      ∀ r₁ ∈ ({first, second} : Set S3SigV4Request), ∀ r₂ ∈ ({first, second} : Set S3SigV4Request),
        f r₁ = f r₂ := by
    intro α f heq r₁ hr₁ r₂ hr₂
    rcases hr₁ with rfl | rfl <;> rcases hr₂ with rfl | rfl
    · rfl
    · exact heq
    · exact heq.symm
    · rfl
  constructor
  · intro r₁ hr₁ r₂ hr₂ t₁ t₂ h₁ h₂ _
    rw [hsame hashed_text hashed_text_eq r₁ hr₁ r₂ hr₂] at h₁
    exact ok.inj (h₁.symm.trans h₂)
  · intro r₁ hr₁ r₂ hr₂ i₁ i₂ h₁ h₂ _
    rw [hsame _ hmac_input_eq r₁ hr₁ r₂ hr₂] at h₁
    exact ok.inj (h₁.symm.trans h₂)

end CoverageSample

open CoverageSample in
theorem signature_covers_request_sample :
    first ≠ second ∧ ∃ view, covered first = .ok view ∧ covered second = .ok view :=
  ⟨by decide +kernel, signature_covers_request signing secret {first, second} collisionFree
    first (.inl rfl) second (.inr rfl) 1786924800 1786924801 claims claims (by decide +kernel)
    (by decide +kernel) (fields signature) (fields capital_signature) (by decide +kernel)
    (by decide +kernel) (by decide +kernel)⟩

end NeoEngram.S3
