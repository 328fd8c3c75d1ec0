import NeoEngram.Core.Concrete

/-! # Canonical encodings determine their models

The encoders write the number of elements of a list after the elements. The
texts can be taken apart nevertheless: every element is self-delimiting, and
what follows the last one has a fixed length (`Framing.stream_injective`). The
domain stands in front of every text after its length. So equal texts come
from one model (`preimage_injective`).
-/

namespace NeoEngram

open Checks Framing List Function ContentDigest TypedId

variable {U : UnicodeTables}

/-! ## Elements -/

theorem digest_selfDelimiting : SelfDelimiting (fun _ => True) ContentDigest.as_bytes :=
  selfDelimiting_of_length 32 length_as_bytes
    fun _ _ => as_bytes_injective

theorem id_selfDelimiting {kind : IdKind} :
    SelfDelimiting (fun _ => True) (@TypedId.as_bytes kind) :=
  selfDelimiting_of_length 32 length_as_bytes fun _ _ => as_bytes_injective

theorem record_selfDelimiting :
    SelfDelimiting (fun r : FileRecord U => TextFits r.path.text) record_bytes := by
  have hfields := (((text_selfDelimiting u64_le_selfDelimiting).pair
    (@id_selfDelimiting .manifest)).pair u64_le_selfDelimiting).pair u64_le_selfDelimiting
  have hview : Injective fun r : FileRecord U =>
      (((r.path.text, r.manifest_id), r.total_size), r.chunk_count) := by
    intro a b h
    simp only [Prod.mk.injEq] at h
    obtain ⟨⟨⟨htext, hid⟩, hsize⟩, hcount⟩ := h
    have hpath := LogicalPath.ext_text htext
    cases a
    cases b
    simp_all
  intro a b ha hb s t h
  exact hfields.comap hview a b ⟨⟨⟨ha, trivial⟩, trivial⟩, trivial⟩
    ⟨⟨⟨hb, trivial⟩, trivial⟩, trivial⟩ s t h

theorem chunk_selfDelimiting : SelfDelimiting (fun _ => True) chunk_bytes := by
  have hfields := ((@id_selfDelimiting .object).pair u64_le_selfDelimiting).pair
    u64_le_selfDelimiting
  have hview : Injective fun c : ChunkRef => ((c.object_id, c.offset), c.size) := by
    intro a b h
    simp only [Prod.mk.injEq] at h
    cases a
    cases b
    simp_all
  intro a b _ _ s t h
  exact hfields.comap hview a b ⟨⟨trivial, trivial⟩, trivial⟩ ⟨⟨trivial, trivial⟩, trivial⟩ s t h

/-- A tag in front of a mutation says which kind it is. -/
theorem mutation_selfDelimiting :
    SelfDelimiting (fun m : IndexMutation U => TextFits m.path.text) mutation_bytes := by
  intro a b ha hb s t h
  cases a with
  | Upsert r =>
    cases b with
    | Upsert r' =>
      have hrest := (cons.inj h).2
      obtain ⟨rfl, htail⟩ := record_selfDelimiting r r' ha hb s t hrest
      exact ⟨rfl, htail⟩
    | Delete p => exact absurd (cons.inj h).1 (by decide)
  | Delete p =>
    cases b with
    | Upsert r => exact absurd (cons.inj h).1 (by decide)
    | Delete p' =>
      have hrest := (cons.inj h).2
      obtain ⟨hpath, htail⟩ := text_selfDelimiting u64_le_selfDelimiting _ _ ha hb s t hrest
      exact ⟨congrArg IndexMutation.Delete (LogicalPath.ext_text hpath), htail⟩

theorem parent_selfDelimiting : SelfDelimiting (fun _ => True) parent_bytes := by
  intro a b _ _ s t h
  cases a with
  | none =>
    cases b with
    | none => exact ⟨rfl, (cons.inj h).2⟩
    | some q => exact absurd (cons.inj h).1 (by decide)
  | some p =>
    cases b with
    | none => exact absurd (cons.inj h).1 (by decide)
    | some q =>
      obtain ⟨rfl, htail⟩ := id_selfDelimiting p q trivial trivial s t (cons.inj h).2
      exact ⟨rfl, htail⟩

/-! ## Directory entries -/

/-- What is written of an entry: everything but its position. -/
def entry_view (entry : DirectoryEntry U) :
    ((DirectoryEntryKind × Text) × DirectoryEntryTarget) × UInt64 :=
  (((entry.kind, entry.name.text), entry.target_id), entry.total_size)

theorem kind_eq_of_valid {entry : DirectoryEntry U} (h : entry.validate = .ok ()) :
    entry.kind = entry.target_id.kind := by
  simp only [DirectoryEntry.validate, ok_iff] at h
  exact h.1

theorem target_eq_of_bytes {a b : DirectoryEntryTarget} (hkind : a.kind = b.kind)
    (h : a.as_bytes = b.as_bytes) : a = b := by
  cases a with
  | Manifest i =>
    cases b with
    | Manifest j => exact congrArg _ (as_bytes_injective h)
    | Directory j => cases hkind
  | Directory i =>
    cases b with
    | Manifest j => cases hkind
    | Directory j => exact congrArg _ (as_bytes_injective h)

theorem length_target (target : DirectoryEntryTarget) : target.as_bytes.length = 32 := by
  cases target <;> exact TypedId.length_as_bytes _

theorem directory_kind_tag_injective : Injective directory_kind_tag := by
  intro a b h
  cases a <;> cases b <;> first | rfl | exact absurd h (by decide)

/-- A valid entry can be taken off the front of a text, apart from its position. -/
theorem entry_bytes_inj {a b : DirectoryEntry U} (ha : a.validate = .ok ())
    (hb : b.validate = .ok ()) (hafits : TextFits a.name.text) (hbfits : TextFits b.name.text)
    {s t : Bytes} (h : entry_bytes a ++ s = entry_bytes b ++ t) :
    entry_view a = entry_view b ∧ s = t := by
  unfold entry_bytes at h
  simp only [append_assoc] at h
  obtain ⟨htag, h⟩ := byte_selfDelimiting _ _ trivial trivial _ _ h
  obtain ⟨hname, h⟩ := text_selfDelimiting u64_le_selfDelimiting _ _ hafits hbfits _ _ h
  obtain ⟨htarget, h⟩ := append_inj h (by rw [length_target, length_target])
  obtain ⟨hsize, htail⟩ := u64_le_selfDelimiting _ _ trivial trivial _ _ h
  have hkind := directory_kind_tag_injective htag
  have hsame : a.target_id = b.target_id := target_eq_of_bytes
    (by rw [← kind_eq_of_valid ha, ← kind_eq_of_valid hb, hkind]) htarget
  exact ⟨by simp only [entry_view, hkind, hname, hsame, hsize], htail⟩

/-- Entries with their positions are determined by what is written of them. -/
theorem entries_eq_of_views {first : Nat} {l₁ l₂ : List (DirectoryEntry U)}
    (h₁ : Directory.OrdinalsFrom first l₁) (h₂ : Directory.OrdinalsFrom first l₂)
    (h : l₁.map entry_view = l₂.map entry_view) : l₁ = l₂ := by
  induction l₁ generalizing first l₂ with
  | nil =>
    rw [map_nil] at h
    exact (map_eq_nil_iff.mp h.symm).symm
  | cons a l₁ ih =>
    cases l₂ with
    | nil => simp at h
    | cons b l₂ =>
      simp only [map_cons, cons.injEq, entry_view, Prod.mk.injEq] at h
      obtain ⟨⟨⟨⟨hkind, hname⟩, htarget⟩, hsize⟩, hrest⟩ := h
      have hordinal : a.ordinal = b.ordinal := UInt64.toNat_inj.mp (h₁.1.trans h₂.1.symm)
      have hab : a = b := by
        have hcomponent := PathComponent.ext_text hname
        cases a
        cases b
        simp_all
      rw [hab, ih h₁.2 h₂.2 hrest]

/-! ## Models and their texts -/

/-- The models that have a canonical identity. -/
inductive CanonicalModel (U : UnicodeTables) where
  | Manifest (manifest : NeoEngram.Manifest)
  | Directory (directory : NeoEngram.Directory U)
  | Commit (commit : NeoEngram.Commit)
  | IndexRecord (record : FileRecord U)
  | IndexSnapshot (records : List (FileRecord U))
  | IndexDelta (delta : NeoEngram.IndexDelta U)

namespace CanonicalModel

/-- The validator of the model accepts it, and its lengths are below `2 ^ 64`. -/
def Valid : CanonicalModel U → Prop
  | Manifest manifest => manifest.validate = .ok () ∧ manifest.chunks.length < 2 ^ 64
  | Directory directory => directory.validate = .ok () ∧ directory.entries.length < 2 ^ 64 ∧
      ∀ entry ∈ directory.entries, TextFits entry.name.text
  | Commit commit => commit.validate = .ok () ∧ TextFits commit.message
  | IndexRecord record => record.validate = .ok () ∧ TextFits record.path.text
  | IndexSnapshot records => validate_index_snapshot records = .ok () ∧ records.length < 2 ^ 64 ∧
      ∀ record ∈ records, TextFits record.path.text
  | IndexDelta delta => delta.validate = .ok () ∧ delta.iter.length < 2 ^ 64 ∧
      ∀ m ∈ delta.iter, TextFits m.path.text

def preimage : CanonicalModel U → Bytes
  | Manifest manifest => manifest_preimage manifest
  | Directory directory => directory_preimage directory
  | Commit commit => commit_preimage commit
  | IndexRecord record => index_record_preimage record
  | IndexSnapshot records => index_snapshot_preimage records
  | IndexDelta delta => index_delta_preimage delta

def identity (blake3 : Blake3) : CanonicalModel U → ValidationResult ContentDigest
  | Manifest manifest => TypedId.digest <$> manifest_id blake3 manifest
  | Directory directory => TypedId.digest <$> directory_id blake3 directory
  | Commit commit => TypedId.digest <$> commit_id blake3 commit
  | IndexRecord record => index_record_digest blake3 record
  | IndexSnapshot records => index_snapshot_digest blake3 records
  | IndexDelta delta => index_delta_digest blake3 delta

/-- The models are of one kind and equal; where a delta is cut into pages does not count. -/
def SameContent : CanonicalModel U → CanonicalModel U → Prop
  | Manifest a, Manifest b => a = b
  | Directory a, Directory b => a = b
  | Commit a, Commit b => a = b
  | IndexRecord a, IndexRecord b => a = b
  | IndexSnapshot a, IndexSnapshot b => a = b
  | IndexDelta a, IndexDelta b =>
      a.base_version = b.base_version ∧ a.iter = b.iter ∧ a.result_digest = b.result_digest
  | _, _ => False

/-- A model has an identity exactly when it is valid: the digest of its text. -/
theorem identity_eq_ok {blake3 : Blake3} {model : CanonicalModel U} {d : ContentDigest} :
    model.identity blake3 = .ok d ↔ model.Valid ∧ d = blake3 model.preimage := by
  cases model with
  | Manifest manifest =>
    simp only [identity, map_eq_ok, manifest_id_eq_ok, Valid, preimage, existsAndEq, and_assoc,
      true_and,
      eq_comm (a := d)]
  | Directory directory =>
    simp only [identity, map_eq_ok, directory_id_eq_ok, Valid, preimage, existsAndEq, and_assoc,
      true_and,
      eq_comm (a := d)]
  | Commit commit =>
    simp only [identity, map_eq_ok, commit_id_eq_ok, Valid, preimage, existsAndEq, and_assoc,
      true_and,
      eq_comm (a := d)]
  | IndexRecord record =>
    simp only [identity, index_record_digest_eq_ok, Valid, preimage, and_assoc]
  | IndexSnapshot records =>
    simp only [identity, index_snapshot_digest_eq_ok, Valid, preimage, and_assoc]
  | IndexDelta delta =>
    simp only [identity, index_delta_digest_eq_ok, Valid, preimage, and_assoc]

/-! ### One kind -/

theorem manifest_preimage_inj {a b : NeoEngram.Manifest}
    (h : manifest_preimage a = manifest_preimage b) : a = b := by
  unfold manifest_preimage at h
  simp only [append_assoc, append_cancel_left_eq] at h
  obtain ⟨htag, h⟩ := byte_selfDelimiting _ _ trivial trivial _ _ h
  obtain ⟨hsize, h⟩ := u64_le_selfDelimiting _ _ trivial trivial _ _ h
  obtain ⟨hchunks, -⟩ := stream_injective chunk_selfDelimiting
    (fun c => by simp [chunk_bytes, u64_le, le_bytes]) (fun _ _ => trivial) (fun _ _ => trivial)
    (by simp) h
  have hchunking : a.chunking = b.chunking := by
    cases ha : a.chunking <;> cases hb : b.chunking <;> rw [ha, hb] at htag <;>
      first | rfl | exact absurd htag (by decide)
  cases a
  cases b
  simp_all

theorem directory_preimage_inj {a b : NeoEngram.Directory U} (ha : (Directory a).Valid)
    (hb : (Directory b).Valid) (h : directory_preimage a = directory_preimage b) : a = b := by
  obtain ⟨havalid, -, hafits⟩ := ha
  obtain ⟨hbvalid, -, hbfits⟩ := hb
  obtain ⟨haentries, haordinals, -⟩ := Directory.validate_eq_ok.mp havalid
  obtain ⟨hbentries, hbordinals, -⟩ := Directory.validate_eq_ok.mp hbvalid
  unfold directory_preimage at h
  simp only [append_assoc, append_cancel_left_eq] at h
  -- the positions are not written; they follow from the order
  obtain ⟨hviews, -⟩ := @stream_view_injective _ _
    (fun e : DirectoryEntry U => e.validate = .ok () ∧ TextFits e.name.text) entry_bytes entry_view
    (fun _ _ ha hb _ _ heq => entry_bytes_inj ha.1 hb.1 ha.2 hb.2 heq)
    (fun e => by simp [entry_bytes]) _ _ (fun e he => ⟨haentries e he, hafits e he⟩)
    (fun e he => ⟨hbentries e he, hbfits e he⟩) _ _ (by simp) h
  have hentries := entries_eq_of_views haordinals hbordinals hviews
  cases a
  cases b
  simp_all

theorem commit_preimage_inj {a b : NeoEngram.Commit} (ha : TextFits a.message)
    (hb : TextFits b.message) (h : commit_preimage a = commit_preimage b) : a = b := by
  unfold commit_preimage at h
  simp only [append_assoc, append_cancel_left_eq] at h
  obtain ⟨hroot, h⟩ := id_selfDelimiting _ _ trivial trivial _ _ h
  obtain ⟨hparent, h⟩ := parent_selfDelimiting _ _ trivial trivial _ _ h
  obtain ⟨hmessage, h⟩ := text_selfDelimiting u64_le_selfDelimiting _ _ ha hb _ _ h
  have htime := u64_le_injective h
  cases a
  cases b
  simp_all

theorem index_record_preimage_inj {a b : FileRecord U} (ha : TextFits a.path.text)
    (hb : TextFits b.path.text) (h : index_record_preimage a = index_record_preimage b) :
    a = b := by
  unfold index_record_preimage at h
  have hbytes := append_cancel_left h
  exact (record_selfDelimiting a b ha hb [] [] (by rw [hbytes])).1

theorem record_bytes_ne_nil (r : FileRecord U) : record_bytes r ≠ [] := by
  unfold record_bytes
  simp [u64_le, le_bytes]

theorem index_snapshot_preimage_inj {a b : List (FileRecord U)}
    (ha : ∀ r ∈ a, TextFits r.path.text) (hb : ∀ r ∈ b, TextFits r.path.text)
    (h : index_snapshot_preimage a = index_snapshot_preimage b) : a = b := by
  unfold index_snapshot_preimage at h
  simp only [append_assoc, append_cancel_left_eq] at h
  exact (stream_injective record_selfDelimiting record_bytes_ne_nil ha hb (by simp) h).1

/-- The mutations of a delta are followed by their number and the result digest. -/
theorem index_delta_preimage_inj {a b : NeoEngram.IndexDelta U}
    (ha : ∀ m ∈ a.iter, TextFits m.path.text) (hb : ∀ m ∈ b.iter, TextFits m.path.text)
    (h : index_delta_preimage a = index_delta_preimage b) :
    a.base_version = b.base_version ∧ a.iter = b.iter ∧ a.result_digest = b.result_digest := by
  unfold index_delta_preimage at h
  simp only [append_assoc, append_cancel_left_eq] at h
  obtain ⟨hrevision, h⟩ := u64_le_selfDelimiting _ _ trivial trivial _ _ h
  obtain ⟨hdigest, h⟩ := digest_selfDelimiting _ _ trivial trivial _ _ h
  obtain ⟨hiter, h⟩ := stream_injective mutation_selfDelimiting
    (fun m => by cases m <;> simp [mutation_bytes]) ha hb (by simp) h
  obtain ⟨-, hresult⟩ := append_inj h (by simp)
  refine ⟨?_, hiter, as_bytes_injective hresult⟩
  cases hav : a.base_version
  cases hbv : b.base_version
  simp_all

/-! ### Two kinds -/

inductive Kind where
  | Manifest
  | Directory
  | Commit
  | IndexRecord
  | IndexSnapshot
  | IndexDelta
  deriving DecidableEq

/-- The domain of a kind, written in front of its texts. -/
def Kind.domain : Kind → Bytes
  | Manifest => MANIFEST_HASH_DOMAIN
  | Directory => DIRECTORY_HASH_DOMAIN
  | Commit => COMMIT_HASH_DOMAIN
  | IndexRecord => INDEX_RECORD_HASH_DOMAIN
  | IndexSnapshot => INDEX_SNAPSHOT_HASH_DOMAIN
  | IndexDelta => INDEX_DELTA_HASH_DOMAIN

theorem Kind.domain_injective {a b : Kind} (h : a.domain = b.domain) : a = b := by
  cases a <;> cases b <;> first | rfl | exact absurd h (by decide)

theorem Kind.length_domain_le (k : Kind) : k.domain.length ≤ 64 := by
  cases k <;> decide

def kind : CanonicalModel U → Kind
  | Manifest _ => .Manifest
  | Directory _ => .Directory
  | Commit _ => .Commit
  | IndexRecord _ => .IndexRecord
  | IndexSnapshot _ => .IndexSnapshot
  | IndexDelta _ => .IndexDelta

theorem exists_preimage_eq (model : CanonicalModel U) :
    ∃ payload, model.preimage = framed u64_le model.kind.domain ++ payload := by
  -- every preimage is the domain in a frame and what is appended to it
  cases model <;> exact ⟨_, by
    simp only [preimage, manifest_preimage, directory_preimage, commit_preimage,
      index_record_preimage, index_snapshot_preimage, index_delta_preimage, canonical_hasher,
      append_assoc]
    rfl⟩

/-- Equal texts have one domain, and so one kind. -/
theorem kind_eq_of_preimage_eq {a b : CanonicalModel U} (h : a.preimage = b.preimage) :
    a.kind = b.kind := by
  obtain ⟨s, hs⟩ := a.exists_preimage_eq
  obtain ⟨t, ht⟩ := b.exists_preimage_eq
  rw [hs, ht] at h
  have hfits : ∀ k : Kind, k.domain.length < 2 ^ 64 := fun k =>
    lt_of_le_of_lt k.length_domain_le (by decide)
  exact Kind.domain_injective
    (framed_selfDelimiting u64_le_selfDelimiting _ _ (hfits _) (hfits _) _ _ h).1

end CanonicalModel

open CanonicalModel in
/-- **Canonical encodings**: two valid models with one text are equal, and so are two with one
identity unless the hash collides on their texts. -/
theorem preimage_injective {a b : CanonicalModel U} (ha : a.Valid) (hb : b.Valid) :
    (a.preimage = b.preimage → a.SameContent b) ∧
      ∀ blake3 : Blake3, (blake3 a.preimage = blake3 b.preimage → a.preimage = b.preimage) →
        ∀ id, a.identity blake3 = .ok id → b.identity blake3 = .ok id → a.SameContent b := by
  have hsame : a.preimage = b.preimage → a.SameContent b := by
    intro h
    have hkind := kind_eq_of_preimage_eq h
    -- on the diagonal the text determines the model; elsewhere the kinds differ
    cases a <;> cases b <;> cases hkind
    · exact manifest_preimage_inj h
    · exact directory_preimage_inj ha hb h
    · exact commit_preimage_inj ha.2 hb.2 h
    · exact index_record_preimage_inj ha.2 hb.2 h
    · exact index_snapshot_preimage_inj ha.2.2 hb.2.2 h
    · exact index_delta_preimage_inj ha.2.2 hb.2.2 h
  refine ⟨hsame, fun blake3 hfree id hida hidb => ?_⟩
  obtain ⟨-, hda⟩ := identity_eq_ok.mp hida
  obtain ⟨-, hdb⟩ := identity_eq_ok.mp hidb
  exact hsame (hfree (hda.symm.trans hdb))

/-- A record is not the snapshot of only this record, and two cuts of one delta into pages have the
same content. -/
theorem one_record_snapshot_differs :
    let a := ascii_path "a" (by decide)
    let b := ascii_path "b" (by decide)
    let one_page : IndexDelta asciiTables :=
      ⟨⟨7, digest_of_nat 0⟩, [⟨0, [.Delete a, .Upsert (empty_file b 3)]⟩], digest_of_nat 1⟩
    let two_pages : IndexDelta asciiTables :=
      ⟨⟨7, digest_of_nat 0⟩, [⟨0, [.Delete a]⟩, ⟨1, [.Upsert (empty_file b 3)]⟩], digest_of_nat 1⟩
    (CanonicalModel.IndexRecord (empty_file a 3)).preimage ≠
        (CanonicalModel.IndexSnapshot [empty_file a 3]).preimage ∧
      (CanonicalModel.IndexDelta one_page).SameContent (.IndexDelta two_pages) := by
  intro a b one_page two_pages
  constructor
  · intro h
    exact (preimage_injective (a := .IndexRecord (empty_file a 3))
      (b := .IndexSnapshot [empty_file a 3]) ⟨by decide, by decide⟩
      ⟨by decide, by decide, by decide⟩).1 h
  · exact (preimage_injective (a := .IndexDelta one_page) (b := .IndexDelta two_pages)
      ⟨by decide, by decide, by decide⟩ ⟨by decide, by decide, by decide⟩).1 rfl

end NeoEngram
