import NeoEngram.Central.HeadPublication
import Mathlib.Data.Finset.Card
import Mathlib.Data.Finset.Dedup
import Mathlib.Logic.Relation

/-! # Ancestors of Commits

What the search `is_commit_ancestor` finds along the stored parent links. Rows
of Commits are never changed, but other callers add rows while a search goes
on. The visited set bounds the search.
-/

namespace NeoEngram.Central

open Checks Effects Relation

variable {U : UnicodeTables}

/-! ### Ancestors -/

abbrev CommitTable (U : UnicodeTables) := CommitKey → Option (CommitRecord U)

/-- A Commit and its parent, in the stored rows. -/
def ParentLink (commits : CommitTable U) (scope : CommitScope) (child parent : CommitId) : Prop :=
  ∃ row, commits (scope.key child) = some row ∧ row.parent_commit_id = some parent

/-- A Commit is an ancestor of another one along the stored parent links, or the same. -/
def Ancestor (commits : CommitTable U) (scope : CommitScope) (ancestor descendant : CommitId) :
    Prop :=
  ReflTransGen (ParentLink commits scope) descendant ancestor

def KeepsRows (commits commits' : CommitTable U) : Prop :=
  ∀ key row, commits key = some row → commits' key = some row

variable {commits commits' : CommitTable U} {scope : CommitScope}
  {ancestor first descendant parent : CommitId} {visited : List CommitId}

theorem ParentLink.mono (h : ParentLink commits scope descendant parent)
    (hkeep : KeepsRows commits commits') : ParentLink commits' scope descendant parent := by
  obtain ⟨row, hrow, hparent⟩ := h
  exact ⟨row, hkeep _ row hrow, hparent⟩

theorem Ancestor.mono (h : Ancestor commits scope ancestor descendant)
    (hkeep : KeepsRows commits commits') : Ancestor commits' scope ancestor descendant := by
  unfold Ancestor at h ⊢
  induction h with
  | refl => exact .refl
  | tail _ hlink ih => exact ih.tail (hlink.mono hkeep)

theorem ParentLink.unique {q : CommitId} (h : ParentLink commits scope descendant parent)
    (h' : ParentLink commits scope descendant q) : q = parent := by
  obtain ⟨row, hrow, hparent⟩ := h
  obtain ⟨row', hrow', hparent'⟩ := h'
  rw [hrow] at hrow'
  cases hrow'
  exact Option.some.inj (hparent'.symm.trans hparent)

/-- No link leads out of a set that does not contain the ancestor. -/
theorem not_ancestor_of_closed {V : Set CommitId}
    (hclosed : ∀ c ∈ V, ∀ p, ParentLink commits scope c p → p ∈ V) (hfirst : first ∈ V)
    (hancestor : ancestor ∉ V) : ¬ Ancestor commits scope ancestor first := by
  intro h
  have hin : ∀ c, ReflTransGen (ParentLink commits scope) first c → c ∈ V := by
    intro c hc
    induction hc with
    | refl => exact hfirst
    | tail _ hlink ih => exact hclosed _ ih _ hlink
  exact hancestor (hin ancestor h)

/-! ### The search for an ancestor -/

/-- The search from `first` has followed the parent links through the visited Commits to the
descendant, and has not met the ancestor. -/
structure Searched (commits : CommitTable U) (scope : CommitScope) (ancestor first : CommitId)
    (visited : List CommitId) (descendant : CommitId) : Prop where
  reached : Ancestor commits scope descendant first
  apart : ancestor ∉ visited
  linked : ∀ c ∈ visited, ∃ p, ParentLink commits scope c p ∧ (p ∈ visited ∨ p = descendant)
  began : first ∈ visited ∨ first = descendant
  distinct : visited.Nodup

namespace Searched

theorem begin (scope : CommitScope) (ancestor first : CommitId) :
    Searched commits scope ancestor first [] first :=
  ⟨.refl, by simp, by simp, .inr rfl, .nil⟩

section

variable (h : Searched commits scope ancestor first visited descendant)

include h

theorem mono (hkeep : KeepsRows commits commits') :
    Searched commits' scope ancestor first visited descendant where
  reached := h.reached.mono hkeep
  apart := h.apart
  linked := fun c hc =>
    let ⟨p, hlink, hp⟩ := h.linked c hc
    ⟨p, hlink.mono hkeep, hp⟩
  began := h.began
  distinct := h.distinct

theorem next (hne : descendant ≠ ancestor) (hnew : descendant ∉ visited)
    (hlink : ParentLink commits scope descendant parent) :
    Searched commits scope ancestor first (descendant :: visited) parent where
  reached := h.reached.tail hlink
  apart := by simpa using ⟨Ne.symm hne, h.apart⟩
  linked := by
    intro c hc
    rcases List.mem_cons.mp hc with heq | hc
    · exact ⟨parent, heq ▸ hlink, .inr rfl⟩
    · obtain ⟨p, hp, hmem | heq⟩ := h.linked c hc
      · exact ⟨p, hp, .inl (List.mem_cons_of_mem _ hmem)⟩
      · exact ⟨p, hp, .inl (heq ▸ List.mem_cons_self)⟩
  began := .inl (by rcases h.began with hmem | heq <;> simp [*])
  distinct := List.nodup_cons.mpr ⟨hnew, h.distinct⟩

/-- The search that comes back to a visited Commit has seen all the ancestors. -/
theorem of_cycle (hcycle : descendant ∈ visited) : ¬ Ancestor commits scope ancestor first := by
  apply not_ancestor_of_closed (V := {c | c ∈ visited}) ?_ ?_ h.apart
  · intro c hc q hq
    obtain ⟨p, hp, hmem | heq⟩ := h.linked c hc
    · exact hp.unique hq ▸ hmem
    · rw [hp.unique hq, heq]
      exact hcycle
  · rcases h.began with hmem | heq
    · exact hmem
    · exact heq ▸ hcycle

/-- The search that arrives at a Commit without a parent link has seen all the ancestors. -/
theorem of_end (hne : descendant ≠ ancestor) (hend : ∀ p, ¬ ParentLink commits scope descendant p) :
    ¬ Ancestor commits scope ancestor first := by
  apply not_ancestor_of_closed (V := {c | c ∈ visited ∨ c = descendant})
  · rintro c (hc | heq) q hq
    · obtain ⟨p, hp, hp'⟩ := h.linked c hc
      rw [hp.unique hq]
      exact hp'
    · exact absurd (heq ▸ hq) (hend q)
  · exact h.began
  · rintro (hmem | heq)
    · exact h.apart hmem
    · exact hne heq.symm

end

end Searched

/-- A finite set with the identities of all the Commits that are stored. -/
def Covers (commits : CommitTable U) (scope : CommitScope) (stored : Finset CommitId) : Prop :=
  ∀ commit_id row, commits (scope.key commit_id) = some row → commit_id ∈ stored

theorem Searched.length_le (h : Searched commits scope ancestor first visited descendant)
    {stored : Finset CommitId} (hstored : Covers commits scope stored) :
    visited.length ≤ stored.card := by
  rw [← List.toFinset_card_of_nodup h.distinct]
  apply Finset.card_le_card
  intro c hc
  obtain ⟨p, ⟨row, hrow, -⟩, -⟩ := h.linked c (List.mem_toFinset.mp hc)
  exact hstored c row hrow

/-- How a search ends, if calls fail with the errors `lost` only. -/
def SearchEnds (lost : CentralError → Prop) (commits : CommitTable U) (scope : CommitScope)
    (ancestor first : CommitId) (rounds : Nat) : Except Failure Bool → Prop
  | .ok true => Ancestor commits scope ancestor first
  | .ok false => ¬ Ancestor commits scope ancestor first
  | .error .exhausted => ∀ stored, Covers commits scope stored → rounds ≤ stored.card
  | .error (.central error) => lost error ∨ ¬ Ancestor commits scope ancestor first
  | .error _ => False

section Search

variable {env : Env (HeadCall U) HeadAnswer (HeadStore U)}
  {Φ : CallProp (HeadCall U) HeadAnswer (HeadStore U)} {lost : CentralError → Prop}

/-- A row is looked up in a table that may have grown since, or the call fails. -/
def Looks (env : Env (HeadCall U) HeadAnswer (HeadStore U)) (lost : CentralError → Prop) : Prop :=
  ∀ s key answer s', env s (.store (.get_commit key)) answer s' →
    KeepsRows s.precommits.commits s'.precommits.commits ∧
      (answer = .ok (s'.precommits.commits key) ∨ ∃ error, answer = .error error ∧ lost error)

section

variable (hlooks : Looks env lost)
  (hcalls : ∀ s key answer s', env s (.store (.get_commit key)) answer s' →
    Φ s (.store (.get_commit key)) answer s')

include hlooks hcalls

/-- **The loop** of `is_commit_ancestor`, from a point that the search has reached. -/
theorem is_commit_ancestor_loop_ends (scope : CommitScope) (ancestor : CommitId)
    (total rounds : Nat) (visited : List CommitId) (descendant : CommitId) (s : HeadStore U)
    (htotal : total = rounds + visited.length)
    (h : Searched s.precommits.commits scope ancestor first visited descendant) :
    Meets env Φ
      (is_commit_ancestor_loop scope ancestor rounds visited descendant : HeadM U Bool).run
      (fun r s' => SearchEnds lost s'.precommits.commits scope ancestor first total r) s := by
  induction rounds generalizing visited descendant s with
  | zero =>
    intro stored hstored
    have hlength := h.length_le hstored
    omega
  | succ rounds ih =>
    unfold is_commit_ancestor_loop
    by_cases hfound : descendant = ancestor
    · rw [if_pos hfound]
      exact hfound ▸ h.reached
    rw [if_neg hfound]
    by_cases hcycle : descendant ∈ visited
    · rw [if_pos hcycle]
      exact .inr (h.of_cycle hcycle)
    rw [if_neg hcycle]
    simp only [ask, meets_seq, meets_request]
    intro answer s' hanswer
    refine ⟨hcalls _ _ _ _ hanswer, ?_⟩
    obtain ⟨hkeep, hrow | ⟨error, herror, hlost⟩⟩ := hlooks _ _ _ _ hanswer
    · have hhere := h.mono hkeep
      subst hrow
      cases hlookup : s'.precommits.commits (scope.key descendant) with
      | none =>
        refine .inr (hhere.of_end hfound ?_)
        rintro p ⟨row, hrow, _⟩
        rw [hlookup] at hrow
        cases hrow
      | some row =>
        simp only [meets_checked, Except.mapError]
        show Meets env Φ _ _ s'
        cases hparent : row.parent_commit_id with
        | none =>
          refine hhere.of_end hfound ?_
          rintro p ⟨row', hrow, hp⟩
          rw [hlookup] at hrow
          cases hrow
          cases hparent.symm.trans hp
        | some parent =>
          have hlink : ParentLink s'.precommits.commits scope descendant parent :=
            ⟨row, hlookup, hparent⟩
          exact ih (descendant :: visited) parent s' (by simp; omega)
            (hhere.next hfound hcycle hlink)
    · subst herror
      exact .inl hlost

theorem is_commit_ancestor_ends (rounds : Nat) (scope : CommitScope)
    (ancestor descendant : CommitId) (s : HeadStore U) :
    Meets env Φ (is_commit_ancestor rounds scope ancestor descendant : HeadM U Bool).run
      (fun r s' => SearchEnds lost s'.precommits.commits scope ancestor descendant rounds r) s :=
  is_commit_ancestor_loop_ends hlooks hcalls scope ancestor rounds rounds [] descendant s rfl
    (.begin scope ancestor descendant)

end

end Search

end NeoEngram.Central
