import NeoEngram.Core.Path

/-! # Glob patterns of the ignore rules

A component of a pattern is matched against a name by a table with a row for
each character read, and a pattern against a path by a recursion that remembers
its results. Both decide what patterns mean.
-/

namespace NeoEngram.Local

/-! ## One component -/

/-- The row of a `*`: a front of the text is matched if a shorter one is. -/
def star_row (reached : Bool) : List Bool → List Bool
  | [] => []
  | matched :: previous => (matched || reached) :: star_row (matched || reached) previous

def char_row (text : Text) (previous : List Bool) (accepts : Char → Bool) : List Bool :=
  false :: List.zipWith (fun matched c => matched && accepts c) previous text

/-- The loop of `segment_matches`: the row says which fronts of the text the pattern so far matches.
A backslash at the end stands for itself. -/
def segment_rows (text : Text) : Text → List Bool → List Bool
  | [], previous => previous
  | '*' :: pattern, previous => segment_rows text pattern (star_row false previous)
  | '?' :: pattern, previous => segment_rows text pattern (char_row text previous fun _ => true)
  | '\\' :: literal :: pattern, previous =>
    segment_rows text pattern (char_row text previous (· == literal))
  | literal :: pattern, previous =>
    segment_rows text pattern (char_row text previous (· == literal))

def segment_matches (pattern text : Text) : Bool :=
  (segment_rows text pattern (true :: text.map fun _ => false)).getLast?.getD false

/-- The texts that a pattern stands for. -/
inductive SegmentMatches : Text → Text → Prop
  | nil : SegmentMatches [] []
  | star {pattern text : Text} (skipped : Text) (h : SegmentMatches pattern text) :
      SegmentMatches ('*' :: pattern) (skipped ++ text)
  | any {pattern text : Text} (c : Char) (h : SegmentMatches pattern text) :
      SegmentMatches ('?' :: pattern) (c :: text)
  | escaped {pattern text : Text} (c : Char) (h : SegmentMatches pattern text) :
      SegmentMatches ('\\' :: c :: pattern) (c :: text)
  | literal {pattern text : Text} (c : Char) (hstar : c ≠ '*') (hany : c ≠ '?')
      (hescape : c = '\\' → pattern = []) (h : SegmentMatches pattern text) :
      SegmentMatches (c :: pattern) (c :: text)

/-- A mark of the row has this rest of the text behind it. -/
def Leaves : List Bool → Text → Text → Prop
  | [], _, _ => False
  | matched :: _, [], rest => matched = true ∧ rest = []
  | matched :: row, c :: text, rest => (matched = true ∧ rest = c :: text) ∨ Leaves row text rest

variable {row : List Bool} {text rest : Text}

theorem leaves_head {matched : Bool} : Leaves (matched :: row) text rest ↔
      (matched = true ∧ rest = text) ∨ Leaves (false :: row) text rest := by
  cases text <;> simp [Leaves]

theorem leaves_star (reached : Bool) (h : row.length = text.length + 1) :
    Leaves (star_row reached row) text rest ↔
      (reached = true ∧ rest <:+ text) ∨ ∃ skipped, Leaves row text (skipped ++ rest) := by
  induction text generalizing row reached with
  | nil =>
    obtain ⟨matched, row, rfl⟩ := List.exists_cons_of_length_eq_add_one h
    simp only [star_row, Leaves, Bool.or_eq_true, List.suffix_nil, List.append_eq_nil_iff]
    tauto
  | cons c text ih =>
    obtain ⟨matched, row, rfl⟩ := List.exists_cons_of_length_eq_add_one h
    have hsuffix : (∃ skipped, skipped ++ rest = c :: text) ↔ rest = c :: text ∨ rest <:+ text :=
      List.suffix_cons_iff
    simp only [star_row, Leaves, ih _ (Nat.succ.inj h), Bool.or_eq_true, List.suffix_cons_iff,
      exists_or, exists_and_left, hsuffix]
    tauto

theorem leaves_char (accepts : Char → Bool) : Leaves (char_row text row accepts) text rest ↔
      ∃ c, accepts c = true ∧ Leaves row text (c :: rest) := by
  induction text generalizing row with
  | nil => cases row <;> simp [char_row, Leaves]
  | cons c text ih =>
    cases row with
    | nil => simp [char_row, Leaves]
    | cons matched row =>
      simp only [char_row] at ih ⊢
      rw [List.zipWith_cons_cons, Leaves, leaves_head, ih]
      simp only [Leaves, List.cons.injEq, Bool.and_eq_true, and_or_left, exists_or]
      grind

theorem leaves_last (h : row.length = text.length + 1) :
    row.getLast?.getD false = true ↔ Leaves row text [] := by
  induction text generalizing row with
  | nil =>
    obtain ⟨matched, rfl⟩ := List.length_eq_one_iff.mp h
    simp [Leaves]
  | cons c text ih =>
    obtain ⟨matched, row, rfl⟩ := List.exists_cons_of_length_eq_add_one h
    have hrow : row ≠ [] := List.ne_nil_of_length_eq_add_one (Nat.succ.inj h)
    rw [List.getLast?_cons_of_ne_nil hrow, ih (Nat.succ.inj h)]
    simp [Leaves]

theorem length_star_row (reached : Bool) : (star_row reached row).length = row.length := by
  induction row generalizing reached with
  | nil => rfl
  | cons matched row ih => simp [star_row, ih]

/-- **Loop**: from a row on, a pattern matches if it matches what some mark leaves. -/
theorem segment_rows_last (pattern : Text) (h : row.length = text.length + 1) :
    (segment_rows text pattern row).getLast?.getD false = true ↔
      ∃ rest, Leaves row text rest ∧ SegmentMatches pattern rest := by
  -- the induction follows the loop, with one case for each arm of its `match`
  fun_induction segment_rows text pattern row with
  | case1 row =>
    rw [leaves_last h]
    constructor
    · exact fun hleaves => ⟨[], hleaves, .nil⟩
    · rintro ⟨rest, hleaves, hmatches⟩
      cases hmatches
      exact hleaves
  | case2 pattern row ih =>
    rw [ih ((length_star_row _).trans h)]
    simp only [leaves_star false h, Bool.false_eq_true, false_and, false_or]
    constructor
    · rintro ⟨rest, ⟨skipped, hleaves⟩, hmatches⟩
      exact ⟨_, hleaves, .star skipped hmatches⟩
    · rintro ⟨rest, hleaves, hmatches⟩
      cases hmatches with
      | star skipped hmatches => exact ⟨_, ⟨_, hleaves⟩, hmatches⟩
      | literal _ hstar => exact absurd rfl hstar
  | case3 pattern row ih =>
    rw [ih (by simp [char_row, h])]
    simp only [leaves_char, true_and]
    constructor
    · rintro ⟨rest, ⟨c, hleaves⟩, hmatches⟩
      exact ⟨_, hleaves, .any c hmatches⟩
    · rintro ⟨rest, hleaves, hmatches⟩
      cases hmatches with
      | any c hmatches => exact ⟨_, ⟨c, hleaves⟩, hmatches⟩
      | literal _ _ hany => exact absurd rfl hany
  | case4 literal pattern row ih =>
    rw [ih (by simp [char_row, h])]
    simp only [leaves_char, beq_iff_eq, exists_eq_left]
    constructor
    · rintro ⟨rest, hleaves, hmatches⟩
      exact ⟨_, hleaves, .escaped literal hmatches⟩
    · rintro ⟨rest, hleaves, hmatches⟩
      cases hmatches with
      | escaped _ hmatches => exact ⟨_, hleaves, hmatches⟩
      | literal _ _ _ hescape => cases hescape rfl
  | case5 literal pattern row hstar hany hescape ih =>
    rw [ih (by simp [char_row, h])]
    simp only [leaves_char, beq_iff_eq, exists_eq_left]
    constructor
    · rintro ⟨rest, hleaves, hmatches⟩
      refine ⟨_, hleaves, .literal literal hstar hany (fun hslash => ?_) hmatches⟩
      cases pattern with
      | nil => rfl
      | cons c pattern => exact absurd rfl (hescape c pattern hslash)
    · rintro ⟨rest, hleaves, hmatches⟩
      cases hmatches with
      | literal _ _ _ _ hmatches => exact ⟨_, hleaves, hmatches⟩
      | star => exact absurd rfl hstar
      | any => exact absurd rfl hany
      | escaped => exact absurd rfl (hescape _ _ rfl)

theorem segment_matches_iff (pattern text : Text) :
    segment_matches pattern text = true ↔ SegmentMatches pattern text := by
  have hnone : ∀ (text rest : Text), ¬ Leaves (false :: text.map fun _ => false) text rest := by
    intro text rest
    induction text with
    | nil => simp [Leaves]
    | cons c text ih => simpa [Leaves] using ih
  rw [segment_matches, segment_rows_last pattern (by simp)]
  simp only [leaves_head, hnone, or_false, true_and, exists_eq_left]

/-! ## Paths -/

/-- The results that are remembered, by what is left of the pattern and of the path. -/
abbrev Memo := List Text → List Text → Option Bool

def remember (pattern path : List Text) (visited : Bool × Memo) : Bool × Memo :=
  (visited.1, Function.update visited.2 pattern
    (Function.update (visited.2 pattern) path (some visited.1)))

/-- The recursion of `glob_components`. -/
def visit (pattern path : List Text) (memo : Memo) : Bool × Memo :=
  match memo pattern path with
  | some result => (result, memo)
  | none => remember pattern path <| match pattern, path with
    | [], path => (path.isEmpty, memo)
    | glob :: pattern, path =>
      if glob = ['*', '*'] then
        let (result, memo) := visit pattern path memo
        if result then (true, memo)
        else
          match path with
          | [] => (false, memo)
          | _ :: path => visit (glob :: pattern) path memo
      else
        match path with
        | [] => (false, memo)
        | name :: path =>
          if segment_matches glob name then visit pattern path memo else (false, memo)
termination_by pattern.length + path.length

def glob_components (pattern path : List Text) : Bool := (visit pattern path fun _ _ => none).1

/-- The paths that a pattern stands for. -/
inductive GlobMatches : List Text → List Text → Prop
  | nil : GlobMatches [] []
  | any {pattern path : List Text} (skipped : List Text) (h : GlobMatches pattern path) :
      GlobMatches (['*', '*'] :: pattern) (skipped ++ path)
  | component {pattern path : List Text} {glob name : Text} (hglob : glob ≠ ['*', '*'])
      (hname : SegmentMatches glob name) (h : GlobMatches pattern path) :
      GlobMatches (glob :: pattern) (name :: path)

variable {pattern path : List Text}

theorem globMatches_any : GlobMatches (['*', '*'] :: pattern) path ↔ GlobMatches pattern path ∨
      ∃ name rest, path = name :: rest ∧ GlobMatches (['*', '*'] :: pattern) rest := by
  constructor
  · intro h
    cases h with
    | any skipped h =>
      cases skipped with
      | nil => exact .inl h
      | cons name skipped => exact .inr ⟨name, _, rfl, .any skipped h⟩
    | component hglob => exact absurd rfl hglob
  · rintro (h | ⟨name, rest, rfl, h⟩)
    · exact .any [] h
    · cases h with
      | any skipped h => exact .any (name :: skipped) h
      | component hglob => exact absurd rfl hglob

theorem globMatches_component {glob : Text} (hglob : glob ≠ ['*', '*']) :
    GlobMatches (glob :: pattern) path ↔
      ∃ name rest, path = name :: rest ∧ SegmentMatches glob name ∧ GlobMatches pattern rest := by
  constructor
  · intro h
    cases h with
    | any => exact absurd rfl hglob
    | component _ hname h => exact ⟨_, _, rfl, hname, h⟩
  · rintro ⟨name, rest, rfl, hname, h⟩
    exact .component hglob hname h

def Memo.Sound (memo : Memo) : Prop :=
  ∀ pattern path result, memo pattern path = some result →
    (result = true ↔ GlobMatches pattern path)

def IsRight (pattern path : List Text) (visited : Bool × Memo) : Prop :=
  (visited.1 = true ↔ GlobMatches pattern path) ∧ visited.2.Sound

theorem IsRight.remember {visited : Bool × Memo} (h : IsRight pattern path visited) :
    IsRight pattern path (remember pattern path visited) := by
  refine ⟨h.1, fun pattern' path' result hresult => ?_⟩
  -- an entry is the new one, which is right by `h`, or it was there before
  simp only [Local.remember, Function.update_apply] at hresult
  split at hresult
  next hpattern =>
    subst hpattern
    rw [Function.update_apply] at hresult
    split at hresult
    next hpath => exact hpath ▸ Option.some.inj hresult ▸ h.1
    next => exact h.2 _ _ _ hresult
  next => exact h.2 _ _ _ hresult

theorem visit_isRight {memo : Memo} (hmemo : memo.Sound) :
    IsRight pattern path (visit pattern path memo) := by
  induction hn : pattern.length + path.length using Nat.strong_induction_on
    generalizing pattern path memo with
  | h n ih =>
    subst hn
    rw [visit.eq_def]
    split
    next result hresult => exact ⟨hmemo pattern path result hresult, hmemo⟩
    refine IsRight.remember ?_
    cases pattern with
    | nil =>
      refine ⟨?_, hmemo⟩
      cases path with
      | nil => exact iff_of_true rfl .nil
      | cons name path =>
        refine iff_of_false Bool.false_ne_true fun h => ?_
        cases h
    | cons glob pattern =>
      simp only
      split
      next hglob =>
        subst hglob
        -- `**` takes nothing, or one component more
        obtain ⟨hfirst, hmemo⟩ : IsRight pattern path (visit pattern path memo) :=
          ih _ (by simp) hmemo rfl
        rw [IsRight, globMatches_any, ← hfirst]
        split
        next htrue => exact ⟨iff_of_true rfl (.inl htrue), hmemo⟩
        next hfalse =>
          cases path with
          | nil => exact ⟨by simp [hfalse], hmemo⟩
          | cons name path =>
            obtain ⟨hnext, hmemo⟩ := ih _ (Nat.lt_succ_self _) hmemo rfl
            exact ⟨by simp [hfalse, hnext], hmemo⟩
      next hglob =>
        rw [IsRight, globMatches_component hglob]
        cases path with
        | nil => exact ⟨by simp, hmemo⟩
        | cons name path =>
          simp only
          split
          next hname =>
            obtain ⟨hnext, hmemo⟩ : IsRight pattern path (visit pattern path memo) :=
              ih _ (by simp; omega) hmemo rfl
            exact ⟨by simp [hnext, (segment_matches_iff glob name).mp hname], hmemo⟩
          next hname =>
            rw [segment_matches_iff] at hname
            exact ⟨by simp [hname], hmemo⟩

/-- **Main result**: the two matchers decide what patterns mean. -/
theorem glob_matching_exact :
    (∀ pattern path : List Text, glob_components pattern path = true ↔ GlobMatches pattern path) ∧
      ∀ pattern text : Text, segment_matches pattern text = true ↔ SegmentMatches pattern text := by
  refine ⟨fun pattern path => ?_, segment_matches_iff⟩
  have hempty : Memo.Sound fun _ _ => none := by simp [Memo.Sound]
  exact (visit_isRight hempty).1

end NeoEngram.Local
