import Mathlib

/-! # Words joined with a separator

A path is a list of words and also the one text in which they are joined with a
separator. The lexicographic orders of the lists, which a depth-first walk of
the tree of all words produces, and of the joined texts differ when a letter
sorts below the separator. They agree on two lists of words of which neither
`Undercuts` the other (`joined_lt_of_lt`), and are opposite when one does
(`joined_lt_of_undercuts`).
-/

namespace Words

open List

variable {α : Type} [LinearOrder α]

/-! ## The lexicographic order of texts -/

theorem append_cons_lt (l : List α) {x y : α} (h : x < y) (a b : List α) :
    l ++ x :: a < l ++ y :: b := by
  induction l with
  | nil => exact cons_lt_cons_iff.mpr (.inl h)
  | cons z l ih => exact cons_lt_cons_iff.mpr (.inr ⟨rfl, ih⟩)

theorem lt_append_cons (l : List α) (x : α) (a : List α) : l < l ++ x :: a := by
  induction l with
  | nil => exact nil_lt_cons _ _
  | cons z l ih => exact cons_lt_cons_iff.mpr (.inr ⟨rfl, ih⟩)

/-- A smaller text is a proper beginning of the larger one, or the two part at a letter. -/
theorem lt_cases {a b : List α} (h : a < b) :
    (∃ c r, b = a ++ c :: r) ∨ ∃ l x y a' b', a = l ++ x :: a' ∧ b = l ++ y :: b' ∧ x < y := by
  induction a generalizing b with
  | nil =>
    cases b with
    | nil => exact absurd h (lt_irrefl _)
    | cons c r => exact .inl ⟨c, r, rfl⟩
  | cons z a ih =>
    cases b with
    | nil => exact absurd h (not_lt_nil _)
    | cons w b =>
      rcases cons_lt_cons_iff.mp h with hzw | ⟨rfl, hab⟩
      · exact .inr ⟨[], z, w, a, b, rfl, rfl, hzw⟩
      · rcases ih hab with ⟨c, r, rfl⟩ | ⟨l, x, y, a', b', rfl, rfl, hxy⟩
        · exact .inl ⟨c, r, rfl⟩
        · exact .inr ⟨z :: l, x, y, a', b', rfl, rfl, hxy⟩

theorem le_of_prefix {a b : List α} (h : a <+: b) : a ≤ b := by
  obtain ⟨t, rfl⟩ := h
  cases t with
  | nil => simp
  | cons x t => exact (lt_append_cons a x t).le

/-- The texts between `p` and a continuation of `p` begin with `p`, so the first text of a sorted
collection that is not below `p` decides whether any begins with `p`. -/
theorem prefix_of_between {p s t : List α} (hps : p ≤ s) (hst : s ≤ t) (hpt : p <+: t) :
    p <+: s := by
  obtain ⟨u, rfl⟩ := hpt
  rcases hps.eq_or_lt with rfl | hlt
  · exact prefix_refl _
  · rcases lt_cases hlt with ⟨c, r, rfl⟩ | ⟨l, x, y, a', b', rfl, rfl, hxy⟩
    · exact ⟨c :: r, rfl⟩
    · -- `s` parts from `p` upwards, so it is above every continuation of `p`
      have habove : l ++ x :: (a' ++ u) < l ++ y :: b' := append_cons_lt l hxy _ _
      rw [append_assoc, cons_append] at hst
      exact absurd hst habove.not_ge

/-- When no letter stands between `c` and `d`, the texts from `p c` up to `p d` are those that
begin with `p c`. -/
theorem prefix_of_between_letters {p s : List α} {c d : α} (hcd : ∀ x, c ≤ x → x < d → x = c)
    (hlow : p ++ [c] ≤ s) (hhigh : s < p ++ [d]) : p ++ [c] <+: s := by
  induction p generalizing s with
  | nil =>
    cases s with
    | nil => exact absurd (nil_lt_cons c []) (not_lt.mpr hlow)
    | cons x s =>
      have hxc : ¬ x < c := fun hlt =>
        not_lt.mpr hlow (cons_lt_cons_iff.mpr (.inl hlt))
      have hxd : x < d := by
        rcases cons_lt_cons_iff.mp hhigh with hlt | ⟨-, hnil⟩
        · exact hlt
        · exact absurd hnil (not_lt_nil s)
      exact ⟨s, by rw [hcd x (not_lt.mp hxc) hxd]; rfl⟩
  | cons z p ih =>
    cases s with
    | nil => exact absurd (nil_lt_cons z (p ++ [c])) (not_lt.mpr hlow)
    | cons x s =>
      have hxz : ¬ x < z := fun hlt =>
        not_lt.mpr hlow (cons_lt_cons_iff.mpr (.inl hlt))
      rcases cons_lt_cons_iff.mp hhigh with hlt | ⟨rfl, hrest⟩
      · exact absurd hlt hxz
      · have hlow' : p ++ [c] ≤ s := by
          by_contra hlt
          exact not_lt.mpr hlow (cons_lt_cons_iff.mpr (.inr ⟨rfl, not_le.mp hlt⟩))
        exact cons_prefix_cons.mpr ⟨rfl, ih hlow' hrest⟩

/-! ## Joining and splitting -/

section Join

variable {β : Type} (sep : β)

/-- The words of `ws` in one text, separated by `sep`. -/
def joined (ws : List (List β)) : List β := [sep].intercalate ws

/-- No word of `ws` contains the separator. -/
def SepFree (ws : List (List β)) : Prop := ∀ w ∈ ws, sep ∉ w

variable {ws : List (List β)}

@[simp] theorem joined_singleton (w : List β) : joined sep [w] = w := by
  simp [joined]

@[simp] theorem joined_cons_cons (w v : List β) (ws : List (List β)) :
    joined sep (w :: v :: ws) = w ++ sep :: joined sep (v :: ws) := by
  simp [joined]

theorem joined_cons (w : List β) (h : ws ≠ []) :
    joined sep (w :: ws) = w ++ sep :: joined sep ws := by
  obtain ⟨v, ws, rfl⟩ := exists_cons_of_ne_nil h
  exact joined_cons_cons sep w v ws

theorem joined_append {p q : List (List β)} (hp : p ≠ []) (hq : q ≠ []) :
    joined sep (p ++ q) = joined sep p ++ sep :: joined sep q := by
  induction p with
  | nil => exact absurd rfl hp
  | cons w p ih =>
    cases p with
    | nil =>
      obtain ⟨v, q, rfl⟩ := exists_cons_of_ne_nil hq
      simp
    | cons v p =>
      have hrest := ih (cons_ne_nil _ _)
      simp only [cons_append, joined_cons_cons, append_assoc] at hrest ⊢
      rw [hrest]

theorem sublist_joined {w : List β} (h : w ∈ ws) : w.Sublist (joined sep ws) := by
  induction ws with
  | nil => simp at h
  | cons v ws ih =>
    by_cases hws : ws = []
    · subst hws
      rw [joined_singleton, mem_singleton.mp h]
    · rw [joined_cons sep v hws]
      rcases mem_cons.mp h with rfl | h
      · exact sublist_append_left _ _
      · exact (ih h).trans ((sublist_cons_self _ _).trans (sublist_append_right _ _))

theorem not_mem_joined {c : β} (hc : c ≠ sep) (h : ∀ w ∈ ws, c ∉ w) : c ∉ joined sep ws := by
  induction ws with
  | nil => exact not_mem_nil
  | cons w ws ih =>
    obtain ⟨hw, hws⟩ := forall_mem_cons.mp h
    by_cases hnil : ws = []
    · rw [hnil, joined_singleton]
      exact hw
    · rw [joined_cons sep w hnil]
      simp only [mem_append, mem_cons, not_or]
      exact ⟨hw, hc, ih hws⟩

theorem SepFree.of_cons {w : List β} (h : SepFree sep (w :: ws)) : sep ∉ w ∧ SepFree sep ws :=
  ⟨h w mem_cons_self, fun v hv => h v (mem_cons_of_mem _ hv)⟩

end Join

section Split

variable {β : Type} [DecidableEq β] (sep : β)

/-- The words of a text: what stands between its separators. -/
def split (t : List β) : List (List β) := t.splitOn sep

theorem split_ne_nil (t : List β) : split sep t ≠ [] := splitOn_ne_nil _ _

@[simp] theorem joined_split (t : List β) : joined sep (split sep t) = t := intercalate_splitOn sep

theorem split_joined {ws : List (List β)} (h : SepFree sep ws) (hne : ws ≠ []) :
    split sep (joined sep ws) = ws :=
  splitOn_intercalate sep h hne

theorem split_append_cons (a b : List β) : split sep (a ++ sep :: b) = split sep a ++ split sep b :=
  splitOn_append_cons_self a b

theorem joined_injective {p q : List (List β)} (hp : SepFree sep p) (hq : SepFree sep q)
    (hpn : p ≠ []) (hqn : q ≠ []) (h : joined sep p = joined sep q) : p = q := by
  rw [← split_joined sep hp hpn, ← split_joined sep hq hqn, h]

theorem split_injective {a b : List β} (h : split sep a = split sep b) : a = b := by
  rw [← joined_split sep a, ← joined_split sep b, h]

variable {t : List β}

theorem mem_split_of_mem {c : β} (hc : c ≠ sep) (h : c ∈ t) : ∃ w ∈ split sep t, c ∈ w := by
  rw [← joined_split sep t] at h
  revert h
  generalize split sep t = words
  induction words with
  | nil => simp [joined]
  | cons w ws ih =>
    intro h
    by_cases hnil : ws = []
    · exact ⟨w, mem_cons_self, by simpa [hnil] using h⟩
    · rw [joined_cons sep w hnil] at h
      rcases mem_append.mp h with h | h
      · exact ⟨w, mem_cons_self, h⟩
      · rcases mem_cons.mp h with h | h
        · exact absurd h hc
        · obtain ⟨v, hv, hcv⟩ := ih h
          exact ⟨v, mem_cons_of_mem w hv, hcv⟩

theorem mem_of_mem_split {c : β} {w : List β} (hw : w ∈ split sep t) (h : c ∈ w) : c ∈ t := by
  have hsub := (sublist_joined sep hw).subset h
  rwa [joined_split] at hsub

theorem sepFree_split (t : List β) : SepFree sep (split sep t) := by
  unfold split
  induction t with
  | nil => simp [SepFree]
  | cons x t ih =>
    rw [splitOn_cons_eq_if_modifyHead]
    by_cases hx : x = sep
    · simp only [hx, beq_self_eq_true, if_true]
      intro w hw
      rcases mem_cons.mp hw with rfl | hw
      · exact not_mem_nil
      · exact ih w hw
    · -- the letter is put in front of the first word of the rest
      obtain ⟨v, vs, hvs⟩ := exists_cons_of_ne_nil (splitOn_ne_nil sep t)
      rw [hvs] at ih ⊢
      simp only [beq_iff_eq, hx, if_false, modifyHead_cons]
      intro w hw
      rcases mem_cons.mp hw with rfl | hw
      · simpa [Ne.symm hx] using (ih.of_cons).1
      · exact (ih.of_cons).2 w hw

/-- A text continues another one after a separator exactly when its words do. -/
theorem joined_append_cons_eq {p q : List (List β)} (hp : SepFree sep p)
    (hq : SepFree sep q) (hpn : p ≠ []) (hqn : q ≠ [])
    (h : joined sep p ++ sep :: t = joined sep q) : q = p ++ split sep t := by
  have hwords := split_append_cons sep (joined sep p) t
  rwa [h, split_joined sep hq hqn, split_joined sep hp hpn] at hwords

/-- A text before and after its first separator. -/
def split_once (t : List β) : Option (List β × List β) :=
  match t.dropWhile (· ≠ sep) with
  | [] => none
  | _ :: rest => some (t.takeWhile (· ≠ sep), rest)

@[simp] theorem split_once_append {a : List β} (h : sep ∉ a) (b : List β) :
    split_once sep (a ++ sep :: b) = some (a, b) := by
  have hall : ∀ x ∈ a, decide (x ≠ sep) = true := by
    intro x hx
    exact decide_eq_true fun heq => h (heq ▸ hx)
  have hdrop : (a ++ sep :: b).dropWhile (fun x => decide (x ≠ sep)) = sep :: b := by
    rw [dropWhile_append_of_pos hall, dropWhile_cons_of_neg (by simp)]
  have htake : (a ++ sep :: b).takeWhile (fun x => decide (x ≠ sep)) = a := by
    rw [takeWhile_append_of_pos hall, takeWhile_cons_of_neg (by simp), append_nil]
  simp only [split_once, hdrop, htake]

/-- A text is taken apart at the first separator in only one way. -/
theorem append_cons_inj {a b s : List β} (ha : sep ∉ a) (hb : sep ∉ b)
    (h : a ++ sep :: s = b ++ sep :: t) : a = b ∧ s = t := by
  have hsplit := congrArg (split_once sep) h
  rw [split_once_append sep ha, split_once_append sep hb] at hsplit
  exact ⟨congrArg Prod.fst (Option.some.inj hsplit), congrArg Prod.snd (Option.some.inj hsplit)⟩

/-- A text before and after its last separator. -/
def rsplit_once (t : List β) : Option (List β × List β) :=
  (split_once sep t.reverse).map fun (b, a) => (a.reverse, b.reverse)

end Split

/-! ## The two orders -/

variable (sep : α)

/-- `q` undercuts `p`: in the place of a word `d` of `p` it has one that continues `d` with a letter
smaller than the separator. -/
def Undercuts (q p : List (List α)) : Prop :=
  ∃ pre d v ps c r qs,
    p = pre ++ d :: v :: ps ∧ q = pre ++ (d ++ c :: r) :: qs ∧ c < sep

theorem Undercuts.cons {q p : List (List α)} (h : Undercuts sep q p) (w : List α) :
    Undercuts sep (w :: q) (w :: p) := by
  obtain ⟨pre, d, v, ps, c, r, qs, rfl, rfl, hc⟩ := h
  exact ⟨w :: pre, d, v, ps, c, r, qs, rfl, rfl, hc⟩

/-- Where one list of words undercuts another, the two orders are opposite. -/
theorem joined_lt_of_undercuts {q p : List (List α)} (h : Undercuts sep q p) :
    joined sep q < joined sep p ∧ p < q := by
  obtain ⟨pre, d, v, ps, c, r, qs, rfl, rfl, hc⟩ := h
  induction pre with
  | nil =>
    constructor
    · cases qs with
      | nil =>
        simpa using append_cons_lt d hc r (joined sep (v :: ps))
      | cons u us =>
        simpa using append_cons_lt d hc (r ++ sep :: joined sep (u :: us)) (joined sep (v :: ps))
    · exact cons_lt_cons_iff.mpr (.inl (lt_append_cons d c r))
  | cons w pre ih =>
    refine ⟨?_, cons_lt_cons_iff.mpr (.inr ⟨rfl, ih.2⟩)⟩
    have hstep : sep :: joined sep (pre ++ (d ++ c :: r) :: qs) <
        sep :: joined sep (pre ++ d :: v :: ps) := cons_lt_cons_iff.mpr (.inr ⟨rfl, ih.1⟩)
    simp only [cons_append]
    rw [joined_cons sep w (by simp), joined_cons sep w (by simp)]
    exact append_left_lt hstep

theorem joined_lt_of_head_lt {a b : List α} {ps qs : List (List α)} (hab : a < b)
    (hq : SepFree sep (b :: qs)) (hcut : ¬ Undercuts sep (b :: qs) (a :: ps)) :
    joined sep (a :: ps) < joined sep (b :: qs) := by
  -- what follows a word in the joined text, if anything
  have hshape : ∀ (w : List α) (ws : List (List α)), ∃ t, joined sep (w :: ws) = w ++ t ∧
      (t = [] ∧ ws = [] ∨ ∃ u, t = sep :: u ∧ ws ≠ []) := by
    intro w ws
    by_cases hws : ws = []
    · exact ⟨[], by simp [hws], .inl ⟨rfl, hws⟩⟩
    · exact ⟨_, joined_cons sep w hws, .inr ⟨_, rfl, hws⟩⟩
  obtain ⟨s, hs, hps⟩ := hshape a ps
  obtain ⟨t, ht, -⟩ := hshape b qs
  rw [hs, ht]
  rcases lt_cases hab with ⟨c, r, rfl⟩ | ⟨l, x, y, a', b', rfl, rfl, hxy⟩
  · rw [append_assoc, cons_append]
    rcases hps with ⟨rfl, -⟩ | ⟨u, rfl, hne⟩
    · simpa using lt_append_cons a c (r ++ t)
    · obtain ⟨v, ps, rfl⟩ := exists_cons_of_ne_nil hne
      have hsep : sep ≠ c := by
        rintro rfl
        exact hq.of_cons.1 (by simp)
      have hge : ¬ c < sep := fun hc => hcut ⟨[], a, v, ps, c, r, qs, rfl, rfl, hc⟩
      exact append_cons_lt a (lt_of_le_of_ne (not_lt.mp hge) hsep) _ _
  · simpa using append_cons_lt l hxy (a' ++ s) (b' ++ t)

/-- A depth-first walk meets `p` before `q`; unless `q` undercuts `p`, so do the texts. -/
theorem joined_lt_of_lt {p q : List (List α)} (hpq : p < q) (hp : p ≠ []) (hq : SepFree sep q)
    (hcut : ¬ Undercuts sep q p) : joined sep p < joined sep q := by
  induction p generalizing q with
  | nil => exact absurd rfl hp
  | cons a ps ih =>
    cases q with
    | nil => exact absurd hpq (not_lt_nil _)
    | cons b qs =>
      rcases cons_lt_cons_iff.mp hpq with hab | ⟨rfl, hrest⟩
      · exact joined_lt_of_head_lt sep hab hq hcut
      · have hqs : qs ≠ [] := by rintro rfl; exact not_lt_nil _ hrest
        rw [joined_cons sep a hqs]
        by_cases hps : ps = []
        · subst hps
          simpa using lt_append_cons a sep (joined sep qs)
        · rw [joined_cons sep a hps]
          have hlt := ih hrest hps hq.of_cons.2 fun hc => hcut (hc.cons sep a)
          exact append_left_lt (cons_lt_cons_iff.mpr (.inr ⟨rfl, hlt⟩))

end Words
