import NeoEngram.Framework.Checks
import Mathlib.Order.Defs.LinearOrder
import Mathlib.Order.Monotone.Defs
import Mathlib.Data.List.Pairwise
import Mathlib.Data.Prod.Lex
import Mathlib.Data.List.Lex

/-! # Trees of ordered maps

Under each key of a node there is a leaf or another tree. A tree is built by
inserting values at paths, lists of keys. The file relates the tree to its list
of leaves, each with the path that leads to it:

- `insert_ok` and `exists_insert`: what inserting does to that list, and when
  it succeeds
- `leaves_sorted`: a depth-first walk lists the leaves in path order
- `subtrees`: the trees below the root in post-order, and what they inherit
- `Node.find` and `Node.replace`: what stands at a path, and how removing the
  entries of a tree one by one removes the tree
-/

namespace Trees

open Checks List Option

mutual

/-- What stands under a key. -/
inductive Node (κ α : Type) where
  | leaf (value : α)
  | branch (tree : Tree κ α)

/-- The keys of an ordered map in increasing order, with what stands under each. -/
inductive Tree (κ α : Type) where
  | nil
  | cons (key : κ) (node : Node κ α) (rest : Tree κ α)

end

variable {κ α ε : Type}

/-! ## Leaves, keys and order -/

/-- A leaf below a key, seen from above it. -/
def under (key : κ) (leaf : List κ × α) : List κ × α :=
  (key :: leaf.1, leaf.2)

mutual

/-- The leaves of a node with their paths, in the order of a depth-first walk. -/
def Node.leaves : Node κ α → List (List κ × α)
  | .leaf value => [([], value)]
  | .branch tree => tree.leaves

/-- The leaves of a tree with their paths, in the order of a depth-first walk. -/
def Tree.leaves : Tree κ α → List (List κ × α)
  | .nil => []
  | .cons key node rest => node.leaves.map (under key) ++ rest.leaves

end

def Tree.keys : Tree κ α → List κ
  | .nil => []
  | .cons key _ rest => key :: rest.keys

mutual

/-- Every tree of the node has strictly increasing keys. -/
def Node.Ordered [LT κ] : Node κ α → Prop
  | .leaf _ => True
  | .branch tree => tree.Ordered

/-- Every tree of the tree has strictly increasing keys. -/
def Tree.Ordered [LT κ] : Tree κ α → Prop
  | .nil => True
  | .cons key node rest => node.Ordered ∧ (∀ k ∈ rest.keys, key < k) ∧ rest.Ordered

end

mutual

/-- Every tree of the node has a key. -/
def Node.Populated : Node κ α → Prop
  | .leaf _ => True
  | .branch tree => tree ≠ .nil ∧ tree.Populated

/-- Every tree below the root has a key. -/
def Tree.Populated : Tree κ α → Prop
  | .nil => True
  | .cons _ node rest => node.Populated ∧ rest.Populated

end

namespace Tree

variable {t : Tree κ α} {P : Tree κ α → Prop}

/-- Induction along the keys of one tree. -/
@[elab_as_elim, induction_eliminator]
theorem row_induction (nil : P nil)
    (cons : ∀ key node rest, P rest → P (cons key node rest)) : ∀ t, P t
  | .nil => nil
  | .cons key node rest => cons key node rest (row_induction nil cons rest)

/-- Induction over the whole tree. -/
@[elab_as_elim]
theorem tree_induction (nil : P nil)
    (leaf : ∀ key value rest, P rest → P (cons key (.leaf value) rest))
    (branch : ∀ key sub rest, P sub → P rest → P (cons key (.branch sub) rest)) : ∀ t, P t
  | .nil => nil
  | .cons key (.leaf value) rest => leaf key value rest (tree_induction nil leaf branch rest)
  | .cons key (.branch sub) rest =>
    branch key sub rest (tree_induction nil leaf branch sub) (tree_induction nil leaf branch rest)

theorem keys_sorted [LT κ] (h : t.Ordered) : t.keys.Pairwise (· < ·) := by
  induction t with
  | nil => exact List.Pairwise.nil
  | cons key node rest ih =>
    obtain ⟨-, hfirst, hrest⟩ := h
    exact pairwise_cons.mpr ⟨hfirst, ih hrest⟩

variable {f : List κ × α}

theorem head_mem_keys (h : f ∈ t.leaves) :
    ∃ key ∈ t.keys, ∃ rest, f.1 = key :: rest := by
  induction t with
  | nil => simp [leaves] at h
  | cons key node rest ih =>
    simp only [leaves, mem_append, List.mem_map] at h
    rcases h with ⟨g, -, hg⟩ | h
    · exact ⟨key, mem_cons_self, g.1, by rw [← hg]; rfl⟩
    · obtain ⟨n, hn, hf⟩ := ih h
      exact ⟨n, mem_cons_of_mem _ hn, hf⟩

theorem Populated.exists_leaf (ht : t.Populated) (hne : t ≠ nil) : ∃ f, f ∈ t.leaves := by
  induction t using tree_induction with
  | nil => exact absurd rfl hne
  | leaf key value rest _ =>
    exact ⟨_, mem_append_left _ (List.mem_map_of_mem (mem_singleton.mpr rfl))⟩
  | branch key sub rest ih _ =>
    obtain ⟨⟨hsub, hpop⟩, -⟩ := ht
    obtain ⟨f, hf⟩ := ih hpop hsub
    exact ⟨_, mem_append_left _ (List.mem_map_of_mem hf)⟩

variable {node : Node κ α}

theorem exists_leaf_of_node (h : node.Populated) : ∃ f, f ∈ node.leaves := by
  cases node with
  | leaf value => exact ⟨_, mem_singleton.mpr rfl⟩
  | branch sub => exact h.2.exists_leaf h.1

variable {key : κ}

theorem Populated.exists_leaf_of_mem_keys (ht : t.Populated)
    (h : key ∈ t.keys) : ∃ rest value, (key :: rest, value) ∈ t.leaves := by
  induction t with
  | nil => simp [keys] at h
  | cons k node rest ih =>
    simp only [keys, mem_cons] at h
    rcases h with rfl | h
    · obtain ⟨g, hg⟩ := exists_leaf_of_node ht.1
      exact ⟨g.1, g.2, mem_append_left _ (List.mem_map_of_mem hg)⟩
    · obtain ⟨tail, value, hf⟩ := ih ht.2 h
      exact ⟨tail, value, mem_append_right _ hf⟩

theorem Populated.length_keys_le (ht : t.Populated) : t.keys.length ≤ t.leaves.length := by
  induction t with
  | nil => simp [keys]
  | cons k node rest ih =>
    obtain ⟨f, hf⟩ := exists_leaf_of_node ht.1
    have hone := length_pos_of_mem hf
    have := ih ht.2
    simp only [keys, leaves, length_cons, length_append, length_map]
    omega

section Sorted

variable [LinearOrder κ]

theorem leaves_sorted_cons {rest : Tree κ α}
    (hnode : node.leaves.Pairwise fun a b => a.1 < b.1) (hfirst : ∀ k ∈ rest.keys, key < k)
    (hrest : rest.leaves.Pairwise fun a b => a.1 < b.1) :
    (cons key node rest).leaves.Pairwise fun a b => a.1 < b.1 := by
  refine pairwise_append.mpr ⟨?_, hrest, ?_⟩
  · refine pairwise_map.mpr (hnode.imp fun hab => ?_)
    exact cons_lt_cons_iff.mpr (.inr ⟨rfl, hab⟩)
  · intro a ha b hb
    obtain ⟨g, -, rfl⟩ := List.mem_map.mp ha
    obtain ⟨k, hk, tail, hb⟩ := head_mem_keys hb
    rw [hb]
    exact cons_lt_cons_iff.mpr (.inl (hfirst k hk))

/-- A depth-first walk lists the leaves in the order of their paths. -/
theorem leaves_sorted (ht : t.Ordered) : t.leaves.Pairwise fun a b => a.1 < b.1 := by
  induction t using tree_induction with
  | nil => exact List.Pairwise.nil
  | leaf key value rest ih =>
    exact leaves_sorted_cons (pairwise_singleton _ _) ht.2.1 (ih ht.2.2)
  | branch key sub rest ihsub ihrest =>
    exact leaves_sorted_cons (ihsub ht.1) ht.2.1 (ihrest ht.2.2)

theorem leaves_nodup (ht : t.Ordered) : t.leaves.Nodup :=
  (leaves_sorted ht).imp fun hab he => (he ▸ hab).ne rfl

end Sorted

/-! ## The map operations -/

section Maps

variable [LinearOrder κ]

def get (key : κ) : Tree κ α → Option (Node κ α)
  | nil => none
  | cons k node rest => if key = k then some node else rest.get key

/-- The tree with what stands under a key replaced, or put in its place among the others. -/
def set (key : κ) (node : Node κ α) : Tree κ α → Tree κ α
  | nil => cons key node nil
  | cons k n rest =>
    if key < k then cons key node (cons k n rest)
    else if key = k then cons key node rest
    else cons k n (rest.set key node)

variable {e : Node κ α} {key : κ} {t : Tree κ α}

theorem mem_keys_of_get (h : t.get key = some e) : key ∈ t.keys := by
  induction t with
  | nil => simp [get] at h
  | cons n node rest ih =>
    by_cases hn : key = n
    · exact hn ▸ mem_cons_self
    · rw [get, if_neg hn] at h
      exact mem_cons_of_mem _ (ih h)

theorem get_set {key n : κ} : (t.set key e).get n = if n = key then some e else t.get n := by
  induction t with
  | nil => simp [set, get]
  | cons m node rest ih =>
    unfold set
    by_cases hlt : key < m
    · rw [if_pos hlt, get]
    · rw [if_neg hlt]
      by_cases heq : key = m
      · subst heq
        rw [if_pos rfl, get, get]
        split <;> rfl
      · rw [if_neg heq, get, get, ih]
        by_cases hnm : n = m
        · subst hnm
          rw [if_pos rfl, if_pos rfl, if_neg (Ne.symm heq)]
        · rw [if_neg hnm, if_neg hnm]

/-- The keys of the tree's root with what stands under them. -/
def rows : Tree κ α → List (κ × Node κ α)
  | nil => []
  | cons key node rest => (key, node) :: rest.rows

theorem mem_rows (ht : t.Ordered) :
    (key, node) ∈ t.rows ↔ t.get key = some node := by
  induction t with
  | nil => simp [rows, get]
  | cons k n rest ih =>
    obtain ⟨_, hfirst, hrest⟩ := ht
    rw [rows, mem_cons, ih hrest, get]
    by_cases hk : key = k
    · subst hk
      have hnone : rest.get key ≠ some node := by
        intro hget
        exact absurd (hfirst key (mem_keys_of_get hget)) (lt_irrefl key)
      simp [hnone, eq_comm]
    · simp [hk]

/-- A fold that can only add a property has it at the end if it had it at the start or a row has
added it. -/
theorem foldl_rows_iff {S : Type} {X : S → Prop} {f : S → κ × Node κ α → S}
    {R : κ → Node κ α → Prop} (ht : t.Ordered)
    (hstep : ∀ s key node, t.get key = some node → (X (f s (key, node)) ↔ X s ∨ R key node))
    (s : S) : X (t.rows.foldl f s) ↔ X s ∨ ∃ key node, t.get key = some node ∧ R key node := by
  have hrows : ∀ s, ∀ row ∈ t.rows, (X (f s row) ↔ X s ∨ R row.1 row.2) :=
    fun s row hrow => hstep s row.1 row.2 ((mem_rows ht).mp hrow)
  rw [foldl_adds_iff hrows, Prod.exists]
  simp only [mem_rows ht]

variable {weight : κ × Node κ α → Nat}

/-- A sum over the rows of a tree to which only one key contributes. -/
theorem sum_rows_eq (ht : t.Ordered) (hother : ∀ row, row.1 ≠ key → weight row = 0) :
    (t.rows.map weight).sum =
      match t.get key with
      | some node => weight (key, node)
      | none => 0 := by
  induction t with
  | nil => rfl
  | cons k node rest ih =>
    obtain ⟨_, hfirst, hrest⟩ := ht
    rw [rows, map_cons, sum_cons, ih hrest, get]
    by_cases hk : key = k
    · subst hk
      have hnone : rest.get key = none := by
        rw [eq_none_iff_forall_ne_some]
        intro e hget
        exact absurd (hfirst key (mem_keys_of_get hget)) (lt_irrefl key)
      simp [hnone]
    · simp [hk, hother (k, node) (Ne.symm hk)]

omit [LinearOrder κ] in
theorem foldl_rows_count {S : Type} {count : S → Nat} {f : S → κ × Node κ α → S}
    (hstep : ∀ s row, count (f s row) = count s + weight row)
    (t : Tree κ α) (s : S) : count (t.rows.foldl f s) = count s + (t.rows.map weight).sum := by
  generalize t.rows = l
  induction l generalizing s with
  | nil => simp
  | cons row l ih =>
    rw [foldl_cons, ih, hstep, map_cons, sum_cons, Nat.add_assoc]

theorem mem_keys_set {key n : κ} : n ∈ (t.set key e).keys ↔ n = key ∨ n ∈ t.keys := by
  induction t with
  | nil => simp [set, keys]
  | cons m node rest ih =>
    unfold set
    by_cases hlt : key < m
    · simp [hlt, keys]
    · by_cases heq : key = m
      · subst heq
        simp [keys]
      · simp only [if_neg hlt, if_neg heq, keys, mem_cons, ih]
        tauto

theorem set_ne_nil : t.set key e ≠ nil := by
  intro h
  have hmem : key ∈ (t.set key e).keys := mem_keys_set.mpr (.inl rfl)
  rw [h] at hmem
  simp [keys] at hmem

theorem Ordered.set (ht : t.Ordered) (he : e.Ordered) : (t.set key e).Ordered := by
  induction t with
  | nil => exact ⟨he, by simp [keys], trivial⟩
  | cons m node rest ih =>
    obtain ⟨hnode, hfirst, hrest⟩ := ht
    unfold Tree.set
    by_cases hlt : key < m
    · rw [if_pos hlt]
      refine ⟨he, ?_, hnode, hfirst, hrest⟩
      intro n hn
      rcases mem_cons.mp hn with hn | hn
      · exact hn ▸ hlt
      · exact hlt.trans (hfirst n hn)
    · rw [if_neg hlt]
      by_cases heq : key = m
      · subst heq
        rw [if_pos rfl]
        exact ⟨he, hfirst, hrest⟩
      · rw [if_neg heq]
        refine ⟨hnode, ?_, ih hrest⟩
        intro n hn
        rcases mem_keys_set.mp hn with hn | hn
        · exact hn ▸ lt_of_le_of_ne (not_lt.mp hlt) (Ne.symm heq)
        · exact hfirst n hn

theorem Ordered.get (ht : t.Ordered) (h : t.get key = some e) : e.Ordered := by
  induction t with
  | nil => simp [Tree.get] at h
  | cons m node rest ih =>
    obtain ⟨hnode, -, hrest⟩ := ht
    by_cases hn : key = m
    · rw [Tree.get, if_pos hn] at h
      exact Option.some.inj h ▸ hnode
    · rw [Tree.get, if_neg hn] at h
      exact ih hrest h

theorem Populated.set (ht : t.Populated) (he : e.Populated) : (t.set key e).Populated := by
  induction t with
  | nil => exact ⟨he, trivial⟩
  | cons m node rest ih =>
    obtain ⟨hnode, hrest⟩ := ht
    unfold Tree.set
    by_cases hlt : key < m
    · rw [if_pos hlt]
      exact ⟨he, hnode, hrest⟩
    · rw [if_neg hlt]
      by_cases heq : key = m
      · rw [if_pos heq]
        exact ⟨he, hrest⟩
      · rw [if_neg heq]
        exact ⟨hnode, ih hrest⟩

theorem Populated.get (ht : t.Populated) (h : t.get key = some e) : e.Populated := by
  induction t with
  | nil => simp [Tree.get] at h
  | cons m node rest ih =>
    obtain ⟨hnode, hrest⟩ := ht
    by_cases hn : key = m
    · rw [Tree.get, if_pos hn] at h
      exact Option.some.inj h ▸ hnode
    · rw [Tree.get, if_neg hn] at h
      exact ih hrest h

/-! ## Inserting -/

/-- How inserting fails: at an empty path, at a path that is taken, and at a path through
a leaf. -/
structure InsertErrors (ε : Type) where
  (empty taken blocked : ε)

/-- Places a value at a path, creating the trees on the way. -/
def insert (errors : InsertErrors ε) (value : α) : List κ → Tree κ α → Except ε (Tree κ α)
  | [], _ => .error errors.empty
  | [first], self => do
    ensure ((self.get first).isNone) errors.taken
    return self.set first (.leaf value)
  | first :: second :: remaining, self =>
    match self.get first with
    | some (.leaf _) => .error errors.blocked
    | some (.branch tree) => do
      let tree ← insert errors value (second :: remaining) tree
      return self.set first (.branch tree)
    | none => do
      let tree ← insert errors value (second :: remaining) nil
      return self.set first (.branch tree)

theorem mem_leaves_iff (ht : t.Ordered) :
    f ∈ t.leaves ↔ ∃ key e, t.get key = some e ∧ ∃ g ∈ e.leaves, f = under key g := by
  induction t with
  | nil => simp [leaves, get]
  | cons m node rest ih =>
    obtain ⟨-, hfirst, hrest⟩ := ht
    simp only [leaves, mem_append, List.mem_map, ih hrest]
    constructor
    · rintro (⟨g, hg, rfl⟩ | ⟨key, e, hget, g, hg, rfl⟩)
      · exact ⟨m, node, by rw [get, if_pos rfl], g, hg, rfl⟩
      · -- a key of the rest is above the first one, so the first one does not hide it
        have hne : key ≠ m := (hfirst key (mem_keys_of_get hget)).ne'
        exact ⟨key, e, by rw [get, if_neg hne, hget], g, hg, rfl⟩
    · rintro ⟨key, e, hget, g, hg, rfl⟩
      by_cases hn : key = m
      · rw [get, if_pos hn] at hget
        obtain rfl := Option.some.inj hget
        exact .inl ⟨g, hg, by rw [hn]⟩
      · rw [get, if_neg hn] at hget
        exact .inr ⟨key, e, hget, g, hg, rfl⟩

theorem mem_leaves_set (ht : t.Ordered) (he : e.Ordered) :
    f ∈ (t.set key e).leaves ↔
      (∃ g ∈ e.leaves, f = under key g) ∨ (f ∈ t.leaves ∧ f.1.head? ≠ some key) := by
  rw [mem_leaves_iff (ht.set he), mem_leaves_iff ht]
  constructor
  · rintro ⟨n, e', hget, g, hg, rfl⟩
    rw [get_set] at hget
    by_cases hn : n = key
    · subst hn
      rw [if_pos rfl] at hget
      exact .inl ⟨g, Option.some.inj hget ▸ hg, rfl⟩
    · rw [if_neg hn] at hget
      exact .inr ⟨⟨n, e', hget, g, hg, rfl⟩, by simpa [under] using hn⟩
  · rintro (⟨g, hg, rfl⟩ | ⟨⟨n, e', hget, g, hg, rfl⟩, hne⟩)
    · exact ⟨key, e, by rw [get_set, if_pos rfl], g, hg, rfl⟩
    · have hn : n ≠ key := by simpa [under] using hne
      exact ⟨n, e', by rw [get_set, if_neg hn, hget], g, hg, rfl⟩

theorem mem_leaves_head_iff (ht : t.Ordered) (hget : t.get key = some e) (f : List κ × α) :
    (f ∈ t.leaves ∧ f.1.head? = some key) ↔ ∃ g ∈ e.leaves, f = under key g := by
  rw [mem_leaves_iff ht]
  constructor
  · rintro ⟨⟨n, e', hget', g, hg, rfl⟩, hhead⟩
    have hname : n = key := by simpa [under] using hhead
    rw [hname, hget] at hget'
    exact ⟨g, Option.some.inj hget' ▸ hg, by rw [hname]⟩
  · rintro ⟨g, hg, rfl⟩
    exact ⟨⟨key, e, hget, g, hg, rfl⟩, rfl⟩

theorem head_ne_of_get_none (ht : t.Ordered) (hget : t.get key = none)
    (hf : f ∈ t.leaves) : f.1.head? ≠ some key := by
  intro hhead
  obtain ⟨n, e, hget', g, -, rfl⟩ := (mem_leaves_iff ht).mp hf
  have hname : n = key := by simpa [under] using hhead
  rw [hname, hget] at hget'
  cases hget'

/-- Adding a leaf to the tree under a key adds it to the whole, below that key. -/
theorem set_branch_leaves {t sub sub' : Tree κ α} (ht : t.Ordered) {new : List κ × α}
    (hsub : ∀ f, (f ∈ t.leaves ∧ f.1.head? = some key) ↔ ∃ g ∈ sub.leaves, f = under key g)
    (hsub' : sub'.Ordered) (hmem : ∀ f, f ∈ sub'.leaves ↔ f ∈ sub.leaves ∨ f = new) :
    (t.set key (.branch sub')).Ordered ∧ ∀ f, f ∈ (t.set key (.branch sub')).leaves ↔
      f ∈ t.leaves ∨ f = under key new := by
  have he : (Node.branch sub').Ordered := hsub'
  refine ⟨ht.set he, fun f => ?_⟩
  have hnew : (∃ g ∈ (Node.branch sub').leaves, f = under key g) ↔
      (f ∈ t.leaves ∧ f.1.head? = some key) ∨ f = under key new := by
    rw [hsub f]
    simp only [Node.leaves, hmem]
    constructor
    · rintro ⟨g, hg | rfl, rfl⟩
      · exact .inl ⟨g, hg, rfl⟩
      · exact .inr rfl
    · rintro (⟨g, hg, rfl⟩ | rfl)
      · exact ⟨g, .inl hg, rfl⟩
      · exact ⟨_, .inr rfl, rfl⟩
  rw [mem_leaves_set ht he, hnew]
  tauto

variable {path : List κ}

/-- Inserting a value keeps the order and adds exactly that leaf. -/
theorem insert_ok {errors : InsertErrors ε} {value : α} {t t' : Tree κ α}
    (ht : t.Ordered) (h : insert errors value path t = .ok t') :
    t'.Ordered ∧ ∀ f, f ∈ t'.leaves ↔ f ∈ t.leaves ∨ f = (path, value) := by
  -- one case per equation of the definition
  fun_induction insert errors value path t generalizing t' with
  | case1 => cases h
  | case2 first t =>
    simp only [ok_iff, isNone_iff_eq_none] at h
    obtain ⟨hnone, rfl⟩ := h
    have he : (Node.leaf value : Node κ α).Ordered := trivial
    refine ⟨ht.set he, fun f => ?_⟩
    have hfree := head_ne_of_get_none ht hnone (f := f)
    have hone : (∃ g ∈ (Node.leaf value : Node κ α).leaves, f = under first g) ↔
        f = ([first], value) := by
      simp [Node.leaves, under]
    rw [mem_leaves_set ht he, hone]
    tauto
  | case3 => cases h
  | case4 first second remaining t sub hget ih =>
    simp only [ok_iff] at h
    obtain ⟨sub', hinsert, rfl⟩ := h
    obtain ⟨hsub', hmem⟩ := ih (ht.get hget) hinsert
    exact set_branch_leaves ht (mem_leaves_head_iff ht hget) hsub' hmem
  | case5 first second remaining t hget ih =>
    simp only [ok_iff] at h
    obtain ⟨sub', hinsert, rfl⟩ := h
    obtain ⟨hsub', hmem⟩ := ih trivial hinsert
    refine set_branch_leaves ht (fun f => ?_) hsub' hmem
    simp only [leaves, not_mem_nil, false_and, exists_false, iff_false, not_and]
    exact fun hf => head_ne_of_get_none ht hget hf

/-- Inserting succeeds unless the path is a beginning of a leaf's path or the reverse. -/
theorem exists_insert {errors : InsertErrors ε} {value : α} {path : List κ} (ht : t.Ordered)
    (hpop : t.Populated) (hne : path ≠ [])
    (hfree : ∀ f ∈ t.leaves, ¬ path <+: f.1 ∧ ¬ f.1 <+: path) :
    ∃ t', insert errors value path t = .ok t' ∧ t'.Populated ∧ t' ≠ nil := by
  fun_induction insert errors value path t with
  | case1 => exact absurd rfl hne
  | case2 first t =>
    have hnone : t.get first = none := by
      -- whatever stands there has a leaf, and `[first]` is a beginning of its path
      by_contra hsome
      obtain ⟨e, hget⟩ := ne_none_iff_exists'.mp hsome
      obtain ⟨g, hg⟩ := exists_leaf_of_node (hpop.get hget)
      have hmem := (mem_leaves_iff ht).mpr ⟨first, e, hget, g, hg, rfl⟩
      exact (hfree _ hmem).1 ⟨g.1, rfl⟩
    refine ⟨_, by simp [hnone, ensure, bind, Except.bind, pure, Except.pure]; rfl, ?_, set_ne_nil⟩
    exact hpop.set trivial
  | case3 first second remaining t value' hget =>
    have hmem := (mem_leaves_iff ht).mpr ⟨first, _, hget, ([], value'), mem_singleton.mpr rfl, rfl⟩
    exact absurd ⟨second :: remaining, rfl⟩ (hfree _ hmem).2
  | case4 first second remaining t sub hget ih =>
    have hsub : ∀ f ∈ sub.leaves, ¬ second :: remaining <+: f.1 ∧
      ¬ f.1 <+: second :: remaining := by
      intro f hf
      have hmem := (mem_leaves_iff ht).mpr ⟨first, _, hget, f, hf, rfl⟩
      simpa [under] using hfree _ hmem
    obtain ⟨-, hsubpop⟩ := hpop.get hget
    obtain ⟨sub', hinsert, hpop', hne'⟩ := ih (ht.get hget) hsubpop (by simp) hsub
    refine ⟨t.set first (.branch sub'), by rw [hinsert]; rfl, ?_, set_ne_nil⟩
    exact hpop.set ⟨hne', hpop'⟩
  | case5 first second remaining t hget ih =>
    obtain ⟨sub', hinsert, hpop', hne'⟩ := ih trivial trivial (by simp) (by simp [leaves])
    refine ⟨t.set first (.branch sub'), by rw [hinsert]; rfl, ?_, set_ne_nil⟩
    exact hpop.set ⟨hne', hpop'⟩

end Maps

end Tree

/-! ## Subtrees -/

mutual

/-- The trees of a node in post-order. -/
def Node.subtrees : Node κ α → List (Tree κ α)
  | .leaf _ => []
  | .branch tree => tree.subtrees ++ [tree]

/-- The trees strictly below the root, in post-order. -/
def Tree.subtrees : Tree κ α → List (Tree κ α)
  | .nil => []
  | .cons _ node rest => node.subtrees ++ rest.subtrees

end

/-- The trees of a tree in post-order, its root last. -/
def Tree.post_order (t : Tree κ α) : List (Tree κ α) := t.subtrees ++ [t]

namespace Tree

variable {t s : Tree κ α}

theorem mem_post_order : s ∈ t.post_order ↔ s ∈ t.subtrees ∨ s = t := by
  simp [post_order]

/-- A subtree is the tree under a key, or below it, or in the rest of the keys. -/
theorem subtree_induction {P : Tree κ α → Tree κ α → Prop}
    (here : ∀ key s rest, P (cons key (.branch s) rest) s)
    (below : ∀ key sub rest s, s ∈ sub.subtrees → P sub s → P (cons key (.branch sub) rest) s)
    (next : ∀ key node rest s, s ∈ rest.subtrees → P rest s → P (cons key node rest) s) :
    ∀ {t s : Tree κ α}, s ∈ t.subtrees → P t s := by
  intro t s h
  induction t using tree_induction with
  | nil => simp [subtrees] at h
  | leaf key value rest ih => exact next _ _ _ _ h (ih h)
  | branch key sub rest ihsub ihrest =>
    simp only [subtrees, Node.subtrees, mem_append, mem_singleton] at h
    rcases h with (h | rfl) | h
    · exact below _ _ _ _ h (ihsub h)
    · exact here _ _ _
    · exact next _ _ _ _ h (ihrest h)

theorem sizeOf_lt_of_mem_subtrees (h : s ∈ t.subtrees) : sizeOf s < sizeOf t := by
  refine subtree_induction (P := fun t s => sizeOf s < sizeOf t) ?_ ?_ ?_ h
  · intro key s rest
    simp only [cons.sizeOf_spec, Node.branch.sizeOf_spec]
    omega
  · intro key sub rest s _ ih
    simp only [cons.sizeOf_spec, Node.branch.sizeOf_spec]
    omega
  · intro key node rest s _ ih
    simp only [cons.sizeOf_spec]
    omega

theorem subtrees_subset (h : s ∈ t.subtrees) : s.subtrees ⊆ t.subtrees := by
  refine subtree_induction (P := fun t s => s.subtrees ⊆ t.subtrees) ?_ ?_ ?_ h
  · intro key s rest u hu
    exact mem_append_left _ (mem_append_left _ hu)
  · intro key sub rest s _ ih u hu
    exact mem_append_left _ (mem_append_left _ (ih hu))
  · intro key node rest s _ ih u hu
    exact mem_append_right _ (ih hu)

theorem post_order_subset (h : s ∈ t.post_order) : s.post_order ⊆ t.post_order := by
  intro u hu
  rcases mem_post_order.mp h with h | rfl
  · rcases mem_post_order.mp hu with hu | rfl
    · exact mem_post_order.mpr (.inl (subtrees_subset h hu))
    · exact mem_post_order.mpr (.inl h)
  · exact hu

theorem Ordered.subtree [LT κ] (ht : t.Ordered) (h : s ∈ t.post_order) : s.Ordered := by
  rcases mem_post_order.mp h with h | rfl
  · refine subtree_induction (P := fun t s => t.Ordered → s.Ordered) ?_ ?_ ?_ h ht
    · exact fun _ _ _ ht => ht.1
    · exact fun _ _ _ _ _ ih ht => ih ht.1
    · exact fun _ _ _ _ _ ih ht => ih ht.2.2
  · exact ht

theorem Populated.subtree (ht : t.Populated) (h : s ∈ t.post_order) : s.Populated := by
  rcases mem_post_order.mp h with h | rfl
  · refine subtree_induction (P := fun t s => t.Populated → s.Populated) ?_ ?_ ?_ h ht
    · exact fun _ _ _ ht => ht.1.2
    · exact fun _ _ _ _ _ ih ht => ih ht.1.2
    · exact fun _ _ _ _ _ ih ht => ih ht.2
  · exact ht

/-- The leaves of a subtree are leaves of the tree, under the path that leads there. -/
theorem exists_path_of_mem_post_order (h : s ∈ t.post_order) :
    ∃ path, ∀ f ∈ s.leaves, (path ++ f.1, f.2) ∈ t.leaves := by
  rcases mem_post_order.mp h with h | rfl
  · refine subtree_induction
      (P := fun t s => ∃ path, ∀ f ∈ s.leaves, (path ++ f.1, f.2) ∈ t.leaves) ?_ ?_ ?_ h
    · intro key s rest
      exact ⟨[key], fun f hf => mem_append_left _ (List.mem_map.mpr ⟨f, hf, rfl⟩)⟩
    · intro key sub rest s _ ⟨path, hpath⟩
      refine ⟨key :: path, fun f hf => mem_append_left _ ?_⟩
      exact List.mem_map.mpr ⟨_, hpath f hf, rfl⟩
    · intro key node rest s _ ⟨path, hpath⟩
      exact ⟨path, fun f hf => mem_append_right _ (hpath f hf)⟩
  · exact ⟨[], fun f hf => hf⟩

theorem length_leaves_le (h : s ∈ t.post_order) : s.leaves.length ≤ t.leaves.length := by
  rcases mem_post_order.mp h with h | rfl
  · refine subtree_induction (P := fun t s => s.leaves.length ≤ t.leaves.length) ?_ ?_ ?_ h
    · intro key s rest
      simp only [leaves, Node.leaves, length_append, length_map]
      omega
    · intro key sub rest s _ ih
      simp only [leaves, Node.leaves, length_append, length_map]
      omega
    · intro key node rest s _ ih
      simp only [leaves, length_append]
      omega
  · exact le_rfl

theorem mem_subtrees_of_get [LinearOrder κ] {t sub s : Tree κ α}
    (hget : t.get key = some (.branch sub)) (hs : s ∈ sub.post_order) : s ∈ t.subtrees := by
  induction t with
  | nil => simp [get] at hget
  | cons k node rest ih =>
    simp only [subtrees, mem_append]
    by_cases hk : key = k
    · rw [get, if_pos hk] at hget
      obtain rfl := Option.some.inj hget
      exact .inl hs
    · rw [get, if_neg hk] at hget
      exact .inr (ih hget)

/-- Two leaves that share the path `path` go on, below it, in one subtree. -/
theorem exists_common_subtree [LinearOrder κ] (ht : t.Ordered)
    {x y : κ} {a b : List κ} {f g : α} (hx : (path ++ x :: a, f) ∈ t.leaves)
    (hy : (path ++ y :: b, g) ∈ t.leaves) : ∃ s ∈ t.post_order, x ∈ s.keys ∧ y ∈ s.keys := by
  induction path generalizing t with
  | nil =>
    refine ⟨t, mem_post_order.mpr (.inr rfl), ?_, ?_⟩
    · obtain ⟨key, hkey, rest, heq⟩ := head_mem_keys hx
      exact (List.cons.inj heq).1 ▸ hkey
    · obtain ⟨key, hkey, rest, heq⟩ := head_mem_keys hy
      exact (List.cons.inj heq).1 ▸ hkey
  | cons key path ih =>
    -- both leaves are below the node of the first key, which is a tree
    obtain ⟨n, e, hget, g₁, hg₁, heq₁⟩ := (mem_leaves_iff ht).mp hx
    simp only [under, cons_append, Prod.mk.injEq, List.cons.injEq] at heq₁
    obtain ⟨⟨rfl, hpath₁⟩, hdata₁⟩ := heq₁
    obtain ⟨g₂, hg₂, heq₂⟩ := (mem_leaves_head_iff ht hget _).mp ⟨hy, rfl⟩
    simp only [under, cons_append, Prod.mk.injEq, List.cons.injEq, true_and] at heq₂
    obtain ⟨hpath₂, hdata₂⟩ := heq₂
    have hf₁ : (path ++ x :: a, f) ∈ e.leaves := by rw [hpath₁, hdata₁]; exact hg₁
    have hf₂ : (path ++ y :: b, g) ∈ e.leaves := by rw [hpath₂, hdata₂]; exact hg₂
    cases e with
    | leaf value => simp [Node.leaves] at hf₁
    | branch sub =>
      obtain ⟨s, hs, hkeys⟩ := ih (ht.get hget) hf₁ hf₂
      exact ⟨s, mem_post_order.mpr (.inl (mem_subtrees_of_get hget hs)), hkeys⟩

/-- In the list, every tree comes after its subtrees. -/
def ChildFirst (trees : List (Tree κ α)) : Prop :=
  ∀ before t after, trees = before ++ t :: after → t.subtrees ⊆ before

theorem ChildFirst.append {l₁ l₂ : List (Tree κ α)} (h₁ : ChildFirst l₁) (h₂ : ChildFirst l₂) :
    ChildFirst (l₁ ++ l₂) := by
  intro before t after hsplit
  rcases append_eq_append_iff.mp hsplit with ⟨m, hbefore, htail⟩ | ⟨m, hfront, htail⟩
  · -- the cut is in the second list
    rw [hbefore]
    exact fun u hu => mem_append_right _ (h₂ m t after htail hu)
  · cases m with
    | nil =>
      rw [append_nil] at hfront
      rw [← hfront]
      exact fun u hu => absurd (h₂ [] t after htail.symm hu) not_mem_nil
    | cons e m =>
      simp only [cons_append, List.cons.injEq] at htail
      obtain ⟨rfl, -⟩ := htail
      exact h₁ before t m hfront

theorem ChildFirst.concat (h : ChildFirst t.subtrees) : ChildFirst t.post_order := by
  intro before e after hsplit
  rcases eq_nil_or_concat after with hafter | ⟨front, last, hafter⟩
  · subst hafter
    obtain ⟨hbefore, ht⟩ := append_inj' hsplit rfl
    rw [← hbefore, ← singleton_inj.mp ht]
    exact fun _ hu => hu
  · subst hafter
    rw [concat_eq_append, ← cons_append, ← append_assoc] at hsplit
    obtain ⟨hbefore, -⟩ := append_inj' hsplit rfl
    exact h before e front hbefore

theorem childFirst_subtrees (t : Tree κ α) : ChildFirst t.subtrees := by
  induction t using tree_induction with
  | nil =>
    intro before t after h
    simp [subtrees] at h
  | leaf key value rest ih => exact ih
  | branch key sub rest ihsub ihrest => exact ihsub.concat.append ihrest

theorem childFirst_post_order (t : Tree κ α) : ChildFirst t.post_order :=
  (childFirst_subtrees t).concat

end Tree

/-! ## Renaming keys -/

section Renaming

variable {κ' : Type}

mutual

def Node.map_keys (f : κ → κ') : Node κ α → Node κ' α
  | .leaf value => .leaf value
  | .branch tree => .branch (tree.map_keys f)

def Tree.map_keys (f : κ → κ') : Tree κ α → Tree κ' α
  | .nil => .nil
  | .cons key node rest => .cons (f key) (node.map_keys f) (rest.map_keys f)

end

namespace Tree

variable [LinearOrder κ] [LinearOrder κ'] {f : κ → κ'}

theorem get_map_keys (hf : StrictMono f) (t : Tree κ α) (key : κ) :
    (t.map_keys f).get (f key) = (t.get key).map (Node.map_keys f) := by
  induction t with
  | nil => rfl
  | cons k node rest ih =>
    by_cases hk : key = k
    · simp [map_keys, get, hk]
    · simp [map_keys, get, hk, hf.injective.ne hk, ih]

theorem map_keys_set (hf : StrictMono f) (t : Tree κ α) (key : κ) (node : Node κ α) :
    (t.set key node).map_keys f = (t.map_keys f).set (f key) (node.map_keys f) := by
  induction t with
  | nil => rfl
  | cons k n rest ih =>
    simp only [map_keys, set, hf.lt_iff_lt, hf.injective.eq_iff]
    split
    · rfl
    · split
      · rfl
      · simp only [map_keys, ih]

theorem insert_map_keys {ε' : Type} {errors : InsertErrors ε} {errors' : InsertErrors ε'}
    (hf : StrictMono f) {value : α} {t t' : Tree κ α}
    (h : insert errors value path t = .ok t') :
    insert errors' value (path.map f) (t.map_keys f) = .ok (t'.map_keys f) := by
  fun_induction insert errors value path t generalizing t' with
  | case1 => cases h
  | case2 first t =>
    simp only [ok_iff, isNone_iff_eq_none] at h
    obtain ⟨hnone, rfl⟩ := h
    simp only [map_cons, map_nil, insert, ok_iff, get_map_keys hf, hnone, map_none,
      isNone_none, true_and]
    exact (map_keys_set hf t first (.leaf value)).symm
  | case3 => cases h
  | case4 first second remaining t sub hget ih =>
    simp only [ok_iff] at h
    obtain ⟨sub', hinsert, rfl⟩ := h
    have hsub := ih hinsert
    simp only [map_cons] at hsub
    simp only [map_cons, insert, get_map_keys hf, hget, map_some, Node.map_keys, ok_iff]
    exact ⟨_, hsub, (map_keys_set hf t first (.branch sub')).symm⟩
  | case5 first second remaining t hget ih =>
    simp only [ok_iff] at h
    obtain ⟨sub', hinsert, rfl⟩ := h
    have hsub := ih hinsert
    simp only [map_cons] at hsub
    simp only [map_cons, insert, get_map_keys hf, hget, map_none, ok_iff]
    exact ⟨_, hsub, (map_keys_set hf t first (.branch sub')).symm⟩

end Tree

end Renaming

/-! ## Nodes at paths -/

section Paths

variable [LinearOrder κ]

/-- What stands at a path below the node. -/
def Node.find : List κ → Node κ α → Option (Node κ α)
  | [], node => some node
  | key :: path, .branch tree => (tree.get key).bind (Node.find path)
  | _ :: _, .leaf _ => none

/-- The tree with what stands under a key replaced, or taken away. -/
def Tree.put (key : κ) (node : Option (Node κ α)) : Tree κ α → Tree κ α
  | .nil => .nil
  | .cons k n rest =>
    if key = k then
      match node with
      | some node => .cons k node rest
      | none => rest
    else .cons k n (rest.put key node)

/-- The node with what stands at a path replaced, or taken away. -/
def Node.replace : List κ → Option (Node κ α) → Node κ α → Option (Node κ α)
  | [], replacement, _ => replacement
  | key :: path, replacement, .branch tree =>
    match tree.get key with
    | some node => some (.branch (tree.put key (node.replace path replacement)))
    | none => some (.branch tree)
  | _ :: _, _, .leaf value => some (.leaf value)

namespace Tree

theorem get_put_self {t : Tree κ α} {old new : Node κ α} (h : t.get key = some old) :
    (t.put key (some new)).get key = some new := by
  induction t with
  | nil => cases h
  | cons k node rest ih =>
    by_cases hk : key = k
    · simp [put, get, hk]
    · rw [get, if_neg hk] at h
      simp [put, get, hk, ih h]

theorem put_put {t : Tree κ α} {new : Node κ α} {last : Option (Node κ α)} :
    (t.put key (some new)).put key last = t.put key last := by
  induction t with
  | nil => rfl
  | cons k node rest ih =>
    by_cases hk : key = k
    · simp [put, hk]
    · simp [put, hk, ih]

theorem leaves_put {t : Tree κ α} {old : Node κ α} {new : Option (Node κ α)}
    (h : t.get key = some old) (hnew : ∀ node, new = some node → node.leaves ⊆ old.leaves) :
    (t.put key new).leaves ⊆ t.leaves := by
  induction t with
  | nil => cases h
  | cons k node rest ih =>
    by_cases hk : key = k
    · rw [get, if_pos hk] at h
      obtain rfl := Option.some.inj h
      cases new with
      | none =>
        simp only [put, hk, if_true, leaves]
        exact subset_append_right _ _
      | some new =>
        simp only [put, hk, if_true, leaves]
        have hfirst := map_subset (under k) (hnew new rfl)
        exact append_subset.mpr
          ⟨List.Subset.trans hfirst (subset_append_left _ _), subset_append_right _ _⟩
    · rw [get, if_neg hk] at h
      simp only [put, hk, if_false, leaves]
      exact append_subset.mpr
        ⟨subset_append_left _ _, List.Subset.trans (ih h) (subset_append_right _ _)⟩

end Tree

namespace Node

theorem find_append {node : Node κ α} {path rest : List κ} :
    node.find (path ++ rest) = (node.find path).bind (Node.find rest) := by
  induction path generalizing node with
  | nil => rfl
  | cons key path ih =>
    cases node with
    | leaf value => rfl
    | branch tree =>
      simp only [cons_append, find]
      cases tree.get key with
      | none => rfl
      | some next => exact ih

variable {replacement : Option (Node κ α)} {node target : Node κ α}

theorem exists_of_find_cons {node target : Node κ α} (h : node.find (key :: path) = some target) :
    ∃ tree next, node = .branch tree ∧ tree.get key = some next ∧ next.find path = some target := by
  cases node with
  | leaf value => cases h
  | branch tree =>
    simp only [find] at h
    cases hget : tree.get key with
    | none =>
      rw [hget] at h
      cases h
    | some next =>
      rw [hget] at h
      exact ⟨tree, next, rfl, hget, h⟩

theorem replace_append {path rest : List κ} (h : node.find path = some target) :
    node.replace (path ++ rest) replacement =
      node.replace path (target.replace rest replacement) := by
  induction path generalizing node with
  | nil => rw [← Option.some.inj h]; rfl
  | cons key path ih =>
    obtain ⟨tree, next, rfl, hget, h⟩ := exists_of_find_cons h
    simp only [cons_append, replace, hget, ih h]

/-- A replacement stands at its path, and can be replaced again. -/
theorem exists_replace (new : Node κ α) (h : node.find path = some target) :
    ∃ node', node.replace path (some new) = some node' ∧ node'.find path = some new ∧
      ∀ last, node'.replace path last = node.replace path last := by
  induction path generalizing node with
  | nil => exact ⟨new, rfl, rfl, fun _ => rfl⟩
  | cons key path ih =>
    obtain ⟨tree, next, rfl, hget, h⟩ := exists_of_find_cons h
    obtain ⟨next', hreplace, hfind, hlast⟩ := ih h
    refine ⟨.branch (tree.put key (some next')), ?_, ?_, ?_⟩
    · simp only [replace, hget, hreplace]
    · simp only [find, Tree.get_put_self hget]
      exact hfind
    · intro last
      simp only [replace, Tree.get_put_self hget, hget, hlast, Tree.put_put]

theorem leaves_replace {node target node' : Node κ α} (h : node.find path = some target)
    (hnew : ∀ new, replacement = some new → new.leaves ⊆ target.leaves)
    (hreplace : node.replace path replacement = some node') : node'.leaves ⊆ node.leaves := by
  induction path generalizing node node' with
  | nil =>
    obtain rfl := Option.some.inj h
    exact hnew node' hreplace
  | cons key path ih =>
    obtain ⟨tree, next, rfl, hget, h⟩ := exists_of_find_cons h
    simp only [replace, hget, Option.some.injEq] at hreplace
    rw [← hreplace]
    exact Tree.leaves_put hget fun new hnext => ih h hnext

theorem replace_first {node entry : Node κ α} {rest : Tree κ α}
    (h : node.find path = some (.branch (.cons key entry rest))) :
    node.find (path ++ [key]) = some entry ∧
      node.replace (path ++ [key]) none = node.replace path (some (.branch rest)) := by
  constructor
  · rw [find_append, h]
    simp [find, Tree.get]
  · rw [replace_append h]
    simp [replace, Tree.get, Tree.put]

end Node

end Paths

end Trees
