import Mathlib.Data.List.Nodup
import Mathlib.Data.Set.Function
import MerkleStore.Node

/-!
# Trees

The tree a root stands for, apart from how its nodes are stored: leaves with a key
and a value, joined in pairs. A subtree is reached from the top by a path of forks,
the branches on the way with the subtree left out (`plug`), and every write is a
change of such a path:

* an insertion puts one more fork under the path of the reference,
* a deletion plugs the sibling of the leaf into the rest of the path.

Everything below a top is listed in the order of a walk (`subtrees`). Two trees of
nodes without a collision have the same hash only if they are equal (`eq_of_hash`),
and in a tree that has every key once no two branches share a child
(`eq_of_mem_children`).
-/

namespace MerkleStore

/-- Keys with their values, joined in pairs. -/
inductive Tree
  | leaf (key value : Bytes)
  | branch (left right : Tree)
deriving DecidableEq

namespace Tree

/-- The hash at the top. -/
def hash : Tree → Hash
  | leaf key value => .terminal key value
  | branch l r => .internal l.hash r.hash

/-- The node at the top. -/
def node : Tree → Node
  | leaf key value => .terminal (.ofPair key value)
  | branch l r => .internal (.ofPair l.hash r.hash)

/-- The trees right below the top. -/
def children : Tree → List Tree
  | leaf _ _ => []
  | branch l r => [l, r]

/-- The tree and everything below it, left before right. -/
def subtrees : Tree → List Tree
  | leaf key value => [leaf key value]
  | branch l r => branch l r :: (l.subtrees ++ r.subtrees)

/-- The leaves from left to right. -/
def leaves : Tree → List Terminal
  | leaf key value => [.ofPair key value]
  | branch l r => l.leaves ++ r.leaves

/-- The keys from left to right. -/
def keys (t : Tree) : List Bytes := t.leaves.map Terminal.key

/-- No key occurs twice. -/
def Distinct (t : Tree) : Prop := t.keys.Nodup

/-- The number of nodes on the longest way down. -/
def height : Tree → Nat
  | leaf _ _ => 1
  | branch l r => max l.height r.height + 1

/-- All nodes of the tree are in a set. -/
def MadeOf (U : Set Node) (t : Tree) : Prop := ∀ s ∈ t.subtrees, s.node ∈ U

@[simp] theorem hash_node (t : Tree) : t.node.hash = t.hash := by cases t <;> rfl

@[simp] theorem contentHash_node (t : Tree) : t.node.contentHash = t.hash := by
  cases t <;> rfl

@[simp] theorem keys_leaf (key value : Bytes) : (leaf key value).keys = [key] := rfl

@[simp] theorem keys_branch (l r : Tree) : (branch l r).keys = l.keys ++ r.keys := by
  simp [keys, leaves]

/-! ## Subtrees -/

@[simp] theorem self_mem_subtrees (t : Tree) : t ∈ t.subtrees := by cases t <;> simp [subtrees]

theorem mem_subtrees_trans {a b c : Tree} (hab : a ∈ b.subtrees) (hbc : b ∈ c.subtrees) :
    a ∈ c.subtrees := by
  induction c with
  | leaf key value =>
      simp only [subtrees, List.mem_singleton] at hbc
      subst hbc
      exact hab
  | branch l r ihl ihr =>
      simp only [subtrees, List.mem_cons, List.mem_append] at hbc ⊢
      rcases hbc with rfl | hbc | hbc
      · simpa [subtrees] using hab
      · exact .inr (.inl (ihl hbc))
      · exact .inr (.inr (ihr hbc))

theorem mem_subtrees_of_mem_children {a t : Tree} (h : a ∈ t.children) : a ∈ t.subtrees := by
  cases t with
  | leaf key value => simp [children] at h
  | branch l r =>
      simp only [children, List.mem_cons, List.not_mem_nil, or_false] at h
      rcases h with rfl | rfl <;> simp [subtrees]

theorem leaves_ne_nil (t : Tree) : t.leaves ≠ [] := by
  induction t with
  | leaf key value => simp [leaves]
  | branch l r ihl ihr => simp [leaves, ihl]

theorem leaves_sublist {s t : Tree} (h : s ∈ t.subtrees) : s.leaves.Sublist t.leaves := by
  induction t with
  | leaf key value =>
      simp only [subtrees, List.mem_singleton] at h
      subst h
      exact .refl _
  | branch l r ihl ihr =>
      simp only [subtrees, List.mem_cons, List.mem_append] at h
      rcases h with rfl | h | h
      · exact .refl _
      · exact (ihl h).trans (List.sublist_append_left _ _)
      · exact (ihr h).trans (List.sublist_append_right _ _)

theorem Distinct.of_mem {s t : Tree} (ht : t.Distinct) (h : s ∈ t.subtrees) : s.Distinct :=
  ht.sublist ((leaves_sublist h).map _)

theorem length_subtrees_le {s t : Tree} (h : s ∈ t.subtrees) :
    s.subtrees.length ≤ t.subtrees.length := by
  induction t with
  | leaf key value =>
      simp only [subtrees, List.mem_singleton] at h
      subst h
      exact Nat.le_refl _
  | branch l r ihl ihr =>
      simp only [subtrees, List.mem_cons, List.mem_append] at h
      rcases h with rfl | h | h
      · exact Nat.le_refl _
      · have := ihl h
        simp only [subtrees, List.length_cons, List.length_append]
        omega
      · have := ihr h
        simp only [subtrees, List.length_cons, List.length_append]
        omega

theorem length_subtrees_lt {c t : Tree} (h : c ∈ t.children) :
    c.subtrees.length < t.subtrees.length := by
  cases t with
  | leaf key value => simp [children] at h
  | branch l r =>
      simp only [children, List.mem_cons, List.not_mem_nil, or_false] at h
      rcases h with rfl | rfl <;> simp only [subtrees, List.length_cons, List.length_append] <;>
        omega

/-- Two trees side by side in a tree of distinct keys share nothing. -/
theorem Distinct.not_mem_right {l r s : Tree} (h : (branch l r).Distinct)
    (hl : s ∈ l.subtrees) : s ∉ r.subtrees := by
  intro hr
  rw [Distinct, keys_branch, List.nodup_append] at h
  obtain ⟨n, hn⟩ := List.exists_mem_of_ne_nil _ s.leaves_ne_nil
  have hleft : n.key ∈ l.keys := List.mem_map_of_mem ((leaves_sublist hl).subset hn)
  have hright : n.key ∈ r.keys := List.mem_map_of_mem ((leaves_sublist hr).subset hn)
  exact h.2.2 _ hleft _ hright rfl

/-- In a tree of distinct keys every subtree has one parent. -/
theorem eq_of_mem_children {t a b c : Tree} (ht : t.Distinct) (ha : a ∈ t.subtrees)
    (hb : b ∈ t.subtrees) (hca : c ∈ a.children) (hcb : c ∈ b.children) : a = b := by
  induction t with
  | leaf key value =>
      simp only [subtrees, List.mem_singleton] at ha hb
      rw [ha, hb]
  | branch l r ihl ihr =>
      -- a child of the top is no child of anything further down
      have top {d : Tree} (hd : d ∈ l.subtrees ∨ d ∈ r.subtrees) (hc : c ∈ (branch l r).children)
          (hcd : c ∈ d.children) : False := by
        have hlt := length_subtrees_lt hcd
        have hsub := mem_subtrees_of_mem_children hcd
        simp only [children, List.mem_cons, List.not_mem_nil, or_false] at hc
        rcases hc with rfl | rfl <;> rcases hd with hd | hd
        · exact absurd (length_subtrees_le hd) (by omega)
        · exact ht.not_mem_right (self_mem_subtrees c) (mem_subtrees_trans hsub hd)
        · exact ht.not_mem_right (mem_subtrees_trans hsub hd) (self_mem_subtrees c)
        · exact absurd (length_subtrees_le hd) (by omega)
      have hl : l.Distinct := ht.of_mem (by simp [subtrees])
      have hr : r.Distinct := ht.of_mem (by simp [subtrees])
      have hac := mem_subtrees_of_mem_children hca
      have hbc := mem_subtrees_of_mem_children hcb
      simp only [subtrees, List.mem_cons, List.mem_append] at ha hb
      rcases ha with rfl | ha | ha <;> rcases hb with rfl | hb | hb
      · rfl
      · exact (top (.inl hb) hca hcb).elim
      · exact (top (.inr hb) hca hcb).elim
      · exact (top (.inl ha) hcb hca).elim
      · exact ihl hl ha hb
      · exact (ht.not_mem_right (mem_subtrees_trans hac ha) (mem_subtrees_trans hbc hb)).elim
      · exact (top (.inr ha) hcb hca).elim
      · exact (ht.not_mem_right (mem_subtrees_trans hbc hb) (mem_subtrees_trans hac ha)).elim
      · exact ihr hr ha hb

/-! ## Trees of a set of nodes -/

theorem MadeOf.mono {U V : Set Node} {t : Tree} (h : t.MadeOf U) (hUV : U ⊆ V) : t.MadeOf V :=
  fun s hs => hUV (h s hs)

theorem MadeOf.of_mem {U : Set Node} {s t : Tree} (ht : t.MadeOf U) (h : s ∈ t.subtrees) :
    s.MadeOf U :=
  fun _ ha => ht _ (mem_subtrees_trans ha h)

theorem MadeOf.left {U : Set Node} {l r : Tree} (h : (branch l r).MadeOf U) : l.MadeOf U :=
  h.of_mem (by simp [subtrees])

theorem MadeOf.right {U : Set Node} {l r : Tree} (h : (branch l r).MadeOf U) : r.MadeOf U :=
  h.of_mem (by simp [subtrees])

/-- Among nodes that have hashes of their own the hash at the top is the whole tree. -/
theorem eq_of_hash {U : Set Node} (hU : Set.InjOn Node.hash U) {a b : Tree}
    (ha : a.MadeOf U) (hb : b.MadeOf U) (h : a.hash = b.hash) : a = b := by
  -- one hash at the top means one node there, which has the hashes of both children
  have hnode {a b : Tree} (ha : a.MadeOf U) (hb : b.MadeOf U) (h : a.hash = b.hash) :
      a.node = b.node :=
    hU (ha a a.self_mem_subtrees) (hb b b.self_mem_subtrees) (by simpa using h)
  induction a generalizing b with
  | leaf key value =>
      have heq := hnode ha hb h
      cases b with
      | leaf key' value' =>
          simp only [node, Node.terminal.injEq, Terminal.ofPair, Terminal.mk.injEq] at heq
          rw [heq.2.1, heq.2.2]
      | branch l r => simp [node] at heq
  | branch l r ihl ihr =>
      have heq := hnode ha hb h
      cases b with
      | leaf key value => simp [node] at heq
      | branch l' r' =>
          simp only [node, Node.internal.injEq, Internal.ofPair, Internal.mk.injEq] at heq
          rw [ihl ha.left hb.left heq.2.1, ihr ha.right hb.right heq.2.2]

/-! ## Paths -/

/-- A branch with one of its subtrees left out: the other one and its side. -/
structure Fork where
  sibling : Tree
  side : Side
deriving DecidableEq

/-- The branch with a tree in the place that was left out. -/
def Fork.fill (f : Fork) (t : Tree) : Tree :=
  match f.side with
  | .left => branch f.sibling t
  | .right => branch t f.sibling

/-- The tree in which `t` is reached by a path of forks, the lowest first. -/
def plug (t : Tree) : List Fork → Tree
  | [] => t
  | f :: path => plug (f.fill t) path

/-- The trees above `t` on its path, the lowest first. -/
def above (t : Tree) : List Fork → List Tree
  | [] => []
  | f :: path => f.fill t :: above (f.fill t) path

/-- The leaves to the left of a path. -/
def before : List Fork → List Terminal
  | [] => []
  | f :: path => before path ++ if f.side = .left then f.sibling.leaves else []

/-- The leaves to the right of a path. -/
def after : List Fork → List Terminal
  | [] => []
  | f :: path => (if f.side = .right then f.sibling.leaves else []) ++ after path

theorem children_fill (f : Fork) (t a : Tree) :
    a ∈ (f.fill t).children ↔ a = t ∨ a = f.sibling := by
  obtain ⟨s, side⟩ := f
  cases side <;> simp [Fork.fill, children, or_comm]

theorem mem_subtrees_fill {f : Fork} {t a : Tree} :
    a ∈ (f.fill t).subtrees ↔ a = f.fill t ∨ a ∈ t.subtrees ∨ a ∈ f.sibling.subtrees := by
  obtain ⟨s, side⟩ := f
  cases side <;> simp [Fork.fill, subtrees, or_comm]

theorem leaves_fill (f : Fork) (t : Tree) :
    (f.fill t).leaves = (if f.side = .left then f.sibling.leaves else []) ++ t.leaves ++
      (if f.side = .right then f.sibling.leaves else []) := by
  obtain ⟨s, side⟩ := f
  cases side <;> simp [Fork.fill, leaves]

theorem plug_append (t : Tree) (p q : List Fork) : plug t (p ++ q) = plug (plug t p) q := by
  induction p generalizing t with
  | nil => rfl
  | cons f p ih => exact ih (f.fill t)

/-- A tree read along a path: what is to the left of it, at its end and to the right. -/
theorem leaves_plug (t : Tree) (path : List Fork) :
    (plug t path).leaves = before path ++ t.leaves ++ after path := by
  induction path generalizing t with
  | nil => simp [plug, before, after]
  | cons f path ih => simp [plug, before, after, ih, leaves_fill]

theorem mem_subtrees_plug {t a : Tree} {path : List Fork} :
    a ∈ (plug t path).subtrees ↔
      a ∈ t.subtrees ∨ a ∈ above t path ∨ ∃ f ∈ path, a ∈ f.sibling.subtrees := by
  induction path generalizing t with
  | nil => simp [plug, above]
  | cons f path ih =>
      simp only [plug, ih, mem_subtrees_fill, above, List.mem_cons, exists_eq_or_imp]
      grind

theorem mem_subtrees_plug_self (t : Tree) (path : List Fork) : t ∈ (plug t path).subtrees :=
  mem_subtrees_plug.mpr (.inl t.self_mem_subtrees)

theorem length_subtrees_lt_plug (t : Tree) (f : Fork) (path : List Fork) :
    t.subtrees.length < (plug t (f :: path)).subtrees.length :=
  Nat.lt_of_lt_of_le (length_subtrees_lt ((children_fill f t t).mpr (.inl rfl)))
    (length_subtrees_le (mem_subtrees_plug_self (f.fill t) path))

theorem Distinct.fill_inj {f g : Fork} {t : Tree} (hd : (f.fill t).Distinct)
    (h : f.fill t = g.fill t) : f = g := by
  obtain ⟨s, side⟩ := f
  obtain ⟨s', side'⟩ := g
  cases side <;> cases side' <;> simp only [Fork.fill, branch.injEq] at h
  · rw [h.1]
  · exact (hd.not_mem_right (s := t) (by simp [h.1]) t.self_mem_subtrees).elim
  · exact (hd.not_mem_right (s := t) t.self_mem_subtrees (by simp [h.2])).elim
  · rw [h.2]

/-- In a tree of distinct keys every subtree has one path. -/
theorem Distinct.path_unique {t : Tree} {p q : List Fork} (hd : (plug t p).Distinct)
    (h : plug t p = plug t q) : p = q := by
  induction p generalizing t q with
  | nil =>
      cases q with
      | nil => rfl
      | cons g q =>
          have hlt := length_subtrees_lt_plug t g q
          rw [← h] at hlt
          simp [plug] at hlt
  | cons f p ih =>
      cases q with
      | nil =>
          have hlt := length_subtrees_lt_plug t f p
          rw [h] at hlt
          simp [plug] at hlt
      | cons g q =>
          -- both paths begin with a parent of the subtree, and it has only one
          have hf : f.fill t ∈ (plug t (f :: p)).subtrees := mem_subtrees_plug_self (f.fill t) p
          have hg : g.fill t ∈ (plug t (f :: p)).subtrees :=
            h ▸ mem_subtrees_plug_self (g.fill t) q
          have hfill : f.fill t = g.fill t := eq_of_mem_children hd hf hg
            ((children_fill f t t).mpr (.inl rfl)) ((children_fill g t t).mpr (.inl rfl))
          obtain rfl := (hd.of_mem hf).fill_inj hfill
          rw [ih hd h]

/-! ## Searching -/

/-- The subtree with a hash, and its path. -/
def find? (h : Hash) (t : Tree) : Option (Tree × List Fork) :=
  if t.hash = h then some (t, [])
  else
    match t with
    | leaf _ _ => none
    | branch l r =>
        match l.find? h with
        | some (s, path) => some (s, path ++ [⟨r, .right⟩])
        | none => (r.find? h).map fun (s, path) => (s, path ++ [⟨l, .left⟩])

/-- The value of a key, and the path of its leaf. -/
def findKey? (key : Bytes) : Tree → Option (Bytes × List Fork)
  | leaf k value => if k = key then some (value, []) else none
  | branch l r =>
      match l.findKey? key with
      | some (value, path) => some (value, path ++ [⟨r, .right⟩])
      | none => (r.findKey? key).map fun (value, path) => (value, path ++ [⟨l, .left⟩])

theorem plug_of_find? {h : Hash} {t s : Tree} {path : List Fork}
    (hf : t.find? h = some (s, path)) : plug s path = t ∧ s.hash = h := by
  induction t generalizing s path with
  | leaf key value =>
      rw [find?] at hf
      split at hf
      · cases hf
        exact ⟨rfl, ‹_›⟩
      · cases hf
  | branch l r ihl ihr =>
      rw [find?] at hf
      split at hf
      · cases hf
        exact ⟨rfl, ‹_›⟩
      · cases hl : l.find? h with
        | some found =>
            obtain ⟨s', path'⟩ := found
            simp only [hl, Option.some.injEq, Prod.mk.injEq] at hf
            obtain ⟨rfl, rfl⟩ := hf
            obtain ⟨hplug, hhash⟩ := ihl hl
            exact ⟨by rw [plug_append, hplug]; rfl, hhash⟩
        | none =>
            simp only [hl, Option.map_eq_some_iff, Prod.exists, Prod.mk.injEq] at hf
            obtain ⟨s', path', hr, rfl, rfl⟩ := hf
            obtain ⟨hplug, hhash⟩ := ihr hr
            exact ⟨by rw [plug_append, hplug]; rfl, hhash⟩

theorem hash_ne_of_find?_eq_none {h : Hash} {t s : Tree} (hf : t.find? h = none)
    (hs : s ∈ t.subtrees) : s.hash ≠ h := by
  induction t with
  | leaf key value =>
      simp only [subtrees, List.mem_singleton] at hs
      subst hs
      intro hhash
      simp [find?, hhash] at hf
  | branch l r ihl ihr =>
      rw [find?] at hf
      split at hf
      · cases hf
      · next hne =>
          cases hl : l.find? h with
          | some found => simp [hl] at hf
          | none =>
              simp only [hl, Option.map_eq_none_iff] at hf
              simp only [subtrees, List.mem_cons, List.mem_append] at hs
              rcases hs with rfl | hs | hs
              · exact hne
              · exact ihl hl hs
              · exact ihr hf hs

theorem plug_of_findKey? {key value : Bytes} {t : Tree} {path : List Fork}
    (hf : t.findKey? key = some (value, path)) : plug (leaf key value) path = t := by
  induction t generalizing path with
  | leaf k v =>
      rw [findKey?] at hf
      split at hf
      · cases hf
        simp [plug, ‹k = key›]
      · cases hf
  | branch l r ihl ihr =>
      rw [findKey?] at hf
      cases hl : l.findKey? key with
      | some found =>
          obtain ⟨value', path'⟩ := found
          simp only [hl, Option.some.injEq, Prod.mk.injEq] at hf
          obtain ⟨rfl, rfl⟩ := hf
          rw [plug_append, ihl hl]
          rfl
      | none =>
          simp only [hl, Option.map_eq_some_iff, Prod.exists, Prod.mk.injEq] at hf
          obtain ⟨value', path', hr, rfl, rfl⟩ := hf
          rw [plug_append, ihr hr]
          rfl

theorem findKey?_eq_none_iff {key : Bytes} {t : Tree} : t.findKey? key = none ↔ key ∉ t.keys := by
  induction t with
  | leaf k v => simp [findKey?, eq_comm]
  | branch l r ihl ihr =>
      rw [findKey?, keys_branch, List.mem_append, not_or, ← ihl, ← ihr]
      cases l.findKey? key <;> simp

/-- A search finds a subtree where it is. -/
theorem find?_plug {U : Set Node} (hU : Set.InjOn Node.hash U) {t : Tree} {path : List Fork}
    (hm : (plug t path).MadeOf U) (hd : (plug t path).Distinct) :
    (plug t path).find? t.hash = some (t, path) := by
  cases hf : (plug t path).find? t.hash with
  | none => exact absurd rfl (hash_ne_of_find?_eq_none hf (mem_subtrees_plug_self t path))
  | some found =>
      obtain ⟨s, p⟩ := found
      obtain ⟨hplug, hhash⟩ := plug_of_find? hf
      -- what is found has the hash of the subtree, so it is the subtree, at its one place
      have hs : s ∈ (plug t path).subtrees := hplug ▸ mem_subtrees_plug_self s p
      obtain rfl := eq_of_hash hU (hm.of_mem hs) (hm.of_mem (mem_subtrees_plug_self t path)) hhash
      rw [hd.path_unique hplug.symm]

theorem findKey?_plug {key value : Bytes} {path : List Fork}
    (hd : (plug (leaf key value) path).Distinct) :
    (plug (leaf key value) path).findKey? key = some (value, path) := by
  have mem {v : Bytes} {p : List Fork} (hplug : plug (leaf key v) p = plug (leaf key value) path) :
      Terminal.ofPair key v ∈ (plug (leaf key value) path).leaves :=
    hplug ▸ (leaves_sublist (mem_subtrees_plug_self (leaf key v) p)).subset List.mem_cons_self
  cases hf : (plug (leaf key value) path).findKey? key with
  | none => exact absurd (List.mem_map_of_mem (mem rfl)) (findKey?_eq_none_iff.mp hf)
  | some found =>
      obtain ⟨v, p⟩ := found
      have hplug := plug_of_findKey? hf
      have heq : Terminal.ofPair key v = Terminal.ofPair key value :=
        List.inj_on_of_nodup_map hd (mem hplug) (mem rfl) rfl
      obtain rfl : v = value := congrArg Terminal.value heq
      rw [hd.path_unique hplug.symm]

/-! ## Height -/

theorem height_fill_le (f : Fork) (t : Tree) : t.height + 1 ≤ (f.fill t).height := by
  obtain ⟨s, side⟩ := f
  cases side <;> simp [Fork.fill, height]

theorem length_above_le (t : Tree) (path : List Fork) :
    (above t path).length + t.height ≤ (plug t path).height := by
  induction path generalizing t with
  | nil => simp [above, plug]
  | cons f path ih =>
      have hfill := height_fill_le f t
      have := ih (f.fill t)
      simp only [above, plug, List.length_cons]
      omega

/-- The subtrees on a longest way down, of which no two are equal. -/
theorem exists_chain (t : Tree) :
    ∃ chain : List Tree, chain.length = t.height ∧ chain.Nodup ∧ ∀ s ∈ chain, s ∈ t.subtrees := by
  induction t with
  | leaf key value => exact ⟨[leaf key value], rfl, by simp, by simp [subtrees]⟩
  | branch l r ihl ihr =>
      -- the whole tree goes in front of a chain of its higher child
      have extend {c : Tree} (hc : c ∈ (branch l r).children)
          (hheight : max l.height r.height = c.height)
          (ih : ∃ chain : List Tree,
            chain.length = c.height ∧ chain.Nodup ∧ ∀ s ∈ chain, s ∈ c.subtrees) :
          ∃ chain : List Tree, chain.length = (branch l r).height ∧ chain.Nodup ∧
            ∀ s ∈ chain, s ∈ (branch l r).subtrees := by
        obtain ⟨chain, hlength, hnodup, hmem⟩ := ih
        refine ⟨branch l r :: chain, ?_, ?_, ?_⟩
        · simp [hlength, height, hheight]
        · refine List.nodup_cons.mpr ⟨fun h => ?_, hnodup⟩
          have hle := length_subtrees_le (hmem _ h)
          have hlt := length_subtrees_lt hc
          omega
        · intro s hs
          rcases List.mem_cons.mp hs with rfl | hs
          · exact self_mem_subtrees _
          · exact mem_subtrees_trans (hmem s hs) (mem_subtrees_of_mem_children hc)
      rcases Nat.le_total r.height l.height with h | h
      · exact extend (by simp [children]) (Nat.max_eq_left h) ihl
      · exact extend (by simp [children]) (Nat.max_eq_right h) ihr

end Tree

end MerkleStore
