import MerkleStore.Proofs.Index
import MerkleStore.State.Path

/-!
# Ancestors

Climbing from a subtree by a table of parents that follows the tree gives the trees
above it (`climb_hash`), and whatever a climb arrives from is a subtree
(`exists_plug_of_climb`), since every step is checked against the stored branch.
Both together say that `ancestry` depends on the latest tree alone
(`ancestry_eq_some_iff`).
-/

namespace MerkleStore

namespace State

open MerkleStore.Tree

variable {s : State} {parents : Std.ExtTreeMap Hash Hash} {t : Tree} {path : List Fork}

theorem hasChild_fill {f : Fork} (ht : (f.fill t).MadeOf s.nodes.stored) :
    s.hasChild (f.fill t).hash t.hash = true := by
  have hnode := NodeMap.getElem?_top ht
  obtain ⟨sibling, side⟩ := f
  cases side <;> simp only [Fork.fill, Tree.node] at hnode <;>
    simp [hasChild, Fork.fill, hnode, Internal.ofPair]

/-- A stored branch with a child is a tree with this child. -/
theorem exists_fill_of_hasChild {h : Hash} (ht : t.MadeOf s.nodes.stored)
    (hc : s.hasChild t.hash h = true) : ∃ (f : Fork) (c : Tree), f.fill c = t ∧ c.hash = h := by
  have hnode := NodeMap.getElem?_top ht
  simp only [hasChild, hnode] at hc
  cases t with
  | leaf key value => simp [Tree.node] at hc
  | branch l r =>
      simp only [Tree.node, Internal.ofPair, Bool.or_eq_true, beq_iff_eq] at hc
      rcases hc with hl | hr
      · exact ⟨⟨r, .right⟩, l, rfl, hl⟩
      · exact ⟨⟨l, .left⟩, r, rfl, hr⟩

theorem hash_ne_plug {f : Fork} (ht : (plug t (f :: path)).MadeOf s.nodes.stored) :
    t.hash ≠ (plug t (f :: path)).hash := by
  intro h
  have hfill : f.fill t ∈ (plug t (f :: path)).subtrees := mem_subtrees_plug_self (f.fill t) path
  have hmem : t ∈ (plug t (f :: path)).subtrees := mem_subtrees_plug_self t (f :: path)
  have heq := NodeMap.eq_of_hash_stored (ht.of_mem hmem) ht h
  have hlt := length_subtrees_lt ((children_fill f t t).mpr (.inl rfl))
  have hle := length_subtrees_le hfill
  rw [← heq] at hle
  omega

/-- Climbing from a subtree gives the hashes of the trees above it. -/
theorem climb_hash {fuel : Nat} (ht : (plug t path).MadeOf s.nodes.stored)
    (hp : (plug t path).Followed parents) (hfuel : (above t path).length ≤ fuel) :
    s.climb parents (plug t path).hash fuel t.hash = some ((above t path).map Tree.hash) := by
  induction path generalizing t fuel with
  | nil => cases fuel <;> simp [climb, plug, above]
  | cons f path ih =>
      have hne := hash_ne_plug ht
      simp only [above, List.length_cons] at hfuel
      obtain ⟨fuel, rfl⟩ : ∃ k, fuel = k + 1 := ⟨fuel - 1, by omega⟩
      have hfill : f.fill t ∈ (plug t (f :: path)).subtrees :=
        mem_subtrees_plug_self (f.fill t) path
      have hparent := hp _ hfill t ((children_fill f t t).mpr (.inl rfl))
      have hchild := hasChild_fill (ht.of_mem hfill)
      have hup := ih (t := f.fill t) ht hp (show (above (f.fill t) path).length ≤ fuel by omega)
      simp only [plug] at hne ⊢
      simp [climb, hne, hparent, hchild, hup, above]

/-- Whatever a climb arrives from is a subtree. -/
theorem exists_plug_of_climb {fuel : Nat} {h : Hash} {ancestors : List Hash}
    (ht : t.MadeOf s.nodes.stored) (hc : s.climb parents t.hash fuel h = some ancestors) :
    ∃ (c : Tree) (path : List Fork), plug c path = t ∧ c.hash = h := by
  have top (hh : h = t.hash) : ∃ (c : Tree) (path : List Fork), plug c path = t ∧ c.hash = h :=
    ⟨t, [], rfl, hh.symm⟩
  induction fuel generalizing h ancestors with
  | zero =>
      simp only [climb] at hc
      split at hc
      · exact top ‹_›
      · cases hc
  | succ fuel ih =>
      simp only [climb] at hc
      split at hc
      · exact top ‹_›
      · split at hc
        · cases hc
        · next parent hparent =>
            split at hc
            · next hchild =>
                -- a stale entry is given up here, since the node it names has no such child
                obtain ⟨rest, hrest, -⟩ := Option.map_eq_some_iff.mp hc
                obtain ⟨p, path, rfl, rfl⟩ := ih hrest fun hh => ⟨t, [], rfl, hh.symm⟩
                obtain ⟨f, c, rfl, rfl⟩ :=
                  exists_fill_of_hasChild (ht.of_mem (mem_subtrees_plug_self p path)) hchild
                exact ⟨c, f :: path, rfl, rfl⟩
            · cases hc

variable {h : History} {target : Hash}

theorem ancestry_of_empty (hroot : h.latest.node = none) : s.ancestry h target = none := by
  rw [ancestry, hroot]

/-- The ancestors of a node are those it has in the latest tree; a node that is not
in it has none. -/
theorem ancestry_eq_some_iff (ht : t.MadeOf s.nodes.stored) (hp : t.Followed h.index.parents)
    (hroot : h.latest.node = some t.hash) {ancestors : List Hash} :
    s.ancestry h target = some ancestors ↔
      ∃ c path, plug c path = t ∧ c.hash = target ∧ (above c path).map Tree.hash = ancestors := by
  have climbs {c : Tree} {path : List Fork} (hplug : plug c path = t) :
      s.climb h.index.parents t.hash (s.nodes.size + 1) c.hash =
        some ((above c path).map Tree.hash) := by
    subst hplug
    -- a way up is no longer than the tree is high, and that is within the steps allowed
    have hlength := length_above_le c path
    have hheight := NodeMap.height_le_size ht
    exact climb_hash ht hp (by omega)
  simp only [ancestry, hroot]
  constructor
  · intro hc
    obtain ⟨c, path, hplug, rfl⟩ := exists_plug_of_climb ht hc
    rw [climbs hplug] at hc
    exact ⟨c, path, hplug, rfl, Option.some.inj hc⟩
  · rintro ⟨c, path, hplug, rfl, rfl⟩
    exact climbs hplug

end State

end MerkleStore
