import MerkleStore.Proofs.Reindex

/-!
# Nodes that stand on stored nodes

Two contents may have one digest, and a node that is added later under a hash that is
taken is not stored at all. Even so the nodes of a store are built from below: when a
branch is added its children are there (`NodeMap.Grounded`). So every stored node has a
rank above that of its children, every walk comes to its end without a failure
(`NodeMap.Grounded.failure_walk`), and indexes can be made again
(`State.exists_indexUnder`).
-/

namespace MerkleStore

/-- The hashes of the nodes right under a node. -/
def Node.children : Node → List Hash
  | terminal _ => []
  | internal n => [n.left, n.right]

theorem Internal.child_mem_children (n : Internal) (side : Side) :
    n.child side ∈ (Node.internal n).children := by
  cases side <;> simp [Internal.child, Node.children]

namespace NodeMap

variable {nodes : NodeMap} {h : Hash} {n : Node}

/-- Nodes that were added one by one, each after its children. -/
inductive Grounded : NodeMap → Prop
  | empty : Grounded ∅
  | add {nodes : NodeMap} (hg : Grounded nodes) (n : Node) (hn : ∀ c ∈ n.children, c ∈ nodes) :
      Grounded (nodes.insertIfNew n.hash n)

/-- A rank below the number of nodes for every stored one, lower for its children. -/
structure Ranks (nodes : NodeMap) (rank : Hash → Nat) : Prop where
  lt_size : ∀ h : Hash, h ∈ nodes → rank h < nodes.size
  child : ∀ (h : Hash) (n : Node), nodes[h]? = some n → ∀ c ∈ n.children,
    c ∈ nodes ∧ rank c < rank h

theorem mem_of_getElem? (hn : nodes[h]? = some n) : h ∈ nodes := by
  rw [Std.ExtTreeMap.mem_iff_isSome_getElem?, hn]
  rfl

theorem Ranks.add {rank : Hash → Nat} (hr : nodes.Ranks rank) (hnew : n.hash ∉ nodes)
    (hn : ∀ c ∈ n.children, c ∈ nodes) :
    Ranks (nodes.insertIfNew n.hash n) fun h => if h = n.hash then nodes.size else rank h := by
  have hsize : Std.ExtTreeMap.size (nodes.insertIfNew n.hash n) = nodes.size + 1 := by
    rw [Std.ExtTreeMap.size_insertIfNew, if_neg hnew]
  have hold {c : Hash} (hc : c ∈ nodes) : c ≠ n.hash := fun heq => hnew (heq ▸ hc)
  constructor
  · intro h hh
    rw [hsize]
    split
    · omega
    · next hne =>
        rw [Std.ExtTreeMap.mem_insertIfNew] at hh
        have := hr.lt_size h (by simpa [Ne.symm hne] using hh)
        omega
  · intro h m hm c hc
    rw [Std.ExtTreeMap.getElem?_insertIfNew] at hm
    have hmem : c ∈ nodes → c ∈ nodes.insertIfNew n.hash n := fun hc => by
      simp [Std.ExtTreeMap.mem_insertIfNew, hc]
    split at hm
    · next heq =>
        cases hm
        have hh : n.hash = h := by simpa using heq.1
        refine ⟨hmem (hn c hc), ?_⟩
        simpa [← hh, hold (hn c hc)] using hr.lt_size c (hn c hc)
    · obtain ⟨hstored, hlt⟩ := hr.child h m hm c hc
      exact ⟨hmem hstored, by simpa [hold hstored, hold (mem_of_getElem? hm)] using hlt⟩

theorem Grounded.exists_ranks (hg : nodes.Grounded) : ∃ rank, nodes.Ranks rank := by
  induction hg with
  | empty => exact ⟨fun _ => 0, by simp, by simp⟩
  | @add nodes hg n hn ih =>
      obtain ⟨rank, hr⟩ := ih
      by_cases hnew : n.hash ∈ nodes
      · exact ⟨rank, (insertIfNew_of_mem hnew).symm ▸ hr⟩
      · exact ⟨_, hr.add hnew hn⟩

/-- The children of a stored node are stored. -/
theorem Grounded.child_mem (hg : nodes.Grounded) (hn : nodes[h]? = some n) {c : Hash}
    (hc : c ∈ n.children) : c ∈ nodes := by
  obtain ⟨rank, hr⟩ := hg.exists_ranks
  exact (hr.child h n hn c hc).1

/-- A walk from a stored node that may go as deep as the rank of the node does not fail. -/
theorem Ranks.failure_walkWithin {rank : Hash → Nat} (hr : nodes.Ranks rank) (first : Side)
    (skip : Hash → Bool) {depth : Nat} (hh : h ∈ nodes) (hd : rank h < depth) :
    (nodes.walkWithin first skip depth h).failure = none := by
  induction depth generalizing h with
  | zero => omega
  | succ depth ih =>
      rw [walkWithin]
      split
      · rfl
      · obtain ⟨n, hn⟩ := Option.isSome_iff_exists.mp
          (Std.ExtTreeMap.mem_iff_isSome_getElem?.mp hh)
        rw [hn]
        cases n with
        | terminal n => rfl
        | internal n =>
            have hchild (side : Side) :
                (nodes.walkWithin first skip depth (n.child side)).failure = none := by
              obtain ⟨hmem, hlt⟩ := hr.child h _ hn _ (Internal.child_mem_children n side)
              exact ih hmem (by omega)
            have hbelow := Trace.failure_append_eq_none.mpr ⟨hchild first, hchild first.other⟩
            exact Trace.failure_append_eq_none.mpr ⟨rfl, hbelow⟩

/-- No walk from a stored node fails. -/
theorem Grounded.failure_walk (hg : nodes.Grounded) (first : Side) (skip : Hash → Bool)
    (hh : h ∈ nodes) : (nodes.walk first skip h).failure = none := by
  obtain ⟨rank, hr⟩ := hg.exists_ranks
  exact hr.failure_walkWithin first skip hh (Nat.lt_succ_of_lt (hr.lt_size h hh))

end NodeMap

/-- The index under a stored root can be made again. -/
theorem State.exists_indexUnder {nodes : NodeMap} (hg : nodes.Grounded) {top : Option Hash}
    (htop : ∀ h, top = some h → h ∈ nodes) : ∃ i, indexUnder nodes top = .ok i := by
  cases top with
  | none => exact ⟨_, rfl⟩
  | some h =>
      have hwalk : (nodes.preorder h).failure = none :=
        hg.failure_walk .left (fun _ => false) (htop h rfl)
      simp only [indexUnder, Trace.nodes, hwalk]
      exact ⟨_, rfl⟩

end MerkleStore
