import MerkleStore.Proofs.Commitment

/-!
# Nodes that are what their hashes stand for

A node is genuine if its content has the hash that it is stored under. A store that was
tampered with may lack nodes and hold others that are not genuine, so a walk may fail or never
end. Where everything below a hash is genuine and no genuine branch lies below itself
(`NodeMap.Acyclic`), a walk goes through (`NodeMap.GenuineUnder.failure_preorder`), and visits
just what is to be found below (`NodeMap.mem_visited_iff`).
-/

namespace MerkleStore.NodeMap

variable {nodes : NodeMap} {h k : Hash} {n : Node} {d : Nat} {e : Error}

/-- The node under this hash claims it, and its content has it. -/
def Genuine (nodes : NodeMap) (k : Hash) : Prop :=
  ∃ n, nodes[k]? = some n ∧ n.hash = k ∧ n.contentHash = k

/-- Everything on the way down from a hash is genuine. -/
def GenuineUnder (nodes : NodeMap) (h : Hash) : Prop :=
  ∀ k, nodes.Reaches h k → nodes.Genuine k

/-- A genuine node has this child. -/
def Leads (nodes : NodeMap) (h k : Hash) : Prop :=
  nodes.Genuine h ∧ ∃ n, nodes[h]? = some n ∧ k ∈ n.children

/-- No genuine node lies below itself with only genuine nodes in between. -/
def Acyclic (nodes : NodeMap) : Prop :=
  ∀ k, ¬ Relation.TransGen nodes.Leads k k

/-! ## What lies below -/

theorem Reaches.child (hn : nodes[h]? = some n) (hk : k ∈ n.children) : nodes.Reaches h k := by
  cases n with
  | terminal n => cases hk
  | internal n =>
      rcases List.mem_pair.mp hk with rfl | rfl
      · exact .left hn (.here _)
      · exact .right hn (.here _)

theorem GenuineUnder.self (hg : nodes.GenuineUnder h) : nodes.Genuine h := hg h (.here h)

theorem GenuineUnder.below (hg : nodes.GenuineUnder h) (hk : nodes.Reaches h k) :
    nodes.GenuineUnder k :=
  fun j hj => hg j (hk.trans hj)

/-- Hashes that are genuine and have their children among them are genuine all the way down. -/
theorem genuineUnder_of_closed {known : Hash → Prop} (hgenuine : ∀ k, known k → nodes.Genuine k)
    (hclosed : ∀ k n, known k → nodes[k]? = some n → ∀ c ∈ n.children, known c) (hh : known h) :
    nodes.GenuineUnder h := by
  intro k hk
  have hknown : known k := by
    induction hk with
    | here => exact hh
    | left hn _ ih => exact ih (hclosed _ _ hh hn _ (by simp [Node.children]))
    | right hn _ ih => exact ih (hclosed _ _ hh hn _ (by simp [Node.children]))
  exact hgenuine k hknown

/-! ## Walks -/

/-- A walk among genuine nodes fails only if it is cut off. -/
theorem GenuineUnder.failure_preorderWithin (hg : nodes.GenuineUnder h)
    (hf : (nodes.preorderWithin d h).failure = some e) : e = .endless := by
  induction d generalizing h with
  | zero =>
      cases hf
      rfl
  | succ d ih =>
      obtain ⟨n, hn, -⟩ := hg.self
      cases n with
      | terminal n => simp [walkWithin, hn] at hf
      | internal n =>
          rw [preorderWithin_internal hn] at hf
          rcases Trace.failure_append_eq_some hf with hhere | hbelow
          · cases hhere
          · rcases Trace.failure_append_eq_some hbelow with hleft | hright
            · exact ih (hg.below (.left hn (.here _))) hleft
            · exact ih (hg.below (.right hn (.here _))) hright

/-- A walk among genuine nodes goes through, since none of them lies below itself. -/
theorem GenuineUnder.failure_preorder (hg : nodes.GenuineUnder h) (hacyclic : nodes.Acyclic) :
    (nodes.preorder h).failure = none := by
  have hstep {a b : Hash} (ha : nodes.Reaches h a) (hab : nodes.GoesOn a b) :
      nodes.Leads a b ∧ nodes.Reaches h b := by
    obtain ⟨n, hn, hside⟩ := hab
    have hb : b ∈ (Node.internal n).children := by
      rcases hside with rfl | ⟨-, rfl⟩ <;> simp [Node.children]
    exact ⟨⟨hg a ha, _, hn, hb⟩, ha.trans (.child hn hb)⟩
  have hends : (nodes.preorder h).Ends := by
    by_contra hh
    obtain ⟨k, hreach, hback⟩ := not_ends_iff.mp hh
    have hk : nodes.Reaches h k := by
      clear hback
      induction hreach with
      | refl => exact .here h
      | tail _ hab ih => exact (hstep ih hab).2
    have hcycle {j : Hash} (hj : Relation.TransGen nodes.GoesOn k j) :
        Relation.TransGen nodes.Leads k j ∧ nodes.Reaches h j := by
      induction hj with
      | single hab => exact ⟨.single (hstep hk hab).1, (hstep hk hab).2⟩
      | tail _ hab ih => exact ⟨.tail ih.1 (hstep ih.2 hab).1, (hstep ih.2 hab).2⟩
    exact hacyclic k (hcycle hback).1
  cases hf : (nodes.preorder h).failure with
  | none => rfl
  | some e => exact absurd (hf.trans (congrArg some (hg.failure_preorderWithin hf))) hends

/-- What a walk visits is found below its start. -/
theorem reaches_of_mem_visited {v : Hash × Node} (hv : v ∈ (nodes.preorderWithin d h).visited) :
    nodes.Reaches h v.1 := by
  induction d generalizing h with
  | zero => cases hv
  | succ d ih =>
      cases hn : nodes[h]? with
      | none => simp [walkWithin, hn, Trace.fail] at hv
      | some n =>
          cases n with
          | terminal n =>
              have hv' : v = (h, .terminal n) := by simpa [walkWithin, hn] using hv
              exact hv' ▸ .here h
          | internal n =>
              rw [preorderWithin_internal hn] at hv
              rcases Trace.mem_visited_append hv with hhere | hbelow
              · obtain rfl := List.mem_singleton.mp hhere
                exact .here h
              · rcases Trace.mem_visited_append hbelow with hleft | hright
                · exact .left hn (ih hleft)
                · exact .right hn (ih hright)

/-- A walk that goes through visits everything below its start. -/
theorem mem_visited_of_reaches (hf : (nodes.preorderWithin d h).failure = none)
    (hk : nodes.Reaches h k) (hn : nodes[k]? = some n) :
    (k, n) ∈ (nodes.preorderWithin d h).visited := by
  induction d generalizing h with
  | zero => cases hf
  | succ d ih =>
      cases hk with
      | here =>
          cases n with
          | terminal n => simp [walkWithin, hn]
          | internal n =>
              rw [preorderWithin_internal hn, Trace.visited_append_of_none rfl]
              exact List.mem_cons_self
      | left hh hk =>
          rw [preorderWithin_internal hh] at hf ⊢
          obtain ⟨-, hboth⟩ := Trace.failure_append_eq_none.mp hf
          obtain ⟨hleft, -⟩ := Trace.failure_append_eq_none.mp hboth
          rw [Trace.visited_append_of_none rfl, Trace.visited_append_of_none hleft]
          exact List.mem_append_right _ (List.mem_append_left _ (ih hleft hk))
      | right hh hk =>
          rw [preorderWithin_internal hh] at hf ⊢
          obtain ⟨-, hboth⟩ := Trace.failure_append_eq_none.mp hf
          obtain ⟨hleft, hright⟩ := Trace.failure_append_eq_none.mp hboth
          rw [Trace.visited_append_of_none rfl, Trace.visited_append_of_none hleft]
          exact List.mem_append_right _ (List.mem_append_right _ (ih hright hk))

/-- A walk that goes through visits the stored nodes below its start and no others. -/
theorem mem_visited_iff (hf : (nodes.preorder h).failure = none) {v : Hash × Node} :
    v ∈ (nodes.preorder h).visited ↔ nodes.Reaches h v.1 ∧ nodes[v.1]? = some v.2 := by
  constructor
  · intro hv
    exact ⟨reaches_of_mem_visited hv, getElem?_of_mem_visited hv⟩
  · rintro ⟨hk, hn⟩
    exact mem_visited_of_reaches hf hk hn

/-! ## Nodes without a cycle -/

/-- If the walk under every branch goes through, none lies below itself. -/
theorem acyclic_of_walks (hw : ∀ k n, nodes[k]? = some (.internal n) →
    (nodes.preorder k).failure = none) : nodes.Acyclic := by
  have hstep {a b : Hash} (hab : nodes.Leads a b) : nodes.GoesOn a b := by
    obtain ⟨-, n, hn, hb⟩ := hab
    cases n with
    | terminal n => cases hb
    | internal n =>
        have hf := hw a n hn
        rw [preorder_of_internal hn (Trace.ends_of_failure_eq_none hf)] at hf
        obtain ⟨-, hboth⟩ := Trace.failure_append_eq_none.mp hf
        rcases List.mem_pair.mp hb with rfl | rfl
        · exact ⟨n, hn, .inl rfl⟩
        · exact ⟨n, hn, .inr ⟨(Trace.failure_append_eq_none.mp hboth).1, rfl⟩⟩
  intro k hk
  have hback : Relation.TransGen nodes.GoesOn k k :=
    Relation.TransGen.mono (fun _ _ hab => hstep hab) k k hk
  obtain ⟨b, ⟨n, hn, -⟩, -⟩ := Relation.TransGen.head'_iff.mp hback
  exact not_ends_of_transGen hback (Trace.ends_of_failure_eq_none (hw k n hn))

/-- This can be looked up for all stored nodes. -/
theorem acyclic_of_forall_toList
    (hw : ∀ v ∈ nodes.toList, (nodes.preorder v.1).failure.isNone = true) : nodes.Acyclic := by
  refine acyclic_of_walks fun k n hn => Option.isNone_iff_eq_none.mp (hw (k, .internal n) ?_)
  exact Std.ExtTreeMap.mem_toList_iff_getElem?_eq_some.mpr hn

/-- Nodes that were built from below have no cycle. -/
theorem Grounded.acyclic (hg : nodes.Grounded) : nodes.Acyclic :=
  acyclic_of_walks fun _ _ hn => hg.failure_walk .left _ (mem_of_getElem? hn)

end MerkleStore.NodeMap
