import MerkleStore.Proofs.AppendOnly
import MerkleStore.Proofs.Audit
import MerkleStore.Proofs.Genuine

/-!
# What an audit finds

An audit of one tree on its own (`State.auditTree`) passes, is endless, or names a damage, and it
passes if the roots are right all the way down (`History.Rooted`) and the index agrees with
the last of them (`History.Indexed`). In an audit of everything what has been verified for one tree
is not verified again for the next one. This changes nothing about what is found, since
hashes that have been verified are genuine with all that is under them (`State.Settled`): the
audit stops at the first tree that does not pass on its own (`State.audit_cases`).

The index of a tree that passes has a key for every leaf, and as many keys as the last root
has places for leaves. If there are two places with the same leaf, then the index has a key too
many (`History.Padded`), and an audit does not see it (`Store.padded_unnoticed`). All else it sees
(`Store.audit_of_acyclic`).
-/

namespace MerkleStore

/-- Lists of one length are told to agree element by element. -/
theorem map_eq_map_iff_of_length {α β γ : Type} {f : α → γ} {g : β → γ} {xs : List α} {ys : List β}
    (hlength : xs.length = ys.length) :
    xs.map f = ys.map g ↔ ∀ p ∈ xs.zip ys, f p.1 = g p.2 := by
  rw [← List.forall₂_eq_eq_eq, List.forall₂_map_left_iff, List.forall₂_map_right_iff,
    List.forall₂_iff_zip]
  constructor
  · rintro ⟨-, hall⟩ p hp
    exact hall hp
  · intro hall
    exact ⟨hlength, fun {_ _} hp => hall _ hp⟩

/-! ## What is verified -/

namespace State

variable {s : State} {nodes : NodeMap} {t : TreeId} {h : History} {k root : Hash} {n : Node}
  {V V' : Verified} {P : Set Hash} {d : Nat}

/-- What has been verified is genuine, and its children have been verified or are yet to be. -/
structure Settled (nodes : NodeMap) (V : Verified) (P : Set Hash) : Prop where
  genuine : ∀ k ∈ V, nodes.Genuine k
  children : ∀ k ∈ V, ∀ n, nodes[k]? = some n → ∀ c ∈ n.children, c ∈ V ∨ c ∈ P

theorem Settled.empty (nodes : NodeMap) : Settled nodes ∅ ∅ where
  genuine := fun _ hk => absurd hk Std.ExtTreeSet.not_mem_empty
  children := fun _ hk => absurd hk Std.ExtTreeSet.not_mem_empty

theorem Settled.insert (hV : Settled nodes V P) (hk : nodes.Genuine k) (hn : nodes[k]? = some n) :
    Settled nodes (V.insert k) (P ∪ {c | c ∈ n.children}) where
  genuine := by
    intro j hj
    rcases Std.ExtTreeSet.mem_insert.mp hj with heq | hj
    · obtain rfl := Std.LawfulEqCmp.eq_of_compare heq
      exact hk
    · exact hV.genuine j hj
  children := by
    intro j hj m hm c hc
    rcases Std.ExtTreeSet.mem_insert.mp hj with heq | hj
    · obtain rfl := Std.LawfulEqCmp.eq_of_compare heq
      obtain rfl := Option.some.inj (hn.symm.trans hm)
      exact .inr (.inr hc)
    · rcases hV.children j hj m hm c hc with hc | hc
      · exact .inl (Std.ExtTreeSet.mem_insert.mpr (.inr hc))
      · exact .inr (.inl hc)

/-- What was yet to be verified has been. -/
theorem Settled.discharge {Q : Set Hash} (hV : Settled nodes V (P ∪ Q)) (hQ : ∀ c ∈ Q, c ∈ V) :
    Settled nodes V P where
  genuine := hV.genuine
  children := by
    intro k hk n hn c hc
    rcases hV.children k hk n hn c hc with hc | hc | hc
    · exact .inl hc
    · exact .inr hc
    · exact .inl (hQ c hc)

/-- Where nothing is left to be verified, everything below is genuine. -/
theorem Settled.genuineUnder (hV : Settled nodes V ∅) (hk : k ∈ V) : nodes.GenuineUnder k :=
  NodeMap.genuineUnder_of_closed hV.genuine
    (fun k n hk hn c hc => (hV.children k hk n hn c hc).resolve_right (Set.notMem_empty c)) hk

/-- The stored hashes that have not been verified. -/
def unverified (nodes : NodeMap) (V : Verified) : Finset Hash :=
  nodes.keys.toFinset.filter (· ∉ V)

theorem mem_unverified : k ∈ unverified nodes V ↔ k ∈ nodes ∧ k ∉ V := by
  rw [unverified, Finset.mem_filter, List.mem_toFinset, Std.ExtTreeMap.mem_keys]

theorem card_unverified_le_size (nodes : NodeMap) (V : Verified) :
    (unverified nodes V).card ≤ nodes.size := by
  rw [← Std.ExtTreeMap.length_keys]
  exact (Finset.card_filter_le _ _).trans (List.toFinset_card_le _)

theorem card_unverified_le (nodes : NodeMap) (hsub : ∀ k ∈ V, k ∈ V') :
    (unverified nodes V').card ≤ (unverified nodes V).card := by
  refine Finset.card_le_card fun k hk => ?_
  obtain ⟨hmem, hnot⟩ := mem_unverified.mp hk
  exact mem_unverified.mpr ⟨hmem, fun hV => hnot (hsub k hV)⟩

theorem card_unverified_insert (hk : k ∈ nodes) (hnot : k ∉ V) :
    (unverified nodes (V.insert k)).card < (unverified nodes V).card := by
  refine Finset.card_lt_card ⟨fun j hj => ?_, fun hsub => ?_⟩
  · obtain ⟨hmem, hnew⟩ := mem_unverified.mp hj
    exact mem_unverified.mpr ⟨hmem, fun hV => hnew (Std.ExtTreeSet.mem_insert.mpr (.inr hV))⟩
  · obtain ⟨-, hnew⟩ := mem_unverified.mp (hsub (mem_unverified.mpr ⟨hk, hnot⟩))
    exact hnew (Std.ExtTreeSet.mem_insert.mpr (.inl Std.ReflCmp.compare_self))

/-! ### One hash -/

theorem contains_of_not_mem (hk : k ∉ V) : V.contains k = false := by
  rw [Bool.eq_false_iff]
  exact fun hcontains => hk (Std.ExtTreeSet.contains_iff_mem.mp hcontains)

theorem verifyWithin_of_mem (hk : k ∈ V) : s.verifyWithin t (d + 1) V k = .ok V := by
  rw [verifyWithin, if_pos (Std.ExtTreeSet.contains_iff_mem.mpr hk)]

/-- A hash that no genuine node has is a damage. -/
theorem exists_verifyWithin_eq_error (hk : k ∉ V) (hg : ¬ s.nodes.Genuine k) :
    ∃ x, s.verifyWithin t (d + 1) V k = .error (.integrity (.damaged t x)) := by
  have hnot := contains_of_not_mem hk
  cases hn : s.nodes[k]? with
  | none => exact ⟨.missingNode k, by simp [verifyWithin, hn, hnot]⟩
  | some n =>
      have hwrong : n.hash ≠ k ∨ n.contentHash ≠ k := by
        by_contra hright
        simp only [not_or, not_not] at hright
        exact hg ⟨n, hn, hright⟩
      exact ⟨.wrongContent k n.contentHash, by simp [verifyWithin, hn, hnot, hwrong]⟩

theorem verifyWithin_terminal {m : Terminal} (hk : k ∉ V) (hn : s.nodes[k]? = some (.terminal m))
    (hg : s.nodes.Genuine k) : s.verifyWithin t (d + 1) V k = .ok (V.insert k) := by
  have hnot := contains_of_not_mem hk
  obtain ⟨n, hn', hhash, hcontent⟩ := hg
  obtain rfl := Option.some.inj (hn.symm.trans hn')
  simp [verifyWithin, hn, hnot, hhash, hcontent]

theorem verifyWithin_internal {m : Internal} (hk : k ∉ V) (hn : s.nodes[k]? = some (.internal m))
    (hg : s.nodes.Genuine k) :
    s.verifyWithin t (d + 1) V k = (do
      let V ← s.verifyWithin t d (V.insert k) m.left
      s.verifyWithin t d V m.right) := by
  have hnot := contains_of_not_mem hk
  obtain ⟨n, hn', hhash, hcontent⟩ := hg
  obtain rfl := Option.some.inj (hn.symm.trans hn')
  simp [verifyWithin, hn, hnot, hhash, hcontent]

/-- As long as there is more depth than there are hashes left, a hash is verified, or something
below it is damaged. -/
theorem verifyWithin_cases (t : TreeId) (k : Hash) (hd : (unverified s.nodes V).card < d)
    (hV : Settled s.nodes V P) :
    (∃ V', s.verifyWithin t d V k = .ok V' ∧ k ∈ V' ∧ (∀ j ∈ V, j ∈ V') ∧ Settled s.nodes V' P) ∨
    (¬ s.nodes.GenuineUnder k ∧
      ∃ x, s.verifyWithin t d V k = .error (.integrity (.damaged t x))) := by
  induction d generalizing V P k with
  | zero => omega
  | succ d ih =>
      by_cases hk : k ∈ V
      · exact .inl ⟨V, verifyWithin_of_mem hk, hk, fun _ hj => hj, hV⟩
      by_cases hg : s.nodes.Genuine k
      · obtain ⟨n, hn, -⟩ := id hg
        have hself : k ∈ V.insert k :=
          Std.ExtTreeSet.mem_insert.mpr (.inl Std.ReflCmp.compare_self)
        have hold : ∀ j ∈ V, j ∈ V.insert k := fun j hj => Std.ExtTreeSet.mem_insert.mpr (.inr hj)
        have hless := card_unverified_insert (NodeMap.mem_of_getElem? hn) hk
        have hV₁ := hV.insert hg hn
        cases n with
        | terminal m =>
            refine .inl ⟨_, verifyWithin_terminal hk hn hg, hself, hold, ?_⟩
            exact hV₁.discharge fun c hc => absurd hc List.not_mem_nil
        | internal m =>
            rw [verifyWithin_internal hk hn hg]
            rcases ih m.left (by omega) hV₁ with
              ⟨V₂, hleft, hmem, hsub, hV₂⟩ | ⟨hbad, x, hleft⟩
            · have hle := card_unverified_le s.nodes hsub
              rcases ih m.right (by omega) hV₂ with
                ⟨V₃, hright, hmem', hsub', hV₃⟩ | ⟨hbad, x, hright⟩
              · refine .inl ⟨V₃, by simp only [hleft, hright, bind, Except.bind],
                  hsub' k (hsub k hself), fun j hj => hsub' j (hsub j (hold j hj)), ?_⟩
                refine hV₃.discharge fun c hc => ?_
                rcases List.mem_pair.mp hc with rfl | rfl
                · exact hsub' _ hmem
                · exact hmem'
              · refine .inr ⟨fun hall => hbad ?_, x, by
                  simp only [hleft, hright, bind, Except.bind]⟩
                exact hall.below (.right hn (.here _))
            · refine .inr ⟨fun hall => hbad ?_, x, by simp only [hleft, bind, Except.bind]⟩
              exact hall.below (.left hn (.here _))
      · exact .inr ⟨fun hall => hg hall.self, exists_verifyWithin_eq_error hk hg⟩

/-- What is under a root is verified if all of it is genuine. -/
theorem verify_cases (t : TreeId) (root : Hash) (hV : Settled s.nodes V ∅) :
    (s.nodes.GenuineUnder root ∧ ∃ V', s.verify t V root = .ok V' ∧ Settled s.nodes V' ∅) ∨
    (¬ s.nodes.GenuineUnder root ∧
      ∃ x, s.verify t V root = .error (.integrity (.damaged t x))) := by
  have hd : (unverified s.nodes V).card < s.nodes.size + 2 := by
    have hle := card_unverified_le_size s.nodes V
    omega
  rcases verifyWithin_cases t root hd hV with ⟨V', hok, hmem, -, hV'⟩ | hbad
  · exact .inl ⟨hV'.genuineUnder hmem, V', hok, hV'⟩
  · exact .inr hbad

/-! ### The roots of a tree -/

/-- Roots are numbered from a position on, and everything they reach is genuine. -/
structure RootedFrom (nodes : NodeMap) (position : Nat) (roots : List Root) : Prop where
  generations : ∀ (i : Nat) (r : Root), roots[i]? = some r → r.generation = position + i
  reached : ∀ r ∈ roots, ∀ top, r.node = some top → nodes.GenuineUnder top

theorem rootedFrom_cons {position : Nat} {r : Root} {roots : List Root} :
    RootedFrom nodes position (r :: roots) ↔ r.generation = position ∧
      (∀ top, r.node = some top → nodes.GenuineUnder top) ∧
      RootedFrom nodes (position + 1) roots := by
  constructor
  · intro hr
    refine ⟨hr.generations 0 r rfl, hr.reached r List.mem_cons_self, ?_, ?_⟩
    · intro i r' hr'
      have := hr.generations (i + 1) r' hr'
      omega
    · exact fun r' hr' => hr.reached r' (List.mem_cons_of_mem r hr')
  · rintro ⟨hposition, htop, hrest⟩
    constructor
    · intro i r' hr'
      cases i with
      | zero =>
          cases hr'
          exact hposition
      | succ i =>
          have := hrest.generations i r' hr'
          omega
    · intro r' hr'
      rcases List.mem_cons.mp hr' with rfl | hr'
      · exact htop
      · exact hrest.reached r' hr'

/-- Roots are verified if they are right, whatever has been verified before. -/
theorem verifyRoots_cases (t : TreeId) (position : Nat) (roots : List Root)
    (hV : Settled s.nodes V ∅) :
    (RootedFrom s.nodes position roots ∧
      ∃ V', s.verifyRoots t position V roots = .ok V' ∧ Settled s.nodes V' ∅) ∨
    (¬ RootedFrom s.nodes position roots ∧
      ∃ x, s.verifyRoots t position V roots = .error (.integrity (.damaged t x))) := by
  induction roots generalizing position V with
  | nil => exact .inl ⟨⟨by simp, by simp⟩, V, rfl, hV⟩
  | cons r roots ih =>
      rw [rootedFrom_cons]
      by_cases hposition : r.generation = position
      · cases htop : r.node with
        | none =>
            have heq : s.verifyRoots t position V (r :: roots) =
                s.verifyRoots t (position + 1) V roots := by
              simp [verifyRoots, hposition, htop, bind, Except.bind, pure, Except.pure]
            rw [heq]
            rcases ih (position + 1) hV with ⟨hrest, hok⟩ | ⟨hrest, herror⟩
            · exact .inl ⟨⟨hposition, by simp, hrest⟩, hok⟩
            · exact .inr ⟨fun hall => hrest hall.2.2, herror⟩
        | some top =>
            have heq : s.verifyRoots t position V (r :: roots) =
                (s.verify t V top).bind fun V => s.verifyRoots t (position + 1) V roots := by
              simp [verifyRoots, hposition, htop, bind, Except.bind]
            rw [heq]
            rcases verify_cases t top hV with
              ⟨hunder, V', hok, hV'⟩ | ⟨hunder, x, herror⟩
            · rw [hok]
              rcases ih (position + 1) hV' with ⟨hrest, hok⟩ | ⟨hrest, herror⟩
              · exact .inl ⟨⟨hposition, fun _ heq => by cases heq; exact hunder, hrest⟩, hok⟩
              · exact .inr ⟨fun hall => hrest hall.2.2, herror⟩
            · rw [herror]
              exact .inr ⟨fun hall => hunder (hall.2.1 top rfl), x, rfl⟩
      · refine .inr ⟨fun hall => hposition hall.1, .misplacedGeneration r.generation position, ?_⟩
        simp [verifyRoots, hposition, bind, Except.bind, throw, throwThe, MonadExceptOf.throw]

/-! ### The operations of a tree -/

theorem auditOperations_cases (t : TreeId) (h : History) :
    (h.operations.map Operation.root = h.roots.tail.map Root.node ∧
      auditOperations t h = .ok ()) ∨
    (h.operations.map Operation.root ≠ h.roots.tail.map Root.node ∧
      ∃ x, auditOperations t h = .error (.integrity (.damaged t x))) := by
  have hpos : 0 < h.roots.length := List.length_pos_of_ne_nil h.roots_ne_nil
  by_cases hcount : h.operations.length + 1 = h.roots.length
  · have hlength : h.operations.length = h.roots.tail.length := by
      rw [List.length_tail]
      omega
    rw [ne_eq, map_eq_map_iff_of_length hlength]
    cases hfind : (h.operations.zip h.roots.tail).find? fun p => p.1.root != p.2.node with
    | none =>
        left
        refine ⟨fun p hp => ?_, ?_⟩
        · simpa using List.find?_eq_none.mp hfind p hp
        · rw [auditOperations, if_neg (not_not.mpr hcount), hfind]
    | some p =>
        right
        refine ⟨fun hall => ?_, .wrongOperation p.2.generation, ?_⟩
        · have hne := List.find?_some hfind
          simp [hall p (List.mem_of_find?_eq_some hfind)] at hne
        · rw [auditOperations, if_neg (not_not.mpr hcount), hfind]
  · right
    refine ⟨fun hall => hcount ?_, .operationCount h.operations.length h.roots.length, ?_⟩
    · have hlength := congrArg List.length hall
      rw [List.length_map, List.length_map, List.length_tail] at hlength
      omega
    · rw [auditOperations, if_pos hcount]

end State

/-! ### The index of a tree -/

namespace History

/-- The walk under the last root. -/
def walk (nodes : NodeMap) (h : History) : Trace :=
  match h.latest.node with
  | none => .done
  | some top => nodes.preorder top

/-- The leaves under the last root, each as often as it has a place there. -/
def leaves (nodes : NodeMap) (h : History) : List Terminal :=
  ((h.walk nodes).visited.map Prod.snd).filterMap Node.terminal?

/-- The walk under the last root goes through, and the index has every leaf and as many keys as
there are places for leaves. -/
structure Indexed (nodes : NodeMap) (h : History) : Prop where
  whole : (h.walk nodes).failure = none
  keys : ∀ n ∈ h.leaves nodes, h.index.keys[n.key]? = some n.hash
  size : (h.leaves nodes).length = h.index.keys.size

/-- All that an audit looks for: roots that are numbered with nothing but genuine nodes under them,
operations that lead to them, and an index of the last of them. -/
structure Passes (nodes : NodeMap) (h : History) : Prop where
  roots : State.RootedFrom nodes 0 h.roots
  operations : h.operations.map Operation.root = h.roots.tail.map Root.node
  index : h.Indexed nodes

end History

namespace State

variable {s : State} {t : TreeId} {h : History} {V : Verified}

theorem auditIndex_eq (s : State) (t : TreeId) (h : History) :
    s.auditIndex t h =
      match firstUnindexed? h.index (h.leaves s.nodes), (h.walk s.nodes).failure with
      | some n, _ => .error (.integrity (.damaged t (.keyNotIndexed n.key)))
      | none, some e => .error e
      | none, none =>
          if (h.leaves s.nodes).length ≠ h.index.keys.size then
            .error (.integrity
              (.damaged t (.indexSize h.index.keys.size (h.leaves s.nodes).length)))
          else .ok () := by
  unfold auditIndex History.leaves History.walk
  cases h.latest.node <;> rfl

theorem firstUnindexed?_eq_none_iff {index : Index} {leaves : List Terminal} :
    firstUnindexed? index leaves = none ↔ ∀ n ∈ leaves, index.keys[n.key]? = some n.hash := by
  simp [firstUnindexed?, List.find?_eq_none]

/-- Among genuine nodes the walk under the last root fails only if it is endless. -/
theorem failure_walk_of_rootedFrom (hr : RootedFrom s.nodes 0 h.roots) {e : Error}
    (hf : (h.walk s.nodes).failure = some e) : e = .endless := by
  rw [History.walk] at hf
  cases htop : h.latest.node with
  | none =>
      rw [htop] at hf
      cases hf
  | some top =>
      rw [htop] at hf
      exact (hr.reached _ (List.getLast_mem h.roots_ne_nil) top htop).failure_preorderWithin hf

/-- Under right roots the index is right, or it is damaged, or its walk is endless. -/
theorem auditIndex_cases (t : TreeId) (hr : RootedFrom s.nodes 0 h.roots) :
    (h.Indexed s.nodes ∧ s.auditIndex t h = .ok ()) ∨
    (¬ h.Indexed s.nodes ∧ ∃ x, s.auditIndex t h = .error (.integrity (.damaged t x))) ∨
    ((h.walk s.nodes).failure = some .endless ∧ s.auditIndex t h = .error .endless) := by
  rw [auditIndex_eq]
  cases hfirst : firstUnindexed? h.index (h.leaves s.nodes) with
  | some n =>
      refine .inr (.inl ⟨fun hi => ?_, _, rfl⟩)
      rw [firstUnindexed?_eq_none_iff.mpr hi.keys] at hfirst
      cases hfirst
  | none =>
      cases hf : (h.walk s.nodes).failure with
      | some e =>
          obtain rfl := failure_walk_of_rootedFrom hr hf
          exact .inr (.inr ⟨rfl, rfl⟩)
      | none =>
          by_cases hsize : (h.leaves s.nodes).length = h.index.keys.size
          · exact .inl ⟨⟨hf, firstUnindexed?_eq_none_iff.mp hfirst, hsize⟩,
              if_neg (not_not.mpr hsize)⟩
          · exact .inr (.inl ⟨fun hi => hsize hi.size, _, if_pos hsize⟩)

/-! ### One tree and all of them -/

/-- What follows the roots in the audit of a tree. -/
def auditTables (s : State) (t : TreeId) (h : History) : Except Error Unit := do
  auditOperations t h
  s.auditIndex t h

theorem auditTables_cases (t : TreeId) (hr : RootedFrom s.nodes 0 h.roots) :
    (h.Passes s.nodes ∧ s.auditTables t h = .ok ()) ∨
    (¬ h.Passes s.nodes ∧ ∃ x, s.auditTables t h = .error (.integrity (.damaged t x))) ∨
    ((h.walk s.nodes).failure = some .endless ∧ s.auditTables t h = .error .endless) := by
  rcases auditOperations_cases t h with ⟨hops, hok⟩ | ⟨hops, x, herror⟩
  · have heq : s.auditTables t h = s.auditIndex t h := by
      simp only [auditTables, hok, bind, Except.bind]
    rw [heq]
    rcases auditIndex_cases t hr with ⟨hi, hindex⟩ | ⟨hi, hindex⟩ | hendless
    · exact .inl ⟨⟨hr, hops, hi⟩, hindex⟩
    · exact .inr (.inl ⟨fun hall => hi hall.index, hindex⟩)
    · exact .inr (.inr hendless)
  · refine .inr (.inl ⟨fun hall => hops hall.operations, x, ?_⟩)
    simp only [auditTables, herror, bind, Except.bind]

/-- The audit of one tree on its own. -/
def auditTree (s : State) (t : TreeId) (h : History) : Except Error Unit := do
  let _ ← s.verifyRoots t 0 ∅ h.roots
  s.auditTables t h

/-- The audit of a tree passes, or names a damage of the tree, or is endless. -/
theorem auditTree_cases (s : State) (t : TreeId) (h : History) :
    (h.Passes s.nodes ∧ s.auditTree t h = .ok ()) ∨
    (¬ h.Passes s.nodes ∧ ∃ x, s.auditTree t h = .error (.integrity (.damaged t x))) ∨
    (RootedFrom s.nodes 0 h.roots ∧ (h.walk s.nodes).failure = some .endless ∧
      s.auditTree t h = .error .endless) := by
  rcases verifyRoots_cases t 0 h.roots
    (Settled.empty s.nodes) with ⟨hr, V, hV, -⟩ | ⟨hr, x, hV⟩
  · have heq : s.auditTree t h = s.auditTables t h := by
      simp only [auditTree, hV, bind, Except.bind]
    rw [heq]
    rcases auditTables_cases t hr with hpasses | hfails | ⟨hf, hendless⟩
    · exact .inl hpasses
    · exact .inr (.inl hfails)
    · exact .inr (.inr ⟨hr, hf, hendless⟩)
  · refine .inr (.inl ⟨fun hall => hr hall.roots, x, ?_⟩)
    simp only [auditTree, hV, bind, Except.bind]

/-- In an audit of trees the first one is judged as it is on its own, and what it leaves verified
is settled. -/
theorem auditTrees_cons_cases (t : TreeId) (h : History) (trees : List (TreeId × History))
    (hV : Settled s.nodes V ∅) :
    (s.auditTree t h = .ok () ∧ ∃ V', Settled s.nodes V' ∅ ∧
      s.auditTrees V ((t, h) :: trees) = s.auditTrees V' trees) ∨
    ((∃ x, s.auditTree t h = .error (.integrity (.damaged t x))) ∧
      ∃ x, s.auditTrees V ((t, h) :: trees) = .error (.integrity (.damaged t x))) ∨
    (s.auditTree t h = .error .endless ∧
      s.auditTrees V ((t, h) :: trees) = .error .endless) := by
  rcases verifyRoots_cases t 0 h.roots hV with
    ⟨hr, V', hshared, hV'⟩ | ⟨hr, x, hshared⟩
  · obtain ⟨W, hown⟩ : ∃ W, s.verifyRoots t 0 ∅ h.roots = .ok W := by
      rcases verifyRoots_cases t 0 h.roots
        (Settled.empty s.nodes) with ⟨-, W, hW, -⟩ | ⟨hno, -⟩
      · exact ⟨W, hW⟩
      · exact absurd hr hno
    have hone : s.auditTree t h = s.auditTables t h := by
      simp only [auditTree, hown, bind, Except.bind]
    have hall : s.auditTrees V ((t, h) :: trees) =
        (s.auditTables t h).bind fun _ => s.auditTrees V' trees := by
      simp only [auditTrees, hshared, auditTables, bind, Except.bind]
      cases auditOperations t h <;> rfl
    rw [hone, hall]
    rcases auditTables_cases t hr with ⟨-, hok⟩ | ⟨-, x, hdamage⟩ | ⟨-, hendless⟩
    · rw [hok]
      exact .inl ⟨rfl, V', hV', rfl⟩
    · rw [hdamage]
      exact .inr (.inl ⟨⟨x, rfl⟩, x, rfl⟩)
    · rw [hendless]
      exact .inr (.inr ⟨rfl, rfl⟩)
  · refine .inr (.inl ⟨?_, x, by simp only [auditTrees, hshared, bind, Except.bind]⟩)
    rcases auditTree_cases s t h with ⟨hpasses, -⟩ | ⟨-, hdamage⟩ | ⟨hr', -, -⟩
    · exact absurd hpasses.roots hr
    · exact hdamage
    · exact absurd hr' hr

/-- Trees are audited up to the first one that does not pass on its own. -/
theorem auditTrees_cases (trees : List (TreeId × History)) (hV : Settled s.nodes V ∅) :
    ((∀ p ∈ trees, s.auditTree p.1 p.2 = .ok ()) ∧
      ∃ V', Settled s.nodes V' ∅ ∧ s.auditTrees V trees = .ok V') ∨
    ∃ before t h after, trees = before ++ (t, h) :: after ∧
      (∀ p ∈ before, s.auditTree p.1 p.2 = .ok ()) ∧
      (((∃ x, s.auditTree t h = .error (.integrity (.damaged t x))) ∧
          ∃ x, s.auditTrees V trees = .error (.integrity (.damaged t x))) ∨
        (s.auditTree t h = .error .endless ∧ s.auditTrees V trees = .error .endless)) := by
  induction trees generalizing V with
  | nil => exact .inl ⟨by simp, V, hV, rfl⟩
  | cons p trees ih =>
      obtain ⟨t, h⟩ := p
      rcases auditTrees_cons_cases t h trees hV with
        ⟨hok, V', hV', heq⟩ | hfails | hendless
      · have hfirst {ps : List (TreeId × History)} (hps : ∀ p ∈ ps, s.auditTree p.1 p.2 = .ok ()) :
            ∀ p ∈ (t, h) :: ps, s.auditTree p.1 p.2 = .ok () := by
          intro p hp
          rcases List.mem_cons.mp hp with rfl | hp
          · exact hok
          · exact hps p hp
        rw [heq]
        rcases ih hV' with ⟨hall, hrest⟩ | ⟨before, t', h', after, rfl, hbefore, hstop⟩
        · exact .inl ⟨hfirst hall, hrest⟩
        · exact .inr ⟨(t, h) :: before, t', h', after, rfl, hfirst hbefore, hstop⟩
      · exact .inr ⟨[], t, h, trees, rfl, by simp, .inl hfails⟩
      · exact .inr ⟨[], t, h, trees, rfl, by simp, .inr hendless⟩

/-- All trees with a smaller id pass an audit of their own. -/
def PassBefore (s : State) (t : TreeId) : Prop :=
  ∀ (t' : TreeId) (h' : History), s.trees[t']? = some h' → compare t' t = .lt →
    s.auditTree t' h' = .ok ()

/-- In the list of all trees those before a tree have the smaller ids. -/
theorem passBefore_of_toList {before after : List (TreeId × History)}
    (heq : s.trees.toList = before ++ (t, h) :: after)
    (hbefore : ∀ p ∈ before, s.auditTree p.1 p.2 = .ok ()) : s.PassBefore t := by
  intro t' h' ht' hlt
  have hmem : (t', h') ∈ before ++ (t, h) :: after :=
    heq ▸ Std.ExtTreeMap.mem_toList_iff_getElem?_eq_some.mpr ht'
  have hordered := Std.ExtTreeMap.ordered_keys_toList (t := s.trees)
  rw [heq] at hordered
  have hafter : ∀ p ∈ after, compare t p.1 = .lt :=
    (List.pairwise_cons.mp (List.pairwise_append.mp hordered).2.1).1
  rcases List.mem_append.mp hmem with hmem | hmem
  · exact hbefore _ hmem
  · -- neither the tree itself nor one behind it has a smaller id
    rcases List.mem_cons.mp hmem with heq | hmem
    · cases heq
      have hself : compare t t = .eq := Std.ReflCmp.compare_self
      rw [hself] at hlt
      cases hlt
    · have hgt := Std.OrientedCmp.gt_of_lt (hafter _ hmem)
      rw [hlt] at hgt
      cases hgt

/-- Every stored node that has not been verified is genuine if and only if all are. -/
theorem firstStray?_cases (hV : Settled s.nodes V ∅) :
    (s.nodes.Addressed ∧ s.firstStray? V = none) ∨
    ∃ k n, s.nodes[k]? = some n ∧ ¬ (n.hash = k ∧ n.contentHash = k) ∧
      s.firstStray? V = some (k, n) := by
  cases hfirst : s.firstStray? V with
  | none =>
      refine .inl ⟨fun k n hn => ?_, rfl⟩
      by_cases hk : k ∈ V
      · obtain ⟨m, hm, hright⟩ := hV.genuine k hk
        obtain rfl := Option.some.inj (hn.symm.trans hm)
        exact hright
      · have hno := List.find?_eq_none.mp hfirst (k, n)
          (Std.ExtTreeMap.mem_toList_iff_getElem?_eq_some.mpr hn)
        simpa [contains_of_not_mem hk] using hno
  | some p =>
      obtain ⟨k, n⟩ := p
      have hfound := List.find?_some hfirst
      have hmem := List.mem_of_find?_eq_some hfirst
      refine .inr ⟨k, n, Std.ExtTreeMap.mem_toList_iff_getElem?_eq_some.mp hmem, ?_, rfl⟩
      rintro ⟨hhash, hcontent⟩
      simp [hhash, hcontent] at hfound

/-- An audit stops at the first tree that does not pass on its own, or at a stray node if they all
do. -/
theorem audit_cases (s : State) :
    ((∀ (t : TreeId) (h : History), s.trees[t]? = some h → s.auditTree t h = .ok ()) ∧
      ((s.nodes.Addressed ∧ s.audit = .ok ()) ∨
        ∃ k n, s.nodes[k]? = some n ∧ ¬ (n.hash = k ∧ n.contentHash = k) ∧
          s.audit = .error (.integrity (.strayNode k n.contentHash)))) ∨
    ∃ t h, s.trees[t]? = some h ∧ s.PassBefore t ∧
      (((∃ x, s.auditTree t h = .error (.integrity (.damaged t x))) ∧
          ∃ x, s.audit = .error (.integrity (.damaged t x))) ∨
        (s.auditTree t h = .error .endless ∧ s.audit = .error .endless)) := by
  rcases auditTrees_cases s.trees.toList (Settled.empty s.nodes) with
    ⟨hall, V, hV, hok⟩ | ⟨before, t, h, after, heq, hbefore, hstop⟩
  · refine .inl ⟨fun t h ht => ?_, ?_⟩
    · exact hall (t, h) (Std.ExtTreeMap.mem_toList_iff_getElem?_eq_some.mpr ht)
    · rcases firstStray?_cases hV with ⟨ha, hstray⟩ | ⟨k, n, hn, hwrong, hstray⟩
      · exact .inl ⟨ha, by simp only [audit, hok, hstray, bind, Except.bind, pure, Except.pure]⟩
      · refine .inr ⟨k, n, hn, hwrong, ?_⟩
        simp only [audit, hok, hstray, bind, Except.bind, throw, throwThe, MonadExceptOf.throw]
  · have ht : s.trees[t]? = some h :=
      Std.ExtTreeMap.mem_toList_iff_getElem?_eq_some.mp (heq ▸ by simp)
    refine .inr ⟨t, h, ht, passBefore_of_toList heq hbefore, ?_⟩
    rcases hstop with ⟨hown, x, hdamage⟩ | ⟨hown, hendless⟩
    · exact .inl ⟨hown, x, by simp only [audit, hdamage, bind, Except.bind]⟩
    · exact .inr ⟨hown, by simp only [audit, hendless, bind, Except.bind]⟩

end State

/-! ## What an audit does not see -/

namespace History

variable {nodes : NodeMap} {h : History} {n m : Terminal}

/-- The history passes an audit although its last root has a leaf in two places: the index, which
has every leaf once, has other keys besides. -/
structure Padded (nodes : NodeMap) (h : History) : Prop where
  passes : h.Passes nodes
  repeated : ¬ (h.leaves nodes).Nodup

theorem mem_leaves_iff (hr : State.RootedFrom nodes 0 h.roots)
    (hf : (h.walk nodes).failure = none) :
    n ∈ h.leaves nodes ↔ ∃ top, h.latest.node = some top ∧ nodes.Reaches top n.hash ∧
      nodes[n.hash]? = some (.terminal n) := by
  rw [leaves, walk]
  rw [walk] at hf
  cases htop : h.latest.node with
  | none => simp [Trace.done]
  | some top =>
      rw [htop] at hf
      have hunder := hr.reached _ (List.getLast_mem h.roots_ne_nil) top htop
      simp only [List.mem_filterMap, List.mem_map]
      constructor
      · rintro ⟨node, ⟨v, hv, rfl⟩, hn⟩
        obtain ⟨hreach, hget⟩ := (NodeMap.mem_visited_iff hf).mp hv
        obtain ⟨node, hnode, hhash, -⟩ := hunder _ hreach
        obtain rfl := Option.some.inj (hget.symm.trans hnode)
        cases hv' : v.2 with
        | internal m =>
            rw [hv'] at hn
            cases hn
        | terminal m =>
            rw [hv'] at hn hget hhash
            cases hn
            have hhash : n.hash = v.1 := hhash
            exact ⟨top, rfl, hhash ▸ hreach, hhash ▸ hget⟩
      · rintro ⟨_, ⟨rfl⟩, hreach, hget⟩
        exact ⟨.terminal n, ⟨(n.hash, .terminal n), (NodeMap.mem_visited_iff hf).mpr ⟨hreach, hget⟩,
          rfl⟩, rfl⟩

/-- The terminal nodes that the last root reaches are its leaves. -/
theorem exists_terminal_iff (hr : State.RootedFrom nodes 0 h.roots)
    (hf : (h.walk nodes).failure = none) {key : Bytes} {leaf : Hash} :
    (∃ top n, h.latest.node = some top ∧ nodes.Reaches top leaf ∧
      nodes[leaf]? = some (.terminal n) ∧ n.key = key) ↔
    ∃ n ∈ h.leaves nodes, n.key = key ∧ n.hash = leaf := by
  constructor
  · rintro ⟨top, n, htop, hreach, hget, hkey⟩
    obtain ⟨m, hm, hhash, -⟩ :=
      hr.reached _ (List.getLast_mem h.roots_ne_nil) top htop leaf hreach
    obtain rfl := Option.some.inj (hget.symm.trans hm)
    have hhash : n.hash = leaf := hhash
    exact ⟨n, (mem_leaves_iff hr hf).mpr ⟨top, htop, hhash ▸ hreach, hhash ▸ hget⟩, hkey, hhash⟩
  · rintro ⟨n, hn, hkey, rfl⟩
    obtain ⟨top, htop, hreach, hget⟩ := (mem_leaves_iff hr hf).mp hn
    exact ⟨top, n, htop, hreach, hget, hkey⟩

/-- Leaves with the same key are the same, since the index has one of them only. -/
theorem Passes.eq_of_key (hp : h.Passes nodes) (hn : n ∈ h.leaves nodes)
    (hm : m ∈ h.leaves nodes) (hkey : n.key = m.key) : n = m := by
  have hhash : n.hash = m.hash :=
    Option.some.inj ((hp.index.keys n hn).symm.trans (hkey ▸ hp.index.keys m hm))
  obtain ⟨-, -, -, hget⟩ := (mem_leaves_iff hp.roots hp.index.whole).mp hn
  obtain ⟨-, -, -, hget'⟩ := (mem_leaves_iff hp.roots hp.index.whole).mp hm
  rw [hhash, hget'] at hget
  cases hget
  rfl

theorem Passes.nodup_keys_iff (hp : h.Passes nodes) :
    ((h.leaves nodes).map Terminal.key).Nodup ↔ (h.leaves nodes).Nodup := by
  constructor
  · exact List.Nodup.of_map Terminal.key
  · exact List.Nodup.map_on fun _ hn _ hm => hp.eq_of_key hn hm

/-- An index that passes has just the keys of the leaves, unless a leaf has two places. -/
theorem Passes.perm_keys_iff (hp : h.Passes nodes) :
    h.index.keys.keys.Perm ((h.leaves nodes).map Terminal.key) ↔ (h.leaves nodes).Nodup := by
  rw [← hp.nodup_keys_iff]
  constructor
  · intro hperm
    exact hperm.nodup_iff.mp Std.ExtTreeMap.nodup_keys
  · intro hnodup
    have hsub : (h.leaves nodes).map Terminal.key ⊆ h.index.keys.keys := by
      intro key hkey
      obtain ⟨n, hn, rfl⟩ := List.mem_map.mp hkey
      rw [Std.ExtTreeMap.mem_keys, Std.ExtTreeMap.mem_iff_isSome_getElem?, hp.index.keys n hn]
      rfl
    refine ((hnodup.subperm hsub).perm_of_length_le ?_).symm
    rw [Std.ExtTreeMap.length_keys, List.length_map, hp.index.size]

/-- The index of a padded history has a key that the last generation has not. -/
theorem Padded.exists_surplus (hp : h.Padded nodes) :
    ∃ key ∈ h.index.keys, ∀ n ∈ h.leaves nodes, n.key ≠ key := by
  by_contra hno
  have hsub : h.index.keys.keys ⊆ (h.leaves nodes).map Terminal.key := by
    intro key hkey
    by_contra hmissing
    refine hno ⟨key, Std.ExtTreeMap.mem_keys.mp hkey, fun n hn heq => hmissing ?_⟩
    exact List.mem_map.mpr ⟨n, hn, heq⟩
  refine hp.repeated (hp.passes.perm_keys_iff.mp ?_)
  refine (Std.ExtTreeMap.nodup_keys.subperm hsub).perm_of_length_le ?_
  rw [Std.ExtTreeMap.length_keys, List.length_map, hp.passes.index.size]

/-- If no leaf has two places, a history that passes is consistent. -/
theorem Passes.consistent (hp : h.Passes nodes) (hnodup : (h.leaves nodes).Nodup) :
    h.Consistent nodes where
  reached := hp.roots.reached
  generations := fun i r hr => by rw [hp.roots.generations i r hr, Nat.zero_add]
  operations := hp.operations
  index := by
    intro key leaf
    rw [exists_terminal_iff hp.roots hp.index.whole]
    constructor
    · intro hkey
      have hmem : key ∈ h.index.keys.keys := by
        rw [Std.ExtTreeMap.mem_keys, Std.ExtTreeMap.mem_iff_isSome_getElem?, hkey]
        rfl
      obtain ⟨n, hn, rfl⟩ := List.mem_map.mp ((hp.perm_keys_iff.mpr hnodup).mem_iff.mp hmem)
      exact ⟨n, hn, rfl, Option.some.inj ((hp.index.keys n hn).symm.trans hkey)⟩
    · rintro ⟨n, hn, rfl, rfl⟩
      exact hp.index.keys n hn
  keys := by
    intro top htop
    have hwhole := hp.index.whole
    rw [walk, htop] at hwhole
    refine ⟨_, by rw [Trace.nodes, hwhole], ?_⟩
    have hkeys := hp.nodup_keys_iff.mpr hnodup
    rwa [leaves, walk, htop] at hkeys

/-- A consistent history passes, and no leaf has two places. -/
theorem Consistent.passes (hc : h.Consistent nodes) :
    h.Passes nodes ∧ (h.leaves nodes).Nodup := by
  have hroots : State.RootedFrom nodes 0 h.roots :=
    ⟨fun i r hr => by rw [hc.generations i r hr, Nat.zero_add], hc.reached⟩
  have hwhole : (h.walk nodes).failure = none ∧ ((h.leaves nodes).map Terminal.key).Nodup := by
    rw [leaves, walk]
    cases htop : h.latest.node with
    | none => exact ⟨rfl, .nil⟩
    | some top =>
        obtain ⟨ns, hns, hnodup⟩ := hc.keys top htop
        cases hf : (nodes.preorder top).failure with
        | some e =>
            rw [Trace.nodes, hf] at hns
            cases hns
        | none =>
            rw [Trace.nodes, hf] at hns
            cases hns
            exact ⟨rfl, hnodup⟩
  obtain ⟨hwhole, hnodup⟩ := hwhole
  have hindex : ∀ (key : Bytes) (leaf : Hash), h.index.keys[key]? = some leaf ↔
      ∃ n ∈ h.leaves nodes, n.key = key ∧ n.hash = leaf := fun key leaf =>
    (hc.index key leaf).trans (exists_terminal_iff hroots hwhole)
  have hperm : h.index.keys.keys.Perm ((h.leaves nodes).map Terminal.key) := by
    refine (List.perm_ext_iff_of_nodup Std.ExtTreeMap.nodup_keys hnodup).mpr fun key => ?_
    rw [Std.ExtTreeMap.mem_keys, Std.ExtTreeMap.mem_iff_isSome_getElem?, Option.isSome_iff_exists]
    constructor
    · rintro ⟨leaf, hleaf⟩
      obtain ⟨n, hn, rfl, -⟩ := (hindex key leaf).mp hleaf
      exact List.mem_map_of_mem hn
    · intro hkey
      obtain ⟨n, hn, rfl⟩ := List.mem_map.mp hkey
      exact ⟨n.hash, (hindex n.key n.hash).mpr ⟨n, hn, rfl, rfl⟩⟩
  refine ⟨⟨hroots, hc.operations, hwhole, fun n hn => ?_, ?_⟩, .of_map _ hnodup⟩
  · exact (hindex n.key n.hash).mpr ⟨n, hn, rfl, rfl⟩
  · rw [← Std.ExtTreeMap.length_keys, hperm.length_eq, List.length_map]

/-- What passes an audit is consistent or padded. -/
theorem passes_iff : h.Passes nodes ↔ h.Consistent nodes ∨ h.Padded nodes := by
  constructor
  · intro hp
    by_cases hnodup : (h.leaves nodes).Nodup
    · exact .inl (hp.consistent hnodup)
    · exact .inr ⟨hp, hnodup⟩
  · rintro (hc | hp)
    · exact hc.passes.1
    · exact hp.passes

end History

/-! ## Audits of a store -/

namespace State

variable {s : State} {t : TreeId} {h : History}

/-- Without a cycle of genuine nodes no audit of a tree is endless. -/
theorem auditTree_ne_endless (hacyclic : s.nodes.Acyclic) (t : TreeId) (h : History) :
    s.auditTree t h ≠ .error .endless := by
  intro hendless
  rcases auditTree_cases s t h with ⟨-, hok⟩ | ⟨-, x, hdamage⟩ | ⟨hr, hf, -⟩
  · rw [hok] at hendless
    cases hendless
  · rw [hdamage] at hendless
    cases hendless
  · rw [History.walk] at hf
    cases htop : h.latest.node with
    | none =>
        rw [htop] at hf
        cases hf
    | some top =>
        have hunder := hr.reached _ (List.getLast_mem h.roots_ne_nil) top htop
        rw [htop] at hf
        cases (hunder.failure_preorder hacyclic).symm.trans hf

theorem auditTree_eq_ok_iff (hacyclic : s.nodes.Acyclic) :
    s.auditTree t h = .ok () ↔ h.Consistent s.nodes ∨ h.Padded s.nodes := by
  rw [← History.passes_iff]
  rcases auditTree_cases s t h with ⟨hp, hok⟩ | ⟨hno, x, hdamage⟩ | ⟨-, -, hendless⟩
  · exact ⟨fun _ => hp, fun _ => hok⟩
  · constructor
    · intro hok
      cases hdamage.symm.trans hok
    · exact fun hp => absurd hp hno
  · exact absurd hendless (auditTree_ne_endless hacyclic t h)

end State

namespace Store

/-- An audit of any store without a cycle of genuine nodes comes to an end, and has one of three
outcomes. It finds nothing, and then every tree is consistent or padded, and every stored node is
found under the hash of its content. Or it blames the first tree in the order of ids that is neither
consistent nor padded, and takes just this tree out of service. Or there is no such tree, and it
finds a node stored under another hash and blames no tree. -/
theorem audit_of_acyclic (s : Store) (hacyclic : s.state.nodes.Acyclic) :
    let Fine (h : History) := h.Consistent s.state.nodes ∨ h.Padded s.state.nodes
    (Store.audit s = (.ok (), s) ∧ s.state.nodes.Addressed ∧
      ∀ (t : TreeId) (h : History), s.state.trees[t]? = some h → Fine h) ∨
    (∃ t h x, Store.audit s = (.error (.integrity (.damaged t x)), s.takeOutOfService t) ∧
      s.state.trees[t]? = some h ∧ ¬ Fine h ∧
      ∀ (t' : TreeId) (h' : History), s.state.trees[t']? = some h' → compare t' t = .lt →
        Fine h') ∨
    (∃ k n, Store.audit s = (.error (.integrity (.strayNode k n.contentHash)), s) ∧
      s.state.nodes[k]? = some n ∧ ¬ (n.hash = k ∧ n.contentHash = k) ∧
      ∀ (t : TreeId) (h : History), s.state.trees[t]? = some h → Fine h) := by
  intro Fine
  have hfine (t : TreeId) (h : History) : s.state.auditTree t h = .ok () ↔ Fine h :=
    State.auditTree_eq_ok_iff hacyclic
  rcases State.audit_cases s.state with
    ⟨hall, ⟨ha, hok⟩ | ⟨k, n, hn, hwrong, herror⟩⟩ | ⟨t, h, ht, hbefore, hstop⟩
  · refine .inl ⟨by simp only [Store.audit, hok], ha, fun t h ht => ?_⟩
    exact (hfine t h).mp (hall t h ht)
  · refine .inr (.inr ⟨k, n, by simp only [Store.audit, herror, Violation.tree?], hn, hwrong,
      fun t h ht => ?_⟩)
    exact (hfine t h).mp (hall t h ht)
  · rcases hstop with ⟨⟨x, hown⟩, y, herror⟩ | ⟨hown, -⟩
    · refine .inr (.inl ⟨t, h, y, by simp only [Store.audit, herror, Violation.tree?], ht, ?_, ?_⟩)
      · intro hfine'
        cases ((hfine t h).mpr hfine').symm.trans hown
      · exact fun t' h' ht' hlt => (hfine t' h').mp (hbefore t' h' ht' hlt)
    · exact absurd hown (State.auditTree_ne_endless hacyclic t h)

/-- A tree with two keys gets a root with the leaf of one of them in both places. -/
def paddedDeeds : List Deed :=
  let leaf := Terminal.ofPair [1] [10]
  let twice := Internal.ofPair leaf.hash leaf.hash
  [.call (.addTree sampleTree), .call (.insert sampleTree [1] [10] none none),
    .call (.insert sampleTree [2] [20] (some leaf.hash) (some .right)),
    .commit (((Transaction.empty.addNode ∅ (.internal twice)).add
      (.root ⟨sampleTree, 3, some twice.hash, .pending⟩)).add
        (.operation sampleTree 3 (.insertion ⟨twice.hash, [2], [20], none, none, .pending⟩)))]

/-- A tree behind the first one. -/
def lostTree : TreeId := ⟨.replicate 8⟩

/-- The same, and then a root of another tree that leads to no node. -/
def damagedDeeds : List Deed :=
  paddedDeeds ++
    [.commit (Transaction.empty.add (.root ⟨lostTree, 0, some (.terminal [3] [30]), .pending⟩))]

/-- An audit of both trees goes past the padded one and blames the other one. -/
theorem audit_of_damagedDeeds :
    let s := damagedDeeds.foldl Deed.after .volatile
    let Fine (h : History) := h.Consistent s.state.nodes ∨ h.Padded s.state.nodes
    s.state.nodes.Acyclic ∧ ∃ h x,
      Store.audit s = (.error (.integrity (.damaged lostTree x)), s.takeOutOfService lostTree) ∧
      s.state.trees[lostTree]? = some h ∧ ¬ Fine h ∧
      ∀ (t' : TreeId) (h' : History), s.state.trees[t']? = some h' → compare t' lostTree = .lt →
        Fine h' := by
  intro s Fine
  have hsample : (∀ v ∈ s.state.nodes.toList, (s.state.nodes.preorder v.1).failure.isNone = true) ∧
      (Store.audit s).1 = .error (.integrity (.damaged lostTree
        (.missingNode (.terminal [3] [30])))) := by decide +kernel
  obtain ⟨hwalks, heval⟩ := hsample
  have hacyclic := NodeMap.acyclic_of_forall_toList hwalks
  refine ⟨hacyclic, ?_⟩
  rcases audit_of_acyclic s hacyclic with
    ⟨hok, -⟩ | ⟨t, h, x, hblamed, ht, hbefore⟩ | ⟨k, n, hstray, -⟩
  · rw [hok] at heval
    cases heval
  · rw [hblamed] at heval
    cases heval
    exact ⟨h, _, hblamed, ht, hbefore⟩
  · rw [hstray] at heval
    cases heval

/-- An audit finds nothing wrong with the padded tree. -/
theorem padded_unnoticed :
    let s := paddedDeeds.foldl Deed.after .volatile
    s.state.nodes.Acyclic ∧ Store.audit s = (.ok (), s) ∧
      ∃ h, s.state.trees[sampleTree]? = some h ∧ ¬ h.Consistent s.state.nodes := by
  intro s
  have heval : (∀ v ∈ s.state.nodes.toList, (s.state.nodes.preorder v.1).failure.isNone = true) ∧
      s.state.audit.toOption = some () ∧
      s.state.trees[sampleTree]?.map (History.leaves s.state.nodes) =
        some [.ofPair [1] [10], .ofPair [1] [10]] := by decide +kernel
  obtain ⟨hwalks, haudit, hleaves⟩ := heval
  obtain ⟨h, ht, hleaves⟩ := Option.map_eq_some_iff.mp hleaves
  have hpasses : Store.audit s = (.ok (), s) := by
    simp only [Store.audit, eq_ok_of_toOption haudit]
  refine ⟨NodeMap.acyclic_of_forall_toList hwalks, hpasses, h, ht, fun hc => ?_⟩
  have hnodup := hc.passes.2
  rw [hleaves] at hnodup
  simp at hnodup

end Store

end MerkleStore
