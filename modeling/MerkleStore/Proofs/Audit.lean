import MerkleStore.Proofs.Calls
import MerkleStore.Store.Audit

/-!
# Auditing a sound state

An audit of a sound state finds nothing: everything under a root is a stored tree, so
that it is verified whatever has been verified before (`exists_verifyWithin`), the
operations are those of the edits that made the generations, and the index has exactly
the leaves of the last one (`State.Sound.audit`).
-/

namespace MerkleStore

namespace State

variable {s : State} {t : TreeId} {h : History} {v : Version} {es : List Edit}

/-- A stored tree is verified. -/
theorem exists_verifyWithin {a : Tree} {depth : Nat} (ha : a.MadeOf s.nodes.stored)
    (hd : a.height ≤ depth) (verified : Verified) :
    ∃ verified', s.verifyWithin t depth verified a.hash = .ok verified' := by
  induction a generalizing depth verified with
  | leaf key value =>
      obtain ⟨depth, rfl⟩ : ∃ k, depth = k + 1 := ⟨depth - 1, by simp [Tree.height] at hd; omega⟩
      rw [verifyWithin]
      split
      · exact ⟨_, rfl⟩
      · simp only [NodeMap.getElem?_top ha]
        rw [if_neg (by simp)]
        exact ⟨_, rfl⟩
  | branch l r ihl ihr =>
      obtain ⟨depth, rfl⟩ : ∃ k, depth = k + 1 := ⟨depth - 1, by simp [Tree.height] at hd; omega⟩
      simp only [Tree.height] at hd
      rw [verifyWithin]
      split
      · exact ⟨_, rfl⟩
      · obtain ⟨left, hleft⟩ := ihl ha.left (show l.height ≤ depth by omega)
          (verified.insert (Tree.branch l r).hash)
        obtain ⟨right, hright⟩ := ihr ha.right (show r.height ≤ depth by omega) left
        simp only [NodeMap.getElem?_top ha]
        rw [if_neg (by simp)]
        refine ⟨right, ?_⟩
        simp only [Tree.node, Internal.ofPair, bind, Except.bind, hleft, hright]

/-- The roots of versions that are stored are verified. -/
theorem exists_verifyRoots {roots : List Root} {position : Nat} {vs : List Version}
    (hg : ∀ (i : Nat) (r : Root), roots[i]? = some r → r.generation = position + i)
    (hnodes : roots.map Root.node = vs.map Version.hash)
    (hvs : ∀ v ∈ vs, v.MadeOf s.nodes.stored) (verified : Verified) :
    ∃ verified', s.verifyRoots t position verified roots = .ok verified' := by
  induction roots generalizing position vs verified with
  | nil => exact ⟨verified, rfl⟩
  | cons r roots ih =>
      cases vs with
      | nil => simp at hnodes
      | cons v vs =>
          simp only [List.map_cons, List.cons.injEq] at hnodes
          have hposition : r.generation = position := hg 0 r rfl
          have hgenerations : ∀ (i : Nat) (r : Root), roots[i]? = some r →
              r.generation = position + 1 + i := fun i r' hr' => by
            rw [hg (i + 1) r' hr']
            omega
          have hrest := ih hgenerations hnodes.2 fun v hv => hvs v (List.mem_cons_of_mem _ hv)
          have hstored := hvs v List.mem_cons_self
          cases v with
          | none =>
              obtain ⟨verified', hroots⟩ := hrest verified
              refine ⟨verified', ?_⟩
              simp [verifyRoots, hposition, hnodes.1, Version.hash, hroots, bind, Except.bind, pure,
                Except.pure]
          | some a =>
              have hheight := NodeMap.height_le_size hstored
              obtain ⟨verified', hverify⟩ := exists_verifyWithin (t := t) hstored
                (show a.height ≤ s.nodes.size + 2 by omega) verified
              obtain ⟨verified'', hroots⟩ := hrest verified'
              refine ⟨verified'', ?_⟩
              simp [verifyRoots, hposition, hnodes.1, Version.hash, verify, hverify, hroots, bind,
                Except.bind]

/-- The operation of every generation has the hash at its root. -/
theorem auditOperations_made (hm : h.Made s.nodes t es v) : auditOperations t h = .ok () := by
  have hagree : ∀ p ∈ h.operations.zip h.roots.tail, p.1.root = p.2.node := by
    rintro ⟨o, r⟩ hp
    obtain ⟨i, hi⟩ := List.mem_iff_getElem?.mp hp
    obtain ⟨ho, hr⟩ := List.getElem?_zip_eq_some.mp hi
    have hi := congrArg (·[i]?) hm.root_operations
    simp only [List.getElem?_map, ho, hr, Option.map_some, Option.some.injEq] at hi
    exact hi
  have hfind : (h.operations.zip h.roots.tail).find? (fun p => p.1.root != p.2.node) = none := by
    rw [List.find?_eq_none]
    intro p hp
    simp [hagree p hp]
  rw [auditOperations, if_neg (by simpa using hm.inOrder.operations), hfind]

/-- The index has the leaves of the last version and nothing else. -/
theorem auditIndex_shows (hs : h.Shows s.nodes v) : s.auditIndex t h = .ok () := by
  have hunindexed : firstUnindexed? h.index v.leaves = none := by
    rw [firstUnindexed?, List.find?_eq_none]
    intro n hn
    simp [(hs.index.keys n.key n.hash).mpr ⟨n, hn, rfl, rfl⟩]
  have hsize := hs.index.size_keys hs.distinct
  rw [auditIndex, hs.root]
  cases v with
  | none =>
      simp only [Version.leaves] at hunindexed hsize
      simp [Version.hash, Trace.done, hunindexed, hsize]
  | some a =>
      have hwalk := NodeMap.preorder_hash hs.stored
      have hleaves : ((a.subtrees.map NodeMap.visit).map Prod.snd).filterMap Node.terminal? =
          a.leaves := by
        rw [List.map_map]
        exact NodeMap.filterMap_terminal?_subtrees a
      simp only [Version.leaves] at hunindexed hsize
      simp only [Version.hash, Option.map_some, hwalk, hleaves, hunindexed]
      rw [if_neg (by simp [hsize])]

/-- An audit of a sound state finds nothing. -/
theorem Sound.audit (hs : s.Sound) : s.audit = .ok () := by
  have htrees (trees : List (TreeId × History)) (verified : Verified)
      (hall : ∀ p ∈ trees, s.trees[p.1]? = some p.2) :
      ∃ verified', s.auditTrees verified trees = .ok verified' := by
    induction trees generalizing verified with
    | nil => exact ⟨verified, rfl⟩
    | cons p trees ih =>
        obtain ⟨t, h⟩ := p
        obtain ⟨es, v, hm⟩ := hs.trees t h (hall (t, h) List.mem_cons_self)
        obtain ⟨verified', hroots⟩ := exists_verifyRoots (t := t)
          (fun i r hr => by rw [(hm.inOrder.root i r hr).2, Nat.zero_add]) hm.roots
          (fun v hv => hm.stored_versions hv) verified
        obtain ⟨verified'', hrest⟩ := ih verified' fun p hp => hall p (List.mem_cons_of_mem _ hp)
        refine ⟨verified'', ?_⟩
        simp only [auditTrees, bind, Except.bind, hroots, auditOperations_made hm,
          auditIndex_shows hm.shows, hrest]
  obtain ⟨verified, haudit⟩ := htrees s.trees.toList ∅ fun p hp =>
    Std.ExtTreeMap.mem_toList_iff_getElem?_eq_some.mp hp
  have hstray : s.firstStray? verified = none := by
    rw [firstStray?, List.find?_eq_none]
    rintro ⟨k, n⟩ hn
    rw [Std.ExtTreeMap.mem_toList_iff_getElem?_eq_some] at hn
    obtain ⟨hhash, hcontent⟩ := hs.nodes.hash_eq hn
    simp [hhash, hcontent]
  simp only [State.audit, haudit, bind, Except.bind, hstray, pure, Except.pure]

end State

namespace Store

theorem Intact.audit {s : Store} {U : Set Node} (hs : s.Intact U) : audit s = (.ok (), s) := by
  simp only [Store.audit, hs.sound.audit]

end Store

end MerkleStore
