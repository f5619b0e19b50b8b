import MerkleStore.Proofs.Advancing
import MerkleStore.Proofs.Confirming
import MerkleStore.Proofs.Consistency
import MerkleStore.Proofs.Oversized

/-!
# What an insertion does

An insertion needs a place (`Store.HasPlace`): a key that is not there, and for a tree that is not
empty a side of a node that is there. With a place it goes through, unless the journal refuses the
frame, and without one it fails. Then one subtree of the tree, the one with the hash that was given,
is exchanged for the branch of this subtree and the new leaf, so that the leaf is listed right in
front of the leaves of the subtree or right behind them (`insertion_exact`). In an empty
tree there is nothing to be beside of, and no side is logged, even if one was given. A
journal does refuse the frame of a value that overflows its codec
(`refuses_of_overflows`).
-/

namespace MerkleStore

open MerkleStore.Tree

/-- A leaf in front of others or behind them. -/
def Side.put (n : Terminal) (ns : List Terminal) : Side → List Terminal
  | left => n :: ns
  | right => ns ++ [n]

namespace Tree

variable {c : Tree} {path : List Fork} {key value : Bytes} {side : Side}

/-- A tree with a new leaf beside the subtree at the end of a path. -/
def joined (c : Tree) (path : List Fork) (side : Side) (key value : Bytes) : Tree :=
  plug ((⟨leaf key value, side⟩ : Fork).fill c) path

/-- The new leaf is listed beside the leaves of the subtree. -/
theorem leaves_joined (c : Tree) (path : List Fork) (side : Side) (key value : Bytes) :
    (joined c path side key value).leaves =
      before path ++ side.put (.ofPair key value) c.leaves ++ after path := by
  rw [joined, leaves_plug]
  cases side <;> rfl

/-- In a stored tree of distinct keys a hash has one place. -/
theorem place_unique {U : Set Node} (hU : Set.InjOn Node.hash U) {t c c' : Tree}
    {path path' : List Fork} (hm : t.MadeOf U) (hd : t.Distinct) (hc : plug c path = t)
    (hc' : plug c' path' = t) (hhash : c'.hash = c.hash) : c' = c ∧ path' = path := by
  have hfind : t.find? c.hash = some (c, path) := by
    subst hc
    exact find?_plug hU hm hd
  have hfind' : t.find? c'.hash = some (c', path') := by
    subst hc'
    exact find?_plug hU hm hd
  rw [hhash, hfind, Option.some.injEq, Prod.mk.injEq] at hfind'
  exact ⟨hfind'.1.symm, hfind'.2.symm⟩

end Tree

namespace Version

variable {v : Version} {t : TreeId} {e : Edit} {key value : Bytes} {reference : Option Hash}
  {side : Option Side}

/-- Into the empty tree the first leaf is put, beside nothing. -/
theorem eq_of_insertionEdit_none
    (h : Version.insertionEdit none t key value reference side = .ok e) :
    reference = none ∧ e = .first key value := by
  cases reference with
  | none =>
      cases h
      exact ⟨rfl, rfl⟩
  | some r => cases h

/-- Into any other tree the leaf is put beside the subtree with the hash of the reference. -/
theorem eq_of_insertionEdit_some {top : Tree}
    (h : Version.insertionEdit (some top) t key value reference side = .ok e) :
    ∃ c path d, reference = some c.hash ∧ side = some d ∧ plug c path = top ∧
      e = .beside c path d key value := by
  unfold insertionEdit at h
  split at h
  · cases h
  · cases reference with
    | none => cases h
    | some r =>
        cases side with
        | none => cases h
        | some d =>
            cases hf : top.find? r with
            | none => simp [hf] at h
            | some found =>
                obtain ⟨c, path⟩ := found
                obtain ⟨hplug, rfl⟩ := plug_of_find? hf
                simp only [hf, Except.ok.injEq] at h
                exact ⟨c, path, d, rfl, rfl, hplug, h.symm⟩

/-- The operation of an insertion holds its value. -/
theorem exists_operation_of_insertionEdit
    (h : v.insertionEdit t key value reference side = .ok e) :
    ∃ d, e.operation = .insertion d ∧ d.value = value := by
  cases v with
  | none =>
      obtain ⟨-, rfl⟩ := eq_of_insertionEdit_none h
      exact ⟨_, rfl, rfl⟩
  | some top =>
      obtain ⟨c, path, d, -, -, -, rfl⟩ := eq_of_insertionEdit_some h
      exact ⟨_, rfl, rfl⟩

/-- An insertion has an edit if the key is not there, and beside a node that is there or into the
empty tree. -/
theorem exists_insertionEdit_iff : (∃ e, v.insertionEdit t key value reference side = .ok e) ↔
    key ∉ v.keys ∧ (v = none ∧ reference = none ∨
      ∃ top c d, v = some top ∧ c ∈ top.subtrees ∧ reference = some c.hash ∧ side = some d) := by
  constructor
  · rintro ⟨e, he⟩
    refine ⟨fun hkey => by simp [insertionEdit, hkey] at he, ?_⟩
    cases v with
    | none => exact .inl ⟨rfl, (eq_of_insertionEdit_none he).1⟩
    | some top =>
        obtain ⟨c, path, d, rfl, rfl, rfl, -⟩ := eq_of_insertionEdit_some he
        exact .inr ⟨_, c, d, rfl, mem_subtrees_plug_self c path, rfl, rfl⟩
  · rintro ⟨hkey, ⟨rfl, rfl⟩ | ⟨top, c, d, rfl, hc, rfl, rfl⟩⟩
    · exact ⟨.first key value, by simp [insertionEdit, hkey]⟩
    · cases hf : top.find? c.hash with
      | none => exact absurd rfl (hash_ne_of_find?_eq_none hf hc)
      | some found =>
          exact ⟨.beside found.1 found.2 d key value, by simp [insertionEdit, hkey, hf]⟩

end Version

namespace Store

/-- There is a place for an insertion: the key is not listed, and either the tree is empty and
no reference is given, or a side is given and the latest root leads to the reference. -/
structure HasPlace (s : Store) (t : TreeId) (h : History) (key : Bytes) (reference : Option Hash)
    (side : Option Side) : Prop where
  fresh : ∃ leaves, s.keysValues t none = .ok leaves ∧ key ∉ leaves.map Terminal.key
  place : h.latest.node = none ∧ reference = none ∨ ∃ root r d, h.latest.node = some root ∧
    reference = some r ∧ side = some d ∧ s.state.nodes.Reaches root r

/-- What an insertion into a tree that shows a version does. -/
structure Inserts (s : Store) (t : TreeId) (h : History) (v : Version) (key value : Bytes)
    (reference : Option Hash) (side : Option Side) : Prop where
  /-- It goes through where there is a place, unless the journal refuses the frame. -/
  succeeds : s.HasPlace t h key reference side →
    (∃ s', insert t key value reference side s = (.ok (.terminal key value), s')) ∨
      s.Refuses (insert t key value reference side)
  /-- It goes through nowhere else, and gives the hash of the new leaf. -/
  only : ∀ k s', insert t key value reference side s = (.ok k, s') →
    s.HasPlace t h key reference side ∧ k = .terminal key value
  /-- If it fails, nothing happens. -/
  fails : ∀ err s', insert t key value reference side s = (.error err, s') → s' = s
  /-- The new leaf is the whole of a tree that was empty. -/
  first : ∀ k s', v = none → insert t key value reference side s = (.ok k, s') →
    s.Advanced s' t h (some (leaf key value))
      (.insertion ⟨.terminal key value, key, value, none, none, .pending⟩)
  /-- In any other tree the subtree with the hash of the reference, which has one place there, is
  exchanged for its branch with the new leaf. -/
  beside : ∀ k s' top, v = some top → insert t key value reference side s = (.ok k, s') →
    ∃ c path d, reference = some c.hash ∧ side = some d ∧ plug c path = top ∧
      (∀ c' path', plug c' path' = top → c'.hash = c.hash → c' = c ∧ path' = path) ∧
      s.Advanced s' t h (some (joined c path d key value))
        (.insertion ⟨(joined c path d key value).hash, key, value, reference, side, .pending⟩) ∧
      ∃ before after, top.leaves = before ++ c.leaves ++ after ∧
        s'.keysValues t none = .ok (before ++ d.put (.ofPair key value) c.leaves ++ after)

variable {s : Store} {t : TreeId} {h : History} {v : Version} {U : Set Node} {key value : Bytes}
  {reference : Option Hash} {side : Option Side}

/-- There is a place for an insertion where the version has an edit for it. -/
theorem Serves.hasPlace_iff (hv : s.Serves t h v) :
    s.HasPlace t h key reference side ↔
      ∃ e, v.insertionEdit t key value reference side = .ok e := by
  have hroot := hv.shows.root
  have hfresh : (∃ leaves, s.keysValues t none = .ok leaves ∧ key ∉ leaves.map Terminal.key) ↔
      key ∉ v.keys := by
    simp only [keysValues_latest hv, Except.ok.injEq, exists_eq_left']
    rfl
  have hplace : (h.latest.node = none ∧ reference = none ∨ ∃ root r d, h.latest.node = some root ∧
      reference = some r ∧ side = some d ∧ s.state.nodes.Reaches root r) ↔
      (v = none ∧ reference = none ∨
        ∃ top c d, v = some top ∧ c ∈ top.subtrees ∧ reference = some c.hash ∧ side = some d) := by
    rw [hroot]
    cases v with
    | none => simp [Version.hash]
    | some top =>
        have hreaches (r : Hash) := NodeMap.reaches_iff (k := r) hv.shows.stored
        constructor
        · rintro (⟨hnone, -⟩ | ⟨root, r, d, hsome, rfl, rfl, hr⟩)
          · cases hnone
          · cases hsome
            obtain ⟨c, hc, rfl⟩ := (hreaches r).mp hr
            exact .inr ⟨top, c, d, rfl, hc, rfl, rfl⟩
        · rintro (⟨hnone, -⟩ | ⟨_, c, d, ⟨rfl⟩, hc, rfl, rfl⟩)
          · cases hnone
          · exact .inr ⟨_, _, d, rfl, rfl, rfl, (hreaches _).mpr ⟨c, hc, rfl⟩⟩
  rw [Version.exists_insertionEdit_iff, ← hfresh, ← hplace]
  exact ⟨fun hp => ⟨hp.fresh, hp.place⟩, fun hp => ⟨hp.1, hp.2⟩⟩

/-- An insertion fails as the version says, makes its edit, or is refused by the journal. -/
theorem Serves.insert_cases (hs : s.Intact U) (hU : Set.InjOn Node.hash U) (hv : s.Serves t h v)
    (hn : ∀ n ∈ s.state.insertionNodes t key value reference side, n ∈ U) :
    (∃ err, v.insertionEdit t key value reference side = .error err ∧
      insert t key value reference side s = (.error err, s)) ∨
    ∃ e, v.insertionEdit t key value reference side = .ok e ∧
      ((∃ s', insert t key value reference side s = (.ok (.terminal key value), s') ∧
        s.Advanced s' t h e.target e.operation) ∨
      ∃ err, insert t key value reference side s = (.error err, s) ∧ err.refusesFrame = true ∧
        ∃ f, s.journal = some f) := by
  rw [insert_eq]
  simp only [bind, pure, Action.andThen_done]
  rcases carryOut_advances hs hU hv
      (o := .insertion ⟨default, key, value, reference, side, .pending⟩) hn with
    ⟨err, he, heq⟩ | ⟨e, he, ⟨s', heq, hadvanced⟩ | ⟨err, heq, hrefused⟩⟩
  · exact .inl ⟨err, he, by rw [heq]; rfl⟩
  · exact .inr ⟨e, he, .inl ⟨s', by rw [heq]; rfl, hadvanced⟩⟩
  · exact .inr ⟨e, he, .inr ⟨err, by rw [heq]; rfl, hrefused⟩⟩

/-- An insertion does what is said of it to a tree of an intact store. -/
theorem Serves.inserts (hs : s.Intact U) (hU : Set.InjOn Node.hash U) (hv : s.Serves t h v)
    (hn : ∀ n ∈ s.state.insertionNodes t key value reference side, n ∈ U) :
    s.Inserts t h v key value reference side := by
  have hplace : s.HasPlace t h key reference side ↔
      ∃ e, v.insertionEdit t key value reference side = .ok e := hv.hasPlace_iff
  rcases hv.insert_cases hs hU hn with
    ⟨err, he, heq⟩ | ⟨e, he, ⟨s₁, heq, hadvanced⟩ | ⟨err, heq, hrefused⟩⟩
  · constructor
    · intro hp
      obtain ⟨e, he'⟩ := hplace.mp hp
      rw [he] at he'
      cases he'
    all_goals simp [heq]
  · constructor
    · exact fun _ => .inl ⟨s₁, heq⟩
    · simp only [heq]
      rintro k s' ⟨⟩
      exact ⟨hplace.mpr ⟨e, he⟩, rfl⟩
    · simp [heq]
    · rintro k s' rfl hk
      rw [heq] at hk
      cases hk
      obtain ⟨-, rfl⟩ := Version.eq_of_insertionEdit_none he
      exact hadvanced
    · rintro k s' top rfl hk
      rw [heq] at hk
      cases hk
      obtain ⟨c, path, d, rfl, rfl, rfl, rfl⟩ := Version.eq_of_insertionEdit_some he
      have hunique {c' : Tree} {path' : List Fork} (hc' : plug c' path' = plug c path)
          (hhash : c'.hash = c.hash) : c' = c ∧ path' = path :=
        place_unique (NodeMap.injOn_hash_stored _) hv.shows.stored hv.shows.distinct rfl hc' hhash
      refine ⟨c, path, d, rfl, rfl, rfl, fun _ _ => hunique, hadvanced, Tree.before path,
        Tree.after path, leaves_plug c path, ?_⟩
      rw [← leaves_joined]
      exact hadvanced.listing
  · constructor
    · exact fun _ => .inr ⟨by rw [heq]; exact hrefused.1, hrefused.2⟩
    all_goals simp [heq]

end Store

/-- In every state that a run without a collision leads to, an insertion puts its leaf beside the
reference, where there is a place for it, and does nothing else. -/
theorem insertion_exact {s₀ : Store} (hnew : s₀.IsNew) {steps : List Step} {t : TreeId}
    {key value : Bytes} {reference : Option Hash} {side : Option Side}
    (hc : CollisionFree
      (contents s₀ (steps ++ [.call (.insert t key value reference side)]))) :
    ∃ s, run s₀ steps = .ok s ∧ ∀ h, s.state.trees[t]? = some h →
      ∃ v, s.Serves t h v ∧ s.keysValues t none = .ok v.leaves ∧
        s.Inserts t h v key value reference side := by
  obtain ⟨s, U, hrun, hs, hU, hn, -⟩ := exists_run_before hnew hc
  refine ⟨s, hrun, fun h ht => ?_⟩
  obtain ⟨-, v, -, hv⟩ := hs.exists_serves ht
  exact ⟨v, hv, Store.keysValues_latest hv, hv.inserts hs hU hn⟩

/-- A second key is put to the left of the first one. -/
theorem insertion_of_sampleSteps :
    let steps := sampleSteps.take 2
    let reference := Hash.terminal [1] [10]
    CollisionFree (contents .volatile
      (steps ++ [.call (.insert sampleTree [2] [20] (some reference) (some .left))])) ∧
    ∃ s h v s', run .volatile steps = .ok s ∧ s.state.trees[sampleTree]? = some h ∧
      Store.insert sampleTree [2] [20] (some reference) (some .left) s =
        (.ok (.terminal [2] [20]), s') ∧
      s.Inserts sampleTree h v [2] [20] (some reference) (some .left) := by
  intro steps reference
  have hc : CollisionFree (contents .volatile
      (steps ++ [.call (.insert sampleTree [2] [20] (some reference) (some .left))])) := by
    decide +kernel
  obtain ⟨s, hrun, hinserts⟩ := insertion_exact (.inl rfl) hc
  have heval : (do
      let s ← (run .volatile steps).toOption
      let _ ← s.state.trees[sampleTree]?
      (Store.insert sampleTree [2] [20] (some reference) (some .left) s).1.toOption) =
        some (.terminal [2] [20]) := by
    decide +kernel
  simp only [hrun, Except.toOption, bind, Option.bind_some, Option.bind_eq_some_iff] at heval
  obtain ⟨h, ht, hk⟩ := heval
  obtain ⟨v, -, -, hv⟩ := hinserts h ht
  exact ⟨hc, s, h, v, _, hrun, ht, Prod.ext (eq_ok_of_toOption hk) rfl, hv⟩

/-- In an empty tree there is nothing to the left of which the first key could be, and no side is
logged. -/
theorem unlogged_side : ∃ s s',
    run .volatile [.call (.addTree sampleTree)] = .ok s ∧
    Store.insert sampleTree [1] [10] none (some .left) s = (.ok (.terminal [1] [10]), s') ∧
    s'.operations sampleTree 0 1 =
      .ok [.insertion ⟨.terminal [1] [10], [1], [10], none, none, .pending⟩] := by
  have heval : (do
      let s ← (run .volatile [.call (.addTree sampleTree)]).toOption
      let inserted := Store.insert sampleTree [1] [10] none (some .left) s
      return (inserted.1.toOption, (inserted.2.operations sampleTree 0 1).toOption)) =
        some (some (.terminal [1] [10]),
          some [.insertion ⟨.terminal [1] [10], [1], [10], none, none, .pending⟩]) := by
    decide +kernel
  obtain ⟨s, hrun, heval⟩ := Option.bind_eq_some_iff.mp heval
  obtain ⟨hinserted, hoperations⟩ := Prod.mk.inj (Option.some.inj heval)
  exact ⟨s, _, eq_ok_of_toOption hrun, Prod.ext (eq_ok_of_toOption hinserted) rfl,
    eq_ok_of_toOption hoperations⟩

theorem run_append_insert {s₀ s s' : Store} {steps : List Step} {t : TreeId} {key value : Bytes}
    {reference : Option Hash} {side : Option Side} {k : Hash} (hrun : run s₀ steps = .ok s)
    (hinsert : Store.insert t key value reference side s = (.ok k, s')) :
    run s₀ (steps ++ [.call (.insert t key value reference side)]) = .ok s' := by
  have hstep : ((Call.insert t key value reference side).perform s).2 = s' := by
    simp only [Call.perform, bind, Action.andThen, hinsert, pure, Action.done]
  rw [run] at hrun ⊢
  rw [List.foldlM_append, hrun, ← hstep]
  rfl

/-- If a value overflows the codec of the file, the journal refuses the insertion wherever there is
a place for it. -/
theorem refuses_of_overflows {z : Codec} {steps : List Step} {t : TreeId} {key value : Bytes}
    {reference : Option Hash} {side : Option Side} (hz : z.Overflows value)
    (hc : CollisionFree
      (contents (.create z) (steps ++ [.call (.insert t key value reference side)]))) :
    ∃ s, run (.create z) steps = .ok s ∧ ∀ h, s.state.trees[t]? = some h →
      s.HasPlace t h key reference side → s.Refuses (Store.insert t key value reference side) := by
  have hnew : (Store.create z).IsNew := .inr ⟨z, rfl⟩
  obtain ⟨s, U, hrun, hs, hU, hn, -⟩ := exists_run_before hnew hc
  refine ⟨s, hrun, fun h ht hplace => ?_⟩
  obtain ⟨-, v, -, hv⟩ := hs.exists_serves ht
  obtain ⟨e, he⟩ := hv.hasPlace_iff.mp hplace
  rcases hv.insert_cases hs hU hn with
    ⟨err, he', -⟩ | ⟨e', he', ⟨s', heq, hadvanced⟩ | ⟨err, heq, hrefused⟩⟩
  · rw [he] at he'
    cases he'
  · -- the value would be in the file then
    obtain ⟨d, hd, rfl⟩ := Version.exists_operation_of_insertionEdit he'
    obtain ⟨h', hv', hoperations, -⟩ := hadvanced.shows
    have hall := run_append_insert hrun heq
    obtain ⟨s'', hall', ho, hcodec⟩ := hnew.orderly.exists_run _
    obtain rfl : s' = s'' := Except.ok.inj (hall.symm.trans hall')
    refine absurd hz (ho.not_overflows hcodec hv'.tree (d := d) ?_)
    rw [hoperations, hd]
    exact List.mem_append_right _ List.mem_cons_self
  · exact ⟨by rw [heq]; exact hrefused.1, hrefused.2⟩

/-- The insertion of a first leaf makes no other node. -/
theorem State.eq_of_mem_insertionNodes {s : State} {t : TreeId} {key value : Bytes}
    {side : Option Side} {n : Node} (hn : n ∈ s.insertionNodes t key value none side) :
    n = .terminal (.ofPair key value) := by
  rw [insertionNodes] at hn
  split at hn
  · cases hn
  · split at hn
    · cases hn
    · next h _ _ =>
        cases hnode : h.latest.node <;> simp [placeFor, hnode] at hn
        exact hn

/-- So there is no collision where a tree gets its first leaf, whatever it holds. -/
theorem collisionFree_first (s : Store) (t : TreeId) (key value : Bytes) :
    CollisionFree (contents s [.call (.addTree t), .call (.insert t key value none none)]) := by
  have heq : ∀ n ∈ contents s [.call (.addTree t), .call (.insert t key value none none)],
      n = .terminal (.ofPair key value) := by
    intro n hn
    simp only [contents, Call.nodes, List.nil_append, List.append_nil] at hn
    exact State.eq_of_mem_insertionNodes hn
  intro a ha b hb _
  rw [heq a ha, heq b hb]

/-- A tree that is created has a place for any first key. -/
theorem exists_first_place {s₀ : Store} (hnew : s₀.IsNew) (t : TreeId) (key : Bytes) :
    ∃ s, run s₀ [.call (.addTree t)] = .ok s ∧ s.Serves t (.start (.empty t)) none ∧
      s.HasPlace t (.start (.empty t)) key none none := by
  have hno : s₀.hasTree t = false := by
    rcases hnew with rfl | ⟨z, rfl⟩ <;> rfl
  obtain ⟨s, hadd⟩ := Store.exists_addTree hno
  have ht : s.state.trees[t]? = some (.start (.empty t)) := by
    rcases Store.addTree_writes t s₀ with ⟨e, heq⟩ | ⟨s₁, hstate, -, heq⟩
    · rw [hadd] at heq
      cases heq
    · obtain rfl := (Prod.mk.inj (hadd.symm.trans heq)).2
      rw [hstate, State.after, State.getElem?_setTree, if_pos rfl]
  obtain ⟨s', hrun, hs, -⟩ := (hnew.intact ∅).exists_run (Set.injOn_empty _)
    [.call (.addTree t)] (by simp [contents, Call.nodes])
  have hlast : run s₀ [.call (.addTree t)] = .ok ((Call.addTree t).perform s₀).2 := rfl
  have hperform : ((Call.addTree t).perform s₀).2 = s := by
    simp only [Call.perform, bind, Action.andThen, hadd, pure, Action.done]
  obtain rfl : s' = s := Except.ok.inj (hrun.symm.trans (hperform ▸ hlast))
  obtain ⟨-, v, -, hv⟩ := hs.exists_serves ht
  obtain rfl : v = none := Option.map_eq_none_iff.mp hv.shows.root.symm
  exact ⟨s', hrun, hv, hv.hasPlace_iff.mpr ⟨.first key [], rfl⟩⟩

/-- In memory it takes any first leaf. -/
theorem exists_first_insertion (t : TreeId) (key value : Bytes) :
    ∃ s, run .volatile [.call (.addTree t), .call (.insert t key value none none)] = .ok s ∧
      s.lastRootWith t (some (.terminal key value)) =
        .ok (some ⟨t, 1, some (.terminal key value), .pending⟩) ∧
      s.operations t 0 1 =
        .ok [.insertion ⟨.terminal key value, key, value, none, none, .pending⟩] := by
  have hnew : Store.volatile.IsNew := .inl rfl
  have hc : CollisionFree (contents .volatile
      ([.call (.addTree t)] ++ [.call (.insert t key value none none)])) :=
    collisionFree_first _ t key value
  obtain ⟨s, hrun, hv, hplace⟩ := exists_first_place hnew t key
  obtain ⟨s', U, hrun', hs, hU, hn, -⟩ := exists_run_before hnew hc
  obtain rfl : s = s' := Except.ok.inj (hrun.symm.trans hrun')
  have hinserts := hv.inserts hs hU hn
  obtain ⟨s', hinsert⟩ := (hinserts.succeeds hplace).resolve_right fun hrefuses => by
    obtain ⟨-, f, hf⟩ := hrefuses
    obtain ⟨s'', hrun'', -, hcodec⟩ := hnew.orderly.exists_run [.call (.addTree t)]
    obtain rfl : s = s'' := Except.ok.inj (hrun.symm.trans hrun'')
    simp [hf, Store.volatile] at hcodec
  obtain ⟨-, ⟨h, hserves, -, hroots⟩, hlogged, -⟩ := hinserts.first _ s' rfl hinsert
  refine ⟨s', run_append_insert hrun hinsert, ?_, hlogged⟩
  have hfirst : (History.start (.empty t)).latest.generation = 0 := rfl
  rw [hfirst] at hroots
  simp only [Store.lastRootWith, hserves.servedTree, hroots, bind, Except.bind, pure, Except.pure,
    List.reverse_append]
  simp [Version.hash, Tree.hash]

/-- A value that is too large for a frame has a place in a new tree and is refused. -/
theorem refuses_oversized {value : Bytes} (hlong : Frame.payloadLimit ≤ value.length) :
    ∃ s h, run (.create sampleCodec) [.call (.addTree sampleTree)] = .ok s ∧
      s.state.trees[sampleTree]? = some h ∧ s.HasPlace sampleTree h [1] none none ∧
      s.Refuses (Store.insert sampleTree [1] value none none) := by
  obtain ⟨s, hrun, hv, hplace⟩ := exists_first_place (.inr ⟨sampleCodec, rfl⟩) sampleTree [1]
  have hc : CollisionFree (contents (.create sampleCodec)
      ([.call (.addTree sampleTree)] ++ [.call (.insert sampleTree [1] value none none)])) :=
    collisionFree_first _ sampleTree [1] value
  obtain ⟨s', hrun', hrefuses⟩ := refuses_of_overflows (overflows_sampleCodec hlong) hc
  obtain rfl : s = s' := Except.ok.inj (hrun.symm.trans hrun')
  exact ⟨s, _, hrun, hv.tree, hplace, hrefuses _ hv.tree hplace⟩

/-- An insertion does not log the side that is given for the first key, and a file refuses a value
that is too large for a frame. -/
theorem insertion_exceptions :
    (∃ s s', run .volatile [.call (.addTree sampleTree)] = .ok s ∧
      Store.insert sampleTree [1] [10] none (some .left) s = (.ok (.terminal [1] [10]), s') ∧
      s'.operations sampleTree 0 1 =
        .ok [.insertion ⟨.terminal [1] [10], [1], [10], none, none, .pending⟩]) ∧
    CollisionFree (contents (.create sampleCodec) [.call (.addTree sampleTree),
      .call (.insert sampleTree [1] oversized none none)]) ∧
    ∃ s h, run (.create sampleCodec) [.call (.addTree sampleTree)] = .ok s ∧
      s.state.trees[sampleTree]? = some h ∧ s.HasPlace sampleTree h [1] none none ∧
      s.Refuses (Store.insert sampleTree [1] oversized none none) :=
  ⟨unlogged_side, collisionFree_first _ sampleTree [1] oversized,
    refuses_oversized payloadLimit_le_length_oversized⟩

end MerkleStore
