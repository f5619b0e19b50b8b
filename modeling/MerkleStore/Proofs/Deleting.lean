import MerkleStore.Proofs.Inserting

/-!
# What a deletion does

A deletion of a key that is listed goes through, unless the journal refuses the frame, and one of
any other key fails because the key is not there. Where it goes through, the leaf and the branch
above it are gone, and what was beside the leaf is in the place of the branch; nothing is left of a
tree that was a single leaf (`Store.Deletes`). Right after an insertion of the same key, wherever
it was put, a deletion leads back to the version before (`Version.exists_deletionEdit_target`,
`Store.TakesBack`).
-/

namespace MerkleStore

open MerkleStore.Tree

namespace Tree

variable {key value : Bytes} {path : List Fork}

/-- In a tree of distinct keys a key has one place. -/
theorem leaf_unique (hd : (plug (leaf key value) path).Distinct) {value' : Bytes}
    {path' : List Fork} (h : plug (leaf key value') path' = plug (leaf key value) path) :
    value' = value ∧ path' = path := by
  have hfind := findKey?_plug hd
  have hfind' := findKey?_plug (h ▸ hd)
  rw [h, hfind, Option.some.injEq, Prod.mk.injEq] at hfind'
  exact ⟨hfind'.1.symm, hfind'.2.symm⟩

/-- If the sibling moves up, nothing is left out but what was at the end of the path. -/
theorem leaves_plug_sibling (f : Fork) (path : List Fork) :
    (plug f.sibling path).leaves = before (f :: path) ++ after (f :: path) := by
  obtain ⟨sibling, side⟩ := f
  rw [leaves_plug]
  cases side <;> simp [before, after]

/-- A leaf beside a subtree leaves this subtree as its sibling. -/
theorem exists_fork_of_fill (c : Tree) (side : Side) (key value : Bytes) :
    ∃ f : Fork, f.sibling = c ∧
      (⟨leaf key value, side⟩ : Fork).fill c = f.fill (leaf key value) := by
  cases side with
  | left => exact ⟨⟨c, .right⟩, rfl, rfl⟩
  | right => exact ⟨⟨c, .left⟩, rfl, rfl⟩

end Tree

namespace Version

variable {v : Version} {t : TreeId} {e : Edit} {key value : Bytes}

/-- The leaf of a key is taken out alone or with the branch above it. -/
theorem eq_of_deletionEdit (h : v.deletionEdit t key = .ok e) : ∃ value,
    v = some (leaf key value) ∧ e = .last key value ∨
    ∃ f path, v = some (plug (leaf key value) (f :: path)) ∧ e = .promote key value f path := by
  obtain ⟨rfl, -, hdeletion, hkey⟩ := of_deletionEdit h
  cases e with
  | first _ _ => cases hdeletion
  | beside _ _ _ _ _ => cases hdeletion
  | last k value =>
      cases hkey
      exact ⟨value, .inl ⟨rfl, rfl⟩⟩
  | promote k value f path =>
      cases hkey
      exact ⟨value, .inr ⟨f, path, rfl, rfl⟩⟩

/-- What an insertion has put in can be taken out, which leads back to the version before. -/
theorem exists_deletionEdit_target (hi : e.operation.isInsertion = true)
    (hd : e.target.Distinct) (t : TreeId) :
    ∃ e', e.target.deletionEdit t e.terminal.key = .ok e' ∧ e'.target = e.source := by
  cases e with
  | first key value =>
      exact ⟨.last key value, deletionEdit_source (e := .last key value) hd rfl t, rfl⟩
  | beside c path side key value =>
      obtain ⟨f, hsibling, hfill⟩ := exists_fork_of_fill c side key value
      have htarget : (Edit.beside c path side key value).target =
          (Edit.promote key value f path).source := by
        simp only [Edit.target, Edit.source, plug, hfill]
      rw [htarget] at hd ⊢
      exact ⟨.promote key value f path, deletionEdit_source hd rfl t, by
        simp only [Edit.target, Edit.source, hsibling]⟩
  | last _ _ => cases hi
  | promote _ _ _ _ => cases hi

end Version

namespace Store

/-- What a deletion from a tree that shows a version does. -/
structure Deletes (s : Store) (t : TreeId) (h : History) (v : Version) (key : Bytes) : Prop where
  /-- It goes through if the key is there, unless the journal refuses the frame. -/
  succeeds : key ∈ v.keys → (∃ s', delete t key s = (.ok (), s')) ∨ s.Refuses (delete t key)
  /-- Any other key is not found. -/
  missing : key ∉ v.keys → delete t key s = (.error (.notFound (.key key t)), s)
  /-- If it fails, nothing happens, and no index has led astray. -/
  fails : ∀ err s', delete t key s = (.error err, s') → s' = s ∧ ∀ what, err ≠ .corruption what
  /-- The leaf of the key, which has one place, is the whole tree and nothing is left, or it goes
  with the branch above it, in whose place its sibling comes. -/
  removed : ∀ s', delete t key s = (.ok (), s') →
    ∃ value path, v = some (plug (leaf key value) path) ∧
      (∀ value' path', v = some (plug (leaf key value') path') → value' = value ∧ path' = path) ∧
      (path = [] ∧ s.Advanced s' t h none (.deletion ⟨none, key, .pending⟩) ∨
        ∃ f above, path = f :: above ∧ s.Advanced s' t h (some (plug f.sibling above))
          (.deletion ⟨some (plug f.sibling above).hash, key, .pending⟩))
  /-- The listing is the same without the key. -/
  listing : ∀ s', delete t key s = (.ok (), s') → ∃ value before after,
    v.leaves = before ++ .ofPair key value :: after ∧
      s'.keysValues t none = .ok (before ++ after)

variable {s : Store} {t : TreeId} {h : History} {v : Version} {U : Set Node} {key : Bytes}

theorem delete_eq (t : TreeId) (key : Bytes) :
    delete t key = carryOut t (.deletion ⟨none, key, .pending⟩) none := rfl

/-- A deletion does what is said of it to a tree of an intact store. -/
theorem Serves.deletes (hs : s.Intact U) (hU : Set.InjOn Node.hash U) (hv : s.Serves t h v)
    (hn : ∀ n ∈ s.state.deletionNodes t key, n ∈ U) : s.Deletes t h v key := by
  have hunique {value value' : Bytes} {path path' : List Fork}
      (hplug : v = some (plug (leaf key value) path))
      (hplug' : v = some (plug (leaf key value') path')) : value' = value ∧ path' = path := by
    have hdistinct : v.Distinct := hv.shows.distinct
    rw [hplug] at hdistinct
    exact leaf_unique hdistinct (Option.some.inj (hplug'.symm.trans hplug))
  by_cases hkey : key ∈ v.keys
  · rcases carryOut_advances hs hU hv (o := .deletion ⟨none, key, .pending⟩) hn with
      ⟨err, he, -⟩ | ⟨e, he, ⟨s₁, heq, hadvanced⟩ | ⟨err, heq, hrefuses, hjournal⟩⟩
    · obtain ⟨e, he'⟩ : ∃ e, v.deletionEdit t key = .ok e := Version.exists_deletionEdit hkey
      cases he.symm.trans he'
    · rw [← delete_eq] at heq
      constructor
      · exact fun _ => .inl ⟨s₁, heq⟩
      · exact fun hmissing => absurd hkey hmissing
      · simp [heq]
      · rintro s' hs'
        obtain rfl : s₁ = s' := congrArg Prod.snd (heq.symm.trans hs')
        obtain ⟨value, ⟨rfl, rfl⟩ | ⟨f, path, rfl, rfl⟩⟩ := Version.eq_of_deletionEdit he
        · exact ⟨value, [], rfl, fun _ _ => hunique rfl, .inl ⟨rfl, hadvanced⟩⟩
        · exact ⟨value, f :: path, rfl, fun _ _ => hunique rfl, .inr ⟨f, path, rfl, hadvanced⟩⟩
      · rintro s' hs'
        obtain rfl : s₁ = s' := congrArg Prod.snd (heq.symm.trans hs')
        obtain ⟨value, ⟨rfl, rfl⟩ | ⟨f, path, rfl, rfl⟩⟩ := Version.eq_of_deletionEdit he
        · exact ⟨value, [], [], rfl, hadvanced.listing⟩
        · refine ⟨value, Tree.before (f :: path), Tree.after (f :: path), ?_, ?_⟩
          · exact (leaves_plug (leaf key value) (f :: path)).trans (by simp [leaves])
          · exact hadvanced.listing.trans (congrArg Except.ok (leaves_plug_sibling f path))
    · rw [← delete_eq] at heq
      constructor
      · exact fun _ => .inr ⟨by rw [heq]; exact hrefuses, hjournal⟩
      · exact fun hmissing => absurd hkey hmissing
      · rw [heq]
        rintro _ _ ⟨⟩
        refine ⟨rfl, ?_⟩
        rintro what rfl
        cases hrefuses
      all_goals simp [heq]
  · have hmissing : delete t key s = (.error (.notFound (.key key t)), s) := by
      rw [delete_eq, carryOut_eq hv]
      simp only [Version.editFor, Version.deletionEdit_eq_error hkey]
    constructor <;> simp [hmissing, hkey]

/-- After an insertion that goes through, a deletion of the key leads back to the root of before,
unless the journal refuses the frame. -/
def TakesBack (s : Store) (t : TreeId) (key value : Bytes) (reference : Option Hash)
    (side : Option Side) : Prop :=
  ∀ k s₁, insert t key value reference side s = (.ok k, s₁) →
    (∃ s₂ r r₂, delete t key s₁ = (.ok (), s₂) ∧ s.latestRoot t = .ok r ∧
      s₂.latestRoot t = .ok r₂ ∧ r₂.node = r.node) ∨ s₁.Refuses (delete t key)

/-- What an insertion has put in is taken out again. -/
theorem Serves.delete_inserted {e : Edit} (hs : s.Intact U) (hU : Set.InjOn Node.hash U)
    (hv : s.Serves t h e.target) (hi : e.operation.isInsertion = true)
    (hn : ∀ n ∈ s.state.deletionNodes t e.terminal.key, n ∈ U) :
    (∃ s' o, delete t e.terminal.key s = (.ok (), s') ∧ s.Advanced s' t h e.source o) ∨
      s.Refuses (delete t e.terminal.key) := by
  obtain ⟨e', he', htarget⟩ := Version.exists_deletionEdit_target hi hv.shows.distinct t
  rcases carryOut_advances hs hU hv (o := .deletion ⟨none, e.terminal.key, .pending⟩) hn with
    ⟨err, he, -⟩ | ⟨e₂, he, ⟨s', heq, hadvanced⟩ | ⟨err, heq, hrefuses, hjournal⟩⟩
  · cases he.symm.trans he'
  · obtain rfl : e₂ = e' := Except.ok.inj (he.symm.trans he')
    exact .inl ⟨s', e₂.operation, heq, htarget ▸ hadvanced⟩
  · exact .inr ⟨by rw [delete_eq, heq]; exact hrefuses, hjournal⟩

theorem snd_perform_insert (s : Store) (t : TreeId) (key value : Bytes) (reference : Option Hash)
    (side : Option Side) : ((Call.insert t key value reference side).perform s).2 =
      (insert t key value reference side s).2 := by
  simp only [Call.perform, bind, pure, Action.andThen_done]

/-- An insertion into a tree of an intact store is taken back by a deletion. -/
theorem Intact.takesBack {value : Bytes} {reference : Option Hash} {side : Option Side}
    (hs : s.Intact U) (hU : Set.InjOn Node.hash U)
    (hn : ∀ n ∈ s.state.insertionNodes t key value reference side, n ∈ U)
    (hn' : ∀ n ∈ (insert t key value reference side s).2.state.deletionNodes t key, n ∈ U) :
    s.TakesBack t key value reference side := by
  intro k s₁ hinsert
  have hs₁ : (insert t key value reference side s).2.Intact U := by
    rw [← snd_perform_insert]
    exact ((Call.insert t key value reference side).comes_perform hs hU hn).intact hs hU
  rw [hinsert] at hs₁ hn'
  cases ht : s.state.trees[t]? with
  | none =>
      -- nothing is inserted into a tree that is unknown
      rw [insert_eq] at hinsert
      simp only [bind, pure, Action.andThen_done,
        carryOut_unknown (hs.isOutOfService t) ht] at hinsert
      cases hinsert
  | some h =>
      obtain ⟨-, v, -, hv⟩ := hs.exists_serves ht
      rcases hv.insert_cases hs hU hn with
        ⟨err, -, heq⟩ | ⟨e, he, ⟨s', heq, hadvanced⟩ | ⟨err, heq, -⟩⟩
      · cases heq.symm.trans hinsert
      · cases heq.symm.trans hinsert
        obtain ⟨rfl, -, hi, hterminal⟩ := Version.of_insertionEdit he
        obtain ⟨h₁, hv₁, -⟩ := hadvanced.shows
        obtain rfl : e.terminal.key = key := congrArg Terminal.key hterminal
        refine (hv₁.delete_inserted hs₁ hU hi hn').imp_left ?_
        rintro ⟨s₂, o, hdelete, hback⟩
        exact ⟨s₂, _, _, hdelete, latestRoot_eq hv, hback.latest, hv.shows.root.symm⟩
      · cases heq.symm.trans hinsert

end Store

/-- In every state that a run without a collision leads to, a deletion takes the leaf of its key out
of the tree, where there is one, and does nothing else; and right after an insertion of the key
it leads back to the root of before. -/
theorem deletion_exact {s₀ : Store} (hnew : s₀.IsNew) (steps : List Step) (t : TreeId)
    (key : Bytes) :
    (CollisionFree (contents s₀ (steps ++ [.call (.delete t key)])) →
      ∃ s, run s₀ steps = .ok s ∧ ∀ h, s.state.trees[t]? = some h →
        ∃ v, s.Serves t h v ∧ s.keysValues t none = .ok v.leaves ∧ s.Deletes t h v key) ∧
    ∀ (value : Bytes) (reference : Option Hash) (side : Option Side),
      CollisionFree (contents s₀ (steps ++
        [.call (.insert t key value reference side), .call (.delete t key)])) →
      ∃ s, run s₀ steps = .ok s ∧ s.TakesBack t key value reference side := by
  constructor
  · intro hc
    obtain ⟨s, U, hrun, hs, hU, hn, -⟩ := exists_run_before hnew hc
    refine ⟨s, hrun, fun h ht => ?_⟩
    obtain ⟨-, v, -, hv⟩ := hs.exists_serves ht
    exact ⟨v, hv, Store.keysValues_latest hv, hv.deletes hs hU hn⟩
  · intro value reference side hc
    obtain ⟨s, U, hrun, hs, hU, hn, hlater⟩ := exists_run_before hnew hc
    refine ⟨s, hrun, hs.takesBack hU hn fun n hn' => hlater n ?_⟩
    rw [contents, Store.snd_perform_insert]
    exact List.mem_append_left _ hn'

/-- Of two keys the first is taken out, and a third comes and goes. -/
theorem deletion_of_sampleSteps :
    let steps := sampleSteps.take 4
    let reference := Hash.terminal [1] [10]
    CollisionFree (contents .volatile (steps ++ [.call (.delete sampleTree [1])])) ∧
    CollisionFree (contents .volatile (steps ++
      [.call (.insert sampleTree [3] [30] (some reference) (some .right)),
        .call (.delete sampleTree [3])])) ∧
    ∃ s h v, run .volatile steps = .ok s ∧ s.state.trees[sampleTree]? = some h ∧
      s.Deletes sampleTree h v [1] ∧ (Store.delete sampleTree [1] s).1 = .ok () ∧
      s.TakesBack sampleTree [3] [30] (some reference) (some .right) ∧
      (Store.insert sampleTree [3] [30] (some reference) (some .right) s).1 =
        .ok (.terminal [3] [30]) := by
  intro steps reference
  have hc : CollisionFree (contents .volatile
      (steps ++ [.call (.delete sampleTree [1])])) := by decide +kernel
  have hc' : CollisionFree (contents .volatile (steps ++
      [.call (.insert sampleTree [3] [30] (some reference) (some .right)),
        .call (.delete sampleTree [3])])) := by decide +kernel
  obtain ⟨s, hrun, hdeletes⟩ := (deletion_exact (.inl rfl) steps sampleTree [1]).1 hc
  obtain ⟨s', hrun', hback⟩ := (deletion_exact (.inl rfl) steps sampleTree [3]).2 [30] _ _ hc'
  obtain rfl : s = s' := Except.ok.inj (hrun.symm.trans hrun')
  have heval : (do
      let s ← (run .volatile steps).toOption
      let _ ← s.state.trees[sampleTree]?
      let _ ← (Store.delete sampleTree [1] s).1.toOption
      (Store.insert sampleTree [3] [30] (some reference) (some .right) s).1.toOption) =
        some (.terminal [3] [30]) := by
    decide +kernel
  simp only [hrun, Except.toOption, bind, Option.bind_some, Option.bind_eq_some_iff] at heval
  obtain ⟨h, ht, _, hdelete, hinsert⟩ := heval
  obtain ⟨v, -, -, hv⟩ := hdeletes h ht
  exact ⟨hc, hc', s, h, v, hrun, ht, hv, eq_ok_of_toOption hdelete, hback,
    eq_ok_of_toOption hinsert⟩

end MerkleStore
