import MerkleStore.Proofs.Reads
import MerkleStore.Proofs.Run

/-!
# A store as a versioned map

To those who use it a tree is a map of keys to values with a history: generation `g`
is the map after the first `g` writes that succeeded. `Store.Refines` says what this
means for the listing of every generation, for looking up a key and for the refusals of
writes, and `refines_of_run` that it holds after every run in which no contents
collide. What an earlier generation lists never changes later on.
-/

namespace MerkleStore

namespace Store

variable {s s' : Store} {t : TreeId} {h : History} {U : Set Node}

/-- A tree shows the map that writes make, at every generation after the first so many
of them. -/
structure Refines (s : Store) (t : TreeId) (ws : List Write) : Prop where
  latest : s.latestGeneration t = .ok ws.length
  listing : ∀ g ≤ ws.length, ∃ r leaves, s.root t g = .ok r ∧ s.listing t r.node = .ok leaves ∧
    (leaves.map Terminal.key).Nodup ∧
    ∀ key value, Bindings.after (ws.take g) key = some value ↔
      ∃ n ∈ leaves, n.key = key ∧ n.value = value
  terminal : ∀ key, s.terminal t key =
    match Bindings.after ws key with
    | none => .error (.notFound (.key key t))
    | some value => .ok (.ofPair key value)
  insert : ∀ key value reference side k,
    (insert t key value reference side s).1 = .error (.duplicateKey k) ↔
      k = key ∧ ∃ old, Bindings.after ws key = some old
  delete : ∀ key what, (delete t key s).1 = .error (.notFound what) ↔
    what = .key key t ∧ Bindings.after ws key = none

theorem writesOf_made (ht : s.state.trees[t]? = some h) {es : List Edit} {v : Version}
    (hm : h.Made s.state.nodes t es v) : s.writesOf t = es.map fun e => e.operation.write := by
  simp only [writesOf, ht, hm.operations, List.map_map]
  rfl

/-- The listing of a generation is the map after the writes up to it. -/
theorem exists_listing (ht : s.state.trees[t]? = some h) {es : List Edit} {v : Version}
    (hm : h.Made s.state.nodes t es v) (hv : s.Serves t h v) {g : Nat} (hg : g ≤ es.length) :
    ∃ r leaves, s.root t g = .ok r ∧ s.listing t r.node = .ok leaves ∧
      (leaves.map Terminal.key).Nodup ∧
      ∀ key value, Bindings.after ((s.writesOf t).take g) key = some value ↔
        ∃ n ∈ leaves, n.key = key ∧ n.value = value := by
  obtain ⟨r, hr⟩ : ∃ r, h.roots[g]? = some r :=
    ⟨_, List.getElem?_eq_getElem (by rw [hm.length_roots]; omega)⟩
  obtain ⟨u, hu, hnode⟩ := hm.node_root hr
  obtain ⟨hbefore, -⟩ := hm.leads.split hu
  have hdistinct := hbefore.distinct Edit.distinct_none
  refine ⟨r, u.leaves, (root_eq_ok hv).mpr hr, ?_, hdistinct, fun key value => ?_⟩
  · rw [hnode]
    exact listing_eq hv hm (List.mem_of_getElem? hu)
  · rw [writesOf_made ht hm, ← List.map_take, ← hbefore.bindings,
      Version.bindings_eq_some_iff hdistinct]
    constructor
    · exact fun hmem => ⟨_, hmem, rfl, rfl⟩
    · rintro ⟨n, hn, rfl, rfl⟩
      exact Version.eq_ofPair_of_mem_leaves hn ▸ hn

/-- An insertion is refused as a duplicate for the keys of the last version only. -/
theorem insert_duplicate_iff {v : Version} (hv : s.Serves t h v) {key value k : Bytes}
    {reference : Option Hash} {side : Option Side} :
    (insert t key value reference side s).1 = .error (.duplicateKey k) ↔
      k = key ∧ key ∈ v.keys := by
  have hcarry : (insert t key value reference side s).1 = .error (.duplicateKey k) ↔
      (carryOut t (.insertion ⟨default, key, value, reference, side, .pending⟩) none s).1 =
        .error (.duplicateKey k) := by
    rw [insert_eq]
    simp only [bind, pure, Action.andThen_done]
    cases (carryOut t (.insertion ⟨default, key, value, reference, side, .pending⟩) none s).1 <;>
      simp [Except.map]
  rw [hcarry, fst_carryOut_eq_error hv rfl]
  exact Version.insertionEdit_duplicate_iff

/-- A deletion finds nothing for the keys that the last version does not have only. -/
theorem delete_notFound_iff {v : Version} (hv : s.Serves t h v) {key : Bytes} {what : Missing} :
    (delete t key s).1 = .error (.notFound what) ↔ what = .key key t ∧ key ∉ v.keys := by
  refine (fst_carryOut_eq_error (o := .deletion ⟨none, key, .pending⟩) hv rfl).trans ?_
  by_cases hkey : key ∈ v.keys
  · obtain ⟨e, he⟩ := Version.exists_deletionEdit (t := t) hkey
    simp [Version.editFor, he, hkey]
  · simp [Version.editFor, Version.deletionEdit_eq_error hkey, hkey, eq_comm]

/-- An intact store shows the writes in its histories. -/
theorem Intact.refines (hs : s.Intact U) (ht : s.state.trees[t]? = some h) :
    s.Refines t (s.writesOf t) := by
  obtain ⟨es, v, hm, hv⟩ := hs.exists_serves ht
  have hws := writesOf_made ht hm
  have hlength : (s.writesOf t).length = es.length := by simp [hws]
  have hbindings := hm.leads.bindings
  rw [← hws] at hbindings
  refine ⟨?_, fun g hg => ?_, fun key => ?_, fun key value reference side k => ?_,
    fun key what => ?_⟩
  · rw [latestGeneration_eq hv, hm.operations, List.length_map, hlength]
  · exact exists_listing ht hm hv (hlength ▸ hg)
  · cases hb : Bindings.after (s.writesOf t) key <;> simp only [terminal_eq hv, hbindings, hb]
  · have hkey : key ∈ v.keys ↔ ∃ old, v.bindings key = some old := by
      rw [← Option.isSome_iff_exists, ← Option.ne_none_iff_isSome, Ne,
        Version.bindings_eq_none_iff, not_not]
    rw [insert_duplicate_iff hv, ← hbindings, hkey]
  · rw [delete_notFound_iff hv, ← hbindings, Version.bindings_eq_none_iff]

/-- What a generation lists stays so in a store that goes on from an earlier one. -/
theorem Precedes.exists_listing (hprecedes : s.Precedes s') (hs : s.Intact U) (hs' : s'.Intact U)
    (hU : Set.InjOn Node.hash U) (ht : s.state.trees[t]? = some h) {g : Nat}
    (hg : g ≤ (s.writesOf t).length) :
    ∃ r r' leaves, s.root t g = .ok r ∧ s'.root t g = .ok r' ∧ r'.node = r.node ∧
      s.listing t r.node = .ok leaves ∧ s'.listing t r.node = .ok leaves := by
  obtain ⟨h', ht', rest, hrest⟩ := hprecedes t h ht
  obtain ⟨es, v, hm, hv⟩ := hs.exists_serves ht
  obtain ⟨es', v', hm', hv'⟩ := hs'.exists_serves ht'
  rw [writesOf_made ht hm, List.length_map] at hg
  obtain ⟨r, hr⟩ : ∃ r, h.roots[g]? = some r :=
    ⟨_, List.getElem?_eq_getElem (by rw [hm.length_roots]; omega)⟩
  obtain ⟨r', hr', hsame⟩ : ∃ r', h'.roots[g]? = some r' ∧ r'.node = r.node := by
    have hlt : g < h.roots.length := (List.getElem?_eq_some_iff.mp hr).1
    have hmap : (h'.roots.map Root.node)[g]? = some r.node := by
      rw [← hrest, List.getElem?_append_left (by simpa using hlt), List.getElem?_map, hr]
      rfl
    rwa [List.getElem?_map, Option.map_eq_some_iff] at hmap
  obtain ⟨u, hu, hnode⟩ := hm.node_root hr
  obtain ⟨u', hu', hnode'⟩ := hm'.node_root hr'
  -- one hash at the two roots, hence one version under them
  obtain rfl : u' = u := by
    refine Version.eq_of_hash hU ?_ ?_ (by rw [← hnode', hsame, hnode])
    · exact (hm'.stored_versions (List.mem_of_getElem? hu')).mono hs'.within.stored_subset
    · exact (hm.stored_versions (List.mem_of_getElem? hu)).mono hs.within.stored_subset
  refine ⟨r, r', u'.leaves, (root_eq_ok hv).mpr hr, (root_eq_ok hv').mpr hr', hsame, ?_, ?_⟩
  · rw [hnode]
    exact listing_eq hv hm (List.mem_of_getElem? hu)
  · rw [hnode]
    exact listing_eq hv' hm' (List.mem_of_getElem? hu')

end Store

/-! ## Runs -/

theorem exists_run_append {s s' : Store} {steps later : List Step}
    (hrun : run s (steps ++ later) = .ok s') :
    ∃ s₁, run s steps = .ok s₁ ∧ run s₁ later = .ok s' := by
  simp only [run, List.foldlM_append, bind, Except.bind] at hrun
  cases h : steps.foldlM Step.after s with
  | error err => simp [h] at hrun
  | ok s₁ =>
      simp only [h] at hrun
      exact ⟨s₁, h, hrun⟩

theorem contents_append {s s' : Store} {steps : List Step} (hrun : run s steps = .ok s')
    (later : List Step) : contents s (steps ++ later) = contents s steps ++ contents s' later := by
  induction steps generalizing s with
  | nil =>
      cases hrun
      rfl
  | cons step steps ih =>
      cases step with
      | call c =>
          rw [List.cons_append, contents, contents, ih hrun, List.append_assoc]
      | reopen =>
          simp only [run, List.foldlM_cons, Step.after, bind, Except.bind] at hrun
          cases hr : s.reopen with
          | error err => simp [hr] at hrun
          | ok s₁ =>
              simp only [hr] at hrun
              simp only [List.cons_append, contents, hr]
              exact ih hrun

/-- After every run without a collision each tree shows the writes that succeeded on it,
and what its generations list stays so whatever is done later on. -/
theorem refines_of_run {s : Store} (hs : s.IsNew) {steps later : List Step}
    (hc : CollisionFree (contents s (steps ++ later))) :
    ∃ s₁ s₂, run s steps = .ok s₁ ∧ run s₁ later = .ok s₂ ∧
      ∀ t, s₁.hasTree t = true →
        s₁.Refines t (writesTo t s steps) ∧
        ∀ g ≤ (writesTo t s steps).length, ∃ r r' leaves,
          s₁.root t g = .ok r ∧ s₂.root t g = .ok r' ∧ r'.node = r.node ∧
          s₁.listing t r.node = .ok leaves ∧ s₂.listing t r.node = .ok leaves := by
  have hU := hc.injOn_hash fun _ hn => hash_of_mem_contents hn
  obtain ⟨s₂, hrun, -⟩ := (hs.intact _).exists_run hU _ fun n hn => hn
  obtain ⟨s₁, hrun₁, hrun₂⟩ := exists_run_append hrun
  rw [contents_append hrun₁] at hU
  simp only [List.mem_append] at hU
  obtain ⟨s₁', hrun₁', hs₁, -, hwrites⟩ := (hs.intact _).exists_run hU steps
    fun n hn => .inl hn
  obtain rfl : s₁ = s₁' := Except.ok.inj (hrun₁.symm.trans hrun₁')
  obtain ⟨s₂', hrun₂', hs₂, hprecedes, -⟩ := hs₁.exists_run hU later fun n hn => .inr hn
  obtain rfl : s₂ = s₂' := Except.ok.inj (hrun₂.symm.trans hrun₂')
  refine ⟨s₁, s₂, hrun₁, hrun₂, fun t ht => ?_⟩
  obtain ⟨h, ht⟩ := Store.hasTree_iff.mp ht
  have hws : s₁.writesOf t = writesTo t s steps := by rw [hwrites, hs.writesOf, List.nil_append]
  refine ⟨hws ▸ hs₁.refines ht, fun g hg => ?_⟩
  exact hprecedes.exists_listing hs₁ hs₂ hU ht (hws ▸ hg)

/-- The small run, and one more insertion after it. -/
theorem refines_of_sampleSteps :
    let later := [.call (.insert sampleTree [3] [30] (some (.terminal [2] [20])) (some .right))]
    CollisionFree (contents .volatile (sampleSteps ++ later)) ∧
      ∃ s₁ s₂, run .volatile sampleSteps = .ok s₁ ∧ run s₁ later = .ok s₂ ∧
        s₁.Refines sampleTree (writesTo sampleTree .volatile sampleSteps) ∧
        writesTo sampleTree .volatile sampleSteps =
          [.put [1] [10], .put [2] [20], .remove [1]] := by
  intro later
  have hc : CollisionFree (contents .volatile (sampleSteps ++ later)) := by decide +kernel
  have hwrites : writesTo sampleTree .volatile sampleSteps =
      [.put [1] [10], .put [2] [20], .remove [1]] := by decide +kernel
  have hknown : ((run .volatile sampleSteps).toOption.map fun s => s.hasTree sampleTree) =
      some true := by decide +kernel
  obtain ⟨s₁, s₂, hrun₁, hrun₂, hrefines⟩ := refines_of_run (.inl rfl) hc
  simp only [hrun₁, Except.toOption, Option.map_some, Option.some.injEq] at hknown
  exact ⟨hc, s₁, s₂, hrun₁, hrun₂, (hrefines sampleTree hknown).1, hwrites⟩

end MerkleStore
