import MerkleStore.Proofs.Commit

/-!
# Sound states

A history is made by edits if each of its generations is the version that one of them
leads to (`History.Made`), all of them stored. In a sound state every history is made
by edits and every node belongs to a stored tree (`State.Sound`). Soundness is kept by
every event a state admits, if the nodes that are made have hashes of their own
(`State.Sound.after`).
-/

namespace MerkleStore

/-! ## Chains of edits -/

namespace Edit

/-- Edits that lead from one version to another, each of which puts in a new key or
takes one out. -/
def Leads : Version → List Edit → Version → Prop
  | v, [], w => v = w
  | v, e :: es, w => e.source = v ∧ e.Fresh ∧ Leads e.target es w

/-- A version and those that edits lead to from it in turn. -/
def versions (v : Version) (es : List Edit) : List Version := v :: es.map target

variable {u v w : Version} {e : Edit} {es es' : List Edit} {g : Nat}

theorem leads_append : Leads v (es ++ es') w ↔ ∃ u, Leads v es u ∧ Leads u es' w := by
  induction es generalizing v with
  | nil => simp [Leads]
  | cons e es ih => simp only [List.cons_append, Leads, ih]; grind

theorem Leads.snoc (h : Leads v es e.source) (hf : e.Fresh) : Leads v (es ++ [e]) e.target :=
  leads_append.mpr ⟨e.source, h, rfl, hf, rfl⟩

theorem distinct_none : Version.Distinct none := List.nodup_nil

theorem Leads.distinct (h : Leads v es w) (hv : v.Distinct) : w.Distinct := by
  induction es generalizing v with
  | nil => exact h ▸ hv
  | cons e es ih =>
      obtain ⟨rfl, hf, h⟩ := h
      exact ih h (distinct_target hv hf)

@[simp] theorem length_versions (v : Version) (es : List Edit) :
    (versions v es).length = es.length + 1 := by
  simp [versions]

theorem versions_snoc (v : Version) (es : List Edit) (e : Edit) :
    versions v (es ++ [e]) = versions v es ++ [e.target] := by
  simp [versions]

/-- The version at a generation is where the edits before it lead, and the rest of
them go on from there. -/
theorem Leads.split (h : Leads v es w) (hg : (versions v es)[g]? = some u) :
    Leads v (es.take g) u ∧ Leads u (es.drop g) w := by
  induction es generalizing v g with
  | nil =>
      cases g with
      | zero =>
          cases hg
          exact ⟨rfl, h⟩
      | succ g => simp [versions] at hg
  | cons e es ih =>
      cases g with
      | zero =>
          cases hg
          exact ⟨rfl, h⟩
      | succ g =>
          obtain ⟨rfl, hf, h⟩ := h
          obtain ⟨hbefore, hafter⟩ := ih h (g := g) (by simpa [versions] using hg)
          exact ⟨⟨rfl, hf, hbefore⟩, hafter⟩

/-- Every edit on the way starts at one of the versions. -/
theorem Leads.source_mem_versions (h : Leads v es w) (he : e ∈ es) :
    e.source ∈ versions v es := by
  induction es generalizing v with
  | nil => cases he
  | cons e' es ih =>
      obtain ⟨hsource, -, h⟩ := h
      rcases List.mem_cons.mp he with rfl | he
      · exact hsource ▸ List.mem_cons_self
      · exact List.mem_cons_of_mem _ (ih h he)

/-- The last of the versions is where all edits lead. -/
theorem Leads.getElem?_length (h : Leads v es w) : (versions v es)[es.length]? = some w := by
  induction es generalizing v with
  | nil => exact congrArg some h
  | cons e es ih => exact ih h.2.2

theorem Leads.unique (h : Leads v es u) (h' : Leads v es w) : u = w :=
  Option.some.inj (h.getElem?_length.symm.trans h'.getElem?_length)

/-- Between two generations the edits lead from one version to the other. -/
theorem Leads.between {n : Nat} (h : Leads v es w) (hgn : g ≤ n) {a b : Version}
    (ha : (versions v es)[g]? = some a) (hb : (versions v es)[n]? = some b) :
    Leads a ((es.take n).drop g) b := by
  have hfirst := (h.split ha).1
  have hlast := (h.split hb).1
  rw [← List.take_append_drop g (es.take n), List.take_take, Nat.min_eq_left hgn,
    leads_append] at hlast
  obtain ⟨x, hx, hrest⟩ := hlast
  rwa [hx.unique hfirst] at hrest

end Edit

/-! ## Histories made by edits -/

namespace History

open Edit

/-- Edits from the empty version to `v` have made a history. -/
structure Made (nodes : NodeMap) (h : History) (t : TreeId) (es : List Edit) (v : Version) :
    Prop where
  inOrder : h.InOrder t
  leads : Leads none es v
  roots : h.roots.map Root.node = (versions none es).map Version.hash
  operations : h.operations = es.map Edit.operation
  stored : ∀ e ∈ es, e.target.MadeOf nodes.stored
  index : h.index.Describes v

variable {nodes nodes' : NodeMap} {h : History} {t : TreeId} {es : List Edit} {e : Edit}
  {u v : Version} {g : Nat}

theorem Made.length_roots (hm : h.Made nodes t es v) : h.roots.length = es.length + 1 := by
  simpa using congrArg List.length hm.roots

/-- The versions of a history that is made by edits are stored. -/
theorem Made.stored_versions (hm : h.Made nodes t es v) (hu : u ∈ versions none es) :
    u.MadeOf nodes.stored := by
  rcases List.mem_cons.mp hu with rfl | hu
  · simp [Version.MadeOf, Version.subtrees]
  · obtain ⟨e, he, rfl⟩ := List.mem_map.mp hu
    exact hm.stored e he

/-- So are the leaves that came or went. -/
theorem Made.stored_terminal (hm : h.Made nodes t es v) (he : e ∈ es) :
    .terminal e.terminal ∈ nodes.stored := by
  have hleaf {u : Version} (hu : u ∈ versions none es) (hn : e.terminal ∈ u.leaves) :
      .terminal e.terminal ∈ nodes.stored := by
    obtain ⟨c, hc, hnode⟩ := Version.exists_of_mem_leaves hn
    exact hnode ▸ hm.stored_versions hu c hc
  cases hkind : e.operation.isInsertion with
  | true =>
      exact hleaf (List.mem_cons_of_mem _ (List.mem_map_of_mem he))
        ((leaves_target_perm hkind).mem_iff.mpr List.mem_cons_self)
  | false =>
      exact hleaf (hm.leads.source_mem_versions he)
        ((leaves_source_perm hkind).mem_iff.mpr List.mem_cons_self)

/-- The root of a generation has the hash of its version. -/
theorem Made.node_root (hm : h.Made nodes t es v) {r : Root} (hr : h.roots[g]? = some r) :
    ∃ u, (versions none es)[g]? = some u ∧ r.node = u.hash := by
  have hmap : (h.roots.map Root.node)[g]? = some r.node := by simp [hr]
  rw [hm.roots, List.getElem?_map, Option.map_eq_some_iff] at hmap
  obtain ⟨u, hu, hhash⟩ := hmap
  exact ⟨u, hu, hhash.symm⟩

/-- The last generation shows the version that all edits lead to. -/
theorem Made.shows (hm : h.Made nodes t es v) : h.Shows nodes v where
  root := by
    have hlatest := h.getElem?_latest
    rw [hm.length_roots, Nat.add_sub_cancel] at hlatest
    obtain ⟨u, hu, hhash⟩ := hm.node_root hlatest
    rw [hm.leads.getElem?_length] at hu
    cases hu
    exact hhash
  stored := hm.stored_versions (List.mem_of_getElem? hm.leads.getElem?_length)
  distinct := hm.leads.distinct distinct_none
  index := hm.index

/-- The operations have the hashes at the roots after the first. -/
theorem Made.root_operations (hm : h.Made nodes t es v) :
    h.operations.map Operation.root = h.roots.tail.map Root.node := by
  rw [List.map_tail, hm.roots, hm.operations]
  simp [versions]

/-- A history shows one version. -/
theorem Shows.unique {u : Version} (hu : h.Shows nodes u) (hv : h.Shows nodes v) : u = v :=
  Version.eq_of_hash nodes.injOn_hash_stored hu.stored hv.stored (hu.root.symm.trans hv.root)

theorem Made.start (nodes : NodeMap) (t : TreeId) : (start (.empty t)).Made nodes t [] none where
  inOrder := .start t
  leads := rfl
  roots := rfl
  operations := rfl
  stored := by simp
  index := .empty

/-- What is stored stays stored. -/
theorem Made.mono (hm : h.Made nodes t es v) (hn : nodes.stored ⊆ nodes'.stored) :
    h.Made nodes' t es v :=
  { hm with stored := fun e he => (hm.stored e he).mono hn }

theorem Made.extend {U : Set Node} (hm : h.Made nodes t es e.source) (hf : e.Fresh)
    (hU : Set.InjOn Node.hash U) (ht : e.target.MadeOf U) (hst : e.target.MadeOf nodes.stored) :
    (h.extend e).Made nodes t (es ++ [e]) e.target where
  inOrder := hm.inOrder.extend e
  leads := hm.leads.snoc hf
  roots := by simp [History.extend, versions_snoc, hm.roots, Root.next]
  operations := by simp [History.extend, hm.operations]
  stored := by
    intro e' he'
    rcases List.mem_append.mp he' with he' | he'
    · exact hm.stored e' he'
    · obtain rfl := List.mem_singleton.mp he'
      exact hst
  index := hm.index.apply (hm.leads.distinct distinct_none) hf hU ht

theorem Made.updateStatus (hm : h.Made nodes t es v) (g : Nat) (status : Status) :
    (h.updateStatus g status).Made nodes t es v where
  inOrder := hm.inOrder.updateStatus g status
  leads := hm.leads
  roots := by rw [h.map_node_updateStatus, hm.roots]
  operations := hm.operations
  stored := hm.stored
  index := hm.index

/-- Any index that describes the last version will do. -/
theorem Made.congr {h' : History} (hm : h.Made nodes t es v) (hr : h'.roots = h.roots)
    (ho : h'.operations = h.operations) (hi : h'.index.Describes v) : h'.Made nodes t es v where
  inOrder := ⟨hr ▸ hm.inOrder.root, by rw [hr, ho, hm.inOrder.operations]⟩
  leads := hm.leads
  roots := by rw [hr, hm.roots]
  operations := by rw [ho, hm.operations]
  stored := hm.stored
  index := hi

end History

/-! ## States -/

namespace State

open Edit

/-- Every node belongs to a stored tree and every history is made by edits. -/
structure Sound (s : State) : Prop where
  nodes : s.nodes.Sound
  trees : ∀ (t : TreeId) (h : History), s.trees[t]? = some h → ∃ es v, h.Made s.nodes t es v

variable {s : State} {t : TreeId} {h : History} {e : Edit} {ev : Event} {U : Set Node}

theorem Sound.empty : Sound .empty where
  nodes := .empty
  trees := by simp [State.empty]

theorem within_after (hw : s.nodes.Within U) (hU : ∀ n ∈ ev.made, n ∈ U) :
    (s.after ev).nodes.Within U := by
  cases ev with
  | start t => exact hw
  | edit t e =>
      simp only [after]
      split
      · exact hw
      · exact hw.addAll hU
  | confirm t g =>
      simp only [after]
      split <;> exact hw

/-- After an edit the new version is stored. -/
theorem Sound.stored_target (hs : s.Sound) (hw : s.nodes.Within U) (hU : Set.InjOn Node.hash U)
    (he : ∀ n ∈ e.made, n ∈ U) (hsource : e.source.MadeOf s.nodes.stored) :
    e.target.MadeOf (s.nodes.addAll e.made).stored := by
  intro a ha
  rcases mem_subtrees_target ha with hold | hnew | ⟨-, hnew⟩
  · exact NodeMap.stored_subset_addAll (hsource a hold)
  · exact NodeMap.mem_stored_addAll hU hs.nodes hw he (node_mem_made hnew)
  · exact NodeMap.mem_stored_addAll hU hs.nodes hw he hnew

/-- Every event keeps a state sound. -/
theorem Sound.after (hs : s.Sound) (hw : s.nodes.Within U) (hU : Set.InjOn Node.hash U)
    (hev : ∀ n ∈ ev.made, n ∈ U) (ha : s.Admits ev) : (s.after ev).Sound := by
  -- one tree is set, and what the others are made of stays stored
  have other {s' : State} {t : TreeId} {h : History} {es v} (hn : s'.nodes.Sound)
      (hst : s.nodes.stored ⊆ s'.nodes.stored) (hh : h.Made s'.nodes t es v)
      (htrees : s'.trees = s.trees) : (s'.setTree t h).Sound := by
    refine ⟨hn, fun t' h' ht' => ?_⟩
    rw [getElem?_setTree] at ht'
    split at ht'
    · next heq =>
        cases ht'
        exact heq ▸ ⟨es, v, hh⟩
    · rw [htrees] at ht'
      obtain ⟨es, v, hm⟩ := hs.trees t' h' ht'
      exact ⟨es, v, hm.mono hst⟩
  cases ev with
  | start t => exact other hs.nodes (fun _ h => h) (.start _ t) rfl
  | edit t e =>
      obtain ⟨h, ht, ho, hshows, hf⟩ := ha
      obtain ⟨es, v, hm⟩ := hs.trees t h ht
      obtain rfl := hm.shows.unique hshows
      have hst := hs.stored_target hw hU hev hshows.stored
      have hsub := (hw.addAll hev).stored_subset
      simp only [State.after, ht]
      refine other ?_ NodeMap.stored_subset_addAll
        ((hm.mono NodeMap.stored_subset_addAll).extend hf hU (hst.mono hsub) hst) rfl
      refine hs.nodes.addAll fun n hn => ?_
      obtain ⟨a, ha, hnode⟩ := exists_of_mem_made hn
      exact ⟨a, hst.of_mem ha, hnode⟩
  | confirm t g =>
      obtain ⟨h, ht, -⟩ := ha
      obtain ⟨es, v, hm⟩ := hs.trees t h ht
      simp only [State.after, ht]
      exact other hs.nodes (fun _ h => h) (hm.updateStatus g .committed) rfl

end State

end MerkleStore
