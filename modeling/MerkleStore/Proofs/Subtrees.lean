import MerkleStore.Proofs.Transparency

/-!
# What is taken for a subtree

The nodes of a tree are listed from the top, left before right (`Tree.listing`), and a list of
nodes is such a listing if it can be folded up from its end: a leaf is put in front of the trees
behind it, and a branch over the first two of them (`Tree.forest`). A replica that asks for the
nodes under a hash gets such a list from a server that keeps to the rules. It does not fold up
what it gets, though. It computes the hashes of the nodes and looks at the first one only, so
that a server can make it take anything that starts with the right node, and an empty list as well
(`Replica.taken_of_run`, `Replica.incomplete_subtree_taken`).
-/

namespace MerkleStore

/-! ## Listings -/

namespace Tree

variable {ns : List Node} {ts : List Tree} {h : Hash}

/-- The nodes of a tree: the one at the top, then those of its left subtree, then those of its
right one. -/
def listing (t : Tree) : List Node := t.subtrees.map Tree.node

theorem listing_leaf (key value : Bytes) :
    (leaf key value).listing = [.terminal (.ofPair key value)] := rfl

theorem listing_branch (l r : Tree) :
    (branch l r).listing = .internal (.ofPair l.hash r.hash) :: (l.listing ++ r.listing) := by
  simp only [listing, subtrees, List.map_cons, List.map_append, node]

theorem exists_head?_listing (t : Tree) : ∃ n, n ∈ t.listing.head? := by
  cases t with
  | leaf key value => exact ⟨_, rfl⟩
  | branch l r => exact ⟨_, rfl⟩

theorem hash_eq_of_head?_listing {n : Node} {t : Tree} (hn : n ∈ t.listing.head?) :
    n.hash = t.hash := by
  cases t with
  | leaf key value =>
      cases hn
      rfl
  | branch l r =>
      rw [listing_branch] at hn
      cases hn
      rfl

theorem hash_eq_contentHash_of_mem_listing {n : Node} {t : Tree} (hn : n ∈ t.listing) :
    n.hash = n.contentHash := by
  obtain ⟨u, -, rfl⟩ := List.mem_map.mp hn
  rw [hash_node, contentHash_node]

/-- Puts a node in front of trees: a leaf as a tree of its own, a branch over the first two. -/
def graft : Node → List Tree → Option (List Tree)
  | .terminal n, ts => if n = .ofPair n.key n.value then some (leaf n.key n.value :: ts) else none
  | .internal n, l :: r :: ts => if n = .ofPair l.hash r.hash then some (branch l r :: ts) else none
  | .internal _, _ => none

/-- The trees that are listed one after the other. -/
def forest (ns : List Node) : Option (List Tree) :=
  ns.foldr (fun n ts => ts.bind (graft n)) (some [])

theorem forest_cons (n : Node) (ns : List Node) : forest (n :: ns) = (forest ns).bind (graft n) :=
  rfl

/-- In front of listings a listing is read as its tree. -/
theorem forest_listing_append (t : Tree) (hns : forest ns = some ts) :
    forest (t.listing ++ ns) = some (t :: ts) := by
  induction t generalizing ns ts with
  | leaf key value =>
      rw [listing_leaf, List.singleton_append, forest_cons, hns]
      exact if_pos rfl
  | branch l r ihl ihr =>
      rw [listing_branch, List.cons_append, List.append_assoc, forest_cons, ihl (ihr hns)]
      exact if_pos rfl

theorem forest_listing (t : Tree) : forest t.listing = some [t] := by
  have hforest := forest_listing_append t (show forest [] = some [] from rfl)
  rwa [List.append_nil] at hforest

/-- Nothing but listings is read as trees. -/
theorem eq_of_forest (hns : forest ns = some ts) : ns = ts.flatMap listing := by
  induction ns generalizing ts with
  | nil =>
      cases hns
      rfl
  | cons n ns ih =>
      rw [forest_cons] at hns
      obtain ⟨us, hus, hgraft⟩ := Option.bind_eq_some_iff.mp hns
      obtain rfl := ih hus
      cases n with
      | terminal n =>
          rw [graft] at hgraft
          split at hgraft
          · next hn =>
              cases hgraft
              rw [List.flatMap_cons, listing_leaf, ← hn]
              rfl
          · cases hgraft
      | internal n =>
          cases us with
          | nil => cases hgraft
          | cons l us =>
              cases us with
              | nil => cases hgraft
              | cons r us =>
                  rw [graft] at hgraft
                  split at hgraft
                  · next hn =>
                      cases hgraft
                      rw [hn]
                      simp only [List.flatMap_cons, listing_branch, List.cons_append,
                        List.append_assoc]
                  · cases hgraft

end Tree

/-- Nodes are the whole listing of a tree with this hash. -/
def IsSubtree (h : Hash) (ns : List Node) : Prop := ∃ t : Tree, t.hash = h ∧ t.listing = ns

/-- Nodes are a subtree if they fold up to one tree with its hash. -/
theorem isSubtree_iff {h : Hash} {ns : List Node} :
    IsSubtree h ns ↔ (Tree.forest ns).map (·.map Tree.hash) = some [h] := by
  constructor
  · rintro ⟨t, rfl, rfl⟩
    rw [Tree.forest_listing]
    rfl
  · intro hhash
    obtain ⟨ts, hforest, hts⟩ := Option.map_eq_some_iff.mp hhash
    obtain ⟨t, rfl, ht⟩ := List.map_eq_singleton_iff.mp hts
    refine ⟨t, ht, ?_⟩
    rw [Tree.eq_of_forest hforest]
    simp

instance (h : Hash) (ns : List Node) : Decidable (IsSubtree h ns) :=
  decidable_of_iff _ isSubtree_iff.symm

theorem Terminal.eq_ofPair {n : Terminal} (hn : n.hash = (Node.terminal n).contentHash) :
    n = .ofPair n.key n.value := by
  obtain ⟨h, key, value⟩ := n
  obtain rfl : h = .terminal key value := hn
  rfl

theorem Internal.eq_ofPair {n : Internal} (hn : n.hash = (Node.internal n).contentHash) :
    n = .ofPair n.left n.right := by
  obtain ⟨h, left, right⟩ := n
  obtain rfl : h = .internal left right := hn
  rfl

theorem NodeMap.Lists.mem {nodes : NodeMap} {h : Hash} {ns : List Node} (hns : nodes.Lists h ns) :
    h ∈ nodes := by
  cases hns with
  | terminal hn | internal hn _ _ => exact NodeMap.mem_of_getElem? hn

/-- Nodes that are stored under the hashes of their contents make subtrees. -/
theorem NodeMap.Lists.isSubtree {nodes : NodeMap} {h : Hash} {ns : List Node}
    (ha : nodes.Addressed) (hns : nodes.Lists h ns) : IsSubtree h ns := by
  induction hns with
  | @terminal h n hn =>
      obtain ⟨hhash, hcontent⟩ := ha h _ hn
      have heq := Terminal.eq_ofPair (hhash.trans hcontent.symm)
      refine ⟨.leaf n.key n.value, hcontent, ?_⟩
      rw [Tree.listing_leaf, ← heq]
  | @internal h n ls rs hn _ _ ihl ihr =>
      obtain ⟨l, hl, rfl⟩ := ihl
      obtain ⟨r, hr, rfl⟩ := ihr
      obtain ⟨hhash, hcontent⟩ := ha h _ hn
      have heq := Internal.eq_ofPair (hhash.trans hcontent.symm)
      refine ⟨.branch l r, ?_, ?_⟩
      · rw [Tree.hash, hl, hr]
        exact hcontent
      · rw [Tree.listing_branch, hl, hr, ← heq]

/-! ## What a replica takes -/

namespace Wire.NodeItem

theorem hash_eq_contentHash_of_toNode {a : NodeItem} {n : Node} (hn : a.toNode = .ok n) :
    n.hash = n.contentHash := by
  unfold toNode at hn
  split at hn <;> cases hn <;> rfl

theorem hash_eq_contentHash_of_mapM {as : List NodeItem} {ns : List Node}
    (hns : as.mapM toNode = .ok ns) {n : Node} (hn : n ∈ ns) : n.hash = n.contentHash := by
  induction as generalizing ns with
  | nil =>
      cases hns
      cases hn
  | cons a as ih =>
      rw [List.mapM_cons] at hns
      obtain ⟨m, hm, hrest⟩ := bind_eq_ok.mp hns
      obtain ⟨ms, hms, heq⟩ := bind_eq_ok.mp hrest
      cases heq
      rcases List.mem_cons.mp hn with rfl | hn
      · exact hash_eq_contentHash_of_toNode hm
      · exact ih hms hn

end Wire.NodeItem

namespace Replica

variable {t : TreeId} {h : Hash} {ns : List Node} {peer : Peer} {c : Session} {text : String}

theorem fetchNodes_eq (t : TreeId) (h : Hash) (peer : Peer) (c : Session) :
    fetchNodes t h peer c =
      (peer.answer c.sent (.nodes t h) (readNodes t h), c.asking (.nodes t h)) :=
  ask_read_eq _ _ peer c

/-- Of the nodes in an answer only the first one is compared with the hash. -/
theorem readNodes_eq_ok : readNodes t h text = .ok ns ↔ ∃ a, Wire.NodesReply.parse text = .ok a ∧
    a.entries.mapM Wire.NodeItem.toNode = .ok ns ∧ ∀ n ∈ ns.head?, n.hash = h := by
  simp only [readNodes, bind_eq_ok]
  refine exists_congr fun a => and_congr_right fun _ => ?_
  constructor
  · rintro ⟨ms, hms, hcheck⟩
    split at hcheck
    · next n _ =>
        split at hcheck
        · cases hcheck
        · next hfirst =>
            cases hcheck
            refine ⟨hms, fun m hm => ?_⟩
            cases hm
            exact not_not.mp hfirst
    · cases hcheck
      exact ⟨hms, by simp⟩
  · rintro ⟨hns, hfirst⟩
    refine ⟨ns, hns, ?_⟩
    cases ns with
    | nil => rfl
    | cons n ns => 
        have := hfirst n rfl
        simp [this, pure, Except.pure]

/-- What a replica takes for the nodes under a hash, if it is told so. -/
def Takable (h : Hash) (ns : List Node) : Prop :=
  (∀ n ∈ ns, n.hash = n.contentHash) ∧ ∀ n ∈ ns.head?, n.hash = h

instance (h : Hash) (ns : List Node) : Decidable (Takable h ns) :=
  inferInstanceAs (Decidable (_ ∧ _))

/-- Whatever can be taken is read in the text that tells it. -/
theorem Takable.readNodes_nodesText (hns : Takable h ns) (t : TreeId) :
    readNodes t h (Server.nodesText ns) = .ok ns :=
  readNodes_eq_ok.mpr ⟨_, Wire.NodesReply.parse_text ns, Wire.NodeItem.mapM_toNode hns.1, hns.2⟩

/-- A server that tells it gets it taken. -/
theorem Takable.fetchNodes_nodesText (hns : Takable h ns) (t : TreeId) (c : Session) :
    (fetchNodes t h (fun _ => [.text (Server.nodesText ns)]) c).1 = .ok ns := by
  rw [fetchNodes_eq]
  exact hns.readNodes_nodesText t

/-- Nothing else is read in any text. -/
theorem takable_of_readNodes (hns : readNodes t h text = .ok ns) : Takable h ns := by
  obtain ⟨a, -, hmap, hfirst⟩ := readNodes_eq_ok.mp hns
  exact ⟨fun n hn => Wire.NodeItem.hash_eq_contentHash_of_mapM hmap hn, hfirst⟩

end Replica

theorem IsSubtree.takable {h : Hash} {ns : List Node} (hns : IsSubtree h ns) :
    Replica.Takable h ns := by
  obtain ⟨t, rfl, rfl⟩ := hns
  exact ⟨fun n hn => Tree.hash_eq_contentHash_of_mem_listing hn,
    fun n hn => Tree.hash_eq_of_head?_listing hn⟩

/-- A subtree that is taken is one with the hash that was asked for. -/
theorem IsSubtree.hash_eq {h k : Hash} {ns : List Node} (hns : IsSubtree k ns)
    (htaken : Replica.Takable h ns) : k = h := by
  obtain ⟨t, rfl, rfl⟩ := hns
  obtain ⟨n, hn⟩ := t.exists_head?_listing
  rw [← Tree.hash_eq_of_head?_listing hn, htaken.2 n hn]

/-- There is one subtree with a hash, unless contents collide. -/
theorem IsSubtree.unique {h : Hash} {ns ms : List Node} (hns : IsSubtree h ns)
    (hms : IsSubtree h ms) (hc : CollisionFree (ns ++ ms)) : ms = ns := by
  have hnamed : ∀ n ∈ ns ++ ms, n.hash = n.contentHash := by
    intro n hn
    exact (List.mem_append.mp hn).elim (hns.takable.1 n) (hms.takable.1 n)
  have hU := hc.injOn_hash hnamed
  obtain ⟨t, rfl, rfl⟩ := hns
  obtain ⟨u, hhash, rfl⟩ := hms
  have hmade {v : Tree} (hv : ∀ n ∈ v.listing, n ∈ t.listing ++ u.listing) :
      v.MadeOf {n | n ∈ t.listing ++ u.listing} :=
    fun w hw => hv _ (List.mem_map_of_mem hw)
  rw [Tree.eq_of_hash hU (hmade fun _ => List.mem_append_right _)
    (hmade fun _ => List.mem_append_left _) hhash]

namespace Replica

variable {t : TreeId} {h : Hash} {ns : List Node} {peer : Peer} {c : Session}

/-- What can be got a replica to take. -/
theorem exists_fetchNodes_iff (t : TreeId) (c : Session) :
    (∃ peer, (fetchNodes t h peer c).1 = .ok ns) ↔ Takable h ns := by
  constructor
  · rintro ⟨peer, hns⟩
    rw [fetchNodes_eq, Peer.answer] at hns
    obtain ⟨text, -, hread⟩ := bind_eq_ok.mp hns
    exact takable_of_readNodes hread
  · intro hns
    exact ⟨_, hns.fetchNodes_nodesText t c⟩

/-- From a server that keeps to the rules a replica gets what is under the hash in its store. -/
theorem fetchNodes_honest {S : Store} (hg : S.state.nodes.Grounded)
    (ha : S.state.nodes.Addressed) :
    (fetchNodes t h (.honest S) c).1 = .ok ns ↔
      S.hasTree t = true ∧ S.isOutOfService t = false ∧ S.state.nodes.Lists h ns := by
  rw [fetchNodes_eq, Peer.answer_honest (Request.parse_text_nodes t h) (by simp)]
  constructor
  · intro hns
    cases hreply : Server.reply S (.nodes t h) with
    | error e =>
        rw [hreply] at hns
        cases hns
    | ok text =>
        obtain ⟨hthere, hserved, hf, rfl⟩ := Server.reply_nodes_eq_ok.mp hreply
        rw [hreply] at hns
        obtain rfl := Except.ok.inj ((Server.readNodes_nodesText ha hf t).symm.trans hns)
        exact ⟨hthere, hserved, NodeMap.lists_of_failure_eq_none hf⟩
  · rintro ⟨hthere, hserved, hns⟩
    have hf : (S.preorder h).failure = none := hg.failure_walk .left _ hns.mem
    rw [Server.reply_nodes_eq_ok.mpr ⟨hthere, hserved, hf, rfl⟩]
    simp only [Server.readNodes_nodesText ha hf t]
    exact congrArg Except.ok ((NodeMap.lists_of_failure_eq_none hf).unique hns)

/-- Whatever a server answers, a replica takes nodes that are named by their contents, with the
one that was asked for in front, and it takes any such nodes. A server that keeps to the rules
gives a subtree. From others a replica may get a list that is none, but no subtree other than the
one that was asked for. -/
theorem taken_of_run {s₀ s : Store} (hnew : s₀.IsNew) {steps : List Step}
    (hrun : run s₀ steps = .ok s) (t : TreeId) (h : Hash) (c : Session) :
    (∀ ns, (∃ peer, (fetchNodes t h peer c).1 = .ok ns) ↔ Takable h ns) ∧
      (∀ ns, (fetchNodes t h (.honest s) c).1 = .ok ns ↔
        s.hasTree t = true ∧ s.isOutOfService t = false ∧ s.state.nodes.Lists h ns) ∧
      (∀ ns, s.state.nodes.Lists h ns → IsSubtree h ns) ∧
      ∀ peer ns k, (fetchNodes t h peer c).1 = .ok ns → IsSubtree k ns →
        k = h ∧ ∀ ms, IsSubtree h ms → CollisionFree (ns ++ ms) → ms = ns := by
  have hg := (hnew.orderly.of_run hrun).state.grounded
  have ha := Store.addressed_of_run hnew hrun
  refine ⟨fun ns => exists_fetchNodes_iff t c, fun ns => fetchNodes_honest hg ha,
    fun ns hns => hns.isSubtree ha, fun peer ns k htaken hns => ?_⟩
  obtain rfl := hns.hash_eq ((exists_fetchNodes_iff t c).mp ⟨peer, htaken⟩)
  exact ⟨rfl, fun ms hms hc => hns.unique hms hc⟩

/-- A server that keeps to the rules tells both keys of a small tree. -/
theorem taken_of_sampleSteps :
    let steps := sampleSteps.take 4
    let root := Hash.internal (.terminal [2] [20]) (.terminal [1] [10])
    ∃ s ns, run (.create sampleCodec) steps = .ok s ∧
      (fetchNodes sampleTree root (.honest s) ⟨.volatile, []⟩).1 = .ok ns ∧
      ns.length = 3 ∧ IsSubtree root ns := by
  intro steps root
  have heval : (do
      let s ← (run (.create sampleCodec) steps).toOption
      let trace := s.preorder root
      return (s.hasTree sampleTree, s.isOutOfService sampleTree, trace.failure,
        trace.visited.length)) = some (true, false, none, 3) := by
    decide +kernel
  simp only [Option.bind_eq_bind, Option.bind_eq_some_iff, pure, Option.some.injEq,
    Prod.mk.injEq] at heval
  obtain ⟨s, hs, hthere, hserved, hf, hlength⟩ := heval
  have hrun := eq_ok_of_toOption hs
  obtain ⟨-, hhonest, hsubtree, -⟩ :=
    taken_of_run (.inr ⟨_, rfl⟩) hrun sampleTree root ⟨.volatile, []⟩
  have hlists : s.state.nodes.Lists root ((s.preorder root).visited.map Prod.snd) :=
    NodeMap.lists_of_failure_eq_none hf
  exact ⟨s, _, hrun, (hhonest _).mpr ⟨hthere, hserved, hlists⟩,
    (List.length_map _).trans hlength, hsubtree _ hlists⟩

/-- A replica takes lists that are not the subtree it has asked for: none at all, a branch alone, a
branch with its subtrees the other way round, and a leaf with another one behind it. -/
theorem incomplete_subtree_taken :
    let a : Node := .terminal (.ofPair [1] [10])
    let b : Node := .terminal (.ofPair [2] [20])
    let branch : Node := .internal (.ofPair a.hash b.hash)
    let fetched (h : Hash) (ns : List Node) :=
      (fetchNodes sampleTree h (fun _ => [.text (Server.nodesText ns)]) ⟨.volatile, []⟩).1
    (fetched a.hash [] = .ok [] ∧ ¬ IsSubtree a.hash []) ∧
      (fetched branch.hash [branch] = .ok [branch] ∧ ¬ IsSubtree branch.hash [branch]) ∧
      (fetched branch.hash [branch, b, a] = .ok [branch, b, a] ∧
        ¬ IsSubtree branch.hash [branch, b, a]) ∧
      (fetched a.hash [a, b] = .ok [a, b] ∧ ¬ IsSubtree a.hash [a, b]) := by
  intro a b branch fetched
  have htaken {h : Hash} {ns : List Node} (hns : Takable h ns ∧ ¬ IsSubtree h ns) :
      fetched h ns = .ok ns ∧ ¬ IsSubtree h ns :=
    ⟨hns.1.fetchNodes_nodesText sampleTree _, hns.2⟩
  exact ⟨htaken (by decide +kernel), htaken (by decide +kernel), htaken (by decide +kernel),
    htaken (by decide +kernel)⟩

end Replica

end MerkleStore
