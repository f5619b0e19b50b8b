import MerkleStore.Proofs.Exactness
import MerkleStore.Proofs.Transparency

/-!
# What a server tells of trees that are out of service

Nothing that is asked by the name of a tree out of service is told. A root or an operation that is
told is one of a tree that is served. Nodes are kept for all trees together, and so the nodes under
a hash are told under the name of any tree that is served (`Server.withheld_told`). Where the hash
is itself found under a root of a served tree, so is all that is told (`Server.Withholds`). Apart
from requests for the nodes under other hashes, no answer depends on the trees out of service, nor
on nodes that are found only there (`Server.Withholds.blind`).
-/

namespace MerkleStore

/-! ## What is found under served trees -/

namespace NodeMap

variable {a b : NodeMap} {h k : Hash}

theorem reaches_congr (hsame : ∀ k, a.Reaches h k → a[k]? = b[k]?) (hk : b.Reaches h k) :
    a.Reaches h k := by
  induction hk with
  | here => exact .here _
  | left hn _ ih =>
      have hn' := (hsame _ (.here _)).trans hn
      exact .left hn' (ih fun k hk => hsame k (.left hn' hk))
  | right hn _ ih =>
      have hn' := (hsame _ (.here _)).trans hn
      exact .right hn' (ih fun k hk => hsame k (.right hn' hk))

/-- Where the same is found below a hash, walks give the same or are both endless. -/
theorem nodes_preorder_congr (hsame : ∀ k, a.Reaches h k → a[k]? = b[k]?) :
    (a.preorder h).nodes = (b.preorder h).nodes := by
  have hback : ∀ k, b.Reaches h k → b[k]? = a[k]? := fun k hk =>
    (hsame k (reaches_congr hsame hk)).symm
  by_cases ha : (a.preorder h).Ends
  · rw [preorder_congr ha hsame]
  · by_cases hb : (b.preorder h).Ends
    · rw [preorder_congr hb hback]
    · rw [Trace.nodes, Trace.nodes, not_not.mp ha, not_not.mp hb]

end NodeMap

namespace Store

variable {s s' : Store} {t : TreeId} {h k : Hash}

/-- A hash is found under a root of a tree that is served. -/
def Exposed (s : Store) (k : Hash) : Prop :=
  ∃ t h r top, s.servedTree t = .ok h ∧ r ∈ h.roots ∧ r.node = some top ∧
    s.state.nodes.Reaches top k

theorem Exposed.below (he : s.Exposed h) (hk : s.state.nodes.Reaches h k) : s.Exposed k := by
  obtain ⟨t, H, r, top, hserved, hr, htop, hh⟩ := he
  exact ⟨t, H, r, top, hserved, hr, htop, hh.trans hk⟩

/-- Another store has the same trees with the same ones out of service. Those that are served have
the same histories there, with the same nodes under them. -/
structure LooksLike (s s' : Store) : Prop where
  quarantined : s.quarantined = s'.quarantined
  trees : ∀ t, s.hasTree t = s'.hasTree t
  served : ∀ t, s.isOutOfService t = false → s.state.trees[t]? = s'.state.trees[t]?
  exposed : ∀ k, s.Exposed k → s.state.nodes[k]? = s'.state.nodes[k]?

theorem LooksLike.isOutOfService (hl : s.LooksLike s') (t : TreeId) :
    s.isOutOfService t = s'.isOutOfService t := by
  rw [Store.isOutOfService, Store.isOutOfService, hl.quarantined]

theorem LooksLike.servedTree (hl : s.LooksLike s') (t : TreeId) :
    s.servedTree t = s'.servedTree t := by
  have hout := hl.isOutOfService t
  rw [Store.servedTree, Store.servedTree, requireInService, requireInService, ← hout]
  cases hserved : s.isOutOfService t with
  | true => rfl
  | false => rw [State.tree, State.tree, hl.served t hserved]

/-- Each operation that is given is one of the tree with the status of its generation. -/
theorem mem_operations {first last : Nat} {os : List Operation} {o : Operation}
    (hos : s.operations t first last = .ok os) (ho : o ∈ os) :
    ∃ H o' r, s.servedTree t = .ok H ∧ o' ∈ H.operations ∧ r ∈ H.roots ∧
      o = o'.withStatus r.status := by
  rw [operations] at hos
  obtain ⟨H, hserved, hos⟩ := bind_eq_ok.mp hos
  simp only [bind, Except.bind, throw, throwThe, MonadExceptOf.throw, pure, Except.pure] at hos
  by_cases hrange : last < first ∨ H.latest.generation < last
  · simp [if_pos hrange] at hos
  rw [if_neg hrange] at hos
  by_cases hlogged : H.operations.length < last
  · simp [if_pos hlogged] at hos
  rw [if_neg hlogged] at hos
  cases hos
  obtain ⟨i, hi, rfl⟩ := List.mem_iff_getElem.mp ho
  rw [List.getElem_zipWith]
  refine ⟨H, _, _, hserved, ?_, ?_, rfl⟩
  · exact List.mem_of_mem_take (List.mem_of_mem_drop (List.getElem_mem _))
  · exact List.mem_of_mem_take (List.mem_of_mem_drop (List.getElem_mem _))

end Store

/-! ## Answers -/

namespace Server

open Wire

variable {s s' : Store} {t : TreeId} {h : Hash} {text : String}

/-- An answer tells that a root is unknown, or it tells a root, operations or nodes by the name of a
tree that is served; the roots and operations are those of this tree, and the nodes are the stored
ones under the hash that was asked for. -/
inductive Tells (s : Store) : Request → String → Prop
  | unknown (t : TreeId) (h : Hash) : Tells s (.root t h) RootReply.unknown.text
  | root {t : TreeId} {h : Hash} {H : History} {r : Root} (ht : s.servedTree t = .ok H)
      (hr : r ∈ H.roots) (hnode : r.node = some h) :
      Tells s (.root t h) (RootReply.ofRoot (some r)).text
  | operations {t : TreeId} {first last : Nat} {H : History} {os : List Operation}
      (ht : s.servedTree t = .ok H)
      (hos : ∀ o ∈ os, ∃ o' ∈ H.operations, ∃ r ∈ H.roots, o = o'.withStatus r.status) :
      Tells s (.operations t first last)
        (OperationItem.listText (os.map OperationItem.ofOperation))
  | nodes {t : TreeId} {h : Hash} {H : History} {vs : List (Hash × Node)}
      (ht : s.servedTree t = .ok H)
      (hvs : ∀ v, v ∈ vs ↔ s.state.nodes.Reaches h v.1 ∧ s.state.nodes[v.1]? = some v.2) :
      Tells s (.nodes t h) (nodesText (vs.map Prod.snd))

/-- What trees out of service mean for the answers. -/
structure Withholds (s : Store) : Prop where
  /-- By the name of a tree out of service no root is known. -/
  root : ∀ t, s.isOutOfService t = true → ∀ h,
    reply s (.root t h) = .ok RootReply.unknown.text
  operations : ∀ t, s.isOutOfService t = true → ∀ first last,
    reply s (.operations t first last) = .error (.quarantined t)
  nodes : ∀ t, s.isOutOfService t = true → ∀ h, reply s (.nodes t h) =
    .error (if s.hasTree t then .quarantined t else .notFound (.tree t))
  tells : ∀ r text, reply s r = .ok text → Tells s r text
  /-- Under a hash that is found under a root of a served tree only such nodes are told. -/
  exposed : ∀ t h text, reply s (.nodes t h) = .ok text → s.Exposed h →
    ∃ vs : List (Hash × Node), text = nodesText (vs.map Prod.snd) ∧
      ∀ v ∈ vs, s.Exposed v.1 ∧ s.state.nodes[v.1]? = some v.2
  /-- Apart from nodes under other hashes, a store that differs only in what is out of service is
  answered for in the same way. -/
  blind : ∀ s', s.LooksLike s' → ∀ r, (∀ t h, r = .nodes t h → s.Exposed h) →
    reply s r = reply s' r

theorem exists_servedTree (hthere : s.hasTree t = true) (hserved : s.isOutOfService t = false) :
    ∃ H, s.servedTree t = .ok H := by
  obtain ⟨H, ht⟩ := Option.isSome_iff_exists.mp
    (Std.ExtTreeMap.mem_iff_isSome_getElem?.mp (Std.ExtTreeMap.contains_iff_mem.mp hthere))
  exact ⟨H, Store.servedTree_eq_ok.mpr ⟨hserved, ht⟩⟩

theorem servedTree_of_out (hout : s.isOutOfService t = true) :
    s.servedTree t = .error (.quarantined t) := by
  rw [Store.servedTree, Store.requireInService, if_pos hout]
  rfl

theorem tells_root (htext : reply s (.root t h) = .ok text) : Tells s (.root t h) text := by
  rcases lastRootWith_cases s t (some h) with ⟨found, hfound⟩ | herror | herror
  · rw [reply, hfound] at htext
    cases htext
    cases found with
    | none => exact .unknown t h
    | some r =>
        obtain ⟨H, ht⟩ := Replica.servedTree_of_lastRootWith hfound
        refine .root ht ?_ (Peer.node_of_lastRootWith hfound)
        rw [Store.lastRootWith, ht] at hfound
        exact List.mem_reverse.mp (List.mem_of_find?_eq_some (Except.ok.inj hfound))
  · rw [reply, herror] at htext
    cases htext
    exact .unknown t h
  · rw [reply, herror] at htext
    cases htext
    exact .unknown t h

/-- Whatever is answered is told of a tree that is served. -/
theorem tells_of_reply {r : Request} (htext : reply s r = .ok text) : Tells s r text := by
  cases r with
  | root t h => exact tells_root htext
  | nodes t h =>
      obtain ⟨hthere, hserved, hf, rfl⟩ := reply_nodes_eq_ok.mp htext
      obtain ⟨H, ht⟩ := exists_servedTree hthere hserved
      exact .nodes ht fun v => NodeMap.mem_visited_iff hf
  | operations t first last =>
      rw [reply_operations] at htext
      cases hos : s.operations t first last with
      | error e =>
          rw [hos] at htext
          cases htext
      | ok os =>
          rw [hos] at htext
          cases htext
          obtain ⟨H, ht, -⟩ := bind_eq_ok.mp hos
          refine .operations ht fun o ho => ?_
          obtain ⟨H', o', r, ht', ho', hr, heq⟩ := Store.mem_operations hos ho
          obtain rfl := Except.ok.inj (ht.symm.trans ht')
          exact ⟨o', ho', r, hr, heq⟩
  | close => cases htext

/-- Only what is asked about other nodes depends on trees out of service. -/
theorem reply_congr (hl : s.LooksLike s') {r : Request}
    (hr : ∀ t h, r = .nodes t h → s.Exposed h) : reply s r = reply s' r := by
  cases r with
  | root t h => simp only [reply, Store.lastRootWith, hl.servedTree t]
  | nodes t h =>
      have hnodes : (s.preorder h).nodes = (s'.preorder h).nodes :=
        NodeMap.nodes_preorder_congr fun k hk => hl.exposed k ((hr t h rfl).below hk)
      simp only [reply, Store.requireInService, hl.trees t, hl.isOutOfService t, hnodes]
  | operations t first last => simp only [reply, Store.operations, hl.servedTree t]
  | close => rfl

/-- Nothing is told by the name of a tree out of service. Roots and operations that are told are
those of served trees. Nodes are told under any hash, but under one that a served tree leads to they
are nodes that served trees lead to. -/
theorem withholds (s : Store) : Withholds s where
  root := by
    intro t hout h
    rw [reply, Store.lastRootWith, servedTree_of_out hout]
    rfl
  operations := by
    intro t hout first last
    rw [reply_operations, Store.operations, servedTree_of_out hout]
    rfl
  nodes := by
    intro t hout h
    rw [reply, Store.requireInService, if_pos hout]
    cases s.hasTree t <;> rfl
  tells := fun _ _ htext => tells_of_reply htext
  exposed := by
    intro t h text htext he
    obtain ⟨-, -, hf, rfl⟩ := reply_nodes_eq_ok.mp htext
    refine ⟨_, rfl, fun v hv => ?_⟩
    obtain ⟨hreach, hn⟩ := (NodeMap.mem_visited_iff hf).mp hv
    exact ⟨he.below hreach, hn⟩
  blind := fun _ hl _ hr => reply_congr hl hr

/-- A tree whose second root leads to no node, an empty tree, and an audit. -/
def withheldDeeds : List Store.Deed :=
  [.call (.addTree sampleTree), .call (.insert sampleTree [1] [10] none none),
    .commit (Transaction.empty.add
      (.root ⟨sampleTree, 2, some (.terminal [3] [30]), .pending⟩)),
    .call (.addTree Store.lostTree), .call .audit]

/-- The first tree is out of service, and its node, which no other tree leads to, is told by the
name of the second one. -/
theorem withheld_told :
    let s := withheldDeeds.foldl Store.Deed.after .volatile
    let leaf := Terminal.ofPair [1] [10]
    s.isOutOfService sampleTree = true ∧
      (∃ H r, s.state.trees[sampleTree]? = some H ∧ r ∈ H.roots ∧ r.node = some leaf.hash) ∧
      ¬ s.Exposed leaf.hash ∧
      reply s (.nodes Store.lostTree leaf.hash) = .ok (nodesText [.terminal leaf]) := by
  intro s leaf
  have heval : s.isOutOfService sampleTree = true ∧
      (s.state.trees[sampleTree]?.map fun H => H.roots[1]?.map Root.node) =
        some (some (some leaf.hash)) ∧
      (∀ p ∈ s.state.trees.toList, s.isOutOfService p.1 = false → ∀ r ∈ p.2.roots, r.node = none) ∧
      (s.hasTree Store.lostTree = true ∧ s.isOutOfService Store.lostTree = false ∧
        (s.preorder leaf.hash).failure.isNone = true ∧
        (s.preorder leaf.hash).visited.map Prod.snd = [.terminal leaf]) := by decide +kernel
  obtain ⟨hout, htree, hempty, hthere, hserved, hf, hvisited⟩ := heval
  refine ⟨hout, ?_, ?_, ?_⟩
  · obtain ⟨H, ht, hroot⟩ := Option.map_eq_some_iff.mp htree
    obtain ⟨r, hr, hnode⟩ := Option.map_eq_some_iff.mp hroot
    exact ⟨H, r, ht, List.mem_of_getElem? hr, hnode⟩
  · rintro ⟨t, H, r, top, ht, hr, htop, -⟩
    obtain ⟨hin, htree⟩ := Store.servedTree_eq_ok.mp ht
    have hnone := hempty (t, H) (Std.ExtTreeMap.mem_toList_iff_getElem?_eq_some.mpr htree) hin r hr
    rw [hnone] at htop
    cases htop
  · refine reply_nodes_eq_ok.mpr ⟨hthere, hserved, Option.isNone_iff_eq_none.mp hf, ?_⟩
    rw [hvisited]

end Server

end MerkleStore
