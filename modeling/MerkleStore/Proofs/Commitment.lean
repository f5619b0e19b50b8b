import MerkleStore.Proofs.Addressing
import MerkleStore.Proofs.Divergence
import MerkleStore.Proofs.Stepwise

/-!
# A hash stands for everything under it

Two stores may hold the same hash. If each of them keeps what lies under it by the hashes of the
contents (`NodeMap.Vouches`), then they keep the same nodes there and walks give the same, or
two of their nodes have different contents with one digest (`NodeMap.same_or_collide`). This
rests on contents being read in one way only (`Node.eq_of_content`): the first byte tells a leaf
from a branch, the length of a key stands in front of it, and hashes have one length.
-/

namespace MerkleStore

/-! ## Contents -/

/-- The bytes under the hash of a node. -/
def Node.content : Node → Bytes
  | terminal n => Hash.terminalContent n.key n.value
  | internal n => Hash.internalContent n.left n.right

theorem Node.contentHash_eq (n : Node) : n.contentHash = .digest n.content := by
  cases n <;> rfl

namespace Hash

variable {key key' value value' : Bytes} {left right left' right' : Hash}

/-- The content of a leaf is read in one way, as long as eight bytes hold the length of its
key. -/
theorem terminalContent_inj (hkey : key.length < 2 ^ 64) (hkey' : key'.length < 2 ^ 64)
    (h : terminalContent key value = terminalContent key' value') :
    key = key' ∧ value = value' := by
  simp only [terminalContent, List.cons_append, List.cons.injEq, true_and,
    List.append_assoc] at h
  obtain ⟨hnumber, hrest⟩ := List.append_inj h (by simp)
  have hlength : key.length = key'.length := by
    have hread {n : Nat} (hn : n < 2 ^ 64) : ofLittleEndian (littleEndian 8 n) = n :=
      ofLittleEndian_littleEndian hn
    rw [← hread hkey, hnumber, hread hkey']
  exact List.append_inj hrest hlength

theorem internalContent_inj (h : internalContent left right = internalContent left' right') :
    left = left' ∧ right = right' := by
  simp only [internalContent, List.cons_append, List.cons.injEq, true_and] at h
  obtain ⟨hleft, hright⟩ :=
    List.append_inj h (by rw [left.bytes.length_eq, left'.bytes.length_eq])
  exact ⟨congrArg mk (Bytes32.ext hleft), congrArg mk (Bytes32.ext hright)⟩

/-- No leaf has the content of a branch. -/
theorem terminalContent_ne_internalContent :
    terminalContent key value ≠ internalContent left right := by
  intro h
  have hhead := congrArg List.head? h
  simp [terminalContent, internalContent] at hhead

end Hash

/-- Eight bytes hold the length of the key of a leaf. -/
def Node.KeyFits (n : Node) : Prop := ∀ m, n = .terminal m → m.key.length < 2 ^ 64

instance (n : Node) : Decidable n.KeyFits :=
  match n with
  | .terminal m => decidable_of_iff (m.key.length < 2 ^ 64) (by simp [Node.KeyFits])
  | .internal _ => isTrue (by simp [Node.KeyFits])

/-- Nodes with one name and one content are the same. -/
theorem Node.eq_of_content {n m : Node} (hn : n.KeyFits) (hm : m.KeyFits) (hhash : n.hash = m.hash)
    (hcontent : n.content = m.content) : n = m := by
  cases n with
  | terminal n =>
      cases m with
      | terminal m =>
          obtain ⟨h, key, value⟩ := n
          obtain ⟨h', key', value'⟩ := m
          obtain rfl : h = h' := hhash
          obtain ⟨rfl, rfl⟩ :=
            Hash.terminalContent_inj (hn _ rfl) (hm _ rfl) hcontent
          rfl
      | internal m => exact absurd hcontent Hash.terminalContent_ne_internalContent
  | internal n =>
      cases m with
      | terminal m => exact absurd hcontent.symm Hash.terminalContent_ne_internalContent
      | internal m =>
          obtain ⟨h, left, right⟩ := n
          obtain ⟨h', left', right'⟩ := m
          obtain rfl : h = h' := hhash
          obtain ⟨rfl, rfl⟩ := Hash.internalContent_inj hcontent
          rfl

/-! ## Nodes under a hash -/

namespace NodeMap

variable {a b nodes : NodeMap} {h k : Hash} {n : Node}

/-- Everything under a hash is stored, and stored under the hash of its content. -/
structure Vouches (nodes : NodeMap) (h : Hash) : Prop where
  stored : ∀ k, nodes.Reaches h k → ∃ n, nodes[k]? = some n ∧ n.hash = k ∧ n.contentHash = k
  keys : ∀ k n, nodes.Reaches h k → nodes[k]? = some n → n.KeyFits

/-- Two nodes that are stored under one hash have different contents. -/
def Collide (a b : NodeMap) (h : Hash) : Prop :=
  ∃ k n m, a.Reaches h k ∧ b.Reaches h k ∧ a[k]? = some n ∧ b[k]? = some m ∧
    n.content ≠ m.content ∧ Blake3.digest n.content = Blake3.digest m.content

theorem Reaches.trans {j : Hash} (hk : nodes.Reaches h k) (hj : nodes.Reaches k j) :
    nodes.Reaches h j := by
  induction hk with
  | here => exact hj
  | left hn _ ih => exact .left hn (ih hj)
  | right hn _ ih => exact .right hn (ih hj)

/-- What both keep under a hash is the same, unless it collides. -/
theorem getElem?_eq_or_collide (ha : a.Vouches h) (hb : b.Vouches h) (hreach : a.Reaches h k)
    (hreach' : b.Reaches h k) : a[k]? = b[k]? ∨ a.Collide b h := by
  obtain ⟨n, hn, hname, hhash⟩ := ha.stored k hreach
  obtain ⟨m, hm, hname', hhash'⟩ := hb.stored k hreach'
  by_cases hcontent : n.content = m.content
  · left
    rw [hn, hm, Node.eq_of_content (ha.keys k n hreach hn) (hb.keys k m hreach' hm)
      (hname.trans hname'.symm) hcontent]
  · right
    refine ⟨k, n, m, hreach, hreach', hn, hm, hcontent, ?_⟩
    rw [Node.contentHash_eq] at hhash hhash'
    exact congrArg Hash.bytes (hhash.trans hhash'.symm)

/-- Whatever is found under a hash in one store is found there in the other one, and is the same
node. -/
theorem reaches_of_not_collide (ha : a.Vouches h) (hb : b.Vouches h) (hno : ¬ a.Collide b h)
    (hk : a.Reaches h k) : b.Reaches h k ∧ a[k]? = b[k]? := by
  have hsame {k : Hash} (hk : a.Reaches h k) (hk' : b.Reaches h k) : a[k]? = b[k]? :=
    (getElem?_eq_or_collide ha hb hk hk').resolve_right hno
  -- from a hash that both come to, the way goes on through the same nodes
  have hway {i j : Hash} (hi : a.Reaches j i) (hj : a.Reaches h j) (hj' : b.Reaches h j) :
      b.Reaches h i := by
    induction hi with
    | here => exact hj'
    | left hn _ ih =>
        have hn' := hsame hj hj' ▸ hn
        exact ih (hj.trans (.left hn (.here _))) (hj'.trans (.left hn' (.here _)))
    | right hn _ ih =>
        have hn' := hsame hj hj' ▸ hn
        exact ih (hj.trans (.right hn (.here _))) (hj'.trans (.right hn' (.here _)))
  have hk' := hway hk (.here h) (.here h)
  exact ⟨hk', hsame hk hk'⟩

/-- A walk depends on what is found under its start. -/
theorem preorderWithin_congr {d : Nat} (hsame : ∀ k, a.Reaches h k → a[k]? = b[k]?) :
    a.preorderWithin d h = b.preorderWithin d h := by
  induction d generalizing h with
  | zero => rfl
  | succ d ih =>
      have hhere := hsame h (.here h)
      cases hn : a[h]? with
      | none => simp [walkWithin, ← hhere, hn]
      | some n =>
          cases n with
          | terminal n => simp [walkWithin, ← hhere, hn]
          | internal n =>
              rw [preorderWithin_internal hn, preorderWithin_internal (hhere ▸ hn),
                ih fun k hk => hsame k (.left hn hk), ih fun k hk => hsame k (.right hn hk)]

theorem preorder_congr (hends : (a.preorder h).Ends)
    (hsame : ∀ k, a.Reaches h k → a[k]? = b[k]?) : a.preorder h = b.preorder h := by
  have hdeep : a.preorder h = b.preorderWithin (a.size + 1) h := preorderWithin_congr hsame
  rw [hdeep] at hends ⊢
  exact preorderWithin_eq_preorder hends

/-- If two stores vouch for what is under a hash, walks from there give the same nodes in the
same order, and the same hashes lead to the same nodes, or two contents with one digest can be
read off the stores. -/
theorem same_or_collide {xs ys : List (Except Error Node)} (ha : a.Vouches h) (hb : b.Vouches h)
    (hxs : (Cursor.ofStart h).Gives a xs) (hys : (Cursor.ofStart h).Gives b ys) :
    (xs = ys ∧ ∀ k, (a.Reaches h k ↔ b.Reaches h k) ∧ (a.Reaches h k → a[k]? = b[k]?)) ∨
      a.Collide b h := by
  by_cases hno : a.Collide b h
  · exact .inr hno
  left
  have hback : ¬ b.Collide a h := by
    rintro ⟨k, n, m, hk, hk', hn, hm, hne, hdigest⟩
    exact hno ⟨k, m, n, hk', hk, hm, hn, hne.symm, hdigest.symm⟩
  have hsame := fun k (hk : a.Reaches h k) => (reaches_of_not_collide ha hb hno hk).2
  constructor
  · obtain ⟨hends, rfl⟩ := Cursor.gives_iff.mp hxs
    obtain ⟨-, rfl⟩ := Cursor.gives_iff.mp hys
    rw [preorder_congr hends hsame]
  · intro k
    exact ⟨⟨fun hk => (reaches_of_not_collide ha hb hno hk).1,
      fun hk => (reaches_of_not_collide hb ha hback hk).1⟩, hsame k⟩

/-- Where nodes are built from below and found under their contents, everything under a stored
hash is. -/
theorem vouches_of_grounded (hg : nodes.Grounded) (ha : nodes.Addressed)
    (hkeys : ∀ (k : Hash) (n : Node), nodes[k]? = some n → n.KeyFits) (hh : h ∈ nodes) :
    nodes.Vouches h where
  stored := by
    intro k hk
    have hmem : k ∈ nodes := by
      induction hk with
      | here => exact hh
      | left hn _ ih => exact ih (hg.child_mem hn (by simp [Node.children]))
      | right hn _ ih => exact ih (hg.child_mem hn (by simp [Node.children]))
    obtain ⟨n, hn⟩ := Option.isSome_iff_exists.mp (Std.ExtTreeMap.mem_iff_isSome_getElem?.mp hmem)
    exact ⟨n, hn, ha k n hn⟩
  keys := fun k n _ hn => hkeys k n hn

end NodeMap

/-! ## Stores -/

/-- After every run a store vouches for what is under a stored hash, and walks from there come
to their ends. -/
theorem Store.vouches_of_run {s₀ s : Store} {h : Hash} (hnew : s₀.IsNew) {steps : List Step}
    (hrun : run s₀ steps = .ok s)
    (hkeys : ∀ (k : Hash) (n : Node), s.state.nodes[k]? = some n → n.KeyFits)
    (hh : h ∈ s.state.nodes) :
    s.state.nodes.Vouches h ∧ ∃ xs, (Cursor.ofStart h).Gives s.state.nodes xs := by
  have hg := (hnew.orderly.of_run hrun).state.grounded
  have hends : (s.state.nodes.preorder h).failure = none := hg.failure_walk .left _ hh
  exact ⟨NodeMap.vouches_of_grounded hg (addressed_of_run hnew hrun) hkeys hh, _,
    Cursor.gives_preorder (Trace.ends_of_failure_eq_none hends)⟩

/-- Two runs that come to one root in different ways. -/
theorem same_or_collide_of_forked :
    let root := Replica.forkedRoot
    ∃ S s xs ys, run .volatile Replica.forkedServer = .ok S ∧
      run .volatile Replica.forkedCopy = .ok s ∧
      S.state.nodes.Vouches root ∧ s.state.nodes.Vouches root ∧
      (Cursor.ofStart root).Gives S.state.nodes xs ∧
      (Cursor.ofStart root).Gives s.state.nodes ys ∧
      ((xs = ys ∧ ∀ k, (S.state.nodes.Reaches root k ↔ s.state.nodes.Reaches root k) ∧
          (S.state.nodes.Reaches root k → S.state.nodes[k]? = s.state.nodes[k]?)) ∨
        S.state.nodes.Collide s.state.nodes root) := by
  intro root
  have hvouches {steps : List Step} (heval : (do
      let s ← run .volatile steps
      return decide (root ∈ s.state.nodes ∧ ∀ v ∈ s.state.nodes.toList, v.2.KeyFits) :
        Except Error Bool).toOption = some true) :
      ∃ s xs, run .volatile steps = .ok s ∧ s.state.nodes.Vouches root ∧
        (Cursor.ofStart root).Gives s.state.nodes xs := by
    obtain ⟨s, hrun, hs⟩ := bind_eq_ok.mp (eq_ok_of_toOption heval)
    obtain ⟨hmem, hfits⟩ := of_decide_eq_true (Except.ok.inj hs)
    have hkeys (k : Hash) (n : Node) (hn : s.state.nodes[k]? = some n) : n.KeyFits :=
      hfits (k, n) (Std.ExtTreeMap.mem_toList_iff_getElem?_eq_some.mpr hn)
    obtain ⟨hs, xs, hxs⟩ := Store.vouches_of_run (.inl rfl) hrun hkeys hmem
    exact ⟨s, xs, hrun, hs, hxs⟩
  have hserver := @hvouches Replica.forkedServer (by decide +kernel)
  have hcopy := @hvouches Replica.forkedCopy (by decide +kernel)
  obtain ⟨S, xs, hS, hserver, hxs⟩ := hserver
  obtain ⟨s, ys, hs, hcopy, hys⟩ := hcopy
  exact ⟨S, s, xs, ys, hS, hs, hserver, hcopy, hxs, hys,
    NodeMap.same_or_collide hserver hcopy hxs hys⟩

end MerkleStore
