import MerkleStore.Error
import MerkleStore.Index
import MerkleStore.Operation
import MerkleStore.Proofs.Tree

/-!
# Versions and edits

What a tree was at one generation is a tree of nodes or nothing (`Version`). A write
leads from one version to the next; an `Edit` is such a step with all that is known
about it: where on a path it takes place, the nodes it makes (`Edit.made`), what it
changes in the index (`Edit.change`) and the operation that is recorded for it
(`Edit.operation`).

The main statements say how the two versions are related: leaves are the same but
for the one key (`leaves_target_perm`, `leaves_source_perm`), no key occurs twice
afterwards (`Edit.distinct_target`), and what is under the new root was under the
old one or is made (`Edit.mem_subtrees_target`).
-/

namespace MerkleStore

/-- What a tree was at one generation; nothing if it was empty. -/
abbrev Version := Option Tree

namespace Version

/-- The hash at the root. -/
def hash (v : Version) : Option Hash := v.map Tree.hash

def subtrees : Version → List Tree
  | none => []
  | some t => t.subtrees

/-- The leaves from left to right. -/
def leaves : Version → List Terminal
  | none => []
  | some t => t.leaves

def keys (v : Version) : List Bytes := v.leaves.map Terminal.key

/-- No key occurs twice. -/
def Distinct (v : Version) : Prop := v.keys.Nodup

/-- All nodes under the root are in a set. -/
def MadeOf (U : Set Node) (v : Version) : Prop := ∀ s ∈ v.subtrees, s.node ∈ U

theorem MadeOf.mono {U V : Set Node} {v : Version} (h : v.MadeOf U) (hUV : U ⊆ V) :
    v.MadeOf V :=
  fun s hs => hUV (h s hs)

theorem MadeOf.of_mem {U : Set Node} {v : Version} {s : Tree} (hv : v.MadeOf U)
    (hs : s ∈ v.subtrees) : s.MadeOf U := by
  cases v with
  | none => simp [subtrees] at hs
  | some t => exact Tree.MadeOf.of_mem hv hs

/-- Every leaf is the node of a subtree. -/
theorem exists_of_mem_leaves {v : Version} {n : Terminal} (hn : n ∈ v.leaves) :
    ∃ s ∈ v.subtrees, s.node = .terminal n := by
  cases v with
  | none => simp [leaves] at hn
  | some t =>
      simp only [leaves, subtrees] at hn ⊢
      induction t with
      | leaf key value =>
          obtain rfl := List.mem_singleton.mp hn
          exact ⟨.leaf key value, by simp, rfl⟩
      | branch l r ihl ihr =>
          rcases List.mem_append.mp hn with hn | hn
          · obtain ⟨s, hs, hnode⟩ := ihl hn
            exact ⟨s, by simp [Tree.subtrees, hs], hnode⟩
          · obtain ⟨s, hs, hnode⟩ := ihr hn
            exact ⟨s, by simp [Tree.subtrees, hs], hnode⟩

theorem eq_of_hash {U : Set Node} (hU : Set.InjOn Node.hash U) {v w : Version}
    (hv : v.MadeOf U) (hw : w.MadeOf U) (h : v.hash = w.hash) : v = w := by
  cases v with
  | none => cases w with
    | none => rfl
    | some t => simp [hash] at h
  | some t => cases w with
    | none => simp [hash] at h
    | some t' => rw [Tree.eq_of_hash hU hv hw (by simpa [hash] using h)]

end Version

/-- A way from one version to the next. -/
inductive Edit
  /-- A key is put into the empty tree. -/
  | first (key value : Bytes)
  /-- A key is put on a side of the subtree at the end of a path. -/
  | beside (reference : Tree) (path : List Tree.Fork) (side : Side) (key value : Bytes)
  /-- The only key is taken out. -/
  | last (key value : Bytes)
  /-- A key is taken out, and the sibling under the fork above it moves up. -/
  | promote (key value : Bytes) (fork : Tree.Fork) (path : List Tree.Fork)

namespace Edit

open MerkleStore.Tree

/-- The version before. -/
def source : Edit → Version
  | first _ _ => none
  | beside t path _ _ _ => some (plug t path)
  | last key value => some (leaf key value)
  | promote key value f path => some (plug (leaf key value) (f :: path))

/-- The version afterwards. -/
def target : Edit → Version
  | first key value => some (leaf key value)
  | beside t path side key value => some (plug t (⟨leaf key value, side⟩ :: path))
  | last _ _ => none
  | promote _ _ f path => some (plug f.sibling path)

/-- What is recorded about the step. -/
def operation : Edit → Operation
  | first key value => .insertion ⟨(leaf key value).hash, key, value, none, none, .pending⟩
  | beside t path side key value =>
      .insertion ⟨(plug t (⟨leaf key value, side⟩ :: path)).hash, key, value, some t.hash,
        some side, .pending⟩
  | last key _ => .deletion ⟨none, key, .pending⟩
  | promote key _ f path => .deletion ⟨some (plug f.sibling path).hash, key, .pending⟩

/-- A key that is put in is not there yet. -/
def Fresh : Edit → Prop
  | first _ _ => True
  | beside t path _ key _ => key ∉ (plug t path).keys
  | last _ _ => True
  | promote _ _ _ _ => True

/-- The branches that are made anew, the lowest first. -/
def renewed : Edit → List Tree
  | first _ _ => []
  | beside t path side key value => above t (⟨leaf key value, side⟩ :: path)
  | last _ _ => []
  | promote _ _ f path => above f.sibling path

/-- The nodes that are made, whether they are stored already or not. -/
def made : Edit → List Node
  | first key value => [(leaf key value).node]
  | beside t path side key value =>
      (leaf key value).node :: (above t (⟨leaf key value, side⟩ :: path)).map Tree.node
  | last _ _ => []
  | promote _ _ f path => (above f.sibling path).map Tree.node

/-- The children of a tree with their parent. -/
def links (t : Tree) : List (Hash × Hash) := t.children.map fun c => (c.hash, t.hash)

/-- What the step changes in the index. -/
def change (e : Edit) : IndexChange where
  parents := e.renewed.flatMap links
  insertedKey :=
    match e with
    | first key value | beside _ _ _ key value => some (key, (leaf key value).hash)
    | last _ _ | promote _ _ _ _ => none
  removedKey :=
    match e with
    | first _ _ | beside _ _ _ _ _ => none
    | last key _ | promote key _ _ _ => some key

variable {e : Edit}

@[simp] theorem root_operation (e : Edit) : e.operation.root = e.target.hash := by
  cases e <;> rfl

/-- The leaf that comes or goes. -/
def terminal : Edit → Terminal
  | first key value | beside _ _ _ key value | last key value | promote key value _ _ =>
      .ofPair key value

/-! ## Leaves -/

/-- An insertion adds one leaf. -/
theorem leaves_target_perm (h : e.operation.isInsertion = true) :
    e.target.leaves.Perm (e.terminal :: e.source.leaves) := by
  cases e with
  | first key value => exact .refl _
  | beside t path side key value =>
      simp only [target, source, terminal, Version.leaves, plug, leaves_plug, leaves_fill]
      cases side <;> grind [leaves]
  | last key value => cases h
  | promote key value f path => cases h

/-- A deletion takes one leaf away. -/
theorem leaves_source_perm (h : e.operation.isInsertion = false) :
    e.source.leaves.Perm (e.terminal :: e.target.leaves) := by
  cases e with
  | first key value => cases h
  | beside t path side key value => cases h
  | last key value => exact .refl _
  | promote key value f path =>
      simp only [target, source, terminal, Version.leaves, plug, leaves_plug, leaves_fill]
      obtain ⟨sibling, side⟩ := f
      cases side <;> grind [leaves]

theorem keys_target_perm (h : e.operation.isInsertion = true) :
    e.target.keys.Perm (e.terminal.key :: e.source.keys) :=
  (leaves_target_perm h).map Terminal.key

theorem keys_source_perm (h : e.operation.isInsertion = false) :
    e.source.keys.Perm (e.terminal.key :: e.target.keys) :=
  (leaves_source_perm h).map Terminal.key

theorem Fresh.not_mem_source (hf : e.Fresh) (h : e.operation.isInsertion = true) :
    e.terminal.key ∉ e.source.keys := by
  cases e with
  | first key value => simp [source, Version.keys, Version.leaves]
  | beside t path side key value => exact hf
  | last key value => cases h
  | promote key value f path => cases h

/-- Afterwards no key occurs twice. -/
theorem distinct_target (hs : e.source.Distinct) (hf : e.Fresh) : e.target.Distinct := by
  cases h : e.operation.isInsertion with
  | true =>
      exact (keys_target_perm h).nodup_iff.mpr (List.nodup_cons.mpr ⟨hf.not_mem_source h, hs⟩)
  | false => exact (List.nodup_cons.mp ((keys_source_perm h).nodup_iff.mp hs)).2

/-! ## Nodes -/

theorem mem_subtrees_plug_of_fork {f : Fork} {path : List Fork} {s : Tree} (t : Tree)
    (hf : f ∈ path) (hs : s ∈ f.sibling.subtrees) : s ∈ (plug t path).subtrees :=
  mem_subtrees_plug.mpr (.inr (.inr ⟨f, hf, hs⟩))

/-- What is under the new root was under the old one, or is a branch that is made
anew, or the leaf. -/
theorem mem_subtrees_target {s : Tree} (hs : s ∈ e.target.subtrees) :
    s ∈ e.source.subtrees ∨ s ∈ e.renewed ∨ s.children = [] ∧ s.node ∈ e.made := by
  cases e with
  | first key value =>
      simp only [target, Version.subtrees, subtrees, List.mem_singleton] at hs
      subst hs
      exact .inr (.inr ⟨rfl, by simp [made]⟩)
  | beside t path side key value =>
      rcases mem_subtrees_plug.mp hs with hs | hs | ⟨f, hf, hs⟩
      · exact .inl (mem_subtrees_plug.mpr (.inl hs))
      · exact .inr (.inl hs)
      · -- beside the way up there is the new leaf, and then only what was there before
        rcases List.mem_cons.mp hf with rfl | hf
        · simp only [subtrees, List.mem_singleton] at hs
          subst hs
          exact .inr (.inr ⟨rfl, by simp [made]⟩)
        · exact .inl (mem_subtrees_plug_of_fork t hf hs)
  | last key value => simp [target, Version.subtrees] at hs
  | promote key value f path =>
      rcases mem_subtrees_plug.mp hs with hs | hs | ⟨g, hg, hs⟩
      · exact .inl (mem_subtrees_plug_of_fork (leaf key value) List.mem_cons_self hs)
      · exact .inr (.inl hs)
      · exact .inl (mem_subtrees_plug_of_fork (leaf key value) (List.mem_cons_of_mem _ hg) hs)

theorem mem_target_of_mem_renewed {s : Tree} (hs : s ∈ e.renewed) : s ∈ e.target.subtrees := by
  cases e with
  | first key value => simp [renewed] at hs
  | beside t path side key value => exact mem_subtrees_plug.mpr (.inr (.inl hs))
  | last key value => simp [renewed] at hs
  | promote key value f path => exact mem_subtrees_plug.mpr (.inr (.inl hs))

theorem node_mem_made {s : Tree} (hs : s ∈ e.renewed) : s.node ∈ e.made := by
  cases e with
  | first key value => simp [renewed] at hs
  | beside t path side key value => exact List.mem_cons_of_mem _ (List.mem_map_of_mem hs)
  | last key value => simp [renewed] at hs
  | promote key value f path => exact List.mem_map_of_mem hs

/-- What is made is under the new root. -/
theorem exists_of_mem_made {n : Node} (hn : n ∈ e.made) :
    ∃ s ∈ e.target.subtrees, s.node = n := by
  cases e with
  | first key value =>
      simp only [made, List.mem_singleton] at hn
      exact ⟨leaf key value, by simp [target, Version.subtrees], hn.symm⟩
  | beside t path side key value =>
      rcases List.mem_cons.mp hn with rfl | hn
      · exact ⟨leaf key value, mem_subtrees_plug_of_fork t List.mem_cons_self (self_mem_subtrees _),
          rfl⟩
      · obtain ⟨s, hs, rfl⟩ := List.mem_map.mp hn
        exact ⟨s, mem_subtrees_plug.mpr (.inr (.inl hs)), rfl⟩
  | last key value => simp [made] at hn
  | promote key value f path =>
      obtain ⟨s, hs, rfl⟩ := List.mem_map.mp hn
      exact ⟨s, mem_subtrees_plug.mpr (.inr (.inl hs)), rfl⟩

end Edit

/-! ## The edit for given arguments -/

namespace Version

open MerkleStore.Tree

variable {v : Version} {t : TreeId} {e : Edit} {key value : Bytes} {reference : Option Hash}
  {side : Option Side}

/-- The edit that an insertion asks for. -/
def insertionEdit (v : Version) (t : TreeId) (key value : Bytes) (reference : Option Hash)
    (side : Option Side) : Except Error Edit :=
  if key ∈ v.keys then .error (.duplicateKey key)
  else
    match v, reference with
    | none, none => .ok (.first key value)
    | none, some r => .error (.notFound (.referenceOfEmpty r t))
    | some _, none => .error (.invalidArgument .referenceRequired)
    | some top, some r =>
        match side with
        | none => .error (.invalidArgument .sideRequired)
        | some side =>
          match top.find? r with
          | none => .error (.notFound (.reference r t))
          | some (c, path) => .ok (.beside c path side key value)

/-- The edit that a deletion asks for. -/
def deletionEdit (v : Version) (t : TreeId) (key : Bytes) : Except Error Edit :=
  match v.bind (Tree.findKey? key) with
  | none => .error (.notFound (.key key t))
  | some (value, []) => .ok (.last key value)
  | some (value, f :: path) => .ok (.promote key value f path)

/-- The edit that an operation asks for; the root it recorded plays no part. -/
def editFor (v : Version) (t : TreeId) : Operation → Except Error Edit
  | .insertion d => v.insertionEdit t d.key d.value d.reference d.side
  | .deletion d => v.deletionEdit t d.key

/-- The edit that an insertion asks for starts at the version and puts in the key. -/
theorem of_insertionEdit (h : v.insertionEdit t key value reference side = .ok e) :
    e.source = v ∧ e.Fresh ∧ e.operation.isInsertion = true ∧ e.terminal = .ofPair key value := by
  unfold insertionEdit at h
  split at h
  · cases h
  · next hkey =>
      cases v with
      | none =>
          cases reference with
          | none =>
              cases h
              exact ⟨rfl, trivial, rfl, rfl⟩
          | some r => cases h
      | some top =>
          cases reference with
          | none => cases h
          | some r =>
              cases side with
              | none => cases h
              | some side =>
                  cases hf : top.find? r with
                  | none => simp [hf] at h
                  | some found =>
                      obtain ⟨c, path⟩ := found
                      obtain ⟨rfl, -⟩ := plug_of_find? hf
                      simp only [hf, Except.ok.injEq] at h
                      subst h
                      exact ⟨rfl, hkey, rfl, rfl⟩

/-- The edit that a deletion asks for starts at the version and takes out the key. -/
theorem of_deletionEdit (h : v.deletionEdit t key = .ok e) :
    e.source = v ∧ e.Fresh ∧ e.operation.isInsertion = false ∧ e.terminal.key = key := by
  cases v with
  | none => simp [deletionEdit] at h
  | some top =>
      cases hf : top.findKey? key with
      | none => simp [deletionEdit, hf] at h
      | some found =>
          obtain ⟨value, path⟩ := found
          obtain rfl := plug_of_findKey? hf
          simp only [deletionEdit, Option.bind_some, hf] at h
          cases path with
          | nil =>
              cases h
              exact ⟨rfl, trivial, rfl, rfl⟩
          | cons f path =>
              cases h
              exact ⟨rfl, trivial, rfl, rfl⟩

theorem of_editFor {o : Operation} (h : v.editFor t o = .ok e) : e.source = v ∧ e.Fresh := by
  cases o with
  | insertion d => exact (of_insertionEdit h).imp_right And.left
  | deletion d => exact (of_deletionEdit h).imp_right And.left

/-- A key that is there already is refused, and no other. -/
theorem insertionEdit_duplicate_iff {k : Bytes} :
    v.insertionEdit t key value reference side = .error (.duplicateKey k) ↔
      k = key ∧ key ∈ v.keys := by
  by_cases hkey : key ∈ v.keys
  · simp [insertionEdit, hkey, eq_comm]
  · simp only [insertionEdit, hkey, if_false, and_false, iff_false]
    intro h
    cases v with
    | none => cases reference <;> cases h
    | some top =>
        cases reference with
        | none => cases h
        | some r =>
            cases side with
            | none => cases h
            | some side => cases hf : top.find? r <;> simp [hf] at h

/-- A key that is not there cannot be taken out; any other can. -/
theorem deletionEdit_eq_error (h : key ∉ v.keys) :
    v.deletionEdit t key = .error (.notFound (.key key t)) := by
  cases v with
  | none => rfl
  | some top =>
      have hf : top.findKey? key = none := findKey?_eq_none_iff.mpr h
      simp [deletionEdit, hf]

theorem exists_deletionEdit (h : key ∈ v.keys) : ∃ e, v.deletionEdit t key = .ok e := by
  cases v with
  | none => simp [keys, leaves] at h
  | some top =>
      cases hf : top.findKey? key with
      | none => exact absurd h (findKey?_eq_none_iff.mp hf)
      | some found =>
          obtain ⟨value, path⟩ := found
          cases path with
          | nil => exact ⟨.last key value, by simp [deletionEdit, hf]⟩
          | cons f path => exact ⟨.promote key value f path, by simp [deletionEdit, hf]⟩

theorem insertionEdit_source {U : Set Node} (hU : Set.InjOn Node.hash U) (hm : e.source.MadeOf U)
    (hd : e.source.Distinct) (hf : e.Fresh) {d : Insertion} (ho : e.operation = .insertion d)
    (t : TreeId) :
    e.source.insertionEdit t d.key d.value d.reference d.side = .ok e := by
  cases e with
  | first key value =>
      cases ho
      simp [Edit.source, insertionEdit, keys, leaves]
  | beside c path side key value =>
      cases ho
      have hfresh : key ∉ keys (some (plug c path)) := hf
      simp [Edit.source, insertionEdit, hfresh, find?_plug hU hm hd]
  | last key value => cases ho
  | promote key value f path => cases ho

theorem deletionEdit_source (hd : e.source.Distinct) {d : Deletion}
    (ho : e.operation = .deletion d) (t : TreeId) : e.source.deletionEdit t d.key = .ok e := by
  cases e with
  | first key value => cases ho
  | beside c path side key value => cases ho
  | last key value =>
      cases ho
      simp [Edit.source, deletionEdit, findKey?]
  | promote key value f path =>
      cases ho
      simp [Edit.source, deletionEdit, findKey?_plug hd]

@[simp] theorem editFor_withStatus (v : Version) (t : TreeId) (o : Operation) (status : Status) :
    v.editFor t (o.withStatus status) = v.editFor t o := by
  cases o <;> rfl

/-- What was recorded about an edit asks for the same edit. -/
theorem editFor_operation {U : Set Node} (hU : Set.InjOn Node.hash U) (hm : e.source.MadeOf U)
    (hd : e.source.Distinct) (hf : e.Fresh) (t : TreeId) :
    e.source.editFor t e.operation = .ok e := by
  cases ho : e.operation with
  | insertion d => exact insertionEdit_source hU hm hd hf ho t
  | deletion d => exact deletionEdit_source hd ho t

end Version

end MerkleStore
