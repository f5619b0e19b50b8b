import MerkleStore.Proofs.Sound

/-!
# Maps of keys to values

What a tree is to those who use it: a map of keys to values (`Bindings`), that a write
changes at one key. The bindings of a version are those of its leaves, an edit changes
them as the write it stands for (`Edit.bindings_target`), and so the bindings of every
version of a history are what the writes before it have made of the empty map
(`Edit.Leads.bindings`).
-/

namespace MerkleStore

/-- A map of keys to values. -/
abbrev Bindings := Bytes → Option Bytes

/-- A change of a map at one key. -/
inductive Write
  | put (key value : Bytes)
  | remove (key : Bytes)
deriving DecidableEq

/-- The map after a write. -/
def Write.apply (m : Bindings) : Write → Bindings
  | put key value => fun k => if k = key then some value else m k
  | remove key => fun k => if k = key then none else m k

/-- The map that writes make of the empty one. -/
def Bindings.after (ws : List Write) : Bindings := ws.foldl Write.apply fun _ => none

/-- What an operation does to the map of the tree. -/
def Operation.write : Operation → Write
  | insertion d => .put d.key d.value
  | deletion d => .remove d.key

namespace Version

variable {v : Version} {key value : Bytes}

/-- The map of a version. -/
def bindings (v : Version) : Bindings := fun key =>
  (v.leaves.find? fun n => n.key = key).map Terminal.value

theorem eq_ofPair_of_mem_leaves {n : Terminal} (hn : n ∈ v.leaves) :
    n = .ofPair n.key n.value := by
  cases v with
  | none => simp [leaves] at hn
  | some t =>
      simp only [leaves] at hn
      induction t with
      | leaf key value =>
          obtain rfl := List.mem_singleton.mp hn
          rfl
      | branch l r ihl ihr => exact (List.mem_append.mp hn).elim ihl ihr

theorem bindings_eq_some_iff (hd : v.Distinct) :
    v.bindings key = some value ↔ Terminal.ofPair key value ∈ v.leaves := by
  rw [bindings, Option.map_eq_some_iff]
  constructor
  · rintro ⟨n, hn, rfl⟩
    have hkey : n.key = key := by simpa using List.find?_some hn
    have hmem := List.mem_of_find?_eq_some hn
    rwa [eq_ofPair_of_mem_leaves hmem, hkey] at hmem
  · intro hmem
    cases hf : v.leaves.find? fun n => n.key = key with
    | none =>
        have := List.find?_eq_none.mp hf _ hmem
        simp [Terminal.ofPair] at this
    | some n =>
        have hkey : n.key = key := by simpa using List.find?_some hf
        have : n = .ofPair key value :=
          List.inj_on_of_nodup_map hd (List.mem_of_find?_eq_some hf) hmem hkey
        exact ⟨n, rfl, by rw [this]; rfl⟩

theorem bindings_eq_none_iff : v.bindings key = none ↔ key ∉ v.keys := by
  rw [bindings, Option.map_eq_none_iff, List.find?_eq_none, keys]
  simp

end Version

namespace Edit

variable {e : Edit} {v : Version}

theorem write_operation (e : Edit) :
    e.operation.write =
      if e.operation.isInsertion then .put e.terminal.key e.terminal.value
      else .remove e.terminal.key := by
  cases e <;> rfl

/-- The edit that an operation asks for is the same write. -/
theorem write_operation_of_editFor {t : TreeId} {o : Operation} (h : v.editFor t o = .ok e) :
    e.operation.write = o.write := by
  cases o with
  | insertion d =>
      obtain ⟨-, -, hop, hterminal⟩ := Version.of_insertionEdit h
      rw [write_operation, hop, hterminal]
      rfl
  | deletion d =>
      obtain ⟨-, -, hop, hkey⟩ := Version.of_deletionEdit h
      rw [write_operation, hop, hkey]
      rfl

/-- An edit changes the map of a version as the write it stands for. -/
theorem bindings_target (hs : e.source.Distinct) (hf : e.Fresh) :
    e.target.bindings = e.operation.write.apply e.source.bindings := by
  have hd := distinct_target hs hf
  have hpair : e.terminal = .ofPair e.terminal.key e.terminal.value := by cases e <;> rfl
  -- a key has a value if and only if there is such a leaf
  funext key
  refine Option.ext fun value => ?_
  rw [Version.bindings_eq_some_iff hd, write_operation]
  cases hop : e.operation.isInsertion with
  | true =>
      have hnew := hf.not_mem_source hop
      rw [(leaves_target_perm hop).mem_iff, List.mem_cons, ← Version.bindings_eq_some_iff hs]
      simp only [if_true, Write.apply]
      split
      · next hkey =>
          subst hkey
          rw [Version.bindings_eq_none_iff.mpr hnew, hpair]
          simp only [Option.some.injEq, reduceCtorEq, or_false, Terminal.ofPair,
            Terminal.mk.injEq, true_and]
          exact ⟨fun h => h.2.symm, fun h => ⟨by rw [h], h.symm⟩⟩
      · next hkey =>
          rw [hpair]
          simp [Terminal.ofPair, hkey]
  | false =>
      have hgone := (List.nodup_cons.mp ((keys_source_perm hop).nodup_iff.mp hs)).1
      rw [← Version.bindings_eq_some_iff hd]
      simp only [Bool.false_eq_true, if_false, Write.apply]
      split
      · next hkey =>
          subst hkey
          rw [Version.bindings_eq_none_iff.mpr hgone]
      · next hkey =>
          rw [Version.bindings_eq_some_iff hd, Version.bindings_eq_some_iff hs,
            (leaves_source_perm hop).mem_iff, List.mem_cons, hpair]
          simp [Terminal.ofPair, hkey]

/-- Edits from the empty version make the map that their writes make. -/
theorem Leads.bindings {es : List Edit} (h : Leads none es v) :
    v.bindings = Bindings.after (es.map fun e => e.operation.write) := by
  have go {es : List Edit} {u : Version} (hu : u.Distinct) (h : Leads u es v) :
      v.bindings = (es.map fun e => e.operation.write).foldl Write.apply u.bindings := by
    induction es generalizing u with
    | nil => rw [show u = v from h]; rfl
    | cons e es ih =>
        obtain ⟨rfl, hf, h⟩ := h
        rw [List.map_cons, List.foldl_cons, ← bindings_target hu hf]
        exact ih (distinct_target hu hf) h
  exact go distinct_none h

end Edit

end MerkleStore
