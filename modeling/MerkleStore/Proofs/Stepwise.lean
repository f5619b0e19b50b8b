import Mathlib.Data.Fintype.Card
import Mathlib.Data.Set.Finite.List
import Mathlib.Logic.Relation
import MerkleStore.Proofs.Stored

/-!
# Walks step by step

A whole walk (`NodeMap.walk`) may go as deep as there are nodes, and one that goes deeper is
called endless. Both are right: a walk that any depth brings to its end has reached it by
then (`NodeMap.walkWithin_eq_walk`), and a walk is endless if and only if it comes upon a node
below itself (`NodeMap.not_ends_iff`).

A walk taken step by step (`Cursor`) looks up one hash after the other. It makes the steps
of the whole walk where that one ends (`Cursor.gives_preorder`), and goes on for ever where
that one is endless (`Cursor.IsStuck.next`).
-/

namespace MerkleStore

namespace Trace

/-- A walk has not been cut off for its depth. -/
def Ends (t : Trace) : Prop := t.failure ≠ some .endless

instance (t : Trace) : Decidable t.Ends := inferInstanceAs (Decidable (t.failure ≠ some .endless))

theorem ends_of_failure_eq_none {t : Trace} (h : t.failure = none) : t.Ends := by
  intro he
  rw [h] at he
  cases he

theorem Ends.left {a b : Trace} (h : (a ++ b).Ends) : a.Ends := by
  intro ha
  exact h (by rw [append_of_failure ha, ha])

theorem Ends.right {a b : Trace} (h : (a ++ b).Ends) (ha : a.failure = none) : b.Ends := by
  intro hb
  exact h (by rw [failure_append_of_none ha, hb])

/-- One walk after another ends if the second one does where it is reached. -/
theorem Ends.append {a b : Trace} (ha : a.Ends) (hb : a.failure = none → b.Ends) :
    (a ++ b).Ends := by
  cases hfailure : a.failure with
  | none =>
      intro h
      rw [failure_append_of_none hfailure] at h
      exact hb hfailure h
  | some e =>
      rw [append_of_failure hfailure]
      exact ha

end Trace

namespace NodeMap

variable {nodes : NodeMap} {first : Side} {skip : Hash → Bool} {h k : Hash} {n : Internal}
  {d d' : Nat}

/-! ## Depth -/

/-- The walk under a branch, which is not left out. -/
theorem walkWithin_internal (hskip : skip h = false) (hn : nodes[h]? = some (.internal n)) :
    nodes.walkWithin first skip (d + 1) h = ⟨[(h, .internal n)], none⟩ ++
      (nodes.walkWithin first skip d (n.child first) ++
        nodes.walkWithin first skip d (n.child first.other)) := by
  rw [walkWithin, hskip, hn]
  rfl

/-- A walk that is left out, that fails at once or that visits a leaf goes no deeper. -/
theorem walkWithin_of_shallow (h' : skip h = true ∨ ∀ n, nodes[h]? ≠ some (.internal n)) :
    nodes.walkWithin first skip (d + 1) h = nodes.walkWithin first skip 1 h ∧
      (nodes.walkWithin first skip 1 h).Ends := by
  rw [walkWithin, walkWithin]
  cases hskip : skip h with
  | true => exact ⟨rfl, by simp [Trace.done, Trace.Ends]⟩
  | false =>
      have hinternal := h'.resolve_left (by simp [hskip])
      cases hn : nodes[h]? with
      | none => exact ⟨rfl, by simp [Trace.fail, Trace.Ends]⟩
      | some m =>
          cases m with
          | terminal m => exact ⟨rfl, by simp [Trace.Ends]⟩
          | internal m => exact absurd hn (hinternal m)

/-- Every walk is shallow or that under a branch. -/
theorem shallow_or_internal (nodes : NodeMap) (skip : Hash → Bool) (h : Hash) :
    (skip h = true ∨ ∀ n, nodes[h]? ≠ some (.internal n)) ∨
      skip h = false ∧ ∃ n, nodes[h]? = some (.internal n) := by
  by_cases hn : ∃ n, nodes[h]? = some (.internal n)
  · cases hskip : skip h with
    | true => exact .inl (.inl rfl)
    | false => exact .inr ⟨rfl, hn⟩
  · exact .inl (.inr fun n heq => hn ⟨n, heq⟩)

/-- More depth changes nothing about a walk that ends. -/
theorem walkWithin_succ (hends : (nodes.walkWithin first skip d h).Ends) :
    nodes.walkWithin first skip (d + 1) h = nodes.walkWithin first skip d h := by
  induction d generalizing h with
  | zero => exact absurd rfl hends
  | succ d ih =>
      rcases nodes.shallow_or_internal skip h with hshallow | ⟨hskip, n, hn⟩
      · rw [(walkWithin_of_shallow hshallow).1, ← (walkWithin_of_shallow hshallow).1]
      · rw [walkWithin_internal hskip hn] at hends ⊢
        rw [walkWithin_internal hskip hn]
        have hboth := hends.right rfl
        rw [ih hboth.left]
        cases hfailure : (nodes.walkWithin first skip d (n.child first)).failure with
        | none => rw [ih (hboth.right hfailure)]
        | some e => rw [Trace.append_of_failure hfailure, Trace.append_of_failure hfailure]

theorem walkWithin_eq_of_le (hends : (nodes.walkWithin first skip d h).Ends) (hd : d ≤ d') :
    nodes.walkWithin first skip d' h = nodes.walkWithin first skip d h := by
  induction d', hd using Nat.le_induction with
  | base => rfl
  | succ d' _ ih => rw [walkWithin_succ (ih ▸ hends), ih]

/-- A walk that needs just this depth goes down through as many stored nodes. Each of them
needs less depth than the one above it, so they are all different. -/
theorem exists_chain (hends : (nodes.walkWithin first skip (d + 1) h).Ends)
    (hcut : ¬ (nodes.walkWithin first skip d h).Ends) :
    ∃ chain : List Hash, chain.length = d ∧ chain.Nodup ∧
      ∀ c ∈ chain, c ∈ nodes ∧ (nodes.walkWithin first skip (d + 1) c).Ends := by
  induction d generalizing h with
  | zero => exact ⟨[], rfl, .nil, by simp⟩
  | succ d ih =>
      obtain ⟨hskip, n, hn⟩ := (nodes.shallow_or_internal skip h).resolve_left fun hshallow => by
        obtain ⟨heq, hone⟩ := walkWithin_of_shallow (d := d) hshallow
        exact hcut (heq ▸ hone)
      have hbelow := hends
      rw [walkWithin_internal hskip hn] at hbelow hcut
      have hboth := hbelow.right rfl
      -- one of the subtrees is the first that needs all of the depth
      obtain ⟨side, hside, hshort⟩ : ∃ side,
          (nodes.walkWithin first skip (d + 1) (n.child side)).Ends ∧
            ¬ (nodes.walkWithin first skip d (n.child side)).Ends := by
        by_cases hleft : (nodes.walkWithin first skip d (n.child first)).Ends
        · have heq := walkWithin_succ hleft
          refine ⟨first.other, ?_, fun hright => hcut ?_⟩
          · refine hboth.right ?_
            by_contra hfails
            obtain ⟨e, he⟩ := Option.ne_none_iff_exists'.mp hfails
            rw [heq] at he
            refine hcut (Trace.Ends.append (by simp [Trace.Ends]) fun _ => ?_)
            rwa [Trace.append_of_failure he]
          · exact .append (by simp [Trace.Ends]) fun _ => hleft.append fun _ => hright
        · exact ⟨first, hboth.left, hleft⟩
      obtain ⟨chain, hlength, hnodup, hchain⟩ := ih hside hshort
      have hnew : h ∉ chain := fun hmem => hcut (walkWithin_internal hskip hn ▸ (hchain h hmem).2)
      refine ⟨h :: chain, by rw [List.length_cons, hlength], hnodup.cons hnew, ?_⟩
      intro c hc
      rcases List.mem_cons.mp hc with rfl | hc
      · exact ⟨Std.ExtTreeMap.mem_iff_isSome_getElem?.mpr (by rw [hn]; rfl), hends⟩
      · obtain ⟨hmem, hc⟩ := hchain c hc
        exact ⟨hmem, walkWithin_succ hc ▸ hc⟩

/-- A walk that any depth brings to its end needs no more depth than there are nodes. -/
theorem walkWithin_eq_walk (hends : (nodes.walkWithin first skip d h).Ends) :
    nodes.walkWithin first skip d h = nodes.walk first skip h := by
  have hexists : ∃ d, (nodes.walkWithin first skip d h).Ends := ⟨d, hends⟩
  obtain ⟨least, hleast, hmin⟩ : ∃ least, (nodes.walkWithin first skip least h).Ends ∧
      ∀ d < least, ¬ (nodes.walkWithin first skip d h).Ends :=
    ⟨Nat.find hexists, Nat.find_spec hexists, fun d hd => Nat.find_min hexists hd⟩
  have hsize : least ≤ nodes.size + 1 := by
    cases least with
    | zero => omega
    | succ least =>
        obtain ⟨chain, hlength, hnodup, hchain⟩ :=
          exists_chain hleast (hmin least (Nat.lt_succ_self least))
        have hkeys : chain ⊆ nodes.keys := fun c hc =>
          Std.ExtTreeMap.mem_keys.mpr (hchain c hc).1
        have hle := (hnodup.subperm hkeys).length_le
        rw [hlength, Std.ExtTreeMap.length_keys] at hle
        omega
  have hd : least ≤ d := by
    by_contra hlt
    exact hmin d (Nat.not_le.mp hlt) hends
  rw [walkWithin_eq_of_le hleast hd, walk, walkWithin_eq_of_le hleast hsize]

/-- What a walk visits is stored. -/
theorem getElem?_of_mem_visited {v : Hash × Node}
    (hv : v ∈ (nodes.walkWithin first skip d h).visited) : nodes[v.1]? = some v.2 := by
  induction d generalizing h with
  | zero => cases hv
  | succ d ih =>
      rw [walkWithin] at hv
      split at hv
      · cases hv
      · split at hv
        · cases hv
        · next hn =>
            obtain rfl := List.mem_singleton.mp hv
            exact hn
        · next hn =>
            rcases Trace.mem_visited_append hv with hhere | hbelow
            · obtain rfl := List.mem_singleton.mp hhere
              exact hn
            · rcases Trace.mem_visited_append hbelow with hv | hv <;> exact ih hv

/-- A walk that is endless is so with any depth. -/
theorem not_ends_walkWithin (hwalk : ¬ (nodes.walk first skip h).Ends) (d : Nat) :
    ¬ (nodes.walkWithin first skip d h).Ends :=
  fun hends => hwalk (walkWithin_eq_walk hends ▸ hends)

/-! ## Walks over everything -/

/-- The walk over everything under a hash, left before right, at most this deep. -/
abbrev preorderWithin (nodes : NodeMap) (depth : Nat) (h : Hash) : Trace :=
  nodes.walkWithin .left (fun _ => false) depth h

theorem preorderWithin_internal (hn : nodes[h]? = some (.internal n)) :
    nodes.preorderWithin (d + 1) h =
      ⟨[(h, .internal n)], none⟩ ++
        (nodes.preorderWithin d n.left ++ nodes.preorderWithin d n.right) :=
  walkWithin_internal rfl hn

theorem preorderWithin_eq_preorder (hends : (nodes.preorderWithin d h).Ends) :
    nodes.preorderWithin d h = nodes.preorder h :=
  walkWithin_eq_walk hends

theorem preorder_of_none (hn : nodes[h]? = none) :
    nodes.preorder h = .fail (.notFound (.node h)) := by
  rw [preorder, walk, walkWithin, hn]
  rfl

theorem preorder_of_terminal {m : Terminal} (hn : nodes[h]? = some (.terminal m)) :
    nodes.preorder h = ⟨[(h, .terminal m)], none⟩ := by
  rw [preorder, walk, walkWithin, hn]
  rfl

/-- The walk under a branch is that under its children, as long as it ends. -/
theorem preorder_of_internal (hn : nodes[h]? = some (.internal n))
    (hends : (nodes.preorder h).Ends) :
    nodes.preorder h =
      ⟨[(h, .internal n)], none⟩ ++ (nodes.preorder n.left ++ nodes.preorder n.right) := by
  have hdeep : nodes.preorder h = nodes.preorderWithin (nodes.size + 1) h := rfl
  rw [hdeep, preorderWithin_internal hn] at hends ⊢
  have hboth := hends.right rfl
  have hleft := preorderWithin_eq_preorder hboth.left
  rw [hleft] at hboth ⊢
  cases hfailure : (nodes.preorder n.left).failure with
  | none =>
      have hright := preorderWithin_eq_preorder (hboth.right hfailure)
      rw [hright]
  | some e => rw [Trace.append_of_failure hfailure, Trace.append_of_failure hfailure]

theorem ends_preorder_internal (hn : nodes[h]? = some (.internal n)) :
    (nodes.preorder h).Ends ↔ (nodes.preorder n.left ++ nodes.preorder n.right).Ends := by
  constructor
  · intro hends
    have heq := preorder_of_internal hn hends
    rw [heq] at hends
    exact hends.right rfl
  · intro hends
    by_contra hwalk
    have hdeep : (nodes.preorderWithin (nodes.size + 2) h).Ends := by
      rw [preorderWithin_internal hn]
      exact .append (by simp [Trace.Ends]) fun _ => hends
    exact not_ends_walkWithin hwalk _ hdeep

/-- A walk that does not fail starts at a stored node. -/
theorem exists_visited_preorder (hf : (nodes.preorder h).failure = none) :
    ∃ n rest, nodes[h]? = some n ∧ (nodes.preorder h).visited = (h, n) :: rest := by
  cases hn : nodes[h]? with
  | none =>
      rw [preorder_of_none hn] at hf
      cases hf
  | some n =>
      refine ⟨n, (nodes.preorder h).visited.tail, rfl, ?_⟩
      cases n with
      | terminal n => rw [preorder_of_terminal hn]; rfl
      | internal n =>
          rw [preorder_of_internal hn (Trace.ends_of_failure_eq_none hf),
            Trace.visited_append_of_none rfl]
          rfl

/-- The walk under one hash goes on to that under another one: to the left child of a branch,
or to the right child, once everything under the left one has been visited. -/
def GoesOn (nodes : NodeMap) (h k : Hash) : Prop :=
  ∃ n, nodes[h]? = some (.internal n) ∧
    (k = n.left ∨ (nodes.preorder n.left).failure = none ∧ k = n.right)

/-- A walk that goes on to an endless one is endless. -/
theorem GoesOn.not_ends (hg : nodes.GoesOn h k) (hk : ¬ (nodes.preorder k).Ends) :
    ¬ (nodes.preorder h).Ends := by
  obtain ⟨n, hn, hside⟩ := hg
  intro hends
  rw [ends_preorder_internal hn] at hends
  rcases hside with rfl | ⟨hleft, rfl⟩
  · exact hk hends.left
  · exact hk (hends.right hleft)

/-- An endless walk goes on to another one. -/
theorem exists_goesOn (hh : ¬ (nodes.preorder h).Ends) :
    ∃ k, nodes.GoesOn h k ∧ ¬ (nodes.preorder k).Ends := by
  cases hn : nodes[h]? with
  | none => exact absurd (by rw [preorder_of_none hn]; simp [Trace.fail, Trace.Ends]) hh
  | some m =>
      cases m with
      | terminal m =>
          exact absurd (by rw [preorder_of_terminal hn]; simp [Trace.Ends]) hh
      | internal n =>
          rw [ends_preorder_internal hn] at hh
          by_cases hleft : (nodes.preorder n.left).Ends
          · cases hfailure : (nodes.preorder n.left).failure with
            | none =>
                exact ⟨n.right, ⟨n, hn, .inr ⟨hfailure, rfl⟩⟩,
                  fun hright => hh (hleft.append fun _ => hright)⟩
            | some e => exact absurd (by rwa [Trace.append_of_failure hfailure]) hh
          · exact ⟨n.left, ⟨n, hn, .inl rfl⟩, hleft⟩

/-- A walk needs more depth than one it goes on to. -/
theorem GoesOn.ends_within (hg : nodes.GoesOn h k)
    (hh : (nodes.preorderWithin (d + 1) h).Ends) : (nodes.preorderWithin d k).Ends := by
  obtain ⟨n, hn, hside⟩ := hg
  rw [preorderWithin_internal hn] at hh
  have hboth := hh.right rfl
  rcases hside with rfl | ⟨hleft, rfl⟩
  · exact hboth.left
  · refine hboth.right ?_
    rw [preorderWithin_eq_preorder hboth.left]
    exact hleft

/-- A walk that comes back to where it was is endless. -/
theorem not_ends_of_transGen (hg : Relation.TransGen nodes.GoesOn h h) :
    ¬ (nodes.preorder h).Ends := by
  intro hends
  -- going on takes depth away, so that no depth at all is left in the end
  have hless {k : Hash} (hk : Relation.TransGen nodes.GoesOn h k) :
      ∀ d, (nodes.preorderWithin d h).Ends → ∃ d' < d, (nodes.preorderWithin d' k).Ends := by
    induction hk with
    | single hg =>
        intro d hd
        cases d with
        | zero => exact absurd rfl hd
        | succ d => exact ⟨d, Nat.lt_succ_self d, hg.ends_within hd⟩
    | tail _ hg ih =>
        intro d hd
        obtain ⟨d', hlt, hd'⟩ := ih d hd
        cases d' with
        | zero => exact absurd rfl hd'
        | succ d' => exact ⟨d', by omega, hg.ends_within hd'⟩
  have hnever : ∀ d, ¬ (nodes.preorderWithin d h).Ends := by
    intro d
    induction d using Nat.strong_induction_on with
    | _ d ih =>
        intro hd
        obtain ⟨d', hlt, hd'⟩ := hless hg d hd
        exact ih d' hlt hd'
  exact hnever _ hends

/-- A walk is endless if and only if it gets to a node that it then comes upon below itself. -/
theorem not_ends_iff : ¬ (nodes.preorder h).Ends ↔
    ∃ k, Relation.ReflTransGen nodes.GoesOn h k ∧ Relation.TransGen nodes.GoesOn k k := by
  constructor
  · intro hh
    by_contra hno
    -- without a way back, going on from `h` is well-founded on the stored nodes
    let Below := {k : Hash // k ∈ nodes.keys ∧ Relation.ReflTransGen nodes.GoesOn h k}
    let below : Below → Below → Prop := fun a b => nodes.GoesOn b.1 a.1
    have hfinite : Finite Below :=
      Set.Finite.subset nodes.keys.finite_toSet fun k hk => hk.1
    have hup {a b : Below} (hab : Relation.TransGen below a b) :
        Relation.TransGen nodes.GoesOn b.1 a.1 := by
      induction hab with
      | single hg => exact .single hg
      | tail _ hg ih => exact .head hg ih
    have hirrefl : Std.Irrefl (Relation.TransGen below) :=
      ⟨fun a ha => hno ⟨a.1, a.2.2, hup ha⟩⟩
    have hwf : WellFounded below :=
      Subrelation.wf (fun hab => .single hab)
        (Finite.wellFounded_of_trans_of_irrefl (Relation.TransGen below))
    have hstored {k : Hash} (hk : ¬ (nodes.preorder k).Ends) : k ∈ nodes.keys := by
      obtain ⟨-, ⟨n, hn, -⟩, -⟩ := exists_goesOn hk
      rw [Std.ExtTreeMap.mem_keys, Std.ExtTreeMap.mem_iff_isSome_getElem?, hn]
      rfl
    have hall : ∀ a : Below, (nodes.preorder a.1).Ends := by
      intro a
      induction a using hwf.induction with
      | _ a ih =>
          by_contra ha
          obtain ⟨k, hg, hk⟩ := exists_goesOn ha
          exact hk (ih ⟨k, hstored hk, a.2.2.tail hg⟩ hg)
    exact hh (hall ⟨h, hstored hh, .refl⟩)
  · rintro ⟨k, hreach, hback⟩
    induction hreach using Relation.ReflTransGen.head_induction_on with
    | refl => exact not_ends_of_transGen hback
    | head hg _ ih => exact hg.not_ends ih

/-! ### Listings -/

variable {nodes' : NodeMap} {ns ms : List Node}

/-- The nodes under a hash: the node itself, then those of its left subtree, then those of its
right one. -/
inductive Lists (nodes : NodeMap) : Hash → List Node → Prop
  | terminal {h : Hash} {n : Terminal} (hn : nodes[h]? = some (.terminal n)) :
      Lists nodes h [.terminal n]
  | internal {h : Hash} {n : Internal} {ls rs : List Node} (hn : nodes[h]? = some (.internal n))
      (hl : Lists nodes n.left ls) (hr : Lists nodes n.right rs) :
      Lists nodes h (.internal n :: (ls ++ rs))

/-- There is one listing only. -/
theorem Lists.unique (hns : nodes.Lists h ns) (hms : nodes.Lists h ms) : ns = ms := by
  induction hns generalizing ms with
  | terminal hn =>
      cases hms with
      | terminal hn' =>
          obtain rfl := Node.terminal.inj (Option.some.inj (hn.symm.trans hn'))
          rfl
      | internal hn' => cases hn.symm.trans hn'
  | internal hn hl hr ihl ihr =>
      cases hms with
      | terminal hn' => cases hn.symm.trans hn'
      | internal hn' hl' hr' =>
          obtain rfl := Node.internal.inj (Option.some.inj (hn.symm.trans hn'))
          rw [ihl hl', ihr hr']

/-- Nodes that are stored later are in no listing of what is there already. -/
theorem Lists.mono (hnodes : ∀ (k : Hash) (n : Node), nodes[k]? = some n → nodes'[k]? = some n)
    (hns : nodes.Lists h ns) : nodes'.Lists h ns := by
  induction hns with
  | terminal hn => exact .terminal (hnodes _ _ hn)
  | internal hn _ _ ihl ihr => exact .internal (hnodes _ _ hn) ihl ihr

/-- A whole walk that does not fail has visited the listing. -/
theorem lists_of_failure_eq_none {d : Nat} (hf : (nodes.preorderWithin d h).failure = none) :
    nodes.Lists h ((nodes.preorderWithin d h).visited.map Prod.snd) := by
  induction d generalizing h with
  | zero => cases hf
  | succ d ih =>
      cases hn : nodes[h]? with
      | none => simp [NodeMap.walkWithin, hn, Trace.fail] at hf
      | some m =>
          cases m with
          | terminal m =>
              have hone : (nodes.preorderWithin (d + 1) h).visited = [(h, .terminal m)] := by
                simp [NodeMap.walkWithin, hn]
              rw [hone]
              exact .terminal hn
          | internal m =>
              rw [NodeMap.preorderWithin_internal hn] at hf ⊢
              obtain ⟨-, hboth⟩ := Trace.failure_append_eq_none.mp hf
              obtain ⟨hleft, hright⟩ := Trace.failure_append_eq_none.mp hboth
              rw [Trace.visited_append_of_none rfl, Trace.visited_append_of_none hleft,
                List.map_append, List.map_append, List.map_singleton, List.singleton_append]
              exact .internal hn (ih hleft) (ih hright)

end NodeMap

/-! ## Steps -/

namespace Cursor

variable {nodes : NodeMap} {c c' c'' : Cursor} {ns ns' : List Node} {start h : Hash}
  {rest : List Hash} {d : Nat} {e : Error} {items : List (Except Error Node)}

/-- Steps that do not fail give these nodes and end somewhere in the walk. -/
inductive Steps (nodes : NodeMap) : Cursor → List Node → Cursor → Prop
  | refl (c : Cursor) : Steps nodes c [] c
  | head {c c' c'' : Cursor} {n : Node} {ns : List Node}
      (hn : c.next nodes = (some (.ok n), c')) (hs : Steps nodes c' ns c'') :
      Steps nodes c (n :: ns) c''

theorem Steps.trans (hs : c.Steps nodes ns c') (hs' : c'.Steps nodes ns' c'') :
    c.Steps nodes (ns ++ ns') c'' := by
  induction hs with
  | refl c => exact hs'
  | head hn _ ih => exact .head hn (ih hs')

theorem next_of_none (hn : nodes[h]? = none) :
    (⟨start, h :: rest, false⟩ : Cursor).next nodes =
      (some (.error (.notFound (.node h))), ⟨start, rest, true⟩) := by
  simp [next, hn]

theorem next_of_terminal {n : Terminal} (hn : nodes[h]? = some (.terminal n)) :
    (⟨start, h :: rest, false⟩ : Cursor).next nodes =
      (some (.ok (.terminal n)), ⟨start, rest, false⟩) := by
  simp [next, hn]

theorem next_of_internal {n : Internal} (hn : nodes[h]? = some (.internal n)) :
    (⟨start, h :: rest, false⟩ : Cursor).next nodes =
      (some (.ok (.internal n)), ⟨start, n.left :: n.right :: rest, false⟩) := by
  simp [next, hn]

/-- The nodes of a listing are so many steps, which leave what comes after it. -/
theorem steps_of_lists (hns : nodes.Lists h ns) :
    (⟨start, h :: rest, false⟩ : Cursor).Steps nodes ns ⟨start, rest, false⟩ := by
  induction hns generalizing rest with
  | terminal hn => exact .head (next_of_terminal hn) (.refl _)
  | internal hn _ _ ihl ihr => exact .head (next_of_internal hn) (ihl.trans ihr)

/-- A whole walk that does not fail is so many steps, which leave what comes after it. -/
theorem steps_within (hf : (nodes.preorderWithin d h).failure = none) :
    (⟨start, h :: rest, false⟩ : Cursor).Steps nodes
      ((nodes.preorderWithin d h).visited.map Prod.snd) ⟨start, rest, false⟩ :=
  steps_of_lists (NodeMap.lists_of_failure_eq_none hf)

/-- A whole walk that fails is so many steps and then one that fails in the same way. -/
theorem steps_within_of_failure (hf : (nodes.preorderWithin d h).failure = some e)
    (he : e ≠ .endless) :
    ∃ c' c'', (⟨start, h :: rest, false⟩ : Cursor).Steps nodes
        ((nodes.preorderWithin d h).visited.map Prod.snd) c' ∧
      c'.next nodes = (some (.error e), c'') ∧ c''.hasFailed = true := by
  induction d generalizing h rest with
  | zero =>
      cases hf
      exact absurd rfl he
  | succ d ih =>
      cases hn : nodes[h]? with
      | none =>
          have hfail : nodes.preorderWithin (d + 1) h = .fail (.notFound (.node h)) := by
            simp [NodeMap.walkWithin, hn]
          rw [hfail] at hf ⊢
          cases hf
          exact ⟨_, _, .refl _, next_of_none hn, rfl⟩
      | some m =>
          cases m with
          | terminal m => simp [NodeMap.walkWithin, hn] at hf
          | internal m =>
              rw [NodeMap.preorderWithin_internal hn] at hf ⊢
              rw [Trace.failure_append_of_none rfl] at hf
              rw [Trace.visited_append_of_none rfl]
              cases hleft : (nodes.preorderWithin d m.left).failure with
              | some e' =>
                  rw [Trace.append_of_failure hleft] at hf ⊢
                  obtain ⟨c', c'', hs, hnext, hfailed⟩ := ih hf
                  exact ⟨c', c'', .head (next_of_internal hn) hs, hnext, hfailed⟩
              | none =>
                  rw [Trace.failure_append_of_none hleft] at hf
                  rw [Trace.visited_append_of_none hleft, List.map_append, List.map_append]
                  obtain ⟨c', c'', hs, hnext, hfailed⟩ := ih hf
                  exact ⟨c', c'', .head (next_of_internal hn) ((steps_within hleft).trans hs),
                    hnext, hfailed⟩

/-- A walk that does not fail is the steps of the whole walk. -/
theorem steps_preorder (hf : (nodes.preorder h).failure = none) :
    (ofStart h).Steps nodes ((nodes.preorder h).visited.map Prod.snd) ⟨h, [], false⟩ :=
  steps_within hf

/-- A walk that fails is the steps of the whole walk, and then one that fails. -/
theorem steps_preorder_of_failure (hf : (nodes.preorder h).failure = some e)
    (he : e ≠ .endless) :
    ∃ c' c'', (ofStart h).Steps nodes ((nodes.preorder h).visited.map Prod.snd) c' ∧
      c'.next nodes = (some (.error e), c'') ∧ c''.hasFailed = true :=
  steps_within_of_failure hf he

/-- An endless walk is still to come, and nothing before it fails. -/
def IsStuck (nodes : NodeMap) (c : Cursor) : Prop :=
  c.hasFailed = false ∧ ∃ before h after, c.pending = before ++ h :: after ∧
    (∀ k ∈ before, (nodes.preorder k).failure = none) ∧ ¬ (nodes.preorder h).Ends

/-- A walk with an endless one to come takes another step, and the endless one is still to
come. -/
theorem IsStuck.next (hc : c.IsStuck nodes) :
    ∃ n c', c.next nodes = (some (.ok n), c') ∧ c'.IsStuck nodes := by
  obtain ⟨start, pending, hasFailed⟩ := c
  obtain ⟨rfl, before, h, after, rfl, hbefore, hh⟩ := hc
  cases before with
  | nil =>
      obtain ⟨k, ⟨n, hn, hside⟩, hk⟩ := NodeMap.exists_goesOn hh
      refine ⟨_, _, next_of_internal hn, rfl, ?_⟩
      rcases hside with rfl | ⟨hleft, rfl⟩
      · exact ⟨[], n.left, n.right :: after, rfl, by simp, hk⟩
      · exact ⟨[n.left], n.right, after, rfl, by simpa using hleft, hk⟩
  | cons k before =>
      have hk := hbefore k List.mem_cons_self
      have hrest : ∀ k ∈ before, (nodes.preorder k).failure = none := fun k hk =>
        hbefore k (List.mem_cons_of_mem _ hk)
      cases hn : nodes[k]? with
      | none => simp [NodeMap.preorder_of_none hn, Trace.fail] at hk
      | some m =>
          cases m with
          | terminal m =>
              exact ⟨_, _, next_of_terminal hn, rfl, before, h, after, rfl, hrest, hh⟩
          | internal m =>
              rw [NodeMap.preorder_of_internal hn (Trace.ends_of_failure_eq_none hk)] at hk
              obtain ⟨-, hboth⟩ := Trace.failure_append_eq_none.mp hk
              obtain ⟨hleft, hright⟩ := Trace.failure_append_eq_none.mp hboth
              refine ⟨_, _, next_of_internal hn, rfl, m.left :: m.right :: before, h, after, rfl,
                ?_, hh⟩
              intro k hmem
              rcases List.mem_cons.mp hmem with rfl | hmem
              · exact hleft
              · rcases List.mem_cons.mp hmem with rfl | hmem
                · exact hright
                · exact hrest k hmem

theorem isStuck_ofStart (hh : ¬ (nodes.preorder h).Ends) : (ofStart h).IsStuck nodes :=
  ⟨rfl, [], h, [], rfl, by simp, hh⟩

/-! ### Taking steps -/

theorem take_of_steps (hs : c.Steps nodes ns c') (count : Nat) :
    c.take nodes (ns.length + count) =
      (ns.map .ok ++ (c'.take nodes count).1, (c'.take nodes count).2) := by
  induction hs with
  | refl c => simp
  | @head c c₁ c₂ n ns hn _ ih =>
      rw [List.length_cons, show ns.length + 1 + count = ns.length + count + 1 by omega, take, hn]
      simp only [ih]
      rfl

/-- Nothing comes after the end of a walk. -/
theorem take_of_over (hover : (c.next nodes).1 = none) (count : Nat) :
    (c.take nodes count).1 = [] := by
  cases count with
  | zero => rfl
  | succ count =>
      rw [take]
      split
      · rfl
      · next heq =>
          rw [heq] at hover
          cases hover

/-- After the end of a walk more steps give no more. -/
theorem take_of_le {count count' : Nat} (hle : count ≤ count')
    (hover : ((c.take nodes count).2.next nodes).1 = none) :
    (c.take nodes count').1 = (c.take nodes count).1 := by
  induction count generalizing c count' with
  | zero => exact take_of_over hover count'
  | succ count ih =>
      obtain ⟨count', rfl⟩ : ∃ m, count' = m + 1 := ⟨count' - 1, by omega⟩
      rw [take] at hover ⊢
      rw [take]
      cases hn : c.next nodes with
      | mk item c₁ =>
          cases item with
          | none => rfl
          | some item =>
              simp only [hn] at hover ⊢
              rw [ih (by omega) hover]

/-- Step by step a walk gives these items, and then it is over. -/
def Gives (nodes : NodeMap) (c : Cursor) (items : List (Except Error Node)) : Prop :=
  ∃ count, (c.take nodes count).1 = items ∧ ((c.take nodes count).2.next nodes).1 = none

/-- A walk gives one list of items only. -/
theorem Gives.unique {items' : List (Except Error Node)} (hg : c.Gives nodes items)
    (hg' : c.Gives nodes items') : items = items' := by
  obtain ⟨count, rfl, hover⟩ := hg
  obtain ⟨count', rfl, hover'⟩ := hg'
  rcases Nat.le_total count count' with hle | hle
  · exact (take_of_le hle hover).symm
  · exact take_of_le hle hover'

/-- With an endless walk to come every number of steps is taken. -/
theorem IsStuck.take (hc : c.IsStuck nodes) (count : Nat) :
    (c.take nodes count).1.length = count ∧ (c.take nodes count).2.IsStuck nodes := by
  induction count generalizing c with
  | zero => exact ⟨rfl, hc⟩
  | succ count ih =>
      obtain ⟨n, c', hn, hc'⟩ := hc.next
      obtain ⟨hlength, hstuck⟩ := ih hc'
      rw [Cursor.take, hn]
      exact ⟨by simp [hlength], hstuck⟩

theorem IsStuck.not_gives (hc : c.IsStuck nodes) : ¬ c.Gives nodes items := by
  rintro ⟨count, -, hover⟩
  obtain ⟨n, c', hn, -⟩ := (hc.take count).2.next
  rw [hn] at hover
  cases hover

/-- A walk that ends gives step by step all that the whole walk gives. -/
theorem gives_preorder (hends : (nodes.preorder h).Ends) :
    (ofStart h).Gives nodes (nodes.preorder h).items := by
  cases hf : (nodes.preorder h).failure with
  | none =>
      have htake := take_of_steps (steps_preorder hf) 0
      rw [Nat.add_zero] at htake
      refine ⟨((nodes.preorder h).visited.map Prod.snd).length, ?_, ?_⟩
      · rw [htake]
        simp [Trace.items, hf, Cursor.take]
      · rw [htake]
        rfl
  | some e =>
      obtain ⟨c', c'', hs, hnext, hfailed⟩ :=
        steps_preorder_of_failure hf fun he => hends (hf.trans (congrArg some he))
      have htake := take_of_steps hs 1
      refine ⟨((nodes.preorder h).visited.map Prod.snd).length + 1, ?_, ?_⟩
      · rw [htake]
        simp [Trace.items, hf, Cursor.take, hnext]
      · rw [htake]
        simp only [Cursor.take, hnext]
        rw [Cursor.next, if_pos hfailed]

/-- What a walk gives step by step, if it ends, is what the whole walk gives. -/
theorem gives_iff :
    (ofStart h).Gives nodes items ↔ (nodes.preorder h).Ends ∧ items = (nodes.preorder h).items := by
  constructor
  · intro hg
    have hends : (nodes.preorder h).Ends := by
      by_contra hh
      exact (isStuck_ofStart hh).not_gives hg
    exact ⟨hends, hg.unique (gives_preorder hends)⟩
  · rintro ⟨hends, rfl⟩
    exact gives_preorder hends

end Cursor

end MerkleStore
