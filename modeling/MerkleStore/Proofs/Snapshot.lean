import MerkleStore.Proofs.AppendOnly
import MerkleStore.Proofs.Stepwise

/-!
# Walks that others write under

A walk that is taken step by step looks every node up when it gets there, in a store to which
anything may have been written in the meantime. What it still has to visit is on its stack, and the
nodes under the hashes of the stack (`NodeMap.ListsAll`) stay the same under every write, since a
stored node stays and everything below it is stored too. So the answers are those of one list, the
nodes under the start when the walk began, and whatever happens between two steps makes no
difference (`walk_sees_snapshot`). Nothing is assumed about digests.
-/

namespace MerkleStore

/-! ## Listings -/

namespace NodeMap

variable {nodes nodes' : NodeMap} {h : Hash} {hs : List Hash} {ns : List Node}

/-- The nodes under several hashes, one subtree after the other. -/
inductive ListsAll (nodes : NodeMap) : List Hash → List Node → Prop
  | nil : ListsAll nodes [] []
  | cons {h : Hash} {hs : List Hash} {ns ms : List Node} (hh : nodes.Lists h ns)
      (hhs : ListsAll nodes hs ms) : ListsAll nodes (h :: hs) (ns ++ ms)

theorem ListsAll.mono (hnodes : ∀ (k : Hash) (n : Node), nodes[k]? = some n → nodes'[k]? = some n)
    (hns : nodes.ListsAll hs ns) : nodes'.ListsAll hs ns := by
  induction hns with
  | nil => exact .nil
  | cons hh _ ih => exact .cons (hh.mono hnodes) ih

/-- Everything under a stored node can be listed, as it is by the whole walk. -/
theorem Grounded.exists_lists (hg : nodes.Grounded) (hh : h ∈ nodes) :
    ∃ ns, nodes.Lists h ns ∧ (nodes.preorder h).nodes = .ok ns := by
  have hf := hg.failure_walk .left (fun _ => false) hh
  refine ⟨_, lists_of_failure_eq_none hf, ?_⟩
  simp only [Trace.nodes, preorder, hf]
  rfl

/-- A step of a walk gives the first node that is still to be listed, and leaves the others. -/
theorem ListsAll.next (hns : nodes.ListsAll hs ns) (start : Hash) :
    ∃ hs', (⟨start, hs, false⟩ : Cursor).next nodes = (ns.head?.map .ok, ⟨start, hs', false⟩) ∧
      nodes.ListsAll hs' ns.tail := by
  cases hns with
  | nil => exact ⟨[], rfl, .nil⟩
  | cons hh hhs =>
      cases hh with
      | terminal hn => exact ⟨_, Cursor.next_of_terminal hn, hhs⟩
      | internal hn hl hr =>
          refine ⟨_, Cursor.next_of_internal hn, ?_⟩
          rw [List.cons_append, List.tail_cons, List.append_assoc]
          exact .cons hl (.cons hr hhs)

end NodeMap

theorem Cursor.start_next (nodes : NodeMap) (c : Cursor) : (c.next nodes).2.start = c.start := by
  rw [Cursor.next]
  split
  · rfl
  · split
    · rfl
    · split <;> rfl

/-! ## Walks under way -/

/-- What happens while a walk is under way. -/
inductive Move
  | deed (d : Store.Deed)
  | next
  | rewind

/-- A walk over a store that may be written to, with all that it has answered since it began or was
rewound; it answers nothing when it is over. -/
structure Viewing where
  store : Store
  cursor : Cursor
  given : List (Option (Except Error Node))

namespace Viewing

/-- A walk that has not begun. -/
def ofStart (s : Store) (h : Hash) : Viewing := ⟨s, .ofStart h, []⟩

def after (v : Viewing) : Move → Viewing
  | .deed d => { v with store := d.after v.store }
  | .next =>
      { v with
        cursor := (v.cursor.next v.store.state.nodes).2
        given := v.given ++ [(v.cursor.next v.store.state.nodes).1] }
  | .rewind => { v with cursor := v.cursor.rewind, given := [] }

variable {v : Viewing} {h : Hash} {ns : List Node} {moves : List Move}

/-- A walk under a hash where some nodes are listed: it has answered with the first of them, and
nothing after the last one, and has still to visit the others. -/
structure Sees (h : Hash) (ns : List Node) (v : Viewing) : Prop where
  listed : v.store.state.nodes.Lists h ns
  start : v.cursor.start = h
  running : v.cursor.hasFailed = false
  pending : v.store.state.nodes.ListsAll v.cursor.pending (ns.drop v.given.length)
  given : ∀ (i : Nat) (a : Option (Except Error Node)), v.given[i]? = some a →
    a = ns[i]?.map .ok

theorem sees_of_lists {c : Cursor} {s : Store} (hns : s.state.nodes.Lists h ns)
    (hc : c = .ofStart h) : Sees h ns ⟨s, c, []⟩ where
  listed := hns
  start := hc ▸ rfl
  running := hc ▸ rfl
  pending := by
    have hall := NodeMap.ListsAll.cons hns .nil
    rw [List.append_nil] at hall
    exact hc ▸ hall
  given := by simp

/-- Writing, stepping and going back to the start go on with the same listing. -/
theorem Sees.after (hv : Sees h ns v) (m : Move) : Sees h ns (v.after m) := by
  obtain ⟨hlisted, hstart, hrunning, hpending, hgiven⟩ := hv
  cases m with
  | deed d =>
      have hnodes := (Store.remainsIn_after v.store d).nodes
      exact ⟨hlisted.mono hnodes, hstart, hrunning, hpending.mono hnodes, hgiven⟩
  | rewind => exact sees_of_lists hlisted (congrArg Cursor.ofStart hstart)
  | next =>
      obtain ⟨hs', hnext, hrest⟩ := hpending.next h
      have hcursor : v.cursor = ⟨h, v.cursor.pending, false⟩ := by rw [← hstart, ← hrunning]
      rw [← hcursor, List.head?_drop] at hnext
      rw [List.tail_drop] at hrest
      rw [Viewing.after, hnext]
      refine ⟨hlisted, rfl, rfl, ?_, fun i a ha => ?_⟩
      · rwa [List.length_append]
      · rw [List.getElem?_append] at ha
        split at ha
        · exact hgiven i a ha
        · next hge =>
            obtain ⟨hi, rfl⟩ := List.getElem?_eq_some_iff.mp ha
            obtain rfl : i = v.given.length := by
              rw [List.length_singleton] at hi
              omega
            simp

theorem Sees.foldl (hv : Sees h ns v) (moves : List Move) :
    Sees h ns (moves.foldl Viewing.after v) :=
  moves.foldlRecOn Viewing.after hv fun _ hv m _ => hv.after m

/-! ### Walks under nothing -/

/-- A walk is at its start until it has taken a step. -/
structure Begins (h : Hash) (v : Viewing) : Prop where
  start : v.cursor.start = h
  unmoved : v.given = [] → v.cursor = .ofStart h

theorem Begins.after (hv : Begins h v) (m : Move) : Begins h (v.after m) := by
  cases m with
  | deed d => exact ⟨hv.start, hv.unmoved⟩
  | next => exact ⟨(Cursor.start_next _ _).trans hv.start, by simp [Viewing.after]⟩
  | rewind =>
      have hcursor : v.cursor.rewind = .ofStart h := congrArg Cursor.ofStart hv.start
      exact ⟨congrArg Cursor.start hcursor, fun _ => hcursor⟩

/-- A walk that has not found its start: it has said so once, and then nothing more. -/
structure Misses (h : Hash) (v : Viewing) : Prop where
  failed : v.cursor.hasFailed = true
  given : ∃ count, v.given =
    some (.error (.notFound (.node h))) :: List.replicate count none

/-- Whatever is written in the meantime, it says nothing more until it is rewound. -/
theorem Misses.after (hv : Misses h v) {m : Move} (hm : m ≠ .rewind) : Misses h (v.after m) := by
  obtain ⟨hfailed, count, hgiven⟩ := hv
  cases m with
  | deed d => exact ⟨hfailed, count, hgiven⟩
  | rewind => exact absurd rfl hm
  | next =>
      have hnext : v.cursor.next v.store.state.nodes = (none, v.cursor) := by
        rw [Cursor.next, if_pos hfailed]
      rw [Viewing.after, hnext]
      refine ⟨hfailed, count + 1, ?_⟩
      rw [hgiven, List.replicate_succ', List.cons_append]

/-- The first step of a walk whose start is not stored by then. -/
theorem Begins.misses (hv : Begins h v) (hgiven : v.given = [])
    (hh : h ∉ v.store.state.nodes) : Misses h (v.after .next) := by
  have hnone : v.store.state.nodes[h]? = none := Std.ExtTreeMap.getElem?_eq_none hh
  have hnext : v.cursor.next v.store.state.nodes =
      (some (.error (.notFound (.node h))), ⟨h, [], true⟩) := by
    rw [hv.unmoved hgiven]
    exact Cursor.next_of_none hnone
  rw [Viewing.after, hnext]
  exact ⟨rfl, 0, by rw [hgiven]; rfl⟩

end Viewing

/-- A walk that is taken step by step in a state that a run leads to sees one snapshot, whatever
calls and transactions come between its steps. If its start is stored, its answers since it began
or was rewound are one by one the nodes of a listing that is fixed from the start, and nothing as
soon as this has come to its end. If its start is not stored when it is looked for, the walk says
so once, and then nothing until it is rewound. -/
theorem walk_sees_snapshot {s₀ s : Store} (hnew : s₀.IsNew) {steps : List Step}
    (hrun : run s₀ steps = .ok s) (h : Hash) :
    (h ∈ s.state.nodes → ∃ ns, s.state.nodes.Lists h ns ∧ (s.preorder h).nodes = .ok ns ∧
      ∀ (moves : List Move) (i : Nat) (answer : Option (Except Error Node)),
        (moves.foldl Viewing.after (.ofStart s h)).given[i]? = some answer →
          answer = ns[i]?.map .ok) ∧
    ∀ (moves : List Move) (v : Viewing), moves.foldl Viewing.after (.ofStart s h) = v →
      v.given = [] → h ∉ v.store.state.nodes →
        ∀ moves' : List Move, .rewind ∉ moves' → ∃ count,
          (moves'.foldl Viewing.after (v.after .next)).given =
            some (.error (.notFound (.node h))) :: List.replicate count none := by
  refine ⟨fun hh => ?_, ?_⟩
  · have hg := (hnew.orderly.of_run hrun).state.grounded
    obtain ⟨ns, hns, hpreorder⟩ := hg.exists_lists hh
    exact ⟨ns, hns, hpreorder, fun moves => ((Viewing.sees_of_lists hns rfl).foldl moves).given⟩
  · rintro moves v rfl hgiven hh moves' hmoves'
    have hbegins : Viewing.Begins h (moves.foldl Viewing.after (.ofStart s h)) :=
      moves.foldlRecOn Viewing.after ⟨rfl, fun _ => rfl⟩ fun _ hv m _ => hv.after m
    have hmisses : Viewing.Misses h (moves'.foldl Viewing.after _) :=
      moves'.foldlRecOn Viewing.after (hbegins.misses hgiven hh) fun _ hv m hm =>
        hv.after fun heq => hmoves' (heq ▸ hm)
    exact hmisses.given

/-- A walk under the second version of a tree goes on while the last key is deleted; a walk that has
nothing to start from ends with its first step. -/
theorem walk_sees_snapshot_of_sampleSteps :
    let h := Hash.internal (.terminal [2] [20]) (.terminal [1] [10])
    let later : List Move := [.deed (.call (.delete sampleTree [2])), .next, .next, .next]
    ∃ s, run .volatile sampleSteps = .ok s ∧ h ∈ s.state.nodes ∧ default ∉ s.state.nodes ∧
      ((.next :: later).foldl Viewing.after (.ofStart s h)).given =
        [some (.ok (.internal (.ofPair (.terminal [2] [20]) (.terminal [1] [10])))),
          some (.ok (.terminal (.ofPair [2] [20]))), some (.ok (.terminal (.ofPair [1] [10]))),
          none] ∧
      ((.next :: later).foldl Viewing.after (.ofStart s default)).given =
        [some (.error (.notFound (.node default))), none, none, none] := by
  intro h later
  have heval : (do
      let s ← (run .volatile sampleSteps).toOption
      let ns ← (s.preorder h).nodes.toOption
      return (s.state.nodes.contains h, s.state.nodes.contains default, ns)) =
        some (true, false, [.internal (.ofPair (.terminal [2] [20]) (.terminal [1] [10])),
          .terminal (.ofPair [2] [20]), .terminal (.ofPair [1] [10])]) := by
    decide +kernel
  obtain ⟨s, hrun, -⟩ := Store.IsNew.orderly (.inl rfl) |>.exists_run sampleSteps
  simp only [hrun, Except.toOption, bind, Option.bind_some, Option.bind_eq_some_iff, pure,
    Option.some.injEq, Prod.mk.injEq] at heval
  obtain ⟨ns, hns, hstored, hmissing, rfl⟩ := heval
  have hstored : h ∈ s.state.nodes := Std.ExtTreeMap.contains_iff_mem.mp hstored
  have hmissing : default ∉ s.state.nodes := by
    rw [← Std.ExtTreeMap.contains_iff_mem, hmissing]
    exact Bool.false_ne_true
  obtain ⟨ns', -, hns', hgiven⟩ := (walk_sees_snapshot (.inl rfl) hrun h).1 hstored
  obtain rfl := Except.ok.inj (hns'.symm.trans (eq_ok_of_toOption hns))
  obtain ⟨count, hmisses⟩ := (walk_sees_snapshot (.inl rfl) hrun default).2 [] _ rfl rfl hmissing
    later (by simp [later])
  have hlength (start : Hash) :
      ((.next :: later).foldl Viewing.after (.ofStart s start)).given.length = 4 := rfl
  refine ⟨s, hrun, hstored, hmissing, ?_, ?_⟩
  · refine List.ext_getElem (hlength h) fun i hi _ => ?_
    rw [hgiven _ i _ (List.getElem?_eq_getElem hi)]
    rw [hlength] at hi
    obtain rfl | rfl | rfl | rfl : i = 0 ∨ i = 1 ∨ i = 2 ∨ i = 3 := by omega
    all_goals rfl
  · have hcount := (congrArg List.length hmisses).symm.trans (hlength default)
    rw [List.length_cons, List.length_replicate] at hcount
    obtain rfl : count = 3 := by omega
    exact hmisses

end MerkleStore
