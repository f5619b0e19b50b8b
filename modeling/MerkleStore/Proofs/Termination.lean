import MerkleStore.Proofs.Durability
import MerkleStore.Proofs.Stepwise

/-!
# When opening a file ends

Opening a file runs three loops: over the frames, over the trees, and over the nodes under the
latest root of each tree, of which those still to be looked up are kept on a stack. Here they
are loops that count their turns, and with too few of them there is no result yet
(`Journal.recoverWithin`). Every frame takes bytes off the file, so that the first loop ends
for every file. The last one takes nodes and hashes as they are stored, and it ends unless a
walk comes upon a node below itself. Main statements: opening ends exactly then
(`Journal.opening_ends_iff`); a file of one frame, with a valid checksum, with which it does not
(`Journal.opening_never_ends`).
-/

namespace MerkleStore

/-- What a loop that counts its turns gives. -/
inductive Attempt (α : Type)
  /-- The turns were too few. -/
  | unfinished
  | finished (result : Except Error α)

namespace Attempt

variable {α β : Type}

def done (a : α) : Attempt α := finished (.ok a)

/-- Goes on with the result; a failure is final, and so is a lack of turns. -/
def andThen (x : Attempt α) (next : α → Attempt β) : Attempt β :=
  match x with
  | unfinished => unfinished
  | finished (.ok a) => next a
  | finished (.error e) => finished (.error e)

instance : Monad Attempt where
  pure := done
  bind := andThen

/-- With enough turns a loop gives this result and never another one; where a walk is
endless, no number of turns is enough. -/
structure Approaches (f : Nat → Attempt α) (x : Except Error α) : Prop where
  sound : ∀ turns result, f turns = .finished result → result = x ∧ x ≠ .error .endless
  reached : x ≠ .error .endless → ∃ enough, ∀ turns, enough ≤ turns → f turns = .finished x

variable {f : Nat → Attempt α} {x : Except Error α}

theorem Approaches.finished (hx : x ≠ .error .endless) : Approaches (fun _ => finished x) x where
  sound := by
    intro _ result h
    exact ⟨(finished.inj h).symm, hx⟩
  reached := fun _ => ⟨0, fun _ _ => rfl⟩

/-- A loop to which more turns make no difference once it has a result. -/
theorem Approaches.of_mono
    (hmono : ∀ turns result, f turns = .finished result → f (turns + 1) = .finished result)
    (hresult : x ≠ .error .endless → ∃ turns, f turns = .finished x)
    (hnever : x = .error .endless → ∀ turns, f turns = .unfinished) : Approaches f x := by
  have hlater {turns turns' : Nat} {result : Except Error α} (h : f turns = .finished result)
      (hle : turns ≤ turns') : f turns' = .finished result := by
    induction turns', hle using Nat.le_induction with
    | base => exact h
    | succ turns' _ ih => exact hmono turns' result ih
  constructor
  · intro turns result h
    have hx : x ≠ .error .endless := by
      intro hx
      rw [hnever hx turns] at h
      cases h
    obtain ⟨turns', h'⟩ := hresult hx
    have hboth := hlater h (Nat.le_max_left turns turns')
    rw [hlater h' (Nat.le_max_right turns turns')] at hboth
    exact ⟨(finished.inj hboth).symm, hx⟩
  · intro hx
    obtain ⟨turns, h⟩ := hresult hx
    exact ⟨turns, fun turns' hle => hlater h hle⟩

/-- No number of turns is enough where a walk is endless. -/
theorem Approaches.eq_unfinished (hf : Approaches f (.error .endless)) (turns : Nat) :
    f turns = .unfinished := by
  cases h : f turns with
  | unfinished => rfl
  | finished result => exact absurd rfl (hf.sound turns result h).2

/-- One loop after another gives what the results give one after another. -/
theorem Approaches.bind {g : Nat → α → Attempt β} {y : α → Except Error β}
    (hf : Approaches f x) (hg : ∀ a, x = .ok a → Approaches (fun turns => g turns a) (y a)) :
    Approaches (fun turns => f turns >>= g turns) (x.bind y) where
  sound := by
    intro turns result h
    cases hturns : f turns with
    | unfinished =>
        simp only [Bind.bind, andThen, hturns] at h
        cases h
    | finished first =>
        obtain ⟨rfl, hx⟩ := hf.sound turns first hturns
        simp only [Bind.bind, andThen, hturns] at h
        cases first with
        | error e =>
            cases h
            exact ⟨rfl, fun he => hx (congrArg Except.error (Except.error.inj he))⟩
        | ok a => exact (hg a rfl).sound turns result h
  reached := by
    intro hy
    cases x with
    | error e =>
        obtain ⟨enough, hreached⟩ := hf.reached fun he =>
          hy (congrArg Except.error (Except.error.inj he))
        refine ⟨enough, fun turns hle => ?_⟩
        simp only [Bind.bind, andThen, hreached turns hle]
        rfl
    | ok a =>
        obtain ⟨enough, hreached⟩ := hf.reached (by simp)
        obtain ⟨enough', hreached'⟩ := (hg a rfl).reached hy
        refine ⟨max enough enough', fun turns hle => ?_⟩
        simp only [Bind.bind, andThen, hreached turns (by omega)]
        exact hreached' turns (by omega)

end Attempt

/-! ## The loops -/

/-- Enters in an index what a walk comes to, one node in each turn. -/
def NodeMap.indexFrom (nodes : NodeMap) : Nat → Cursor → Index → Attempt Index
  | 0, _, _ => .unfinished
  | turns + 1, c, i =>
      match c.next nodes with
      | (none, _) => .finished (.ok i)
      | (some (.error e), _) => .finished (.error e)
      | (some (.ok n), c) => nodes.indexFrom turns c (i.addNode n)

namespace State

/-- The index of the nodes under a root. -/
def indexWithin (nodes : NodeMap) (turns : Nat) : Option Hash → Attempt Index
  | none => .done .empty
  | some h => nodes.indexFrom turns (.ofStart h) .empty

/-- Trees with their indexes made again, one in each turn. -/
def indexTrees (nodes : NodeMap) (turns : Nat) :
    List (TreeId × History) → Attempt (List (TreeId × History))
  | [] => .done []
  | x :: xs => do
      let index ← indexWithin nodes turns x.2.latest.node
      let xs ← indexTrees nodes turns xs
      return (x.1, { x.2 with index }) :: xs

/-- The state with the index of every tree made again, in the order of tree ids. -/
def reindexWithin (turns : Nat) (s : State) : Attempt State := do
  let trees ← indexTrees s.nodes turns s.trees.toList
  return { s with trees := .ofList trees }

end State

namespace Journal

/-- Applies the frames at the front of `rest`, which starts at `offset`, one in each turn. -/
def replayWithin (z : Codec) : Nat → Nat → State → Bytes → Attempt (State × Nat)
  | 0, _, _, _ => .unfinished
  | turns + 1, offset, s, rest =>
      if rest.isEmpty then .finished (.ok (s, offset))
      else
        match Frame.decode z rest with
        | .error e => .finished (.error e)
        | .ok (.whole records size) =>
            match s.applyAll records with
            | .error e => .finished (.error e)
            | .ok s => replayWithin z turns (offset + size) s (rest.drop size)
        | .ok .truncated =>
            if Frame.isWithin z rest.tail then .finished (.error (.corruption (.overrun offset)))
            else .finished (.ok (s, offset))
        | .ok (.wrongChecksum size) =>
            if size < rest.length then .finished (.error (.corruption (.checksum offset)))
            else .finished (.ok (s, offset))

/-- Opens a file, with no more than this number of turns for each loop. -/
def recoverWithin (z : Codec) (turns : Nat) (bytes : Bytes) : Attempt (State × Journal) := do
  Attempt.finished (checkHeader bytes)
  let x ← replayWithin z turns headerSize .empty (bytes.drop headerSize)
  let s ← x.1.reindexWithin turns
  return (s, ⟨z, bytes.take x.2, x.2⟩)

end Journal

/-! ## Frames -/

/-- A whole frame takes bytes off the file. -/
theorem Frame.size_pos_of_decode {z : Codec} {bs : Bytes} {records : List Record} {size : Nat}
    (h : decode z bs = .ok (.whole records size)) : 0 < size :=
  Nat.lt_of_lt_of_le (by decide : 0 < headerSize) (size_le_of_decode h).1

theorem Frame.decode_ne_endless (z : Codec) (bs : Bytes) : decode z bs ≠ .error .endless := by
  rw [decode]
  split
  · simp
  · simp only
    split
    · simp
    · split
      · simp
      · split
        · simp
        · cases hread : readPayload z ((bs.drop headerSize).take (ofLittleEndian (bs.take 4))) with
          | ok records => simp
          | error e =>
              rw [readPayload] at hread
              split at hread
              · cases hread
                simp
              · split at hread <;> cases hread
                simp

namespace State

theorem apply_ne_endless (s : State) (r : Record) : s.apply r ≠ .error .endless := by
  cases r with
  | node n => simp [apply]
  | root r =>
      rw [apply]
      split <;> split <;> simp
  | operation t g o =>
      rw [apply]
      split
      · split <;> simp
      · simp
  | status t g status =>
      rw [apply]
      split
      · split <;> simp
      · simp

theorem applyAll_ne_endless (s : State) (rs : List Record) : s.applyAll rs ≠ .error .endless := by
  induction rs generalizing s with
  | nil => simp [applyAll, pure, Except.pure]
  | cons r rs ih =>
      rw [applyAll, List.foldlM_cons]
      cases hr : s.apply r with
      | error e =>
          intro he
          exact s.apply_ne_endless r (hr.trans (by simpa [bind, Except.bind] using he))
      | ok s' => exact ih s'

end State

namespace Journal

/-- Every frame takes bytes off the file, so that there are no more turns than bytes. -/
theorem replayWithin_eq (z : Codec) {turns fuel : Nat} {rest : Bytes}
    (hturns : rest.length < turns) (hfuel : rest.length ≤ fuel) (offset : Nat) (s : State) :
    replayWithin z turns offset s rest = .finished (replayFrames z fuel offset s rest) ∧
      replayFrames z fuel offset s rest ≠ .error .endless := by
  induction turns generalizing fuel offset s rest with
  | zero => omega
  | succ turns ih =>
      rw [replayWithin]
      by_cases hempty : rest.isEmpty
      · obtain rfl := List.isEmpty_iff.mp hempty
        rw [replayFrames_nil]
        exact ⟨rfl, by simp⟩
      · have hpos : 0 < rest.length := List.length_pos_iff.mpr (by simpa using hempty)
        obtain ⟨fuel, rfl⟩ := Nat.exists_eq_add_of_le' (Nat.le_trans hpos hfuel)
        rw [if_neg hempty, replayFrames, if_neg hempty]
        cases hdecode : Frame.decode z rest with
        | error e =>
            refine ⟨rfl, fun he => Frame.decode_ne_endless z rest ?_⟩
            rw [hdecode, Except.error.inj he]
        | ok reading =>
            cases reading with
            | truncated =>
                simp only
                split
                · exact ⟨rfl, by simp⟩
                · exact ⟨rfl, by simp⟩
            | wrongChecksum size =>
                simp only
                split
                · exact ⟨rfl, by simp⟩
                · exact ⟨rfl, by simp⟩
            | whole records size =>
                simp only
                cases happly : s.applyAll records with
                | error e =>
                    refine ⟨rfl, fun he => s.applyAll_ne_endless records ?_⟩
                    rw [happly, Except.error.inj he]
                | ok s' =>
                    have hsize := Frame.size_pos_of_decode hdecode
                    have hless : (rest.drop size).length < rest.length := by
                      rw [List.length_drop]
                      omega
                    exact ih (by omega) (by omega) _ s'

end Journal

/-! ## Indexes -/

namespace NodeMap

variable {nodes : NodeMap} {c c' : Cursor} {ns : List Node} {h : Hash}

theorem indexFrom_of_steps (hs : c.Steps nodes ns c') (turns : Nat) (i : Index) :
    nodes.indexFrom (ns.length + turns) c i =
      nodes.indexFrom turns c' (ns.foldl Index.addNode i) := by
  induction hs generalizing i with
  | refl c => simp
  | @head c c₁ c₂ n ns hn _ ih =>
      rw [List.length_cons, show ns.length + 1 + turns = ns.length + turns + 1 by omega,
        indexFrom, hn]
      exact ih (i.addNode n)

theorem indexFrom_of_isStuck (hc : c.IsStuck nodes) (turns : Nat) (i : Index) :
    nodes.indexFrom turns c i = .unfinished := by
  induction turns generalizing c i with
  | zero => rfl
  | succ turns ih =>
      obtain ⟨n, c', hn, hc'⟩ := hc.next
      rw [indexFrom, hn]
      exact ih hc' (i.addNode n)

/-- Once the loop has an index, more turns make no difference. -/
theorem indexFrom_succ {turns : Nat} {i : Index} {result : Except Error Index}
    (hresult : nodes.indexFrom turns c i = .finished result) :
    nodes.indexFrom (turns + 1) c i = .finished result := by
  induction turns generalizing c i with
  | zero => cases hresult
  | succ turns ih =>
      rw [indexFrom] at hresult ⊢
      split at hresult
      · exact hresult
      · exact hresult
      · exact ih hresult

/-- The loop over the nodes under a hash makes the index of the whole walk. -/
theorem approaches_indexFrom (nodes : NodeMap) (h : Hash) :
    Attempt.Approaches (fun turns => nodes.indexFrom turns (.ofStart h) .empty)
      (State.indexUnder nodes (some h)) := by
  have hwhole : State.indexUnder nodes (some h) =
      (nodes.preorder h).nodes.map fun ns => ns.foldl Index.addNode .empty := by
    rw [State.indexUnder]
    cases (nodes.preorder h).nodes <;> rfl
  rw [hwhole, Trace.nodes]
  refine .of_mono (fun _ _ => indexFrom_succ) ?_ ?_
  · intro hends
    cases hf : (nodes.preorder h).failure with
    | none =>
        have hloop := indexFrom_of_steps (Cursor.steps_preorder hf) 1 .empty
        exact ⟨_, hloop⟩
    | some e =>
        rw [hf] at hends
        obtain ⟨c', c'', hs, hnext, -⟩ := Cursor.steps_preorder_of_failure hf fun he =>
          hends (congrArg Except.error he)
        refine ⟨_, (indexFrom_of_steps hs 1 .empty).trans ?_⟩
        rw [indexFrom, hnext]
        rfl
  · intro hnever turns
    refine indexFrom_of_isStuck (Cursor.isStuck_ofStart fun hends => hends ?_) turns _
    split at hnever
    · next hf =>
        cases hnever
        exact hf
    · cases hnever

end NodeMap

namespace State

variable {s : State}

theorem approaches_indexWithin (nodes : NodeMap) (top : Option Hash) :
    Attempt.Approaches (fun turns => indexWithin nodes turns top) (indexUnder nodes top) := by
  cases top with
  | none => exact .finished (by simp)
  | some h => exact nodes.approaches_indexFrom h

theorem approaches_indexTrees (nodes : NodeMap) (xs : List (TreeId × History)) :
    Attempt.Approaches (fun turns => indexTrees nodes turns xs) (xs.mapM (withIndex nodes)) := by
  induction xs with
  | nil => exact .finished (by simp)
  | cons x xs ih =>
      have hboth := (approaches_indexWithin nodes x.2.latest.node).bind fun index _ =>
        ih.bind fun xs _ => .finished (x := .ok ((x.1, { x.2 with index }) :: xs)) (by simp)
      have heq : (x :: xs).mapM (withIndex nodes) =
          (indexUnder nodes x.2.latest.node).bind fun index =>
            (xs.mapM (withIndex nodes)).bind fun xs => .ok ((x.1, { x.2 with index }) :: xs) := by
        rw [List.mapM_cons, withIndex]
        cases indexUnder nodes x.2.latest.node <;> rfl
      rw [heq]
      exact hboth

theorem approaches_reindexWithin (s : State) :
    Attempt.Approaches (fun turns => s.reindexWithin turns) s.reindex := by
  rw [reindex_eq_mapM]
  exact (approaches_indexTrees s.nodes s.trees.toList).bind fun _ _ => .finished (by simp)

/-- The walk under the latest root of a tree comes upon a node below itself, and those of the
trees before it come to their ends. -/
def Circles (s : State) : Prop :=
  ∃ before t h after top k, s.trees.toList = before ++ (t, h) :: after ∧
    (∀ x ∈ before, ∀ top', x.2.latest.node = some top' →
      (s.nodes.preorder top').failure = none) ∧
    h.latest.node = some top ∧ Relation.ReflTransGen s.nodes.GoesOn top k ∧
    Relation.TransGen s.nodes.GoesOn k k

theorem reindex_eq_endless_iff : s.reindex = .error .endless ↔ s.Circles := by
  rw [reindex_eq_error, mapM_eq_error]
  constructor
  · rintro ⟨before, x, after, heq, hbefore, hx⟩
    obtain ⟨t, h⟩ := x
    obtain ⟨top, htop, hfails⟩ := indexUnder_eq_error (withIndex_eq_error.mp hx)
    obtain ⟨k, htopk, hk⟩ := NodeMap.not_ends_iff.mp fun hends => hends hfails
    refine ⟨before, t, h, after, top, k, heq, fun y hy => ?_, htop, htopk, hk⟩
    exact exists_indexUnder_iff.mp (exists_withIndex_iff.mp (hbefore y hy))
  · rintro ⟨before, t, h, after, top, k, heq, hbefore, htop, htopk, hk⟩
    refine ⟨before, (t, h), after, heq, fun y hy => ?_, ?_⟩
    · exact exists_withIndex_iff.mpr (exists_indexUnder_iff.mpr (hbefore y hy))
    · rw [withIndex_eq_error]
      show indexUnder s.nodes h.latest.node = _
      rw [htop]
      refine indexUnder_of_failure ?_
      by_contra hends
      exact NodeMap.not_ends_iff.mpr ⟨k, htopk, hk⟩ hends

end State

/-! ## Files -/

namespace Journal

theorem checkHeader_ne_endless (bytes : Bytes) : checkHeader bytes ≠ .error .endless := by
  rw [checkHeader]
  split
  · simp
  · simp only
    split <;> simp

/-- The frames of a file bring about a state that circles. -/
def Circles (z : Codec) (bytes : Bytes) : Prop :=
  checkHeader bytes = .ok () ∧ ∃ s offset,
    replayFrames z bytes.length headerSize .empty (bytes.drop headerSize) = .ok (s, offset) ∧
      s.Circles

/-- Once the loop has come to its end, more turns make no difference. -/
theorem replayWithin_succ {z : Codec} {turns offset : Nat} {s : State} {rest : Bytes}
    {result : Except Error (State × Nat)}
    (hresult : replayWithin z turns offset s rest = .finished result) :
    replayWithin z (turns + 1) offset s rest = .finished result := by
  induction turns generalizing offset s rest with
  | zero => cases hresult
  | succ turns ih =>
      rw [replayWithin] at hresult ⊢
      split at hresult
      · next hempty => rwa [if_pos hempty]
      · next hempty =>
          rw [if_neg hempty]
          cases hdecode : Frame.decode z rest with
          | error e => simpa only [hdecode] using hresult
          | ok reading =>
              cases reading with
              | truncated => simpa only [hdecode] using hresult
              | wrongChecksum size => simpa only [hdecode] using hresult
              | whole records size =>
                  simp only [hdecode] at hresult ⊢
                  cases happly : s.applyAll records with
                  | error e => simpa only [happly] using hresult
                  | ok s' =>
                      simp only [happly] at hresult ⊢
                      exact ih hresult

theorem approaches_replayWithin (z : Codec) (bytes : Bytes) :
    Attempt.Approaches (fun turns => replayWithin z turns headerSize .empty (bytes.drop headerSize))
      (replayFrames z bytes.length headerSize .empty (bytes.drop headerSize)) := by
  have hlength : (bytes.drop headerSize).length ≤ bytes.length := by simp
  obtain ⟨hresult, hends⟩ :=
    replayWithin_eq z (Nat.lt_succ_of_le hlength) hlength headerSize .empty
  exact .of_mono (fun _ _ => replayWithin_succ) (fun _ => ⟨_, hresult⟩) fun h => absurd h hends

theorem approaches_recoverWithin (z : Codec) (bytes : Bytes) :
    Attempt.Approaches (fun turns => recoverWithin z turns bytes) (recover z bytes) := by
  refine (Attempt.Approaches.finished (checkHeader_ne_endless bytes)).bind fun _ _ => ?_
  refine (approaches_replayWithin z bytes).bind fun x _ => ?_
  exact x.1.approaches_reindexWithin.bind fun _ _ => .finished (by simp)

theorem recover_eq_endless_iff {z : Codec} {bytes : Bytes} :
    recover z bytes = .error .endless ↔ Circles z bytes := by
  have hlength : (bytes.drop headerSize).length ≤ bytes.length := by simp
  obtain ⟨-, hends⟩ := replayWithin_eq z (Nat.lt_succ_of_le hlength) hlength headerSize .empty
  rw [Circles]
  cases hheader : checkHeader bytes with
  | error e =>
      have heq : recover z bytes = .error e := by
        rw [recover, hheader]
        rfl
      rw [heq]
      simpa [hheader] using checkHeader_ne_endless bytes
  | ok u =>
      cases hframes : replayFrames z bytes.length headerSize .empty (bytes.drop headerSize) with
      | error e =>
          have heq : recover z bytes = .error e := by
            rw [recover, hheader, hframes]
            rfl
          rw [heq]
          simpa [hframes] using hends
      | ok x =>
          have heq : recover z bytes = x.1.reindex.bind fun s =>
              .ok (s, ⟨z, bytes.take x.2, x.2⟩) := by
            rw [recover, hheader, hframes]
            rfl
          have hindex : recover z bytes = .error .endless ↔ x.1.reindex = .error .endless := by
            rw [heq]
            cases x.1.reindex <;> simp [Except.bind]
          rw [hindex, State.reindex_eq_endless_iff]
          simp [Prod.ext_iff]

/-- Every file comes to the end of its frames; opening it ends with a result unless the state
they bring about circles, and then it never does. -/
theorem opening_ends_iff (z : Codec) (bytes : Bytes) :
    (∃ result, ∀ turns, bytes.length < turns →
      replayWithin z turns headerSize .empty (bytes.drop headerSize) = .finished result) ∧
    ((∃ enough, ∀ turns, enough ≤ turns →
        recoverWithin z turns bytes = .finished (recover z bytes)) ↔ ¬ Circles z bytes) ∧
    ((∀ turns, recoverWithin z turns bytes = .unfinished) ↔ Circles z bytes) := by
  have hloops := approaches_recoverWithin z bytes
  have hlength : (bytes.drop headerSize).length ≤ bytes.length := by simp
  refine ⟨⟨_, fun turns hturns =>
    (replayWithin_eq z (Nat.lt_of_le_of_lt hlength hturns) hlength headerSize .empty).1⟩, ?_⟩
  rw [← recover_eq_endless_iff]
  by_cases hends : recover z bytes = .error .endless
  · have hnever := fun turns => (hends ▸ hloops).eq_unfinished turns
    refine ⟨⟨?_, fun h => absurd hends h⟩, ⟨fun _ => hends, fun _ => hnever⟩⟩
    rintro ⟨enough, hreached⟩
    have hboth := hreached enough (Nat.le_refl _)
    rw [hnever] at hboth
    cases hboth
  · obtain ⟨enough, hreached⟩ := hloops.reached hends
    refine ⟨⟨fun _ => hends, fun _ => ⟨enough, hreached⟩⟩,
      ⟨fun hnever => ?_, fun h => absurd h hends⟩⟩
    have hboth := hreached enough (Nat.le_refl _)
    rw [hnever] at hboth
    cases hboth

/-- A root over a forged branch that is its own right child. -/
def circularRecords : List Record :=
  let leaf := Terminal.ofPair [1] [10]
  let forged : Hash := ⟨.replicate 5⟩
  [.node (.terminal leaf), .node (.internal ⟨forged, leaf.hash, forged⟩),
    .root ⟨sampleTree, 0, some forged, .pending⟩]

/-- Opening a file whose one frame holds them never ends, whatever the codec is. -/
theorem recoverWithin_circularRecords {z : Codec} {frame : Bytes}
    (hframe : Frame.encode z circularRecords = .ok frame) (turns : Nat) :
    recoverWithin z turns (header ++ frame) = .unfinished := by
  have heval : ((do
      let s ← [circularRecords].foldlM State.applyAll .empty
      s.reindex) : Except Error State).map (fun _ => ()) = .error .endless := by decide +kernel
  have hrecover := recover_flatten (.cons hframe .nil : Frames z [circularRecords] [frame])
  rw [List.flatten_singleton] at hrecover
  have hendless : recover z (header ++ frame) = .error .endless := by
    rw [hrecover]
    cases hstate : [circularRecords].foldlM State.applyAll .empty with
    | error e =>
        rw [hstate] at heval
        cases heval
        rfl
    | ok s =>
        simp only [hstate, bind, Except.bind] at heval ⊢
        cases hindex : s.reindex with
        | error e =>
            rw [hindex] at heval
            cases heval
            rfl
        | ok s' =>
            rw [hindex] at heval
            cases heval
  exact (hendless ▸ approaches_recoverWithin z (header ++ frame)).eq_unfinished turns

/-- They have a frame, and so there is such a file. -/
theorem opening_never_ends :
    ∃ frame, Frame.encode sampleCodec circularRecords = .ok frame ∧
      ∀ turns, recoverWithin sampleCodec turns (header ++ frame) = .unfinished := by
  have hfits : (Frame.encode sampleCodec circularRecords).toOption.isSome = true := by
    decide +kernel
  cases hframe : Frame.encode sampleCodec circularRecords with
  | error e => simp [hframe, Except.toOption] at hfits
  | ok frame => exact ⟨frame, rfl, recoverWithin_circularRecords hframe⟩

end Journal

end MerkleStore
