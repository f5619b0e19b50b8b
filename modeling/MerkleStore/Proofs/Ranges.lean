import MerkleStore.Proofs.HonestServer
import MerkleStore.Proofs.Mirroring
import MerkleStore.Proofs.Verifying
import MerkleStore.Proofs.VersionedMap

/-!
# Ranges of operations

An operation that is carried out makes one generation, and with its root it is written down
once (`Creation`). Statuses are not written there again when a generation is confirmed: they
are put in when operations are read. So between any two generations of a tree just those
operations are read that have made the generations after the first one, each with the root and
the present status of its generation, and ranges that meet are put together to one
(`Store.RangesExact`, `ranges_of_run`). The step lemmas are about what one write adds to the
two lists of a history (`State.Holds`); nothing is assumed about digests.
-/

namespace MerkleStore

/-- An operation as it is written down once it has led to a root: it is pending, and a side is
kept only beside a reference. -/
def Operation.logged (root : Option Hash) : Operation → Operation
  | .insertion d => .insertion { d with
      root := root.getD d.root, side := d.reference.bind fun _ => d.side, status := .pending }
  | .deletion d => .deletion { d with root, status := .pending }

/-- What is written down when a generation is made. -/
structure Creation where
  root : Root
  operation : Operation
deriving DecidableEq

/-- What an operation that has just been carried out on a tree has written down. -/
def Store.created (s : Store) (t : TreeId) (o : Operation) : List Creation :=
  (s.latestRoot t).toOption.toList.map fun r => ⟨r, o.logged r.node⟩

/-- What is written down as operations are repeated, as far as they are. -/
def Store.replayCreations (t : TreeId) : List Operation → Store → List Creation
  | [], _ => []
  | o :: os, s =>
      match replayOne t o s with
      | (.ok _, s) => s.created t o ++ replayCreations t os s
      | (.error _, _) => []

/-- What a call writes down for the generations it makes in a tree. -/
def Call.creations (t : TreeId) (s : Store) : Call → List Creation
  | insert t' key value reference side =>
      let after := Store.insert t' key value reference side s
      if t' = t ∧ after.1.isOk then
        after.2.created t' (.insertion ⟨default, key, value, reference, side, .pending⟩)
      else []
  | delete t' key =>
      let after := Store.delete t' key s
      if t' = t ∧ after.1.isOk then after.2.created t' (.deletion ⟨none, key, .pending⟩) else []
  | replay t' os => if t' = t then s.replayCreations t' os else []
  | _ => []

/-- What a run writes down for the generations it makes in a tree. -/
def creations (t : TreeId) (s : Store) : List Step → List Creation
  | [] => []
  | .call c :: steps => c.creations t s ++ creations t (c.perform s).2 steps
  | .reopen :: steps =>
      match s.reopen with
      | .ok s => creations t s steps
      | .error _ => []

/-- The operations of a tree are read exactly, for every range of its generations. -/
structure Store.RangesExact (s : Store) (t : TreeId) (latest : Nat) (cs : List Creation) :
    Prop where
  /-- Every generation after the first has been made once, in order. -/
  once : cs.map (·.root.generation) = List.range' 1 latest
  refused : ∀ first last e, s.operations t first last = .error e ↔
    (last < first ∨ latest < last) ∧ e = .invalidRange first last latest
  given : ∀ first last, first ≤ last → last ≤ latest → ∃ os,
    s.operations t first last = .ok os ∧ os.length = last - first ∧
    ∀ i < last - first, ∃ c ∈ cs, ∃ r, c.root.generation = first + 1 + i ∧
      s.root t (first + 1 + i) = .ok r ∧ c.root.Keeps r ∧ c.operation.root = r.node ∧
      os[i]? = some (c.operation.withStatus r.status)
  composed : ∀ a b c, a ≤ b → b ≤ c → c ≤ latest → ∃ os os', s.operations t a b = .ok os ∧
    s.operations t b c = .ok os' ∧ s.operations t a c = .ok (os ++ os')

/-! ## What is read -/

namespace History

variable {h : History} {t : TreeId}

/-- All operations of a history, each with the present status of its generation. -/
def presented (h : History) : List Operation :=
  h.operations.zipWith (fun o r => o.withStatus r.status) h.roots.tail

theorem InOrder.length_presented (ho : h.InOrder t) :
    h.presented.length = h.latest.generation := by
  rw [presented, List.length_zipWith, List.length_tail, ho.generation_latest, ← ho.operations,
    Nat.add_sub_cancel, Nat.min_self]

end History

namespace Store

variable {s : Store} {t : TreeId} {h : History} {first last : Nat}

/-- A range is refused that does not lie within the generations of a tree. -/
theorem operations_of_outside (hs : s.servedTree t = .ok h)
    (hrange : last < first ∨ h.latest.generation < last) :
    s.operations t first last = .error (.invalidRange first last h.latest.generation) := by
  simp only [operations, hs, bind, Except.bind, throw, throwThe, MonadExceptOf.throw]
  rw [if_pos hrange]

/-- A range of operations that have all been logged is a part of those that are presented. -/
theorem operations_of_logged (hs : s.servedTree t = .ok h) (hle : first ≤ last)
    (hlatest : last ≤ h.latest.generation) (hlogged : last ≤ h.operations.length) :
    s.operations t first last = .ok ((h.presented.take last).drop first) := by
  simp only [operations, hs, bind, Except.bind]
  rw [if_neg (by omega), if_neg (by omega), History.presented, List.take_zipWith,
    List.drop_zipWith, ← List.drop_one, List.take_drop, List.drop_drop, Nat.add_comm 1 first,
    Nat.add_comm 1 last]
  rfl

/-- In a history that is in order no range within its generations is refused. -/
theorem operations_of_inOrder (ho : h.InOrder t) (hs : s.servedTree t = .ok h)
    (hle : first ≤ last) (hlatest : last ≤ h.latest.generation) :
    s.operations t first last = .ok ((h.presented.take last).drop first) :=
  operations_of_logged hs hle hlatest (ho.generation_latest ▸ hlatest)

theorem operations_eq_error_iff (ho : h.InOrder t) (hs : s.servedTree t = .ok h) {e : Error} :
    s.operations t first last = .error e ↔
      (last < first ∨ h.latest.generation < last) ∧
        e = .invalidRange first last h.latest.generation := by
  by_cases hrange : last < first ∨ h.latest.generation < last
  · rw [operations_of_outside hs hrange, Except.error.injEq, eq_comm, and_iff_right hrange]
  · rw [operations_of_inOrder ho hs (by omega) (by omega)]
    simp [hrange]

end Store

/-! ## What is written down -/

/-- A history holds what was written down when its generations were made; since then they may
have been confirmed. -/
structure History.Holds (h : History) (cs : List Creation) : Prop where
  operations : h.operations = cs.map Creation.operation
  roots : ∀ (i : Nat) (c : Creation), cs[i]? = some c →
    ∃ r, h.roots[i + 1]? = some r ∧ c.root.Keeps r

/-- The trees of a state hold what was written down for them, and nothing else was. -/
structure State.Holds (s : State) (created : TreeId → List Creation) : Prop where
  unknown : ∀ t : TreeId, s.trees[t]? = none → created t = []
  tree : ∀ (t : TreeId) (h : History), s.trees[t]? = some h → h.Holds (created t)

namespace History

variable {h : History} {t : TreeId} {cs : List Creation}

theorem Holds.start (r : Root) : (start r).Holds [] := ⟨rfl, by simp⟩

/-- A new generation is held behind all others. -/
theorem Holds.log (hh : h.Holds cs) (ho : h.InOrder t) (o : Operation) (u : IndexChange) :
    (h.log o u).Holds (cs ++ [⟨h.latest.next o.root, o⟩]) where
  operations := by simp [History.log, hh.operations]
  roots := by
    -- the first root belongs to no operation
    have hlength : h.roots.length = cs.length + 1 := by
      rw [← ho.operations, hh.operations, List.length_map]
    intro i c hc
    rw [List.getElem?_append] at hc
    split at hc
    · obtain ⟨r, hr, hkeeps⟩ := hh.roots i c hc
      exact ⟨r, (h.appended_log u rfl).getElem?_roots_of_some hr, hkeeps⟩
    · next hle =>
        rw [List.getElem?_singleton, Option.ite_none_right_eq_some] at hc
        obtain ⟨hi, ⟨rfl⟩⟩ := hc
        obtain rfl : i = cs.length := by omega
        exact ⟨_, by rw [History.log, ← hlength, List.getElem?_concat_length], .inl rfl⟩

theorem Holds.exists_root (hh : h.Holds cs) (ho : h.InOrder t) {i : Nat} {c : Creation}
    (hc : cs[i]? = some c) :
    ∃ r, h.roots[i + 1]? = some r ∧ c.root.Keeps r ∧ c.root.generation = i + 1 := by
  obtain ⟨r, hr, hkeeps⟩ := hh.roots i c hc
  exact ⟨r, hr, hkeeps, hkeeps.generation.symm.trans (ho.root _ r hr).2⟩

/-- A generation is held when it has been confirmed, too. -/
theorem Holds.confirmed (hh : h.Holds cs) (g : Nat) : (h.updateStatus g .committed).Holds cs where
  operations := hh.operations
  roots := by
    intro i c hc
    obtain ⟨r, hr, hkeeps⟩ := hh.roots i c hc
    rw [(h.confirmed_updateStatus g).roots, hr]
    refine ⟨_, rfl, ?_⟩
    split
    · exact hkeeps.trans (.inr rfl)
    · exact hkeeps

end History

namespace State

variable {s s' : State} {t : TreeId} {h : History} {o : Operation}
  {created : TreeId → List Creation}

theorem Holds.setTree {nodes : NodeMap} (hs : s.Holds created) {new : List Creation}
    (hh : h.Holds (created t ++ new)) :
    ({ s with nodes }.setTree t h).Holds fun t' => created t' ++ if t = t' then new else [] where
  unknown := by
    intro t' ht'
    rw [getElem?_setTree] at ht'
    split at ht'
    · cases ht'
    · next hne => rw [if_neg hne, List.append_nil, hs.unknown t' ht']
  tree := by
    intro t' h' ht'
    rw [getElem?_setTree] at ht'
    split at ht'
    · next heq =>
        cases ht'
        rw [if_pos heq]
        exact heq ▸ hh
    · next hne =>
        rw [if_neg hne, List.append_nil]
        exact hs.tree t' h' ht'

/-- A tree that gets one generation more holds it besides. -/
theorem Holds.logs (hs : s.Holds created) (ho : s.Orderly) (hl : s.Logs t o s')
    (ht : s.trees[t]? = some h) :
    s'.Holds fun t' => created t' ++ if t = t' then [⟨h.latest.next o.root, o⟩] else [] := by
  cases hl with
  | @intro h' ns u ht' =>
      obtain rfl : h' = h := Option.some.inj (ht'.symm.trans ht)
      exact hs.setTree ((hs.tree t h' ht).log (ho.trees t h' ht).inOrder o u)

theorem Holds.start (hs : s.Holds created) (ht : s.trees[t]? = none) (r : Root) :
    (s.setTree t (.start r)).Holds created := by
  have hnew : (History.start r).Holds (created t ++ []) := by
    rw [hs.unknown t ht]
    exact .start r
  simpa using hs.setTree hnew

theorem Holds.confirm (hs : s.Holds created) (ht : s.trees[t]? = some h) (g : Nat) :
    (s.setTree t (h.updateStatus g .committed)).Holds created := by
  have hsame : (h.updateStatus g .committed).Holds (created t ++ []) := by
    rw [List.append_nil]
    exact (hs.tree t h ht).confirmed g
  simpa using hs.setTree hsame

theorem Holds.alike (hs : s.Holds created) (ha : s'.Alike s) : s'.Holds created where
  unknown := fun t ht => hs.unknown t (ha.getElem?_eq_none ht)
  tree := by
    intro t h ht
    obtain ⟨h', ht', hr, ho⟩ := ha.exists_getElem? ht
    obtain ⟨hoperations, hroots⟩ := hs.tree t h' ht'
    exact ⟨ho ▸ hoperations, hr ▸ hroots⟩

/-- Only without a reference a leaf is the whole tree. -/
theorem reference_of_placeFor_top {reference : Option Hash} {side : Option Side}
    (hplace : s.placeFor t h reference side = .ok .top) : reference = none := by
  simp only [placeFor] at hplace
  split at hplace
  · rfl
  · cases hplace
  · cases hplace
  · split at hplace
    · cases hplace
    · split at hplace <;> cases hplace

/-- A leaf is put beside the reference that was given, on the side that was given. -/
theorem reference_of_placeFor_beside {reference : Option Hash} {side : Option Side} {r : Hash}
    {side' : Side} {path : List Hash}
    (hplace : s.placeFor t h reference side = .ok (.beside r side' path)) :
    reference = some r ∧ side = some side' := by
  simp only [placeFor] at hplace
  split at hplace
  · cases hplace
  · cases hplace
  · cases hplace
  · split at hplace
    · cases hplace
    · split at hplace <;> cases hplace
      exact ⟨rfl, rfl⟩

/-- What an operation works out ends with the operation as it will be written down. -/
theorem getLast?_draftBy {d : Draft} (hd : s.draftBy t o = .ok d) :
    d.transaction.records.getLast? = some (.operation t d.generation (o.logged d.root)) := by
  -- every way to carry out an operation ends with `finish`, which puts its operation last
  have hfinish {h : History} {tx : Transaction} {u : IndexChange} {root : Option Hash}
      {o' : Operation} (ho : o' = o.logged root) :
      (finish t h tx u root o').transaction.records.getLast? =
        some (.operation t (finish t h tx u root o').generation (o.logged root)) := by
    simp [finish, Transaction.add, Transaction.addUpdate, ho]
  cases o with
  | insertion data =>
      obtain ⟨h', -, hd⟩ := bind_eq_ok.mp hd
      split at hd
      · cases hd
      · obtain ⟨place, hplace, hd⟩ := bind_eq_ok.mp hd
        cases place with
        | top =>
            cases hd
            exact hfinish (by simp [Operation.logged, reference_of_placeFor_top hplace])
        | beside r side path =>
            obtain ⟨hreference, hside⟩ := reference_of_placeFor_beside hplace
            obtain ⟨⟨tx, u, root⟩, -, hd⟩ := bind_eq_ok.mp hd
            cases hd
            exact hfinish (by simp [Operation.logged, hreference, hside])
  | deletion data =>
      obtain ⟨h', -, hd⟩ := bind_eq_ok.mp hd
      split at hd
      · cases hd
      · split at hd
        · cases hd
        · cases hd
          exact hfinish rfl
        · obtain ⟨n, -, hd⟩ := bind_eq_ok.mp hd
          split at hd
          · cases hd
          · obtain ⟨⟨tx, u, root⟩, -, hd⟩ := bind_eq_ok.mp hd
            cases hd
            exact hfinish rfl

end State

namespace Store

variable {s s' : Store} {t : TreeId} {o : Operation}

/-- An operation that is carried out is written down beside the root it has led to, and that is
the latest one then. -/
theorem carryOut_logs (ho : s.state.Orderly) (t : TreeId) (o : Operation)
    (expected : Option (Option Hash)) :
    (∃ e, carryOut t o expected s = (.error e, s)) ∨
      ∃ h root s', s.servedTree t = .ok h ∧ s.state.Logs t (o.logged root) s'.state ∧
        (o.logged root).root = root ∧ s'.latestRoot t = .ok (h.latest.next root) ∧
        s.Writes s' ∧ carryOut t o expected s = (.ok (), s') := by
  cases hserved : s.isOutOfService t with
  | true =>
      exact .inl ⟨.quarantined t, by
        cases o <;> simp [carryOut, insertToward, deleteToward, bind, Action.andThen, Action.read,
          requireInService, hserved]⟩
  | false =>
      cases hdraft : s.state.draftBy t o with
      | error e => exact .inl ⟨e, carryOut_eq_error hserved hdraft⟩
      | ok d =>
          obtain ⟨h, o', ht, hd⟩ := ho.exists_extends_draftBy hdraft
          rw [carryOut_eq_commitDraft hserved hdraft]
          rcases commitDraft_cases hd ht (ho.trees t h ht).inOrder expected with
            herror | ⟨s', hl, hw, -, hok⟩
          · exact .inl herror
          · -- the operation that is added to the history is the last record of the draft
            have hlast := State.getLast?_draftBy hdraft
            obtain ⟨ns, -, -, hrecords⟩ := hd.records
            obtain ⟨-, rfl⟩ : h.latest.generation + 1 = d.generation ∧ o' = o.logged d.root := by
              simpa [hrecords] using hlast
            obtain ⟨u, ht'⟩ := hl.exists_log ht
            have hserved' : s'.isOutOfService t = false := by rwa [isOutOfService, hw.quarantined]
            refine .inr ⟨h, d.root, s', servedTree_eq_ok.mpr ⟨hserved, ht⟩, hl, hd.root.symm, ?_,
              hw, hok⟩
            rw [latestRoot_of_servedTree (servedTree_eq_ok.mpr ⟨hserved', ht'⟩),
              History.latest_log, ← hd.root]

/-- A store comes to another one, and this is what has been written down for the generations of
its trees in between. -/
def Creates (s s' : Store) (new : TreeId → List Creation) : Prop :=
  ∀ created, s.state.Holds created → s'.state.Holds fun t => created t ++ new t

variable {new new' : TreeId → List Creation}

/-- Nothing is written down where what is held stays the same. -/
theorem Creates.nothing
    (h : ∀ created, s.state.Holds created → s'.state.Holds created) :
    s.Creates s' fun _ => [] := by
  intro created hs
  simpa using h created hs

theorem Creates.refl (s : Store) : s.Creates s fun _ => [] := .nothing fun _ hs => hs

theorem Creates.trans {s'' : Store} (h : s.Creates s' new) (h' : s'.Creates s'' new') :
    s.Creates s'' fun t => new t ++ new' t := by
  intro created hs
  simpa using h' _ (h created hs)

theorem carryOut_creates (ho : s.state.Orderly) (t : TreeId) (o : Operation)
    (expected : Option (Option Hash)) :
    let after := carryOut t o expected s
    s.Creates after.2 fun t' => if t = t' ∧ after.1.isOk then after.2.created t o else [] := by
  intro after
  rcases carryOut_logs ho t o expected with ⟨e, heq⟩ | ⟨h, root, s', hh, hl, hroot, hlatest, -, heq⟩
  · simpa [after, heq, Except.isOk, Except.toBool] using Creates.refl s
  · intro created hs
    have hholds := hs.logs ho hl (tree_of_servedTree hh)
    rw [hroot] at hholds
    simp only [after, heq, Except.isOk, Except.toBool, and_true]
    convert hholds using 4
    simp only [Store.created, hlatest, Except.toOption, Option.toList_some, List.map_cons,
      List.map_nil]
    rfl

/-- Repeating operations writes down what each of them does. -/
theorem replayFrom_creates (ho : s.Orderly) (t : TreeId) (root : Option Hash)
    (os : List Operation) : s.Creates (replayFrom t root os s).2 fun t' =>
      if t = t' then s.replayCreations t os else [] := by
  induction os generalizing s root with
  | nil => simpa [replayCreations, replayFrom, pure, Action.done] using Creates.refl s
  | cons o os ih =>
      have hone := carryOut_creates ho.state t o (some o.root)
      simp only [replayFrom, replayCreations, bind, Action.andThen, replayOne_eq]
      rcases carryOut_logs ho.state t o (some o.root) with
        ⟨e, heq⟩ | ⟨h, root', s', -, -, -, -, hw, heq⟩
      · rw [heq]
        simpa using Creates.refl s
      · simp only [heq, Except.isOk, Except.toBool, and_true] at hone ⊢
        convert hone.trans (ih (ho.writes hw) o.root) using 2 with t'
        split <;> rfl

theorem replay_creates (ho : s.Orderly) (t : TreeId) (os : List Operation) :
    s.Creates (replay t os s).2 fun t' => if t = t' then s.replayCreations t os else [] := by
  simp only [replay, bind, Action.andThen, Action.read]
  cases hr : s.latestRoot t with
  | ok r => exact replayFrom_creates ho t r.node os
  | error e =>
      -- without a latest root nothing can be carried out on the tree
      have hnone : s.replayCreations t os = [] := by
        cases os with
        | nil => rfl
        | cons o os =>
            rw [replayCreations, replayOne_eq]
            rcases carryOut_logs ho.state t o (some o.root) with
              ⟨e, heq⟩ | ⟨h, root, s', hh, -⟩
            · rw [heq]
            · rw [latestRoot_of_servedTree hh] at hr
              cases hr
      simpa [hnone] using Creates.refl s

end Store

namespace Call

variable {s : Store}

/-- A call writes down what it does. -/
theorem perform_creates (ho : s.Orderly) (c : Call) :
    s.Creates (c.perform s).2 fun t => c.creations t s := by
  cases c with
  | addTree t =>
      simp only [perform, bind, pure, Action.andThen_done, Store.addTree_eq]
      split
      · exact .refl s
      · next hno =>
          rcases Store.enter_cases (.start t) s with ⟨e, heq⟩ | ⟨s', heq⟩ <;> rw [heq]
          · exact .refl s
          · exact .nothing fun _ hs =>
              Store.state_of_enter heq ▸ hs.start (Store.admits_start hno) _
  | insert t key value reference side =>
      have hcarry := Store.carryOut_creates ho.state t
        (.insertion ⟨default, key, value, reference, side, .pending⟩) none
      simpa only [perform, bind, pure, Action.andThen_done, creations, Store.insert_eq, isOk_map]
        using hcarry
  | delete t key =>
      have hcarry := Store.carryOut_creates ho.state t (.deletion ⟨none, key, .pending⟩) none
      simp only [perform, bind, pure, Action.andThen_done]
      exact hcarry
  | confirm t g =>
      simp only [perform, bind, pure, Action.andThen_done]
      rcases Store.confirm_writes t g s with
        ⟨e, heq⟩ | ⟨r, -, -, heq⟩ | ⟨s', ⟨h, ht, hg⟩, hstate, -, heq⟩ <;> rw [heq]
      · exact .refl s
      · exact .refl s
      · refine .nothing fun _ hs => ?_
        simp only [hstate, State.after, ht]
        exact hs.confirm ht g
  | replay t os =>
      simpa only [perform, bind, pure, Action.andThen_done, creations] using
        Store.replay_creates ho t os
  | audit =>
      simp only [perform, bind, pure, Action.andThen_done, Store.audit]
      split
      · exact .refl s
      · split <;> exact .nothing fun _ hs => hs
      · exact .refl s
  | ask q => exact .refl s

end Call

/-! ## Runs -/

namespace Store

variable {s s' s₀ : Store} {t : TreeId} {h : History} {cs : List Creation}

/-- A run writes down what its calls do. -/
theorem Orderly.creates_run (ho : s.Orderly) {steps : List Step} (hrun : run s steps = .ok s') :
    s.Creates s' fun t => creations t s steps := by
  induction steps generalizing s with
  | nil =>
      cases hrun
      exact .refl _
  | cons step steps ih =>
      rw [run, List.foldlM_cons] at hrun
      obtain ⟨s₁, hstep, hrest⟩ := bind_eq_ok.mp hrun
      have hrest := ih (ho.extends_step hstep).2 hrest
      cases step with
      | call c =>
          cases hstep
          exact (c.perform_creates ho).trans hrest
      | reopen =>
          -- what is opened differs in its indexes at most
          obtain ⟨s₂, hreopen, -, halike, -⟩ := ho.exists_reopen
          have hstep : s.reopen = .ok s₁ := hstep
          obtain rfl : s₂ = s₁ := Except.ok.inj (hreopen.symm.trans hstep)
          simp only [creations, hstep]
          exact fun created hs => hrest created (hs.alike halike)

theorem IsNew.holds (hs : s.IsNew) : s.state.Holds fun _ => [] := by
  have hempty : State.Holds .empty fun _ => [] := ⟨fun _ _ => rfl, by simp [State.empty]⟩
  rcases hs with rfl | ⟨z, rfl⟩ <;> exact hempty

/-- What a history holds is what is read of its operations. -/
theorem rangesExact_of_holds (ho : h.InOrder t) (hs : s.servedTree t = .ok h) (hh : h.Holds cs)
    (hlogged : h.operations.map Operation.root = h.roots.tail.map Root.node) :
    s.RangesExact t h.latest.generation cs := by
  have hlength : cs.length = h.latest.generation := by
    rw [ho.generation_latest, hh.operations, List.length_map]
  refine ⟨?_, fun _ _ _ => operations_eq_error_iff ho hs, fun first last hle hlast => ?_,
    fun a b c hab hbc hc => ?_⟩
  · refine List.ext_getElem (by simp [hlength]) fun i hi hi' => ?_
    rw [List.length_map] at hi
    obtain ⟨r, -, -, hgeneration⟩ := hh.exists_root ho (List.getElem?_eq_getElem hi)
    simp [hgeneration, Nat.add_comm]
  · refine ⟨_, operations_of_inOrder ho hs hle hlast, ?_, fun i hi => ?_⟩
    · simp only [List.length_drop, List.length_take, ho.length_presented]
      omega
    · have hlt : first + i < cs.length := by omega
      obtain ⟨r, hr, hkeeps, hgeneration⟩ := hh.exists_root ho (List.getElem?_eq_getElem hlt)
      have hr' : h.roots.tail[first + i]? = some r := by rw [List.getElem?_tail, hr]
      have hwritten : h.operations[first + i]? = some cs[first + i].operation := by
        rw [hh.operations, List.getElem?_map, List.getElem?_eq_getElem hlt, Option.map_some]
      have hroot := congrArg (·[first + i]?) hlogged
      simp only [List.getElem?_map, hwritten, hr', Option.map_some, Option.some.injEq] at hroot
      rw [show first + 1 + i = first + i + 1 by omega]
      refine ⟨_, List.getElem_mem hlt, r, hgeneration, root_of_servedTree hs hr, hkeeps, hroot, ?_⟩
      rw [List.getElem?_drop, List.getElem?_take_of_lt (by omega), History.presented,
        List.getElem?_zipWith, hwritten, hr']
  · -- the parts up to `b` and from `b` on make up the part up to `c`
    refine ⟨_, _, operations_of_inOrder ho hs hab (by omega),
      operations_of_inOrder ho hs hbc hc, ?_⟩
    have hfront : (h.presented.take c).take b = h.presented.take b := by
      rw [List.take_take, Nat.min_eq_left hbc]
    have hwithin : a ≤ ((h.presented.take c).take b).length := by
      simp only [List.length_take, ho.length_presented]
      omega
    rw [operations_of_inOrder ho hs (by omega) hc, ← hfront,
      ← List.drop_append_of_le_length hwithin, List.take_append_drop]

end Store

/-- After every run the operations of every tree are read exactly for every range of its
generations, and without a collision no tree is out of service. -/
theorem ranges_of_run {s₀ : Store} (hnew : s₀.IsNew) (steps : List Step) :
    ∃ s, run s₀ steps = .ok s ∧
      (CollisionFree (contents s₀ steps) → ∀ t, s.hasTree t = true →
        ∃ latest, s.latestGeneration t = .ok latest) ∧
      ∀ t, (∀ latest, s.latestGeneration t = .ok latest →
          s.RangesExact t latest (creations t s₀ steps)) ∧
        ∀ e, s.latestGeneration t = .error e →
          ∀ first last, s.operations t first last = .error e := by
  obtain ⟨s, hrun, ho, -⟩ := hnew.orderly.exists_run steps
  refine ⟨s, hrun, fun hc t ht => ?_,
    fun t => ⟨fun latest hlatest => ?_, fun e he first last => ?_⟩⟩
  · obtain ⟨s', hrun', hintact, -⟩ := (hnew.intact _).exists_run
      (hc.injOn_hash fun _ hn => hash_of_mem_contents hn) steps fun _ hn => hn
    obtain rfl : s' = s := Except.ok.inj (hrun'.symm.trans hrun)
    obtain ⟨h, ht⟩ := Store.hasTree_iff.mp ht
    have hs := Store.servedTree_eq_ok.mpr ⟨hintact.isOutOfService t, ht⟩
    exact ⟨_, by rw [Store.latestGeneration, Store.latestRoot_of_servedTree hs]; rfl⟩
  · obtain ⟨h, hs, rfl⟩ := Store.exists_of_latestGeneration hlatest
    have ht := Store.tree_of_servedTree hs
    have hh := (hnew.orderly.creates_run hrun _ hnew.holds).tree t h ht
    exact Store.rangesExact_of_holds (ho.inOrder hs) hs hh (ho.state.trees t h ht).logged
  · cases hs : s.servedTree t with
    | error e' =>
        simp only [Store.latestGeneration, Store.latestRoot, hs, bind, Except.bind,
          Except.error.injEq] at he
        simp only [Store.operations, hs, bind, Except.bind, he]
    | ok h =>
        rw [Store.latestGeneration, Store.latestRoot_of_servedTree hs] at he
        cases he

/-- A small run with a confirmation in it: the operation that has made what is confirmed is read
as a committed one, and without the side that was given beside no reference. -/
theorem ranges_of_confirmedStep :
    let leaf := Hash.terminal [1] [10]
    let steps := [.call (.addTree sampleTree),
      .call (.insert sampleTree [1] [10] none (some .left)),
      .call (.insert sampleTree [2] [20] (some leaf) (some .left)),
      .call (.confirm sampleTree 1), .reopen, .call (.delete sampleTree [1])]
    Store.IsNew (.create sampleCodec) ∧ ∃ s, run (.create sampleCodec) steps = .ok s ∧
      s.RangesExact sampleTree 3 (creations sampleTree (.create sampleCodec) steps) ∧
      s.operations sampleTree 0 1 =
        .ok [.insertion ⟨leaf, [1], [10], none, none, .committed⟩] := by
  intro leaf steps
  have heval : (do
      let s ← run (.create sampleCodec) steps
      let latest ← s.latestGeneration sampleTree
      let os ← s.operations sampleTree 0 1
      return (latest, os) : Except Error (Nat × List Operation)).toOption =
        some (3, [.insertion ⟨leaf, [1], [10], none, none, .committed⟩]) := by
    decide +kernel
  obtain ⟨s, hrun, heval⟩ := bind_eq_ok.mp (eq_ok_of_toOption heval)
  obtain ⟨latest, hlatest, heval⟩ := bind_eq_ok.mp heval
  obtain ⟨os, hos, heval⟩ := bind_eq_ok.mp heval
  cases heval
  have hnew : Store.IsNew (.create sampleCodec) := .inr ⟨sampleCodec, rfl⟩
  obtain ⟨s', hrun', -, hranges⟩ := ranges_of_run hnew steps
  obtain rfl : s' = s := Except.ok.inj (hrun'.symm.trans hrun)
  exact ⟨hnew, s', hrun, (hranges sampleTree).1 3 hlatest, hos⟩

end MerkleStore
