import MerkleStore.Proofs.Preserving
import MerkleStore.Proofs.Writes

/-!
# Nodes are found under the hashes of their contents

Whatever is called, every stored node is stored under the hash of its content
(`NodeMap.Addressed`), since it is named by its content when it is made and is stored under its
name. Contents that collide change nothing about this: the node that was stored first stays.
-/

namespace MerkleStore

/-- Every stored node has the hash it is stored under, and that is the hash of its content. -/
def NodeMap.Addressed (nodes : NodeMap) : Prop :=
  ∀ (k : Hash) (n : Node), nodes[k]? = some n → n.hash = k ∧ n.contentHash = k

namespace NodeMap

variable {nodes : NodeMap}

theorem Addressed.empty : Addressed ∅ := by
  intro k n hn
  simp at hn

theorem Addressed.insertIfNew (ha : nodes.Addressed) {n : Node} (hn : n.hash = n.contentHash) :
    Addressed (nodes.insertIfNew n.hash n) := by
  intro k m hm
  rw [Std.ExtTreeMap.getElem?_insertIfNew] at hm
  split at hm
  · next hnew =>
      cases hm
      have hk : n.hash = k := Std.LawfulEqCmp.eq_of_compare hnew.1
      exact ⟨hk, hn ▸ hk⟩
  · exact ha k m hm

end NodeMap

namespace State

variable {s s' : State}

theorem addressed_of_apply (ha : s.nodes.Addressed) {r : Record}
    (hr : ∀ n, r = .node n → n.hash = n.contentHash) (happly : s.apply r = .ok s') :
    s'.nodes.Addressed := by
  cases apply_eq_ok.mp happly with
  | node n => exact ha.insertIfNew (hr n rfl)
  | start _ _ | root _ _ | operation _ _ | status _ _ => exact ha

theorem addressed_of_applyAll (ha : s.nodes.Addressed) {rs : List Record}
    (hrs : ∀ n, .node n ∈ rs → n.hash = n.contentHash) (happly : s.applyAll rs = .ok s') :
    s'.nodes.Addressed := by
  induction rs generalizing s with
  | nil =>
      cases happly
      exact ha
  | cons r rs ih =>
      obtain ⟨s₁, hr, hrest⟩ := applyAll_cons_eq_ok.mp happly
      refine ih (addressed_of_apply ha ?_ hr) (fun n hn => hrs n (List.mem_cons_of_mem r hn)) hrest
      rintro n rfl
      exact hrs n List.mem_cons_self

end State

namespace Store

variable {s s' s₀ : Store}

theorem stable_addressed : Stable fun s => s.state.nodes.Addressed where
  commit := by
    intro tx htx s ha
    rcases commit_cases tx s with ⟨e, heq⟩ | ⟨-, heq⟩ | ⟨journal, state, -, -, happly, heq⟩ <;>
      rw [heq]
    · exact ha
    · exact ha
    · show (tx.updates.foldl (fun state u => state.updateIndex u.1 u.2) state).nodes.Addressed
      rw [(State.alike_foldl_updateIndex state tx.updates).nodes]
      exact State.addressed_of_applyAll ha htx happly
  takeOutOfService := fun _ _ ha => ha

/-- Opening a file again finds the same nodes. -/
theorem addressed_after (ho : s.Orderly) (ha : s.state.nodes.Addressed) {step : Step}
    (hstep : step.after s = .ok s') : s'.state.nodes.Addressed := by
  cases step with
  | call c =>
      cases hstep
      exact stable_addressed.perform c s ha
  | reopen =>
      obtain ⟨s₁, hreopen, -, halike, -⟩ := ho.exists_reopen
      obtain rfl : s₁ = s' := Except.ok.inj (hreopen.symm.trans hstep)
      exact halike.nodes ▸ ha

theorem IsNew.addressed (hnew : s.IsNew) : s.state.nodes.Addressed := by
  rcases hnew with rfl | ⟨z, rfl⟩ <;> exact .empty

/-- After every run each node is stored under the hash of its content. -/
theorem addressed_of_run (hnew : s₀.IsNew) {steps : List Step} (hrun : run s₀ steps = .ok s) :
    s.state.nodes.Addressed := by
  have ho := hnew.orderly
  have ha := hnew.addressed
  clear hnew
  induction steps generalizing s₀ with
  | nil =>
      cases hrun
      exact ha
  | cons step steps ih =>
      rw [run, List.foldlM_cons] at hrun
      obtain ⟨s₁, hstep, hrest⟩ := bind_eq_ok.mp hrun
      have hone : run s₀ [step] = .ok s₁ := by
        rw [run, List.foldlM_cons, hstep]
        rfl
      exact ih hrest (ho.of_run hone) (addressed_after ho ha hstep)

end Store

end MerkleStore
