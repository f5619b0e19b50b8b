import MerkleStore.Proofs.Repeating
import MerkleStore.Replica

/-!
# Confirming generations

Confirming generations of a tree changes nothing but their statuses
(`State.Confirmed`). A generation that is there is never refused
(`Store.exists_confirmAll`), because its number has been written into the file before
(`Journal.Keeps.numbered`). Nor is the start of a tree (`Store.exists_addTree`).
-/

namespace MerkleStore

/-- Some generations of a history have been confirmed, and nothing else has changed. -/
structure History.Confirmed (h h' : History) (gs : List Nat) : Prop where
  operations : h'.operations = h.operations
  roots : ∀ g : Nat, h'.roots[g]? =
    h.roots[g]?.map fun r => if g ∈ gs then { r with status := .committed } else r

namespace History

variable {h h' h'' : History} {gs gs' : List Nat} {g : Nat}

theorem Confirmed.refl (h : History) : h.Confirmed h [] := ⟨rfl, fun g => by simp⟩

theorem Confirmed.trans (ha : h.Confirmed h' gs) (hb : h'.Confirmed h'' gs') :
    h.Confirmed h'' (gs ++ gs') where
  operations := hb.operations.trans ha.operations
  roots := by
    intro g
    rw [hb.roots, ha.roots, Option.map_map]
    refine Option.map_congr fun r _ => ?_
    by_cases hg : g ∈ gs <;> by_cases hg' : g ∈ gs' <;> simp [hg, hg']

theorem confirmed_updateStatus (h : History) (g : Nat) :
    h.Confirmed (h.updateStatus g .committed) [g] where
  operations := rfl
  roots := by
    intro i
    simp only [updateStatus, List.getElem?_modify, List.mem_singleton, eq_comm (a := g)]
    refine Option.map_congr fun r _ => ?_
    obtain ⟨t, k, node, status⟩ := r
    cases status <;> rfl

theorem confirmed_of_committed {r : Root} (hr : h.roots[g]? = some r)
    (hstatus : r.status = .committed) : h.Confirmed h [g] where
  operations := rfl
  roots := by
    intro i
    by_cases hi : i = g
    · subst hi
      rw [hr, Option.map_some, if_pos (List.mem_singleton.mpr rfl), ← hstatus]
    · simp [hi]

theorem Confirmed.length_roots (hc : h.Confirmed h' gs) : h'.roots.length = h.roots.length := by
  refine Nat.le_antisymm ?_ ?_ <;> refine Nat.le_of_not_lt fun hlt => ?_
  · have := hc.roots h.roots.length
    simp [List.getElem?_eq_getElem hlt] at this
  · have := hc.roots h'.roots.length
    simp [List.getElem?_eq_getElem hlt] at this

/-- The last generation stays where it is. -/
theorem Confirmed.latest (hc : h.Confirmed h' gs) :
    h'.latest.generation = h.latest.generation ∧ h'.latest.node = h.latest.node := by
  have hlast := h'.getElem?_latest
  rw [hc.length_roots, hc.roots, h.getElem?_latest, Option.map_some, Option.some.injEq] at hlast
  rw [← hlast]
  split <;> exact ⟨rfl, rfl⟩

end History

namespace State

variable {s s' s'' : State} {t : TreeId} {h : History} {gs gs' : List Nat} {g : Nat}

/-- Generations of one tree have been confirmed, and nothing else has changed. -/
structure Confirmed (s s' : State) (t : TreeId) (gs : List Nat) : Prop where
  nodes : s'.nodes = s.nodes
  others : ∀ t' : TreeId, t' ≠ t → s'.trees[t']? = s.trees[t']?
  tree : ∀ h : History, s.trees[t]? = some h →
    ∃ h', s'.trees[t]? = some h' ∧ h.Confirmed h' gs

theorem Confirmed.refl (s : State) (t : TreeId) : s.Confirmed s t [] :=
  ⟨rfl, fun _ _ => rfl, fun h ht => ⟨h, ht, .refl h⟩⟩

theorem Confirmed.trans (ha : s.Confirmed s' t gs) (hb : s'.Confirmed s'' t gs') :
    s.Confirmed s'' t (gs ++ gs') where
  nodes := hb.nodes.trans ha.nodes
  others := fun t' ht' => (hb.others t' ht').trans (ha.others t' ht')
  tree := by
    intro h ht
    obtain ⟨h', ht', hc⟩ := ha.tree h ht
    obtain ⟨h'', ht'', hc'⟩ := hb.tree h' ht'
    exact ⟨h'', ht'', hc.trans hc'⟩

theorem Confirmed.isCommitted_iff (hc : s.Confirmed s' t gs) (ht : s.trees[t]? = some h) :
    s'.IsCommitted t g ↔ s.IsCommitted t g ∨ g ∈ gs ∧ g < h.roots.length := by
  obtain ⟨h', ht', hconfirmed⟩ := hc.tree h ht
  rw [isCommitted_of_tree ht, isCommitted_of_tree ht', hconfirmed.roots g]
  cases hr : h.roots[g]? with
  | none => simp [List.getElem?_eq_none_iff.mp hr]
  | some r =>
      have hlt := (List.getElem?_eq_some_iff.mp hr).1
      by_cases hg : g ∈ gs <;> simp [hg, hlt]

theorem confirmed_after (ht : s.trees[t]? = some h) (g : Nat) :
    s.Confirmed (s.after (.confirm t g)) t [g] := by
  simp only [after, ht]
  refine ⟨rfl, fun t' ht' => ?_, fun k hk => ?_⟩
  · rw [getElem?_setTree, if_neg (Ne.symm ht')]
  · rw [ht] at hk
    cases hk
    exact ⟨_, by rw [getElem?_setTree, if_pos rfl], h.confirmed_updateStatus g⟩

theorem confirmed_self {r : Root} (ht : s.trees[t]? = some h) (hr : h.roots[g]? = some r)
    (hstatus : r.status = .committed) : s.Confirmed s t [g] :=
  ⟨rfl, fun _ _ => rfl, fun k hk => by
    rw [ht] at hk
    cases hk
    exact ⟨h, ht, History.confirmed_of_committed hr hstatus⟩⟩

end State

/-! ## Numbers that can be written -/

namespace State

variable {s s' : State} {r : Record} {rs : List Record}

/-- Eight bytes hold the number of every generation. -/
def Numbered (s : State) : Prop :=
  ∀ (t : TreeId) (h : History), s.trees[t]? = some h → h.roots.length ≤ Record.wordBound

theorem Numbered.setTree {t : TreeId} {h : History} (hn : s.Numbered)
    (hh : h.roots.length ≤ Record.wordBound) : (s.setTree t h).Numbered := by
  intro t' h' ht'
  rw [getElem?_setTree] at ht'
  split at ht'
  · cases ht'
    exact hh
  · exact hn t' h' ht'

theorem Numbered.apply (hn : s.Numbered) (hr : r.Fits) (happly : s.apply r = .ok s') :
    s'.Numbered := by
  cases apply_eq_ok.mp happly with
  | node n => exact hn
  | start ht hg => exact hn.setTree (by simp [History.start, Record.wordBound])
  | @root r h ht hg =>
      have hlt : h.roots.length < Record.wordBound := hg ▸ hr
      refine hn.setTree ?_
      rw [History.addRoot, List.length_append]
      exact hlt
  | @operation t g o h ht hg => exact hn.setTree (hn t h ht)
  | @status t g status h ht hg =>
      exact hn.setTree (by simpa [History.updateStatus] using hn t h ht)

theorem Numbered.applyAll (hn : s.Numbered) (hr : ∀ r ∈ rs, r.Fits)
    (happly : s.applyAll rs = .ok s') : s'.Numbered := by
  induction rs generalizing s with
  | nil =>
      cases happly
      exact hn
  | cons r rs ih =>
      obtain ⟨s₁, hone, hrest⟩ := applyAll_cons_eq_ok.mp happly
      exact ih (hn.apply (hr r List.mem_cons_self) hone)
        (fun r hr' => hr r (List.mem_cons_of_mem _ hr')) hrest

end State

namespace Frame

variable {z : Codec} {rs : List Record} {frame : Bytes}

theorem fits_of_encode (h : encode z rs = .ok frame) : ∀ r ∈ rs, r.Fits :=
  (encode_eq_ok_iff.mp h).1.2

/-- Records that take no more than half of a payload's limit fit into a frame. -/
theorem exists_encode_of_length_le (z : Codec) (hlength : rs.length < Record.wordBound)
    (hfits : ∀ r ∈ rs, r.Fits) (hsmall : 2 * (Record.writeList rs).length ≤ payloadLimit) :
    ∃ frame, encode z rs = .ok frame := by
  have hpacked := z.length_encode_le (Record.writeList rs)
  refine ⟨_, encode_eq_ok_iff.mpr ⟨⟨hlength, hfits⟩, ?_, rfl⟩⟩
  rw [payloadLimit] at hsmall ⊢
  omega

/-- A change of a status fits into a frame if the number of the generation can be
written. -/
theorem exists_encode_status (z : Codec) (t : TreeId) {g : Nat} (status : Status)
    (hg : g < Record.wordBound) : ∃ frame, encode z [.status t g status] = .ok frame := by
  have hlength : (Record.writeList [.status t g status]).length = 56 := by
    cases status <;>
      simp [Record.writeList, Record.writeNumber, Record.write, Record.writeIndex,
        Record.writeTreeId, Record.writeStatus, t.bytes.length_eq]
  refine exists_encode_of_length_le z (by decide : 1 < Record.wordBound) ?_ (hlength ▸ by decide)
  intro r hr
  obtain rfl := List.mem_singleton.mp hr
  exact hg

/-- The start of a tree fits into a frame. -/
theorem exists_encode_start (z : Codec) (t : TreeId) :
    ∃ frame, encode z [.root (.empty t)] = .ok frame := by
  have hlength : (Record.writeList [.root (.empty t)]).length = 57 := by
    simp [Record.writeList, Record.writeNumber, Record.write, Record.writeRoot, Record.writeIndex,
      Record.writeTreeId, Record.writeOption, Record.writeStatus, Root.empty, t.bytes.length_eq]
  refine exists_encode_of_length_le z (by decide : 1 < Record.wordBound) ?_ (hlength ▸ by decide)
  intro r hr
  obtain rfl := List.mem_singleton.mp hr
  exact (by decide : 0 < Record.wordBound)

end Frame

/-- Frames can only have written down generations whose numbers fit. -/
theorem Journal.numbered_of_frames {z : Codec} {batches : List (List Record)}
    {frames : List Bytes} {s s' : State} (hf : Frames z batches frames) (hn : s.Numbered)
    (happly : batches.foldlM State.applyAll s = .ok s') : s'.Numbered := by
  induction hf generalizing s with
  | nil =>
      cases happly
      exact hn
  | @cons rs frame batches frames hframe hframes ih =>
      rw [List.foldlM_cons] at happly
      obtain ⟨s₁, hone, hrest⟩ := bind_eq_ok.mp happly
      exact ih (hn.applyAll (Frame.fits_of_encode hframe) hone) hrest

/-- A file that keeps a state has written down the number of each of its generations. -/
theorem Journal.Keeps.numbered {f : Journal} {s : State} (hk : f.Keeps s) : s.Numbered := by
  obtain ⟨batches, frames, s₀, hframes, -, -, hbatches, halike⟩ := hk
  have hempty : State.empty.Numbered := by simp [State.Numbered, State.empty]
  intro t h ht
  obtain ⟨h₀, ht₀, hr, -⟩ := halike.symm.exists_getElem? ht
  rw [← hr]
  exact numbered_of_frames hframes hempty hbatches t h₀ ht₀

/-! ## Small writes are not refused -/

namespace Store

variable {s s' : Store} {t : TreeId} {h : History} {g : Nat} {gs : List Nat}

/-- A store after generations of one tree have been confirmed. -/
structure Confirmed (s s' : Store) (t : TreeId) (gs : List Nat) : Prop where
  state : s.state.Confirmed s'.state t gs
  quarantined : s'.quarantined = s.quarantined
  orderly : s'.Orderly

theorem Confirmed.servedTree (hc : s.Confirmed s' t gs) (hs : s.servedTree t = .ok h) :
    ∃ h', s'.servedTree t = .ok h' ∧ h.Confirmed h' gs := by
  obtain ⟨hserved, ht⟩ := servedTree_eq_ok.mp hs
  obtain ⟨h', ht', hconfirmed⟩ := hc.state.tree h ht
  exact ⟨h', servedTree_eq_ok.mpr ⟨by rwa [isOutOfService, hc.quarantined], ht'⟩, hconfirmed⟩

/-- Records are written down if they fit into a frame. -/
theorem exists_record {rs : List Record}
    (hfits : ∀ f, s.journal = some f → ∃ frame, Frame.encode f.codec rs = .ok frame) :
    ∃ journal, s.record rs = .ok journal := by
  rw [record]
  cases hf : s.journal with
  | none => exact ⟨none, rfl⟩
  | some f =>
      obtain ⟨frame, hframe⟩ := hfits f hf
      exact ⟨some (f.write frame), by simp only [hframe]⟩

/-- An event enters the store if its records fit into a frame. -/
theorem exists_enter {ev : Event}
    (hfits : ∀ f, s.journal = some f →
      ∃ frame, Frame.encode f.codec (s.state.transactionFor ev).records = .ok frame) :
    ∃ s', enter ev s = (.ok (), s') ∧ s'.state = s.state.after ev := by
  obtain ⟨journal, hrecord⟩ := exists_record hfits
  exact ⟨{ s with state := s.state.after ev, journal }, by rw [enter, hrecord], rfl⟩

/-- That a generation is confirmed can be written down. -/
theorem exists_record_status (ho : s.Orderly) (ht : s.state.trees[t]? = some h)
    (hg : g < h.roots.length) (status : Status) :
    ∃ journal, s.record [.status t g status] = .ok journal := by
  refine exists_record fun f hf => Frame.exists_encode_status f.codec t status ?_
  exact Nat.lt_of_lt_of_le hg ((ho.kept f hf).numbered t h ht)

/-- A tree that is not there can be created. -/
theorem exists_addTree (hno : s.hasTree t = false) : ∃ s', addTree t s = (.ok (), s') := by
  have hfits (f : Journal) :
      ∃ frame, Frame.encode f.codec (s.state.transactionFor (.start t)).records = .ok frame :=
    Frame.exists_encode_start f.codec t
  obtain ⟨s', hentered, -⟩ := exists_enter fun f _ => hfits f
  exact ⟨s', by rw [addTree_eq, if_neg (by simp [hno]), hentered]⟩

/-- A generation that is there is confirmed. -/
theorem exists_confirm (ho : s.Orderly) (hs : s.servedTree t = .ok h) (hg : g < h.roots.length) :
    ∃ s', confirm t g s = (.ok (), s') ∧ s.Confirmed s' t [g] := by
  have ht := tree_of_servedTree hs
  have hget : h.roots[g]? = some h.roots[g] := List.getElem?_eq_getElem hg
  have hr : s.root t g = .ok h.roots[g] := root_of_servedTree hs hget
  by_cases hstatus : h.roots[g].status = .committed
  · refine ⟨s, ?_, State.confirmed_self ht hget hstatus, rfl, ho⟩
    rw [confirm_eq, hr]
    exact if_pos hstatus
  · obtain ⟨journal, hrecord⟩ := exists_record_status ho ht hg .committed
    have hrecords : (s.state.transactionFor (.confirm t g)).records =
        [.status t g .committed] := rfl
    have hnoerror (e : Error) : confirm t g s ≠ (.error e, s) := by
      rw [confirm_eq, hr]
      simp only [if_neg hstatus, enter, hrecords, hrecord]
      simp
    rcases confirm_writes t g s with ⟨e, heq⟩ | ⟨r, hr', hcommitted, -⟩ | ⟨s', -, hstate, hw, heq⟩
    · exact absurd heq (hnoerror e)
    · rw [hr, Except.ok.injEq] at hr'
      exact absurd (hr' ▸ hcommitted) hstatus
    · exact ⟨s', heq, hstate ▸ State.confirmed_after ht g, hw.quarantined, ho.writes hw⟩

/-- Generations that are there are confirmed. -/
theorem exists_confirmAll (ho : s.Orderly) (hs : s.servedTree t = .ok h)
    (hgs : ∀ g ∈ gs, g < h.roots.length) :
    ∃ s', Replica.confirmAll t gs s = (.ok (), s') ∧ s.Confirmed s' t gs := by
  induction gs generalizing s h with
  | nil => exact ⟨s, rfl, .refl _ t, rfl, ho⟩
  | cons g gs ih =>
      obtain ⟨s₁, heq, hone⟩ := exists_confirm ho hs (hgs g List.mem_cons_self)
      obtain ⟨h', hs₁, hconfirmed⟩ := hone.servedTree hs
      obtain ⟨s', hall, hrest⟩ := ih hone.orderly hs₁
        fun g' hg' => hconfirmed.length_roots ▸ hgs g' (List.mem_cons_of_mem _ hg')
      refine ⟨s', ?_, hone.state.trans hrest.state,
        hrest.quarantined.trans hone.quarantined, hrest.orderly⟩
      simp only [Replica.confirmAll, bind, Action.andThen, heq, hall]

end Store

end MerkleStore
