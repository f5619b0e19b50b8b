import MerkleStore.Proofs.Confirming
import MerkleStore.Proofs.Reads

/-!
# What a journal takes once more

A leaf goes into a frame with the operation that puts it in, so that its key and its value are
packed twice. A codec that has room for them twice should have room for them once
(`Codec.TakesAgain`). Then a journal takes every operation that concerns a leaf of its store
(`Terminal.Framed`), for whichever tree and generation. That is so after every event, and after
every run (`Store.Intact.framed_run`).
-/

namespace MerkleStore

/-- If there is room for a content with some bytes in it twice, there is room for one with
these bytes in it once and with little else. -/
def Codec.TakesAgain (z : Codec) : Prop :=
  ∀ bs before between behind before' behind' : Bytes,
    (z.encode (before ++ bs ++ between ++ bs ++ behind)).length ≤ Frame.payloadLimit →
      before'.length + behind'.length ≤ 256 →
        (z.encode (before' ++ bs ++ behind')).length ≤ Frame.payloadLimit

/-- This is so if there is room for whatever is no longer than something there is room for. -/
theorem Codec.takesAgain_of_length_le {z : Codec}
    (h : ∀ content content' : Bytes, content'.length ≤ content.length →
      (z.encode content).length ≤ Frame.payloadLimit →
        (z.encode content').length ≤ Frame.payloadLimit) : z.TakesAgain := by
  intro bs before between behind before' behind' hroom hlittle
  by_cases hlong : 256 ≤ bs.length
  · refine h _ _ ?_ hroom
    simp only [List.length_append]
    omega
  · -- a few bytes never get too long
    have hlength := z.length_encode_le (before' ++ bs ++ behind')
    have hlimit : 1024 ≤ Frame.payloadLimit := by decide
    simp only [List.length_append] at hlength
    omega

/-! ## Leaves and operations -/

/-- An operation puts in the key and the value of a leaf, or takes the key out. -/
def Operation.Concerns (n : Terminal) : Operation → Prop
  | .insertion d => d.key = n.key ∧ d.value = n.value
  | .deletion d => d.key = n.key

namespace Edit

variable {e : Edit} {n : Terminal}

theorem concerns_terminal (e : Edit) : e.operation.Concerns e.terminal := by
  cases e with
  | first key value => exact ⟨rfl, rfl⟩
  | beside t path side key value => exact ⟨rfl, rfl⟩
  | last key value => rfl
  | promote key value f path => rfl

/-- Only an insertion makes a leaf, and only its own. -/
theorem of_terminal_mem_made (hn : .terminal n ∈ e.made) :
    e.operation.isInsertion = true ∧ e.terminal = n := by
  have hbranch {c : Tree} {path : List Tree.Fork} :
      .terminal n ∉ (Tree.above c path).map Tree.node := by
    intro hmem
    obtain ⟨a, ha, hnode⟩ := List.mem_map.mp hmem
    obtain ⟨m, hm⟩ := Store.exists_internal_of_mem_above ha
    rw [hm] at hnode
    cases hnode
  cases e with
  | first key value =>
      cases List.mem_singleton.mp hn
      exact ⟨rfl, rfl⟩
  | beside t path side key value =>
      rcases List.mem_cons.mp hn with heq | hmem
      · cases heq
        exact ⟨rfl, rfl⟩
      · exact absurd hmem hbranch
  | last key value => cases hn
  | promote key value f path => exact absurd hn hbranch

end Edit

/-! ## Generations on their own -/

/-- The key and the value of a leaf as they are written down. -/
def Terminal.written (n : Terminal) : Bytes :=
  Record.writeBytes n.key ++ Record.writeBytes n.value

namespace Record

variable {ns : List Node} {n : Terminal} {t : TreeId} {g : Nat} {o : Operation}

/-- What is written down for a generation besides its nodes. -/
def generation (t : TreeId) (g : Nat) (o : Operation) : List Record :=
  [.root ⟨t, g, o.root, .pending⟩, .operation t g o]

theorem written_infix_node (n : Terminal) : n.written <:+: write (.node (.terminal n)) :=
  ⟨writeIndex 0 ++ writeIndex 0 ++ writeHash n.hash, [], by
    simp [write, writeNode, Terminal.written]⟩

theorem written_infix_operation (ho : o.Concerns n) (hi : o.isInsertion = true) (t : TreeId)
    (g : Nat) : n.written <:+: write (.operation t g o) := by
  cases o with
  | deletion d => cases hi
  | insertion d =>
      obtain ⟨hkey, hvalue⟩ := ho
      exact ⟨writeIndex 2 ++ writeTreeId t ++ writeNumber g ++ writeIndex 0 ++ writeHash d.root,
        writeOption writeHash d.reference ++ writeOption writeSide d.side ++ writeStatus d.status,
        by simp [write, writeOperation, Terminal.written, hkey, hvalue]⟩

/-- With its leaf, an insertion writes down key and value twice. -/
theorem exists_twice (hn : .terminal n ∈ ns) (ho : o.Concerns n) (hi : o.isInsertion = true) :
    ∃ before between behind, writeList (ns.map .node ++ generation t g o) =
      before ++ n.written ++ between ++ n.written ++ behind := by
  obtain ⟨p, q, hleaf⟩ :=
    (written_infix_node n).trans (write_infix_flatMap (List.mem_map_of_mem hn))
  obtain ⟨p', q', hoperation⟩ : n.written <:+: (generation t g o).flatMap write :=
    (written_infix_operation ho hi t g).trans (write_infix_flatMap (by simp [generation]))
  refine ⟨writeNumber (ns.map Record.node ++ generation t g o).length ++ p, q ++ p', q', ?_⟩
  rw [writeList, List.flatMap_append, ← hleaf, ← hoperation]
  simp only [List.append_assoc]

theorem length_writeHash (h : Hash) : (writeHash h).length = 32 := h.bytes.length_eq

theorem length_writeTreeId (t : TreeId) : (writeTreeId t).length = 32 := t.bytes.length_eq

theorem length_writeStatus (s : Status) : (writeStatus s).length = 4 := by
  cases s <;> rfl

theorem length_writeOption_le {α : Type} {write : α → Bytes} {k : Nat}
    (h : ∀ a, (write a).length ≤ k) (a : Option α) : (writeOption write a).length ≤ k + 1 := by
  cases a with
  | none => exact Nat.le_add_left 1 k
  | some a => exact Nat.succ_le_succ (h a)

/-- On its own, an operation writes down the key, and perhaps the value, and little else. -/
theorem exists_once (ho : o.Concerns n) (t : TreeId) (g : Nat) :
    ∃ bs rest before behind, n.written = bs ++ rest ∧
      writeList (generation t g o) = before ++ bs ++ behind ∧
      before.length + behind.length ≤ 256 := by
  have hroot := length_writeOption_le (fun h => (length_writeHash h).le) o.root
  cases o with
  | insertion d =>
      obtain ⟨hkey, hvalue⟩ := ho
      refine ⟨n.written, [], writeNumber 2 ++ write (.root ⟨t, g, some d.root, .pending⟩) ++
          writeIndex 2 ++ writeTreeId t ++ writeNumber g ++ writeIndex 0 ++ writeHash d.root,
        writeOption writeHash d.reference ++ writeOption writeSide d.side ++
          writeStatus d.status, (List.append_nil _).symm, ?_, ?_⟩
      · simp [writeList, generation, write, writeOperation, Terminal.written, hkey, hvalue,
          Operation.root]
      · have hreference := length_writeOption_le (fun h => (length_writeHash h).le) d.reference
        have hside : (writeOption writeSide d.side).length ≤ 5 :=
          length_writeOption_le (fun side => by cases side <;> exact Nat.le_refl 4) d.side
        simp only [write, writeRoot, writeNumber, writeIndex, List.length_append,
          length_littleEndian, length_writeTreeId, length_writeHash, length_writeStatus]
        simp only [Operation.root] at hroot
        omega
  | deletion d =>
      have hkey : d.key = n.key := ho
      refine ⟨writeBytes n.key, writeBytes n.value,
        writeNumber 2 ++ write (.root ⟨t, g, d.root, .pending⟩) ++ writeIndex 2 ++
          writeTreeId t ++ writeNumber g ++ writeIndex 1 ++ writeOption writeHash d.root,
        writeStatus d.status, rfl, ?_, ?_⟩
      · simp [writeList, generation, write, writeOperation, hkey, Operation.root]
      · simp only [write, writeRoot, writeNumber, writeIndex, List.length_append,
          length_littleEndian, length_writeTreeId, length_writeStatus]
        simp only [Operation.root] at hroot
        omega

/-- The numbers in it fit if those in its leaf do. -/
theorem fits_generation (ho : o.Concerns n) (hn : Fits (.node (.terminal n)))
    (hg : g < wordBound) : ∀ r ∈ generation t g o, r.Fits := by
  simp only [generation, List.mem_cons, List.not_mem_nil, or_false, forall_eq_or_imp, forall_eq]
  refine ⟨hg, ?_⟩
  cases o with
  | insertion d => exact ⟨hg, ho.1 ▸ hn.1, ho.2 ▸ hn.2⟩
  | deletion d => exact ⟨hg, ho ▸ hn.1⟩

end Record

/-! ## Leaves in frames -/

/-- There is a frame for every operation that concerns a leaf, if no nodes go with it. -/
def Terminal.Framed (z : Codec) (n : Terminal) : Prop :=
  ∀ (t : TreeId) (g : Nat) (o : Operation), o.Concerns n → g < Record.wordBound →
    ∃ frame, Frame.encode z (Record.generation t g o) = .ok frame

/-- There is if the leaf went into a frame with its insertion. -/
theorem Terminal.framed_of_encode {z : Codec} (hz : z.TakesAgain) {n : Terminal}
    {ns : List Node} {t : TreeId} {g : Nat} {o : Operation} {frame : Bytes}
    (hn : .terminal n ∈ ns) (ho : o.Concerns n) (hi : o.isInsertion = true)
    (h : Frame.encode z (ns.map .node ++ Record.generation t g o) = .ok frame) :
    n.Framed z := by
  intro u g' o' ho' hg'
  obtain ⟨⟨-, hfits⟩, hlimit, -⟩ := Frame.encode_eq_ok_iff.mp h
  obtain ⟨before, between, behind, htwice⟩ := Record.exists_twice (t := t) (g := g) hn ho hi
  obtain ⟨bs, rest, before', behind', hwritten, honce, hlittle⟩ := Record.exists_once ho' u g'
  refine ⟨_, Frame.encode_eq_ok_iff.mpr ⟨⟨(by decide : 2 < Record.wordBound), ?_⟩, ?_, rfl⟩⟩
  · have hleaf := hfits _ (List.mem_append_left _ (List.mem_map_of_mem hn))
    exact Record.fits_generation ho' hleaf hg'
  · rw [honce]
    refine hz bs before (rest ++ between) (rest ++ behind) before' behind' ?_ hlittle
    simpa [htwice, hwritten] using hlimit

namespace Store

variable {s s' : Store} {ev : Event} {evs : List Event} {U : Set Node}

/-- The journal of a store takes every operation that concerns a leaf of the store. -/
def Framed (s : Store) : Prop :=
  ∀ f, s.journal = some f → f.codec.TakesAgain ∧
    ∀ (k : Hash) (n : Terminal), s.state.nodes[k]? = some (.terminal n) → n.Framed f.codec

theorem IsNew.framed (hs : s.IsNew) (hz : ∀ f, s.journal = some f → f.codec.TakesAgain) :
    s.Framed := by
  intro f hf
  refine ⟨hz f hf, fun k n hn => ?_⟩
  rcases hs with rfl | ⟨z, rfl⟩ <;> simp [volatile, create, State.empty] at hn

/-- What is written down for an event has a frame, if there is a journal. -/
theorem exists_encode_of_enter (hev : enter ev s = (.ok (), s')) {f' : Journal}
    (hf' : s'.journal = some f') :
    ∃ f frame, s.journal = some f ∧ f'.codec = f.codec ∧
      Frame.encode f.codec (s.state.transactionFor ev).records = .ok frame := by
  rw [enter] at hev
  split at hev
  · cases hev
  · next journal hr =>
      cases hev
      rcases record_eq_ok hr with ⟨-, rfl⟩ | ⟨f, frame, hf, hframe, rfl⟩
      · cases hf'
      · cases hf'
        exact ⟨f, frame, hf, rfl, hframe⟩

theorem Framed.enter (hf : s.Framed) (ha : s.state.Admits ev) (hev : enter ev s = (.ok (), s')) :
    s'.Framed := by
  intro f' hf'
  obtain ⟨f, frame, hjournal, hcodec, hframe⟩ := exists_encode_of_enter hev hf'
  obtain ⟨hz, hold⟩ := hf f hjournal
  rw [hcodec]
  refine ⟨hz, fun k n hn => ?_⟩
  rw [state_of_enter hev] at hn
  cases ev with
  | start u => exact hold k n hn
  | edit u e =>
      obtain ⟨h, hh, ho, -⟩ := ha
      obtain ⟨ns, hsame, hrecords, -⟩ := s.state.exists_records_draftOf u h e
      have hadded : (s.state.nodes.addAll e.made)[k]? = some (.terminal n) := by
        rw [State.after, hh] at hn
        exact hn
      rcases NodeMap.mem_of_getElem?_addAll hadded with hstored | ⟨hmade, -⟩
      · exact hold k n hstored
      · rw [← hsame] at hadded
        rcases NodeMap.mem_of_getElem?_addAll hadded with hstored | ⟨hmem, -⟩
        · exact hold k n hstored
        · -- a leaf that is new went into the frame with the operation that puts it in
          obtain ⟨hinsertion, rfl⟩ := Edit.of_terminal_mem_made hmade
          simp only [State.transactionFor, hh, hrecords, Root.next, ho.tree_latest,
            ← e.root_operation] at hframe
          exact Terminal.framed_of_encode hz hmem e.concerns_terminal hinsertion hframe
  | confirm u g =>
      obtain ⟨h, hh, -⟩ := ha
      simp only [State.after, hh] at hn
      exact hold k n hn

theorem Framed.entered (hf : s.Framed) (hevs : Entered s evs s') : s'.Framed := by
  induction hevs with
  | nil s => exact hf
  | cons ha hev _ ih => exact ih (hf.enter ha hev)

/-- Only the nodes of a state count. -/
theorem Framed.alike (hf : s.Framed) (ha : s'.state.Alike s.state)
    (hjournal : s'.journal = s.journal) : s'.Framed := by
  intro f hsome
  obtain ⟨hz, hold⟩ := hf f (hjournal ▸ hsome)
  refine ⟨hz, fun k n hn => hold k n ?_⟩
  rwa [ha.nodes] at hn

/-- After a run the journal takes every operation that concerns a leaf. -/
theorem Intact.framed_run (hs : s.Intact U) (hU : Set.InjOn Node.hash U) (hf : s.Framed)
    {steps : List Step} (hn : ∀ n ∈ contents s steps, n ∈ U) (hrun : run s steps = .ok s') :
    s'.Framed := by
  induction steps generalizing s with
  | nil =>
      cases hrun
      exact hf
  | cons step steps ih =>
      rw [run, List.foldlM_cons] at hrun
      obtain ⟨s₁, hstep, hrest⟩ := bind_eq_ok.mp hrun
      cases step with
      | call c =>
          cases hstep
          simp only [contents, List.mem_append] at hn
          have hc := c.comes_perform hs hU fun n h => hn n (.inl h)
          obtain ⟨evs, hevs, -⟩ := id hc
          exact ih (hc.intact hs hU) (hf.entered hevs) (fun n h => hn n (.inr h)) hrest
      | reopen =>
          obtain ⟨s₂, hreopen, hs₂, halike, hjournal⟩ := hs.exists_reopen
          have hstep : s.reopen = .ok s₁ := hstep
          obtain rfl : s₂ = s₁ := Except.ok.inj (hreopen.symm.trans hstep)
          simp only [contents, hreopen] at hn
          exact ih hs₂ (hf.alike halike hjournal) hn hrest

end Store

end MerkleStore
