import MerkleStore.Proofs.Frozen
import MerkleStore.Proofs.Inserting
import MerkleStore.Proofs.Mirroring
import MerkleStore.Proofs.Uniqueness

/-!
# Replications from an honest server are complete

If the generations of a copy are the first ones of a server (`Store.StartsLike`), a
replication from the server goes through and leaves the generations of the server up to the
one it has given for the root, with its operations (`Replica.Report.Completes`). Once more
it has nothing to do. Only the journal of the copy can stand in the way, by refusing a
frame (`Replica.complete_of_run`), and it does if it lacks a value of the server that
overflows its codec (`Replica.refused_of_overflows`). Nothing is promised for copies that
were not made by calls (`Replica.incomplete_counterfeit`).
-/

namespace MerkleStore

namespace Store

variable {s s' S : Store} {t : TreeId} {h H : History} {U : Set Node} {last : Nat}

/-- Every generation that a store has of a tree is one of the first ones of a server, up to
`last`, with the same node. -/
def StartsLike (s S : Store) (t : TreeId) (last : Nat) : Prop :=
  ∀ (g : Nat) (r : Root), s.root t g = .ok r → g ≤ last ∧ ∃ R, S.root t g = .ok R ∧ R.node = r.node

/-- This is the case where the nodes of the copy are the first ones of the server. -/
theorem startsLike_of_isPrefix (hs : s.servedTree t = .ok h) (hS : S.servedTree t = .ok H)
    (hlast : h.roots.length ≤ last + 1)
    (hp : h.roots.map Root.node <+: H.roots.map Root.node) : s.StartsLike S t last := by
  intro g r hr
  have hget : h.roots[g]? = some r := by
    rw [← State.root?_of_tree (tree_of_servedTree hs)]
    exact (root_eq_ok_iff.mp hr).2
  have hlt := (List.getElem?_eq_some_iff.mp hget).1
  obtain ⟨rest, hrest⟩ := hp
  have hnode : (H.roots.map Root.node)[g]? = some r.node := by
    rw [← hrest, List.getElem?_append_left (by simpa using hlt), List.getElem?_map, hget]
    rfl
  rw [List.getElem?_map, Option.map_eq_some_iff] at hnode
  obtain ⟨R, hR, hsame⟩ := hnode
  exact ⟨by omega, R, root_of_servedTree hS hR, hsame⟩

theorem StartsLike.of_roots (hl : s.StartsLike S t last) (hs : s.servedTree t = .ok h)
    (hS : S.servedTree t = .ok H) {g : Nat} {r R : Root} (hr : h.roots[g]? = some r)
    (hR : H.roots[g]? = some R) : R.node = r.node := by
  obtain ⟨-, R', hR', hnode⟩ := hl g r (root_of_servedTree hs hr)
  rw [root_of_servedTree hS hR, Except.ok.injEq] at hR'
  exact hR' ▸ hnode

/-- Generation 0 of a tree of an intact store is empty. -/
theorem Intact.node_start (hs : s.Intact U) {r : Root} (hr : s.root t 0 = .ok r) :
    r.node = none := by
  obtain ⟨h, ht, hget⟩ := exists_of_root hr
  obtain ⟨es, v, hm, -⟩ := hs.exists_serves ht
  obtain ⟨u, hu, hnode⟩ := hm.node_root hget
  cases hu
  exact hnode

theorem Intact.servedTree_of_tree (hs : s.Intact U) (ht : s.state.trees[t]? = some h) :
    s.servedTree t = .ok h := by
  obtain ⟨-, v, -, hv⟩ := hs.exists_serves ht
  exact hv.servedTree

/-- A copy is there or can be created, and it starts like the server still. -/
theorem StartsLike.exists_opened (hl : s.StartsLike S t last) (hU : Set.InjOn Node.hash U)
    (hs : s.Intact U) (hS : S.Intact U) (hserved : S.servedTree t = .ok H) :
    ∃ s' h, s.Opened s' t ∧ s'.Intact U ∧ s'.StartsLike S t last ∧ s'.servedTree t = .ok h ∧
      ((∃ f, s'.journal = some f) → ∃ f, s.journal = some f) := by
  cases hno : s.hasTree t with
  | true =>
      obtain ⟨h, ht⟩ := hasTree_iff.mp hno
      exact ⟨s, h, .inl rfl, hs, hl, hs.servedTree_of_tree ht, id⟩
  | false =>
      obtain ⟨s', hadd⟩ := exists_addTree hno
      have hopened : s.Opened s' t := .inr ⟨hno, hadd⟩
      have hs' := hs.opened hU hopened
      have ht : s'.state.trees[t]? = some (.start (.empty t)) := by
        rw [(writes_of_addTree hadd).1, State.after, State.getElem?_setTree, if_pos rfl]
      refine ⟨s', _, hopened, hs', fun g r hr => ?_, hs'.servedTree_of_tree ht, ?_⟩
      · -- the copy has nothing but an empty generation 0
        obtain ⟨h, ht', hget⟩ := exists_of_root hr
        rw [ht, Option.some.injEq] at ht'
        subst ht'
        obtain ⟨hlt, rfl⟩ := List.getElem?_eq_some_iff.mp hget
        obtain rfl : g = 0 := Nat.lt_one_iff.mp hlt
        obtain ⟨R, hR⟩ : ∃ R, H.roots[0]? = some R :=
          ⟨_, List.getElem?_eq_getElem (List.length_pos_iff.mpr H.roots_ne_nil)⟩
        have hroot := root_of_servedTree hserved hR
        exact ⟨Nat.zero_le _, R, hroot, hS.node_start hroot⟩
      · rw [addTree_eq, if_neg (by simp [hno])] at hadd
        exact journal_of_enter hadd

end Store

/-! ## Values that overflow a codec -/

theorem Operation.exists_of_withStatus {o : Operation} {status : Status} {d : Insertion}
    (h : o.withStatus status = .insertion d) : ∃ d', o = .insertion d' ∧ d'.value = d.value := by
  cases o with
  | insertion d' =>
      cases h
      exact ⟨d', rfl, rfl⟩
  | deletion d' => cases h

/-- No value that overflows the codec of a file is ever read from its store. -/
theorem Store.Orderly.not_overflows_of_operations {s : Store} (ho : s.Orderly) {z : Codec}
    (hz : s.journal.map Journal.codec = some z) {t : TreeId} {first last : Nat}
    {os : List Operation} (hos : s.operations t first last = .ok os) {d : Insertion}
    (hd : .insertion d ∈ os) : ¬ z.Overflows d.value := by
  obtain ⟨h, hs, -⟩ := bind_eq_ok.mp hos
  obtain ⟨-, -, rfl⟩ := (operations_eq_ok (ho.inOrder hs) hs).mp hos
  obtain ⟨i, hi⟩ := List.mem_iff_getElem?.mp hd
  obtain ⟨o, r, ho', -, hstatus⟩ := List.getElem?_zipWith_eq_some.mp hi
  obtain ⟨d', rfl, hvalue⟩ := Operation.exists_of_withStatus hstatus
  rw [← hvalue]
  exact ho.not_overflows hz (tree_of_servedTree hs)
    (List.mem_of_mem_take (List.mem_of_mem_drop (List.mem_of_getElem? ho')))

/-- Histories with the same nodes at their first generations. -/
theorem History.map_node_take_eq {h h' : History} {n : Nat} (hn : n < h.roots.length)
    (hn' : n < h'.roots.length)
    (hsame : ∀ (g : Nat) (r r' : Root), h.roots[g]? = some r → h'.roots[g]? = some r' →
      r'.node = r.node) :
    (h.roots.take (n + 1)).map Root.node = (h'.roots.take (n + 1)).map Root.node := by
  refine List.ext_getElem (by simp; omega) fun g hg hg' => ?_
  simp only [List.length_map, List.length_take] at hg hg'
  simp only [List.getElem_map, List.getElem_take]
  exact (hsame g _ _ (List.getElem?_eq_getElem (by omega))
    (List.getElem?_eq_getElem (by omega))).symm

namespace Replica

variable {c c' : Session} {S s : Store} {t : TreeId} {root : Hash} {remote : Root}
  {report : Report} {U : Set Node} {v : Survey} {h H : History}

/-! ## Nothing to do -/

/-- If nothing was learned, nothing happens. -/
theorem conclude_of_nothing {peer : Peer} {sent : List String} (hos : v.operations = [])
    (hgs : v.confirmed = []) (hs : s.servedTree t = .ok h) (hroot : h.latest.node = some root) :
    conclude t root v peer ⟨s, sent⟩ = (.ok (v.report t root), ⟨s, sent⟩) := by
  have hreplay : Store.replay t v.operations s = (.ok (some root), s) := by
    rw [hos, ← hroot]
    simp only [Store.replay, bind, Action.andThen, Action.read, Store.latestRoot_of_servedTree hs]
    rfl
  have hall : confirmAll t v.confirmed s = (.ok (), s) := by
    rw [hgs]
    rfl
  simp [conclude, bind, Exchange.andThen, Exchange.locally, hreplay, hall, pure, Exchange.done]

/-- A copy that has all generations up to the root, and all that is confirmed of them, is
left as it is. -/
theorem exists_replicate_of_current (ho : c.store.Orderly) (hSo : S.Orderly)
    (hremote : S.lastRootWith t (some root) = .ok (some remote))
    (hfits : remote.generation < Json.wordBound)
    (hlike : c.store.StartsLike S t remote.generation) (hs : c.store.servedTree t = .ok h)
    (hlatest : h.latest.generation = remote.generation) (hroot : h.latest.node = some root)
    (hcommitted : ∀ g, 0 < g → g ≤ remote.generation → S.state.IsCommitted t g →
      c.store.state.IsCommitted t g) :
    ∃ sent, replicate t root (.honest S) c =
      (.ok ⟨t, remote.generation, remote.generation, root, []⟩, ⟨c.store, sent⟩) := by
  obtain ⟨H, hS⟩ := servedTree_of_lastRootWith hremote
  obtain ⟨v, sent, hsurvey, hv, hlast⟩ := exists_learned ho hSo hS hremote hfits (.inl rfl) hs
    (by omega) fun g r R _ hr hR => hlike.of_roots hs hS hr hR
  have hfirst : v.first = remote.generation := hv.first.trans hlatest
  have hos : v.operations = [] := by
    have hlength := (Store.gives_of_operations hSo hv.served hv.operations).length
    exact List.length_eq_zero_iff.mp (by omega)
  have hknown : v.known = [] := by
    refine List.eq_nil_iff_forall_not_mem.mpr fun g hg => ?_
    obtain ⟨hpos, r, R, hr, hR, hpending, hconfirmed⟩ := (hv.agrees.known g).mp hg
    have hlt := (List.getElem?_eq_some_iff.mp hr).1
    have hlength := (ho.inOrder hs).length_roots
    obtain ⟨r', hr', hstatus⟩ := hcommitted g hpos (by omega)
      ⟨R, (State.root?_of_tree (Store.tree_of_servedTree hv.served) g).trans hR, hconfirmed⟩
    rw [State.root?_of_tree (Store.tree_of_servedTree hs), hr, Option.some.injEq] at hr'
    rw [← hr', hpending] at hstatus
    cases hstatus
  have hgs : v.confirmed = [] := by
    rw [Survey.confirmed, hknown, hos]
    rfl
  refine ⟨sent, ?_⟩
  rw [replicate_eq, Exchange.bind_ok hsurvey, conclude_of_nothing hos hgs hs hroot, Survey.report,
    hfirst, hlast, hgs]

/-! ## Replications that complete -/

/-- What a replication that completes leaves of a copy. -/
structure Report.Completes (report : Report) (S : Store) (t : TreeId) (root : Hash) (g : Nat)
    (s : Store) (c' : Session) : Prop where
  last : report.last = g
  latest : c'.store.latestGeneration t = .ok g
  nodes : ∃ rs Rs, c'.store.rootsBetween t 0 (g + 1) = .ok rs ∧
    S.rootsBetween t 0 (g + 1) = .ok Rs ∧ rs.length = g + 1 ∧ rs.map Root.node = Rs.map Root.node
  operations : ∃ os Os, c'.store.operations t 0 g = .ok os ∧ S.operations t 0 g = .ok Os ∧
    os.map (Operation.withStatus .pending) = Os.map (Operation.withStatus .pending)
  others : ∀ u : TreeId, u ≠ t → c'.store.state.trees[u]? = s.state.trees[u]?
  /-- A second replication has nothing to do. -/
  again : ∃ sent, replicate t root (.honest S) c' = (.ok ⟨t, g, g, root, []⟩, ⟨c'.store, sent⟩)

/-- The generations of a copy are still those of the server after a replication. -/
theorem startsLike_of_replicate {last : Nat} (ho : c.store.Orderly) (hSo : S.Orderly)
    (hs : c.store.Intact U) (hS : S.Intact U) (hserved : S.servedTree t = .ok H)
    (hlike : c.store.StartsLike S t last)
    (hrep : replicate t root (.honest S) c = (.ok report, c')) (hlast : report.last = last) :
    c'.store.StartsLike S t last := by
  obtain ⟨hcontained, ho', -⟩ := contained_of_report ho hrep
  obtain ⟨h', hs', hlatest⟩ :=
    Store.exists_of_latestGeneration (mirrors_of_replicate ho hSo hrep).latest
  have hlength := (ho'.inOrder hs').length_roots
  intro g r hr
  have hroot := (Store.root_eq_ok_iff.mp hr).2
  refine ⟨?_, ?_⟩
  · rw [State.root?_of_tree (Store.tree_of_servedTree hs')] at hroot
    have := (List.getElem?_eq_some_iff.mp hroot).1
    omega
  · cases hbefore : c.store.state.root? t g with
    | some r₀ =>
        obtain ⟨r', hr', hkeeps⟩ := hcontained.generations g r₀ hbefore
        rw [hroot, Option.some.injEq] at hr'
        obtain ⟨-, R, hR, hnode⟩ :=
          hlike g r₀ (Store.root_eq_ok_iff.mpr ⟨hs.isOutOfService t, hbefore⟩)
        exact ⟨R, hR, hnode.trans (hr' ▸ hkeeps.node.symm)⟩
    | none =>
        rcases hcontained.stated g r hbefore hroot with ⟨-, rfl, hnone⟩ | ⟨o, hstates, hnode⟩
        · obtain ⟨R, hR⟩ : ∃ R, H.roots[0]? = some R :=
            ⟨_, List.getElem?_eq_getElem (List.length_pos_iff.mpr H.roots_ne_nil)⟩
          have hstart := Store.root_of_servedTree hserved hR
          exact ⟨R, hstart, (hS.node_start hstart).trans hnone.symm⟩
        · obtain ⟨-, R, hR, hnode', -⟩ := Peer.exists_root_of_states hSo hstates
          exact ⟨R, Store.root_eq_ok_iff.mpr ⟨hS.isOutOfService t, hR⟩, hnode'.symm.trans hnode⟩

/-- If repeating what has been learned fails, the replication fails likewise. -/
theorem replicate_of_refused {peer : Peer} {sent : List String} {e : Error} {s' : Store}
    (hsurvey : survey t root peer c = (.ok v, ⟨s, sent⟩))
    (hreplay : Store.replay t v.operations s = (.error e, s')) :
    replicate t root peer c = (.error e, ⟨s', sent⟩) := by
  rw [replicate_eq, Exchange.bind_ok hsurvey]
  simp [conclude, bind, Exchange.andThen, Exchange.locally, hreplay]

/-- What a replication leaves of a copy that starts like the server. -/
theorem completes_of_replicate (ho : c.store.Orderly) (hSo : S.Orderly) (hs : c.store.Intact U)
    (hS : S.Intact U) (hU : Set.InjOn Node.hash U)
    (hremote : S.lastRootWith t (some root) = .ok (some remote))
    (hfits : remote.generation < Json.wordBound)
    (hlike : c.store.StartsLike S t remote.generation)
    (hmade : ∀ n ∈ nodes t root (.honest S) c, n ∈ U)
    (hrep : replicate t root (.honest S) c = (.ok report, c'))
    (hlast : report.last = remote.generation) :
    report.Completes S t root remote.generation c.store c' := by
  obtain ⟨H, hserved⟩ := servedTree_of_lastRootWith hremote
  have hintact := intact_of_replicate ho hs hU t root hmade
  rw [hrep] at hintact
  obtain ⟨hcontained, ho', r, hr, hroot⟩ := contained_of_report ho hrep
  have hmirrors := mirrors_of_replicate ho hSo hrep
  have hlike' := startsLike_of_replicate ho hSo hs hS hserved hlike hrep hlast
  obtain ⟨h', hs', hlatest⟩ := Store.exists_of_latestGeneration hmirrors.latest
  obtain ⟨hremoteLe, -⟩ := generation_le_latest hSo hserved hremote
  have hlength := (ho'.inOrder hs').length_roots
  have hlength' := (hSo.inOrder hserved).length_roots
  have hnodes : (h'.roots.take (remote.generation + 1)).map Root.node =
      (H.roots.take (remote.generation + 1)).map Root.node :=
    History.map_node_take_eq (by omega) (by omega) fun g r R hr hR =>
      hlike'.of_roots hs' hserved hr hR
  constructor
  case last => exact hlast
  case latest => rw [hmirrors.latest, hlast]
  case nodes =>
    refine ⟨h'.roots.take (remote.generation + 1), H.roots.take (remote.generation + 1), ?_, ?_, ?_,
      hnodes⟩
    · simp [Store.rootsBetween, hs', bind, Except.bind, pure, Except.pure]
    · simp [Store.rootsBetween, hserved, bind, Except.bind, pure, Except.pure]
    · rw [List.length_take]
      omega
  case operations =>
    exact hintact.operations_eq_of_roots hS hU (Store.tree_of_servedTree hs')
      (Store.tree_of_servedTree hserved) (by omega) (by omega) hnodes
  case others => exact hcontained.others
  case again =>
    rw [Store.latestRoot_of_servedTree hs', Except.ok.injEq] at hr
    exact exists_replicate_of_current ho' hSo hremote hfits hlike' hs' (hlatest.trans hlast)
      (hr ▸ hroot) fun g hpos hle hcommitted =>
        (hmirrors.committed g hpos (hlast ▸ hle)).mpr (.inr hcommitted)

/-- A copy that starts like the server is brought up to the root, unless its journal refuses
a frame. -/
theorem complete_of_startsLike (ho : c.store.Orderly) (hSo : S.Orderly) (hs : c.store.Intact U)
    (hS : S.Intact U) (hU : Set.InjOn Node.hash U)
    (hremote : S.lastRootWith t (some root) = .ok (some remote))
    (hfits : remote.generation < Json.wordBound)
    (hlike : c.store.StartsLike S t remote.generation) :
    (∃ report c', replicate t root (.honest S) c = (.ok report, c') ∧
      report.Completes S t root remote.generation c.store c') ∨
    ∃ e c', replicate t root (.honest S) c = (.error e, c') ∧ e.refusesFrame = true ∧
      ∃ f, c.store.journal = some f := by
  obtain ⟨H, hserved⟩ := servedTree_of_lastRootWith hremote
  obtain ⟨s, h, hopened, hs', hlike', hcopy, hjournal⟩ := hlike.exists_opened hU hs hS hserved
  have horder := (hopened.orderly ho).inOrder hcopy
  have hlatest : h.roots[h.latest.generation]? = some h.latest := by
    have hlast := h.getElem?_latest
    rwa [horder.length_roots, Nat.add_sub_cancel] at hlast
  obtain ⟨hle, R, hR, hsame⟩ := hlike' _ _ (Store.root_of_servedTree hcopy hlatest)
  have htop := Store.root_of_servedTree hserved (generation_le_latest hSo hserved hremote).2
  -- the edits of the server can be made on the copy, one after the other
  obtain ⟨os, -, es, k, u, w, hos, -, -, -, hserves, -, hleads, -, htargets, hpending, -⟩ :=
    hS.exists_edits hs' hU hle hR htop (Store.latestRoot_of_servedTree hcopy) hsame.symm
  obtain ⟨os', olds, hos', -, -, -, hreplay⟩ :=
    hS.exists_replay hs' hU hle hR htop (Store.latestRoot_of_servedTree hcopy) hsame.symm
  obtain rfl : os = os' := Except.ok.inj (hos.symm.trans hos')
  have hnodes (g : Nat) (r R : Root) (_ : h.comparedFrom ≤ g) (hr : h.roots[g]? = some r)
      (hR : H.roots[g]? = some R) : R.node = r.node := hlike'.of_roots hcopy hserved hr hR
  obtain ⟨v, sent, hsurvey, hv, hlast⟩ :=
    exists_learned ho hSo hserved hremote hfits hopened hcopy hle hnodes
  obtain rfl : v.operations = os := by
    have hoperations := hv.operations
    rw [hv.first, hlast] at hoperations
    exact Except.ok.inj (hoperations.symm.trans hos)
  rcases hreplay with ⟨s', heq, -⟩ | ⟨e, s', i, heq, hrefuses, hf, -⟩
  · left
    obtain ⟨report, c', hrep, -, hreport⟩ := exists_replicate ho hSo hserved hremote hfits hopened
      hcopy hle hnodes fun os' hos' => by
        obtain rfl := Except.ok.inj (hos.symm.trans hos')
        rw [heq, Peer.node_of_lastRootWith hremote]
    refine ⟨report, c', hrep, completes_of_replicate ho hSo hs hS hU hremote hfits hlike ?_ hrep
      hreport⟩
    intro n hn
    rw [nodes, hsurvey] at hn
    exact Store.mem_of_replayNodes hs' hU hserves hleads htargets hpending n hn
  · exact .inr ⟨e, ⟨s', sent⟩, replicate_of_refused hsurvey heq, hrefuses, hjournal hf⟩

/-- After two runs without a collision both stores are intact. -/
theorem intact_of_runs {S₀ s₀ s : Store} (hS₀ : S₀.IsNew) (hs₀ : s₀.IsNew)
    {steps₁ steps₂ : List Step} (hS : run S₀ steps₁ = .ok S) (hs : run s₀ steps₂ = .ok s)
    (hc : CollisionFree (contents S₀ steps₁ ++ contents s₀ steps₂)) :
    ∃ U, Set.InjOn Node.hash U ∧ S.Intact U ∧ s.Intact U := by
  have hU := hc.injOn_hash fun n hn => (List.mem_append.mp hn).elim hash_of_mem_contents
    hash_of_mem_contents
  obtain ⟨S', hrun₁, hSi, -⟩ := (hS₀.intact _).exists_run hU steps₁ fun n hn =>
    List.mem_append_left _ hn
  obtain ⟨s', hrun₂, hsi, -⟩ := (hs₀.intact _).exists_run hU steps₂ fun n hn =>
    List.mem_append_right _ hn
  rw [hS, Except.ok.injEq] at hrun₁
  rw [hs, Except.ok.injEq] at hrun₂
  subst hrun₁ hrun₂
  exact ⟨_, hU, hSi, hsi⟩

/-- After runs of a server and of a copy without a collision, where the generations of the
copy are the first ones of the server, a replication for a root that the server has had
completes, or the journal of the copy refuses a frame. -/
theorem complete_of_run {S₀ s₀ s : Store} (hS₀ : S₀.IsNew) (hs₀ : s₀.IsNew)
    {steps₁ steps₂ : List Step} (hS : run S₀ steps₁ = .ok S) (hs : run s₀ steps₂ = .ok s)
    (hc : CollisionFree (contents S₀ steps₁ ++ contents s₀ steps₂))
    (hremote : S.lastRootWith t (some root) = .ok (some remote))
    (hfits : remote.generation < Json.wordBound)
    (hlike : s.StartsLike S t remote.generation) (sent : List String) :
    (∃ report c', replicate t root (.honest S) ⟨s, sent⟩ = (.ok report, c') ∧
      report.Completes S t root remote.generation s c') ∨
    ∃ e c', replicate t root (.honest S) ⟨s, sent⟩ = (.error e, c') ∧ e.refusesFrame = true ∧
      ∃ f, s.journal = some f := by
  obtain ⟨U, hU, hSi, hsi⟩ := intact_of_runs hS₀ hs₀ hS hs hc
  exact complete_of_startsLike (c := ⟨s, sent⟩) (hs₀.orderly.of_run hs) (hS₀.orderly.of_run hS) hsi
    hSi hU hremote hfits hlike

/-- A copy at generation 1 is brought up to generation 2 of a server. -/
theorem complete_of_forkedServer :
    ∃ S s remote, run .volatile forkedServer = .ok S ∧
      run .volatile (forkedServer.take 2) = .ok s ∧
      CollisionFree (contents .volatile forkedServer ++ contents .volatile (forkedServer.take 2)) ∧
      S.lastRootWith sampleTree (some forkedRoot) = .ok (some remote) ∧
      remote.generation = 2 ∧ s.latestGeneration sampleTree = .ok 1 ∧
      s.StartsLike S sampleTree remote.generation ∧
      ∃ report c', replicate sampleTree forkedRoot (.honest S) ⟨s, []⟩ = (.ok report, c') ∧
        report.Completes S sampleTree forkedRoot remote.generation s c' := by
  have hc : CollisionFree (contents .volatile forkedServer ++
      contents .volatile (forkedServer.take 2)) := by decide +kernel
  have heval : (do
      let S ← run .volatile forkedServer
      let s ← run .volatile (forkedServer.take 2)
      let H ← S.servedTree sampleTree
      let h ← s.servedTree sampleTree
      let remote ← S.lastRootWith sampleTree (some forkedRoot)
      let latest ← s.latestGeneration sampleTree
      return decide (remote.map Root.generation = some 2 ∧ latest = 1 ∧ h.roots.length ≤ 3 ∧
        h.roots.map Root.node <+: H.roots.map Root.node ∧ s.journal = none) :
          Except Error Bool).toOption = some true := by
    decide +kernel
  obtain ⟨S, hS, heval⟩ := bind_eq_ok.mp (eq_ok_of_toOption heval)
  obtain ⟨s, hs, heval⟩ := bind_eq_ok.mp heval
  obtain ⟨H, hH, heval⟩ := bind_eq_ok.mp heval
  obtain ⟨h, hh, heval⟩ := bind_eq_ok.mp heval
  obtain ⟨found, hremote, heval⟩ := bind_eq_ok.mp heval
  obtain ⟨latest, hlatest, heval⟩ := bind_eq_ok.mp heval
  obtain ⟨hfound, rfl, hlength, hp, hnone⟩ := of_decide_eq_true (Except.ok.inj heval)
  obtain ⟨remote, rfl, hgeneration⟩ := Option.map_eq_some_iff.mp hfound
  have hlike : s.StartsLike S sampleTree remote.generation :=
    Store.startsLike_of_isPrefix hh hH (by omega) hp
  rcases complete_of_run (.inl rfl) (.inl rfl) hS hs hc hremote (by rw [hgeneration]; decide) hlike
    [] with hcomplete | ⟨e, c', -, -, f, hf⟩
  · exact ⟨S, s, remote, hS, hs, hc, hremote, hgeneration, hlatest, hlike, hcomplete⟩
  · rw [hnone] at hf
    cases hf

/-- A server may have a value that overflows the codec of the copy. Then the copy does not
get it. -/
theorem refused_of_overflows {S₀ s₀ s : Store} (hS₀ : S₀.IsNew) (hs₀ : s₀.IsNew)
    {steps₁ steps₂ : List Step} (hS : run S₀ steps₁ = .ok S) (hs : run s₀ steps₂ = .ok s)
    (hc : CollisionFree (contents S₀ steps₁ ++ contents s₀ steps₂))
    (hremote : S.lastRootWith t (some root) = .ok (some remote))
    (hfits : remote.generation < Json.wordBound)
    (hlike : s.StartsLike S t remote.generation) (sent : List String) {z : Codec}
    (hz : s.journal.map Journal.codec = some z) {os : List Operation}
    (hos : S.operations t 0 remote.generation = .ok os) {d : Insertion} (hd : .insertion d ∈ os)
    (hover : z.Overflows d.value) :
    ∃ e c', replicate t root (.honest S) ⟨s, sent⟩ = (.error e, c') ∧ e.refusesFrame = true := by
  obtain ⟨U, hU, hSi, hsi⟩ := intact_of_runs hS₀ hs₀ hS hs hc
  have ho := hs₀.orderly.of_run hs
  rcases complete_of_startsLike (c := ⟨s, sent⟩) ho (hS₀.orderly.of_run hS) hsi hSi hU hremote hfits
    hlike with ⟨report, c', hrep, hcompletes⟩ | ⟨e, c', hrep, hrefuses, -⟩
  · -- the copy would have the value in its file
    have hw := replicate_writes (c := ⟨s, sent⟩) ho t root (.honest S)
    rw [hrep] at hw
    obtain ⟨os', Os, hos', hOs, hsame⟩ := hcompletes.operations
    obtain rfl : os = Os := Except.ok.inj (hos.symm.trans hOs)
    have hmem := List.mem_map_of_mem (f := Operation.withStatus .pending) hd
    rw [← hsame] at hmem
    obtain ⟨o, ho', hstatus⟩ := List.mem_map.mp hmem
    obtain ⟨d', rfl, hvalue⟩ := Operation.exists_of_withStatus hstatus
    have hcodec := (Store.codec_journal_writesAll hw).trans hz
    exact absurd (hvalue ▸ hover) ((ho.writesAll hw).not_overflows_of_operations hcodec hos' ho')
  · exact ⟨e, c', hrep, hrefuses⟩

/-! ## Copies that are not completed -/

end Replica

namespace Store

/-- A transaction that writes down a generation of a tree keeps a store orderly, whatever the
operation is that it logs. -/
theorem Orderly.commit_generation {s : Store} {t : TreeId} {h : History} {ns : List Node}
    {o : Operation} {tx : Transaction} (ho : s.Orderly) (ht : s.state.trees[t]? = some h)
    (hgrounded : (s.state.nodes.addAll ns).Grounded)
    (hroot : ∀ k, o.root = some k → k ∈ s.state.nodes.addAll ns) (hstatus : o.status = .pending)
    (hrecords : tx.records = ns.map .node ++ [.root (h.latest.next o.root),
      .operation t (h.latest.generation + 1) o]) (hupdates : tx.updates = []) :
    (commit tx s).2.Orderly := by
  rcases commit_cases tx s with ⟨e, heq⟩ | ⟨-, heq⟩ | ⟨journal, state, -, hrecord, happly, heq⟩
  · rwa [heq]
  · rwa [heq]
  · have hlog := State.applyAll_log ht (ho.state.trees t h ht).inOrder ns o
    rw [← hrecords, happly, Except.ok.injEq] at hlog
    have hgrows : s.state.Grows state := by
      rw [hlog]
      exact .log (.intro ⟨[], none, none⟩ ht hgrounded hroot hstatus)
    have hstate : tx.updates.foldl (fun state u => state.updateIndex u.1 u.2) state = state := by
      rw [hupdates]
      rfl
    rw [heq, hstate]
    exact ho.writes (writes_of_record hrecord happly hstate hgrows)

theorem state_audit (s : Store) : (audit s).2.state = s.state := by
  rw [audit]
  split
  · rfl
  · split <;> rfl
  · rfl

/-- A copy of the tree of small runs that a transaction has brought to generation 1: its root
is that of the small run, but the insertion of another key is logged. -/
def counterfeit : Store :=
  let leaf := Terminal.ofPair [1] [10]
  let tx := ((Transaction.empty.addNode ∅ (.terminal leaf)).add
    (.root ⟨sampleTree, 1, some leaf.hash, .pending⟩)).add
      (.operation sampleTree 1 (.insertion ⟨leaf.hash, [2], [20], none, none, .pending⟩))
  (commit tx (addTree sampleTree .volatile).2).2

theorem orderly_counterfeit : counterfeit.Orderly := by
  obtain ⟨s, hadd⟩ := exists_addTree (s := .volatile) (t := sampleTree) rfl
  have ho : s.Orderly := Orderly.volatile.writes (writes_of_addTree hadd).2
  have ht : s.state.trees[sampleTree]? = some (.start (.empty sampleTree)) := by
    rw [(writes_of_addTree hadd).1, State.after, State.getElem?_setTree, if_pos rfl]
  have hnodes : s.state.nodes = ∅ := by
    rw [(writes_of_addTree hadd).1]
    rfl
  let leaf : Node := .terminal (.ofPair [1] [10])
  let o : Operation := .insertion ⟨leaf.hash, [2], [20], none, none, .pending⟩
  have hgrounded : (s.state.nodes.addAll [leaf]).Grounded := by
    rw [hnodes]
    exact .add .empty leaf (by simp [leaf, Node.children])
  have hroot : ∀ k, o.root = some k → k ∈ s.state.nodes.addAll [leaf] := by
    rintro k ⟨rfl⟩
    exact Std.ExtTreeMap.mem_insertIfNew_self
  rw [counterfeit, hadd]
  exact ho.commit_generation ht hgrounded hroot rfl rfl rfl

end Store

namespace Replica

/-- A replication has nothing to do with the counterfeit copy and leaves it its operation. After an
audit it is not even looked at. -/
theorem incomplete_counterfeit :
    ∃ S, run .volatile (sampleSteps.take 2) = .ok S ∧
      Store.counterfeit.StartsLike S sampleTree 1 ∧
      (∃ sent os Os, replicate sampleTree (.terminal [1] [10]) (.honest S) ⟨.counterfeit, []⟩ =
          (.ok ⟨sampleTree, 1, 1, .terminal [1] [10], []⟩, ⟨.counterfeit, sent⟩) ∧
        Store.counterfeit.operations sampleTree 0 1 = .ok os ∧
        S.operations sampleTree 0 1 = .ok Os ∧
        os.map (Operation.withStatus .pending) ≠ Os.map (Operation.withStatus .pending)) ∧
      let s := (Store.audit .counterfeit).2
      s.state = Store.counterfeit.state ∧
        (replicate sampleTree (.terminal [1] [10]) (.honest S) ⟨s, []⟩).1 =
          .error (.quarantined sampleTree) := by
  have heval : (do
      let S ← run .volatile (sampleSteps.take 2)
      let H ← S.servedTree sampleTree
      let h ← Store.counterfeit.servedTree sampleTree
      let remote ← S.lastRootWith sampleTree (some (.terminal [1] [10]))
      let os ← Store.counterfeit.operations sampleTree 0 1
      let Os ← S.operations sampleTree 0 1
      let s := (Store.audit .counterfeit).2
      return decide (remote.map Root.generation = some 1 ∧ h.latest.generation = 1 ∧
        h.latest.node = some (.terminal [1] [10]) ∧ h.roots.length ≤ 2 ∧
        h.roots.map Root.node <+: H.roots.map Root.node ∧ (∀ r ∈ H.roots, r.status = .pending) ∧
        os.map (Operation.withStatus .pending) ≠ Os.map (Operation.withStatus .pending) ∧
        s.isOutOfService sampleTree = true) : Except Error Bool).toOption = some true := by
    decide +kernel
  obtain ⟨S, hS, heval⟩ := bind_eq_ok.mp (eq_ok_of_toOption heval)
  obtain ⟨H, hH, heval⟩ := bind_eq_ok.mp heval
  obtain ⟨h, hh, heval⟩ := bind_eq_ok.mp heval
  obtain ⟨found, hremote, heval⟩ := bind_eq_ok.mp heval
  obtain ⟨os, hos, heval⟩ := bind_eq_ok.mp heval
  obtain ⟨Os, hOs, heval⟩ := bind_eq_ok.mp heval
  obtain ⟨hfound, hlatest, hroot, hlength, hp, hpending, hne, hout⟩ :=
    of_decide_eq_true (Except.ok.inj heval)
  obtain ⟨remote, rfl, hgeneration⟩ := Option.map_eq_some_iff.mp hfound
  have hSo := (Store.IsNew.orderly (.inl rfl)).of_run hS
  have hlike : Store.counterfeit.StartsLike S sampleTree 1 :=
    Store.startsLike_of_isPrefix hh hH hlength hp
  have hstate := Store.state_audit .counterfeit
  refine ⟨S, hS, hlike, ?_, hstate, ?_⟩
  · obtain ⟨sent, hrep⟩ := exists_replicate_of_current (c := ⟨.counterfeit, []⟩)
      Store.orderly_counterfeit hSo hremote (by rw [hgeneration]; decide) (hgeneration ▸ hlike) hh
      (hlatest.trans hgeneration.symm) hroot fun g _ _ hcommitted => by
        obtain ⟨r, hr, hstatus⟩ :=
          (State.isCommitted_of_tree (Store.tree_of_servedTree hH)).mp hcommitted
        rw [hpending r (List.mem_of_getElem? hr)] at hstatus
        cases hstatus
    rw [hgeneration] at hrep
    exact ⟨sent, os, Os, hrep, hos, hOs, hne⟩
  · have ht : (Store.audit .counterfeit).2.state.trees[sampleTree]? = some h := by
      rw [hstate]
      exact Store.tree_of_servedTree hh
    have hanswer : (Peer.honest S).answer [] (.root sampleTree (.terminal [1] [10])) readRoot =
        .ok (some remote) :=
      Peer.answer_root_eq_ok.mpr ⟨hremote, by rw [hgeneration]; decide⟩
    obtain ⟨sent', hsurvey⟩ :=
      Store.survey_outOfService hout ht (.terminal [1] [10]) (.honest S) []
    rw [replicate_eq, Exchange.bind_error hsurvey, refusal, hanswer]

/-- A new file does not get a value that is too large for a frame. -/
theorem incomplete_oversized {value : Bytes} (hlong : Frame.payloadLimit ≤ value.length) :
    let steps := [.call (.addTree sampleTree), .call (.insert sampleTree [1] value none none)]
    CollisionFree (contents .volatile steps ++ contents (.create sampleCodec) []) ∧
    ∃ S remote, run .volatile steps = .ok S ∧
      S.lastRootWith sampleTree (some (.terminal [1] value)) = .ok (some remote) ∧
      (Store.create sampleCodec).StartsLike S sampleTree remote.generation ∧
      ∃ e c', replicate sampleTree (.terminal [1] value) (.honest S)
        ⟨.create sampleCodec, []⟩ = (.error e, c') ∧ e.refusesFrame = true := by
  intro steps
  obtain ⟨S, hS, hremote, hlogged⟩ := exists_first_insertion sampleTree [1] value
  have hlike : (Store.create sampleCodec).StartsLike S sampleTree 1 := by
    intro g r hr
    obtain ⟨h, ht, -⟩ := Store.exists_of_root hr
    simp [Store.create, State.empty] at ht
  have hc : CollisionFree (contents .volatile steps ++ contents (.create sampleCodec) []) := by
    rw [show contents (.create sampleCodec) [] = [] from rfl, List.append_nil]
    exact collisionFree_first _ sampleTree [1] value
  have hfile : run (.create sampleCodec) [] = .ok (.create sampleCodec) := rfl
  exact ⟨hc, S, _, hS, hremote, hlike, refused_of_overflows (.inl rfl) (.inr ⟨_, rfl⟩) hS hfile hc
    hremote (show 1 < Json.wordBound by decide) hlike [] rfl hlogged List.mem_cons_self
    (overflows_sampleCodec hlong)⟩

/-- Copies that a transaction has made, that are out of service, or whose file refuses a frame may
not be completed. -/
theorem completion_exceptions :
    (∃ S, run .volatile (sampleSteps.take 2) = .ok S ∧
      Store.counterfeit.StartsLike S sampleTree 1 ∧
      (∃ sent os Os, replicate sampleTree (.terminal [1] [10]) (.honest S) ⟨.counterfeit, []⟩ =
          (.ok ⟨sampleTree, 1, 1, .terminal [1] [10], []⟩, ⟨.counterfeit, sent⟩) ∧
        Store.counterfeit.operations sampleTree 0 1 = .ok os ∧
        S.operations sampleTree 0 1 = .ok Os ∧
        os.map (Operation.withStatus .pending) ≠ Os.map (Operation.withStatus .pending)) ∧
      let s := (Store.audit .counterfeit).2
      s.state = Store.counterfeit.state ∧
        (replicate sampleTree (.terminal [1] [10]) (.honest S) ⟨s, []⟩).1 =
          .error (.quarantined sampleTree)) ∧
    let steps := [.call (.addTree sampleTree), .call (.insert sampleTree [1] oversized none none)]
    CollisionFree (contents .volatile steps ++ contents (.create sampleCodec) []) ∧
    ∃ S remote, run .volatile steps = .ok S ∧
      S.lastRootWith sampleTree (some (.terminal [1] oversized)) = .ok (some remote) ∧
      (Store.create sampleCodec).StartsLike S sampleTree remote.generation ∧
      ∃ e c', replicate sampleTree (.terminal [1] oversized) (.honest S)
        ⟨.create sampleCodec, []⟩ = (.error e, c') ∧ e.refusesFrame = true :=
  ⟨incomplete_counterfeit, incomplete_oversized payloadLimit_le_length_oversized⟩

end Replica

end MerkleStore
