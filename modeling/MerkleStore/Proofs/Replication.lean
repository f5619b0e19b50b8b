import MerkleStore.Proofs.Confirming

/-!
# What a replica does with what a server says

A replication has two parts. In the first one the replica asks for everything and makes
nothing but the tree, if that is missing (`Replica.survey`); in the second one it asks
for nothing and works on its copy (`Replica.conclude`). Whatever a server answers, what
has been learned in the first part fits the copy and was stated by the server
(`Replica.survey_cases`), and so the second part repeats operations and confirms
generations that are there (`Replica.conclude_cases`).
-/

namespace MerkleStore

namespace Exchange

variable {α β γ : Type} {x : Exchange α} {f : α → Exchange β} {peer : Peer} {c c' : Session}

theorem bind_ok {a : α} (h : x peer c = (.ok a, c')) : (x >>= f) peer c = f a peer c' := by
  simp only [bind, andThen, h]

theorem bind_error {e : Error} (h : x peer c = (.error e, c')) :
    (x >>= f) peer c = (.error e, c') := by
  simp only [bind, andThen, h]

theorem pure_bind (a : α) (f : α → Exchange β) : (pure a >>= f) = f a := rfl

theorem bind_assoc (x : Exchange α) (f : α → Exchange β) (g : β → Exchange γ) :
    (x >>= f >>= g) = x >>= fun a => f a >>= g := by
  funext peer c
  simp only [bind, andThen]
  obtain ⟨_ | _, _⟩ := x peer c <;> rfl

theorem ite_bind (p : Prop) [Decidable p] (x y : Exchange α) (f : α → Exchange β) :
    ((if p then x else y) >>= f) = if p then x >>= f else y >>= f := by
  split <;> rfl

end Exchange

namespace Replica

/-! ## A replication in two parts -/

/-- What a replica has learned before it makes operations again. -/
structure Survey where
  /-- The generation of the copy. -/
  first : Nat
  /-- The generation the server has given for the root. -/
  last : Nat
  /-- Pending generations of the copy that the server has confirmed. -/
  known : List Nat
  /-- What is to be made again. -/
  operations : List Operation

/-- The generations that are to be confirmed. -/
def Survey.confirmed (v : Survey) : List Nat := v.known ++ confirmedAfter v.first v.operations

/-- What is reported if all of it is done. -/
def Survey.report (v : Survey) (t : TreeId) (root : Hash) : Report :=
  ⟨t, v.first, v.last, root, v.confirmed⟩

/-- Makes sure that there is a copy of a tree and gives its generation. -/
def openCopy (t : TreeId) : Exchange Nat := do
  unless ← .look (·.hasTree t) do .locally (Store.addTree t)
  return (← .locally (.read (·.latestRoot t))).generation

/-- Asks for the operations behind generation `first` and compares roots with them. -/
def compareBehind (t : TreeId) (rs : List Root) (first last : Nat) : Exchange (List Nat) := do
  let known ← fetchOperations t first last
  if known.length ≠ rs.length then .fail (.protocol (.operationCount rs.length known.length))
  .ofExcept (compareHistory t rs known)

/-- Asks which pending generations up to this one have been confirmed. -/
def askConfirmed (t : TreeId) (first : Nat) : Exchange (List Nat) :=
  if 0 < first then catchUp t first else pure []

/-- Asks a server for what a copy at generation `first` lacks up to `last`. -/
def learn (t : TreeId) (last first : Nat) : Exchange Survey := do
  if last < first then .fail (.invalidArgument (.localAhead t first last))
  let known ← askConfirmed t first
  let operations ← fetchOperations t first last
  return ⟨first, last, known, operations⟩

/-- Asks a server for everything that is needed to bring a copy up to a root. -/
def survey (t : TreeId) (root : Hash) : Exchange Survey := do
  let some remote ← fetchRoot t root | .fail (.notFound (.remoteRoot root t))
  learn t remote.generation (← openCopy t)

/-- Brings a copy up to a root by what has been learned. -/
def conclude (t : TreeId) (root : Hash) (v : Survey) : Exchange Report := do
  let reached ← .locally (Store.replay t v.operations)
  if reached ≠ some root then .fail (.integrity (.otherRoot t root))
  .locally (confirmAll t v.confirmed)
  return v.report t root

theorem replicate_eq (t : TreeId) (root : Hash) :
    replicate t root = survey t root >>= conclude t root := by
  simp only [replicate, survey, Exchange.bind_assoc]
  congr 1
  funext remote
  cases remote with
  | none => rfl
  | some remote =>
      simp only [openCopy, learn, askConfirmed, conclude, Survey.report, Survey.confirmed,
        Exchange.bind_assoc, Exchange.pure_bind, Exchange.ite_bind]

end Replica

/-! ## What a server states -/

/-- The conversation after one more request. -/
def Session.asking (c : Session) (r : Request) : Session := { c with sent := c.sent ++ [r.text] }

namespace Peer

variable {peer : Peer} {sent sent' sent'' : List String} {t : TreeId} {g : Nat} {o : Operation}

/-- What a client reads in the answer to a request that follows others. -/
def answer {α : Type} (peer : Peer) (sent : List String) (r : Request)
    (read : String → Except Error α) : Except Error α :=
  (Replica.awaitText r.kind (peer (sent ++ [r.text]))).bind read

/-- A server gives an operation for a generation of a tree, in answer to a request that is
one of `sent'` but none of `sent`. -/
def States (peer : Peer) (sent sent' : List String) (t : TreeId) (g : Nat) (o : Operation) : Prop :=
  ∃ asked first last os, sent <+: asked ∧
    asked ++ [(Request.operations t first last).text] <+: sent' ∧
    peer.answer asked (.operations t first last) Replica.readOperations = .ok os ∧
    first < g ∧ os[g - (first + 1)]? = some o

/-- A server that answers with these texts in order and then goes away. -/
def scripted (texts : List String) : Peer := fun sent =>
  match texts[sent.length - 1]? with
  | some text => [.text text]
  | none => [.close]

theorem States.mono (hs : peer.States sent sent' t g o) (h : sent'' <+: sent)
    {sent₁ : List String} (h' : sent' <+: sent₁) : peer.States sent'' sent₁ t g o := by
  obtain ⟨asked, first, last, os, hasked, hsent, hanswer, hg, ho⟩ := hs
  exact ⟨asked, first, last, os, h.trans hasked, hsent.trans h', hanswer, hg, ho⟩

end Peer

namespace Replica

variable {peer : Peer} {c : Session} {t : TreeId} {root : Hash} {r : Root} {h : History}
  {rs : List Root} {os : List Operation} {gs : List Nat} {g first last : Nat}

theorem ask_read_eq {α : Type} (r : Request) (read : String → Except Error α) (peer : Peer)
    (c : Session) :
    (ask r >>= fun text => .ofExcept (read text)) peer c =
      (peer.answer c.sent r read, c.asking r) := by
  simp only [ask, bind, Exchange.andThen, Peer.answer, Session.asking]
  cases awaitText r.kind (peer (c.sent ++ [r.text])) with
  | error e => rfl
  | ok text =>
      simp only [Except.bind]
      cases read text <;> rfl

theorem fetchRoot_eq (t : TreeId) (root : Hash) (peer : Peer) (c : Session) :
    fetchRoot t root peer c =
      (peer.answer c.sent (.root t root) readRoot, c.asking (.root t root)) :=
  ask_read_eq _ _ peer c

theorem fetchOperations_eq (t : TreeId) (first last : Nat) (peer : Peer) (c : Session) :
    fetchOperations t first last peer c =
      (peer.answer c.sent (.operations t first last) readOperations,
        c.asking (.operations t first last)) :=
  ask_read_eq _ _ peer c

/-! ### Pending generations that a server has confirmed -/

/-- The comparison of a copy with operations goes through if every root is that of its
operation, and gives the pending roots with a confirmed operation. -/
theorem compareHistory_eq_ok (hc : compareHistory t rs os = .ok gs) :
    (∀ p ∈ rs.zip os, p.2.root = p.1.node) ∧
      gs = ((rs.zip os).filter fun p => p.1.status = .pending ∧ p.2.status = .committed).map
        fun p => p.1.generation := by
  induction rs generalizing os gs with
  | nil =>
      cases hc
      simp
  | cons r rs ih =>
      cases os with
      | nil =>
          cases hc
          simp
      | cons o os =>
          rw [compareHistory] at hc
          split at hc
          · cases hc
          · next hroot =>
              obtain ⟨later, hlater, hgs⟩ := bind_eq_ok.mp hc
              obtain ⟨hroots, rfl⟩ := ih hlater
              rw [not_not] at hroot
              refine ⟨by simpa [hroot] using hroots, ?_⟩
              cases hgs
              rw [List.zip_cons_cons, List.filter_cons]
              simp only [decide_eq_true_eq]
              split <;> rfl

end Replica

theorem History.InOrder.pairwise_generation {h : History} {t : TreeId} (ho : h.InOrder t) :
    h.roots.Pairwise fun r r' => r.generation < r'.generation := by
  rw [List.pairwise_iff_getElem]
  intro i j hi hj hlt
  rw [(ho.root i _ (List.getElem?_eq_getElem hi)).2, (ho.root j _ (List.getElem?_eq_getElem hj)).2]
  exact hlt

theorem History.InOrder.length_roots {h : History} {t : TreeId} (ho : h.InOrder t) :
    h.roots.length = h.latest.generation + 1 := by
  rw [ho.generation_latest, ho.operations]

/-! ### Where a copy is compared -/

namespace History

/-- The generation from which on a copy is compared with a server: its first pending one
after generation 0, or the last one if none is pending. -/
def comparedFrom (h : History) : Nat :=
  ((h.roots.tail.find? (·.status == .pending)).map Root.generation).getD h.latest.generation

variable {h : History} {t : TreeId} {g : Nat} {r : Root}

theorem comparedFrom_pos (ho : h.InOrder t) (hlatest : 0 < h.latest.generation) :
    0 < h.comparedFrom := by
  rw [comparedFrom]
  cases hfind : h.roots.tail.find? (·.status == .pending) with
  | none => exact hlatest
  | some r =>
      obtain ⟨i, hi⟩ := List.mem_iff_getElem?.mp (List.mem_of_find?_eq_some hfind)
      rw [List.getElem?_tail] at hi
      rw [Option.map_some, Option.getD_some, (ho.root _ r hi).2]
      exact Nat.zero_lt_succ i

theorem comparedFrom_le_latest (ho : h.InOrder t) : h.comparedFrom ≤ h.latest.generation := by
  have hlength := ho.length_roots
  rw [comparedFrom]
  cases hfind : h.roots.tail.find? (·.status == .pending) with
  | none => exact Nat.le_refl _
  | some r =>
      obtain ⟨i, hi⟩ := List.mem_iff_getElem?.mp (List.mem_of_find?_eq_some hfind)
      rw [List.getElem?_tail] at hi
      have hlt := (List.getElem?_eq_some_iff.mp hi).1
      rw [Option.map_some, Option.getD_some, (ho.root _ r hi).2]
      omega

/-- Every pending generation after generation 0 is compared. -/
theorem comparedFrom_le (ho : h.InOrder t) (hg : 0 < g) (hr : h.roots[g]? = some r)
    (hpending : r.status = .pending) : h.comparedFrom ≤ g := by
  have hlt := (List.getElem?_eq_some_iff.mp hr).1
  have htail : h.roots.tail[g - 1]? = some r := by
    rw [List.getElem?_tail, show g - 1 + 1 = g by omega, hr]
  rw [comparedFrom]
  cases hfind : h.roots.tail.find? (·.status == .pending) with
  | some r' =>
      -- the first pending root stands at the place of `r` or in front of it
      obtain ⟨i, hi, hr', hbefore⟩ := List.find?_eq_some_iff_getElem.mp hfind |>.2
      have hi' : h.roots[i + 1]? = some r' := by
        rw [← List.getElem?_tail, List.getElem?_eq_some_iff]
        exact ⟨hi, hr'⟩
      rw [Option.map_some, Option.getD_some, (ho.root _ r' hi').2]
      refine Nat.le_of_not_lt fun hlt' => ?_
      have hnot := hbefore (g - 1) (by omega)
      rw [(List.getElem?_eq_some_iff.mp htail).2, hpending] at hnot
      simp at hnot
  | none =>
      have hnot := List.find?_eq_none.mp hfind r (List.mem_of_getElem? htail)
      rw [hpending] at hnot
      simp at hnot

end History

/-! ### What is known of it -/

/-- Pending generations of a tree, in ascending order, that a server has confirmed. -/
structure History.Known (h : History) (peer : Peer) (sent sent' : List String) (t : TreeId)
    (gs : List Nat) : Prop where
  ascending : gs.Pairwise (· < ·)
  stated : ∀ g ∈ gs, ∃ r o, h.roots[g]? = some r ∧ r.status = .pending ∧
    peer.States sent sent' t g o ∧ o.root = r.node ∧ o.status = .committed

theorem History.Known.mono {h : History} {peer : Peer} {sent sent' sent₁ sent₁' : List String}
    {t : TreeId} {gs : List Nat} (hk : h.Known peer sent sent' t gs) (hs : sent₁ <+: sent)
    (hs' : sent' <+: sent₁') : h.Known peer sent₁ sent₁' t gs where
  ascending := hk.ascending
  stated := by
    intro g hg
    obtain ⟨r, o, hr, hpending, hstates, hrest⟩ := hk.stated g hg
    exact ⟨r, o, hr, hpending, hstates.mono hs hs', hrest⟩

namespace Replica

variable {peer : Peer} {c : Session} {t : TreeId} {root : Hash} {r : Root} {h : History}
  {rs : List Root} {os : List Operation} {gs : List Nat} {g first last : Nat}
  {sent : List String}

/-- What a comparison gives is known from the answer it is made with. -/
theorem known_of_compareHistory (ho : h.InOrder t)
    (hanswer : peer.answer sent (.operations t first last) readOperations = .ok os)
    (hlength : os.length = (h.roots.drop (first + 1)).length)
    (hc : compareHistory t (h.roots.drop (first + 1)) os = .ok gs) :
    h.Known peer sent (sent ++ [(Request.operations t first last).text]) t gs := by
  obtain ⟨hroots, rfl⟩ := compareHistory_eq_ok hc
  constructor
  · rw [List.pairwise_map]
    refine List.Pairwise.filter _ ?_
    have hfst := List.map_fst_zip (Nat.le_of_eq hlength.symm)
    rw [← List.pairwise_map (f := Prod.fst) (R := fun r r' : Root => r.generation < r'.generation),
      hfst]
    exact ho.pairwise_generation.sublist (List.drop_sublist _ _)
  · intro g hg
    obtain ⟨⟨r, o⟩, hp, rfl⟩ := List.mem_map.mp hg
    simp only [List.mem_filter, decide_eq_true_eq] at hp
    obtain ⟨hmem, hpending, hcommitted⟩ := hp
    obtain ⟨i, hi⟩ := List.mem_iff_getElem?.mp hmem
    obtain ⟨hr, ho'⟩ := List.getElem?_zip_eq_some.mp hi
    -- the roots that are compared start behind generation `first`
    rw [List.getElem?_drop] at hr
    have hg : r.generation = first + 1 + i := (ho.root _ r hr).2
    refine ⟨r, o, hg ▸ hr, hpending, ⟨sent, first, last, os, List.prefix_refl _,
      List.prefix_refl _, hanswer, by simp only [hg]; omega, ?_⟩, hroots _ hmem, hcommitted⟩
    rwa [hg, Nat.add_sub_cancel_left]

theorem compareBehind_eq (t : TreeId) (rs : List Root) (first last : Nat) (peer : Peer)
    (c : Session) :
    compareBehind t rs first last peer c =
      ((peer.answer c.sent (.operations t first last) readOperations).bind fun os =>
        if os.length = rs.length then compareHistory t rs os
        else .error (.protocol (.operationCount rs.length os.length)),
        c.asking (.operations t first last)) := by
  simp only [compareBehind, bind, Exchange.andThen, fetchOperations_eq]
  cases peer.answer c.sent (.operations t first last) readOperations with
  | error e => rfl
  | ok os =>
      simp only [Except.bind]
      by_cases hcount : os.length = rs.length
      · simp only [if_neg (not_not.mpr hcount), if_pos hcount]
        cases compareHistory t rs os <;> rfl
      · simp only [if_pos hcount, if_neg hcount]
        rfl

/-- A copy is compared with the operations of the generations from `comparedFrom` on. -/
theorem catchUp_eq (ho : h.InOrder t) (hlatest : 0 < h.latest.generation)
    (hs : c.store.servedTree t = .ok h) (peer : Peer) :
    catchUp t h.latest.generation peer c =
      compareBehind t (h.roots.drop h.comparedFrom) (h.comparedFrom - 1) h.latest.generation
        peer c := by
  have hpos := h.comparedFrom_pos ho hlatest
  have htail : (h.roots.take (h.latest.generation + 1)).drop 1 = h.roots.tail := by
    rw [List.take_of_length_le (Nat.le_of_eq ho.length_roots), List.drop_one]
  have hroots : c.store.rootsBetween t 1 (h.latest.generation + 1) = .ok h.roots.tail := by
    simp only [Store.rootsBetween, hs, bind, Except.bind, pure, Except.pure, htail]
  have hdrop : h.roots.drop h.comparedFrom = h.roots.tail.drop (h.comparedFrom - 1) := by
    rw [← List.drop_one, List.drop_drop]
    congr 1
    omega
  rw [hdrop, History.comparedFrom]
  simp only [catchUp, bind, Exchange.andThen, Exchange.locally, Action.read, hroots]
  cases h.roots.tail.find? (·.status == .pending) <;> rfl

/-- The history of a copy is compared with that of the server, and nothing else happens. -/
theorem catchUp_cases (ho : h.InOrder t) (hlatest : 0 < h.latest.generation)
    (hs : c.store.servedTree t = .ok h) (peer : Peer) :
    ∃ sent, c.sent <+: sent ∧
      ((∃ e, catchUp t h.latest.generation peer c = (.error e, { c with sent })) ∨
        ∃ gs, catchUp t h.latest.generation peer c = (.ok gs, { c with sent }) ∧
          h.Known peer c.sent sent t gs) := by
  have hpos := h.comparedFrom_pos ho hlatest
  rw [catchUp_eq ho hlatest hs, compareBehind_eq]
  refine ⟨(c.asking (.operations t (h.comparedFrom - 1) h.latest.generation)).sent,
    List.prefix_append _ _, ?_⟩
  cases hanswer : peer.answer c.sent
      (.operations t (h.comparedFrom - 1) h.latest.generation) readOperations with
  | error e => exact .inl ⟨e, rfl⟩
  | ok os =>
      rw [Except.bind]
      split
      · next hcount =>
          cases hc : compareHistory t (h.roots.drop h.comparedFrom) os with
          | error e => exact .inl ⟨e, rfl⟩
          | ok gs =>
              rw [← Nat.sub_add_cancel hpos] at hcount hc
              exact .inr ⟨gs, rfl, known_of_compareHistory ho hanswer hcount hc⟩
      · exact .inl ⟨_, rfl⟩

theorem askConfirmed_cases (ho : h.InOrder t) (hs : c.store.servedTree t = .ok h) (peer : Peer) :
    ∃ sent, c.sent <+: sent ∧
      ((∃ e, askConfirmed t h.latest.generation peer c = (.error e, { c with sent })) ∨
        ∃ gs, askConfirmed t h.latest.generation peer c = (.ok gs, { c with sent }) ∧
          h.Known peer c.sent sent t gs) := by
  rw [askConfirmed]
  split
  · next hlatest => exact catchUp_cases ho hlatest hs peer
  · exact ⟨c.sent, List.prefix_refl _, .inr ⟨[], rfl, .nil, by simp⟩⟩

end Replica

/-! ## What has been learned -/

/-- The copy in which a replica works is there or has just been created. -/
def Store.Opened (s s' : Store) (t : TreeId) : Prop :=
  s' = s ∨ s.hasTree t = false ∧ addTree t s = (.ok (), s')

theorem Store.writes_of_addTree {s s' : Store} {t : TreeId} (hadd : addTree t s = (.ok (), s')) :
    s'.state = s.state.after (.start t) ∧ s.Writes s' := by
  rcases addTree_writes t s with ⟨e, heq⟩ | ⟨s₁, hstate, hw, heq⟩
  · simp [hadd] at heq
  · rw [hadd, Prod.mk.injEq] at heq
    exact heq.2 ▸ ⟨hstate, hw⟩

theorem Store.Opened.writes {s s' : Store} {t : TreeId} (hs : s.Opened s' t) :
    Relation.ReflTransGen Writes s s' := by
  rcases hs with rfl | ⟨-, hadd⟩
  · exact .refl
  · exact .single (writes_of_addTree hadd).2

theorem Store.Opened.orderly {s s' : Store} {t : TreeId} (ho : s.Orderly) (hs : s.Opened s' t) :
    s'.Orderly :=
  ho.writesAll hs.writes

/-- A copy that has been created is empty and has a single pending generation. -/
theorem Store.Opened.cases {s s' : Store} {t : TreeId} (hs : s.Opened s' t) :
    s' = s ∨ s.state.trees[t]? = none ∧
      s'.state = s.state.setTree t (.start (.empty t)) := by
  rcases hs with rfl | ⟨hno, hadd⟩
  · exact .inl rfl
  · have ht : s.state.Admits (.start t) := admits_start (by simp [hno])
    exact .inr ⟨ht, (writes_of_addTree hadd).1⟩

theorem Store.Opened.isCommitted_iff {s s' : Store} {t : TreeId} (hs : s.Opened s' t) (g : Nat) :
    s'.state.IsCommitted t g ↔ s.state.IsCommitted t g := by
  rcases hs.cases with rfl | ⟨hno, hstate⟩
  · rfl
  · rw [hstate, State.isCommitted_of_tree (by rw [State.getElem?_setTree, if_pos rfl])]
    simp [State.IsCommitted, State.root?, hno, History.start, Root.empty, List.getElem?_singleton]

namespace Replica

/-- What has been learned fits a copy and was stated by a server. -/
structure Survey.Fits (v : Survey) (peer : Peer) (sent sent' : List String) (s : Store)
    (t : TreeId) : Prop where
  copy : ∃ h, s.servedTree t = .ok h ∧ h.latest.generation = v.first ∧
    h.Known peer sent sent' t v.known
  first_le : v.first ≤ v.last
  operations : ∃ asked, sent <+: asked ∧
    sent' = asked ++ [(Request.operations t v.first v.last).text] ∧
    peer.answer asked (.operations t v.first v.last) readOperations = .ok v.operations

theorem Survey.Fits.mono {v : Survey} {peer : Peer} {sent sent' sent₁ : List String} {s : Store}
    {t : TreeId} (hv : v.Fits peer sent sent' s t) (hsent : sent₁ <+: sent) :
    v.Fits peer sent₁ sent' s t where
  copy := by
    obtain ⟨h, hs, hfirst, hk⟩ := hv.copy
    exact ⟨h, hs, hfirst, hk.mono hsent (List.prefix_refl _)⟩
  first_le := hv.first_le
  operations := by
    obtain ⟨asked, hasked, hrest⟩ := hv.operations
    exact ⟨asked, hsent.trans hasked, hrest⟩

variable {peer : Peer} {c : Session} {t : TreeId} {root : Hash} {h : History}

theorem openCopy_eq (t : TreeId) (peer : Peer) (c : Session) :
    openCopy t peer c =
      match if c.store.hasTree t then (.ok (), c.store) else Store.addTree t c.store with
      | (.error e, store) => (.error e, { c with store })
      | (.ok _, store) => ((store.latestRoot t).map Root.generation, { c with store }) := by
  simp only [openCopy, bind, Exchange.andThen, Exchange.look]
  split
  · simp only [Exchange.andThen, Exchange.locally, Action.read]
    cases c.store.latestRoot t <;> rfl
  · simp only [Exchange.andThen, Exchange.locally, Action.read]
    obtain ⟨_ | _, s⟩ := Store.addTree t c.store
    · rfl
    · cases hr : s.latestRoot t <;> simp [hr, pure, Exchange.done, Except.map]

/-- A copy that is served is found or created, or else nothing more happens. -/
theorem openCopy_cases (t : TreeId) (peer : Peer) (c : Session) :
    ∃ s, c.store.Opened s t ∧
      ((∃ e, openCopy t peer c = (.error e, { c with store := s })) ∨
        ∃ h, s.servedTree t = .ok h ∧
          openCopy t peer c = (.ok h.latest.generation, { c with store := s })) := by
  rw [openCopy_eq]
  obtain ⟨result, s, heq, hopened⟩ : ∃ result s,
      (if c.store.hasTree t then (.ok (), c.store) else Store.addTree t c.store) = (result, s) ∧
        c.store.Opened s t := by
    cases ht : c.store.hasTree t with
    | true => exact ⟨.ok (), c.store, rfl, .inl rfl⟩
    | false =>
        rcases Store.addTree_writes t c.store with ⟨e, hadd⟩ | ⟨s, -, -, hadd⟩
        · exact ⟨.error e, c.store, hadd, .inl rfl⟩
        · exact ⟨.ok (), s, hadd, .inr ⟨ht, hadd⟩⟩
  rw [heq]
  refine ⟨s, hopened, ?_⟩
  cases result with
  | error e => exact .inl ⟨e, rfl⟩
  | ok _ =>
      cases hs : s.servedTree t with
      | error e =>
          exact .inl ⟨e, by simp only [Store.latestRoot, hs, bind, Except.bind, Except.map]⟩
      | ok h => exact .inr ⟨h, rfl, by simp only [Store.latestRoot_of_servedTree hs, Except.map]⟩

/-- What is learned fits the copy, or the replica gives up. -/
theorem learn_cases (ho : c.store.Orderly) (hs : c.store.servedTree t = .ok h) (last : Nat)
    (peer : Peer) :
    ∃ sent, c.sent <+: sent ∧
      ((∃ e, learn t last h.latest.generation peer c = (.error e, { c with sent })) ∨
        ∃ v, learn t last h.latest.generation peer c = (.ok v, { c with sent }) ∧
          v.Fits peer c.sent sent c.store t) := by
  rw [learn]
  split
  · exact ⟨c.sent, List.prefix_refl _, .inl ⟨_, rfl⟩⟩
  · next hle =>
      dsimp only
      obtain ⟨sent, hsent, ⟨e, hknown⟩ | ⟨gs, hknown, hk⟩⟩ :=
        askConfirmed_cases (ho.inOrder hs) hs peer
      · exact ⟨sent, hsent, .inl ⟨e, Exchange.bind_error hknown⟩⟩
      · rw [Exchange.bind_ok hknown]
        have hlast := List.prefix_append sent
          [(Request.operations t h.latest.generation last).text]
        refine ⟨_, hsent.trans hlast, ?_⟩
        cases hos : peer.answer sent (.operations t h.latest.generation last) readOperations with
        | error e => exact .inl ⟨e, Exchange.bind_error
            ((fetchOperations_eq ..).trans (by rw [hos]; rfl))⟩
        | ok os =>
            rw [Exchange.bind_ok ((fetchOperations_eq ..).trans (by rw [hos]))]
            exact .inr ⟨_, rfl, ⟨h, hs, rfl, hk.mono (List.prefix_refl _) hlast⟩,
              Nat.not_lt.mp hle, sent, hsent, rfl, hos⟩

/-- What is asked before anything is made again fits the copy, or the replica gives up. -/
theorem survey_cases (ho : c.store.Orderly) (t : TreeId) (root : Hash) (peer : Peer) :
    ∃ s sent, c.store.Opened s t ∧ c.sent <+: sent ∧
      ((∃ e, survey t root peer c = (.error e, ⟨s, sent⟩)) ∨
        ∃ v, survey t root peer c = (.ok v, ⟨s, sent⟩) ∧ v.Fits peer c.sent sent s t) := by
  have hfirst : c.sent <+: (c.asking (.root t root)).sent := List.prefix_append _ _
  rw [survey]
  cases hanswer : peer.answer c.sent (.root t root) readRoot with
  | error e =>
      exact ⟨c.store, _, .inl rfl, hfirst, .inl ⟨e, Exchange.bind_error
        ((fetchRoot_eq ..).trans (by rw [hanswer]; rfl))⟩⟩
  | ok found =>
      rw [Exchange.bind_ok ((fetchRoot_eq ..).trans (by rw [hanswer]))]
      cases found with
      | none => exact ⟨c.store, _, .inl rfl, hfirst, .inl ⟨_, rfl⟩⟩
      | some remote =>
          dsimp only
          obtain ⟨s, hopened, ⟨e, hcopy⟩ | ⟨h, hs, hcopy⟩⟩ :=
            openCopy_cases t peer (c.asking (.root t root))
          · exact ⟨s, _, hopened, hfirst, .inl ⟨e, Exchange.bind_error hcopy⟩⟩
          · rw [Exchange.bind_ok hcopy]
            obtain ⟨sent, hsent, hlearn⟩ := learn_cases
              (c := { c.asking (.root t root) with store := s })
              (Store.Opened.orderly ho hopened) hs remote.generation peer
            refine ⟨s, sent, hopened, hfirst.trans hsent, ?_⟩
            obtain herror | ⟨v, heq, hv⟩ := hlearn
            · exact .inl herror
            · exact .inr ⟨v, heq, hv.mono hfirst⟩

/-! ## What is done with it -/

theorem mem_confirmedAfter {first g : Nat} {os : List Operation} :
    g ∈ confirmedAfter first os ↔
      ∃ o, first < g ∧ os[g - (first + 1)]? = some o ∧ o.status = .committed := by
  simp only [confirmedAfter, List.mem_filterMap]
  constructor
  · rintro ⟨⟨o, i⟩, hmem, hif⟩
    obtain ⟨hle, ho⟩ := List.mk_mem_zipIdx_iff_le_and_getElem?_sub.mp hmem
    simp only at hif
    split at hif
    · next hstatus =>
        cases hif
        exact ⟨o, hle, ho, hstatus⟩
    · cases hif
  · rintro ⟨o, hlt, ho, hstatus⟩
    exact ⟨(o, g), List.mk_mem_zipIdx_iff_le_and_getElem?_sub.mpr ⟨hlt, ho⟩, if_pos hstatus⟩

theorem pairwise_confirmedAfter (first : Nat) (os : List Operation) :
    (confirmedAfter first os).Pairwise (· < ·) := by
  induction os generalizing first with
  | nil => exact .nil
  | cons o os ih =>
      have hrest : ∀ g ∈ confirmedAfter (first + 1) os, first + 1 < g := fun g hg =>
        (mem_confirmedAfter.mp hg).choose_spec.1
      have hcons : confirmedAfter first (o :: os) =
          if o.status = .committed then (first + 1) :: confirmedAfter (first + 1) os
          else confirmedAfter (first + 1) os := by
        simp only [confirmedAfter, List.zipIdx_cons, List.filterMap_cons]
        split <;> simp_all
      rw [hcons]
      split
      · exact .cons hrest (ih _)
      · exact ih _

variable {v : Survey} {sent sent' : List String} {s s' : Store} {h' : History} {g : Nat}

theorem Survey.Fits.pairwise_confirmed (ho : s.Orderly) (hv : v.Fits peer sent sent' s t) :
    v.confirmed.Pairwise (· < ·) := by
  obtain ⟨h, hs, hfirst, hk⟩ := hv.copy
  have hlength := (ho.inOrder hs).length_roots
  refine List.pairwise_append.mpr ⟨hk.ascending, pairwise_confirmedAfter _ _, fun g hg g' hg' => ?_⟩
  obtain ⟨r, -, hr, -⟩ := hk.stated g hg
  obtain ⟨-, hlt, -⟩ := mem_confirmedAfter.mp hg'
  have := (List.getElem?_eq_some_iff.mp hr).1
  omega

/-- The operations are what a server has stated for the generations behind the last one. -/
theorem Survey.Fits.states (ho : s.Orderly) (hv : v.Fits peer sent sent' s t)
    (hs : s.servedTree t = .ok h) {i : Nat} {o : Operation} (hi : v.operations[i]? = some o) :
    peer.States sent sent' t (h.roots.length + i) o := by
  obtain ⟨k, hk, hfirst, -⟩ := hv.copy
  rw [hs, Except.ok.injEq] at hk
  subst hk
  have hlength := (ho.inOrder hs).length_roots
  obtain ⟨asked, hasked, rfl, hanswer⟩ := hv.operations
  refine ⟨asked, v.first, v.last, v.operations, hasked, List.prefix_refl _, hanswer, by omega, ?_⟩
  rwa [hlength, hfirst, Nat.add_sub_cancel_left]

/-- Every generation that is to be confirmed is there once the operations have been made
again; it is pending, and a server has confirmed an operation that leads to its root. -/
theorem Survey.Fits.exists_of_mem_confirmed (ho : s.Orderly) (hv : v.Fits peer sent sent' s t)
    (hs : s.servedTree t = .ok h) (ha : h.Appended h' v.operations) (hg : g ∈ v.confirmed) :
    ∃ r o, h'.roots[g]? = some r ∧ r.status = .pending ∧ peer.States sent sent' t g o ∧
      o.root = r.node ∧ o.status = .committed := by
  obtain ⟨k, hk, hfirst, hknown⟩ := hv.copy
  rw [hs, Except.ok.injEq] at hk
  subst hk
  rcases List.mem_append.mp hg with hg | hg
  · obtain ⟨r, o, hr, hrest⟩ := hknown.stated g hg
    exact ⟨r, o, ha.getElem?_roots_of_some hr, hrest⟩
  · obtain ⟨o, hlt, hi, hstatus⟩ := mem_confirmedAfter.mp hg
    have hlength := (ho.inOrder hs).length_roots
    have hstates := hv.states ho hs hi
    obtain ⟨r, hr, hpending, hroot⟩ := ha.exists_root hi
    have hsame : h.roots.length + (g - (v.first + 1)) = g := by omega
    rw [hsame] at hstates hr
    exact ⟨r, o, hr, hpending, hstates, hroot, hstatus⟩

/-- Operations are made again up to the first one that fails; if all of them lead to the
root, generations are confirmed and a report is given. -/
theorem conclude_cases (ho : s.Orderly) (hv : v.Fits peer sent sent' s t) (root : Hash) :
    (∃ e i, conclude t root v peer ⟨s, sent'⟩ =
        (.error e, ⟨(Store.replay t v.operations s).2, sent'⟩) ∧
      s.Replayed (Store.replay t v.operations s).2 t (v.operations.take i)) ∨
    ∃ s', conclude t root v peer ⟨s, sent'⟩ = (.ok (v.report t root), ⟨s', sent'⟩) ∧
      s.Replayed (Store.replay t v.operations s).2 t v.operations ∧
      confirmAll t v.confirmed (Store.replay t v.operations s).2 = (.ok (), s') ∧
      (Store.replay t v.operations s).2.Confirmed s' t v.confirmed ∧
      ∀ h, (Store.replay t v.operations s).2.servedTree t = .ok h → h.latest.node = some root := by
  obtain ⟨h, hs, hfirst, hk⟩ := id hv.copy
  rcases Store.replay_cases ho (Store.latestRoot_of_servedTree hs) v.operations with
    ⟨e, s', i, hreplay, hreplayed⟩ | ⟨s', hreplay, hreplayed⟩
  · rw [hreplay]
    refine .inl ⟨e, i, ?_, hreplayed⟩
    simp only [conclude, bind, Exchange.andThen, Exchange.locally, hreplay]
  · rw [hreplay]
    obtain ⟨h', hs', happended⟩ := hreplayed.servedTree hs
    rw [← happended.node_latest] at hreplay
    by_cases hroot : h'.latest.node = some root
    · have hthere : ∀ g ∈ v.confirmed, g < h'.roots.length := by
        intro g hg
        obtain ⟨r, -, hr, -⟩ := hv.exists_of_mem_confirmed ho hs happended hg
        exact (List.getElem?_eq_some_iff.mp hr).1
      obtain ⟨s'', hall, hconfirmed⟩ := Store.exists_confirmAll hreplayed.orderly hs' hthere
      have htop : ∀ k, s'.servedTree t = .ok k → k.latest.node = some root := by
        intro k hk
        rw [hs', Except.ok.injEq] at hk
        exact hk ▸ hroot
      refine .inr ⟨s'', ?_, hreplayed, hall, hconfirmed, htop⟩
      simp [conclude, bind, Exchange.andThen, Exchange.locally, hreplay, hroot, hall, pure,
        Exchange.done]
    · refine .inl ⟨.integrity (.otherRoot t root), v.operations.length, ?_, ?_⟩
      · simp [conclude, bind, Exchange.andThen, Exchange.locally, hreplay, hroot, Exchange.fail]
      · rwa [List.take_length]

/-- A replication gives up before it makes anything but the tree, or it goes on with what
it has learned. -/
theorem replicate_cases (ho : c.store.Orderly) (t : TreeId) (root : Hash) (peer : Peer) :
    ∃ s sent, c.store.Opened s t ∧ c.sent <+: sent ∧
      ((∃ e, survey t root peer c = (.error e, ⟨s, sent⟩) ∧
          replicate t root peer c = (.error e, ⟨s, sent⟩)) ∨
        ∃ v, survey t root peer c = (.ok v, ⟨s, sent⟩) ∧ v.Fits peer c.sent sent s t ∧
          replicate t root peer c = conclude t root v peer ⟨s, sent⟩) := by
  obtain ⟨s, sent, hopened, hsent, ⟨e, heq⟩ | ⟨v, heq, hv⟩⟩ := survey_cases ho t root peer
  · exact ⟨s, sent, hopened, hsent, .inl ⟨e, heq, by rw [replicate_eq, Exchange.bind_error heq]⟩⟩
  · exact ⟨s, sent, hopened, hsent, .inr ⟨v, heq, hv, by rw [replicate_eq, Exchange.bind_ok heq]⟩⟩

theorem confirmAll_writes (t : TreeId) (gs : List Nat) (s : Store) :
    Relation.ReflTransGen Store.Writes s (confirmAll t gs s).2 := by
  induction gs generalizing s with
  | nil => exact .refl
  | cons g gs ih =>
      simp only [confirmAll, bind, Action.andThen]
      rcases Store.confirm_writes t g s with ⟨e, heq⟩ | ⟨r, -, -, heq⟩ | ⟨s', -, -, hw, heq⟩
      · rw [heq]
      · rw [heq]
        exact ih s
      · rw [heq]
        exact .head hw (ih s')

/-- A replication is a row of writes to its copy. -/
theorem replicate_writes (ho : c.store.Orderly) (t : TreeId) (root : Hash) (peer : Peer) :
    Relation.ReflTransGen Store.Writes c.store (replicate t root peer c).2.store := by
  obtain ⟨s, sent, hopened, -, ⟨e, -, heq⟩ | ⟨v, -, hv, heq⟩⟩ := replicate_cases ho t root peer
  · rw [heq]
    exact hopened.writes
  · have hreplay := hopened.writes.trans
      (Store.replay_writes (hopened.orderly ho) t v.operations)
    rw [heq]
    rcases conclude_cases (hopened.orderly ho) hv root with ⟨e, i, hc, -⟩ | ⟨s', hc, -, hall, -⟩
    · rw [hc]
      exact hreplay
    · rw [hc]
      have hconfirm := confirmAll_writes t v.confirmed (Store.replay t v.operations s).2
      rw [hall] at hconfirm
      exact hreplay.trans hconfirm

end Replica

end MerkleStore
