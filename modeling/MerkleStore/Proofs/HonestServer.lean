import MerkleStore.Proofs.Replication
import MerkleStore.Proofs.WireCodec

/-!
# Replicating from a server that keeps to the rules

What a replica reads in the answers of an honest server is what the store of the server
gives: the last root with a hash (`answer_root_eq_ok`) and the operations between two
generations (`answer_operations_eq_ok`), as long as their numbers fit sixty-four bits. So
what is learned from it depends on two histories alone, that of the copy and that of the
server (`Replica.Survey.Learned`).
-/

namespace MerkleStore

/-- The parts of an exchange that goes through go through. -/
theorem Exchange.bind_eq_ok {α β : Type} {x : Exchange α} {f : α → Exchange β} {peer : Peer}
    {c c' : Session} {b : β} (h : (x >>= f) peer c = (.ok b, c')) :
    ∃ a c₁, x peer c = (.ok a, c₁) ∧ f a peer c₁ = (.ok b, c') := by
  simp only [bind, andThen] at h
  split at h
  · next a c₁ hx => exact ⟨a, c₁, hx, h⟩
  · cases h

/-! ## Answers -/

namespace Peer

variable {S : Store} {sent : List String} {t : TreeId} {h : Hash} {r : Root} {α : Type}
  {request : Request} {first last : Nat} {os : List Operation}

/-- What is read in the answer to a request that is understood. -/
theorem answer_honest (hparse : Request.parse request.text = .ok request)
    (hclose : request ≠ .close) (read : String → Except Error α) :
    (honest S).answer sent request read =
      match Server.reply S request with
      | .ok text => read text
      | .error _ => .error (.connection .dropped) := by
  cases hreply : Server.reply S request with
  | ok text =>
      have hreact : Server.react S none (.text request.text) = .answer text := by
        cases request <;> simp_all [Server.react]
      simp only [answer, honest, List.getLast?_concat, hreact]
      rfl
  | error e =>
      have hreact : ∃ e', Server.react S none (.text request.text) = .drop e' := by
        cases request <;> cases e <;> simp_all [Server.react]
      obtain ⟨e', he'⟩ := hreact
      simp only [answer, honest, List.getLast?_concat, he']
      rfl

/-- A request that is not understood ends the conversation. -/
theorem answer_honest_of_refused {e : Error} (hparse : Request.parse request.text = .error e)
    (read : String → Except Error α) :
    (honest S).answer sent request read = .error (.connection .dropped) := by
  have hreact : Server.react S none (.text request.text) = .drop e := by
    simp [Server.react, hparse]
  simp only [answer, honest, List.getLast?_concat, hreact]
  rfl

theorem node_of_lastRootWith {node : Option Hash} (hr : S.lastRootWith t node = .ok (some r)) :
    r.node = node := by
  simp only [Store.lastRootWith, bind, Except.bind] at hr
  split at hr
  · cases hr
  · simp only [pure, Except.pure, Except.ok.injEq] at hr
    simpa using List.find?_some hr

/-- A root that is known to a server is read in its answer if its generation fits
sixty-four bits, and no other root ever is. -/
theorem answer_root_eq_ok :
    (honest S).answer sent (.root t h) Replica.readRoot = .ok (some r) ↔
      S.lastRootWith t (some h) = .ok (some r) ∧ r.generation < Json.wordBound := by
  have hunknown : Replica.readRoot Wire.RootReply.unknown.text = .ok none := by
    simp only [Replica.readRoot, Wire.RootReply.parse_text (a := .unknown) (by simp), bind,
      Except.bind]
    rfl
  rw [answer_honest (Request.parse_text_root t h) (by simp), Server.reply]
  cases hlast : S.lastRootWith t (some h) with
  | error e => cases e <;> simp [hunknown]
  | ok found =>
      cases found with
      | none => simp [Wire.RootReply.ofRoot, hunknown]
      | some r' =>
          obtain ⟨t', g, node, s⟩ := r'
          obtain rfl : node = some h := node_of_lastRootWith hlast
          simp only [Wire.RootReply.ofRoot, Except.ok.injEq, Option.some.injEq]
          by_cases hg : g < Json.wordBound
          · have hparse := Wire.RootReply.parse_text (a := .known t' g h s)
              fun _ _ _ _ heq => by cases heq; exact hg
            simp only [Replica.readRoot, hparse, bind, Except.bind, pure, Except.pure,
              Wire.RootReply.toRoot?, Except.ok.injEq, Option.some.injEq]
            refine ⟨fun heq => ⟨heq, ?_⟩, fun hr => hr.1⟩
            cases heq
            exact hg
          · constructor
            case mpr =>
              rintro ⟨rfl, hlt⟩
              exact absurd hlt hg
            intro heq
            rcases Wire.RootReply.parse_text_unfit (t := t') (h := h) (s := s) (Nat.not_lt.mp hg)
              with hparse | ⟨e, hparse⟩ <;>
              simp [Replica.readRoot, hparse, bind, Except.bind, pure, Except.pure,
                Wire.RootReply.toRoot?] at heq

/-- The operations a server has between two generations are read in its answer. -/
theorem answer_operations_eq_ok :
    (honest S).answer sent (.operations t first last) Replica.readOperations = .ok os ↔
      first < Json.wordBound ∧ last < Json.wordBound ∧ S.operations t first last = .ok os := by
  have hparse := Request.parse_text_operations t first last
  split at hparse
  · next hfits =>
      rw [answer_honest hparse (by simp), Server.reply]
      cases hos : S.operations t first last with
      | error e => simp [bind, Except.bind]
      | ok os' =>
          simp only [bind, Except.bind, pure, Except.pure, Replica.readOperations,
            Wire.OperationItem.parseList_listText, Wire.OperationItem.mapM_toOperation, hfits,
            true_and]
  · next hfits =>
      obtain ⟨e, he⟩ := hparse
      rw [answer_honest_of_refused he]
      simp only [reduceCtorEq, false_iff]
      rintro ⟨hfirst, hlast, -⟩
      exact hfits ⟨hfirst, hlast⟩

end Peer

/-! ## Operations between two generations -/

/-- Operations are those between two generations of a history: each leads to the root of
its generation and has its status. -/
structure History.Gives (H : History) (first last : Nat) (os : List Operation) : Prop where
  length : os.length = last - first
  entry : ∀ (i : Nat) (o : Operation), os[i]? = some o →
    ∃ r, H.roots[first + 1 + i]? = some r ∧ o.root = r.node ∧ o.status = r.status

namespace Operation

@[simp] theorem root_withStatus (o : Operation) (s : Status) : (o.withStatus s).root = o.root := by
  cases o <;> rfl

@[simp] theorem status_withStatus (o : Operation) (s : Status) : (o.withStatus s).status = s := by
  cases o <;> rfl

end Operation

namespace Store

variable {S : Store} {H : History} {t : TreeId} {first last : Nat} {os : List Operation}

/-- The operations of a tree are given between two of its generations. -/
theorem operations_eq_ok (ho : H.InOrder t) (hS : S.servedTree t = .ok H) :
    S.operations t first last = .ok os ↔ first ≤ last ∧ last ≤ H.latest.generation ∧
      os = ((H.operations.take last).drop first).zipWith (fun o r => o.withStatus r.status)
        ((H.roots.take (last + 1)).drop (first + 1)) := by
  have hlatest := ho.generation_latest
  simp only [operations, hS, bind, Except.bind]
  by_cases hrange : last < first ∨ H.latest.generation < last
  · simp only [if_pos hrange, throw, throwThe, MonadExceptOf.throw, reduceCtorEq, false_iff]
    omega
  · rw [if_neg hrange, if_neg (by omega)]
    simp only [pure, Except.pure, Except.ok.injEq]
    exact ⟨fun h => ⟨by omega, by omega, h.symm⟩, fun h => h.2.2.symm⟩

theorem gives_of_operations (ho : S.Orderly) (hS : S.servedTree t = .ok H)
    (hos : S.operations t first last = .ok os) : H.Gives first last os := by
  have horder := ho.inOrder hS
  obtain ⟨hle, hlast, rfl⟩ := (operations_eq_ok horder hS).mp hos
  have hlogged := (ho.state.trees t H (tree_of_servedTree hS)).logged
  have hlatest := horder.generation_latest
  have hroots := horder.length_roots
  constructor
  · simp
    omega
  · intro i o hi
    obtain ⟨o', r, ho', hr, rfl⟩ := List.getElem?_zipWith_eq_some.mp hi
    rw [List.getElem?_drop, List.getElem?_take, Option.ite_none_right_eq_some] at ho' hr
    refine ⟨r, hr.2, ?_, Operation.status_withStatus _ _⟩
    have hnode := congrArg (·[first + i]?) hlogged
    simp only [List.getElem?_map, ho'.2, List.getElem?_tail, Option.map_some] at hnode
    rw [show first + i + 1 = first + 1 + i by omega, hr.2, Option.map_some,
      Option.some.injEq] at hnode
    exact (Operation.root_withStatus _ _).trans hnode

end Store

/-! ## What is compared -/

namespace Replica

variable {peer : Peer} {c : Session} {t : TreeId} {h : History} {rs : List Root}
  {os : List Operation}

/-- A comparison goes through where every root is that of its operation. -/
theorem exists_compareHistory (hroots : ∀ p ∈ rs.zip os, p.2.root = p.1.node) :
    ∃ gs, compareHistory t rs os = .ok gs := by
  induction rs generalizing os with
  | nil => exact ⟨[], rfl⟩
  | cons r rs ih =>
      cases os with
      | nil => exact ⟨[], rfl⟩
      | cons o os =>
          obtain ⟨gs, hgs⟩ := ih fun p hp => hroots p (List.mem_cons_of_mem _ hp)
          have hroot : o.root = r.node := hroots (r, o) List.mem_cons_self
          rw [compareHistory, if_neg (by simpa using hroot)]
          simp only [hgs]
          exact ⟨_, rfl⟩

variable {S : Store} {H : History} {gs : List Nat} {c' : Session}

/-- Where a copy is compared with the history of a server they have the same nodes, and
`gs` are the pending generations of the copy that the server has confirmed. -/
structure Agrees (h H : History) (gs : List Nat) : Prop where
  nodes : ∀ g, 0 < g → h.comparedFrom ≤ g → g < h.roots.length →
    ∃ r R, h.roots[g]? = some r ∧ H.roots[g]? = some R ∧ R.node = r.node
  known : ∀ g, g ∈ gs ↔ 0 < g ∧ ∃ r R, h.roots[g]? = some r ∧ H.roots[g]? = some R ∧
    r.status = .pending ∧ R.status = .committed

/-- A copy that has only its first generation is not compared. -/
theorem agrees_nil (hlength : h.roots.length = 1) : Agrees h H [] where
  nodes := by omega
  known := by
    intro g
    simp only [List.not_mem_nil, false_iff, not_and, not_exists]
    intro hg r R hr
    have := (List.getElem?_eq_some_iff.mp hr).1
    omega

/-- A comparison with what a server gives compares with its history. -/
theorem agrees_of_compareHistory (ho : h.InOrder t) (hlatest : 0 < h.latest.generation)
    (hg : H.Gives (h.comparedFrom - 1) h.latest.generation os)
    (hc : compareHistory t (h.roots.drop h.comparedFrom) os = .ok gs) : Agrees h H gs := by
  have hpos := h.comparedFrom_pos ho hlatest
  have hle := h.comparedFrom_le_latest ho
  have hlength := ho.length_roots
  have hcount := hg.length
  obtain ⟨hroots, rfl⟩ := compareHistory_eq_ok hc
  -- the pair at place `i` is about generation `h.comparedFrom + i`
  have hpair (i : Nat) (hi : h.comparedFrom + i < h.roots.length) :
      ∃ r o R, h.roots[h.comparedFrom + i]? = some r ∧ H.roots[h.comparedFrom + i]? = some R ∧
        ((h.roots.drop h.comparedFrom).zip os)[i]? = some (r, o) ∧ o.root = R.node ∧
        o.status = R.status := by
    have hr : (h.roots.drop h.comparedFrom)[i]? = some h.roots[h.comparedFrom + i] := by
      rw [List.getElem?_drop, List.getElem?_eq_getElem hi]
    obtain ⟨o, ho'⟩ : ∃ o, os[i]? = some o :=
      ⟨_, List.getElem?_eq_getElem (by omega)⟩
    obtain ⟨R, hR, hroot, hstatus⟩ := hg.entry i o ho'
    rw [Nat.sub_add_cancel hpos] at hR
    exact ⟨_, o, R, List.getElem?_eq_getElem hi, hR,
      List.getElem?_zip_eq_some.mpr ⟨hr, ho'⟩, hroot, hstatus⟩
  constructor
  · intro g hg hfrom hlt
    obtain ⟨i, rfl⟩ := Nat.exists_eq_add_of_le hfrom
    obtain ⟨r, o, R, hr, hR, hzip, hroot, -⟩ := hpair i hlt
    exact ⟨r, R, hr, hR, hroot.symm.trans (hroots _ (List.mem_of_getElem? hzip))⟩
  · intro g
    simp only [List.mem_map, List.mem_filter, decide_eq_true_eq]
    constructor
    · rintro ⟨⟨r, o⟩, ⟨hmem, hpending, hcommitted⟩, rfl⟩
      obtain ⟨i, hi⟩ := List.mem_iff_getElem?.mp hmem
      have hri := (List.getElem?_zip_eq_some.mp hi).1
      rw [List.getElem?_drop] at hri
      obtain ⟨r', o', R, hr, hR, hzip, -, hstatus⟩ :=
        hpair i (List.getElem?_eq_some_iff.mp hri).1
      rw [hi, Option.some.injEq, Prod.mk.injEq] at hzip
      obtain ⟨rfl, rfl⟩ := hzip
      rw [(ho.root _ r hr).2]
      exact ⟨by omega, r, R, hr, hR, hpending, hstatus ▸ hcommitted⟩
    · rintro ⟨hg, r, R, hr, hR, hpending, hcommitted⟩
      obtain ⟨i, rfl⟩ := Nat.exists_eq_add_of_le (h.comparedFrom_le ho hg hr hpending)
      obtain ⟨r', o, R', hr', hR', hzip, -, hstatus⟩ :=
        hpair i (List.getElem?_eq_some_iff.mp hr).1
      rw [hr, Option.some.injEq] at hr'
      rw [hR, Option.some.injEq] at hR'
      subst hr' hR'
      exact ⟨(r, o), ⟨List.mem_of_getElem? hzip, hpending, hstatus.trans hcommitted⟩,
        (ho.root _ r hr).2⟩

theorem agrees_of_askConfirmed (ho : h.InOrder t) (hs : c.store.servedTree t = .ok h)
    (hSo : S.Orderly) (hS : S.servedTree t = .ok H)
    (hask : askConfirmed t h.latest.generation (.honest S) c = (.ok gs, c')) :
    Agrees h H gs := by
  rw [askConfirmed] at hask
  split at hask
  · next hlatest =>
      rw [catchUp_eq ho hlatest hs, compareBehind_eq, Prod.mk.injEq] at hask
      obtain ⟨os, hanswer, hcompare⟩ := bind_eq_ok.mp hask.1
      split at hcompare
      · have hos := (Peer.answer_operations_eq_ok.mp hanswer).2.2
        exact agrees_of_compareHistory ho hlatest (Store.gives_of_operations hSo hS hos) hcompare
      · cases hcompare
  · next hlatest =>
      cases hask
      exact agrees_nil (by have := ho.length_roots; omega)

/-- A copy that has the nodes of a server where it is compared is compared with success. -/
theorem exists_askConfirmed (ho : h.InOrder t) (hs : c.store.servedTree t = .ok h)
    (hSo : S.Orderly) (hS : S.servedTree t = .ok H)
    (hle : h.latest.generation ≤ H.latest.generation)
    (hfits : h.latest.generation < Json.wordBound)
    (hnodes : ∀ (g : Nat) (r R : Root), h.comparedFrom ≤ g → h.roots[g]? = some r →
      H.roots[g]? = some R → R.node = r.node) :
    ∃ gs sent, askConfirmed t h.latest.generation (.honest S) c = (.ok gs, { c with sent }) := by
  rw [askConfirmed]
  split
  · next hlatest =>
      have hfrom := h.comparedFrom_le_latest ho
      have hpos := h.comparedFrom_pos ho hlatest
      obtain ⟨os, hos⟩ : ∃ os,
          S.operations t (h.comparedFrom - 1) h.latest.generation = .ok os :=
        ⟨_, (Store.operations_eq_ok (hSo.inOrder hS) hS).mpr ⟨by omega, hle, rfl⟩⟩
      have hgives := Store.gives_of_operations hSo hS hos
      have hcount : os.length = (h.roots.drop h.comparedFrom).length := by
        have := hgives.length
        have := ho.length_roots
        rw [List.length_drop]
        omega
      obtain ⟨gs, hgs⟩ : ∃ gs, compareHistory t (h.roots.drop h.comparedFrom) os = .ok gs :=
        exists_compareHistory <| by
          rintro ⟨r, o⟩ hp
          obtain ⟨i, hi⟩ := List.mem_iff_getElem?.mp hp
          obtain ⟨hr, ho'⟩ := List.getElem?_zip_eq_some.mp hi
          obtain ⟨R, hR, hroot, -⟩ := hgives.entry i o ho'
          rw [List.getElem?_drop] at hr
          rw [Nat.sub_add_cancel hpos] at hR
          exact hroot.trans (hnodes _ r R (Nat.le_add_right _ _) hr hR)
      refine ⟨gs, (c.asking (.operations t (h.comparedFrom - 1) h.latest.generation)).sent,
        (catchUp_eq ho hlatest hs _).trans ?_⟩
      rw [compareBehind_eq, Peer.answer_operations_eq_ok.mpr ⟨by omega, hfits, hos⟩, Except.bind,
        if_pos hcount, hgs]
      rfl
  · exact ⟨[], c.sent, rfl⟩

/-! ## What is learned -/

/-- What is learned from a server with a store about a copy with a history. -/
structure Survey.Learned (v : Survey) (S : Store) (t : TreeId) (root : Hash) (h H : History) :
    Prop where
  served : S.servedTree t = .ok H
  remote : ∃ r, S.lastRootWith t (some root) = .ok (some r) ∧ r.generation = v.last
  fits : v.last < Json.wordBound
  first : v.first = h.latest.generation
  first_le : v.first ≤ v.last
  operations : S.operations t v.first v.last = .ok v.operations
  agrees : Agrees h H v.known

theorem servedTree_of_lastRootWith {node : Option Hash} {r : Option Root}
    (hr : S.lastRootWith t node = .ok r) : ∃ H, S.servedTree t = .ok H := by
  cases hS : S.servedTree t with
  | error e => simp [Store.lastRootWith, hS, bind, Except.bind] at hr
  | ok H => exact ⟨H, rfl⟩

variable {root : Hash} {v : Survey} {s : Store} {sent : List String}

/-- Whatever is learned from an honest server is about its history. -/
theorem learned_of_survey (ho : c.store.Orderly) (hSo : S.Orderly)
    (hsurvey : survey t root (.honest S) c = (.ok v, c')) :
    ∃ h H, c.store.Opened c'.store t ∧ c'.store.servedTree t = .ok h ∧
      v.Learned S t root h H := by
  rw [survey] at hsurvey
  obtain ⟨_ | remote, c₁, hremote, hsurvey⟩ := Exchange.bind_eq_ok hsurvey
  · cases hsurvey
  · rw [fetchRoot_eq, Prod.mk.injEq] at hremote
    obtain ⟨hanswer, rfl⟩ := hremote
    obtain ⟨hlast, hfits⟩ := Peer.answer_root_eq_ok.mp hanswer
    obtain ⟨H, hS⟩ := servedTree_of_lastRootWith hlast
    obtain ⟨first, c₂, hopen, hlearn⟩ := Exchange.bind_eq_ok hsurvey
    obtain ⟨s, hopened, ⟨e, hcopy⟩ | ⟨h, hs, hcopy⟩⟩ :=
      openCopy_cases t (.honest S) (c.asking (.root t root))
    · rw [hopen] at hcopy
      cases hcopy
    · rw [hopen, Prod.mk.injEq, Except.ok.injEq] at hcopy
      obtain ⟨rfl, rfl⟩ := hcopy
      have horder : h.InOrder t := (Store.Opened.orderly ho hopened).inOrder hs
      rw [learn] at hlearn
      split at hlearn
      · cases hlearn
      · next hle =>
          obtain ⟨gs, c₃, hknown, hrest⟩ := Exchange.bind_eq_ok hlearn
          obtain ⟨os, c₄, hos, hv⟩ := Exchange.bind_eq_ok hrest
          obtain ⟨sent, -, ⟨e, hcases⟩ | ⟨gs', hcases, -⟩⟩ :=
            askConfirmed_cases (c := { c.asking (.root t root) with store := s }) horder hs
              (.honest S)
          · rw [hknown] at hcases
            cases hcases
          · rw [hknown, Prod.mk.injEq, Except.ok.injEq] at hcases
            obtain ⟨rfl, rfl⟩ := hcases
            rw [fetchOperations_eq, Prod.mk.injEq] at hos
            obtain ⟨hos, rfl⟩ := hos
            cases hv
            exact ⟨h, H, hopened, hs, hS, ⟨remote, hlast, rfl⟩, hfits, rfl, Nat.not_lt.mp hle,
              (Peer.answer_operations_eq_ok.mp hos).2.2,
              agrees_of_askConfirmed horder hs hSo hS hknown⟩

theorem openCopy_of_opened (hopened : c.store.Opened s t) (hs : s.servedTree t = .ok h)
    (peer : Peer) :
    openCopy t peer c = (.ok h.latest.generation, { c with store := s }) := by
  rw [openCopy_eq]
  rcases hopened with rfl | ⟨hno, hadd⟩
  · rw [if_pos (Store.hasTree_iff.mpr ⟨h, Store.tree_of_servedTree hs⟩)]
    simp only [Store.latestRoot_of_servedTree hs, Except.map]
  · rw [hno, if_neg (by simp), hadd]
    simp only [Store.latestRoot_of_servedTree hs, Except.map]

theorem generation_le_latest {node : Option Hash} {r : Root} (hSo : S.Orderly)
    (hS : S.servedTree t = .ok H) (hr : S.lastRootWith t node = .ok (some r)) :
    r.generation ≤ H.latest.generation ∧ H.roots[r.generation]? = some r := by
  have horder := hSo.inOrder hS
  simp only [Store.lastRootWith, hS, bind, Except.bind, pure, Except.pure, Except.ok.injEq] at hr
  obtain ⟨i, hi⟩ := List.mem_iff_getElem?.mp
    (List.mem_reverse.mp (List.mem_of_find?_eq_some hr))
  have hlt := (List.getElem?_eq_some_iff.mp hi).1
  have hlength := horder.length_roots
  rw [(horder.root i r hi).2]
  exact ⟨by omega, hi⟩

/-- From an honest server a copy that is not ahead of it learns what it needs, if the two
have the same nodes where they are compared. -/
theorem exists_survey {remote : Root} (ho : c.store.Orderly) (hSo : S.Orderly)
    (hS : S.servedTree t = .ok H) (hremote : S.lastRootWith t (some root) = .ok (some remote))
    (hfits : remote.generation < Json.wordBound) (hopened : c.store.Opened s t)
    (hs : s.servedTree t = .ok h) (hle : h.latest.generation ≤ remote.generation)
    (hnodes : ∀ (g : Nat) (r R : Root), h.comparedFrom ≤ g → h.roots[g]? = some r →
      H.roots[g]? = some R → R.node = r.node) :
    ∃ v sent, survey t root (.honest S) c = (.ok v, ⟨s, sent⟩) := by
  have hlatest := (generation_le_latest hSo hS hremote).1
  have hanswer : (Peer.honest S).answer c.sent (.root t root) readRoot = .ok (some remote) :=
    Peer.answer_root_eq_ok.mpr ⟨hremote, hfits⟩
  obtain ⟨gs, sent, hknown⟩ := exists_askConfirmed (c := ⟨s, (c.asking (.root t root)).sent⟩)
    ((hopened.orderly ho).inOrder hs) hs hSo hS (Nat.le_trans hle hlatest) (by omega) hnodes
  obtain ⟨os, hos⟩ : ∃ os, S.operations t h.latest.generation remote.generation = .ok os :=
    ⟨_, (Store.operations_eq_ok (hSo.inOrder hS) hS).mpr ⟨hle, hlatest, rfl⟩⟩
  have hfetch := fetchOperations_eq t h.latest.generation remote.generation (.honest S) ⟨s, sent⟩
  rw [Peer.answer_operations_eq_ok.mpr ⟨by omega, hfits, hos⟩] at hfetch
  refine ⟨⟨h.latest.generation, remote.generation, gs, os⟩,
    sent ++ [(Request.operations t h.latest.generation remote.generation).text], ?_⟩
  rw [survey, Exchange.bind_ok ((fetchRoot_eq ..).trans (by rw [hanswer]))]
  dsimp only
  rw [Exchange.bind_ok (openCopy_of_opened (c := c.asking (.root t root)) hopened hs _), learn,
    if_neg (Nat.not_lt.mpr hle)]
  dsimp only
  rw [Exchange.bind_ok hknown, Exchange.bind_ok hfetch]
  rfl

/-- What is learned then is about the history of the copy and that of the server. -/
theorem exists_learned {remote : Root} (ho : c.store.Orderly) (hSo : S.Orderly)
    (hS : S.servedTree t = .ok H) (hremote : S.lastRootWith t (some root) = .ok (some remote))
    (hfits : remote.generation < Json.wordBound) (hopened : c.store.Opened s t)
    (hs : s.servedTree t = .ok h) (hle : h.latest.generation ≤ remote.generation)
    (hnodes : ∀ (g : Nat) (r R : Root), h.comparedFrom ≤ g → h.roots[g]? = some r →
      H.roots[g]? = some R → R.node = r.node) :
    ∃ v sent, survey t root (.honest S) c = (.ok v, ⟨s, sent⟩) ∧ v.Learned S t root h H ∧
      v.last = remote.generation := by
  obtain ⟨v, sent, hsurvey⟩ := exists_survey ho hSo hS hremote hfits hopened hs hle hnodes
  obtain ⟨h', H', -, hs', hv⟩ := learned_of_survey ho hSo hsurvey
  obtain rfl : h = h' := Except.ok.inj (hs.symm.trans hs')
  obtain rfl : H = H' := Except.ok.inj (hS.symm.trans hv.served)
  obtain ⟨r, hr, hlast⟩ := hv.remote
  obtain rfl : remote = r := Option.some.inj (Except.ok.inj (hremote.symm.trans hr))
  exact ⟨v, sent, hsurvey, hv, hlast.symm⟩

/-- If the operations that were learned lead to the root, a replication goes through. -/
theorem exists_conclude {sent' : List String} {s₁ : Store} (ho : s.Orderly)
    (hv : v.Fits peer sent sent' s t)
    (hreplay : Store.replay t v.operations s = (.ok (some root), s₁)) :
    ∃ s', conclude t root v peer ⟨s, sent'⟩ = (.ok (v.report t root), ⟨s', sent'⟩) := by
  obtain ⟨h, hs, -⟩ := id hv.copy
  rcases Store.replay_cases ho (Store.latestRoot_of_servedTree hs) v.operations with
    ⟨e, s', i, heq, -⟩ | ⟨s', heq, hreplayed⟩
  · rw [hreplay] at heq
    cases heq
  · obtain rfl : s₁ = s' := by
      rw [hreplay, Prod.mk.injEq] at heq
      exact heq.2
    obtain ⟨h', hs', happended⟩ := hreplayed.servedTree hs
    have hthere : ∀ g ∈ v.confirmed, g < h'.roots.length := by
      intro g hg
      obtain ⟨r, -, hr, -⟩ := hv.exists_of_mem_confirmed ho hs happended hg
      exact (List.getElem?_eq_some_iff.mp hr).1
    obtain ⟨s'', hall, -⟩ := Store.exists_confirmAll hreplayed.orderly hs' hthere
    refine ⟨s'', ?_⟩
    simp [conclude, bind, Exchange.andThen, Exchange.locally, hreplay, hall, pure, Exchange.done]

/-- A replication from an honest server goes through if the copy has the nodes of the server
where they are compared and the operations of the server lead to the root. -/
theorem exists_replicate {remote : Root} (ho : c.store.Orderly) (hSo : S.Orderly)
    (hS : S.servedTree t = .ok H) (hremote : S.lastRootWith t (some root) = .ok (some remote))
    (hfits : remote.generation < Json.wordBound) (hopened : c.store.Opened s t)
    (hs : s.servedTree t = .ok h) (hle : h.latest.generation ≤ remote.generation)
    (hnodes : ∀ (g : Nat) (r R : Root), h.comparedFrom ≤ g → h.roots[g]? = some r →
      H.roots[g]? = some R → R.node = r.node)
    (hreplay : ∀ os, S.operations t h.latest.generation remote.generation = .ok os →
      (Store.replay t os s).1 = .ok (some root)) :
    ∃ report c', replicate t root (.honest S) c = (.ok report, c') ∧
      report.first = h.latest.generation ∧ report.last = remote.generation := by
  obtain ⟨v, sent, hsurvey, hv, hlast⟩ :=
    exists_learned ho hSo hS hremote hfits hopened hs hle hnodes
  have hoperations := hv.operations
  rw [hv.first, hlast] at hoperations
  have hroot := hreplay _ hoperations
  obtain ⟨s', sent', -, -, ⟨e, heq, -⟩ | ⟨v', heq, hfitsCopy, hreplicate⟩⟩ :=
    replicate_cases ho t root (.honest S)
  · rw [hsurvey] at heq
    cases heq
  · rw [hsurvey, Prod.mk.injEq, Except.ok.injEq, Session.mk.injEq] at heq
    obtain ⟨rfl, rfl, rfl⟩ := heq
    have hreached : Store.replay t v.operations s =
        (.ok (some root), (Store.replay t v.operations s).2) := Prod.ext hroot rfl
    obtain ⟨s'', hconclude⟩ := exists_conclude (hopened.orderly ho) hfitsCopy hreached
    exact ⟨_, _, hreplicate.trans hconclude, hv.first, hlast⟩

end Replica

end MerkleStore
