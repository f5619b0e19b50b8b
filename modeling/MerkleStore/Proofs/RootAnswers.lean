import MerkleStore.Proofs.Replication
import MerkleStore.Proofs.WireCodec

/-!
# What an answer says about a root

A question for a root is answered by an object. It describes a root if its members of the four
names are what they should be, whatever else it holds (`Wire.Describes`), and then this root is
what a replica reads from it. From every other object the replica reads that the server has no
such root, and only what is no object at all is an error (`Replica.fetchRoot_exact`). The empty
object, by which a server says that it has no root, is therefore not the only one that is read so.
An answer with one field that is damaged or left out is taken for it
(`Replica.damaged_root_taken`).
-/

namespace MerkleStore

namespace Wire

open Json

/-! ## Fields -/

section Fields

variable {members : List (String × Value)} {name : String}

/-- A field that is written as a text is read from the one member of its name. -/
theorem field?_eq_some_iff_of_text {α : Type} {read : Value → Option α} {p : String → Prop}
    {a : α} (hread : ∀ v, read v = some a ↔ ∃ text, v = .text text ∧ p text) :
    field? members name read = some a ↔
      ∃ text, Value.only? members name = some (.text text) ∧ p text := by
  simp only [field?, bind, Option.bind_eq_some_iff, hread]
  constructor
  · rintro ⟨v, hv, text, rfl, ha⟩
    exact ⟨text, hv, ha⟩
  · rintro ⟨text, hv, ha⟩
    exact ⟨_, hv, text, rfl, ha⟩

theorem field?_tree_eq_some_iff {t : TreeId} :
    field? members name (fun v => (treeOf v).toOption) = some t ↔
      ∃ text, Value.only? members name = some (.text text) ∧ TreeId.ofHex text = .ok t := by
  refine field?_eq_some_iff_of_text fun v => ?_
  cases v with
  | text s =>
      cases hread : TreeId.ofHex s <;>
        simp [treeOf, Value.asText, bind, Except.bind, pure, Except.pure, throw, Except.toOption,
          hread]
  | _ => simp [treeOf, Value.asText, bind, Except.bind, Except.toOption]

theorem field?_hash_eq_some_iff {h : Hash} :
    field? members name (fun v => (hashOf v).toOption) = some h ↔
      ∃ text, Value.only? members name = some (.text text) ∧ Hash.ofHex text = .ok h := by
  refine field?_eq_some_iff_of_text fun v => ?_
  cases v with
  | text s =>
      cases hread : Hash.ofHex s <;>
        simp [hashOf, Value.asText, bind, Except.bind, pure, Except.pure, throw, Except.toOption,
          hread]
  | _ => simp [hashOf, Value.asText, bind, Except.bind, Except.toOption]

theorem field?_status_eq_some_iff {s : Status} :
    field? members name statusOf? = some s ↔
      ∃ text, Value.only? members name = some (.text text) ∧ Status.ofName? text = some s := by
  refine field?_eq_some_iff_of_text fun v => ?_
  cases v <;> simp [statusOf?, Value.text?]

theorem field?_natural_eq_some_iff {n : Nat} :
    field? members name Value.natural? = some n ↔ Value.only? members name = some (.natural n) := by
  have hnatural (v : Value) : v.natural? = some n ↔ v = .natural n := by
    constructor
    · intro hn
      rw [Value.natural?.eq_def] at hn
      split at hn
      · cases hn
        rfl
      · cases hn
    · rintro rfl
      rfl
  simp only [field?, bind, Option.bind_eq_some_iff, hnatural, exists_eq_right]

end Fields

/-! ## Roots in objects -/

/-- The members of an object describe a root: the one member of each name is what it should be,
and others are passed over. -/
structure Describes (members : List (String × Value)) (r : Root) : Prop where
  tree : ∃ text, Value.only? members "tree_id" = some (.text text) ∧ TreeId.ofHex text = .ok r.tree
  generation : Value.only? members "generation" = some (.natural r.generation)
  node : ∃ h, r.node = some h ∧
    ∃ text, Value.only? members "node_hash" = some (.text text) ∧ Hash.ofHex text = .ok h
  status : ∃ text, Value.only? members "status" = some (.text text) ∧
    Status.ofName? text = some r.status

theorem not_describes_nil (r : Root) : ¬ Describes [] r := by
  rintro ⟨⟨text, hmember, -⟩, -⟩
  cases hmember

namespace RootReply

variable {members : List (String × Value)}

/-- An object is read as the root it describes, and as no root if it describes none. -/
theorem exists_ofJson?_object (members : List (String × Value)) :
    ∃ a, ofJson? (.object members) = some a ∧ ∀ r, a.toRoot? = some r ↔ Describes members r := by
  -- the first form is tried as a whole; it gives a root only if all four fields are read
  obtain ⟨known?, hread, hknown⟩ : ∃ known? : Option RootReply,
      ofJson? (.object members) = some (known?.getD unknown) ∧ ∀ a, known? = some a ↔
        ∃ t g h s, a = known t g h s ∧ Describes members ⟨t, g, some h, s⟩ := by
    refine ⟨_, rfl, fun a => ?_⟩
    simp only [bind, Option.bind_eq_some_iff, field?_tree_eq_some_iff, field?_natural_eq_some_iff,
      field?_hash_eq_some_iff, field?_status_eq_some_iff, pure, Option.some.injEq]
    constructor
    · rintro ⟨t, htree, g, hgeneration, h, hnode, s, hstatus, rfl⟩
      exact ⟨t, g, h, s, rfl, htree, hgeneration, ⟨h, rfl, hnode⟩, hstatus⟩
    · rintro ⟨t, g, h, s, rfl, htree, hgeneration, ⟨h', heq, hnode⟩, hstatus⟩
      cases heq
      exact ⟨t, htree, g, hgeneration, h, hnode, s, hstatus, rfl⟩
  refine ⟨_, hread, fun r => ⟨fun hr => ?_, fun hr => ?_⟩⟩
  · cases known? with
    | none => cases hr
    | some a =>
        obtain ⟨t, g, h, s, rfl, hdescribes⟩ := (hknown a).mp rfl
        cases hr
        exact hdescribes
  · obtain ⟨t, g, node, s⟩ := r
    obtain ⟨h, rfl, -⟩ := hr.node
    rw [(hknown _).mpr ⟨t, g, h, s, rfl, hr⟩]
    rfl

theorem ofJson?_eq_none {v : Value} (hv : ∀ members, v ≠ .object members) : ofJson? v = none := by
  cases v with
  | object members => exact absurd rfl (hv members)
  | _ => rfl

end RootReply

end Wire

/-- A server answers a request by a text that holds this value. -/
def Peer.Gives (peer : Peer) (sent : List String) (r : Request) (v : Json.Value) : Prop :=
  ∃ text, Replica.awaitText r.kind (peer (sent ++ [r.text])) = .ok text ∧ Json.parse text = .ok v

theorem Peer.Gives.unique {peer : Peer} {sent : List String} {r : Request} {v w : Json.Value}
    (hv : peer.Gives sent r v) (hw : peer.Gives sent r w) : v = w := by
  obtain ⟨text, htext, hparse⟩ := hv
  obtain ⟨text', htext', hparse'⟩ := hw
  cases htext.symm.trans htext'
  exact Except.ok.inj (hparse.symm.trans hparse')

namespace Replica

open Json Wire

variable {text : String} {members : List (String × Value)} {v : Value} {a : RootReply}

theorem readRoot_of_parse (htext : Json.parse text = .ok v) (hread : RootReply.ofJson? v = some a) :
    readRoot text = .ok a.toRoot? := by
  rw [readRoot, RootReply.parse, parseWith_readForm_eq_ok_iff.mpr ⟨v, htext, hread⟩]
  rfl

/-- What is no object is not read. -/
theorem exists_readRoot_eq_error (htext : ∀ members, Json.parse text ≠ .ok (.object members)) :
    ∃ e, readRoot text = .error (.json e) := by
  cases hparse : parseWith (readForm "RootAnswer" RootReply.ofJson? depthLimit) text with
  | error e => exact ⟨e, by rw [readRoot, RootReply.parse, hparse]; rfl⟩
  | ok a =>
      obtain ⟨v, hv, hread⟩ := parseWith_readForm_eq_ok_iff.mp hparse
      rw [RootReply.ofJson?_eq_none fun members heq => htext members (hv.trans (by rw [heq]))]
        at hread
      cases hread

/-- A replica has heard an object, and then takes the root it describes, if any, or it has not,
and then fails. -/
theorem fetchRoot_cases (t : TreeId) (h : Hash) (peer : Peer) (c : Session) :
    (∃ members found, peer.Gives c.sent (.root t h) (.object members) ∧
        (fetchRoot t h peer c).1 = .ok found ∧ ∀ r, found = some r ↔ Describes members r) ∨
      (∀ members, ¬ peer.Gives c.sent (.root t h) (.object members)) ∧
        ∃ e, (fetchRoot t h peer c).1 = .error e ∧
          (awaitText "request_root" (peer (c.sent ++ [(Request.root t h).text])) = .error e ∨
            ∃ e', e = .json e') := by
  rw [fetchRoot_eq, Peer.answer]
  have hkind : (Request.root t h).kind = "request_root" := rfl
  rw [hkind]
  cases hawait : awaitText "request_root" (peer (c.sent ++ [(Request.root t h).text])) with
  | error e =>
      refine .inr ⟨fun members hgives => ?_, e, rfl, .inl rfl⟩
      obtain ⟨text, htext, -⟩ := hgives
      cases hawait.symm.trans htext
  | ok text =>
      by_cases hobject : ∃ members, Json.parse text = .ok (.object members)
      · obtain ⟨members, hparse⟩ := hobject
        obtain ⟨a, hread, ha⟩ := RootReply.exists_ofJson?_object members
        exact .inl ⟨members, a.toRoot?, ⟨text, hawait, hparse⟩, readRoot_of_parse hparse hread, ha⟩
      · obtain ⟨e, he⟩ := exists_readRoot_eq_error (not_exists.mp hobject)
        refine .inr ⟨fun members hgives => ?_, .json e, he, .inr ⟨e, rfl⟩⟩
        obtain ⟨text', htext, hparse⟩ := hgives
        cases hawait.symm.trans htext
        exact hobject ⟨members, hparse⟩

/-- What a replica learns when it asks for a root. It takes a root if the answer is an object that
describes it. It takes any object that describes no root for the news that there is none, the empty
object among them. Everything else is an error, either that no text has arrived or that the text is
no object. The local store stays as it is. -/
theorem fetchRoot_exact (t : TreeId) (h : Hash) (peer : Peer) (c : Session) :
    let fetched := (fetchRoot t h peer c).1
    let gives := fun members => peer.Gives c.sent (.root t h) (.object members)
    (∀ r, fetched = .ok (some r) ↔ ∃ members, gives members ∧ Describes members r) ∧
      (fetched = .ok none ↔ ∃ members, gives members ∧ ∀ r, ¬ Describes members r) ∧
      ((∃ e, fetched = .error e) ↔ ∀ members, ¬ gives members) ∧
      (∀ e, fetched = .error e →
        awaitText "request_root" (peer (c.sent ++ [(Request.root t h).text])) = .error e ∨
          ∃ e', e = .json e') ∧
      (gives [] → fetched = .ok none) ∧
      (fetchRoot t h peer c).2 = c.asking (.root t h) := by
  intro fetched gives
  have hsession : (fetchRoot t h peer c).2 = c.asking (.root t h) := by rw [fetchRoot_eq]
  rcases fetchRoot_cases t h peer c with
    ⟨members, found, hgives, hfetched, hfound⟩ | ⟨hsilent, e, hfetched, hcause⟩
  · -- an answer is the text of one value at most, so no other object describes anything
    have honly {members' : List (String × Value)} (hgives' : gives members') : members' = members :=
      Value.object.inj (hgives'.unique hgives)
    have hnone : found = none ↔ ∀ r, ¬ Describes members r := by
      simp only [Option.eq_none_iff_forall_ne_some, ne_eq, hfound]
    have hok {root : Option Root} : fetched = .ok root ↔ found = root := by
      rw [show fetched = .ok found from hfetched, Except.ok.injEq]
    refine ⟨fun r => ?_, ?_, ?_, fun e he => ?_, fun hempty => ?_, hsession⟩
    · rw [hok, hfound]
      refine ⟨fun hr => ⟨members, hgives, hr⟩, ?_⟩
      rintro ⟨members', hgives', hr⟩
      rwa [← honly hgives']
    · rw [hok, hnone]
      refine ⟨fun hr => ⟨members, hgives, hr⟩, ?_⟩
      rintro ⟨members', hgives', hr⟩
      rwa [← honly hgives']
    · refine ⟨?_, fun hsilent => absurd hgives (hsilent members)⟩
      rintro ⟨e, he⟩
      cases hfetched.symm.trans he
    · cases hfetched.symm.trans he
    · rw [hok, hnone, ← honly hempty]
      exact not_describes_nil
  · have hno {root : Option Root} : fetched ≠ .ok root := by
      intro hok
      cases hfetched.symm.trans hok
    refine ⟨fun r => ⟨fun hr => absurd hr hno, ?_⟩, ⟨fun hr => absurd hr hno, ?_⟩,
      ⟨fun _ => hsilent, fun _ => ⟨e, hfetched⟩⟩, fun e' he' => ?_,
      fun hempty => absurd hempty (hsilent []), hsession⟩
    · rintro ⟨members, hgives, -⟩
      exact absurd hgives (hsilent members)
    · rintro ⟨members, hgives, -⟩
      exact absurd hgives (hsilent members)
    · cases hfetched.symm.trans he'
      exact hcause

/-- A value like those of the fields of a root, a text or a number of sixty-four bits. -/
def Plain (v : Value) : Prop := (∃ s, v = .text s) ∨ ∃ n, n < wordBound ∧ v = .natural n

/-- An object with plain values is read back from its text. -/
theorem parse_compact_object (hmembers : ∀ m ∈ members, Plain m.2) :
    Json.parse (Value.object members).compact = .ok (.object members) := by
  have hreads : (Value.object members).ReadsAs depthLimit (.object members) := by
    refine Value.readsAs_object (by decide) (List.forall₂_same.mpr fun m hm => ⟨rfl, ?_⟩)
    obtain ⟨s, hs⟩ | ⟨n, hn, hm⟩ := hmembers m hm
    · rw [hs]
      exact Value.readsAs_text s
    · rw [hm]
      exact Value.readsAs_natural hn
  exact parseWith_compact ⟨hreads.opens, fun rest hrest => hreads.readValue hrest⟩

/-- From four objects a replica reads that a server has no root, although none of them is empty.
Each is the description of a root with a single field damaged: one is left out, one is a text
instead of a number, one is no hash, and one is not the name of a status. -/
theorem damaged_root_taken :
    let h := Hash.terminal [1] [10]
    let whole := [("tree_id", treeValue sampleTree), ("generation", .natural 1),
      ("node_hash", hashValue h), ("status", .text "committed")]
    let fetched := fun members =>
      (fetchRoot sampleTree h (fun _ => [.text (Value.object members).compact]) ⟨.volatile, []⟩).1
    fetched whole = .ok (some ⟨sampleTree, 1, some h, .committed⟩) ∧
      ∀ damaged ∈ [whole.eraseIdx 2, whole.set 1 ("generation", .text "1"),
          whole.set 2 ("node_hash", .text "zz"), whole.set 3 ("status", .text "done")],
        damaged ≠ [] ∧ Json.parse (Value.object damaged).compact = .ok (.object damaged) ∧
          fetched damaged = .ok none := by
  intro h whole fetched
  have hfetched {members : List (String × Value)} {a : RootReply}
      (hparse : Json.parse (Value.object members).compact = .ok (.object members))
      (hread : RootReply.ofJson? (.object members) = some a) : fetched members = .ok a.toRoot? := by
    simp only [fetched]
    rw [fetchRoot_eq]
    exact readRoot_of_parse hparse hread
  have hplain : ∀ m ∈ whole, Plain m.2 := by
    simp only [whole, List.forall_mem_cons]
    exact ⟨.inl ⟨_, rfl⟩, .inr ⟨1, by decide, rfl⟩, .inl ⟨_, rfl⟩, .inl ⟨_, rfl⟩, by simp⟩
  have hset (i : Nat) (name s : String) : ∀ m ∈ whole.set i (name, .text s), Plain m.2 := by
    intro m hm
    obtain hm | rfl := List.mem_or_eq_of_mem_set hm
    · exact hplain m hm
    · exact .inl ⟨s, rfl⟩
  have herase : ∀ m ∈ whole.eraseIdx 2, Plain m.2 := fun m hm =>
    hplain m (List.mem_of_mem_eraseIdx hm)
  have hdamaged {damaged : List (String × Value)} (hne : damaged ≠ [])
      (hmembers : ∀ m ∈ damaged, Plain m.2)
      (hread : RootReply.ofJson? (.object damaged) = some .unknown) :
      damaged ≠ [] ∧ Json.parse (Value.object damaged).compact = .ok (.object damaged) ∧
        fetched damaged = .ok none :=
    have hparse := parse_compact_object hmembers
    ⟨hne, hparse, hfetched hparse hread⟩
  refine ⟨hfetched (a := .known sampleTree 1 h .committed) (parse_compact_object hplain)
    (by decide +kernel), ?_⟩
  simp only [List.forall_mem_cons]
  exact ⟨hdamaged (by decide) herase (by decide +kernel),
    hdamaged (by decide) (hset 1 _ _) (by decide +kernel),
    hdamaged (by decide) (hset 2 _ _) (by decide +kernel),
    hdamaged (by decide) (hset 3 _ _) (by decide +kernel), by simp⟩

end Replica

end MerkleStore
