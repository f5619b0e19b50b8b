import MerkleStore.Proofs.JsonCodec
import MerkleStore.Wire.Reply
import MerkleStore.Wire.Request

/-!
# What is sent is understood

Every value that travels is read back from its text: hashes, tree ids and byte strings
(`Hash.ofHex_hex`), requests (`Request.parse_text`), roots (`RootReply.parse_text`), the nodes
of a subtree (`NodesReply.parse_text`) and lists of operations
(`OperationItem.parseList_listText`). Generations are the exception
from `2 ^ 64` on: no request and no root with such a number is understood as what it was
meant to be.
-/

namespace MerkleStore

/-! ## Hexadecimal text -/

theorem Hash.spellsBytes_hex (h : Hash) : Hex.SpellsBytes h.bytes.toList h.hex.toList := by
  rw [hex, Hex.encode, String.toList_ofList]
  exact Hex.spellsBytes_digits _

theorem TreeId.spellsBytes_hex (t : TreeId) : Hex.SpellsBytes t.bytes.toList t.hex.toList := by
  rw [hex, Hex.encode, String.toList_ofList]
  exact Hex.spellsBytes_digits _

theorem Hash.ofHex_hex (h : Hash) : ofHex h.hex = .ok h := ofHex_of_spells h.spellsBytes_hex

theorem TreeId.ofHex_hex (t : TreeId) : ofHex t.hex = .ok t := ofHex_of_spells t.spellsBytes_hex

namespace Wire

open Json

/-! ## Fields -/

theorem treeOf_treeValue (t : TreeId) : treeOf (treeValue t) = .ok t := by
  simp only [treeOf, treeValue, Value.asText, bind, Except.bind, TreeId.ofHex_hex]
  rfl

theorem hashOf_hashValue (h : Hash) : hashOf (hashValue h) = .ok h := by
  simp only [hashOf, hashValue, Value.asText, bind, Except.bind, Hash.ofHex_hex]
  rfl

theorem bytesOf?_bytesValue (bs : Bytes) : bytesOf? (bytesValue bs) = some bs := by
  simp only [bytesOf?, bytesValue, Value.text?, Hex.encode, bind, Option.bind,
    String.toList_ofList, Hex.decode_of_spells (Hex.spellsBytes_digits bs)]
  rfl

/-- An optional value is read back if it is not written as an absent one. -/
theorem optionalOf?_optionalValue {α : Type} {show_ : α → String} {read : String → Option α}
    (hread : ∀ a, read (show_ a) = some a) (hshow : ∀ a, show_ a ≠ absent) (a : Option α) :
    optionalOf? read (optionalValue show_ a) = some a := by
  cases a with
  | none => rfl
  | some a =>
      simp only [optionalOf?, optionalValue, Value.text?, bind, Option.bind, if_neg (hshow a),
        hread a, Option.map_some]

theorem hex_ne_absent (h : Hash) : h.hex ≠ absent := by
  intro heq
  have hlength := congrArg (fun s => s.toList.length) heq
  simp only [Hash.hex, Hex.encode, String.toList_ofList, Hex.length_digits, h.bytes.length_eq]
    at hlength
  revert hlength
  decide

theorem optionalOf?_hash (h : Option Hash) :
    optionalOf? (fun s => (Hash.ofHex s).toOption) (optionalValue Hash.hex h) = some h :=
  optionalOf?_optionalValue (fun h => by rw [Hash.ofHex_hex]; rfl) hex_ne_absent h

theorem optionalOf?_side (s : Option Side) :
    optionalOf? sideOf? (optionalValue Side.name s) = some s := by
  refine optionalOf?_optionalValue (fun s => ?_) (fun s => ?_) s <;> cases s <;> decide

/-! ## Replies -/

section Forms

variable {α : Type} {type text : String} {form? : Value → Option α} {depth : Nat} {v w : Value}
  {a : α}

theorem readForm_eq_ok_iff {cs rest : List Char} :
    readForm type form? depth cs = .ok (a, rest) ↔
      ∃ v, readValue depth cs = .ok (v, rest) ∧ form? v = some a := by
  rw [readForm]
  cases readValue depth cs with
  | error f => simp [bind, Except.bind]
  | ok found =>
      obtain ⟨v, rest'⟩ := found
      cases hform : form? v with
      | none => simp [bind, Except.bind, throw, hform]
      | some b => simp [bind, Except.bind, pure, Except.pure, hform, and_comm]

/-- A text in a form is read as what the form makes of its value. -/
theorem parseWith_readForm_eq_ok_iff :
    parseWith (readForm type form? depth) text = .ok a ↔
      ∃ v, parseWith (readValue depth) text = .ok v ∧ form? v = some a := by
  simp only [parseWith_eq_ok_iff, readForm_eq_ok_iff]
  constructor
  · rintro ⟨rest, ⟨v, hv, hform⟩, hend⟩
    exact ⟨v, ⟨rest, hv, hend⟩, hform⟩
  · rintro ⟨v, ⟨rest, hv, hend⟩, hform⟩
    exact ⟨rest, ⟨v, hv, hform⟩, hend⟩

/-- What a form gives for a value is given for the text of the value. -/
theorem takes_readForm (h : v.ReadsAs depth w) (hform : form? w = some a) :
    Takes (readForm type form? depth) v a where
  opens := h.opens
  reads := fun _ hrest => readForm_eq_ok_iff.mpr ⟨w, h.readValue hrest, hform⟩

theorem parseWith_compact {read : List Char → Except Fault (α × List Char)}
    (h : Takes read v a) : parseWith read v.compact = .ok a := by
  have hread := h.reads [] .nil
  rw [List.append_nil] at hread
  exact parseWith_of_reads (by rwa [Value.compact, String.toList_ofList])

theorem exists_parseWith_compact (h : v.Refused depth) :
    ∃ e, parseWith (readForm type form? depth) v.compact = .error e := by
  obtain ⟨e, he⟩ := h.readValue .nil
  rw [List.append_nil] at he
  refine parseWith_of_refused (f := e) ?_
  simp only [Value.compact, String.toList_ofList, readForm, he, bind, Except.bind]

end Forms

namespace RootReply

variable {t : TreeId} {g : Nat} {h : Hash} {s : Status}

theorem ofJson?_toJson (a : RootReply) : ofJson? a.toJson = some a := by
  cases a with
  | unknown => rfl
  | known t g h s =>
      simp [ofJson?, toJson, Value.members?, field?, Value.only?, treeOf_treeValue,
        hashOf_hashValue, Value.natural?, Value.natural, statusOf?, Value.text?, Except.toOption]

/-- A root is read back if its generation fits sixty-four bits. -/
theorem parse_text {a : RootReply} (ha : ∀ t g h s, a = known t g h s → g < wordBound) :
    parse a.text = .ok a := by
  have hreads : a.toJson.ReadsAs depthLimit a.toJson := by
    cases a with
    | unknown => exact Value.readsAs_object (by decide) .nil
    | known t g h s =>
        exact Value.readsAs_object (by decide)
          (.cons ⟨rfl, Value.readsAs_text _⟩ (.cons ⟨rfl, Value.readsAs_natural (ha t g h s rfl)⟩
            (.cons ⟨rfl, Value.readsAs_text _⟩ (.cons ⟨rfl, Value.readsAs_text _⟩ .nil))))
  rw [parse, text, parseWith_compact (takes_readForm hreads (ofJson?_toJson a))]
  rfl

/-- With a number that does not fit, a root is taken for none, or refused. -/
theorem parse_text_unfit (hg : wordBound ≤ g) :
    parse (known t g h s).text = .ok unknown ∨ ∃ e, parse (known t g h s).text = .error e := by
  have htree : Value.MemberReadsAs (depthLimit - 1) ("tree_id", treeValue t)
      ("tree_id", treeValue t) := ⟨rfl, Value.readsAs_text _⟩
  rcases Value.readsAs_or_refused hg with ⟨x, hx⟩ | hrefused
  · have hreads : (known t g h s).toJson.ReadsAs depthLimit
        (.object [("tree_id", treeValue t), ("generation", .number (.real x)),
          ("node_hash", hashValue h), ("status", .text s.name)]) :=
      Value.readsAs_object (by decide) (.cons htree (.cons ⟨rfl, hx⟩
        (.cons ⟨rfl, Value.readsAs_text _⟩ (.cons ⟨rfl, Value.readsAs_text _⟩ .nil))))
    refine .inl ?_
    rw [parse, text, parseWith_compact (takes_readForm hreads (a := unknown) ?_)]
    · rfl
    · simp [ofJson?, Value.members?, field?, Value.only?, treeOf_treeValue, Value.natural?,
        Except.toOption]
  · have hobject : (known t g h s).toJson.Refused depthLimit :=
      Value.refused_object (by decide) (.cons htree .nil) hrefused
        [("node_hash", hashValue h), ("status", .text s.name)]
    obtain ⟨e, he⟩ : ∃ e, parseWith (readForm "RootAnswer" ofJson? depthLimit)
        (known t g h s).toJson.compact = .error e := exists_parseWith_compact hobject
    exact .inr ⟨.json e, by rw [parse, text, he]; rfl⟩

end RootReply

namespace NodeItem

/-- A node that is named by its content is the same node when its hash is computed again. -/
theorem toNode_ofNode {n : Node} (hn : n.hash = n.contentHash) : (ofNode n).toNode = .ok n := by
  cases n with
  | terminal n =>
      obtain ⟨h, key, value⟩ := n
      obtain rfl : h = .terminal key value := hn
      rfl
  | internal n =>
      obtain ⟨h, left, right⟩ := n
      obtain rfl : h = .internal left right := hn
      rfl

/-- A branch has no key, so it is not taken for a leaf. -/
theorem ofJson?_toJson (n : Node) : ofJson? (ofNode n).toJson = some (ofNode n) := by
  cases n with
  | terminal n =>
      simp [ofJson?, ofNode, toJson, Value.members?, field?, Value.only?, Value.boolean?,
        bytesOf?_bytesValue]
  | internal n =>
      have hhash (h : Hash) : (hashOf (hashValue h)).toOption = some h := by
        rw [hashOf_hashValue]
        rfl
      simp [ofJson?, ofNode, toJson, Value.members?, field?, Value.only?, Value.boolean?, hhash]

theorem readsAs_toJson (n : Node) {depth : Nat} (hdepth : 1 < depth) :
    (ofNode n).toJson.ReadsAs depth (ofNode n).toJson := by
  cases n <;>
    exact Value.readsAs_object hdepth (.cons ⟨rfl, Value.readsAs_text _⟩
      (.cons ⟨rfl, Value.readsAs_text _⟩ (.cons ⟨rfl, Value.readsAs_boolean _⟩ .nil)))

/-- What a client makes of nodes that are named by their contents are these nodes. -/
theorem mapM_toNode {ns : List Node} (hns : ∀ n ∈ ns, n.hash = n.contentHash) :
    (ns.map ofNode).mapM toNode = .ok ns := by
  induction ns with
  | nil => rfl
  | cons n ns ih =>
      rw [List.map_cons, List.mapM_cons, toNode_ofNode (hns n List.mem_cons_self),
        ih fun n hn => hns n (List.mem_cons_of_mem _ hn)]
      rfl

end NodeItem

/-- The nodes of a subtree are read back, but for their hashes. -/
theorem NodesReply.parse_text (ns : List Node) :
    parse (NodesReply.mk (ns.map NodeItem.ofNode)).text = .ok ⟨ns.map NodeItem.ofNode⟩ := by
  have hitems : List.Forall₂ (Takes (readForm "NodeEntry" NodeItem.ofJson? (depthLimit - 1 - 1)))
      ((ns.map NodeItem.ofNode).map NodeItem.toJson) (ns.map NodeItem.ofNode) := by
    simp only [List.forall₂_map_left_iff, List.forall₂_map_right_iff, List.forall₂_same]
    exact fun n _ => takes_readForm (NodeItem.readsAs_toJson n (by decide))
      (NodeItem.ofJson?_toJson n)
  have htakes : Takes (shape.read depthLimit) (NodesReply.mk (ns.map NodeItem.ofNode)).toJson
      ⟨ns.map NodeItem.ofNode⟩ := by
    have hdepth : 1 < depthLimit := by decide
    have hfields : shape.fields = [_] := rfl
    refine Shape.takes_object (s := some (ns.map NodeItem.ofNode)) hdepth hfields rfl ⟨?_, ?_⟩ rfl
    · exact Value.opens_array _
    · intro rest _
      have hread := readList_compactChars (by decide : 1 < depthLimit - 1) hitems rest
      simp only [bind, Except.bind, hread]
      rfl
  rw [parse, text, parseWith_compact htakes]
  rfl

namespace OperationItem

theorem toOperation_ofOperation (o : Operation) : (ofOperation o).toOperation = .ok o := by
  cases o <;>
    simp [ofOperation, toOperation, statusOf, bind, Except.bind, pure, Except.pure]

theorem ofJson?_toJson (o : Operation) : ofJson? (ofOperation o).toJson = some (ofOperation o) := by
  have hcode (s : Status) : code? (.natural s.code) = some s.code := by cases s <;> decide
  cases o with
  | insertion d =>
      have hhash : (hashOf (hashValue d.root)).toOption = some d.root := by
        rw [hashOf_hashValue]
        rfl
      simp [ofJson?, ofOperation, toJson, Value.members?, field?, Value.only?, Value.boolean?,
        bytesOf?_bytesValue, hcode, hhash, optionalOf?_hash, optionalOf?_side]
  | deletion d =>
      simp [ofJson?, ofOperation, toJson, Value.members?, field?, Value.only?, Value.boolean?,
        bytesOf?_bytesValue, hcode, optionalOf?_hash]

theorem readsAs_toJson (o : Operation) {depth : Nat} (hdepth : 1 < depth) :
    (ofOperation o).toJson.ReadsAs depth (ofOperation o).toJson := by
  have hcode (s : Status) : s.code < wordBound := by cases s <;> decide
  have hoption {α : Type} (show_ : α → String) (a : Option α) :
      (optionalValue show_ a).ReadsAs (depth - 1) (optionalValue show_ a) := by
    cases a <;> exact Value.readsAs_text _
  cases o with
  | insertion d =>
      exact Value.readsAs_object hdepth (.cons ⟨rfl, Value.readsAs_boolean _⟩
        (.cons ⟨rfl, Value.readsAs_text _⟩ (.cons ⟨rfl, Value.readsAs_text _⟩
          (.cons ⟨rfl, Value.readsAs_text _⟩ (.cons ⟨rfl, hoption _ _⟩
            (.cons ⟨rfl, hoption _ _⟩ (.cons ⟨rfl, Value.readsAs_natural (hcode _)⟩ .nil)))))))
  | deletion d =>
      exact Value.readsAs_object hdepth (.cons ⟨rfl, Value.readsAs_boolean _⟩
        (.cons ⟨rfl, hoption _ _⟩ (.cons ⟨rfl, Value.readsAs_text _⟩
          (.cons ⟨rfl, Value.readsAs_natural (hcode _)⟩ .nil))))

/-- Operations are read back from their list. -/
theorem parseList_listText (os : List Operation) :
    parseList (listText (os.map ofOperation)) = .ok (os.map ofOperation) := by
  have htakes : List.Forall₂ (Takes (readForm "OperationEntry" ofJson? (depthLimit - 1)))
      ((os.map ofOperation).map toJson) (os.map ofOperation) := by
    simp only [List.forall₂_map_left_iff, List.forall₂_map_right_iff, List.forall₂_same]
    exact fun o _ => takes_readForm (readsAs_toJson o (by decide)) (ofJson?_toJson o)
  have hread := readList_compactChars (by decide : 1 < depthLimit) htakes []
  rw [List.append_nil] at hread
  rw [parseList, listText, parseWith_of_reads (by rwa [Value.compact, String.toList_ofList])]
  rfl

/-- What a client makes of a list of operations is that list. -/
theorem mapM_toOperation (os : List Operation) :
    (os.map ofOperation).mapM toOperation = .ok os := by
  induction os with
  | nil => rfl
  | cons o os ih =>
      rw [List.map_cons, List.mapM_cons, toOperation_ofOperation, ih]
      rfl

end OperationItem

end Wire

/-! ## Requests -/

namespace Request

open Json Wire

variable {t : TreeId} {h : Hash} {first last : Nat}

theorem readsAs_toJson (r : Request) : r.toJson.ReadsAs depthLimit r.toJson := by
  have htext (name s : String) :
      Value.MemberReadsAs (depthLimit - 1) (name, .text s) (name, .text s) :=
    ⟨rfl, Value.readsAs_text s⟩
  have hdepth : 1 < depthLimit := by decide
  cases r <;> refine Value.readsAs_object hdepth ?_
  case root | nodes => exact .cons (htext _ _) (.cons (htext _ _) (.cons (htext _ _) .nil))
  case operations =>
    exact .cons (htext _ _) (.cons (htext _ _) (.cons (htext _ _) (.cons (htext _ _) .nil)))
  case close => exact .cons (htext _ _) .nil

/-- What is read from the text of a request is what is read from its fields. -/
theorem parse_text_eq (r : Request) {kind : String} {fields : List (String × Value) ⊕ List Value}
    (hsplit : splitKind r.toJson = .ok (kind, fields)) :
    (∀ r', ofFields kind fields = .ok r' → parse r.text = .ok r') ∧
      ∀ m, ofFields kind fields = .error m → ∃ e, parse r.text = .error e := by
  have hread := (readsAs_toJson r).readValue .nil
  rw [List.append_nil] at hread
  constructor
  · intro r' hfields
    have hparse : parseWith read r.text = .ok r' := parseWith_of_reads (by
      simp only [text, Value.compact, String.toList_ofList, read, hread, hsplit, hfields, bind,
        Except.bind, pure, Except.pure])
    rw [parse, hparse]
    rfl
  · intro m hfields
    obtain ⟨e, he⟩ : ∃ e, parseWith read r.text = .error e :=
      parseWith_of_refused (f := .ofMismatch m []) (by
        simp only [text, Value.compact, String.toList_ofList, read, hread, hsplit, hfields, bind,
          Except.bind, pure, Except.pure]
        rfl)
    exact ⟨_, by rw [parse, he]; rfl⟩

theorem nodeFields_values (t : TreeId) (h : Hash) :
    nodeFields none none [("tree_id", treeValue t), ("node_hash", hashValue h)] = .ok (t, h) := by
  simp [nodeFields, take, treeOf_treeValue, hashOf_hashValue, need, bind, Except.bind, pure,
    Except.pure, Except.map]

theorem parse_text_root (t : TreeId) (h : Hash) : parse (root t h).text = .ok (root t h) := by
  have hsplit : splitKind (root t h).toJson =
      .ok ("request_root", .inl [("tree_id", treeValue t), ("node_hash", hashValue h)]) := by
    simp [splitKind, toJson, kind, kindOf, kinds, bind, Except.bind, pure, Except.pure]
  refine (parse_text_eq (root t h) hsplit).1 _ ?_
  simp only [ofFields, nodeFields_values]
  rfl

theorem parse_text_nodes (t : TreeId) (h : Hash) : parse (nodes t h).text = .ok (nodes t h) := by
  have hsplit : splitKind (nodes t h).toJson =
      .ok ("request_nodes", .inl [("tree_id", treeValue t), ("node_hash", hashValue h)]) := by
    simp [splitKind, toJson, kind, kindOf, kinds, bind, Except.bind, pure, Except.pure]
  refine (parse_text_eq (nodes t h) hsplit).1 _ ?_
  simp only [ofFields, nodeFields_values]
  rfl

theorem parse_text_close : parse close.text = .ok close := by
  have hsplit : splitKind close.toJson = .ok ("close", .inl []) := by
    simp [splitKind, toJson, kind, kindOf, kinds, bind, Except.bind, pure, Except.pure]
  exact (parse_text_eq close hsplit).1 _ rfl

theorem generationOf_text (n : Nat) :
    generationOf (.text (Decimal.text n)) =
      if n < wordBound then .ok n else .error (.decimal .tooLarge) := by
  simp only [generationOf, Value.natural?, Decimal.trim_text,
    Decimal.read_text (show 0 < wordBound by decide)]
  by_cases hn : n < wordBound <;> simp [hn]

/-- A request for operations is understood if both of its generations fit sixty-four bits. -/
theorem parse_text_operations (t : TreeId) (first last : Nat) :
    if first < wordBound ∧ last < wordBound then
      parse (operations t first last).text = .ok (operations t first last)
    else ∃ e, parse (operations t first last).text = .error e := by
  have hsplit : splitKind (operations t first last).toJson =
      .ok ("request_operations", .inl [("tree_id", treeValue t),
        ("generation", .text (Decimal.text first)),
        ("max_generation", .text (Decimal.text last))]) := by
    simp [splitKind, toJson, kind, kindOf, kinds, bind, Except.bind, pure, Except.pure]
  obtain ⟨hok, herror⟩ := parse_text_eq (operations t first last) hsplit
  have hrange : rangeFields none none none [("tree_id", treeValue t),
      ("generation", .text (Decimal.text first)), ("max_generation", .text (Decimal.text last))] =
      (generationOf (.text (Decimal.text first))).bind fun first =>
        (generationOf (.text (Decimal.text last))).map fun last => (t, first, last) := by
    simp only [rangeFields, take, treeOf_treeValue, String.reduceEq, if_true, if_false, bind]
    cases generationOf (.text (Decimal.text first)) <;>
      cases generationOf (.text (Decimal.text last)) <;> rfl
  have hfields (members : List (String × Value)) :
      ofFields "request_operations" (.inl members) =
        (rangeFields none none none members).map fun range =>
          .operations range.1 range.2.1 range.2.2 := by
    simp only [ofFields, bind, Except.bind]
    cases rangeFields none none none members <;> rfl
  split
  · next hfits =>
      refine hok _ ?_
      rw [hfields, hrange, generationOf_text, generationOf_text, if_pos hfits.1, if_pos hfits.2]
      rfl
  · next hfits =>
      refine herror (.decimal .tooLarge) ?_
      rw [hfields, hrange, generationOf_text, generationOf_text]
      by_cases hfirst : first < wordBound
      · rw [if_pos hfirst, if_neg fun hlast => hfits ⟨hfirst, hlast⟩]
        rfl
      · rw [if_neg hfirst]
        rfl

/-- The generations in a request are numbers of sixty-four bits. -/
def Fits (r : Request) : Prop :=
  ∀ t first last, r = operations t first last → first < wordBound ∧ last < wordBound

/-- A request is understood as what it is. -/
theorem parse_text {r : Request} (hr : r.Fits) : parse r.text = .ok r := by
  cases r with
  | root t h => exact parse_text_root t h
  | nodes t h => exact parse_text_nodes t h
  | operations t first last =>
      have hparse := parse_text_operations t first last
      rwa [if_pos (hr t first last rfl)] at hparse
  | close => exact parse_text_close

end Request

end MerkleStore
