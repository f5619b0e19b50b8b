import Mathlib.Data.List.Perm.Basic
import MerkleStore.Proofs.WireCodec

/-!
# Requests in every spelling

The text of a request may be written differently: with its fields in another order and other
fields among them, with blank space, with the digits of hashes and tree ids in upper case or
behind `0x`, with generations as numbers. `Request.Spelling` is such a text, and
`Request.parse_spelling` says that every one of them is read as the request.

Fields are found by their names only. Where one member has the name of a field
(`Value.only?`), the reader meets it once, wherever it stands, and passes over the members of
other names (`Request.Meets`).
-/

namespace MerkleStore

namespace Json

variable {s : String} {cs : List Char}

/-! ## Values -/

theorem yields_text (h : SpellsText s cs) (fuel depth : Nat) :
    Yields (readValueFrom (fuel + 1) depth) cs (.text s) := by
  intro b rest hb _
  obtain ⟨ds, rfl, hread⟩ := readText_of_spells h
  rw [readValueFrom]
  simp only [List.append_assoc, hb.skipBlank_append, List.cons_append,
    skipBlank_of_not (c := '"') (by decide), hread, bind, Except.bind, pure, Except.pure]

theorem yields_natural {n : Nat} (hn : n < wordBound) (fuel depth : Nat) :
    Yields (readValueFrom (fuel + 1) depth) (Nat.toDigits 10 n) (.natural n) := by
  intro b rest hb hrest
  have hread := Value.readValueFrom_natural n fuel depth rest
  have hskip (cs : List Char) :
      readValueFrom (fuel + 1) depth (b ++ cs) = readValueFrom (fuel + 1) depth cs := by
    rw [readValueFrom, readValueFrom, hb.skipBlank_append]
  rw [List.append_assoc, hskip]
  rw [readNumber_toDigits n hrest, if_pos hn] at hread
  exact hread

namespace Value

/-! ## The one member of a name -/

variable {members members' : List (String × Value)} {name : String} {v : Value}

theorem only?_eq_some_iff :
    only? members name = some v ↔ members.filter (·.1 == name) = [(name, v)] := by
  rw [only?]
  constructor
  · intro h
    split at h
    · next name' v' heq =>
        cases h
        have hmem : (name', v) ∈ members.filter (·.1 == name) := by rw [heq]; simp
        obtain rfl : name' = name := eq_of_beq (List.mem_filter.mp hmem).2
        exact heq
    · cases h
  · intro h
    rw [h]

/-- It does not matter in which order the members stand. -/
theorem only?_of_perm (h : members.Perm members') (hv : only? members' name = some v) :
    only? members name = some v := by
  rw [only?_eq_some_iff] at hv ⊢
  have hperm := h.filter (·.1 == name)
  rwa [hv, List.perm_singleton] at hperm

/-- It does not matter which members of another name there are. -/
theorem only?_filter {other : String} (h : name ≠ other) :
    only? (members.filter (·.1 != other)) name = only? members name := by
  have hfilter : (members.filter (·.1 != other)).filter (·.1 == name) =
      members.filter (·.1 == name) := by
    rw [List.filter_filter]
    refine List.filter_congr fun m _ => ?_
    by_cases hm : m.1 = name <;> simp [hm, h]
  rw [only?, hfilter, only?]

end Value

end Json

namespace Request

open Json Wire

/-! ## Fields among members -/

section Fields

variable {α : Type} {name : String} {read : Value → Except Mismatch α} {a : α}
  {before : Option α} {members : List (String × Value)}

/-- A reader that goes through members meets the field of a name once and reads it as `a`, or
has met it before. -/
inductive Meets (name : String) (read : Value → Except Mismatch α) (a : α) :
    Option α → List (String × Value) → Prop
  | done : Meets name read a (some a) []
  | here {v : Value} {members : List (String × Value)} (hv : read v = .ok a)
      (h : Meets name read a (some a) members) : Meets name read a none ((name, v) :: members)
  | other {before : Option α} {m : String × Value} {members : List (String × Value)}
      (hm : m.1 ≠ name) (h : Meets name read a before members) :
      Meets name read a before (m :: members)

theorem Meets.of_not_mem (h : members.filter (·.1 == name) = []) :
    Meets name read a (some a) members := by
  induction members with
  | nil => exact .done
  | cons m members ih =>
      rw [List.filter_eq_nil_iff] at h
      refine .other (by simpa using h m List.mem_cons_self) (ih ?_)
      exact List.filter_eq_nil_iff.mpr fun m' hm' => h m' (List.mem_cons_of_mem _ hm')

theorem Meets.of_only? {v : Value} (h : Value.only? members name = some v) (hv : read v = .ok a) :
    Meets name read a none members := by
  rw [Value.only?_eq_some_iff] at h
  induction members with
  | nil => cases h
  | cons m members ih =>
      by_cases hm : m.1 = name
      · rw [List.filter_cons_of_pos (by simp [hm]), List.cons.injEq] at h
        obtain ⟨rfl, h⟩ := h
        exact .here hv (.of_not_mem h)
      · rw [List.filter_cons_of_neg (by simp [hm])] at h
        exact .other hm (ih h)

theorem need_of_meets (h : Meets name read a before []) : need name before = .ok a := by
  cases h
  rfl

/-- Behind a member of its name the field has been met. -/
theorem take_of_meets {v : Value} (h : Meets name read a before ((name, v) :: members)) :
    take name before read v = .ok (some a) ∧ Meets name read a (some a) members := by
  cases h with
  | here hv h => exact ⟨by rw [take, hv]; rfl, h⟩
  | other hm h => exact absurd rfl hm

theorem Meets.tail {m : String × Value} (hm : m.1 ≠ name)
    (h : Meets name read a before (m :: members)) : Meets name read a before members := by
  cases h with
  | here hv h => exact absurd rfl hm
  | other hm h => exact h

end Fields

variable {members : List (String × Value)} {t : TreeId} {h : Hash} {first last : Nat}

theorem nodeFields_of_meets {tree : Option TreeId} {node : Option Hash}
    (htree : Meets "tree_id" treeOf t tree members)
    (hnode : Meets "node_hash" hashOf h node members) :
    nodeFields tree node members = .ok (t, h) := by
  induction members generalizing tree node with
  | nil =>
      simp only [nodeFields, need_of_meets htree, need_of_meets hnode, bind, Except.bind]
      rfl
  | cons m members ih =>
      obtain ⟨name, v⟩ := m
      rw [nodeFields]
      split
      · next hname =>
          subst hname
          obtain ⟨htake, htree⟩ := take_of_meets htree
          simp only [htake, bind, Except.bind]
          exact ih htree (hnode.tail (by simp))
      · next hname =>
          split
          · next hname' =>
              subst hname'
              obtain ⟨htake, hnode⟩ := take_of_meets hnode
              simp only [htake, bind, Except.bind]
              exact ih (htree.tail hname) hnode
          · next hname' => exact ih (htree.tail hname) (hnode.tail hname')

theorem rangeFields_of_meets {tree : Option TreeId} {first? last? : Option Nat}
    (htree : Meets "tree_id" treeOf t tree members)
    (hfirst : Meets "generation" generationOf first first? members)
    (hlast : Meets "max_generation" generationOf last last? members) :
    rangeFields tree first? last? members = .ok (t, first, last) := by
  induction members generalizing tree first? last? with
  | nil =>
      simp only [rangeFields, need_of_meets htree, need_of_meets hfirst, need_of_meets hlast, bind,
        Except.bind]
      rfl
  | cons m members ih =>
      obtain ⟨name, v⟩ := m
      rw [rangeFields]
      split
      · next hname =>
          subst hname
          obtain ⟨htake, htree⟩ := take_of_meets htree
          simp only [htake, bind, Except.bind]
          exact ih htree (hfirst.tail (by simp)) (hlast.tail (by simp))
      · next htreeId =>
          split
          · next hname =>
              subst hname
              obtain ⟨htake, hfirst⟩ := take_of_meets hfirst
              simp only [htake, bind, Except.bind]
              exact ih (htree.tail htreeId) hfirst (hlast.tail (by simp))
          · next hgeneration =>
              split
              · next hname =>
                  subst hname
                  obtain ⟨htake, hlast⟩ := take_of_meets hlast
                  simp only [htake, bind, Except.bind]
                  exact ih (htree.tail htreeId) (hfirst.tail hgeneration) hlast
              · next hmax =>
                  exact ih (htree.tail htreeId) (hfirst.tail hgeneration) (hlast.tail hmax)

/-! ## Kinds -/

theorem splitKind_of_only? {kind : String}
    (hkind : Value.only? members "type" = some (.text kind)) (hknown : kind ∈ kinds) :
    splitKind (.object members) = .ok (kind, .inl (members.filter (·.1 != "type"))) := by
  rw [Value.only?_eq_some_iff] at hkind
  simp [splitKind, hkind, kindOf, hknown, bind, Except.bind, pure, Except.pure]

theorem kind_mem_kinds (r : Request) : r.kind ∈ kinds := by
  cases r <;> simp [kind, kinds]

/-! ## What fields hold -/

/-- What a field of a request holds. -/
inductive Content
  | word (s : String)
  | bytes (b : Bytes32)
  | generation (n : Nat)

namespace Content

/-- The characters are a way to write what a field holds: bytes as a text of hexadecimal digits,
and a generation as a number or as a text of decimal ones. -/
def IsSpelled : Content → List Char → Prop
  | word s, cs => SpellsText s cs
  | bytes b, cs => ∃ s : String, Hex.SpellsBytes b.toList s.toList ∧ SpellsText s cs
  | generation n, cs => cs = Nat.toDigits 10 n ∨ SpellsText (Decimal.text n) cs

/-- The value is one that a field may have. -/
def Holds : Content → Value → Prop
  | word s, v => v = .text s
  | bytes b, v => ∃ s : String, Hex.SpellsBytes b.toList s.toList ∧ v = .text s
  | generation n, v => v = .natural n ∨ v = .text (Decimal.text n)

/-- A generation is a number of sixty-four bits. -/
def Fits : Content → Prop
  | generation n => n < wordBound
  | word _ | bytes _ => True

theorem exists_holds {c : Content} (hc : c.Fits) {cs : List Char} (h : c.IsSpelled cs)
    (depth : Nat) :
    ∃ v, c.Holds v ∧ ∀ fuel, Yields (readValueFrom (fuel + 1) depth) cs v := by
  cases c with
  | word s => exact ⟨_, rfl, fun fuel => yields_text h fuel depth⟩
  | bytes b =>
      obtain ⟨s, hs, htext⟩ := h
      exact ⟨_, ⟨s, hs, rfl⟩, fun fuel => yields_text htext fuel depth⟩
  | generation n =>
      rcases h with rfl | htext
      · exact ⟨_, .inl rfl, fun fuel => yields_natural hc fuel depth⟩
      · exact ⟨_, .inr rfl, fun fuel => yields_text htext fuel depth⟩

variable {v : Value}

theorem treeOf_of_holds (hv : (bytes t.bytes).Holds v) : treeOf v = .ok t := by
  obtain ⟨s, hs, rfl⟩ := hv
  simp only [treeOf, Value.asText, bind, Except.bind, TreeId.ofHex_of_spells hs]
  rfl

theorem hashOf_of_holds (hv : (bytes h.bytes).Holds v) : hashOf v = .ok h := by
  obtain ⟨s, hs, rfl⟩ := hv
  simp only [hashOf, Value.asText, bind, Except.bind, Hash.ofHex_of_spells hs]
  rfl

theorem generationOf_of_holds {n : Nat} (hn : n < wordBound) (hv : (generation n).Holds v) :
    generationOf v = .ok n := by
  rcases hv with rfl | rfl
  · rfl
  · rw [generationOf_text, if_pos hn]

end Content

/-- What a request says, field by field. -/
def contents (r : Request) : List (String × Content) :=
  match r with
  | root t h | nodes t h =>
      [("type", .word r.kind), ("tree_id", .bytes t.bytes), ("node_hash", .bytes h.bytes)]
  | operations t first last =>
      [("type", .word r.kind), ("tree_id", .bytes t.bytes), ("generation", .generation first),
        ("max_generation", .generation last)]
  | close => [("type", .word r.kind)]

theorem Fits.contents {r : Request} (hr : r.Fits) : ∀ f ∈ r.contents, f.2.Fits := by
  cases r with
  | operations t first last =>
      obtain ⟨hfirst, hlast⟩ := hr t first last rfl
      simp [Request.contents, Content.Fits, hfirst, hlast]
  | _ => simp [Request.contents, Content.Fits]

/-- A way to write a request: its fields in some spelling and other members with texts, in any
order and with blank space wherever it may stand. -/
structure Spelling (r : Request) where
  /-- The fields, by their names and the characters of their values. -/
  own : List (String × List Char)
  others : List (String × List Char)
  /-- All members, in the order in which they stand. -/
  members : List (String × List Char)
  front : List Char
  /-- What stands behind the opening bracket, up to the closing one. -/
  inner : List Char
  back : List Char
  spells_own : List.Forall₂ (fun f m => m.1 = f.1 ∧ f.2.IsSpelled m.2) r.contents own
  spells_others : ∀ m ∈ others, m.1 ∉ r.contents.map Prod.fst ∧ ∃ s, SpellsText s m.2
  perm : members.Perm (own ++ others)
  spells_members : SpellsMembers true members inner
  blank_front : Blank front
  blank_back : Blank back

namespace Spelling

variable {r : Request}

/-- The characters of the object. -/
def chars (w : r.Spelling) : List Char := '\x7b' :: w.inner

/-- The request as it is written. -/
def text (w : r.Spelling) : String := String.ofList (w.front ++ w.chars ++ w.back)

/-- A member has the name of a field and holds what the field may hold. -/
def HoldsField (f : String × Content) (n : String × Value) : Prop := n.1 = f.1 ∧ f.2.Holds n.2

/-- Fields that are spelled are read as values that they may have. -/
theorem exists_holdsFields {fs : List (String × Content)} {own : List (String × List Char)}
    (hfits : ∀ f ∈ fs, f.2.Fits)
    (h : List.Forall₂ (fun f m => m.1 = f.1 ∧ f.2.IsSpelled m.2) fs own) (depth : Nat) :
    ∃ ns, List.Forall₂ (YieldsMember depth) own ns ∧ List.Forall₂ HoldsField fs ns := by
  induction h with
  | nil => exact ⟨[], .nil, .nil⟩
  | @cons f m fs own hm h ih =>
      obtain ⟨hname, hspelled⟩ := hm
      obtain ⟨v, hv, hyields⟩ :=
        Content.exists_holds (hfits f List.mem_cons_self) hspelled depth
      obtain ⟨ns, hns, hholds⟩ := ih fun f hf => hfits f (List.mem_cons_of_mem _ hf)
      exact ⟨(f.1, v) :: ns, .cons ⟨hname, hyields⟩ hns, .cons ⟨rfl, hv⟩ hholds⟩

/-- Other members are read as texts of their names. -/
theorem exists_others {names : List String} {others : List (String × List Char)}
    (h : ∀ m ∈ others, m.1 ∉ names ∧ ∃ s, SpellsText s m.2) (depth : Nat) :
    ∃ ns, List.Forall₂ (YieldsMember depth) others ns ∧ ∀ n ∈ ns, n.1 ∉ names := by
  induction others with
  | nil => exact ⟨[], .nil, by simp⟩
  | cons m others ih =>
      obtain ⟨hname, s, hs⟩ := h m List.mem_cons_self
      obtain ⟨ns, hns, hnames⟩ := ih fun m hm => h m (List.mem_cons_of_mem _ hm)
      refine ⟨(m.1, .text s) :: ns, .cons ⟨rfl, fun fuel => yields_text hs fuel depth⟩ hns, ?_⟩
      exact List.forall_mem_cons.mpr ⟨hname, hnames⟩

theorem map_fst_of_holdsFields {fs : List (String × Content)} {ns : List (String × Value)}
    (h : List.Forall₂ HoldsField fs ns) : fs.map Prod.fst = ns.map Prod.fst := by
  rw [← List.forall₂_eq_eq_eq, List.forall₂_map_left_iff, List.forall₂_map_right_iff]
  exact h.imp fun f n hn => hn.1.symm

/-- Of fields with different names just one member has the name of each. -/
theorem filter_holdsFields {fs : List (String × Content)} {ns : List (String × Value)}
    (h : List.Forall₂ HoldsField fs ns) (hnames : (fs.map Prod.fst).Nodup) {f : String × Content}
    (hf : f ∈ fs) : ∃ v, ns.filter (·.1 == f.1) = [(f.1, v)] ∧ f.2.Holds v := by
  induction h with
  | nil => cases hf
  | @cons g n fs ns hn h ih =>
      obtain ⟨hname, hholds⟩ := hn
      obtain ⟨hnew, hnames⟩ := List.nodup_cons.mp hnames
      rcases List.mem_cons.mp hf with rfl | hf
      · have hrest : ns.filter (·.1 == f.1) = [] := by
          refine List.filter_eq_nil_iff.mpr fun n hn heq => hnew ?_
          rw [map_fst_of_holdsFields h, ← eq_of_beq heq]
          exact List.mem_map_of_mem hn
        exact ⟨n.2, by rw [List.filter_cons_of_pos (by simp [hname]), hrest, ← hname], hholds⟩
      · have hne : n.1 ≠ f.1 := fun heq => hnew (hname ▸ heq ▸ List.mem_map_of_mem hf)
        rw [List.filter_cons_of_neg (by simp [hne])]
        exact ih hnames hf

/-- Every way to write a request is read as an object in which just one member has the name of
each field, and holds what it should. -/
theorem exists_object (w : r.Spelling) (hfits : ∀ f ∈ r.contents, f.2.Fits) :
    ∃ ns, Yields (readValue depthLimit) w.chars (.object ns) ∧
      ∀ f ∈ r.contents, ∃ v, Value.only? ns f.1 = some v ∧ f.2.Holds v := by
  have hnames : (r.contents.map Prod.fst).Nodup := by cases r <;> simp [contents]
  obtain ⟨ns₁, hown, hholds⟩ := exists_holdsFields hfits w.spells_own (depthLimit - 1)
  obtain ⟨ns₂, hothers, hother⟩ := exists_others w.spells_others (depthLimit - 1)
  obtain ⟨ns, hns, hperm⟩ := List.perm_comp_forall₂ w.perm (List.rel_append hown hothers)
  refine ⟨ns, yields_object (by decide) w.spells_members hns, fun f hf => ?_⟩
  obtain ⟨v, hfilter, hv⟩ := filter_holdsFields hholds hnames hf
  refine ⟨v, Value.only?_of_perm hperm (Value.only?_eq_some_iff.mpr ?_), hv⟩
  have hnone : ns₂.filter (·.1 == f.1) = [] := List.filter_eq_nil_iff.mpr fun n hn heq =>
    hother n hn (eq_of_beq heq ▸ List.mem_map_of_mem hf)
  rw [List.filter_append, hfilter, hnone, List.append_nil]

end Spelling

/-- What is read from the fields of an object is read from a text that holds the object. -/
theorem yields_read {cs : List Char} {ns : List (String × Value)} {r : Request} {kind : String}
    {fields : List (String × Value) ⊕ List Value}
    (h : Yields (readValue depthLimit) cs (.object ns))
    (hsplit : splitKind (.object ns) = .ok (kind, fields))
    (hfields : ofFields kind fields = .ok r) : Yields read cs r := by
  intro b rest hb hrest
  simp only [read, h b rest hb hrest, hsplit, hfields, bind, Except.bind, pure, Except.pure]

/-- An object that holds the fields of a request, once each, is read as the request. -/
theorem exists_ofFields {r : Request} (hr : r.Fits) {ns : List (String × Value)}
    (hns : ∀ f ∈ r.contents, ∃ v, Value.only? ns f.1 = some v ∧ f.2.Holds v) :
    ∃ fields, splitKind (.object ns) = .ok (r.kind, fields) ∧ ofFields r.kind fields = .ok r := by
  have hkind : Value.only? ns "type" = some (.text r.kind) := by
    obtain ⟨v, hv, rfl⟩ := hns ("type", .word r.kind) (by cases r <;> simp [contents])
    exact hv
  refine ⟨_, splitKind_of_only? hkind r.kind_mem_kinds, ?_⟩
  have hmeets {α : Type} {name : String} (hname : name ≠ "type") {c : Content}
      (hc : (name, c) ∈ r.contents) {read : Value → Except Mismatch α} {a : α}
      (hread : ∀ v, c.Holds v → read v = .ok a) :
      Meets name read a none (ns.filter (·.1 != "type")) := by
    obtain ⟨v, hv, hholds⟩ := hns (name, c) hc
    exact .of_only? ((Value.only?_filter hname).trans hv) (hread v hholds)
  cases r with
  | root t h | nodes t h =>
      have hfields := nodeFields_of_meets
        (hmeets (by decide) (by simp [contents]) fun v => Content.treeOf_of_holds (t := t))
        (hmeets (by decide) (by simp [contents]) fun v => Content.hashOf_of_holds (h := h))
      simp only [kind, ofFields, hfields, bind, Except.bind, pure, Except.pure]
  | operations t first last =>
      obtain ⟨hfirst, hlast⟩ := hr t first last rfl
      have hfields := rangeFields_of_meets
        (hmeets (by decide) (by simp [contents]) fun v => Content.treeOf_of_holds (t := t))
        (hmeets (by decide) (by simp [contents]) fun v => Content.generationOf_of_holds hfirst)
        (hmeets (by decide) (by simp [contents]) fun v => Content.generationOf_of_holds hlast)
      simp only [kind, ofFields, hfields, bind, Except.bind, pure, Except.pure]
  | close => rfl

/-- A request is written in one of the ways to write it. -/
theorem exists_spelling (r : Request) : ∃ w : r.Spelling, w.text = r.text := by
  have htext (name s : String) : name = name ∧ (Content.word s).IsSpelled (textChars s) :=
    ⟨rfl, spellsText_textChars s⟩
  have htree (t : TreeId) : "tree_id" = "tree_id" ∧ (Content.bytes t.bytes).IsSpelled
      (textChars t.hex) := ⟨rfl, _, t.spellsBytes_hex, spellsText_textChars _⟩
  have hhash (h : Hash) : "node_hash" = "node_hash" ∧ (Content.bytes h.bytes).IsSpelled
      (textChars h.hex) := ⟨rfl, _, h.spellsBytes_hex, spellsText_textChars _⟩
  have hnumber (name : String) (n : Nat) : name = name ∧ (Content.generation n).IsSpelled
      (textChars (Decimal.text n)) := ⟨rfl, .inr (spellsText_textChars _)⟩
  obtain ⟨ms, hjson, hown⟩ : ∃ ms, r.toJson = .object ms ∧
      List.Forall₂ (fun f m => m.1 = f.1 ∧ f.2.IsSpelled m.2) r.contents
        (ms.map fun m => (m.1, m.2.compactChars)) := by
    cases r with
    | root t h | nodes t h =>
        exact ⟨_, rfl, .cons (htext _ _) (.cons (htree t) (.cons (hhash h) .nil))⟩
    | operations t first last =>
        exact ⟨_, rfl, .cons (htext _ _)
          (.cons (htree t) (.cons (hnumber _ first) (.cons (hnumber _ last) .nil)))⟩
    | close => exact ⟨_, rfl, .cons (htext _ _) .nil⟩
  obtain ⟨cs, hchars, hcs⟩ := exists_spells_compact ms
  refine ⟨⟨_, [], _, [], cs, [], hown, by simp, by simp, hcs, .nil, .nil⟩, ?_⟩
  rw [text, hjson, Value.compact, hchars]
  simp [Spelling.text, Spelling.chars]

/-- Every way to write a request is read as the request, the one in which it is sent among
them. -/
theorem parse_spelling {r : Request} (hr : r.Fits) :
    (∃ w : r.Spelling, w.text = r.text) ∧ parse r.text = .ok r ∧
      ∀ w : r.Spelling, parse w.text = .ok r := by
  have hall (w : r.Spelling) : parse w.text = .ok r := by
    obtain ⟨ns, hobject, hns⟩ := w.exists_object hr.contents
    obtain ⟨fields, hsplit, hfields⟩ := exists_ofFields hr hns
    have htext : w.text.toList = w.front ++ w.chars ++ w.back := by
      rw [Spelling.text, String.toList_ofList]
    rw [parse, (yields_read hobject hsplit hfields).parseWith w.blank_front w.blank_back htext]
    rfl
  obtain ⟨w, hw⟩ := r.exists_spelling
  exact ⟨⟨w, hw⟩, hw ▸ hall w, hall⟩

/-- A request with the largest number a generation may have. -/
def sampleRequest : Request := .operations ⟨.replicate 0xab⟩ 1 18446744073709551615

/-- The request with its fields in another order, behind blank space, with a number for a text, a
tree id in upper case behind a marker, and a member that is not asked for. -/
def sampleText : String :=
  " \x7b\"max_generation\" :\n18446744073709551615, \"n\\u00F6te\":\"\\/\\uD83d\\ude00\"" ++
    ",\"generation\":\"1\",\"tree_id\":\"0x" ++
    String.ofList (List.replicate 32 ['A', 'b']).flatten ++
    "\",\"type\":\"request_operations\"\x7d\n"

/-- The text is one of the ways to write the request, and it is read as the request. -/
theorem parse_sampleText : sampleRequest.Fits ∧
    ∃ w : sampleRequest.Spelling, w.text = sampleText ∧ parse w.text = .ok sampleRequest := by
  have hfits : sampleRequest.Fits := by
    rintro _ _ _ ⟨⟩
    decide
  -- the tree id in the case and with the marker it has in the text
  let hex : String := String.ofList ('0' :: 'x' :: (List.replicate 32 ['A', 'b']).flatten)
  have hhex : Hex.SpellsBytes (List.replicate 32 0xab) hex.toList := by
    refine ⟨_, ?_, .inr (String.toList_ofList ..)⟩
    have hbyte : ∀ n : Nat, List.Forall₂ Hex.SameDigit (Hex.digits (List.replicate n 0xab))
        (List.replicate n ['A', 'b']).flatten := by
      intro n
      induction n with
      | zero => exact .nil
      | succ n ih => exact .cons (.inr rfl) (.cons (.inl rfl) ih)
    exact hbyte 32
  have hname : SpellsText "nöte" "\"n\\u00F6te\"".toList := by
    refine ⟨[['n'], ['\\', 'u', '0', '0', 'F', '6'], ['t'], ['e']], ?_, by decide⟩
    refine .cons (.plain (by decide) (by decide) (by decide)) (.cons (.unit ⟨by decide, ?_⟩)
      (.cons (.plain (by decide) (by decide) (by decide))
        (.cons (.plain (by decide) (by decide) (by decide)) .nil)))
    exact .cons (.inl rfl) (.cons (.inl rfl) (.cons (.inr rfl) (.cons (.inl rfl) .nil)))
  have hhigh : SpellsUnit (0xd800 + ('😀'.toNat - 0x10000) / 0x400) ['D', '8', '3', 'd'] := by
    rw [show 0xd800 + ('😀'.toNat - 0x10000) / 0x400 = 0xd83d by decide +kernel]
    refine ⟨by decide, ?_⟩
    exact .cons (.inr rfl) (.cons (.inl rfl) (.cons (.inl rfl) (.cons (.inl rfl) .nil)))
  have hlow : SpellsUnit (0xdc00 + ('😀'.toNat - 0x10000) % 0x400) ['d', 'e', '0', '0'] := by
    rw [show 0xdc00 + ('😀'.toNat - 0x10000) % 0x400 = 0xde00 by decide +kernel]
    refine ⟨by decide, ?_⟩
    exact .cons (.inl rfl) (.cons (.inl rfl) (.cons (.inl rfl) (.cons (.inl rfl) .nil)))
  have hvalue : SpellsText "/😀" "\"\\/\\uD83d\\ude00\"".toList := by
    refine ⟨[['\\', '/'],
      '\\' :: 'u' :: (['D', '8', '3', 'd'] ++ '\\' :: 'u' :: ['d', 'e', '0', '0'])], ?_,
      by decide +kernel⟩
    exact .cons (.named (by decide)) (.cons (.pair (by decide +kernel) hhigh hlow) .nil)
  have hline : Blank ['\n'] := by decide
  obtain ⟨inner, hinner, htext⟩ : ∃ inner, SpellsMembers true
      [("max_generation", Nat.toDigits 10 18446744073709551615),
        ("nöte", "\"\\/\\uD83d\\ude00\"".toList), ("generation", textChars "1"),
        ("tree_id", textChars hex), ("type", textChars "request_operations")] inner ∧
      String.ofList ([' '] ++ '\x7b' :: inner ++ ['\n']) = sampleText :=
    ⟨_, .cons .nil .nil blank_space hline (spellsText_textChars _)
      (.cons .nil blank_space .nil .nil hname
        (.cons .nil .nil .nil .nil (spellsText_textChars _)
          (.cons .nil .nil .nil .nil (spellsText_textChars _)
            (.cons .nil .nil .nil .nil (spellsText_textChars _) (.nil .nil))))), by decide +kernel⟩
  let w : sampleRequest.Spelling := {
    own := [("type", textChars "request_operations"), ("tree_id", textChars hex),
      ("generation", textChars "1"), ("max_generation", Nat.toDigits 10 18446744073709551615)]
    others := [("nöte", "\"\\/\\uD83d\\ude00\"".toList)]
    members := _
    front := [' ']
    inner := inner
    back := ['\n']
    spells_own := .cons ⟨rfl, spellsText_textChars _⟩
      (.cons ⟨rfl, hex, hhex, spellsText_textChars _⟩
        (.cons ⟨rfl, .inr (spellsText_textChars _)⟩ (.cons ⟨rfl, .inl rfl⟩ .nil)))
    spells_others := by
      intro m hm
      obtain rfl := List.mem_singleton.mp hm
      exact ⟨by decide, _, hvalue⟩
    perm := by decide +kernel
    spells_members := hinner
    blank_front := blank_space
    blank_back := hline }
  exact ⟨hfits, w, htext, (parse_spelling hfits).2.2 w⟩

end Request

end MerkleStore
