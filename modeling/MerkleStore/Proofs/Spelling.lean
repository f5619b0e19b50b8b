import Mathlib.Data.List.Forall2
import MerkleStore.Hash
import MerkleStore.Json.Fields
import MerkleStore.Json.Printer

/-!
# Ways to write a JSON text

One value can be written in many ways: with blank space between the words, with a character
escaped or as it is, with hexadecimal digits of either case. The relations here say which
characters spell a text (`SpellsText`) and the members of an object (`SpellsMembers`), without
any reader. What is printed is one of the spellings, and the readers take all of them
(`readText_of_spells`, `readMembers_of_spells`, `Shape.yields_object`).

Of the values in an object only one thing is asked: that the reader in charge of them
gives something for their characters wherever they stand (`Yields`).
-/

namespace MerkleStore

/-! ## Digits in either case -/

namespace Hex

/-- A digit as it is, or in upper case. -/
def SameDigit (d c : Char) : Prop := c = d ∨ c = d.toUpper

theorem SameDigit.refl (d : Char) : SameDigit d d := .inl rfl

theorem digitValue?_of_same {n : Nat} (hn : n < 16) {c : Char} (hc : SameDigit (digit n) c) :
    digitValue? c = some n := by
  have hupper : ∀ n : Fin 16, digitValue? (digit n).toUpper = some n.val := by decide
  rcases hc with rfl | rfl
  · exact digitValue?_digit hn
  · exact hupper ⟨n, hn⟩

theorem SameDigit.utf8Size {n : Nat} (hn : n < 16) {c : Char} (hc : SameDigit (digit n) c) :
    c.utf8Size = 1 := by
  have hall : ∀ n : Fin 16, (digit n).utf8Size = 1 ∧ (digit n).toUpper.utf8Size = 1 := by decide
  rcases hc with rfl | rfl
  · exact (hall ⟨n, hn⟩).1
  · exact (hall ⟨n, hn⟩).2

/-- A byte string is written with digits of either case, behind a marker or without it. -/
def SpellsBytes (bs : Bytes) (cs : List Char) : Prop :=
  ∃ ds, List.Forall₂ SameDigit (digits bs) ds ∧ (cs = ds ∨ cs = '0' :: 'x' :: ds)

theorem spellsBytes_digits (bs : Bytes) : SpellsBytes bs (digits bs) :=
  ⟨_, List.forall₂_same.mpr fun d _ => .refl d, .inl rfl⟩

theorem utf8Length_cons (c : Char) (cs : List Char) :
    utf8Length (c :: cs) = c.utf8Size + utf8Length cs := by
  have hshift (cs : List Char) (n : Nat) :
      cs.foldl (fun n c => n + c.utf8Size) n = n + cs.foldl (fun n c => n + c.utf8Size) 0 := by
    induction cs generalizing n with
    | nil => rfl
    | cons d cs ih =>
        rw [List.foldl_cons, List.foldl_cons, ih, ih (0 + d.utf8Size)]
        omega
  rw [utf8Length, List.foldl_cons, hshift, Nat.zero_add, utf8Length]

section Digits

variable {bs : Bytes} {cs ds : List Char}

/-- Every byte takes two characters of one byte each. -/
theorem utf8Length_of_same (h : List.Forall₂ SameDigit (digits bs) ds) :
    utf8Length ds = 2 * bs.length := by
  induction bs generalizing ds with
  | nil =>
      obtain rfl := List.forall₂_nil_left_iff.mp h
      rfl
  | cons b bs ih =>
      simp only [digits, List.forall₂_cons_left_iff] at h
      obtain ⟨hi, _, hhi, ⟨lo, ds, hlo, h, rfl⟩, rfl⟩ := h
      have hb : b.toNat < 256 := b.toNat_lt
      rw [utf8Length_cons, utf8Length_cons, hhi.utf8Size (by omega),
        hlo.utf8Size (Nat.mod_lt _ (by decide)), ih h, List.length_cons]
      omega

theorem ofDigits_of_same (h : List.Forall₂ SameDigit (digits bs) ds) (position : Nat) :
    ofDigits position ds = .ok bs := by
  induction bs generalizing ds position with
  | nil =>
      obtain rfl := List.forall₂_nil_left_iff.mp h
      rfl
  | cons b bs ih =>
      simp only [digits, List.forall₂_cons_left_iff] at h
      obtain ⟨hi, _, hhi, ⟨lo, ds, hlo, h, rfl⟩, rfl⟩ := h
      have hb : b.toNat < 256 := b.toNat_lt
      have hjoin : 16 * (b.toNat / 16) + b.toNat % 16 = b.toNat := by omega
      simp [ofDigits, digitValue?_of_same (show b.toNat / 16 < 16 by omega) hhi,
        digitValue?_of_same (Nat.mod_lt _ (by decide)) hlo, ih h, hjoin]

/-- Behind the marker, if there is one, the digits stand. -/
theorem same_dropMarker (h : SpellsBytes bs cs) :
    List.Forall₂ SameDigit (digits bs) (dropMarker cs) := by
  obtain ⟨ds, hds, rfl | rfl⟩ := h
  · cases bs with
    | nil =>
        obtain rfl := List.forall₂_nil_left_iff.mp hds
        exact .nil
    | cons b bs =>
        -- no digit is an x, so that what starts with digits has no marker
        have hx : dropMarker cs = cs := by
          simp only [digits, List.forall₂_cons_left_iff] at hds
          obtain ⟨hi, _, -, ⟨lo, ds, hlo, -, rfl⟩, rfl⟩ := hds
          have hvalue := digitValue?_of_same (Nat.mod_lt _ (by decide)) hlo
          rw [dropMarker]
          rintro _ ⟨⟩
          cases hvalue
        rwa [hx]
  · exact hds

theorem decode_of_spells (h : SpellsBytes bs cs) : decode (dropMarker cs) = .ok bs := by
  have hsame := same_dropMarker h
  rw [decode, if_neg (by rw [utf8Length_of_same hsame]; omega), ofDigits_of_same hsame]

theorem decode32_of_spells {b : Bytes32} (h : SpellsBytes b.toList cs) :
    decode32 (dropMarker cs) = .ok b := by
  have hsame := same_dropMarker h
  have hlength : utf8Length (dropMarker cs) = 64 := by rw [utf8Length_of_same hsame, b.length_eq]
  simp [decode32, hlength, ofDigits_of_same hsame]

end Digits

end Hex

theorem Hash.ofHex_of_spells {h : Hash} {s : String}
    (hs : Hex.SpellsBytes h.bytes.toList s.toList) :
    ofHex s = .ok h := by
  rw [ofHex, Hex.decode32_of_spells hs]
  rfl

theorem TreeId.ofHex_of_spells {t : TreeId} {s : String}
    (hs : Hex.SpellsBytes t.bytes.toList s.toList) : ofHex s = .ok t := by
  rw [ofHex, Hex.decode32_of_spells hs]
  rfl

namespace Json

/-! ## Texts -/

/-- Four digits spell a unit of sixteen bits. -/
def SpellsUnit (n : Nat) (ds : List Char) : Prop :=
  n < 0x10000 ∧ List.Forall₂ Hex.SameDigit
    [Hex.digit (n / 4096), Hex.digit (n / 256 % 16), Hex.digit (n / 16 % 16), Hex.digit (n % 16)] ds

/-- The escapes of one letter, each with its character. -/
def namedEscapes : List (Char × Char) :=
  [('"', '"'), ('\\', '\\'), ('/', '/'), ('b', '\x08'), ('f', '\x0c'), ('n', '\n'), ('r', '\r'),
    ('t', '\t')]

/-- A character may be written as it is, as an escape of one letter, by its number or, above
sixteen bits, by the two halves of a pair. -/
inductive SpellsChar : Char → List Char → Prop
  | plain {c : Char} (hquote : c ≠ '"') (hslash : c ≠ '\\') (hcontrol : ¬ c < ' ') :
      SpellsChar c [c]
  | named {c e : Char} (he : (e, c) ∈ namedEscapes) : SpellsChar c ['\\', e]
  | unit {c : Char} {ds : List Char} (hds : SpellsUnit c.toNat ds) :
      SpellsChar c ('\\' :: 'u' :: ds)
  | pair {c : Char} {high low : List Char} (hc : 0x10000 ≤ c.toNat)
      (hhigh : SpellsUnit (0xd800 + (c.toNat - 0x10000) / 0x400) high)
      (hlow : SpellsUnit (0xdc00 + (c.toNat - 0x10000) % 0x400) low) :
      SpellsChar c ('\\' :: 'u' :: (high ++ '\\' :: 'u' :: low))

/-- A text is written in quotes, character by character. -/
def SpellsText (s : String) (cs : List Char) : Prop :=
  ∃ pieces, List.Forall₂ SpellsChar s.toList pieces ∧ cs = '"' :: (pieces.flatten ++ ['"'])

variable {n : Nat} {c : Char} {s : String} {cs ds rest : List Char}

theorem readUnit_of_spells (h : SpellsUnit n ds) (rest : List Char) :
    readUnit (ds ++ rest) = .ok (n, rest) := by
  obtain ⟨hn, hds⟩ := h
  simp only [List.forall₂_cons_left_iff, List.forall₂_nil_left_iff] at hds
  obtain ⟨a, _, ha, ⟨b, _, hb, ⟨c, _, hc, ⟨d, _, hd, rfl, rfl⟩, rfl⟩, rfl⟩, rfl⟩ := hds
  have hjoin : ((n / 4096 * 16 + n / 256 % 16) * 16 + n / 16 % 16) * 16 + n % 16 = n := by omega
  simp [readUnit, Hex.digitValue?_of_same (by omega) ha, Hex.digitValue?_of_same (by omega) hb,
    Hex.digitValue?_of_same (by omega) hc, Hex.digitValue?_of_same (by omega) hd, hjoin]

/-- A character is written as it is, or as an escape that stands for it. -/
theorem SpellsChar.cases (h : SpellsChar c cs) :
    (cs = [c] ∧ c ≠ '"' ∧ c ≠ '\\' ∧ ¬ c < ' ') ∨
      ∃ ds, cs = '\\' :: ds ∧ ∀ rest, readEscape (ds ++ rest) = .ok (c, rest) := by
  cases h with
  | plain hquote hslash hcontrol => exact .inl ⟨rfl, hquote, hslash, hcontrol⟩
  | named he =>
      refine .inr ⟨_, rfl, fun rest => ?_⟩
      simp only [namedEscapes, List.mem_cons, Prod.mk.injEq, List.not_mem_nil, or_false] at he
      rcases he with ⟨rfl, rfl⟩ | ⟨rfl, rfl⟩ | ⟨rfl, rfl⟩ | ⟨rfl, rfl⟩ | ⟨rfl, rfl⟩ | ⟨rfl, rfl⟩ |
        ⟨rfl, rfl⟩ | ⟨rfl, rfl⟩ <;> rfl
  | unit hds =>
      refine .inr ⟨_, rfl, fun rest => ?_⟩
      have hvalid : c.toNat < 0xd800 ∨ 0xdfff < c.toNat ∧ c.toNat < 0x110000 := c.valid
      have hlow : ¬ (0xdc00 ≤ c.toNat ∧ c.toNat ≤ 0xdfff) := by omega
      have hhigh : ¬ (0xd800 ≤ c.toNat ∧ c.toNat ≤ 0xdbff) := by omega
      simp only [List.cons_append, readEscape, readUnit_of_spells hds, bind, Except.bind,
        if_neg hlow, if_neg hhigh, Char.ofNat_toNat, pure, Except.pure]
  | @pair high low hc hhigh hlow =>
      refine .inr ⟨_, rfl, fun rest => ?_⟩
      have hvalid : c.toNat < 0xd800 ∨ 0xdfff < c.toNat ∧ c.toNat < 0x110000 := c.valid
      have hjoin : 0x10000 + (0xd800 + (c.toNat - 0x10000) / 0x400 - 0xd800) * 0x400 +
          (0xdc00 + (c.toNat - 0x10000) % 0x400 - 0xdc00) = c.toNat := by omega
      simp only [List.cons_append, List.append_assoc, readEscape, readUnit_of_spells hhigh, bind,
        Except.bind]
      rw [if_neg (by omega), if_pos (by omega)]
      simp only [readLowHalf, readUnit_of_spells hlow, bind, Except.bind]
      rw [if_pos (by omega), hjoin, Char.ofNat_toNat]
      rfl

theorem readTextFrom_of_spells {s : List Char} {pieces : List (List Char)}
    (h : List.Forall₂ SpellsChar s pieces) (rest : List Char) {fuel : Nat}
    (hfuel : s.length < fuel) :
    readTextFrom fuel (pieces.flatten ++ '"' :: rest) = .ok (s, rest) := by
  induction h generalizing fuel with
  | nil =>
      obtain ⟨fuel, rfl⟩ := Nat.exists_eq_add_one_of_ne_zero (Nat.ne_of_gt hfuel)
      simp [readTextFrom]
  | @cons c piece s pieces hc h ih =>
      obtain ⟨fuel, rfl⟩ :=
        Nat.exists_eq_add_one_of_ne_zero (Nat.ne_of_gt (Nat.zero_lt_of_lt hfuel))
      have hrest := ih (Nat.lt_of_succ_lt_succ hfuel)
      rw [List.flatten_cons, List.append_assoc]
      rcases hc.cases with ⟨rfl, hquote, hslash, hcontrol⟩ | ⟨ds, rfl, hescape⟩
      · simp [readTextFrom, hquote, hslash, hcontrol, hrest, bind, Except.bind, pure, Except.pure]
      · simp [readTextFrom, hescape, hrest, bind, Except.bind, pure, Except.pure]

theorem length_le_of_spells {s : List Char} {pieces : List (List Char)}
    (h : List.Forall₂ SpellsChar s pieces) : s.length ≤ pieces.flatten.length := by
  induction h with
  | nil => exact Nat.le_refl _
  | cons hc h ih =>
      rw [List.flatten_cons, List.length_append, List.length_cons]
      rcases hc.cases with ⟨rfl, -⟩ | ⟨ds, rfl, -⟩ <;> simp only [List.length_cons] <;> omega

/-- A text is read behind its opening quote, in whatever way it is spelled. -/
theorem readText_of_spells (h : SpellsText s cs) :
    ∃ ds, cs = '"' :: ds ∧ ∀ rest, readText (ds ++ rest) = .ok (s, rest) := by
  obtain ⟨pieces, hpieces, rfl⟩ := h
  refine ⟨_, rfl, fun rest => ?_⟩
  have hlength := length_le_of_spells hpieces
  have hfuel : s.toList.length < (pieces.flatten ++ '"' :: rest).length + 1 := by
    rw [List.length_append]
    omega
  have hread := readTextFrom_of_spells hpieces rest hfuel
  simp only [List.append_assoc, List.singleton_append, readText, hread, bind, Except.bind, pure,
    Except.pure, String.ofList_toList]

/-- A character is printed in one of the ways to spell it. -/
theorem spellsChar_escape (c : Char) : SpellsChar c (escape c) := by
  by_cases hnamed : c ∈ ['"', '\\', '\x08', '\x0c', '\n', '\r', '\t']
  · simp only [List.mem_cons, List.not_mem_nil, or_false] at hnamed
    rcases hnamed with rfl | rfl | rfl | rfl | rfl | rfl | rfl <;> exact .named (by decide)
  · simp only [List.mem_cons, List.not_mem_nil, or_false, not_or] at hnamed
    have hescape : escape c = if c < ' ' then
        ['\\', 'u', '0', '0', Hex.digit (c.toNat / 16), Hex.digit (c.toNat % 16)] else [c] := by
      simp [escape, hnamed]
    rw [hescape]
    split
    · next hcontrol =>
        have hlt : c.toNat < 32 := hcontrol
        have hhigh : c.toNat / 4096 = 0 ∧ c.toNat / 256 % 16 = 0 ∧
            c.toNat / 16 % 16 = c.toNat / 16 := by
          omega
        refine .unit ⟨by omega, ?_⟩
        rw [hhigh.1, hhigh.2.1, hhigh.2.2]
        exact List.forall₂_same.mpr fun d _ => .refl d
    · next hcontrol => exact .plain hnamed.1 hnamed.2.1 hcontrol

theorem spellsText_textChars (s : String) : SpellsText s (textChars s) := by
  refine ⟨s.toList.map escape, ?_, by rw [textChars, List.flatMap_def]; rfl⟩
  rw [List.forall₂_map_right_iff, List.forall₂_same]
  exact fun c _ => spellsChar_escape c

/-! ## Blank space -/

/-- What may stand between the words of a text. -/
def Blank (cs : List Char) : Prop := ∀ c ∈ cs, c ∈ [' ', '\t', '\n', '\r']

instance (cs : List Char) : Decidable (Blank cs) := List.decidableBAll _ cs

/-- What can follow a value: the end, or blank space, a comma or a closing bracket. -/
def Ends (rest : List Char) : Prop :=
  ∀ c ∈ rest.head?, c ∈ [' ', '\t', '\n', '\r', ',', ']', '\x7d']

variable {b b' : List Char}

theorem Blank.nil : Blank [] := by simp [Blank]

theorem Blank.isBlank (hb : Blank b) (hc : c ∈ b) : isBlank c = true := by
  have := hb c hc
  simp only [List.mem_cons, List.not_mem_nil, or_false] at this
  rcases this with rfl | rfl | rfl | rfl <;> rfl

@[simp] theorem Blank.skipBlank_append (hb : Blank b) (cs : List Char) :
    skipBlank (b ++ cs) = skipBlank cs :=
  List.dropWhile_append_of_pos fun _ hc => hb.isBlank hc

theorem Blank.ends (hb : Blank b) (h : Ends rest) : Ends (b ++ rest) := by
  cases b with
  | nil => exact h
  | cons d b =>
      rintro c ⟨rfl⟩
      have := hb d List.mem_cons_self
      simp only [List.mem_cons, List.not_mem_nil, or_false] at this ⊢
      tauto

theorem Ends.nil : Ends [] := by simp [Ends]

theorem Ends.cons (hc : c ∈ [',', ']', '\x7d']) (rest : List Char) : Ends (c :: rest) := by
  rintro d ⟨rfl⟩
  exact List.mem_append_right [' ', '\t', '\n', '\r'] hc

theorem skipBlank_of_not (hc : isBlank c = false) (cs : List Char) :
    skipBlank (c :: cs) = c :: cs :=
  List.dropWhile_cons_of_neg (by simp [hc])

/-! ## Values wherever they stand -/

section Values

variable {α : Type}

/-- A reader gives `a` for these characters, with any blank space in front of them and
whatever ends them. -/
def Yields (read : List Char → Except Fault (α × List Char)) (cs : List Char) (a : α) : Prop :=
  ∀ b rest, Blank b → Ends rest → read (b ++ cs ++ rest) = .ok (a, rest)

variable {read : List Char → Except Fault (α × List Char)} {a : α}

/-- A whole text is read with blank space around what it holds. -/
theorem Yields.parseWith (h : Yields read cs a) (hb : Blank b) (hb' : Blank b') {text : String}
    (htext : text.toList = b ++ cs ++ b') : parseWith read text = .ok a := by
  have hends : Ends b' := by simpa using hb'.ends .nil
  have hend : expectEnd b' = .ok () := by
    have hskip : skipBlank b' = [] := by simpa [skipBlank] using hb'.skipBlank_append []
    rw [expectEnd, hskip]
  simp only [Json.parseWith, htext, h b b' hb hends, hend, bind, Except.bind, pure, Except.pure,
    Except.mapError]

end Values

/-! ## Objects -/

/-- The members of an object up to its end, given by their names and the characters of their
values; a comma stands in front of every member but the first. -/
inductive SpellsMembers : Bool → List (String × List Char) → List Char → Prop
  | nil {isFirst : Bool} {b : List Char} (hb : Blank b) : SpellsMembers isFirst [] (b ++ ['\x7d'])
  | cons {isFirst : Bool} {name : String} {b₁ b₂ b₃ b₄ quoted cs more : List Char}
      {ms : List (String × List Char)} (hb₁ : Blank b₁) (hb₂ : Blank b₂) (hb₃ : Blank b₃)
      (hb₄ : Blank b₄) (hname : SpellsText name quoted) (hms : SpellsMembers false ms more) :
      SpellsMembers isFirst ((name, cs) :: ms)
        (b₁ ++ (if isFirst then [] else [',']) ++ b₂ ++ quoted ++ b₃ ++ ':' :: b₄ ++ cs ++ more)

variable {isFirst : Bool} {ms : List (String × List Char)} {name : String}

theorem SpellsMembers.ends (h : SpellsMembers false ms cs) (rest : List Char) :
    Ends (cs ++ rest) := by
  cases h with
  | nil hb =>
      rw [List.append_assoc]
      exact hb.ends (.cons (by decide) _)
  | cons hb₁ hb₂ hb₃ hb₄ hname hms =>
      simp only [List.append_assoc, Bool.false_eq_true, if_false]
      exact hb₁.ends (.cons (by decide) _)

theorem SpellsMembers.length_lt (h : SpellsMembers isFirst ms cs) : ms.length < cs.length := by
  induction h with
  | nil => simp
  | cons => simp only [List.length_append, List.length_cons]; omega

theorem nextName_of_nil (hb : Blank b) (rest : List Char) :
    nextName isFirst (b ++ '\x7d' :: rest) = .ok (none, rest) := by
  rw [nextName, hb.skipBlank_append, skipBlank_of_not (by decide)]
  rfl

/-- The next member stands behind blank space and, unless it is the first one, a comma. -/
theorem nextName_of_spells (hb : Blank b) (hb' : Blank b') (ds : List Char) :
    nextName isFirst (b ++ ((if isFirst then [] else [',']) ++ (b' ++ '"' :: ds))) =
      .ok (some ds, []) := by
  cases isFirst with
  | true =>
      rw [nextName]
      simp [hb.skipBlank_append, hb'.skipBlank_append, skipBlank_of_not (c := '"') (by decide)]
  | false =>
      rw [nextName]
      simp [hb.skipBlank_append, hb'.skipBlank_append, skipBlank_of_not (c := '"') (by decide),
        skipBlank_of_not (c := ',') (by decide)]

theorem skipColon_of_blank (hb : Blank b) (rest : List Char) :
    skipColon (b ++ ':' :: rest) = .ok rest := by
  rw [skipColon, hb.skipBlank_append, skipBlank_of_not (by decide)]
  rfl

/-! ### Printed members -/

theorem spellsMembers_compactMembers (ms : List (String × Value)) :
    SpellsMembers false (ms.map fun m => (m.1, m.2.compactChars)) (Value.compactMembers ms) := by
  induction ms with
  | nil => exact .nil .nil
  | cons m ms ih =>
      obtain ⟨name, v⟩ := m
      have h : SpellsMembers false ((name, v.compactChars) :: _) _ :=
        ih.cons .nil .nil .nil .nil (spellsText_textChars name)
      simpa [Value.compactMembers] using h

/-- An object without blank space is one of the ways to write it. -/
theorem exists_spells_compact (ms : List (String × Value)) :
    ∃ cs, (Value.object ms).compactChars = '\x7b' :: cs ∧
      SpellsMembers true (ms.map fun m => (m.1, m.2.compactChars)) cs := by
  rcases ms with _ | ⟨⟨name, v⟩, ms⟩
  · exact ⟨_, rfl, .nil .nil⟩
  · have h : SpellsMembers true ((name, v.compactChars) :: _) _ :=
      (spellsMembers_compactMembers ms).cons .nil .nil .nil .nil (spellsText_textChars name)
    exact ⟨_, rfl, by simpa using h⟩

theorem blank_space : Blank [' '] := by
  decide

theorem blank_newLine (depth : Nat) : Blank (Value.newLine depth) := by
  intro c hc
  rcases List.mem_cons.mp hc with rfl | hc
  · decide
  · rw [List.eq_of_mem_replicate hc]
    decide

theorem spellsMembers_prettyMembers (depth : Nat) (ms : List (String × Value)) :
    SpellsMembers false (ms.map fun m => (m.1, m.2.prettyChars (depth + 1)))
      (Value.prettyMembers depth ms) := by
  induction ms with
  | nil => exact .nil (blank_newLine depth)
  | cons m ms ih =>
      obtain ⟨name, v⟩ := m
      have h : SpellsMembers false ((name, v.prettyChars (depth + 1)) :: _) _ :=
        ih.cons .nil (blank_newLine (depth + 1)) .nil blank_space (spellsText_textChars name)
      simpa [Value.prettyMembers] using h

/-- An object with a line for every member is one of the ways to write it. -/
theorem exists_spells_pretty (depth : Nat) (ms : List (String × Value)) :
    ∃ cs, (Value.object ms).prettyChars depth = '\x7b' :: cs ∧
      SpellsMembers true (ms.map fun m => (m.1, m.2.prettyChars (depth + 1))) cs := by
  rcases ms with _ | ⟨⟨name, v⟩, ms⟩
  · exact ⟨_, by rw [Value.prettyChars]; rfl, .nil .nil⟩
  · have h : SpellsMembers true ((name, v.prettyChars (depth + 1)) :: _) _ :=
      (spellsMembers_prettyMembers depth ms).cons (blank_newLine (depth + 1)) .nil .nil
        blank_space (spellsText_textChars name)
    exact ⟨_, by rw [Value.prettyChars]; rfl, by simpa using h⟩

/-! ### Any members -/

variable {depth fuel : Nat} {ns : List (String × Value)}

/-- Two members have the same name, and the characters of one are read as the value of the
other. -/
def YieldsMember (depth : Nat) (m : String × List Char) (n : String × Value) : Prop :=
  m.1 = n.1 ∧ ∀ fuel, Yields (readValueFrom (fuel + 1) depth) m.2 n.2

/-- The members of an object are read in their order. -/
theorem readMembers_of_spells (h : SpellsMembers isFirst ms cs)
    (hms : List.Forall₂ (YieldsMember depth) ms ns) (hfuel : ms.length < fuel) (rest : List Char) :
    readMembers fuel depth isFirst (cs ++ rest) = .ok (ns, rest) := by
  induction h generalizing ns fuel with
  | nil hb =>
      obtain rfl := List.forall₂_nil_left_iff.mp hms
      obtain ⟨fuel, rfl⟩ := Nat.exists_eq_add_one_of_ne_zero (Nat.ne_of_gt hfuel)
      simp only [List.append_assoc, List.singleton_append, readMembers, nextName_of_nil hb, bind,
        Except.bind, pure, Except.pure]
  | @cons isFirst name b₁ b₂ b₃ b₄ quoted cs more ms hb₁ hb₂ hb₃ hb₄ hname h ih =>
      obtain ⟨⟨name', v⟩, ns, ⟨rfl, hv⟩, hns, rfl⟩ := List.forall₂_cons_left_iff.mp hms
      obtain ⟨ds, rfl, hread⟩ := readText_of_spells hname
      obtain ⟨fuel, rfl⟩ :=
        Nat.exists_eq_add_one_of_ne_zero (Nat.ne_of_gt (Nat.zero_lt_of_lt hfuel))
      obtain ⟨fuel, rfl⟩ := Nat.exists_eq_add_one_of_ne_zero (n := fuel) (by
        simp only [List.length_cons] at hfuel; omega)
      have hvalue := hv fuel b₄ (more ++ rest) hb₄ (h.ends rest)
      have hmore := ih hns (Nat.lt_of_succ_lt_succ hfuel)
      simp only [List.append_assoc, List.cons_append] at hvalue ⊢
      rw [readMembers]
      simp only [nextName_of_spells hb₁ hb₂, bind, Except.bind, hread, skipColon_of_blank hb₃,
        hvalue, hmore, pure, Except.pure]

/-- An object is read if the values of its members are. -/
theorem yields_object (hdepth : 1 < depth) (h : SpellsMembers true ms cs)
    (hms : List.Forall₂ (YieldsMember (depth - 1)) ms ns) :
    Yields (readValue depth) ('\x7b' :: cs) (.object ns) := by
  intro b rest hb _
  have hlength := h.length_lt
  have hfuel : ms.length < 2 * (b ++ '\x7b' :: cs ++ rest).length + 1 := by
    simp only [List.length_append, List.length_cons]
    omega
  have hread := readMembers_of_spells h hms hfuel rest
  rw [readValue, readValueFrom]
  simp only [List.append_assoc, hb.skipBlank_append, List.cons_append,
    skipBlank_of_not (c := '\x7b') (by decide), if_neg (Nat.not_le.mpr hdepth), bind, Except.bind,
    pure, Except.pure] at hread ⊢
  rw [hread]

/-! ### Records -/

namespace Shape

variable {σ α : Type} {shape : Shape σ α} {fields : List (Field σ)} {s s' : σ} {a : α}

/-- The members of an object are fields that have not been given before, and reading them one
after the other takes a record from `s` to `s'`. -/
inductive Collects (fields : List (Field σ)) (depth : Nat) :
    σ → List (String × List Char) → σ → Prop
  | nil (s : σ) : Collects fields depth s [] s
  | cons {s s' s'' : σ} {f : Field σ} {name : String} {cs : List Char}
      {ms : List (String × List Char)} (hf : fields.find? (·.name == name) = some f)
      (hset : f.isSet s = false) (hread : Yields (f.read depth s) cs s')
      (hms : Collects fields depth s' ms s'') : Collects fields depth s ((name, cs) :: ms) s''

theorem readMembers_of_collects (h : SpellsMembers isFirst ms cs)
    (hms : Collects fields depth s ms s') (hfuel : ms.length < fuel) (rest : List Char) :
    readMembers fields depth fuel isFirst s (cs ++ rest) = .ok (s', rest) := by
  induction h generalizing s fuel with
  | nil hb =>
      cases hms
      obtain ⟨fuel, rfl⟩ := Nat.exists_eq_add_one_of_ne_zero (Nat.ne_of_gt hfuel)
      simp only [List.append_assoc, List.singleton_append, readMembers, nextName_of_nil hb, bind,
        Except.bind, pure, Except.pure]
  | @cons isFirst name b₁ b₂ b₃ b₄ quoted cs more ms hb₁ hb₂ hb₃ hb₄ hname h ih =>
      cases hms with
      | @cons _ s₁ _ f _ _ _ hf hset hvalue hms =>
          obtain ⟨ds, rfl, hread⟩ := readText_of_spells hname
          obtain ⟨fuel, rfl⟩ :=
            Nat.exists_eq_add_one_of_ne_zero (Nat.ne_of_gt (Nat.zero_lt_of_lt hfuel))
          have hvalue := hvalue b₄ (more ++ rest) hb₄ (h.ends rest)
          have hmore := ih hms (Nat.lt_of_succ_lt_succ hfuel)
          simp only [List.append_assoc, List.cons_append] at hvalue ⊢
          rw [readMembers]
          simp only [nextName_of_spells hb₁ hb₂, bind, Except.bind, hread, hf, hset,
            Bool.false_eq_true, if_false, skipColon_of_blank hb₃, hvalue, hmore]

/-- A record is read from an object whose members are its fields. -/
theorem yields_object (hdepth : 1 < depth) (h : SpellsMembers true ms cs)
    (hms : Collects shape.fields (depth - 1) shape.start ms s) (hbuild : shape.build s = .ok a) :
    Yields (shape.read depth) ('\x7b' :: cs) a := by
  intro b rest hb _
  have hlength := h.length_lt
  have hfuel : ms.length < (cs ++ rest).length + 1 := by
    rw [List.length_append]
    omega
  have hread := readMembers_of_collects h hms hfuel rest
  rw [read]
  simp only [List.append_assoc, hb.skipBlank_append, List.cons_append,
    skipBlank_of_not (c := '\x7b') (by decide), if_neg (Nat.not_le.mpr hdepth), hread, hbuild, bind,
    Except.bind, pure, Except.pure, Except.mapError]

end Shape

end Json
end MerkleStore
