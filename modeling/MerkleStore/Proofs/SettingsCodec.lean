import MerkleStore.CommandLine.Run
import MerkleStore.Proofs.JsonCodec

/-!
# Settings that are kept are read back

The text of settings is a JSON document with a line for every member, and a file holds it in
UTF-8. Every part of it is read wherever it stands: a text in the spelling it is printed in, a
number by its digits, and a number that is missing as `null`. An object with a line for every
member is one of the ways to write it (`Json.exists_spells_pretty`), so each record is put
together from its fields (`Json.Shape.yields_object`).
-/

namespace MerkleStore

/-- Bytes that spell a text in UTF-8 are read as the text. -/
theorem Utf8.fromUTF8?_ofText (s : String) :
    String.fromUTF8? ⟨(Utf8.ofText s).toArray⟩ = some s := by
  have hbytes : (⟨(Utf8.ofText s).toArray⟩ : ByteArray) = s.toByteArray := by
    rw [← String.utf8Encode_toList, List.utf8Encode]
    exact (ByteArray.ext (List.data_toByteArray ..)).symm
  rw [hbytes, String.fromUTF8?, dif_pos s.isValidUTF8]
  rfl

namespace Json

variable {α β : Type} {read : List Char → Except Fault (α × List Char)} {a : α} {s : String}
  {cs : List Char} {n bound : Nat}

/-! ## Single values -/

theorem Yields.map (h : Yields read cs a) (f : α → β) :
    Yields (fun cs => do let (a, cs) ← read cs; return (f a, cs)) cs (f a) := by
  intro b rest hb hrest
  simp only [h b rest hb hrest, bind, Except.bind, pure, Except.pure]

theorem yields_readTextField (h : SpellsText s cs) (expected : String) :
    Yields (readTextField expected) cs s := by
  intro b rest hb _
  obtain ⟨ds, rfl, hread⟩ := readText_of_spells h
  rw [readTextField]
  simp only [List.append_assoc, hb.skipBlank_append, List.cons_append,
    skipBlank_of_not (c := '"') (by decide), hread]

theorem skipBlank_toDigits (n : Nat) (rest : List Char) :
    skipBlank (Nat.toDigits 10 n ++ rest) = Nat.toDigits 10 n ++ rest :=
  skipBlank_of_opens ((Value.opens_natural n).append rest)

theorem yields_readNatural (hn : n < bound) (hbound : bound ≤ wordBound) (expected : String) :
    Yields (readNatural bound expected) (Nat.toDigits 10 n) n := by
  intro b rest hb hrest
  have hread := readNumber_toDigits n hrest
  rw [if_pos (Nat.lt_of_lt_of_le hn hbound)] at hread
  rw [readNatural, List.append_assoc, hb.skipBlank_append, skipBlank_toDigits]
  obtain ⟨c, ds, hds⟩ := List.exists_cons_of_ne_nil (Nat.toDigits_ne_nil (b := 10) (n := n))
  have hdigit : isDigit c = true := by
    rw [isDigit_eq]
    exact isDigit_of_mem_toDigits c (hds ▸ List.mem_cons_self)
  rw [hds, List.cons_append] at hread ⊢
  simp [hdigit, hread, hn, bind, Except.bind, pure, Except.pure]

theorem yields_readOptional_null : Yields (readOptional read) "null".toList none := by
  intro b rest hb _
  rw [readOptional, List.append_assoc, hb.skipBlank_append]
  rfl

/-- A number that is given is read in front of anything it can be mistaken for. -/
theorem yields_readOptional_natural (hn : n < bound) (hbound : bound ≤ wordBound)
    (expected : String) :
    Yields (readOptional (readNatural bound expected)) (Nat.toDigits 10 n) (some n) := by
  intro b rest hb hrest
  have hread := yields_readNatural hn hbound expected [] rest .nil hrest
  obtain ⟨c, ds, hds⟩ := List.exists_cons_of_ne_nil (Nat.toDigits_ne_nil (b := 10) (n := n))
  have hdigit := isDigit_of_mem_toDigits c (hds ▸ List.mem_cons_self)
  have hnull : c ≠ 'n' := by
    rintro rfl
    cases hdigit
  rw [readOptional, List.append_assoc, hb.skipBlank_append, skipBlank_toDigits]
  rw [List.nil_append] at hread
  rw [hds, List.cons_append] at hread ⊢
  split
  · next heq => exact absurd (List.cons.inj heq).1 hnull
  · simp only [hread, bind, Except.bind, pure, Except.pure]

end Json

open Json

/-! ## The records -/

/-- The numbers of settings are no greater than their kinds allow. -/
structure Settings.Fits (c : Settings) : Prop where
  port : c.server.port < Nat.pow 2 16
  idleTimeout : ∀ n ∈ c.server.idleTimeout, n < wordBound
  maxMessageSize : ∀ n ∈ c.server.maxMessageSize, n < wordBound

instance (c : Settings) : Decidable c.Fits :=
  decidable_of_iff (c.server.port < Nat.pow 2 16 ∧ (∀ n ∈ c.server.idleTimeout, n < wordBound) ∧
      ∀ n ∈ c.server.maxMessageSize, n < wordBound)
    ⟨fun ⟨h₁, h₂, h₃⟩ => ⟨h₁, h₂, h₃⟩, fun ⟨h₁, h₂, h₃⟩ => ⟨h₁, h₂, h₃⟩⟩

theorem ServerSettings.yields_optionalNumber {x : Option Nat} (hx : ∀ n ∈ x, n < wordBound)
    (expected : String) (depth : Nat) :
    Yields (readOptional (readNatural wordBound expected))
      ((optionalNumber x).prettyChars depth) x := by
  cases x with
  | none => exact yields_readOptional_null
  | some n => exact yields_readOptional_natural (hx n rfl) (Nat.le_refl _) expected

theorem ServerSettings.yields_shape {c : ServerSettings} (hport : c.port < Nat.pow 2 16)
    (hidle : ∀ n ∈ c.idleTimeout, n < wordBound) (hmax : ∀ n ∈ c.maxMessageSize, n < wordBound)
    {depth : Nat} (hdepth : 1 < depth) (inside : Nat) :
    Yields (shape.read depth) (c.toJson.prettyChars inside) c := by
  obtain ⟨cs, hchars, hcs⟩ := exists_spells_pretty inside
    [("host", .text c.host), ("port", .natural c.port),
      ("idle_timeout_secs", optionalNumber c.idleTimeout),
      ("max_message_size", optionalNumber c.maxMessageSize)]
  rw [toJson, hchars]
  have hhost := (yields_readTextField (spellsText_textChars c.host) "a string").map fun s =>
    (⟨some s, none, none, none⟩ : Partial)
  have hport := (yields_readNatural hport (by decide) "u16").map fun n =>
    (⟨some c.host, some n, none, none⟩ : Partial)
  have hidle := (yields_optionalNumber hidle "u64" (inside + 1)).map fun x =>
    (⟨some c.host, some c.port, some x, none⟩ : Partial)
  have hmax := (yields_optionalNumber hmax "usize" (inside + 1)).map fun x =>
    (⟨some c.host, some c.port, some c.idleTimeout, some x⟩ : Partial)
  exact Shape.yields_object hdepth hcs
    (.cons rfl rfl hhost (.cons rfl rfl hport (.cons rfl rfl hidle (.cons rfl rfl hmax (.nil _)))))
    rfl

namespace Settings

theorem yields_pathShape (path : String) {depth : Nat} (hdepth : 1 < depth) (inside : Nat) :
    Yields (pathShape.read depth) ((Value.object [("path", .text path)]).prettyChars inside)
      path := by
  obtain ⟨cs, hchars, hcs⟩ := exists_spells_pretty inside [("path", .text path)]
  rw [hchars]
  have hpath := (yields_readTextField (spellsText_textChars path) "path string").map some
  exact Shape.yields_object hdepth hcs (.cons rfl rfl hpath (.nil _)) rfl

theorem yields_shape {c : Settings} (hc : c.Fits) (base : Settings) :
    Yields ((shape base).read depthLimit) (c.toJson.prettyChars 0) c := by
  obtain ⟨cs, hchars, hcs⟩ := exists_spells_pretty 0
    [("store", .object [("path", .text c.path)]), ("server", c.server.toJson)]
  have hdepth : 1 < depthLimit - 1 := by decide
  have hpath := (yields_pathShape c.path hdepth 1).map fun path =>
    (some path, (none : Option ServerSettings))
  have hserver :=
    (ServerSettings.yields_shape hc.port hc.idleTimeout hc.maxMessageSize hdepth 1).map
      fun server => (some c.path, some server)
  rw [toJson, hchars]
  exact Shape.yields_object (by decide) hcs
    (.cons rfl rfl hpath (.cons rfl rfl hserver (.nil _))) rfl

/-- Settings that are kept in a file are read back from it, whatever the settings are where it
says nothing. -/
theorem ofSource_text {c : Settings} (hc : c.Fits) (base : Settings) (path : String) :
    ofSource base path (CommandLine.sourceOf (.ok (Utf8.ofText c.text))) = .ok c := by
  have htext : c.text.toList = [] ++ c.toJson.prettyChars 0 ++ [] := by
    simp [text, Value.pretty]
  have hparse : parse base c.text = .ok c := (yields_shape hc base).parseWith .nil .nil htext
  simp only [CommandLine.sourceOf, Utf8.fromUTF8?_ofText, ofSource, hparse, Except.mapError]

/-- Settings with the empty path, a host of characters that are escaped and characters that are
not, the largest numbers and one that is missing. -/
def sampleSettings : Settings := ⟨"", "\"\\\n\x01/é😀", 65535, none, some 18446744073709551615⟩

/-- The settings are read back from what their text is in a file. -/
theorem ofSource_sampleText : sampleSettings.Fits ∧
    sampleSettings.text = "\x7b\n  \"store\": \x7b\n    \"path\": \"\"\n  \x7d,\n" ++
      "  \"server\": \x7b\n    \"host\": \"\\\"\\\\\\n\\u0001/é😀\",\n    \"port\": 65535,\n" ++
      "    \"idle_timeout_secs\": null,\n    \"max_message_size\": 18446744073709551615\n" ++
      "  \x7d\n\x7d" ∧
    ofSource (initial ⟨none, none⟩) "config.json"
        (CommandLine.sourceOf (.ok (Utf8.ofText sampleSettings.text))) = .ok sampleSettings :=
  ⟨by decide, by decide +kernel, ofSource_text (by decide) _ _⟩

end Settings

end MerkleStore
