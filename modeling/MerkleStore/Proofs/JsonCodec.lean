import MerkleStore.Proofs.Spelling

/-!
# What is written as JSON is read back

Words of a text first: digits are read as the number they were written for, and the
characters of a text come back from the spelling they are printed in. Values are then put together.
A value reads as another one if its text, in front of anything that can follow a
value, is read as that one (`Value.ReadsAs`); an object does so if its members do
(`Value.readsAs_object`), and a list is taken element by element (`readList_compactChars`).
A whole number from `2 ^ 64` on is not given back by any reader
(`Value.readsAs_or_refused`).
-/

namespace MerkleStore

/-! ## Digits -/

/-- The digits of a positive number do not start with a zero. -/
theorem head?_toDigits {n : Nat} (hn : 0 < n) : (Nat.toDigits 10 n).head? ≠ some '0' := by
  induction n using Nat.strongRecOn with
  | ind n ih =>
      rcases Nat.lt_or_ge n 10 with hlt | hge
      · have hdigit : ∀ d : Fin 10, 0 < d.val → d.val.digitChar ≠ '0' := by decide
        rw [Nat.toDigits_of_lt_base hlt]
        simpa using hdigit ⟨n, hlt⟩ hn
      · rw [Nat.toDigits_of_base_le (by decide) hge, List.head?_append]
        have hrest := ih (n / 10) (by omega) (by omega)
        rwa [List.head?_eq_some_head Nat.toDigits_ne_nil, Option.some_or,
          ← List.head?_eq_some_head Nat.toDigits_ne_nil]

theorem le_ofDigitChars (cs : List Char) (n : Nat) : n ≤ Nat.ofDigitChars 10 cs n := by
  induction cs generalizing n with
  | nil => exact Nat.le_refl n
  | cons c cs ih =>
      rw [Nat.ofDigitChars_cons]
      exact Nat.le_trans (by omega) (ih _)

theorem toNat_of_isDigit {c : Char} (hc : c.isDigit = true) : 48 ≤ c.toNat ∧ c.toNat ≤ 57 := by
  simpa [Char.isDigit, UInt32.le_iff_toNat_le] using hc

theorem isDigit_of_mem_toDigits {n : Nat} : ∀ c ∈ Nat.toDigits 10 n, c.isDigit = true :=
  fun _ hc => Nat.isDigit_of_mem_toDigits (by decide) (by decide) hc

namespace Decimal

theorem digitValue?_of_isDigit {c : Char} (hc : c.isDigit = true) :
    digitValue? c = some (c.toNat - 48) := by
  rw [digitValue?, if_pos (toNat_of_isDigit hc)]

/-- Digits are read as a number unless it is past the bound. -/
theorem readDigits_eq {bound : Nat} {cs : List Char} (hcs : ∀ c ∈ cs, c.isDigit = true) {n : Nat}
    (hn : n < bound) :
    readDigits bound n cs =
      if Nat.ofDigitChars 10 cs n < bound then .ok (Nat.ofDigitChars 10 cs n)
      else .error .tooLarge := by
  induction cs generalizing n with
  | nil => rw [Nat.ofDigitChars_nil, if_pos hn, readDigits]
  | cons c cs ih =>
      have hrest := le_ofDigitChars cs (10 * n + (c.toNat - 48))
      rw [readDigits, digitValue?_of_isDigit (hcs c List.mem_cons_self), Nat.ofDigitChars_cons]
      dsimp only
      split
      · next hle => exact (if_neg (by simp only [Char.reduceToNat]; omega)).symm
      · next hlt => exact ih (fun d hd => hcs d (List.mem_cons_of_mem _ hd)) (Nat.not_le.mp hlt)

/-- The number a text was written for is read back if it is below the bound. -/
theorem read_text {bound : Nat} (hbound : 0 < bound) (n : Nat) :
    read bound (text n) = if n < bound then .ok n else .error .tooLarge := by
  have hdigits := readDigits_eq (isDigit_of_mem_toDigits (n := n)) hbound
  rw [Nat.ofDigitChars_ten_toDigits] at hdigits
  rw [read, text, String.toList_ofList]
  split
  · next heq => exact absurd heq Nat.toDigits_ne_nil
  · next heq => exact absurd (isDigit_of_mem_toDigits '+' (heq ▸ List.mem_cons_self)) (by decide)
  · next heq => exact absurd (isDigit_of_mem_toDigits '+' (heq ▸ List.mem_cons_self)) (by decide)
  · exact hdigits

theorem isBlank_of_isDigit {c : Char} (hc : c.isDigit = true) : isBlank c = false := by
  have := toNat_of_isDigit hc
  simp [isBlank]
  omega

theorem trim_text (n : Nat) : trim (text n) = text n := by
  have hblank : ∀ c ∈ Nat.toDigits 10 n, isBlank c = false := fun c hc =>
    isBlank_of_isDigit (isDigit_of_mem_toDigits c hc)
  have hdrop {cs : List Char} (hcs : ∀ c ∈ cs, isBlank c = false) : cs.dropWhile isBlank = cs := by
    cases cs with
    | nil => rfl
    | cons c cs => rw [List.dropWhile_cons_of_neg (by simp [hcs c List.mem_cons_self])]
  rw [trim, text, String.toList_ofList, hdrop hblank, hdrop (by simpa using hblank),
    List.reverse_reverse]

end Decimal

namespace Json

/-! ## Words -/

/-- What can follow a value in a text: the end, or a comma or closing bracket. -/
inductive Closes : List Char → Prop
  | nil : Closes []
  | comma (cs : List Char) : Closes (',' :: cs)
  | bracket (cs : List Char) : Closes (']' :: cs)
  | brace (cs : List Char) : Closes ('\x7d' :: cs)

theorem Closes.ends {rest : List Char} (h : Closes rest) : Ends rest := by
  cases h with
  | nil => exact .nil
  | _ => exact .cons (by decide) _

theorem isDigit_eq (c : Char) : isDigit c = c.isDigit := by
  rw [isDigit, Char.isDigit]
  rfl

/-- Digits are taken into a number as long as it stays below the bound. -/
theorem accumulate_cases {cs : List Char} (hcs : ∀ c ∈ cs, c.isDigit = true) {n : Nat}
    (hn : n < wordBound) :
    (Nat.ofDigitChars 10 cs n < wordBound ∧ accumulate n cs = (Nat.ofDigitChars 10 cs n, 0)) ∨
      wordBound ≤ Nat.ofDigitChars 10 cs n ∧ (accumulate n cs).2 ≠ 0 := by
  induction cs generalizing n with
  | nil => exact .inl ⟨hn, rfl⟩
  | cons c cs ih =>
      have hrest := le_ofDigitChars cs (10 * n + (c.toNat - 48))
      have hcons : Nat.ofDigitChars 10 (c :: cs) n =
          Nat.ofDigitChars 10 cs (10 * n + (c.toNat - 48)) := Nat.ofDigitChars_cons
      rw [accumulate, digitValue, hcons]
      split
      · next hlt => exact ih (fun d hd => hcs d (List.mem_cons_of_mem _ hd)) hlt
      · next hge => exact .inr ⟨by omega, Nat.succ_ne_zero _⟩

/-- Nothing of what can follow a value belongs to a number. -/
theorem Ends.not_number {c : Char} {rest : List Char} (h : Ends (c :: rest)) :
    isDigit c = false ∧ c ≠ '.' ∧ c ≠ 'e' ∧ c ≠ 'E' := by
  have := h c rfl
  simp only [List.mem_cons, List.not_mem_nil, or_false] at this
  rcases this with rfl | rfl | rfl | rfl | rfl | rfl | rfl <;> decide

theorem Ends.digits {rest : List Char} (h : Ends rest) :
    rest.takeWhile isDigit = [] ∧ rest.dropWhile isDigit = rest := by
  cases rest with
  | nil => exact ⟨rfl, rfl⟩
  | cons c rest => simp [h.not_number.1]

/-- A number without fraction and exponent. -/
theorem readSuffix_of_ends {rest : List Char} (hrest : Ends rest) (significand leftOut : Nat) :
    readSuffix false significand leftOut rest =
      if leftOut = 0 then .ok (.integer significand, rest)
      else realAt false significand leftOut rest := by
  cases rest with
  | nil => by_cases h : leftOut = 0 <;> simp [readSuffix, whole, h]
  | cons c rest =>
      obtain ⟨-, hpoint, hlower, hupper⟩ := hrest.not_number
      by_cases h : leftOut = 0 <;> simp [readSuffix, whole, h, hpoint, hlower, hupper]

/-- The digits of a number are read as this number, or as a real one if it does not fit
sixty-four bits. -/
theorem readNumber_toDigits (n : Nat) {rest : List Char} (hrest : Ends rest) :
    readNumber (Nat.toDigits 10 n ++ rest) =
      if n < wordBound then .ok (.integer n, rest)
      else realAt false (accumulate 0 (Nat.toDigits 10 n)).1
        (accumulate 0 (Nat.toDigits 10 n)).2 rest := by
  have hsuffix := readSuffix_of_ends hrest
  have hrest' := hrest.digits
  rcases Nat.eq_zero_or_pos n with rfl | hpos
  · cases rest with
    | nil => simp [readNumber, readMagnitude, hsuffix, wordBound]
    | cons c rest => simp [readNumber, readMagnitude, hrest.not_number.1, hsuffix, wordBound]
  · have hdigits := isDigit_of_mem_toDigits (n := n)
    have haccumulate := accumulate_cases hdigits (show 0 < wordBound by decide)
    rw [Nat.ofDigitChars_ten_toDigits] at haccumulate
    obtain ⟨c, cs, hcs⟩ := List.exists_cons_of_ne_nil (Nat.toDigits_ne_nil (b := 10) (n := n))
    have hzero : c ≠ '0' := by simpa [hcs] using head?_toDigits hpos
    rw [hcs] at hdigits haccumulate ⊢
    have hall : ∀ d ∈ c :: cs, isDigit d = true := fun d hd => isDigit_eq d ▸ hdigits d hd
    have hsign : c ≠ '-' := by
      rintro rfl
      exact absurd (hall '-' List.mem_cons_self) (by decide)
    have htake : (c :: (cs ++ rest)).takeWhile isDigit = c :: cs := by
      rw [← List.cons_append, List.takeWhile_append_of_pos hall, hrest'.1, List.append_nil]
    have hdrop : (cs ++ rest).dropWhile isDigit = rest := by
      rw [List.dropWhile_append_of_pos fun d hd => hall d (List.mem_cons_of_mem _ hd), hrest'.2]
    have hread : readNumber (c :: (cs ++ rest)) = readMagnitude false (c :: (cs ++ rest)) := by
      rw [readNumber]
      intro cs' heq
      exact hsign (List.cons.inj heq).1
    rw [List.cons_append, hread]
    simp only [readMagnitude, if_neg hzero, hall c List.mem_cons_self, if_true, htake, hdrop]
    rw [hsuffix]
    rcases haccumulate with ⟨hlt, heq⟩ | ⟨hge, hne⟩
    · rw [heq, if_pos rfl, if_pos hlt]
    · rw [if_neg hne, if_neg (Nat.not_lt.mpr hge)]

theorem realAt_def : realAt = fun isNegative significand exponent rest =>
    match real? isNegative significand exponent with
    | some x => .ok (.real x, rest)
    | none => .error (.here .numberOutOfRange rest) := by
  delta realAt
  rfl

/-- What a real number is does not depend on what follows it. -/
theorem realAt_cases (isNegative : Bool) (significand : Nat) (exponent : Int) :
    (∀ rest, realAt isNegative significand exponent rest = .error (.here .numberOutOfRange rest)) ∨
      ∃ x, ∀ rest, realAt isNegative significand exponent rest = .ok (.real x, rest) := by
  rw [realAt_def]
  -- rounding must not be unfolded: it multiplies by numbers of a thousand bits
  generalize real? = round
  dsimp only
  cases round isNegative significand exponent with
  | none => exact .inl fun _ => rfl
  | some x => exact .inr ⟨x, fun _ => rfl⟩

/-- A text is read back behind its opening quote. -/
theorem readText_textChars (s : String) (rest : List Char) :
    readText ((textChars s).tail ++ rest) = .ok (s, rest) := by
  obtain ⟨ds, heq, hread⟩ := readText_of_spells (spellsText_textChars s)
  rw [heq, List.tail_cons, hread]

/-! ## Values -/

/-- Characters that start with something other than blank space or the end of a list. -/
def Opens (cs : List Char) : Prop := ∃ c cs', cs = c :: cs' ∧ isBlank c = false ∧ c ≠ ']'

theorem Opens.append {cs : List Char} (h : Opens cs) (rest : List Char) : Opens (cs ++ rest) := by
  obtain ⟨c, cs', rfl, hc⟩ := h
  exact ⟨c, cs' ++ rest, rfl, hc⟩

theorem Opens.length_pos {cs : List Char} (h : Opens cs) : 0 < cs.length := by
  obtain ⟨c, cs', rfl, -⟩ := h
  exact Nat.zero_lt_succ _

theorem Opens.exists_fuel {cs : List Char} {fuel : Nat} (h : Opens cs) (hfuel : cs.length ≤ fuel) :
    ∃ n, fuel = n + 1 :=
  Nat.exists_eq_add_one_of_ne_zero (Nat.ne_of_gt (Nat.lt_of_lt_of_le h.length_pos hfuel))

theorem skipBlank_of_opens {cs : List Char} (h : Opens cs) : skipBlank cs = cs := by
  obtain ⟨c, cs', rfl, hblank, -⟩ := h
  exact skipBlank_of_not hblank cs'

/-- The first element of a list stands behind the opening bracket. -/
theorem nextItem_of_opens {cs : List Char} (h : Opens cs) :
    nextItem true cs = .ok (some cs, []) := by
  obtain ⟨c, cs', rfl, hblank, hend⟩ := id h
  rw [nextItem, skipBlank_of_opens h]
  split
  · next heq => cases heq
  · next heq => exact absurd (List.cons.inj heq).1 hend
  · next heq =>
      cases heq
      rfl

/-- A further element of a list stands behind a comma. -/
theorem nextItem_comma {cs : List Char} (h : Opens cs) :
    nextItem false (',' :: cs) = .ok (some cs, []) := by
  obtain ⟨c, cs', rfl, hblank, hend⟩ := id h
  have hcomma : skipBlank (',' :: c :: cs') = ',' :: c :: cs' :=
    skipBlank_of_opens ⟨',', _, rfl, by decide, by decide⟩
  rw [nextItem, hcomma]
  split
  · next heq => cases heq
  · next heq => cases heq
  · next heq =>
      cases heq
      simp only [skipBlank_of_opens h, if_true, Bool.false_eq_true, if_false]
      split
      · next heq => cases heq
      · next heq => exact absurd (List.cons.inj heq).1 hend
      · rfl

theorem skipColon_colon (cs : List Char) : skipColon (':' :: cs) = .ok cs :=
  skipColon_of_blank .nil cs

namespace Value

/-- The text of a value is read as a value, whatever closes it. -/
structure ReadsAs (depth : Nat) (v w : Value) : Prop where
  opens : Opens v.compactChars
  reads : ∀ (fuel : Nat) (rest : List Char), v.compactChars.length ≤ fuel → Closes rest →
    readValueFrom fuel depth (v.compactChars ++ rest) = .ok (w, rest)

/-- The text of a value is refused, whatever closes it. -/
structure Refused (depth : Nat) (v : Value) : Prop where
  opens : Opens v.compactChars
  refuses : ∀ (fuel : Nat) (rest : List Char), v.compactChars.length ≤ fuel → Closes rest →
    ∃ e, readValueFrom fuel depth (v.compactChars ++ rest) = .error e

variable {depth fuel : Nat} {v w : Value} {rest : List Char}

theorem readsAs_boolean (b : Bool) : (boolean b).ReadsAs depth (boolean b) where
  opens := by cases b <;> exact ⟨_, _, rfl, by decide, by decide⟩
  reads := by
    rintro (_ | fuel) rest hfuel -
    · cases b <;> simp [compactChars, booleanChars] at hfuel
    · cases b <;> rfl

theorem readsAs_text (s : String) : (text s).ReadsAs depth (text s) where
  opens := ⟨'"', _, rfl, by decide, by decide⟩
  reads := by
    rintro (_ | fuel) rest hfuel -
    · simp [compactChars, textChars] at hfuel
    · have hread := readText_textChars s rest
      simp only [textChars, List.cons_append, List.tail_cons] at hread
      simp only [compactChars, textChars, List.cons_append, readValueFrom,
        skipBlank_of_opens ⟨'"', _, rfl, by decide, by decide⟩, hread, bind, Except.bind, pure,
        Except.pure]

theorem opens_natural (n : Nat) : Opens (natural n).compactChars := by
  obtain ⟨c, cs, hcs⟩ := List.exists_cons_of_ne_nil (Nat.toDigits_ne_nil (b := 10) (n := n))
  have hdigit := toNat_of_isDigit (isDigit_of_mem_toDigits c (hcs ▸ List.mem_cons_self))
  refine ⟨c, cs, hcs, ?_, by rintro rfl; revert hdigit; decide⟩
  have hne (d : Char) (hd : d.toNat < 48) : c ≠ d := by
    rintro rfl
    omega
  simp [isBlank, hne]

/-- A whole number is read as the number its digits are. -/
theorem readValueFrom_natural (n fuel depth : Nat) (rest : List Char) :
    readValueFrom (fuel + 1) depth ((natural n).compactChars ++ rest) =
      (readNumber (Nat.toDigits 10 n ++ rest)).map fun (x, cs) => (.number x, cs) := by
  have hopens := (opens_natural n).append rest
  obtain ⟨c, cs, hcs⟩ := List.exists_cons_of_ne_nil (Nat.toDigits_ne_nil (b := 10) (n := n))
  have hdigit : isDigit c = true := by
    rw [isDigit_eq]
    exact isDigit_of_mem_toDigits c (hcs ▸ List.mem_cons_self)
  have hne (d : Char) (hd : isDigit d = false) : c ≠ d := by
    rintro rfl
    rw [hd] at hdigit
    cases hdigit
  rw [readValueFrom, skipBlank_of_opens hopens]
  simp only [natural, compactChars, Number.chars, integerChars, hcs, List.cons_append]
  split
  · next heq => cases heq
  · next heq => exact absurd (List.cons.inj heq).1 (hne _ (by decide))
  · next heq => exact absurd (List.cons.inj heq).1 (hne _ (by decide))
  · next heq => exact absurd (List.cons.inj heq).1 (hne _ (by decide))
  · next heq => exact absurd (List.cons.inj heq).1 (hne _ (by decide))
  · next heq => exact absurd (List.cons.inj heq).1 (hne _ (by decide))
  · next heq => exact absurd (List.cons.inj heq).1 (hne _ (by decide))
  · next heq =>
      cases heq
      simp only [hdigit, Bool.or_true, if_true]
      cases readNumber (c :: (cs ++ rest)) <;> rfl

/-- A whole number that fits sixty-four bits is read back. -/
theorem readsAs_natural {n : Nat} (hn : n < wordBound) :
    (natural n).ReadsAs depth (natural n) where
  opens := opens_natural n
  reads := by
    intro fuel rest hfuel hrest
    obtain ⟨fuel, rfl⟩ := (opens_natural n).exists_fuel hfuel
    rw [readValueFrom_natural, readNumber_toDigits n hrest.ends, if_pos hn]
    rfl

/-- A whole number that does not fit is read as a real one, or refused. -/
theorem readsAs_or_refused {n : Nat} (hn : wordBound ≤ n) :
    (∃ x, (natural n).ReadsAs depth (number (.real x))) ∨ (natural n).Refused depth := by
  have hread (fuel : Nat) {rest : List Char} (hrest : Closes rest) :
      readValueFrom (fuel + 1) depth ((natural n).compactChars ++ rest) =
        (realAt false (accumulate 0 (Nat.toDigits 10 n)).1
          (accumulate 0 (Nat.toDigits 10 n)).2 rest).map fun (x, cs) => (.number x, cs) := by
    rw [readValueFrom_natural, readNumber_toDigits n hrest.ends, if_neg (Nat.not_lt.mpr hn)]
  rcases realAt_cases false (accumulate 0 (Nat.toDigits 10 n)).1
    (accumulate 0 (Nat.toDigits 10 n)).2 with hreal | ⟨x, hreal⟩
  · refine .inr ⟨opens_natural n, fun fuel rest hfuel hrest => ?_⟩
    obtain ⟨fuel, rfl⟩ := (opens_natural n).exists_fuel hfuel
    exact ⟨_, (hread fuel hrest).trans (congrArg _ (hreal rest))⟩
  · refine .inl ⟨x, opens_natural n, fun fuel rest hfuel hrest => ?_⟩
    obtain ⟨fuel, rfl⟩ := (opens_natural n).exists_fuel hfuel
    exact (hread fuel hrest).trans (congrArg _ (hreal rest))

/-! ### Lists -/

theorem opens_array (vs : List Value) : Opens (array vs).compactChars := by
  cases vs <;> exact ⟨'[', _, rfl, by decide, by decide⟩

theorem closes_compactItems (vs : List Value) (rest : List Char) :
    Closes (compactItems vs ++ rest) := by
  cases vs with
  | nil => exact .bracket _
  | cons => exact .comma _

theorem length_compactItems_pos (vs : List Value) : 0 < (compactItems vs).length := by
  cases vs <;> simp [compactItems]

/-! ### Objects -/

/-- Two members have the same name, and the value of one is read as that of the other. -/
def MemberReadsAs (depth : Nat) (m n : String × Value) : Prop :=
  m.1 = n.1 ∧ m.2.ReadsAs depth n.2

variable {ms ns : List (String × Value)} {name : String}

theorem closes_compactMembers (ms : List (String × Value)) (rest : List Char) :
    Closes (compactMembers ms ++ rest) := by
  rcases ms with _ | ⟨_, _⟩
  · exact .brace _
  · exact .comma _

theorem length_compactMembers_pos (ms : List (String × Value)) :
    0 < (compactMembers ms).length := by
  rcases ms with _ | ⟨_, _⟩ <;> simp [compactMembers]

/-- The name of a member is read, and then its value. -/
theorem readMembers_next {isFirst : Bool} {cs more : List Char}
    (hnext : nextName isFirst cs =
      .ok (some ((textChars name).tail ++ ':' :: (v.compactChars ++ more)), [])) :
    readMembers (fuel + 1) depth isFirst cs =
      (readValueFrom fuel depth (v.compactChars ++ more)).bind fun (w, cs) =>
        (readMembers fuel depth false cs).map fun (ns, cs) => ((name, w) :: ns, cs) := by
  simp only [readMembers, bind, Except.bind, hnext, readText_textChars, skipColon_colon]
  cases readValueFrom fuel depth (v.compactChars ++ more) with
  | error e => rfl
  | ok found => cases readMembers fuel depth false found.2 <;> rfl

theorem readMembers_reads {isFirst : Bool} {cs more : List Char}
    (hnext : nextName isFirst cs =
      .ok (some ((textChars name).tail ++ ':' :: (v.compactChars ++ more)), []))
    (hv : v.ReadsAs depth w) (hfuel : v.compactChars.length ≤ fuel) (hmore : Closes more) :
    readMembers (fuel + 1) depth isFirst cs =
      (readMembers fuel depth false more).map fun (ns, cs) => ((name, w) :: ns, cs) := by
  rw [readMembers_next hnext, hv.reads fuel more hfuel hmore]
  rfl

/-- The first member of an object stands behind the opening bracket. -/
theorem nextName_textChars (name : String) (cs : List Char) :
    nextName true (textChars name ++ cs) = .ok (some ((textChars name).tail ++ cs), []) :=
  nextName_of_spells .nil .nil _

/-- A further member of an object stands behind a comma. -/
theorem nextName_comma (name : String) (cs : List Char) :
    nextName false (',' :: (textChars name ++ cs)) =
      .ok (some ((textChars name).tail ++ cs), []) :=
  nextName_of_spells .nil .nil _

/-- The further members of an object are read up to its end. -/
theorem readMembers_compactMembers (h : List.Forall₂ (MemberReadsAs depth) ms ns)
    (hfuel : (compactMembers ms).length ≤ fuel) :
    readMembers fuel depth false (compactMembers ms ++ rest) = .ok (ns, rest) := by
  induction h generalizing fuel with
  | nil =>
      obtain ⟨fuel, rfl⟩ := Nat.exists_eq_add_one_of_ne_zero
        (Nat.ne_of_gt (Nat.lt_of_lt_of_le (length_compactMembers_pos []) hfuel))
      rfl
  | @cons m n ms ns hm hms ih =>
      obtain ⟨name, v⟩ := m
      obtain ⟨name', w⟩ := n
      obtain ⟨rfl, hv⟩ : name = name' ∧ v.ReadsAs depth w := hm
      obtain ⟨fuel, rfl⟩ := Nat.exists_eq_add_one_of_ne_zero
        (Nat.ne_of_gt (Nat.lt_of_lt_of_le (length_compactMembers_pos _) hfuel))
      simp only [compactMembers, List.length_append, List.length_cons] at hfuel
      have hpos := length_compactMembers_pos ms
      have hnext : nextName false (compactMembers ((name, v) :: ms) ++ rest) = .ok
          (some ((textChars name).tail ++ ':' :: (v.compactChars ++ (compactMembers ms ++ rest))),
            []) := by
        simp only [compactMembers, List.cons_append, List.append_assoc]
        exact nextName_comma name _
      rw [readMembers_reads hnext hv (by omega) (closes_compactMembers ms rest), ih (by omega)]
      rfl

/-- Members are refused from the first value on that is. -/
theorem readMembers_refused (h : List.Forall₂ (MemberReadsAs depth) ms ns) (hv : v.Refused depth)
    {ms' : List (String × Value)}
    (hfuel : (compactMembers (ms ++ (name, v) :: ms')).length ≤ fuel) :
    ∃ e, readMembers fuel depth false (compactMembers (ms ++ (name, v) :: ms') ++ rest) =
      .error e := by
  obtain ⟨fuel, rfl⟩ := Nat.exists_eq_add_one_of_ne_zero
    (Nat.ne_of_gt (Nat.lt_of_lt_of_le (length_compactMembers_pos _) hfuel))
  induction h generalizing fuel with
  | nil =>
      simp only [List.nil_append, compactMembers, List.cons_append, List.append_assoc,
        List.length_append, List.length_cons] at hfuel ⊢
      obtain ⟨e, he⟩ := hv.refuses fuel (compactMembers ms' ++ rest) (by omega)
        (closes_compactMembers ms' rest)
      exact ⟨e, by rw [readMembers_next (nextName_comma name _), he, Except.bind]⟩
  | @cons m n ms ns hm hms ih =>
      obtain ⟨name', v'⟩ := m
      obtain ⟨-, hv'⟩ : name' = n.1 ∧ v'.ReadsAs depth n.2 := hm
      simp only [List.cons_append, compactMembers, List.append_assoc, List.length_append,
        List.length_cons] at hfuel ih ⊢
      have hpos := length_compactMembers_pos (ms ++ (name, v) :: ms')
      obtain ⟨fuel, rfl⟩ := Nat.exists_eq_add_one_of_ne_zero (n := fuel) (by omega)
      obtain ⟨e, he⟩ := ih fuel (by omega)
      exact ⟨e, by rw [readMembers_reads (nextName_comma name' _) hv' (by omega)
        (closes_compactMembers _ rest), he, Except.map]⟩

theorem readValueFrom_brace (hdepth : 1 < depth) (fuel : Nat) (cs : List Char) :
    readValueFrom (fuel + 1) depth ('\x7b' :: cs) =
      (readMembers fuel (depth - 1) true cs).map fun (members, cs) => (object members, cs) := by
  simp only [readValueFrom, skipBlank_of_opens ⟨'\x7b', cs, rfl, by decide, by decide⟩,
    if_neg (Nat.not_le.mpr hdepth), bind, Except.bind, pure, Except.pure]
  cases readMembers fuel (depth - 1) true cs <;> rfl

theorem opens_object (ms : List (String × Value)) : Opens (object ms).compactChars := by
  rcases ms with _ | ⟨_, _⟩ <;> exact ⟨'\x7b', _, rfl, by decide, by decide⟩

/-- An object is read back if the values of its members are. -/
theorem readsAs_object (hdepth : 1 < depth) (h : List.Forall₂ (MemberReadsAs (depth - 1)) ms ns) :
    (object ms).ReadsAs depth (object ns) where
  opens := opens_object ms
  reads := by
    intro fuel rest hfuel _
    obtain ⟨fuel, rfl⟩ := (opens_object ms).exists_fuel hfuel
    cases h with
    | nil =>
        obtain ⟨fuel, rfl⟩ := Nat.exists_eq_add_one_of_ne_zero (n := fuel)
          (by rintro rfl; simp [compactChars] at hfuel)
        exact readValueFrom_brace hdepth _ _
    | @cons m n ms ns hm hms =>
        obtain ⟨name, v⟩ := m
        obtain ⟨name', w⟩ := n
        obtain ⟨rfl, hv⟩ : name = name' ∧ v.ReadsAs (depth - 1) w := hm
        simp only [compactChars, List.cons_append, List.append_assoc, List.length_cons,
          List.length_append] at hfuel ⊢
        have hopens := hv.opens.length_pos
        obtain ⟨fuel, rfl⟩ := Nat.exists_eq_add_one_of_ne_zero (n := fuel) (by omega)
        rw [readValueFrom_brace hdepth, readMembers_reads (nextName_textChars name _) hv
          (by omega) (closes_compactMembers ms rest), readMembers_compactMembers hms (by omega)]
        rfl

/-- An object is refused if a value in it is and those in front of it are read. -/
theorem refused_object (hdepth : 1 < depth) (h : List.Forall₂ (MemberReadsAs (depth - 1)) ms ns)
    (hv : v.Refused (depth - 1)) (ms' : List (String × Value)) :
    (object (ms ++ (name, v) :: ms')).Refused depth where
  opens := opens_object _
  refuses := by
    intro fuel rest hfuel _
    obtain ⟨fuel, rfl⟩ := (opens_object _).exists_fuel hfuel
    cases h with
    | nil =>
        simp only [List.nil_append, compactChars, List.cons_append, List.append_assoc,
          List.length_cons, List.length_append] at hfuel ⊢
        have hopens := hv.opens.length_pos
        obtain ⟨fuel, rfl⟩ := Nat.exists_eq_add_one_of_ne_zero (n := fuel) (by omega)
        obtain ⟨e, he⟩ := hv.refuses fuel (compactMembers ms' ++ rest) (by omega)
          (closes_compactMembers ms' rest)
        exact ⟨e, by rw [readValueFrom_brace hdepth, readMembers_next (nextName_textChars name _),
          he, Except.bind, Except.map]⟩
    | @cons m n ms ns hm hms =>
        obtain ⟨name', v'⟩ := m
        obtain ⟨-, hv'⟩ : name' = n.1 ∧ v'.ReadsAs (depth - 1) n.2 := hm
        simp only [compactChars, List.cons_append, List.append_assoc, List.length_cons,
          List.length_append] at hfuel ⊢
        have hopens := hv'.opens.length_pos
        obtain ⟨fuel, rfl⟩ := Nat.exists_eq_add_one_of_ne_zero (n := fuel) (by omega)
        have hlength : (compactMembers (ms ++ (name, v) :: ms')).length ≤ fuel := by omega
        obtain ⟨e, he⟩ : ∃ e, readMembers fuel (depth - 1) false
            (compactMembers (ms ++ (name, v) :: ms') ++ rest) = .error e :=
          readMembers_refused hms hv hlength
        exact ⟨e, by rw [readValueFrom_brace hdepth, readMembers_reads
          (nextName_textChars name' _) hv' (by omega) (closes_compactMembers _ rest), he,
          Except.map, Except.map]⟩

/-- The fuel of a reader is always enough. -/
theorem ReadsAs.readValue (h : v.ReadsAs depth w) (hrest : Closes rest) :
    readValue depth (v.compactChars ++ rest) = .ok (w, rest) :=
  h.reads _ rest (by rw [List.length_append]; omega) hrest

theorem Refused.readValue (h : v.Refused depth) (hrest : Closes rest) :
    ∃ e, readValue depth (v.compactChars ++ rest) = .error e :=
  h.refuses _ rest (by rw [List.length_append]; omega) hrest

end Value

/-! ## Whole texts -/

section Texts

variable {α : Type} {text : String} {a : α}

/-- A text is read if nothing but blank space is left behind what is read. -/
theorem parseWith_eq_ok_iff {read : List Char → Except Fault (α × List Char)} :
    parseWith read text = .ok a ↔
      ∃ rest, read text.toList = .ok (a, rest) ∧ expectEnd rest = .ok () := by
  rw [parseWith]
  cases read text.toList with
  | error f => simp [bind, Except.bind, Except.mapError]
  | ok found =>
      obtain ⟨b, rest⟩ := found
      cases hend : expectEnd rest <;>
        simp [bind, Except.bind, pure, Except.pure, Except.mapError, hend]

theorem parseWith_of_reads {read : List Char → Except Fault (α × List Char)}
    (h : read text.toList = .ok (a, [])) : parseWith read text = .ok a :=
  parseWith_eq_ok_iff.mpr ⟨[], h, rfl⟩

theorem parseWith_of_refused {read : List Char → Except Fault (α × List Char)} {f : Fault}
    (h : read text.toList = .error f) : ∃ e, parseWith read text = .error e := by
  simp only [parseWith, h, bind, Except.bind]
  exact ⟨_, rfl⟩

/-- A reader takes the text of a value off the front of a text and gives something for it. -/
structure Takes (read : List Char → Except Fault (α × List Char)) (v : Value) (a : α) : Prop where
  opens : Opens v.compactChars
  reads : ∀ rest, Closes rest → read (v.compactChars ++ rest) = .ok (a, rest)

variable {read : List Char → Except Fault (α × List Char)} {vs : List Value} {as : List α}
  {rest : List Char} {fuel : Nat}

/-- The further elements of a list are taken one by one. -/
theorem readElements_compactItems (h : List.Forall₂ (Takes read) vs as)
    (hfuel : (Value.compactItems vs).length ≤ fuel) :
    readElements read fuel false (Value.compactItems vs ++ rest) = .ok (as, rest) := by
  induction h generalizing fuel with
  | nil =>
      obtain ⟨fuel, rfl⟩ := Nat.exists_eq_add_one_of_ne_zero
        (Nat.ne_of_gt (Nat.lt_of_lt_of_le (Value.length_compactItems_pos []) hfuel))
      rfl
  | @cons v a vs as hv hvs ih =>
      obtain ⟨fuel, rfl⟩ := Nat.exists_eq_add_one_of_ne_zero
        (Nat.ne_of_gt (Nat.lt_of_lt_of_le (Value.length_compactItems_pos _) hfuel))
      simp only [Value.compactItems, List.cons_append, List.append_assoc, List.length_append,
        List.length_cons] at hfuel ⊢
      have hone := hv.reads _ (Value.closes_compactItems vs rest)
      simp only [readElements, nextItem_comma (hv.opens.append _), bind, Except.bind, hone,
        ih (show (Value.compactItems vs).length ≤ fuel by omega), pure, Except.pure]

/-- A list is taken element by element. -/
theorem readList_compactChars {read : Nat → List Char → Except Fault (α × List Char)} {depth : Nat}
    (hdepth : 1 < depth) (h : List.Forall₂ (Takes (read (depth - 1))) vs as) (rest : List Char) :
    readList read depth ((Value.array vs).compactChars ++ rest) = .ok (as, rest) := by
  have hbracket (cs : List Char) : readList read depth ('[' :: cs) =
      (readElements (read (depth - 1)) (cs.length + 1) true cs).mapError
        (Fault.settle closeList) := by
    simp only [readList, skipBlank_of_opens ⟨'[', cs, rfl, by decide, by decide⟩,
      if_neg (Nat.not_le.mpr hdepth)]
  cases h with
  | nil => exact hbracket _
  | @cons v a vs as hv hvs =>
      simp only [Value.compactChars, List.cons_append, List.append_assoc]
      have hone := hv.reads _ (Value.closes_compactItems vs rest)
      have hrest : readElements (read (depth - 1))
          (v.compactChars ++ (Value.compactItems vs ++ rest)).length false
          (Value.compactItems vs ++ rest) = .ok (as, rest) :=
        readElements_compactItems hvs (by simp only [List.length_append]; omega)
      simp only [hbracket, readElements, nextItem_of_opens (hv.opens.append _), bind, Except.bind,
        hone, hrest, pure, Except.pure, Except.mapError]

/-- A record with one field is taken from an object that has it as its only member. -/
theorem Shape.takes_object {σ : Type} {shape : Shape σ α} {f : Field σ} {depth : Nat} {v : Value}
    {s : σ} (hdepth : 1 < depth) (hfields : shape.fields = [f])
    (hunset : f.isSet shape.start = false) (hv : Takes (f.read (depth - 1) shape.start) v s)
    (hbuild : shape.build s = .ok a) : Takes (shape.read depth) (.object [(f.name, v)]) a where
  opens := Value.opens_object _
  reads := by
    intro rest _
    have hone := hv.reads ('\x7d' :: rest) (.brace rest)
    have hend (s : σ) (fuel : Nat) :
        readMembers [f] (depth - 1) (fuel + 1) false s ('\x7d' :: rest) = .ok (s, rest) := by
      rw [readMembers]
      rfl
    have hmembers (fuel : Nat) : readMembers [f] (depth - 1) (fuel + 2) true shape.start
        (textChars f.name ++ ':' :: (v.compactChars ++ '\x7d' :: rest)) = .ok (s, rest) := by
      rw [readMembers, Value.nextName_textChars]
      simp only [bind, Except.bind, readText_textChars, List.find?_cons, beq_self_eq_true, hunset,
        Bool.false_eq_true, if_false, skipColon_colon, hone, hend]
    simp only [Value.compactChars, Value.compactMembers, List.cons_append, List.append_assoc,
      List.nil_append, Shape.read, skipBlank_of_opens ⟨'\x7b', _, rfl, by decide, by decide⟩,
      if_neg (Nat.not_le.mpr hdepth), hfields, bind, Except.bind]
    obtain ⟨fuel, hfuel⟩ : ∃ fuel,
        (textChars f.name ++ ':' :: (v.compactChars ++ '\x7d' :: rest)).length = fuel + 1 :=
      ⟨_, by rw [textChars]; rfl⟩
    rw [hfuel, hmembers]
    simp only [Except.mapError, hbuild]
    rfl

end Texts

end Json
end MerkleStore
