import MerkleStore.CommandLine.Run
import MerkleStore.Proofs.Damage

/-!
# What opening does to a file

The front of a file behind its header is a row of whole frames (`Journal.Leads`), and what
is read of them depends on their own bytes alone. Opening takes the longest such row, if
nothing stands behind it but the remnant of one frame (`Journal.replayFrames_eq_ok_iff`):
its records make the state, and the file is cut back to it (`Journal.Holds`). So the next
opening finds the same row with nothing behind it, and whoever cannot open a file leaves it
alone (`Journal.opening_exact`). A command writes the file when it has done its work; one that
only looks writes what opening has left.
-/

namespace MerkleStore

/-- Where a path leads to a file with this content. -/
structure FileSystem.Finds {σ : Type} (files : FileSystem (StateM σ)) (path : String)
    (content : Bytes) (x : σ) : Prop where
  present : files.isPresent path x = (true, x)
  read : files.read path x = (.ok content, x)

namespace Journal

open CommandLine

variable {z : Codec} {bs bytes : Bytes} {batches batches' : List (List Record)} {n n' : Nat}
  {s s' : State} {fuel offset offset' : Nat} {store : Store}

/-- A row of frames stands in its own bytes, whatever stands behind them. -/
theorem Leads.take_append (h : Leads z bs batches n) (rest : Bytes) :
    Leads z (bs.take n ++ rest) batches n := by
  induction h with
  | nil bs => exact .nil _
  | @cons bs rs size batches n hframe h ih =>
      have hlength : (bs.take size).length = size :=
        List.length_take_of_le (Frame.size_le_of_decode hframe).2
      rw [List.take_add, List.append_assoc]
      refine .cons (Frame.decode_take_append hframe _) ?_
      rwa [List.drop_left' hlength]

/-- Of two rows of frames at one place the first goes on at least as far, if no frame stands
behind it. -/
theorem Leads.longest (h : Leads z bs batches n)
    (hend : ∀ rs size, Frame.decode z (bs.drop n) ≠ .ok (.whole rs size))
    (h' : Leads z bs batches' n') : batches' <+: batches ∧ n' ≤ n := by
  induction h generalizing batches' n' with
  | nil bs =>
      cases h' with
      | nil => exact ⟨List.prefix_refl _, Nat.le_refl _⟩
      | cons hframe _ => exact absurd hframe (hend _ _)
  | cons hframe h ih =>
      cases h' with
      | nil => exact ⟨List.nil_prefix, Nat.zero_le _⟩
      | cons hframe' h' =>
          rw [hframe] at hframe'
          cases hframe'
          rw [← List.drop_drop] at hend
          obtain ⟨hfront, hle⟩ := ih hend h'
          exact ⟨List.cons_prefix_cons.mpr ⟨rfl, hfront⟩, Nat.add_le_add_left hle _⟩

/-- What may be left of a frame that was not written to its end: it is too short, with no
whole frame behind its first byte, or it goes to the end of the file and has a wrong
checksum. -/
inductive IsRemnant (z : Codec) (bs : Bytes) : Prop
  | short (hread : Frame.decode z bs = .ok .truncated) (hno : Frame.isWithin z bs.tail = false)
  | unsound (size : Nat) (hread : Frame.decode z bs = .ok (.wrongChecksum size))
      (hend : bs.length ≤ size)

theorem IsRemnant.nil : IsRemnant z [] := .short rfl rfl

theorem IsRemnant.decode_ne (h : IsRemnant z bs) (rs : List Record) (size : Nat) :
    Frame.decode z bs ≠ .ok (.whole rs size) := by
  cases h with
  | short hread => simp [hread]
  | unsound _ hread => simp [hread]

/-! ## Replaying a file -/

theorem replayFrames_of_isRemnant (h : IsRemnant z bs) (fuel offset : Nat) (s : State) :
    replayFrames z fuel offset s bs = .ok (s, offset) := by
  cases fuel with
  | zero => rfl
  | succ fuel =>
      rw [replayFrames]
      split
      · rfl
      · cases h with
        | short hread hno => simp [hread, hno]
        | unsound size hread hend => simp [hread, Nat.not_lt.mpr hend]

/-- Frames that nothing follows but a remnant are replayed one after the other. -/
theorem Leads.replayFrames_eq (h : Leads z bs batches n) (hend : IsRemnant z (bs.drop n))
    (hfuel : bs.length ≤ fuel) (offset : Nat) (s : State) :
    replayFrames z fuel offset s bs =
      (batches.foldlM State.applyAll s).map fun s' => (s', offset + n) := by
  obtain ⟨more, rfl⟩ := Nat.exists_eq_add_of_le
    (h.length_le.trans (h.le_length.trans hfuel))
  rw [h.replayFrames_add]
  cases batches.foldlM State.applyAll s with
  | error e => rfl
  | ok s' => exact replayFrames_of_isRemnant hend more (offset + n) s'

/-- A file that is replayed is a row of frames and a remnant. -/
theorem exists_leads_of_replayFrames (hfuel : bs.length ≤ fuel)
    (h : replayFrames z fuel offset s bs = .ok (s', offset')) :
    ∃ batches n, Leads z bs batches n ∧ IsRemnant z (bs.drop n) := by
  induction fuel generalizing offset s bs with
  | zero =>
      obtain rfl := List.eq_nil_of_length_eq_zero (Nat.le_zero.mp hfuel)
      exact ⟨[], 0, .nil _, .nil⟩
  | succ fuel ih =>
      rw [replayFrames] at h
      split at h
      · next hempty =>
          obtain rfl := List.isEmpty_iff.mp hempty
          exact ⟨[], 0, .nil _, .nil⟩
      · split at h
        · cases h
        · next rs size hframe =>
            split at h
            · cases h
            · have hpos := (Frame.size_le_of_decode hframe).1
              rw [Frame.headerSize] at hpos
              obtain ⟨batches, n, hleads, hend⟩ := ih (by rw [List.length_drop]; omega) h
              rw [List.drop_drop] at hend
              exact ⟨rs :: batches, size + n, .cons hframe hleads, hend⟩
        · next hread =>
            split at h
            · cases h
            · next hno => exact ⟨[], 0, .nil _, .short hread (Bool.not_eq_true _ ▸ hno)⟩
        · next size hread =>
            split at h
            · cases h
            · next hend => exact ⟨[], 0, .nil _, .unsound size hread (Nat.not_lt.mp hend)⟩

/-- A file is replayed if it is a row of frames and a remnant and the records in the frames
can be applied. -/
theorem replayFrames_eq_ok_iff (hfuel : bs.length ≤ fuel) :
    replayFrames z fuel offset s bs = .ok (s', offset') ↔
      ∃ batches n, Leads z bs batches n ∧ IsRemnant z (bs.drop n) ∧
        batches.foldlM State.applyAll s = .ok s' ∧ offset' = offset + n := by
  constructor
  · intro h
    obtain ⟨batches, n, hleads, hend⟩ := exists_leads_of_replayFrames hfuel h
    rw [hleads.replayFrames_eq hend hfuel] at h
    cases hbatches : batches.foldlM State.applyAll s with
    | error e =>
        rw [hbatches] at h
        cases h
    | ok s₁ =>
        rw [hbatches] at h
        cases h
        exact ⟨batches, n, hleads, hend, hbatches, rfl⟩
  · rintro ⟨batches, n, hleads, hend, hbatches, rfl⟩
    rw [hleads.replayFrames_eq hend hfuel, hbatches]
    rfl

theorem foldlM_applyAll (batches : List (List Record)) (s : State) :
    batches.foldlM State.applyAll s = s.applyAll batches.flatten := by
  induction batches generalizing s with
  | nil => rfl
  | cons rs batches ih =>
      rw [List.foldlM_cons, List.flatten_cons, State.applyAll_append]
      exact bind_congr ih

/-- The header alone tells whether a file starts as it should. -/
theorem checkHeader_take (hn : headerSize ≤ n) :
    checkHeader (bytes.take n) = checkHeader bytes := by
  rw [headerSize] at hn
  have hlength : (bytes.take n).length < headerSize ↔ bytes.length < headerSize := by
    rw [List.length_take, headerSize]
    omega
  have hversion : ((bytes.take n).drop 8).take 4 = (bytes.drop 8).take 4 := by
    rw [List.drop_take, List.take_take, Nat.min_eq_left (by omega)]
  simp only [checkHeader, hlength, List.take_take, hversion, Nat.min_eq_left (by omega : 8 ≤ n)]

theorem headerSize_le_of_checkHeader (h : checkHeader bytes = .ok ()) :
    headerSize ≤ bytes.length := by
  rw [checkHeader] at h
  split at h
  · cases h
  · next hstart => exact Nat.not_lt.mp fun hlength => hstart (.inl hlength)

/-- When a file is opened, and as what. -/
theorem ofFile_eq_ok_iff :
    Store.ofFile z bytes = .ok store ↔
      checkHeader bytes = .ok () ∧ ∃ batches n s₀ s,
        Leads z (bytes.drop headerSize) batches n ∧ IsRemnant z (bytes.drop (headerSize + n)) ∧
          State.empty.applyAll batches.flatten = .ok s₀ ∧ s₀.reindex = .ok s ∧
            store = ⟨s, some ⟨z, bytes.take (headerSize + n), headerSize + n⟩, ∅⟩ := by
  have hfuel : (bytes.drop headerSize).length ≤ bytes.length := by
    rw [List.length_drop]
    omega
  simp only [Store.ofFile, recover, bind_eq_ok, replayFrames_eq_ok_iff hfuel, Prod.exists,
    foldlM_applyAll, List.drop_drop]
  constructor
  · rintro ⟨s, f, ⟨_, hheader, s₀, offset, hreplay, s', hs, hrecovered⟩, hstore⟩
    obtain ⟨batches, n, hleads, hend, hbatches, rfl⟩ := hreplay
    cases hrecovered
    cases hstore
    exact ⟨hheader, batches, n, s₀, s, hleads, hend, hbatches, hs, rfl⟩
  · rintro ⟨hheader, batches, n, s₀, s, hleads, hend, hbatches, hs, rfl⟩
    exact ⟨s, _, ⟨(), hheader, s₀, _, ⟨batches, n, hleads, hend, hbatches, rfl⟩, s, hs, rfl⟩, rfl⟩

theorem afterOpening_of_ofFile {e : Error} (h : Store.ofFile z bytes = .error e) :
    afterOpening z bytes = bytes := by
  rw [afterOpening]
  split
  · next hrecover =>
      rw [Store.ofFile, hrecover] at h
      cases h
  · rfl

theorem afterOpening_eq (h : Store.ofFile z bytes = .ok store) :
    store.journal.map Journal.bytes = some (afterOpening z bytes) := by
  obtain ⟨⟨s, f⟩, hrecover, hstore⟩ := bind_eq_ok.mp h
  cases hstore
  rw [afterOpening, hrecover]
  rfl

/-- What an open store has taken from its file. -/
structure Holds (z : Codec) (bytes : Bytes) (batches : List (List Record)) (n : Nat)
    (store : Store) : Prop where
  /-- The file starts as a file of this version does. -/
  header : checkHeader bytes = .ok ()
  /-- Whole frames with a right checksum stand behind the header. -/
  frames : Leads z (bytes.drop headerSize) batches n
  /-- There is no longer row of them. -/
  longest : ∀ batches' n', Leads z (bytes.drop headerSize) batches' n' →
    batches' <+: batches ∧ n' ≤ n
  /-- The state is what their records make, with its indexes made again. -/
  state : ∃ s₀, State.empty.applyAll batches.flatten = .ok s₀ ∧ s₀.reindex = .ok store.state
  /-- The file is cut back to its header and these frames, and goes on there. -/
  journal : store.journal = some ⟨z, bytes.take (headerSize + n), headerSize + n⟩
  length : (bytes.take (headerSize + n)).length = headerSize + n
  /-- All trees are served. -/
  quarantined : store.quarantined = ∅

theorem exists_holds (h : Store.ofFile z bytes = .ok store) :
    ∃ batches n, Holds z bytes batches n store := by
  obtain ⟨hheader, batches, n, s₀, s, hleads, hend, hbatches, hs, rfl⟩ := ofFile_eq_ok_iff.mp h
  rw [← List.drop_drop] at hend
  have hlength := hleads.le_length
  rw [List.length_drop] at hlength
  have hlong := headerSize_le_of_checkHeader hheader
  exact ⟨batches, n, {
    header := hheader
    frames := hleads
    longest := fun _ _ h' => hleads.longest hend.decode_ne h'
    state := ⟨s₀, hbatches, hs⟩
    journal := rfl
    length := List.length_take_of_le (by omega)
    quarantined := rfl }⟩

/-- The file that is left has the same frames, and nothing behind them. -/
theorem Holds.ofFile_take (h : Holds z bytes batches n store) :
    Store.ofFile z (bytes.take (headerSize + n)) = .ok store := by
  obtain ⟨s₀, hbatches, hs⟩ := h.state
  refine ofFile_eq_ok_iff.mpr ⟨?_, batches, n, s₀, store.state, ?_, ?_, hbatches, hs, ?_⟩
  · rw [checkHeader_take (Nat.le_add_right _ _), h.header]
  · have hleads := h.frames.take_append []
    rwa [List.append_nil, List.take_drop] at hleads
  · rw [List.drop_eq_nil_of_le (Nat.le_of_eq h.length)]
    exact .nil
  · rw [List.take_take, Nat.min_self, ← h.journal, ← h.quarantined]

/-! ## Commands on a file -/

section

variable {σ : Type} {files : FileSystem (StateM σ)} {x : σ} {path : String}

/-- A database that is there is opened as what its file holds. -/
theorem openDatabase_eq (hfinds : files.Finds path bytes x) :
    openDatabase z files path x = (Store.ofFile z bytes, x) := by
  simp only [openDatabase, bind, StateT.bind, hfinds.present, hfinds.read, if_true]
  rfl

theorem storeFor_eq {command : Command} (hcommand : command ≠ .init)
    (hfinds : files.Finds path bytes x) :
    storeFor z files path command x =
      ((Store.ofFile z bytes).mapError (Failure.database path), x) := by
  rw [storeFor]
  · simp only [bind, StateT.bind, openDatabase_eq hfinds]
    rfl
  · exact hcommand

variable {connect : String → Except ConnectionError Peer} {o : Options} {c : Settings}
  {command : Command}

/-- A command that cannot open its database leaves all files as they are. -/
theorem execute_of_ofFile_eq_error {e : Error} (hcommand : command ≠ .init)
    (hfinds : files.Finds c.path bytes x) (h : Store.ofFile z bytes = .error e) :
    execute z files connect o c command x = ((Failure.database c.path e).outcome, x) := by
  simp only [execute, bind, StateT.bind, storeFor_eq hcommand hfinds, h]
  rfl

/-- A command that only looks at its database leaves the file as opening has left it. -/
theorem snd_execute_of_ofFile (hcommand : command ≠ .init)
    (hfinds : files.Finds c.path bytes x) (h : Store.ofFile z bytes = .ok store)
    (hlooks : (perform o c.path connect command store).2 = store) :
    (execute z files connect o c command x).2 =
      (files.write c.path (afterOpening z bytes) x).2 := by
  have hfile : fileOf store = some (afterOpening z bytes) := afterOpening_eq h
  simp only [execute, bind, StateT.bind, storeFor_eq hcommand hfinds, h, Except.mapError,
    hlooks, hfile]
  rfl

end

/-- Whoever cannot open a file leaves it as it is. Whoever can has the state that the longest
row of whole frames makes, and cuts the file back to them; opening it once more gives the
same and changes nothing. -/
theorem opening_exact (z : Codec) (bytes : Bytes) :
    (∀ e, Store.ofFile z bytes = .error e →
      afterOpening z bytes = bytes ∧
        ∀ (σ : Type) (files : FileSystem (StateM σ)) (x : σ) connect o c command,
          command ≠ .init → files.Finds c.path bytes x →
            (execute z files connect o c command x).2 = x) ∧
      ∀ store, Store.ofFile z bytes = .ok store →
        ∃ batches n, Holds z bytes batches n store ∧
          afterOpening z bytes = bytes.take (headerSize + n) ∧
          Store.ofFile z (afterOpening z bytes) = .ok store ∧
          afterOpening z (afterOpening z bytes) = afterOpening z bytes ∧
          ∀ (σ : Type) (files : FileSystem (StateM σ)) (x : σ) connect o c command,
            command ≠ .init → files.Finds c.path bytes x →
              (perform o c.path connect command store).2 = store →
                (execute z files connect o c command x).2 =
                  (files.write c.path (afterOpening z bytes) x).2 := by
  constructor
  · intro e h
    refine ⟨afterOpening_of_ofFile h, ?_⟩
    intro σ files x connect o c command hcommand hfinds
    rw [execute_of_ofFile_eq_error hcommand hfinds h]
  · intro store h
    obtain ⟨batches, n, hholds⟩ := exists_holds h
    have hfile : afterOpening z bytes = bytes.take (headerSize + n) := by
      have hjournal := afterOpening_eq h
      rw [hholds.journal] at hjournal
      exact (Option.some.inj hjournal).symm
    have hagain : Store.ofFile z (afterOpening z bytes) = .ok store := hfile ▸ hholds.ofFile_take
    refine ⟨batches, n, hholds, hfile, hagain, ?_, ?_⟩
    · -- both openings give the same journal
      exact Option.some.inj ((afterOpening_eq hagain).symm.trans (afterOpening_eq h))
    · intro σ files x connect o c command hcommand hfinds hlooks
      exact snd_execute_of_ofFile hcommand hfinds h hlooks

/-- Files that are all one. -/
def oneFile : FileSystem (StateM Bytes) where
  isPresent _ := return true
  read _ := return .ok (← get)
  write _ content := do
    set content
    return .ok ()
  makeAbove _ := return .ok ()

/-- A small file without its last byte loses its last frame, and one without a byte in the
midst of it is refused. -/
theorem opening_exact_of_sampleFrame :
    let torn := header ++ sampleFrame 0 ++ (sampleFrame 1).dropLast
    let broken := header ++ (sampleFrame 0).dropLast ++ sampleFrame 1
    let list := execute sampleCodec oneFile (fun _ => .error .unreachable)
      ⟨none, none, .json, false⟩ ⟨"db", .initial⟩ .trees
    (∃ store batches n, Store.ofFile sampleCodec torn = .ok store ∧
      Holds sampleCodec torn batches n store ∧
      Store.ofFile sampleCodec (afterOpening sampleCodec torn) = .ok store ∧
      afterOpening sampleCodec torn = header ++ sampleFrame 0 ∧
      (list torn).2 = header ++ sampleFrame 0) ∧
    ∃ e, Store.ofFile sampleCodec broken = .error e ∧ afterOpening sampleCodec broken = broken ∧
      (list broken).2 = broken := by
  intro torn broken list
  have htorn : (Store.ofFile sampleCodec torn).toOption.isSome = true := by decide +kernel
  have hbroken : (Store.ofFile sampleCodec broken).toOption.isSome = false := by decide +kernel
  have hfile : afterOpening sampleCodec torn = header ++ sampleFrame 0 := by decide +kernel
  clear_value torn broken
  constructor
  · cases h : Store.ofFile sampleCodec torn with
    | error e => simp [h, Except.toOption] at htorn
    | ok store =>
        obtain ⟨batches, n, hholds, -, hagain, -, hexecute⟩ :=
          (opening_exact sampleCodec torn).2 store h
        refine ⟨store, batches, n, rfl, hholds, hagain, hfile, ?_⟩
        rw [hexecute _ oneFile torn _ _ _ _ (by decide) ⟨rfl, rfl⟩ rfl, hfile]
        rfl
  · cases h : Store.ofFile sampleCodec broken with
    | ok store => simp [h, Except.toOption] at hbroken
    | error e =>
        obtain ⟨hafter, hfiles⟩ := (opening_exact sampleCodec broken).1 e h
        exact ⟨e, rfl, hafter, hfiles _ oneFile broken _ _ _ _ (by decide) ⟨rfl, rfl⟩⟩

end Journal

end MerkleStore
