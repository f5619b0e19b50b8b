import MerkleStore.Proofs.Recovery
import MerkleStore.Proofs.Writes

/-!
# Writes that were cut short

A file is cut somewhere inside the frame of the last write. What is left of that frame
is no whole one, so the store before the write comes back (`Store.Resumes`), with one
exception: the bytes that are left are searched for a whole frame, and keys and values
may contain one. Then the file is refused (`torn_write_of_run`). Nothing is assumed
about digests.
-/

namespace MerkleStore

namespace Journal

variable {f : Journal} {s : State} {rs : List Record} {frame : Bytes}

theorem Keeps.bytes_write (hk : f.Keeps s) (frame : Bytes) :
    (f.write frame).bytes = f.bytes ++ frame := by
  obtain ⟨-, -, -, -, -, hoffset, -⟩ := hk
  rw [Journal.write, hoffset, overwrite_length]

/-- A part of a frame behind the last whole one is left out, unless it holds a whole
frame itself. -/
theorem Keeps.recover_torn (hk : f.Keeps s) (hframe : Frame.encode f.codec rs = .ok frame) {n : Nat}
    (hpos : 0 < n) (hn : n < frame.length) :
    recover f.codec (f.bytes ++ frame.take n) =
      if Frame.isWithin f.codec (frame.take n).tail then
        .error (.corruption (.overrun f.bytes.length))
      else recover f.codec f.bytes := by
  obtain ⟨batches, frames, s₀, hframes, hbytes, -, hbatches, -⟩ := hk
  have hdecode := Frame.decode_take hframe hn
  have hne : frame.take n ≠ [] := by
    refine List.ne_nil_of_length_pos ?_
    rw [List.length_take]
    omega
  rw [hbytes, recover_append hframes hne (by simp [hdecode]), tailError?, hdecode, hbatches]
  cases Frame.isWithin f.codec (frame.take n).tail <;> rfl

end Journal

namespace State

variable {a b : State} {rs : List Record}

theorem Alike.checkBatch_eq (hab : a.Alike b) (rs : List Record) :
    a.checkBatch rs = b.checkBatch rs := by
  rw [checkBatch, checkBatch, hab.counts_eq]

end State

namespace Store

variable {r s : Store} {f : Journal}

/-- Stores that differ in their indexes at most commit a transaction in the same way. -/
theorem commit_alike (hstate : r.state.Alike s.state) (hjournal : r.journal = s.journal)
    (tx : Transaction) :
    (commit tx r).1 = (commit tx s).1 ∧ (commit tx r).2.state.Alike (commit tx s).2.state ∧
      (commit tx r).2.journal = (commit tx s).2.journal := by
  have hrecord : r.record tx.records = s.record tx.records := by rw [record, record, hjournal]
  simp only [commit, hstate.checkBatch_eq, hrecord]
  split
  · exact ⟨rfl, hstate, hjournal⟩
  · cases hcheck : s.state.checkBatch tx.records with
    | error e => exact ⟨rfl, hstate, hjournal⟩
    | ok _ =>
        cases s.record tx.records with
        | error e => exact ⟨rfl, hstate, hjournal⟩
        | ok journal =>
            obtain ⟨b, hb⟩ := State.exists_applyAll_of_checkBatch hcheck
            obtain ⟨a, ha, halike⟩ := hstate.symm.applyAll hb
            simp only [ha, hb]
            refine ⟨trivial, ?_, trivial⟩
            exact (State.alike_foldl_updateIndex a _).trans
              (halike.symm.trans (State.alike_foldl_updateIndex b _).symm)

/-- A store `r` has come back as the store `s`: it has the same nodes, roots, statuses and
operations in the same file, commits what that one would, and everything it writes later
is found again. -/
structure Resumes (r s : Store) : Prop where
  state : r.state.Alike s.state
  journal : r.journal = s.journal
  commits : ∀ tx, (commit tx r).1 = (commit tx s).1 ∧
    (commit tx r).2.state.Alike (commit tx s).2.state ∧
    (commit tx r).2.journal = (commit tx s).2.journal
  found : ∀ steps, ∃ r' f' r'', run r steps = .ok r' ∧ r'.journal = some f' ∧
    ofFile f'.codec f'.bytes = .ok r'' ∧ r''.state.Alike r'.state ∧ r''.journal = some f'

theorem Orderly.resumes (hr : r.Orderly) (hstate : r.state.Alike s.state)
    (hjournal : r.journal = s.journal) (hf : r.journal = some f) : r.Resumes s where
  state := hstate
  journal := hjournal
  commits := commit_alike hstate hjournal
  found := by
    intro steps
    obtain ⟨r', hrun, hr', hfile⟩ := hr.exists_run steps
    rw [hf, Option.map_some] at hfile
    obtain ⟨f', hf', -⟩ := Option.map_eq_some_iff.mp hfile
    obtain ⟨r'', hopen, -, halike, hjournal'⟩ := hr'.exists_reopen
    rw [reopen, hf'] at hopen
    exact ⟨r', f', r'', hrun, hf', hopen, halike, hjournal'.trans hf'⟩

/-- A file that was cut inside the frame of its last write is opened as it was before that
write, unless a whole frame is found in what is left of the last one. -/
theorem Orderly.ofFile_torn {c : Call} {f' : Journal} (hs : s.Orderly) (hf : s.journal = some f)
    (hc : c.isWrite = true) (hf' : (c.perform s).2.journal = some f') {n : Nat}
    (hpos : f.bytes.length < n) (hn : n < f'.bytes.length) :
    if Frame.isWithin f.codec ((f'.bytes.take n).drop (f.bytes.length + 1)) then
      ofFile f.codec (f'.bytes.take n) = .error (.corruption (.overrun f.bytes.length))
    else ∃ r, ofFile f.codec (f'.bytes.take n) = .ok r ∧ r.Resumes s := by
  have hkeeps := hs.kept f hf
  rcases Call.perform_writes hs hc with heq | hw
  · -- without a write there is nothing to cut
    rw [heq, hf] at hf'
    cases hf'
    omega
  · rcases hw.logged with ⟨hnone, -⟩ | ⟨f₁, frame, rs, -, hf₁, hlogged, hframe, -⟩
    · rw [hf] at hnone
      cases hnone
    · rw [hf] at hf₁
      cases hf₁
      rw [hf'] at hlogged
      cases hlogged
      rw [hkeeps.bytes_write] at hn ⊢
      rw [List.length_append] at hn
      obtain ⟨k, rfl⟩ : ∃ k, n = f.bytes.length + k := ⟨n - f.bytes.length, by omega⟩
      have htake : (f.bytes ++ frame).take (f.bytes.length + k) = f.bytes ++ frame.take k :=
        List.take_length_add_append k
      have hdrop : (f.bytes ++ frame.take k).drop (f.bytes.length + 1) = (frame.take k).tail := by
        rw [List.drop_length_add_append, List.drop_one]
      have htorn := hkeeps.recover_torn hframe (n := k) (by omega) (by omega)
      rw [htake, hdrop]
      obtain ⟨r, hopen, hr, halike, hjournal⟩ := hs.exists_reopen
      rw [reopen, hf] at hopen
      split
      · next hwithin =>
          rw [if_pos hwithin] at htorn
          simp only [ofFile, htorn, bind, Except.bind]
      · next hwithin =>
          rw [if_neg hwithin] at htorn
          refine ⟨r, ?_, hr.resumes halike hjournal (hjournal.trans hf)⟩
          rw [← hopen]
          simp only [ofFile, htorn]

end Store

/-- After every run in a file, cutting short the next write leaves the store before it,
unless a whole frame is found in what is left of the frame. -/
theorem torn_write_of_run (z : Codec) (steps : List Step) :
    ∃ s f, run (.create z) steps = .ok s ∧ s.journal = some f ∧
      ∀ (c : Call) (f' : Journal) (n : Nat), c.isWrite = true →
        (c.perform s).2.journal = some f' → f.bytes.length < n → n < f'.bytes.length →
        if Frame.isWithin z ((f'.bytes.take n).drop (f.bytes.length + 1)) then
          Store.ofFile z (f'.bytes.take n) = .error (.corruption (.overrun f.bytes.length))
        else ∃ r, Store.ofFile z (f'.bytes.take n) = .ok r ∧ r.Resumes s := by
  obtain ⟨s, hrun, hs, hfile⟩ := (Store.Orderly.create z).exists_run steps
  obtain ⟨f, hf, hcodec⟩ := Option.map_eq_some_iff.mp hfile
  refine ⟨s, f, hrun, hf, fun c f' n hc hf' hpos hn => ?_⟩
  rw [show z = f.codec from hcodec.symm]
  exact hs.ofFile_torn hf hc hf' hpos hn

/-- Whether a call after a run makes a file longer by two bytes at least, and what holds
of it before and after. -/
def writesFile (steps : List Step) (c : Call) (p : Journal → Journal → Bool) : Bool :=
  match run (.create sampleCodec) steps with
  | .error _ => false
  | .ok s =>
    match s.journal, (c.perform s).2.journal with
    | some f, some f' => f.bytes.length + 1 < f'.bytes.length && p f f'
    | _, _ => false

theorem exists_of_writesFile {steps : List Step} {c : Call} {p : Journal → Journal → Bool}
    (h : writesFile steps c p = true) :
    ∃ s f f', run (.create sampleCodec) steps = .ok s ∧ s.journal = some f ∧
      (c.perform s).2.journal = some f' ∧ f.bytes.length + 1 < f'.bytes.length ∧
      p f f' = true := by
  rw [writesFile] at h
  cases hrun : run (.create sampleCodec) steps with
  | error e => simp [hrun] at h
  | ok s =>
      simp only [hrun] at h
      split at h
      · next f f' hf hf' =>
          simp only [Bool.and_eq_true, decide_eq_true_eq] at h
          exact ⟨s, f, f', rfl, hf, hf', h⟩
      · cases h

/-- Whether a whole frame is found in what is left of the last one without its last byte. -/
def leavesFrame (f f' : Journal) : Bool :=
  Frame.isWithin sampleCodec ((f'.bytes.take (f'.bytes.length - 1)).drop (f.bytes.length + 1))

/-- The small run and one more tree, of whose frame the last byte is lost. -/
theorem torn_write_of_sampleSteps :
    ∃ s f f' r, run (.create sampleCodec) sampleSteps = .ok s ∧ s.journal = some f ∧
      ((Call.addTree ⟨.replicate 8⟩).perform s).2.journal = some f' ∧
      f.bytes.length + 1 < f'.bytes.length ∧
      Store.ofFile sampleCodec (f'.bytes.take (f'.bytes.length - 1)) = .ok r ∧ r.Resumes s := by
  have hfiles : writesFile sampleSteps (.addTree ⟨.replicate 8⟩) (fun f f' => !leavesFrame f f') =
      true := by decide +kernel
  obtain ⟨s, f, f', hrun, hf, hf', hlong, hwithin⟩ := exists_of_writesFile hfiles
  obtain ⟨s₁, f₁, hrun₁, hf₁, htorn⟩ := torn_write_of_run sampleCodec sampleSteps
  rw [hrun] at hrun₁
  cases hrun₁
  rw [hf] at hf₁
  cases hf₁
  have hopen := htorn _ f' (f'.bytes.length - 1) rfl hf' (by omega) (by omega)
  rw [if_neg (by simpa [leavesFrame] using hwithin)] at hopen
  obtain ⟨r, hr, hresumes⟩ := hopen
  exact ⟨s, f, f', r, hrun, hf, hf', hlong, hr, hresumes⟩

/-- A key that is a frame itself, the one in which its tree was created. The codec leaves it in
one piece, and of the frame with the key the last byte is lost. -/
theorem torn_write_refused :
    let frame := Frame.wrap (sampleCodec.encode (Record.writeList [.root (.empty sampleTree)]))
    let c := Call.insert sampleTree frame [10] none none
    ∃ s f f', run (.create sampleCodec) [.call (.addTree sampleTree)] = .ok s ∧
      s.journal = some f ∧ f.bytes = Journal.header ++ frame ∧
      (c.perform s).2.journal = some f' ∧ f.bytes.length + 1 < f'.bytes.length ∧
      Store.ofFile sampleCodec (f'.bytes.take (f'.bytes.length - 1)) =
        .error (.corruption (.overrun f.bytes.length)) := by
  intro frame c
  have hfiles : writesFile [.call (.addTree sampleTree)] c
      (fun f f' => leavesFrame f f' && decide (f.bytes = Journal.header ++ frame)) = true := by
    decide +kernel
  obtain ⟨s, f, f', hrun, hf, hf', hlong, hboth⟩ := exists_of_writesFile hfiles
  obtain ⟨hwithin, hbytes⟩ := Bool.and_eq_true_iff.mp hboth
  obtain ⟨s₁, hrun₁, hs, hfile⟩ :=
    (Store.Orderly.create sampleCodec).exists_run [.call (.addTree sampleTree)]
  obtain rfl : s = s₁ := Except.ok.inj (hrun.symm.trans hrun₁)
  have hcodec : f.codec = sampleCodec := by
    rw [hf] at hfile
    exact Option.some.inj hfile
  have hopen := hs.ofFile_torn hf rfl hf' (n := f'.bytes.length - 1) (by omega) (by omega)
  rw [leavesFrame] at hwithin
  rw [hcodec, if_pos hwithin] at hopen
  exact ⟨s, f, f', hrun, hf, of_decide_eq_true hbytes, hf', hlong, hopen⟩

end MerkleStore
